import ImxTest.Nodes.Table

/-! Which indexes the sources of nodes are looked up at. -/
namespace ImxTest.Nodes
open Pitcher Lib Lib.Prog Lib.Runs

def InRange (source : Int) : Prop := 0 ≤ source ∧ source < MAX_NODE_COUNT

instance (source : Int) : Decidable (InRange source) := instDecidableAnd

/-- The indexes, except where it is only asked whether a node has stopped. -/
def Table.InRange (table : Table) : Prop :=
  ∀ entry ∈ table.log, entry.1 ≠ .poll → Nodes.InRange entry.2

/-- What a node is made for does not change, nor where its source is. -/
def Table.shape (table : Table) (key : Nat) : Option (Subcmd × Int) :=
  (table.nodes key).map fun node => (node.type, node.source)

/-- A table of that shape, in which all went well so far. -/
structure Sane (shape : Nat → Option (Subcmd × Int)) (place : Place) (table : Table) : Prop where
  shape : ∀ key, table.shape key = shape key
  place : table.place = place
  inRange : table.InRange

/-- A program that keeps a table sane, with what is known of its value. -/
def Keeps {α : Type} (shape : Nat → Option (Subcmd × Int)) (place : Place) (m : M α)
    (known : α → Prop) : Prop :=
  Triple (Sane shape place) m (fun a table => Sane shape place table ∧ known a) (Sane shape place)

/-- An index that may be looked up here. -/
def Allowed (place : Place) (source : Int) : Prop := place = .poll ∨ InRange source

section Keeping
variable {α β : Type} {shape : Nat → Option (Subcmd × Int)} {place : Place} {m : M α} {f : α → M β}
  {known : α → Prop} {result : β → Prop} {key src dst : Nat} {source : Int} {node : TestNode}

theorem Keeps.pure {a : α} (holds : known a) : Keeps shape place (pure a) known :=
  Triple.pure fun _ sane => ⟨sane, holds⟩

theorem Keeps.stop : Keeps shape place (Prog.stop : M α) known := Triple.stop fun _ sane => sane

theorem Keeps.bind (first : Keeps shape place m known)
    (next : ∀ a, known a → Keeps shape place (f a) result) : Keeps shape place (m >>= f) result := by
  refine Triple.bind first fun a table sane => ?_
  exact next a sane.2 table sane.1

theorem Keeps.ite {c : Prop} [Decidable c] {other : M α} (yes : Keeps shape place m known)
    (no : Keeps shape place other known) : Keeps shape place (if c then m else other) known := by
  split
  · exact yes
  · exact no

theorem Keeps.mono {less : α → Prop} (keeps : Keeps shape place m known)
    (weaker : ∀ a, known a → less a) : Keeps shape place m less :=
  keeps.conseq (fun _ => id) (fun a _ sane => ⟨sane.1, weaker a sane.2⟩) fun _ => id

theorem ask_spec {P E : Table → Prop} : Triple P ask
    (fun ret table => ∃ before, P before ∧ ret = before.answers before.asked ∧
      table = { before with asked := before.asked + 1 }) E :=
  fun before holds => ⟨before, holds, rfl, rfl⟩

theorem ask_keeps : Keeps shape place ask fun _ => True := by
  refine ask_spec.conseq (fun _ => id) ?_ fun _ => id
  rintro _ _ ⟨before, sane, -, rfl⟩
  exact ⟨⟨sane.shape, sane.place, sane.inRange⟩, trivial⟩

theorem access_keeps (allowed : Allowed place source) :
    Keeps shape place (access source) fun _ => InRange source := by
  intro table sane
  have logged : Sane shape place { table with log := table.log ++ [(table.place, source)] } := by
    refine ⟨sane.shape, sane.place, fun entry mem polled => ?_⟩
    rcases List.mem_append.mp mem with mem | mem
    · exact sane.inRange entry mem polled
    · cases List.mem_singleton.mp mem
      exact allowed.resolve_left fun poll => polled (sane.place.trans poll)
  by_cases inside : 0 ≤ source ∧ source < MAX_NODE_COUNT
  · have done : access source table =
        (some (table.nodes source.toNat), { table with log := table.log ++ [(table.place, source)] }) := by
      simp only [access, bind, Prog.get, Prog.modify, if_pos inside]
      rfl
    rw [done]
    exact ⟨logged, inside⟩
  · have done : access source table =
        (none, { table with log := table.log ++ [(table.place, source)] }) := by
      simp only [access, bind, Prog.get, Prog.modify, if_neg inside]
      rfl
    rw [done]
    exact logged

theorem deref_spec {P : Table → Prop} :
    Triple P (deref key) (fun node table => P table ∧ table.nodes key = some node) P := by
  intro table holds
  cases found : table.nodes key with
  | none =>
    have done : deref key table = (none, table) := by
      simp only [deref, bind, Prog.get, found]
      rfl
    rw [done]
    exact holds
  | some node =>
    have done : deref key table = (some node, table) := by
      simp only [deref, bind, Prog.get, found]
      rfl
    rw [done]
    exact ⟨holds, found⟩

theorem shape_of_nodes {table : Table} (shaped : ∀ key, table.shape key = shape key)
    (found : table.nodes key = some node) : shape key = some (node.type, node.source) := by
  rw [← shaped, Table.shape, found, Option.map_some]

theorem deref_keeps : Keeps shape place (deref key) fun node => shape key = some (node.type, node.source) := by
  refine deref_spec.conseq (fun _ => id) ?_ fun _ => id
  exact fun node table ⟨sane, found⟩ => ⟨sane, shape_of_nodes sane.shape found⟩

theorem setNode_keeps (same : shape key = some (node.type, node.source)) :
    Keeps shape place (setNode key node) fun _ => True := by
  refine Triple.modify fun table sane => ⟨⟨fun other => ?_, sane.place, sane.inRange⟩, trivial⟩
  by_cases here : other = key
  · subst here
    simp [Table.shape, same]
  · simpa [Table.shape, here] using sane.shape other

/-! ## Channels -/

theorem registerChn_keeps : Keeps shape place (registerChn key) fun _ => True := by
  refine Keeps.bind deref_keeps fun node same => ?_
  refine Keeps.bind (.ite ask_keeps (.pure trivial)) fun ret _ => ?_
  exact Keeps.bind (setNode_keeps same) fun _ _ => .pure trivial

theorem InRange.slot (inside : InRange source) : source.toNat < MAX_NODE_COUNT := by
  obtain ⟨low, high⟩ := inside
  omega

theorem waitChnno_keeps {lookup : Int → M (Option TestNode)} {orphan : Int → M Int}
    {getSource : Nat → M Int}
    (looks : ∀ type source, shape key = some (type, source) →
      Keeps shape place (lookup source) fun src => src ≠ none → InRange source)
    (alone : ∀ chnno, Keeps shape place (orphan chnno) fun _ => True)
    (gets : ∀ key < MAX_NODE_COUNT, Keeps shape place (getSource key) fun _ => True) :
    Keeps shape place (waitChnno lookup orphan getSource key) fun _ => True := by
  refine Keeps.bind deref_keeps fun node same => .ite (.pure trivial) ?_
  refine Keeps.bind (looks _ _ same) fun src inside => ?_
  cases src with
  | none => exact alone _
  | some src =>
    refine Keeps.bind (gets _ (InRange.slot (inside (Option.some_ne_none src)))) fun schn _ => ?_
    exact .ite (.pure trivial) registerChn_keeps

theorem getTestNode_keeps : Keeps shape place (getTestNode source) fun src => src ≠ none → InRange source := by
  by_cases inside : 0 ≤ source ∧ source < MAX_NODE_COUNT
  · rw [getTestNode, if_pos inside]
    exact (access_keeps (.inr inside)).mono fun _ known _ => known
  · rw [getTestNode, if_neg inside]
    exact .pure fun none => absurd rfl none

/-- The nodes that convert have sources that may be looked up. -/
def Converts (shape : Nat → Option (Subcmd × Int)) (place : Place) : Prop :=
  ∀ key < MAX_NODE_COUNT, ∀ source, shape key = some (.convert, source) → Allowed place source

/-- Without a test of the index, it has to be one that may be looked up. -/
theorem unchecked_keeps {getSource : Nat → M Int}
    (allowed : ∀ type source, shape key = some (type, source) → Allowed place source)
    (gets : ∀ key < MAX_NODE_COUNT, Keeps shape place (getSource key) fun _ => True) :
    Keeps shape place (waitChnno access (fun _ => Prog.stop) getSource key) fun _ => True := by
  refine waitChnno_keeps (fun type source same => ?_) (fun _ => .stop) gets
  exact (access_keeps (allowed type source same)).mono fun _ known _ => known

theorem checked_keeps {getSource : Nat → M Int}
    (gets : ∀ key < MAX_NODE_COUNT, Keeps shape place (getSource key) fun _ => True) :
    Keeps shape place (getDmanodeChnno getSource key) fun _ => True :=
  waitChnno_keeps (fun _ _ _ => getTestNode_keeps) (fun _ => .pure trivial) gets

/-! ## Initialisation -/

theorem initReader_keeps (same : shape key = some (node.type, node.source)) :
    Keeps shape place (initReader key node) fun _ => True := by
  refine Keeps.bind ask_keeps fun opened _ => .ite (.pure trivial) ?_
  refine Keeps.bind ask_keeps fun ret _ => .ite (.pure trivial) ?_
  exact Keeps.bind (setNode_keeps same) fun _ _ => .pure trivial

theorem initConvertNode_keeps (same : shape key = some (node.type, node.source))
    (allowed : Allowed place node.source) :
    Keeps shape place (initConvertNode key node) fun _ => True := by
  refine Keeps.bind (.ite ((access_keeps allowed).mono fun _ _ => trivial) (.pure trivial)) fun src _ => ?_
  refine .ite (.pure trivial) ?_
  exact Keeps.bind (setNode_keeps same) fun _ _ => .pure trivial

theorem initNode_keeps
    (convert : ∀ source, shape key = some (.convert, source) → Allowed place source) :
    Keeps shape place (initNode key) fun _ => True := by
  refine Keeps.bind deref_keeps fun node same => ?_
  split
  next => exact .ite (.pure trivial) (.ite (initReader_keeps same) (initReader_keeps same))
  next => exact .ite (.pure trivial) (initReader_keeps same)
  next =>
    refine Keeps.bind ask_keeps fun _ _ => .ite (.pure trivial) ?_
    refine Keeps.bind ask_keeps fun _ _ => .ite (.pure trivial) ?_
    refine Keeps.bind ask_keeps fun _ _ => .ite ?_ ?_
    · exact Keeps.bind (setNode_keeps same) fun _ _ => .pure trivial
    · refine Keeps.bind (setNode_keeps same) fun _ _ => ?_
      exact Keeps.bind ask_keeps fun _ _ => .pure trivial
  next =>
    refine Keeps.bind ask_keeps fun _ _ => .ite (.pure trivial) ?_
    refine Keeps.bind ask_keeps fun _ _ => .ite (.pure trivial) ?_
    refine Keeps.bind (setNode_keeps same) fun _ _ => ?_
    exact Keeps.bind ask_keeps fun _ _ => .pure trivial
  next =>
    refine .ite (.pure trivial) ?_
    refine Keeps.bind ask_keeps fun _ _ => .ite (.pure trivial) ?_
    exact Keeps.bind (setNode_keeps same) fun _ _ => .pure trivial
  next here => exact initConvertNode_keeps same (convert _ (by rw [same, here]))
  next =>
    refine .ite (.pure trivial) ?_
    refine Keeps.bind ask_keeps fun _ _ => ?_
    refine Keeps.bind ask_keeps fun _ _ => ?_
    exact .ite (initReader_keeps same) (initReader_keeps same)
  next => exact Keeps.bind (setNode_keeps same) fun _ _ => .pure trivial

theorem setSource_keeps {srcNode : TestNode} : Keeps shape place (setSource key srcNode) fun _ => True := by
  refine Keeps.bind deref_keeps fun node same => ?_
  split
  next => exact .pure trivial
  next => exact Keeps.bind (setNode_keeps same) fun _ _ => .pure trivial
  next => exact Keeps.bind (setNode_keeps same) fun _ _ => .pure trivial
  next => exact Keeps.bind (setNode_keeps same) fun _ _ => .pure trivial
  next => exact .pure trivial

/-! ## Connections -/

theorem get_keeps : Keeps shape place Prog.get fun table => ∀ key, table.shape key = shape key :=
  Triple.get fun _ sane => ⟨sane, sane.shape⟩

variable (converts : Converts shape place)
include converts

theorem getSourceChnno_keeps (fuel : Nat) : ∀ key < MAX_NODE_COUNT,
    Keeps shape place (getSourceChnno fuel key) fun _ => True := by
  induction fuel with
  | zero => exact fun key _ => .stop
  | succ fuel ih =>
    intro key slot
    refine Keeps.bind deref_keeps fun node same => ?_
    split
    next => exact .stop
    next convert =>
      refine unchecked_keeps (fun type source here => ?_) ih
      rw [here] at same
      cases same
      exact converts key slot _ (here.trans (by rw [convert]))
    next => exact checked_keeps ih
    next => exact .pure trivial

theorem sourceChnno_keeps (slot : key < MAX_NODE_COUNT) :
    Keeps shape place (sourceChnno key) fun _ => True :=
  getSourceChnno_keeps converts _ key slot

theorem getSinkChnno_keeps (slot : key < MAX_NODE_COUNT)
    (file : ∀ source, shape key = some (.ofile, source) → Allowed place source) :
    Keeps shape place (getSinkChnno key) fun _ => True := by
  have gets : ∀ key < MAX_NODE_COUNT, Keeps shape place (sourceChnno key) fun _ => True :=
    fun _ => sourceChnno_keeps converts
  refine Keeps.bind deref_keeps fun node same => ?_
  split
  next => exact .pure trivial
  next => exact .pure trivial
  next ofile =>
    refine unchecked_keeps (fun type source here => ?_) gets
    rw [here] at same
    cases same
    exact file _ (here.trans (by rw [ofile]))
  next convert =>
    refine unchecked_keeps (fun type source here => ?_) gets
    rw [here] at same
    cases same
    exact converts key slot _ (here.trans (by rw [convert]))
  next => exact checked_keeps gets
  next => exact .stop

theorem connectNode_keeps (srcSlot : src < MAX_NODE_COUNT) (dstSlot : dst < MAX_NODE_COUNT)
    (file : ∀ source, shape dst = some (.ofile, source) → Allowed place source) :
    Keeps shape place (connectNode src dst) fun _ => True := by
  have sink := getSinkChnno_keeps converts dstSlot file
  refine Keeps.bind deref_keeps fun _ _ => Keeps.bind deref_keeps fun _ _ => .ite (.pure trivial) ?_
  refine Keeps.bind (sourceChnno_keeps converts srcSlot) fun schn _ => .ite (.pure trivial) ?_
  refine Keeps.bind deref_keeps fun _ _ => Keeps.bind setSource_keeps fun _ _ => .ite (.pure trivial) ?_
  refine Keeps.bind sink fun _ _ => ?_
  refine Keeps.bind (.ite (initNode_keeps (converts dst dstSlot)) (.pure trivial)) fun _ _ => ?_
  refine .ite (.pure trivial) (Keeps.bind sink fun _ _ => .ite (.pure trivial) ?_)
  exact Keeps.bind ask_keeps fun _ _ => .pure trivial

theorem scanSink_keeps (srcSlot : src < MAX_NODE_COUNT) (dstSlot : dst < MAX_NODE_COUNT)
    (inside : ∀ type source, shape dst = some (type, source) → InRange source) :
    Keeps shape place (scanSink src dst) fun _ => True := by
  have file : ∀ source, shape dst = some (.ofile, source) → Allowed place source :=
    fun source same => .inr (inside _ _ same)
  refine Keeps.bind get_keeps fun table shaped => ?_
  split
  next => exact .pure trivial
  next node found =>
    have same := shape_of_nodes shaped found
    refine Keeps.bind (access_keeps (.inr (inside _ _ same))) fun _ _ => .ite (.pure trivial) ?_
    refine Keeps.bind (sourceChnno_keeps converts srcSlot) fun schn _ => .ite (.pure trivial) ?_
    refine Keeps.bind (getSinkChnno_keeps converts dstSlot file) fun _ _ => ?_
    refine Keeps.bind ask_keeps fun _ _ => .ite (.pure trivial) ?_
    exact Keeps.bind (connectNode_keeps converts srcSlot dstSlot file) fun _ _ => .pure trivial

theorem ctrlSink_keeps (dstSlot : dst < MAX_NODE_COUNT) :
    Keeps shape place (ctrlSink dst) fun _ => True := by
  refine Keeps.bind get_keeps fun table shaped => ?_
  split
  next => exact .pure trivial
  next node found =>
    have same := shape_of_nodes shaped found
    refine Keeps.bind getTestNode_keeps fun src inside => ?_
    cases src with
    | none => exact .pure trivial
    | some src =>
      have inside := inside (Option.some_ne_none src)
      have file : ∀ source, shape dst = some (.ofile, source) → Allowed place source := by
        intro source here
        injection Option.some.inj (same.symm.trans here) with _ sources
        exact .inr (sources ▸ inside)
      refine .ite .stop ?_
      refine Keeps.bind (sourceChnno_keeps converts inside.slot) fun schn _ => .ite (.pure trivial) ?_
      refine Keeps.bind (getSinkChnno_keeps converts dstSlot file) fun _ _ => ?_
      refine Keeps.bind ask_keeps fun _ _ => .ite (.pure trivial) ?_
      exact Keeps.bind (connectNode_keeps converts inside.slot dstSlot file) fun _ _ => .pure trivial

end Keeping

/-! ## The steps of `main` -/

section Turns
variable {α : Type} {shape : Nat → Option (Subcmd × Int)} {place : Place} {key i : Nat} {m : M α}
  {known : α → Prop} {picture : Picture} {main next : Main} {l : Label} {ls : List Label}
  {argv : List Word} {type : Subcmd} {source : Int} {stage : Stage}

/-- A sane table, whatever is being done. -/
structure Fine (shape : Nat → Option (Subcmd × Int)) (table : Table) : Prop where
  shape : ∀ key, table.shape key = shape key
  inRange : table.InRange

theorem Sane.fine {table : Table} (sane : Sane shape place table) : Fine shape table :=
  ⟨sane.shape, sane.inRange⟩

theorem setPlace_spec {E : Table → Prop} :
    Triple (Fine shape) (setPlace place) (fun _ => Sane shape place) E :=
  Triple.modify fun _ fine => ⟨fine.shape, rfl, fine.inRange⟩

theorem Keeps.fine (keeps : Keeps shape place m known) :
    Triple (Sane shape place) m (fun a table => Fine shape table ∧ known a) (Fine shape) :=
  Triple.conseq keeps (fun _ => id) (fun _ _ done => ⟨done.1.fine, done.2⟩) fun _ => Sane.fine

/-- A program whose value nothing has to be known of. -/
theorem Keeps.ends (keeps : Keeps shape place m fun _ => True) :
    Triple (Sane shape place) m (fun _ => Fine shape) (Fine shape) :=
  keeps.fine.conseq (fun _ => id) (fun _ _ => And.left) fun _ => id

theorem Keeps.forM {xs : List Nat} {body : Nat → M Unit}
    (turn : ∀ x ∈ xs, Keeps shape place (body x) fun _ => True) :
    Keeps shape place (xs.forM body) fun _ => True := by
  have loop : Triple (Sane shape place) (xs.forM body) (fun _ => Sane shape place) (Sane shape place) :=
    Triple.forM fun x mem => (turn x mem).conseq (fun _ => id) (fun _ _ => And.left) fun _ => id
  exact loop.conseq (fun _ => id) (fun _ _ sane => ⟨sane, trivial⟩) fun _ => id

theorem mem_keys (mem : key ∈ keys) : key < MAX_NODE_COUNT := List.mem_range.mp mem

theorem isStopped_keeps {chnno : Int} : Keeps shape place (isStopped chnno) fun _ => True :=
  .ite (Keeps.bind ask_keeps fun _ _ => .pure trivial) (.pure trivial)

theorem checkNodeIsStopped_keeps (slot : key < MAX_NODE_COUNT) :
    Keeps shape .poll (checkNodeIsStopped key) fun _ => True := by
  have converts : Converts shape .poll := fun _ _ _ _ => .inl rfl
  refine Keeps.bind deref_keeps fun node _ => ?_
  refine Keeps.bind (.ite (getSinkChnno_keeps converts slot fun _ _ => .inl rfl) (.pure trivial))
    fun _ _ => ?_
  refine Keeps.bind isStopped_keeps fun _ _ => .ite (.pure trivial) ?_
  refine Keeps.bind (.ite (sourceChnno_keeps converts slot) (.pure trivial)) fun _ _ => ?_
  exact isStopped_keeps

theorem pollNodes_keeps {rest : List Nat} (slots : ∀ key ∈ rest, key < MAX_NODE_COUNT) :
    Keeps shape .poll (pollNodes rest) fun _ => True := by
  induction rest with
  | nil => exact .pure trivial
  | cons key rest ih =>
    have more := ih fun key mem => slots key (List.mem_cons_of_mem _ mem)
    refine Keeps.bind get_keeps fun table _ => ?_
    split
    next => exact more
    next =>
      refine Keeps.bind (checkNodeIsStopped_keeps (slots key List.mem_cons_self)) fun _ _ => ?_
      exact .ite more (.pure trivial)

theorem checkCtrlReady_fine (converts : Converts shape .connect) :
    Triple (Fine shape) checkCtrlReady (fun _ => Fine shape) (Fine shape) := by
  refine Triple.bind setPlace_spec fun _ => ?_
  refine Triple.bind (Keeps.ends (.forM fun key mem => ctrlSink_keeps converts (mem_keys mem)))
    fun _ => ?_
  refine Triple.bind setPlace_spec fun _ => ?_
  exact (pollNodes_keeps fun _ => mem_keys).ends

theorem allocConvertBuffer_fine
    (inside : ∀ type source, shape key = some (type, source) → InRange source) :
    Triple (Fine shape) (allocConvertBuffer key) (fun _ => Fine shape) (Fine shape) := by
  refine Triple.bind setPlace_spec fun _ => Keeps.ends ?_
  refine Keeps.bind deref_keeps fun node same => ?_
  refine Keeps.bind (access_keeps (.inr (inside _ _ same))) fun src _ => ?_
  cases src with
  | none => exact .pure trivial
  | some src => exact .ite (Keeps.bind setSource_keeps fun _ _ => .pure trivial) (.pure trivial)

theorem syncInfo_keeps : Keeps shape place (handleDecoderResolutionChange.syncInfo key picture)
    fun _ => True := by
  refine Keeps.bind ask_keeps fun _ _ => .ite ?_ (.pure trivial)
  exact Keeps.bind deref_keeps fun node same => setNode_keeps same

/-- Every source may be looked up. -/
def AllInRange (shape : Nat → Option (Subcmd × Int)) : Prop :=
  ∀ key < MAX_NODE_COUNT, ∀ type source, shape key = some (type, source) → InRange source

theorem scanAndConnectSink_keeps (slot : key < MAX_NODE_COUNT) (all : AllInRange shape) :
    Keeps shape place (scanAndConnectSink key) fun _ => True := by
  have converts : Converts shape place := fun key slot source same => .inr (all key slot _ _ same)
  exact .forM fun dst mem => scanSink_keeps converts slot (mem_keys mem) (all dst (mem_keys mem))

theorem handleDecoderResolutionChange_fine (slot : key < MAX_NODE_COUNT) :
    Triple
      (fun table => Fine shape table ∧ ∀ node, table.nodes key = some node → node.chnno < 0 →
        0 ≤ table.answers table.asked → AllInRange shape)
      (handleDecoderResolutionChange key picture) (fun _ => Fine shape) (Fine shape) := by
  let Ready (table : Table) := Sane shape .scan table ∧ ∀ node, table.nodes key = some node →
    node.chnno < 0 → 0 ≤ table.answers table.asked → AllInRange shape
  have placed : Triple
      (fun table => Fine shape table ∧ ∀ node, table.nodes key = some node → node.chnno < 0 →
        0 ≤ table.answers table.asked → AllInRange shape)
      (setPlace .scan) (fun _ => Ready) (Fine shape) :=
    Triple.modify fun _ ⟨fine, scans⟩ => ⟨⟨fine.shape, rfl, fine.inRange⟩, scans⟩
  refine Triple.bind placed fun _ => ?_
  refine Triple.bind (deref_spec.conseq (fun _ => id) (fun _ _ => id) fun _ done => done.1.fine)
    fun node => ?_
  by_cases fresh : node.chnno < 0
  · rw [if_pos fresh]
    have registers : Triple (fun table => Ready table ∧ table.nodes key = some node) ask
        (fun ret table => Sane shape .scan table ∧
          (shape key = some (node.type, node.source) ∧ (0 ≤ ret → AllInRange shape))) (Fine shape) := by
      refine ask_spec.conseq (fun _ => id) ?_ fun _ => id
      rintro _ _ ⟨before, ⟨⟨sane, scans⟩, found⟩, rfl, rfl⟩
      exact ⟨⟨sane.shape, sane.place, sane.inRange⟩, shape_of_nodes sane.shape found,
        scans node found fresh⟩
    refine Triple.bind registers fun ret => Triple.known fun ⟨same, scans⟩ => ?_
    by_cases failed : ret < 0
    · rw [if_pos failed]
      exact Triple.pure fun _ => Sane.fine
    · rw [if_neg failed]
      refine Keeps.ends (Keeps.bind (setNode_keeps same) fun _ _ => ?_)
      refine Keeps.bind (scanAndConnectSink_keeps slot (scans (Int.not_lt.mp failed))) fun _ _ => ?_
      exact syncInfo_keeps
  · rw [if_neg fresh]
    exact syncInfo_keeps.ends.conseq (fun _ ready => ready.1.1) (fun _ _ => id) fun _ => id

/-! ## The steps of `main` -/

/-- The nodes that were initialised, or did not have to be. -/
def Stage.Passed : Stage → Nat → Prop
  | .init i, key => key < i
  | .connect _, key => key < MAX_NODE_COUNT
  | .running, key => key < MAX_NODE_COUNT
  | .exit, _ => False
  | .gone, _ => False

/-- The nodes that convert are known to have sources in range once they are past
their initialisation. -/
def Checked (shape : Nat → Option (Subcmd × Int)) (stage : Stage) : Prop :=
  ∀ key, stage.Passed key → ∀ source, shape key = some (.convert, source) → InRange source

structure Inv (main : Main) : Prop where
  inRange : main.table.InRange
  checked : Checked main.table.shape main.stage

/-- No convert node is reached by the first loop that has its source outside the
table, and when the sinks of a decoder are scanned, which its first resolution
does once its capture has a channel, no node has. -/
def Tame (main : Main) (l : Label) (_ : Main) : Prop :=
  (∀ i node, main.stage = .init i → l.event = .turn → main.table.nodes i = some node →
    node.type = .convert → InRange node.source) ∧
  ∀ key picture decoder, l.event = .resolution key picture → main.table.nodes key = some decoder →
    decoder.chnno < 0 → 0 ≤ l.answers 0 →
    ∀ other < MAX_NODE_COUNT, ∀ node, main.table.nodes other = some node → InRange node.source

theorem exists_node (same : main.table.shape key = some (type, source)) :
    ∃ node, main.table.nodes key = some node ∧ node.type = type ∧ node.source = source := by
  obtain ⟨node, found, pair⟩ := Option.map_eq_some_iff.mp same
  injection pair with types sources
  exact ⟨node, found, types, sources⟩

theorem after_inv {program : M Stage} {answers : Nat → Int}
    (kept : Triple (fun table => Fine main.table.shape table ∧ table =
        { main.table with answers, asked := 0 }) program
      (fun stage table => Fine main.table.shape table ∧ Checked main.table.shape stage)
      (Fine main.table.shape)) (inv : Inv main) : Inv (main.after answers program) := by
  have done := kept { main.table with answers, asked := 0 } ⟨⟨fun _ => rfl, inv.inRange⟩, rfl⟩
  rw [Main.after]
  split at done
  next stage table left =>
    rw [left]
    exact ⟨done.1.inRange, fun key passed source same =>
      done.2 key passed source ((done.1.shape key).symm.trans same)⟩
  next table left =>
    rw [left]
    exact ⟨done.inRange, fun _ passed => passed.elim⟩

theorem Checked.converts (checked : Checked shape stage)
    (passed : ∀ key < MAX_NODE_COUNT, stage.Passed key) : Converts shape place :=
  fun key slot source same => .inr (checked key (passed key slot) source same)

theorem initTurn_fine (convert : ∀ source, shape i = some (.convert, source) → InRange source) :
    Triple (Fine shape) (initTurn i) (fun _ => Fine shape) (Fine shape) := by
  refine Triple.bind setPlace_spec fun _ => Keeps.ends (Keeps.bind get_keeps fun table _ => ?_)
  split
  next => exact .pure trivial
  next =>
    refine Keeps.bind getTestNode_keeps fun src _ => ?_
    cases src with
    | none => exact initNode_keeps fun source same => .inr (convert source same)
    | some src => exact .pure trivial

theorem connectTurn_fine (converts : Converts shape .connect) (slot : i < MAX_NODE_COUNT) :
    Triple (Fine shape) (connectTurn i) (fun _ => Fine shape) (Fine shape) := by
  refine Triple.bind setPlace_spec fun _ => Keeps.ends (Keeps.bind get_keeps fun table shaped => ?_)
  split
  next => exact .pure trivial
  next node found =>
    refine Keeps.bind getTestNode_keeps fun src inside => ?_
    cases src with
    | none => exact .pure trivial
    | some src =>
      have inside := inside (Option.some_ne_none src)
      refine connectNode_keeps converts inside.slot slot fun source here => ?_
      injection Option.some.inj ((shape_of_nodes shaped found).symm.trans here) with _ sources
      exact .inr (sources ▸ inside)

theorem init_step (inv : Inv main) (tame : Tame main l next) (here : main.stage = .init i)
    (turn : l.event = .turn) :
    Inv (main.after l.answers do return if ← initTurn i then .init (i + 1) else .exit) := by
  have convert : ∀ source, main.table.shape i = some (.convert, source) → InRange source := by
    intro source same
    obtain ⟨node, found, types, rfl⟩ := exists_node same
    exact tame.1 i node here turn found types
  refine after_inv ?_ inv
  refine Triple.bind ((initTurn_fine convert).conseq (fun _ holds => holds.1) (fun _ _ => id)
    fun _ => id) fun again => Triple.pure fun table fine => ⟨fine, ?_⟩
  cases again with
  | false => exact fun _ passed => passed.elim
  | true =>
    intro key passed source same
    rcases Nat.lt_succ_iff_lt_or_eq.mp passed with passed | rfl
    · exact inv.checked key (here ▸ passed) source same
    · exact convert source same

theorem connect_step (inv : Inv main) (here : main.stage = .connect i) (slot : i < MAX_NODE_COUNT) :
    Inv (main.after l.answers do return if ← connectTurn i then .connect (i + 1) else .exit) := by
  have checked : Checked main.table.shape (.connect i) := here ▸ inv.checked
  have converts : Converts main.table.shape .connect := checked.converts fun key slot => slot
  refine after_inv ?_ inv
  refine Triple.bind ((connectTurn_fine converts slot).conseq (fun _ holds => holds.1) (fun _ _ => id)
    fun _ => id) fun again => Triple.pure fun table fine => ⟨fine, ?_⟩
  cases again with
  | false => exact fun _ passed => passed.elim
  | true => exact checked

/-- While the channels run it is enough that an event leaves the table fine. -/
theorem running_step {program : M Unit} (inv : Inv main) (here : main.stage = .running)
    (fine : Triple (fun table => Fine main.table.shape table ∧ table =
        { main.table with answers := l.answers, asked := 0 }) program
      (fun _ => Fine main.table.shape) (Fine main.table.shape)) :
    Inv (main.after l.answers do program; return .running) :=
  after_inv (Triple.bind fine fun _ => Triple.pure fun _ fine => ⟨fine, here ▸ inv.checked⟩) inv

theorem resolution_step (inv : Inv main) (tame : Tame main l next) (here : main.stage = .running)
    (event : l.event = .resolution key picture) (slot : key < MAX_NODE_COUNT) :
    Inv (main.after l.answers do handleDecoderResolutionChange key picture; return .running) := by
  refine running_step inv here ?_
  refine (handleDecoderResolutionChange_fine slot).conseq ?_ (fun _ _ => id) fun _ => id
  rintro _ ⟨fine, rfl⟩
  refine ⟨fine, fun decoder found fresh registers other slot type source same => ?_⟩
  obtain ⟨node, found', -, rfl⟩ := exists_node same
  exact tame.2 key picture decoder event found fresh registers other slot node found'

theorem alloc_step (inv : Inv main) (here : main.stage = .running) (slot : key < MAX_NODE_COUNT)
    (convert : main.isConvert key) :
    Inv (main.after l.answers do allocConvertBuffer key; return .running) := by
  refine running_step inv here ?_
  refine (allocConvertBuffer_fine fun type source same => ?_).conseq (fun _ holds => holds.1)
    (fun _ _ => id) fun _ => id
  obtain ⟨node, found, rfl, rfl⟩ := exists_node same
  simp only [Main.isConvert, found, Option.any_some, Bool.and_eq_true, beq_iff_eq] at convert
  exact inv.checked key (here ▸ slot) node.source (by rw [same, convert.1])

theorem step_inv (taken : Step main l next) (inv : Inv main) (tame : Tame main l next) : Inv next := by
  unfold Step step at taken
  split at taken
  next i here turn =>
    split_ifs at taken with slot
    · exact Option.some.inj taken ▸ init_step inv tame here turn
    · cases taken
      refine ⟨inv.inRange, fun key passed source same => ?_⟩
      exact inv.checked key (here ▸ Nat.lt_of_lt_of_le passed (Nat.le_of_not_lt slot)) source same
  next i here turn =>
    split_ifs at taken with slot failed
    · exact Option.some.inj taken ▸ connect_step inv here slot
    · cases taken
      exact ⟨inv.inRange, fun _ passed => passed.elim⟩
    · cases taken
      exact ⟨inv.inRange, fun key passed source same => inv.checked key (here ▸ passed) source same⟩
  next here ctrl =>
    have checked : Checked main.table.shape .running := here ▸ inv.checked
    have ready := checkCtrlReady_fine (checked.converts fun key slot => slot)
    refine Option.some.inj taken ▸ running_step inv here ?_
    exact ready.conseq (fun _ holds => holds.1) (fun _ _ => id) fun _ => id
  next key picture here event =>
    split_ifs at taken with known
    exact Option.some.inj taken ▸ resolution_step inv tame here event known.1
  next key here event =>
    split_ifs at taken with known
    exact Option.some.inj taken ▸ alloc_step inv here known.1 known.2
  next => cases taken

theorem start_inv : Inv (start argv) := by
  rw [start]
  split_ifs
  · exact ⟨by simp [Table.InRange], fun _ passed => passed.elim⟩
  · split
    · exact ⟨by simp [Table.InRange], fun _ passed => absurd passed (Nat.not_lt_zero _)⟩
    · exact ⟨by simp [Table.InRange], fun _ passed => passed.elim⟩

/-- For every command line, whatever the calls of `main` and of its nodes answer:
while no convert node is reached by the initialisation that has its source outside
the table, and the sinks of a decoder are only scanned where no node has, every
index is one of the table. -/
theorem sources_in_range (run : Run (Only Step Tame) (start argv) ls next) : next.table.InRange :=
  (run.invariant (fun _ _ _ inv taken => step_inv taken.1 inv taken.2) start_inv).inRange

/-! ## Runs on fixed command lines -/

/-- A turn of `main` that meets the condition. -/
def Main.tame (main : Main) : Bool :=
  match main.stage with
  | .init i => (main.table.nodes i).all fun node => node.type != .convert || decide (InRange node.source)
  | _ => true

theorem tame_turn (turn : l.event = .turn) (tame : main.tame) : Tame main l next := by
  refine ⟨fun i node here _ found convert => ?_, fun key picture decoder event => ?_⟩
  · simpa [Main.tame, here, found, convert] using tame
  · cases turn.symm.trans event

/-- Whether so many turns lead to `pitcher_run`, all of them tame. -/
def Main.starts (answers : Nat → Int) : Nat → Main → Bool
  | 0, main => main.stage == .running
  | turns + 1, main => main.tame &&
    match step main ⟨.turn, answers⟩ with
    | some next => Main.starts answers turns next
    | none => false

theorem starts_run {answers : Nat → Int} {turns : Nat} (starts : Main.starts answers turns main) :
    ∃ ls next, Run (Only Step Tame) main ls next ∧ next.stage = .running := by
  induction turns generalizing main with
  | zero => exact ⟨[], main, .stay main, beq_iff_eq.mp starts⟩
  | succ turns ih =>
    obtain ⟨tame, more⟩ := (Bool.and_eq_true _ _).mp starts
    split at more
    next next taken =>
      obtain ⟨ls, last, run, running⟩ := ih more
      exact ⟨_, last, .next ⟨taken, tame_turn rfl tame⟩ run, running⟩
    next => cases more

/-- A file is converted and written to another one. -/
def convertFile : List Word :=
  ["vpu", "ifile", "--name", "a.yuv", "convert", "--source", "0", "ofile", "--source", "1", "--name",
    "b.yuv"].map String.toList

theorem convertFile_in_range : ∃ ls next, Run (Only Step Tame) (start convertFile) ls next ∧
    next.stage = .running ∧ next.table.InRange := by
  have starts : Main.starts (fun n => n + 1) 66 (start convertFile) := by decide +kernel
  obtain ⟨ls, next, run, running⟩ := starts_run starts
  exact ⟨ls, next, run, running, sources_in_range run⟩

/-- A subcommand that is left without a source. -/
def convertNothing : List Word := ["vpu".toList, "convert".toList]

theorem convert_reads_before_nodes : (parseSubcmds convertNothing).1 = .OK ∧
    ∃ ls next, Run Step (start convertNothing) ls next ∧ ¬next.table.InRange := by
  have log : (step (start convertNothing) ⟨.turn, fun _ => 0⟩).any fun next =>
      next.table.log == [(.init, -1)] := by decide +kernel
  obtain ⟨next, taken, before⟩ := (Option.any_eq_true _ _).mp log
  refine ⟨by decide +kernel, _, next, .next taken (.stay next), fun inRange => ?_⟩
  have entry : (Place.init, (-1 : Int)) ∈ next.table.log :=
    beq_iff_eq.mp before ▸ List.mem_singleton_self _
  exact absurd (inRange _ entry (by decide)).1 (by decide)

end Turns
end ImxTest.Nodes
