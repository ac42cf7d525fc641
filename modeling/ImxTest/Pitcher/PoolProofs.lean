import ImxTest.Pitcher.Pool

/-! The books of a pool. While a list of references is being put, the reference counts are
ahead of the holders by that list; each put pays for one, and an empty list says that every
buffer is in one place. -/
namespace ImxTest.Pitcher.Pool
open Core Lib.Runs

variable {c : Component} {w w' : World} {b : Nat} {bs : List Nat} {memory : Bool}

/-- Where a buffer is while these references are still to be put. -/
inductive Due (w : World) (bs : List Nat) (b : Nat) : Prop where
  | idle (idle : w.idles.count b = 1) (held : w.held b + bs.count b = 0) (refcount : w.refcount b = 1)
      (deleted : w.deleted.count b = 0)
  | held (idle : w.idles.count b = 0) (held : 0 < w.held b + bs.count b)
      (refcount : w.refcount b = w.held b + bs.count b) (deleted : w.deleted.count b = 0)
  | deleted (idle : w.idles.count b = 0) (held : w.held b + bs.count b = 0) (deleted : w.deleted.count b = 1)

structure Books (w : World) (bs : List Nat) : Prop where
  due : ∀ b < w.allocs, Due w bs b
  fresh : ∀ b, w.allocs ≤ b → w.idles.count b = 0 ∧ w.held b + bs.count b = 0 ∧ w.deleted.count b = 0

/-- What a put leaves alone. -/
structure Same (w w' : World) : Prop where
  state : w'.state = w.state
  enable : w'.enable = w.enable
  bufferCount : w'.bufferCount = w.bufferCount
  refs : w'.refs = w.refs
  alive : w'.alive = w.alive
  idles : ¬w.Recycles → w'.idles = w.idles
  recycles : w'.Recycles ↔ w.Recycles

theorem Same.refl (w : World) : Same w w := ⟨rfl, rfl, rfl, rfl, rfl, fun _ => rfl, Iff.rfl⟩

theorem Same.trans {w'' : World} (first : Same w w') (second : Same w' w'') : Same w w'' where
  state := second.state.trans first.state
  enable := second.enable.trans first.enable
  bufferCount := second.bufferCount.trans first.bufferCount
  refs := second.refs.trans first.refs
  alive := second.alive.trans first.alive
  idles := fun no => (second.idles (first.recycles.not.mpr no)).trans (first.idles no)
  recycles := second.recycles.trans first.recycles

theorem Due.booked (due : Due w [] b) : Booked w b := by
  cases due with
  | idle idle held refcount deleted => exact .idle idle held refcount deleted
  | held idle held refcount deleted => exact .held idle held refcount deleted
  | deleted idle held deleted => exact .deleted idle held deleted

/-- Another buffer's entry. -/
theorem Due.frame (due : Due w bs b) {bs' : List Nat} (idles : w'.idles.count b = w.idles.count b)
    (held : w'.held b + bs'.count b = w.held b + bs.count b) (refcount : w'.refcount b = w.refcount b)
    (deleted : w'.deleted.count b = w.deleted.count b) : Due w' bs' b := by
  cases due with
  | idle idle none one kept =>
    exact .idle (idles.trans idle) (held.trans none) (refcount.trans one) (deleted.trans kept)
  | held idle some count kept =>
    exact .held (idles.trans idle) (held ▸ some) (refcount.trans (count.trans held.symm)) (deleted.trans kept)
  | deleted idle none gone => exact .deleted (idles.trans idle) (held.trans none) (deleted.trans gone)

/-- The books are about the buffers alone. -/
theorem Books.frame (books : Books w bs) {bs' : List Nat} (allocs : w'.allocs = w.allocs)
    (idles : w'.idles = w.idles) (held : ∀ b, w'.held b + bs'.count b = w.held b + bs.count b)
    (refcount : w'.refcount = w.refcount) (deleted : w'.deleted = w.deleted) : Books w' bs' where
  due := by
    rw [allocs]
    intro b inside
    exact (books.due b inside).frame (by rw [idles]) (held b) (by rw [refcount]) (by rw [deleted])
  fresh := by
    rw [allocs, idles, deleted]
    intro b out
    obtain ⟨idle, none, gone⟩ := books.fresh b out
    exact ⟨idle, (held b).trans none, gone⟩

/-! ## Putting -/

/-- All three recycle callbacks. -/
theorem recycle_eq : c.recycle w b memory =
    if w.state = .ACTIVE ∧ w.fin = false then (putUnitBufferIdle w b memory, false) else (w, true) := by
  cases c <;> rfl

theorem putBuffer_more (more : 1 < w.refcount b) :
    putBuffer c w b memory = { w with refcount := Function.update w.refcount b (w.refcount b - 1) } := by
  rw [putBuffer, if_neg (by omega)]
  apply if_neg
  simp only [Function.update_self]
  omega

theorem putBuffer_last (last : w.refcount b = 1) :
    putBuffer c w b memory = releaseBuffer c { w with refcount := Function.update w.refcount b 0 } b memory := by
  rw [putBuffer, if_neg (by omega), last]
  exact if_pos (Function.update_self ..)

/-- The last put of a buffer that is used again. -/
theorem putBuffer_idle (last : w.refcount b = 1) (again : w.Recycles) (enable : w.enable = true) :
    putBuffer c w b true = { w with refcount := Function.update w.refcount b 1, idles := w.idles ++ [b] } := by
  obtain ⟨active, more⟩ := again
  rw [putBuffer_last last]
  simp [releaseBuffer, recycle_eq, active, more, putUnitBufferIdle, enable]

/-- The last put of a buffer that is not. -/
theorem putBuffer_delete (last : w.refcount b = 1) (no : ¬w.Recycles) :
    putBuffer c w b memory =
      { w with refcount := Function.update w.refcount b 0, deleted := w.deleted ++ [b] } := by
  rw [World.Recycles] at no
  rw [putBuffer_last last]
  simp only [releaseBuffer, recycle_eq, no, if_false, if_true]

theorem count_append_self (xs : List Nat) : (xs ++ [b]).count b = xs.count b + 1 := by
  rw [List.count_append, List.count_singleton_self]

theorem count_append_other {x : Nat} (other : x ≠ b) (xs : List Nat) : (xs ++ [b]).count x = xs.count x := by
  rw [List.count_append, List.count_singleton, if_neg (by simpa using other.symm), Nat.add_zero]

theorem Books.put (c : Component) (memory : Bool) (books : Books w (b :: bs))
    (room : w.Recycles → w.enable = true ∧ memory = true) :
    Books (putBuffer c w b memory) bs ∧ Same w (putBuffer c w b memory) := by
  have known : b < w.allocs := by
    by_contra out
    obtain ⟨-, none, -⟩ := books.fresh b (Nat.le_of_not_lt out)
    rw [List.count_cons_self] at none
    omega
  have refcount : w.refcount b = w.held b + bs.count b + 1 ∧ w.idles.count b = 0 ∧ w.deleted.count b = 0 := by
    cases books.due b known with
    | held idle _ refcount deleted =>
      rw [List.count_cons_self] at refcount
      exact ⟨refcount, idle, deleted⟩
    | idle _ none | deleted _ none =>
      rw [List.count_cons_self] at none
      omega
  obtain ⟨refcount, idle, deleted⟩ := refcount
  have others : ∀ x, x ≠ b → (b :: bs).count x = bs.count x := fun x other => List.count_cons_of_ne other.symm
  have elsewhere : ∀ x, w.allocs ≤ x → x ≠ b := fun x out same => absurd known (Nat.not_lt.mpr (same ▸ out))
  by_cases last : w.refcount b = 1
  case neg =>
    rw [putBuffer_more (by omega)]
    refine ⟨⟨?_, ?_⟩, rfl, rfl, rfl, rfl, rfl, fun _ => rfl, Iff.rfl⟩
    · intro x inside
      by_cases same : x = b
      · subst same
        refine .held idle (show 0 < w.held x + bs.count x by omega) ?_ deleted
        exact (Function.update_self ..).trans (show _ = w.held x + bs.count x by omega)
      · refine (books.due x inside).frame rfl ?_ (Function.update_of_ne same ..) rfl
        rw [others x same]
        rfl
    · intro x out
      rw [← others x (elsewhere x out)]
      exact books.fresh x out
  case pos =>
    have none : w.held b + bs.count b = 0 := by omega
    by_cases again : w.Recycles
    case pos =>
      obtain ⟨enable, rfl⟩ := room again
      rw [putBuffer_idle last again enable]
      refine ⟨⟨?_, ?_⟩, rfl, rfl, rfl, rfl, rfl, fun no => absurd again no, Iff.rfl⟩
      · intro x inside
        by_cases same : x = b
        · subst same
          exact .idle ((count_append_self _).trans (by rw [idle])) none (Function.update_self ..) deleted
        · refine (books.due x inside).frame (count_append_other same _) ?_ (Function.update_of_ne same ..) rfl
          rw [others x same]
          rfl
      · intro x out
        obtain ⟨idle, held, deleted⟩ := books.fresh x out
        rw [others x (elsewhere x out)] at held
        exact ⟨(count_append_other (elsewhere x out) _).trans idle, held, deleted⟩
    case neg =>
      rw [putBuffer_delete last again]
      refine ⟨⟨?_, ?_⟩, rfl, rfl, rfl, rfl, rfl, fun _ => rfl, Iff.rfl⟩
      · intro x inside
        by_cases same : x = b
        · subst same
          exact .deleted idle none ((count_append_self _).trans (by rw [deleted]))
        · refine (books.due x inside).frame rfl ?_ (Function.update_of_ne same ..) (count_append_other same _)
          rw [others x same]
          rfl
      · intro x out
        obtain ⟨idle, held, deleted⟩ := books.fresh x out
        rw [others x (elsewhere x out)] at held
        exact ⟨idle, held, (count_append_other (elsewhere x out) _).trans deleted⟩

theorem Books.putAll (c : Component) (memory : Bool) (books : Books w bs)
    (room : w.Recycles → w.enable = true ∧ memory = true) :
    Books (putAll c w memory bs) [] ∧ Same w (putAll c w memory bs) := by
  induction bs generalizing w with
  | nil => exact ⟨books, .refl w⟩
  | cons b bs ih =>
    obtain ⟨next, same⟩ := books.put c memory room
    have later : (putBuffer c w b memory).Recycles → (putBuffer c w b memory).enable = true ∧ memory = true := by
      rw [same.recycles, same.enable]
      exact room
    obtain ⟨done, rest⟩ := ih next later
    exact ⟨done, same.trans rest⟩

/-! ## The invariant -/

structure Inv (w : World) : Prop where
  books : Books w []
  enabled : w.enable = true ↔ w.state ≠ .STOPPED
  counted : w.state ≠ .STOPPED → w.bufferCount ≠ 0
  emptied : w.state = .STOPPED → w.idles = []
  quiet : w.state ≠ .ACTIVE → w.Quiet
  living : ∀ d b, (.pipe d, b) ∈ w.refs ∨ (.sink d, b) ∈ w.refs → d ∈ w.alive

/-- A channel that has not been started. -/
def stopped (alive : Finset Nat) (fin : Bool) : World := { alive, fin }

theorem Inv.start (alive : Finset Nat) (fin : Bool) : Inv (stopped alive fin) where
  books := ⟨nofun, fun _ _ => ⟨rfl, rfl, rfl⟩⟩
  enabled := by simp [stopped]
  counted := fun started => absurd rfl started
  emptied := fun _ => rfl
  quiet := fun _ _ => List.not_mem_nil
  living := by simp [stopped]

theorem Inv.enable_of_recycles (inv : Inv w) (again : w.Recycles) : w.enable = true := by
  rw [inv.enabled, again.1]
  exact nofun

/-! ## Starting -/

theorem Books.alloc (books : Books w []) : Books (allocBuffer w true) [] := by
  obtain ⟨idle, held, deleted⟩ := books.fresh w.allocs (Nat.le_refl _)
  refine ⟨?_, ?_⟩
  · intro x inside
    by_cases same : x = w.allocs
    · subst same
      exact .idle ((count_append_self _).trans (by rw [idle])) held (Function.update_self ..) deleted
    · have known : x < w.allocs := Nat.lt_of_le_of_ne (Nat.le_of_lt_succ inside) same
      exact (books.due x known).frame (count_append_other same _) rfl (Function.update_of_ne same ..) rfl
  · intro x out
    have out : w.allocs < x := out
    obtain ⟨idle, held, deleted⟩ := books.fresh x (Nat.le_of_lt out)
    exact ⟨(count_append_other (Nat.ne_of_gt out) _).trans idle, held, deleted⟩

/-- What allocating leaves alone. -/
structure Grown (w w' : World) : Prop where
  state : w'.state = w.state
  enable : w'.enable = w.enable
  refs : w'.refs = w.refs
  alive : w'.alive = w.alive

theorem Books.allocAll {nodes : List Bool} (books : Books w []) (all : ∀ node ∈ nodes, node = true) :
    Books (nodes.foldl allocBuffer w) [] ∧ Grown w (nodes.foldl allocBuffer w) := by
  induction nodes generalizing w with
  | nil => exact ⟨books, rfl, rfl, rfl, rfl⟩
  | cons node nodes ih =>
    cases all node List.mem_cons_self
    have later : ∀ node ∈ nodes, node = true := fun node member => all node (List.mem_cons_of_mem _ member)
    obtain ⟨done, state, enable, refs, alive⟩ := ih books.alloc later
    exact ⟨done, state, enable, refs, alive⟩

theorem Inv.startChn {nodes : List Bool} (inv : Inv w) (at_rest : w.state = .STOPPED)
    (all : ∀ node ∈ nodes, node = true) : Inv (startChn c w nodes) := by
  obtain ⟨books, grown⟩ := inv.books.allocAll all
  have idle : w.state ≠ .ACTIVE := by rw [at_rest]; decide
  rw [Pool.startChn, if_neg idle]
  cases nodes with
  | nil =>
    have books : Books { w with bufferCount := 0 } [] :=
      inv.books.frame rfl rfl (fun _ => rfl) rfl rfl
    exact ⟨books, inv.enabled, fun started => absurd at_rest started, inv.emptied, inv.quiet, inv.living⟩
  | cons node nodes =>
    have some : (node :: nodes).length ≠ 0 := nofun
    simp only [unitStart, if_neg some, if_true]
    have books' : ∀ fin, Books { (node :: nodes).foldl allocBuffer w with
        bufferCount := (node :: nodes).length, fin, enable := true, state := .ACTIVE } [] :=
      fun fin => books.frame rfl rfl (fun _ => rfl) rfl rfl
    cases c
    all_goals
      refine ⟨books' _, ⟨fun _ => nofun, fun _ => rfl⟩, fun _ => some, nofun, fun no => absurd rfl no, ?_⟩
      intro d b member
      rw [grown.refs] at member
      rw [grown.alive]
      exact inv.living d b member

/-! ## Stopping -/

/-- The idle buffers are deleted, unless the recycle callback wants them back. -/
theorem Inv.unitStop (inv : Inv w) (awake : w.state ≠ .STOPPED) (rid : w.Recycles → w.idles = []) :
    Books (unitStop c w) [] ∧ (unitStop c w).idles = [] ∧ (unitStop c w).enable = false ∧
      (unitStop c w).refs = w.refs ∧ (unitStop c w).alive = w.alive := by
  have some : ({ w with enable := false } : World).bufferCount ≠ 0 := inv.counted awake
  rw [Pool.unitStop, freeBuffer, if_neg some]
  by_cases again : w.Recycles
  case pos =>
    have none := rid again
    rw [none]
    exact ⟨inv.books.frame rfl none.symm (fun _ => rfl) rfl rfl, rfl, rfl, rfl, rfl⟩
  case neg =>
    have owed : Books { w with enable := false, idles := [] } w.idles := by
      refine ⟨?_, ?_⟩
      · intro b inside
        cases inv.books.due b inside with
        | idle idle held refcount deleted =>
          have none : w.held b = 0 := held
          refine .held List.count_nil (show 0 < w.held b + w.idles.count b by omega) ?_ deleted
          exact refcount.trans (show 1 = w.held b + w.idles.count b by omega)
        | held idle held refcount deleted =>
          have some : 0 < w.held b := held
          refine .held List.count_nil (show 0 < w.held b + w.idles.count b by omega) ?_ deleted
          exact refcount.trans (show w.held b = w.held b + w.idles.count b by omega)
        | deleted idle held deleted =>
          have none : w.held b = 0 := held
          exact .deleted List.count_nil (show w.held b + w.idles.count b = 0 by omega) deleted
      · intro b out
        obtain ⟨idle, held, deleted⟩ := inv.books.fresh b out
        have none : w.held b = 0 := held
        exact ⟨List.count_nil, show w.held b + w.idles.count b = 0 by omega, deleted⟩
    have no : ¬({ w with enable := false, idles := [] } : World).Recycles := again
    obtain ⟨books, same⟩ := owed.putAll c true fun recycles => absurd recycles no
    exact ⟨books, same.idles no, same.enable, same.refs, same.alive⟩

/-- Both ways to stop a channel that has not stopped. -/
theorem Inv.stopped (inv : Inv w) (awake : w.state ≠ .STOPPED) (rid : w.Recycles → w.idles = [])
    (quiet : w.Quiet) : Inv { Pool.unitStop c w with state := .STOPPED } := by
  obtain ⟨books, idles, enable, refs, alive⟩ := inv.unitStop (c := c) awake rid
  refine ⟨books.frame rfl rfl (fun _ => rfl) rfl rfl, ?_, fun no => absurd rfl no,
    fun _ => idles, fun _ b => ?_, ?_⟩
  · simp [enable]
  · rw [refs]
    exact quiet b
  · intro d b member
    rw [refs] at member
    rw [alive]
    exact inv.living d b member

/-! ## References -/

theorem held_append (w : World) (x : Holder × Nat) (b : Nat) :
    ((w.refs ++ [x]).map Prod.snd).count b = w.held b + if x.2 = b then 1 else 0 := by
  rw [List.map_append, List.count_append, List.map_singleton, List.count_singleton, World.held]
  simp

theorem held_erase {x : Holder × Nat} (member : x ∈ w.refs) (b : Nat) :
    w.held b = ((w.refs.erase x).map Prod.snd).count b + if x.2 = b then 1 else 0 := by
  rw [World.held, ((List.perm_cons_erase member).map Prod.snd).count_eq, List.map_cons, List.count_cons]
  simp

theorem held_piped (w : World) (d b : Nat) :
    w.held b = ((w.refs.filter fun x => x.1 ≠ .pipe d).map Prod.snd).count b + (w.piped d).count b := by
  have split := (List.filter_append_perm (fun x : Holder × Nat => decide (x.1 ≠ .pipe d)) w.refs).map Prod.snd
  rw [World.held, ← split.count_eq, List.map_append, List.count_append, World.piped]
  simp

theorem held_pos {x : Holder × Nat} (member : x ∈ w.refs) : 0 < w.held x.2 :=
  List.count_pos_iff.mpr (List.mem_map_of_mem member)

/-- A buffer with a holder is not idle and not deleted. -/
theorem Books.due_held (books : Books w []) {x : Holder × Nat} (member : x ∈ w.refs) :
    x.2 < w.allocs ∧ w.idles.count x.2 = 0 ∧ w.refcount x.2 = w.held x.2 ∧ w.deleted.count x.2 = 0 := by
  have some := held_pos member
  have known : x.2 < w.allocs := by
    by_contra out
    obtain ⟨-, none, -⟩ := books.fresh x.2 (Nat.le_of_not_lt out)
    have none : w.held x.2 = 0 := none
    omega
  cases books.due x.2 known with
  | held idle _ refcount deleted => exact ⟨known, idle, refcount, deleted⟩
  | idle _ none | deleted _ none =>
    have none : w.held x.2 = 0 := none
    omega

/-- One reference more to a buffer that has one. -/
theorem Books.more (books : Books w []) {x y : Holder × Nat} (member : x ∈ w.refs) (same : y.2 = x.2) :
    Books { getBuffer w x.2 with refs := w.refs ++ [y] } [] := by
  obtain ⟨known, idle, refcount, deleted⟩ := books.due_held member
  have apart : ∀ b, b ≠ x.2 → ((w.refs ++ [y]).map Prod.snd).count b = w.held b := by
    intro b other
    rw [held_append, same, if_neg other.symm, Nat.add_zero]
  have self : ((w.refs ++ [y]).map Prod.snd).count x.2 = w.held x.2 + 1 := by
    rw [held_append, same, if_pos rfl]
  refine ⟨?_, ?_⟩
  · intro b inside
    by_cases eq : b = x.2
    · subst eq
      refine .held idle (Nat.lt_of_lt_of_eq (Nat.succ_pos _) self.symm) ?_ deleted
      exact (Function.update_self ..).trans ((congrArg (· + 1) refcount).trans self.symm)
    · exact (books.due b inside).frame rfl (apart b eq) (Function.update_of_ne eq ..) rfl
  · intro b out
    obtain ⟨idle, held, deleted⟩ := books.fresh b out
    have other : b ≠ x.2 := fun eq => absurd known (Nat.not_lt.mpr (eq ▸ out))
    exact ⟨idle, (apart b other).trans held, deleted⟩

/-- The first idle buffer in the hands of the unit. -/
theorem Books.handed (books : Books w []) {rest : List Nat} (first : w.idles = b :: rest) :
    Books { w with idles := rest, refs := w.refs ++ [(.unit, b)] } [] := by
  have idles : ∀ x, w.idles.count x = rest.count x + if b = x then 1 else 0 := by
    intro x
    rw [first, List.count_cons]
    simp
  refine ⟨?_, ?_⟩
  · intro x inside
    have held := held_append w (.unit, b) x
    by_cases same : b = x
    · subst same
      have count := idles b
      rw [if_pos rfl] at held count
      cases books.due b inside with
      | idle one none refcount deleted =>
        have none : w.held b = 0 := none
        refine .held (show rest.count b = 0 by omega) (Nat.lt_of_lt_of_eq (Nat.succ_pos _) held.symm) ?_ deleted
        exact refcount.trans (Eq.trans (by rw [none]) held.symm)
      | held none | deleted none => omega
    · rw [if_neg same] at held
      refine (books.due x inside).frame ?_ held rfl rfl
      rw [idles x, if_neg same]
      rfl
  · intro x out
    obtain ⟨idle, none, deleted⟩ := books.fresh x out
    have held := held_append w (.unit, b) x
    have other : b ≠ x := by
      rintro rfl
      have count := idles b
      rw [if_pos rfl] at count
      omega
    have count := idles x
    rw [if_neg other] at held count
    exact ⟨show rest.count x = 0 by omega, held.trans none, deleted⟩

/-- A reference passed on by its holder. -/
theorem Books.passed (books : Books w []) {x y : Holder × Nat} (member : x ∈ w.refs) (same : y.2 = x.2) :
    Books { w with refs := w.refs.erase x ++ [y] } [] := by
  have held : ∀ b, ((w.refs.erase x ++ [y]).map Prod.snd).count b = w.held b := by
    intro b
    rw [held_erase member b, List.map_append, List.count_append, List.map_singleton, List.count_singleton, same]
    simp
  exact books.frame rfl rfl held rfl rfl

/-- A reference that is to be put. -/
theorem Books.owed (books : Books w []) {x : Holder × Nat} (member : x ∈ w.refs) :
    Books { w with refs := w.refs.erase x } [x.2] := by
  have held : ∀ b, ((w.refs.erase x).map Prod.snd).count b + [x.2].count b = w.held b := by
    intro b
    rw [held_erase member b, List.count_singleton]
    simp
  exact books.frame rfl rfl held rfl rfl

/-! ## Steps -/

theorem Inv.withAlive (inv : Inv w) {alive : Finset Nat}
    (living : ∀ d b, (.pipe d, b) ∈ w.refs ∨ (.sink d, b) ∈ w.refs → d ∈ alive) : Inv { w with alive } :=
  ⟨inv.books.frame rfl rfl (fun _ => rfl) rfl rfl, inv.enabled, inv.counted, inv.emptied, inv.quiet, living⟩

/-- References that are put, all others being kept. -/
theorem Inv.released (inv : Inv w) {refs : List (Holder × Nat)} (fewer : ∀ x ∈ refs, x ∈ w.refs)
    (owed : Books { w with refs } bs) (room : w.Recycles → memory = true) :
    Inv (putAll c { w with refs } memory bs) ∧ (putAll c { w with refs } memory bs).refs = refs ∧
      (putAll c { w with refs } memory bs).alive = w.alive := by
  obtain ⟨books, same⟩ := owed.putAll c memory fun again => ⟨inv.enable_of_recycles again, room again⟩
  refine ⟨⟨books, ?_, ?_, ?_, ?_, ?_⟩, same.refs, same.alive⟩
  · rw [same.enable, same.state]
    exact inv.enabled
  · rw [same.state, same.bufferCount]
    exact inv.counted
  · rw [same.state]
    intro at_rest
    have at_rest : w.state = .STOPPED := at_rest
    rw [same.idles (fun again => by rw [show w.state = .ACTIVE from again.1] at at_rest; cases at_rest)]
    exact inv.emptied at_rest
  · rw [same.state]
    intro idle x mine
    rw [same.refs] at mine
    exact inv.quiet idle x (fewer _ mine)
  · intro d x mine
    rw [same.refs] at mine
    rw [same.alive]
    exact inv.living d x (mine.imp (fewer _) (fewer _))

/-- A buffer of the idle queue that the unit takes. -/
theorem Inv.handed {rest : List Nat} {b : Nat} (inv : Inv w) (first : w.idles = b :: rest) (active : w.state = .ACTIVE) :
    Inv { w with idles := rest, refs := w.refs ++ [(.unit, b)] } := by
  refine ⟨inv.books.handed first, inv.enabled, inv.counted, ?_, fun no => absurd active no, ?_⟩
  · intro at_rest
    rw [show w.state = .STOPPED from at_rest] at active
    cases active
  · intro d x member
    apply inv.living d x
    simpa using member

/-- A buffer that is put into a pipe with memory, to a sink that lives. -/
theorem Inv.pushed {h : Holder} {d b : Nat} (inv : Inv w) (member : (h, b) ∈ w.refs) (living : d ∈ w.alive) :
    Inv { getBuffer w b with refs := (getBuffer w b).refs ++ [(.pipe d, b)] } := by
  have books := inv.books.more member (y := (.pipe d, b)) rfl
  refine ⟨books, inv.enabled, inv.counted, inv.emptied, ?_, ?_⟩
  · intro idle x mine
    have before := inv.quiet idle x
    simp [getBuffer] at mine
    exact before mine
  · intro d' x mine
    simp only [getBuffer, List.mem_append, List.mem_singleton, Prod.mk.injEq, Holder.pipe.injEq, reduceCtorEq, false_and,
      or_false] at mine
    obtain (mine | ⟨rfl, -⟩) | mine := mine
    · exact inv.living d' x (.inl mine)
    · exact living
    · exact inv.living d' x (.inr mine)

/-- A buffer that the sink takes out of its pipe. -/
theorem Inv.popped {d b : Nat} (inv : Inv w) (member : (.pipe d, b) ∈ w.refs) (living : d ∈ w.alive) :
    Inv { w with refs := w.refs.erase (.pipe d, b) ++ [(.sink d, b)] } := by
  refine ⟨inv.books.passed member rfl, inv.enabled, inv.counted, inv.emptied, ?_, ?_⟩
  · intro idle x mine
    simp only [List.mem_append, List.mem_singleton, Prod.mk.injEq, reduceCtorEq, false_and, or_false] at mine
    exact inv.quiet idle x (List.mem_of_mem_erase mine)
  · intro d' x mine
    simp only [List.mem_append, List.mem_singleton, Prod.mk.injEq, Holder.sink.injEq, reduceCtorEq, false_and,
      or_false] at mine
    obtain mine | mine | ⟨rfl, -⟩ := mine
    · exact inv.living d' x (.inl (List.mem_of_mem_erase mine))
    · exact inv.living d' x (.inr (List.mem_of_mem_erase mine))
    · exact living

/-- One more reference of a holder. -/
theorem Inv.taken {h : Holder} {b : Nat} (inv : Inv w) (member : (h, b) ∈ w.refs) :
    Inv { getBuffer w b with refs := (getBuffer w b).refs ++ [(h, b)] } := by
  have twice : ∀ x, x ∈ w.refs ++ [(h, b)] → x ∈ w.refs := by
    intro x mine
    obtain mine | mine := List.mem_append.mp mine
    · exact mine
    · rwa [List.mem_singleton.mp mine]
  refine ⟨inv.books.more member rfl, inv.enabled, inv.counted, inv.emptied, ?_, ?_⟩
  · exact fun idle x mine => inv.quiet idle x (twice _ mine)
  · exact fun d x mine => inv.living d x (mine.imp (twice _) (twice _))

/-- A sink without buffers that stops, what is in its pipe being put. -/
theorem Inv.sinkStopped {d : Nat} (inv : Inv w) (none : ∀ x ∈ w.refs, x.1 ≠ .sink d) (room : w.Recycles → memory = true) :
    Inv { putAll c { w with refs := w.refs.filter fun x => x.1 ≠ .pipe d } memory (w.piped d) with
      alive := (putAll c { w with refs := w.refs.filter fun x => x.1 ≠ .pipe d } memory (w.piped d)).alive.erase d } := by
  have owed : Books { w with refs := w.refs.filter fun x => x.1 ≠ .pipe d } (w.piped d) :=
    inv.books.frame rfl rfl (fun x => (held_piped w d x).symm) rfl rfl
  obtain ⟨inv', refs, alive⟩ := inv.released (fun x mine => List.mem_of_mem_filter mine) owed room
  apply inv'.withAlive
  intro d' x mine
  simp only [refs, List.mem_filter] at mine
  have there := inv.living d' x (mine.imp And.left And.left)
  rw [alive]
  refine Finset.mem_erase_of_ne_of_mem ?_ there
  rintro rfl
  obtain ⟨-, other⟩ | ⟨mine, -⟩ := mine
  · simp at other
  · exact none _ mine rfl

theorem Inv.step {e : Event} (inv : Inv w) (taken : step c w e = some w') (careful : Careful w e w') : Inv w' := by
  cases e with
  | start nodes =>
    simp only [Pool.step] at taken
    split at taken
    case isFalse => cases taken
    case isTrue at_rest =>
      cases taken
      exact inv.startChn at_rest careful
  | getIdle =>
    simp only [Pool.step] at taken
    split at taken
    case h_1 => cases taken
    case h_2 b rest first =>
      split at taken
      case isFalse => cases taken
      case isTrue active =>
        cases taken
        exact inv.handed first active
  | push h d b memory =>
    obtain ⟨living, rfl⟩ := careful
    simp only [Pool.step] at taken
    split at taken
    case isFalse => cases taken
    case isTrue member =>
      cases taken
      exact inv.pushed member living
  | pop d b =>
    simp only [Pool.step] at taken
    split at taken
    case isFalse => cases taken
    case isTrue found =>
      cases taken
      exact inv.popped found.1 found.2
  | take h b =>
    simp only [Pool.step] at taken
    split at taken
    case isFalse => cases taken
    case isTrue member =>
      cases taken
      exact inv.taken member
  | put h b memory =>
    simp only [Pool.step] at taken
    split at taken
    case isFalse => cases taken
    case isTrue member =>
      cases taken
      exact (inv.released (fun x mine => List.mem_of_mem_erase mine) (inv.books.owed member) careful).1
  | finish =>
    cases taken
    exact ⟨inv.books.frame rfl rfl (fun _ => rfl) rfl rfl, inv.enabled, inv.counted,
      inv.emptied, inv.quiet, inv.living⟩
  | stopping =>
    simp only [Pool.step] at taken
    split at taken
    case isFalse => cases taken
    case isTrue found =>
      obtain ⟨active, -, quiet⟩ := found
      cases taken
      have awake : w.state ≠ .STOPPED := by rw [active]; decide
      refine ⟨inv.books.frame rfl rfl (fun _ => rfl) rfl rfl, ?_, fun _ => inv.counted awake,
        nofun, fun _ => quiet, inv.living⟩
      exact ⟨fun _ => nofun, fun _ => inv.enabled.mpr awake⟩
  | processStopping =>
    cases taken
    rw [processChnStopping]
    split
    case isFalse => exact inv
    case isTrue found =>
      have idle : w.state ≠ .ACTIVE := by rw [found.1]; decide
      exact inv.stopped (by rw [found.1]; decide) (fun again => absurd again.1 idle) (inv.quiet idle)
  | stop =>
    simp only [Pool.step] at taken
    split at taken
    case isFalse => cases taken
    case isTrue quiet =>
      cases taken
      rw [stopChn]
      split
      case isTrue => exact inv
      case isFalse awake => exact inv.stopped awake careful quiet
  | sinkStart d =>
    cases taken
    exact inv.withAlive fun d' b member => Finset.mem_insert_of_mem (inv.living d' b member)
  | sinkStop d memory =>
    simp only [Pool.step] at taken
    split at taken
    case isFalse => cases taken
    case isTrue none =>
      cases taken
      exact inv.sinkStopped none careful

/-! ## Whole runs -/

theorem Inv.booked (inv : Inv w) : ∀ b < w.allocs, Booked w b :=
  fun b inside => (inv.books.due b inside).booked

/-- With everything stopped there is no place left but one. -/
theorem Inv.settled (inv : Inv w) (at_rest : w.state = .STOPPED) (none : w.alive = ∅) (inside : b < w.allocs) :
    w.deleted.count b = 1 := by
  have idle : w.state ≠ .ACTIVE := by rw [at_rest]; decide
  have unheld : w.refs = [] := by
    apply List.eq_nil_iff_forall_not_mem.mpr
    rintro ⟨holder, x⟩ member
    cases holder with
    | unit => exact inv.quiet idle x member
    | pipe d =>
      have living := inv.living d x (.inl member)
      rw [none] at living
      exact Finset.notMem_empty d living
    | sink d =>
      have living := inv.living d x (.inr member)
      rw [none] at living
      exact Finset.notMem_empty d living
  cases inv.booked b inside with
  | idle one =>
    rw [inv.emptied at_rest] at one
    cases one
  | held _ some =>
    rw [World.held, unheld] at some
    exact absurd some (Nat.lt_irrefl 0)
  | deleted _ _ once => exact once

/-- A careful run keeps every buffer in one place, and deletes each when all has stopped. -/
theorem pool_conserved (c : Component) (alive : Finset Nat) (fin : Bool) {events : List Event}
    (run : Run (Only (fun w e w' => step c w e = some w') Careful) (stopped alive fin) events w) :
    (∀ b < w.allocs, Booked w b) ∧
      (w.state = .STOPPED → w.alive = ∅ → ∀ b < w.allocs, w.deleted.count b = 1) := by
  have kept : ∀ w e w', Inv w → Only (fun w e w' => step c w e = some w') Careful w e w' → Inv w' :=
    fun _ _ _ inv taken => inv.step taken.1 taken.2
  have inv := run.invariant kept (.start alive fin)
  exact ⟨inv.booked, fun at_rest none b inside => inv.settled at_rest none inside⟩

/-- Four buffers, one of which is pushed and put by its sink, and the channel stops at its end. -/
def orderly : List Event :=
  [.start [true, true, true, true], .sinkStart 1, .getIdle, .push .unit 1 0 true, .put .unit 0 true, .finish,
    .stopping, .pop 1 0, .put (.sink 1) 0 true, .sinkStop 1 true, .processStopping]

instance (w : World) (e : Event) (w' : World) : Decidable (Careful w e w') :=
  match e with
  | .start nodes => inferInstanceAs (Decidable (∀ node ∈ nodes, node = true))
  | .push _ d _ memory => inferInstanceAs (Decidable (d ∈ w.alive ∧ memory = true))
  | .put _ _ memory | .sinkStop _ memory =>
    inferInstanceAs (Decidable (w.state = .ACTIVE ∧ w.fin = false → memory = true))
  | .stop => inferInstanceAs (Decidable (w.state = .ACTIVE ∧ w.fin = false → w.idles = []))
  | .getIdle | .pop .. | .take .. | .finish | .stopping | .processStopping | .sinkStart _ =>
    inferInstanceAs (Decidable True)

/-- A careful step, as it is computed. -/
def carefulStep (c : Component) (w : World) (e : Event) : Option World :=
  (step c w e).bind fun w' => if Careful w e w' then some w' else none

theorem orderly_runs : ∃ w, Run (Only (fun w e w' => step .ifile w e = some w') Careful) (stopped ∅ false) orderly w ∧
    w.allocs = 4 ∧ w.state = .STOPPED ∧ w.alive = ∅ := by
  have computed : ((orderly.foldlM (carefulStep .ifile) (stopped ∅ false)).any fun w =>
      decide (w.allocs = 4 ∧ w.state = .STOPPED ∧ w.alive = ∅)) = true := by
    decide +kernel
  obtain ⟨w, done, rest⟩ := (Option.any_eq_true _ _).mp computed
  refine ⟨w, (Run.of_foldlM done).mono ?_, of_decide_eq_true rest⟩
  intro w e w' done
  obtain ⟨target, taken, kept⟩ := Option.bind_eq_some_iff.mp done
  split at kept
  case isTrue careful =>
    cases kept
    exact ⟨taken, careful⟩
  case isFalse => cases kept

theorem pool_conserved_orderly :
    ∃ w, Run (Only (fun w e w' => step .ifile w e = some w') Careful) (stopped ∅ false) orderly w ∧
      w.allocs = 4 ∧ ∀ b < w.allocs, w.deleted.count b = 1 := by
  obtain ⟨w, run, four, at_rest, none⟩ := orderly_runs
  exact ⟨w, run, four, (pool_conserved .ifile ∅ false run).2 at_rest none⟩

/-- Another channel does not start, and `pitcher_start` stops this one. -/
theorem pool_lost : ∃ w, Run (fun w e w' => step .ifile w e = some w') (stopped ∅ false)
    [.start [true, true, true, true], .stop] w ∧
      w.state = .STOPPED ∧ w.alive = ∅ ∧ 0 < w.allocs ∧ ¬Booked w 0 ∧ w.deleted.count 0 = 0 := by
  have computed : (([.start [true, true, true, true], .stop].foldlM (step .ifile) (stopped ∅ false)).any fun w =>
      decide (w.state = .STOPPED ∧ w.alive = ∅ ∧ 0 < w.allocs ∧ w.idles.count 0 = 0 ∧ w.held 0 = 0 ∧
        w.deleted.count 0 = 0)) = true := by
    decide +kernel
  obtain ⟨w, done, rest⟩ := (Option.any_eq_true _ _).mp computed
  obtain ⟨at_rest, none, some, idle, held, deleted⟩ := of_decide_eq_true rest
  refine ⟨w, .of_foldlM done, at_rest, none, some, ?_, deleted⟩
  intro booked
  cases booked
  all_goals omega

end ImxTest.Pitcher.Pool
