import ImxTest.Nodes.Cmdline

/-! How the words of a command line are shared out among its subcommands and
their options. -/
namespace ImxTest.Nodes

/-- A word that stands for an option: two dashes and the name. -/
def Names (options : List Opt) (word : Word) (option : Opt) : Prop :=
  ∃ name, word = '-' :: '-' :: name ∧ findOption options name = some option

/-- What the words from number `i` on say to a subcommand with these options. An
option takes as many words as it has arguments, and a word that is neither is
passed over. -/
inductive Reads (options : List Opt) : Nat → List Word → List Use → Prop where
  | done (i) : Reads options i [] []
  | option {i word option args words uses} : Names options word option →
      args.length = option.argNum → Reads options (i + option.argNum + 1) words uses →
      Reads options i (word :: (args ++ words)) (⟨i, option, args⟩ :: uses)
  | other {i word words uses} : (∀ option, ¬Names options word option) →
      Reads options (i + 1) words uses → Reads options i (word :: words) uses

/-- The words from number `start` on, in front of number `stop`. -/
def between (argv : List Word) (start stop : Nat) : List Word := (argv.take stop).drop start

/-- The node that these options make of a new one, nothing where one of them fails. -/
def made (subcmd : Subcmd) (node : TestNode) (uses : List Use) : Option TestNode :=
  uses.foldlM (fun node use => subcmd.parseOption node use.option use.args) node

/-- The options of a subcommand are those that the words behind it say, in front of
the next one, and no word one of them took starts a subcommand. All words have
been read where a node was made, and it is the one that the options make. -/
def Met (argv : List Word) (starts : List Nat) (seg : Segment) : Prop :=
  (∃ upto ≤ seg.stop,
    Reads seg.subcmd.option (seg.cmdIndex + 1) (between argv (seg.cmdIndex + 1) upto) seg.uses ∧
    ∀ node, seg.node = some node →
      upto = seg.stop ∧ made seg.subcmd (allocNode seg.subcmd) seg.uses = some node) ∧
  ∀ use ∈ seg.uses, ∀ j, use.index < j → j ≤ use.index + use.option.argNum → j ∉ starts

/-- The option is written with two dashes, and no word it was handed is the name
of a subcommand. -/
def Plain (argv : List Word) (use : Use) : Prop :=
  (∃ name, argv.getD use.index [] = '-' :: '-' :: name) ∧
    ∀ word ∈ use.args, findSubcmd word = none

section Reading
variable {argv words : List Word} {subcmd : Subcmd} {options : List Opt} {option : Opt} {name : Word}
  {i j start stop upto : Nat} {node : TestNode} {use : Use} {uses : List Use} {starts : List Nat}
  {seg : Segment}

theorem between_nil (empty : stop ≤ start) : between argv start stop = [] := by
  apply List.drop_eq_nil_of_le
  exact Nat.le_trans (List.length_take_le ..) empty

theorem between_cons (lt : start < stop) (bound : start < argv.length) :
    between argv start stop = argv.getD start [] :: between argv (start + 1) stop := by
  have inside : start < (argv.take stop).length := by simp; omega
  rw [between, List.drop_eq_getElem_cons inside]
  simp [between, bound]

theorem between_append (first : start ≤ upto) (last : upto ≤ stop) :
    between argv start upto ++ between argv upto stop = between argv start stop := by
  simp only [between]
  have whole := List.take_append_drop (upto - start) ((argv.take stop).drop start)
  rw [List.drop_drop, Nat.add_sub_cancel' first, ← List.drop_take, List.take_take,
    Nat.min_eq_left last] at whole
  exact whole

theorem between_length (bound : stop ≤ argv.length) : (between argv start stop).length = stop - start := by
  simp [between, bound]

theorem between_getD (first : start ≤ j) (last : j < stop) :
    (between argv start stop).getD (j - start) [] = argv.getD j [] := by
  simp [between, List.getD_eq_getElem?_getD, Nat.add_sub_cancel' first, last]

theorem mem_between (mem : name ∈ between argv start stop) :
    ∃ j, start ≤ j ∧ j < stop ∧ j < argv.length ∧ argv.getD j [] = name := by
  obtain ⟨k, bound, at_k⟩ := List.mem_iff_getElem.mp mem
  simp only [between, List.length_drop, List.length_take] at bound
  refine ⟨start + k, by omega, by omega, by omega, ?_⟩
  have inside : start + k < argv.length := by omega
  simpa [between, inside] using at_k

theorem getD_mem_between (first : start ≤ j) (last : j < stop) (bound : j < argv.length) :
    argv.getD j [] ∈ between argv start stop := by
  rw [← between_getD first last]
  have inside : j - start < (between argv start stop).length := by
    simp [between]; omega
  rw [List.getD_eq_getElem?_getD, List.getElem?_eq_getElem inside]
  exact List.getElem_mem inside

/-! ## Options and their words -/

/-- An option that sets something has words to set it from. -/
theorem option_argNum (known : option ∈ subcmd.option) :
    (option.name ≠ "show" → 0 < option.argNum) ∧ (option.name = "size" → 1 < option.argNum) := by
  revert known option
  cases subcmd <;> decide

theorem getD_take (words : List Word) (lt : i < start) : (words.take start).getD i [] = words.getD i [] := by
  simp [List.getD_eq_getElem?_getD, lt]

theorem setOption_take {names : List String} {strict : Bool}
    (first : option.name ∈ names → 0 < option.argNum)
    (second : option.name = "size" → 1 < option.argNum) :
    setOption names strict node option (words.take option.argNum) =
      setOption names strict node option words := by
  by_cases known : option.name ∈ names
  · have zero := getD_take words (first known)
    by_cases size : option.name = "size"
    · simp only [setOption, zero, getD_take words (second size)]
    · simp only [setOption, zero, if_neg size]
  · simp only [setOption, if_pos known]

/-- An option looks at the words it takes, and no others. -/
theorem parseOption_take (found : findOption subcmd.option name = some option) :
    subcmd.parseOption node option (words.take option.argNum) =
      subcmd.parseOption node option words := by
  obtain ⟨first, second⟩ := option_argNum (List.mem_of_find?_eq_some found)
  cases subcmd <;> refine setOption_take (fun known => first ?_) second <;>
    rintro shown <;> simp [shown] at known

/-! ## The options of one subcommand -/

/-- What is known of every option that was found from word `i` on. -/
structure Taken (options : List Opt) (argv : List Word) (stop i : Nat) (use : Use) : Prop where
  first : i ≤ use.index
  last : use.index < stop
  found : findOption options ((argv.getD use.index []).drop 2) = some use.option
  bound : use.index + use.option.argNum < argv.length
  args : use.args = between argv (use.index + 1) (use.index + use.option.argNum + 1)

theorem Taken.mono (taken : Taken options argv stop i use) (less : j ≤ i) :
    Taken options argv stop j use :=
  { taken with first := Nat.le_trans less taken.first }

/-- An option that is written as such, with its words in front of `stop`. -/
def Tidy (argv : List Word) (stop : Nat) (use : Use) : Prop :=
  (∃ name, argv.getD use.index [] = '-' :: '-' :: name) ∧ use.index + use.option.argNum < stop

theorem names_drop (named : Names options name option) : findOption options (name.drop 2) = some option := by
  obtain ⟨rest, rfl, found⟩ := named
  exact found

theorem not_names (short : name.length < 2 ∨ (name.getD 0 ' ' ≠ '-' ∧ name.getD 1 ' ' ≠ '-')) :
    ¬Names options name option := by
  rintro ⟨rest, rfl, found⟩
  rcases short with short | ⟨dash, -⟩
  · simp only [List.length_cons] at short
    omega
  · exact dash rfl

theorem take_between (argv : List Word) (i n : Nat) :
    (argv.drop (i + 1)).take n = between argv (i + 1) (i + n + 1) := by
  rw [between, List.drop_take, Nat.add_right_comm, Nat.add_sub_cancel_left]

theorem Reads.pass (others : ∀ option, ¬Names options (argv.getD i []) option)
    (lt : i < upto) (bound : i < argv.length)
    (reads : Reads options (i + 1) (between argv (i + 1) upto) uses) :
    Reads options i (between argv i upto) uses := by
  rw [between_cons lt bound]
  exact .other others reads

theorem Reads.take (named : Names options (argv.getD i []) option)
    (bound : i + option.argNum < argv.length) (lt : i + option.argNum < upto)
    (reads : Reads options (i + option.argNum + 1) (between argv (i + option.argNum + 1) upto) uses) :
    Reads options i (between argv i upto)
      (⟨i, option, between argv (i + 1) (i + option.argNum + 1)⟩ :: uses) := by
  rw [between_cons (by omega) (by omega),
    ← between_append (by omega : i + 1 ≤ i + option.argNum + 1) lt]
  refine .option named ?_ reads
  rw [between_length bound]
  omega

/-- What the loop of `parse_args` found from word `i` on, and how it left. -/
structure Found (subcmd : Subcmd) (argv : List Word) (stop i : Nat) (node : TestNode)
    (left : Option TestNode) (new : List Use) : Prop where
  taken : ∀ use ∈ new, Taken subcmd.option argv stop i use
  reads : stop ≤ argv.length → i ≤ stop → (∀ use ∈ new, Tidy argv stop use) →
    ∃ upto ≤ stop, i ≤ upto ∧ Reads subcmd.option i (between argv i upto) new ∧
      ∀ last, left = some last → upto = stop ∧ made subcmd node new = some last

variable {left : Option TestNode}

theorem Found.past (node : TestNode) (past : ¬i < stop) :
    Found subcmd argv stop i node (some node) [] where
  taken := by simp
  reads _ le _ := by
    refine ⟨stop, Nat.le_refl stop, le, ?_, fun last same => ⟨rfl, same⟩⟩
    rw [between_nil (Nat.le_of_not_lt past)]
    exact .done i

theorem Found.stuck (node : TestNode) : Found subcmd argv stop i node none [] where
  taken := by simp
  reads _ le _ := by
    refine ⟨i, le, Nat.le_refl i, ?_, by simp⟩
    rw [between_nil (Nat.le_refl i)]
    exact .done i

theorem Found.pass (rest : Found subcmd argv stop (i + 1) node left uses) (lt : i < stop)
    (others : ∀ option, ¬Names subcmd.option (argv.getD i []) option) :
    Found subcmd argv stop i node left uses where
  taken use mem := (rest.taken use mem).mono (Nat.le_succ i)
  reads bound _ tidy := by
    obtain ⟨upto, le, first, reads, whole⟩ := rest.reads bound lt tidy
    exact ⟨upto, le, Nat.le_of_lt first, reads.pass others first (Nat.lt_of_lt_of_le lt bound), whole⟩

theorem taken_here (lt : i < stop)
    (found : findOption options ((argv.getD i []).drop 2) = some option)
    (enough : i + option.argNum < argv.length) :
    Taken options argv stop i ⟨i, option, between argv (i + 1) (i + option.argNum + 1)⟩ where
  first := Nat.le_refl i
  last := lt
  found := found
  bound := enough
  args := rfl

theorem parseOption_between (found : findOption subcmd.option name = some option) :
    subcmd.parseOption node option (between argv (i + 1) (i + option.argNum + 1)) =
      subcmd.parseOption node option (argv.drop (i + 1)) := by
  rw [← take_between, parseOption_take found]

/-- The last option that a loop finds is one that fails. -/
theorem Found.fail (lt : i < stop)
    (found : findOption subcmd.option ((argv.getD i []).drop 2) = some option)
    (enough : i + option.argNum < argv.length) :
    Found subcmd argv stop i node none
      [⟨i, option, between argv (i + 1) (i + option.argNum + 1)⟩] where
  taken use mem := by
    cases List.mem_singleton.mp mem
    exact taken_here lt found enough
  reads bound _ tidy := by
    obtain ⟨⟨name, dashed⟩, inside⟩ := tidy _ (List.mem_singleton_self _)
    refine ⟨i + option.argNum + 1, inside, by omega, ?_, by simp⟩
    refine Reads.take ⟨name, dashed, by rwa [dashed] at found⟩ enough (Nat.lt_succ_self _) ?_
    rw [between_nil (Nat.le_refl _)]
    exact .done _

theorem Found.takes {next : TestNode} (lt : i < stop)
    (found : findOption subcmd.option ((argv.getD i []).drop 2) = some option)
    (enough : i + option.argNum < argv.length)
    (parsed : subcmd.parseOption node option (argv.drop (i + 1)) = some next)
    (rest : Found subcmd argv stop (i + option.argNum + 1) next left uses) :
    Found subcmd argv stop i node left
      (⟨i, option, between argv (i + 1) (i + option.argNum + 1)⟩ :: uses) where
  taken use mem := by
    rcases List.mem_cons.mp mem with rfl | mem
    · exact taken_here lt found enough
    · exact (rest.taken use mem).mono (by omega)
  reads bound _ tidy := by
    obtain ⟨⟨name, dashed⟩, inside⟩ := tidy _ List.mem_cons_self
    obtain ⟨upto, le, first, reads, whole⟩ :=
      rest.reads bound inside fun use mem => tidy use (List.mem_cons_of_mem _ mem)
    refine ⟨upto, le, by omega, ?_, fun last same => ?_⟩
    · exact Reads.take ⟨name, dashed, by rwa [dashed] at found⟩ enough first reads
    · obtain ⟨all, makes⟩ := whole last same
      refine ⟨all, ?_⟩
      rw [made, List.foldlM_cons, parseOption_between found, parsed]
      exact makes

theorem argsLoop_found : ∃ new, (argsLoop subcmd argv stop i node uses).2 = uses ++ new ∧
    Found subcmd argv stop i node (argsLoop subcmd argv stop i node uses).1 new := by
  fun_induction argsLoop subcmd argv stop i node uses with
  | case1 i node uses lt word short ih =>
    obtain ⟨new, grown, found⟩ := ih
    exact ⟨new, grown, found.pass lt fun _ => not_names (.inl short)⟩
  | case2 i node uses lt word long undashed ih =>
    obtain ⟨new, grown, found⟩ := ih
    exact ⟨new, grown, found.pass lt fun _ => not_names (.inr undashed)⟩
  | case3 i node uses lt word long dashed unknown ih =>
    obtain ⟨new, grown, found⟩ := ih
    refine ⟨new, grown, found.pass lt fun _ named => ?_⟩
    exact Option.some_ne_none _ ((names_drop named).symm.trans unknown)
  | case4 i node uses lt word long dashed option found few =>
    exact ⟨[], (List.append_nil uses).symm, .stuck node⟩
  | case5 i node uses lt word long dashed option found enough more failed =>
    refine ⟨[⟨i, option, _⟩], rfl, ?_⟩
    rw [take_between]
    exact .fail lt found (Nat.lt_of_not_le enough)
  | case6 i node uses lt word long dashed option found enough more next parsed ih =>
    obtain ⟨new, grown, rest⟩ := ih
    refine ⟨⟨i, option, _⟩ :: new, by rw [grown, List.append_assoc]; rfl, ?_⟩
    rw [take_between]
    exact .takes lt found (Nat.lt_of_not_le enough) parsed rest
  | case7 i node uses past => exact ⟨[], (List.append_nil uses).symm, .past node past⟩

theorem getD_behind {front rest : List Word} (behind : i + front.length ≤ j) :
    (front ++ rest).getD (j - i) [] = rest.getD (j - (i + front.length)) [] := by
  have past : front.length ≤ j - i := Nat.le_sub_of_add_le' behind
  rw [List.getD_eq_getElem?_getD, List.getElem?_append_right past, Nat.sub_sub,
    List.getD_eq_getElem?_getD]

theorem Reads.tidy (reads : Reads options i words uses) (mem : use ∈ uses) :
    i ≤ use.index ∧ use.index + use.option.argNum < i + words.length ∧
      ∃ name, words.getD (use.index - i) [] = '-' :: '-' :: name := by
  induction reads with
  | done => cases mem
  | @option i word option args words uses named length reads ih =>
    simp only [List.length_cons, List.length_append, length]
    rcases List.mem_cons.mp mem with rfl | mem
    · obtain ⟨name, rfl, -⟩ := named
      refine ⟨Nat.le_refl i, by simp only; omega, name, ?_⟩
      rw [Nat.sub_self, List.getD_cons_zero]
    · obtain ⟨first, last, name, dashed⟩ := ih mem
      refine ⟨by omega, by omega, name, ?_⟩
      have front : i + (word :: args).length = i + option.argNum + 1 := by
        rw [List.length_cons, length, Nat.add_assoc]
      rw [← List.cons_append, getD_behind (front ▸ first), front, dashed]
  | @other i word words uses others reads ih =>
    obtain ⟨first, last, name, dashed⟩ := ih mem
    refine ⟨by omega, by simp only [List.length_cons]; omega, name, ?_⟩
    rw [← List.singleton_append, getD_behind first]
    exact dashed

/-! ## The subcommands of a command line -/

/-- A subcommand whose options end at the next one, or with the last word. -/
structure Segment.Sound (argv : List Word) (seg : Segment) : Prop where
  parsed : argsLoop seg.subcmd argv seg.stop (seg.cmdIndex + 1) (allocNode seg.subcmd) [] =
    (seg.node, seg.uses)
  order : seg.cmdIndex < seg.stop
  bound : seg.stop ≤ argv.length
  inside : ∀ j, seg.cmdIndex < j → j < seg.stop → findSubcmd (argv.getD j []) = none
  ends : seg.stop < argv.length → findSubcmd (argv.getD seg.stop []) ≠ none

theorem Segment.Sound.found (sound : seg.Sound argv) :
    Found seg.subcmd argv seg.stop (seg.cmdIndex + 1) (allocNode seg.subcmd) seg.node seg.uses := by
  obtain ⟨new, grown, found⟩ := @argsLoop_found argv seg.subcmd (seg.cmdIndex + 1) seg.stop
    (allocNode seg.subcmd) []
  rw [sound.parsed] at grown found
  have same : seg.uses = new := grown
  rwa [same]

/-- The words of an option stay in front of the next subcommand exactly if none of
them is one. -/
theorem Segment.Sound.inside_iff (sound : seg.Sound argv) (mem : use ∈ seg.uses) :
    use.index + use.option.argNum < seg.stop ↔ ∀ word ∈ use.args, findSubcmd word = none := by
  have taken := sound.found.taken use mem
  have first := taken.first
  have last := taken.last
  have bound := taken.bound
  rw [taken.args]
  constructor
  · intro fits word mem
    obtain ⟨j, low, high, -, rfl⟩ := mem_between mem
    exact sound.inside j (by omega) (by omega)
  · intro plain
    by_contra past
    exact sound.ends (by omega) (plain _ (getD_mem_between (by omega) (by omega) (by omega)))

theorem Segment.Sound.met_iff (sound : seg.Sound argv)
    (named : ∀ j ∈ starts, findSubcmd (argv.getD j []) ≠ none) :
    Met argv starts seg ↔ ∀ use ∈ seg.uses, Plain argv use := by
  have found := sound.found
  constructor
  · rintro ⟨⟨upto, le, reads, -⟩, -⟩ use mem
    obtain ⟨first, last, name, dashed⟩ := reads.tidy mem
    rw [between_length (Nat.le_trans le sound.bound)] at last
    have inside : use.index + use.option.argNum < upto := by omega
    rw [between_getD first (Nat.lt_of_le_of_lt (Nat.le_add_right ..) inside)] at dashed
    exact ⟨⟨name, dashed⟩, (sound.inside_iff mem).mp (Nat.lt_of_lt_of_le inside le)⟩
  · intro plain
    have tidy : ∀ use ∈ seg.uses, Tidy argv seg.stop use := fun use mem =>
      ⟨(plain use mem).1, (sound.inside_iff mem).mpr (plain use mem).2⟩
    obtain ⟨upto, le, -, reads, whole⟩ := found.reads sound.bound sound.order tidy
    refine ⟨⟨upto, le, reads, whole⟩, fun use mem j low high start => ?_⟩
    refine named j start ((plain use mem).2 _ ?_)
    have taken := found.taken use mem
    have bound := taken.bound
    rw [taken.args]
    exact getD_mem_between low (by omega) (by omega)

/-- How far `parse_subcmds` is in front of word `index`. -/
structure Scanned (argv : List Word) (index : Nat) (subcmd : Option (Subcmd × Nat)) (cmd : Cmdline) :
    Prop where
  segments : ∀ seg ∈ cmd.segments, seg.Sound argv
  starts : ∀ j ∈ cmd.starts, findSubcmd (argv.getD j []) ≠ none
  current : ∀ cur cmdIndex, subcmd = some (cur, cmdIndex) → cmdIndex < index ∧
    ∀ j, cmdIndex < j → j < index → findSubcmd (argv.getD j []) = none

variable {index cmdIndex : Nat} {current : Option (Subcmd × Nat)} {cmd : Cmdline}

theorem parseArgs_log : ∃ seg : Segment,
    (parseArgs subcmd argv cmdIndex stop cmd).2.segments = cmd.segments ++ [seg] ∧
    (parseArgs subcmd argv cmdIndex stop cmd).2.starts = cmd.starts ∧
    seg.cmdIndex = cmdIndex ∧ seg.stop = stop ∧
    argsLoop seg.subcmd argv seg.stop (seg.cmdIndex + 1) (allocNode seg.subcmd) [] =
      (seg.node, seg.uses) := by
  refine ⟨⟨subcmd, cmdIndex, stop, (argsLoop subcmd argv stop (cmdIndex + 1) (allocNode subcmd) []).2,
    (argsLoop subcmd argv stop (cmdIndex + 1) (allocNode subcmd) []).1⟩, ?_, ?_, rfl, rfl, rfl⟩
  all_goals
    simp only [parseArgs]
    split
    · rfl
    · split_ifs <;> rfl

theorem closeSubcmd_scanned (scanned : Scanned argv index current cmd) (bound : index ≤ argv.length)
    (ends : index < argv.length → findSubcmd (argv.getD index []) ≠ none) :
    (∀ seg ∈ (closeSubcmd argv index cmd current).2.segments, seg.Sound argv) ∧
      (closeSubcmd argv index cmd current).2.starts = cmd.starts := by
  rcases current with _ | ⟨subcmd, cmdIndex⟩
  · exact ⟨scanned.segments, rfl⟩
  · obtain ⟨seg, grown, same, rfl, rfl, parsed⟩ :=
      @parseArgs_log argv subcmd index cmdIndex cmd
    obtain ⟨order, inside⟩ := scanned.current _ _ rfl
    have sound : seg.Sound argv := ⟨parsed, order, bound, inside, ends⟩
    have all : ∀ other ∈ cmd.segments ++ [seg], other.Sound argv := by
      intro other mem
      rcases List.mem_append.mp mem with mem | mem
      · exact scanned.segments other mem
      · exact List.mem_singleton.mp mem ▸ sound
    simp only [closeSubcmd]
    split <;> rename_i parses <;> rw [parses] at grown same
    · exact ⟨grown ▸ all, same⟩
    · exact ⟨grown ▸ all, same⟩

theorem Scanned.pass (scanned : Scanned argv index current cmd)
    (other : findSubcmd (argv.getD index []) = none) : Scanned argv (index + 1) current cmd where
  segments := scanned.segments
  starts := scanned.starts
  current cur cmdIndex same := by
    obtain ⟨order, inside⟩ := scanned.current cur cmdIndex same
    refine ⟨Nat.lt_succ_of_lt order, fun j low high => ?_⟩
    rcases Nat.lt_succ_iff_lt_or_eq.mp high with high | rfl
    · exact inside j low high
    · exact other

theorem Scanned.opens (segments : ∀ seg ∈ cmd.segments, seg.Sound argv)
    (starts : ∀ j ∈ cmd.starts, findSubcmd (argv.getD j []) ≠ none)
    (found : findSubcmd (argv.getD index []) = some subcmd) :
    Scanned argv (index + 1) (some (subcmd, index)) { cmd with starts := cmd.starts ++ [index] } where
  segments := segments
  starts j mem := by
    rcases List.mem_append.mp mem with mem | mem
    · exact starts j mem
    · rw [List.mem_singleton.mp mem, found]
      exact Option.some_ne_none subcmd
  current := by
    rintro _ _ ⟨⟩
    exact ⟨Nat.lt_succ_self index, fun j low high => absurd low (by omega)⟩

theorem subcmdsLoop_scanned (scanned : Scanned argv index current cmd)
    (rest : argv.drop index = words) (bound : index ≤ argv.length) :
    (∀ seg ∈ (subcmdsLoop argv index current cmd words).2.segments, seg.Sound argv) ∧
      ∀ j ∈ (subcmdsLoop argv index current cmd words).2.starts,
        findSubcmd (argv.getD j []) ≠ none := by
  induction words generalizing index current cmd with
  | nil =>
    have all := List.drop_eq_nil_iff.mp rest
    obtain ⟨segments, starts⟩ := closeSubcmd_scanned scanned bound fun more => absurd more (by omega)
    exact ⟨segments, starts ▸ scanned.starts⟩
  | cons word rest' ih =>
    have inside : index < argv.length := by
      by_contra past
      rw [List.drop_of_length_le (Nat.le_of_not_lt past)] at rest
      cases rest
    rw [List.drop_eq_getElem_cons inside] at rest
    injection rest with first tail
    have here : argv.getD index [] = word := by
      rw [List.getD_eq_getElem?_getD, List.getElem?_eq_getElem inside, first, Option.getD_some]
    rw [subcmdsLoop]
    split
    next other => exact ih (scanned.pass (here ▸ other)) tail inside
    next subcmd found =>
      have ends : findSubcmd (argv.getD index []) = some subcmd := here ▸ found
      obtain ⟨segments, starts⟩ := closeSubcmd_scanned scanned bound fun _ => by
        rw [ends]
        exact Option.some_ne_none subcmd
      have known := starts ▸ scanned.starts
      split
      next parsed closes =>
        rw [closes] at segments known
        exact ih (.opens segments known ends) tail inside
      next closes =>
        rw [closes] at segments known
        exact ⟨segments, known⟩

/-- For every `argv`, whether it is refused in the end or not: the options of all
subcommands are read as they are written, and take words of their own subcommand
only, exactly if each of them has its two dashes and none is handed the name of a
subcommand. -/
theorem segments_iff (argv : List Word) :
    (∀ seg ∈ (parseSubcmds argv).2.segments, Met argv (parseSubcmds argv).2.starts seg) ↔
      ∀ seg ∈ (parseSubcmds argv).2.segments, ∀ use ∈ seg.uses, Plain argv use := by
  have scanned : Scanned argv 0 none {} := ⟨by simp, by simp, by simp⟩
  obtain ⟨sound, named⟩ := subcmdsLoop_scanned scanned rfl (Nat.zero_le _)
  exact forall₂_congr fun seg mem => (sound seg mem).met_iff named

/-- A file that has the name of a subcommand. -/
def namedOfile : List Word := ["vpu".toList, "ifile".toList, "--name".toList, "ofile".toList]

theorem file_starts_subcmd : ¬∀ seg ∈ (parseSubcmds namedOfile).2.segments,
    Met namedOfile (parseSubcmds namedOfile).2.starts seg := by
  intro met
  have taken : ∃ seg ∈ (parseSubcmds namedOfile).2.segments, ∃ use ∈ seg.uses,
      ∃ j ∈ (parseSubcmds namedOfile).2.starts,
        use.index < j ∧ j ≤ use.index + use.option.argNum := by decide +kernel
  obtain ⟨seg, mem, use, found, j, start, low, high⟩ := taken
  exact (met seg mem).2 use found j low high start

end Reading
end ImxTest.Nodes
