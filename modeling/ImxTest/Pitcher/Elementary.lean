import ImxTest.Pitcher.Ranges

/-! Streams of units, each a start code 00 00 01 and bytes in which no start code
occurs. The scan accepts codes nowhere but at the units, so what a parser keeps
is a matter of how its callback classifies them one after the other. -/
namespace ImxTest.Pitcher.Elementary

open Lib.Cut Scan

def startCode : List UInt8 := [0, 0, 1]

/-- The bytes of a unit behind its start code, trailing zeros included. -/
abbrev Bytes := List UInt8

def Clean (bytes : Bytes) : Prop := ¬ startCode <:+: bytes

instance (bytes : Bytes) : Decidable (Clean bytes) := inferInstanceAs (Decidable (¬ _))

def stream (units : List Bytes) : Bytes := units.flatMap (startCode ++ ·)

@[simp] theorem stream_nil : stream [] = [] := rfl

@[simp] theorem stream_cons (u : Bytes) (us : List Bytes) :
    stream (u :: us) = startCode ++ (u ++ stream us) := by
  simp only [stream, List.flatMap_cons, List.append_assoc]

@[simp] theorem stream_append (us vs : List Bytes) : stream (us ++ vs) = stream us ++ stream vs := by
  simp only [stream, List.flatMap_append]

/-- The memory holds the bytes from a position on. -/
def Holds (virt : Nat → UInt8) (pos : Nat) (bytes : Bytes) : Prop :=
  ∀ k b, bytes[k]? = some b → virt (pos + k) = b

theorem Holds.left {virt : Nat → UInt8} {pos : Nat} {xs ys : Bytes}
    (holds : Holds virt pos (xs ++ ys)) : Holds virt pos xs := by
  intro k b found
  apply holds k b
  rw [List.getElem?_append_left (List.getElem?_eq_some_iff.mp found).1, found]

theorem Holds.right {virt : Nat → UInt8} {pos : Nat} {xs ys : Bytes}
    (holds : Holds virt pos (xs ++ ys)) : Holds virt (pos + xs.length) ys := by
  intro k b found
  rw [Nat.add_assoc]
  apply holds (xs.length + k) b
  rw [List.getElem?_append_right (by omega), Nat.add_sub_cancel_left, found]

/-- The descriptor looks for 00 00 01, in either form. -/
structure Standard (sc : Scode) : Prop where
  num : sc.num = 3
  scode : sc.scode = 1
  mask : sc.mask = 0xffffff
  extra : sc.extraNum = 3 ∨ sc.extraNum = 4 ∧ sc.extraCode = 1 ∧ sc.extraMask = 0xffffffff

theorem codeEnds_standard {sc : Scode} (standard : Standard sc) {virt : Nat → UInt8} {i : Nat} :
    codeEnds { sc with forceExtraOnFirst := false } virt i = true ↔
      2 ≤ i ∧ virt (i - 2) = 0 ∧ virt (i - 1) = 0 ∧ virt i = 1 := by
  rw [codeEnds_relaxed, standard.num, standard.scode, standard.mask]
  have word : window virt i &&& 0xffffff = window virt i % 2 ^ 24 :=
    Nat.and_two_pow_sub_one_eq_mod (window virt i) 24
  have h0 := byteBack_lt virt i 0
  have h1 := byteBack_lt virt i 1
  have h2 := byteBack_lt virt i 2
  have bytes : window virt i % 2 ^ 24 = 1 ↔
      byteBack virt i 2 = 0 ∧ byteBack virt i 1 = 0 ∧ byteBack virt i 0 = 1 := by
    simp only [window]
    constructor
    · intro h
      omega
    · intro h
      omega
  rw [word, bytes]
  constructor
  · rintro ⟨late, b2, b1, b0⟩
    have late : 2 ≤ i := by omega
    have late' : 1 ≤ i := by omega
    simp only [byteBack, late, late', Nat.zero_le, if_true, Nat.sub_zero] at b0 b1 b2
    exact ⟨late, UInt8.toNat_inj.mp b2, UInt8.toNat_inj.mp b1, UInt8.toNat_inj.mp b0⟩
  · rintro ⟨late, b2, b1, b0⟩
    have late' : 1 ≤ i := by omega
    simp [byteBack, late, late', b0, b1, b2]

theorem no_code_inside {sc : Scode} (standard : Standard sc) {virt : Nat → UInt8} {pos : Nat}
    {bytes : Bytes} (holds : Holds virt pos bytes) (clean : Clean bytes) {j : Nat}
    (low : pos + 2 ≤ j) (high : j < pos + bytes.length) :
    codeEnds { sc with forceExtraOnFirst := false } virt j = false := by
  by_contra ends
  obtain ⟨-, b2, b1, b0⟩ := (codeEnds_standard standard).mp (by simpa using ends)
  obtain ⟨k, rfl⟩ : ∃ k, j = pos + k + 2 := ⟨j - pos - 2, by omega⟩
  apply clean
  refine ⟨bytes.take k, bytes.drop (k + 3), ?_⟩
  have at_ : ∀ d, d < 3 → bytes[k + d]? = some (virt (pos + k + d)) := by
    intro d small
    have inside : k + d < bytes.length := by omega
    rw [List.getElem?_eq_getElem inside, ← holds (k + d) _ (List.getElem?_eq_getElem inside),
      Nat.add_assoc]
  have first : bytes.drop k = 0 :: 0 :: 1 :: bytes.drop (k + 3) := by
    have e0 := at_ 0 (by decide)
    have e1 := at_ 1 (by decide)
    have e2 := at_ 2 (by decide)
    simp only [Nat.add_zero, show pos + k + 2 - 2 = pos + k by omega,
      show pos + k + 2 - 1 = pos + k + 1 by omega] at e0 e1 e2 b0 b1 b2
    rw [b2] at e0
    rw [b1] at e1
    rw [b0] at e2
    rw [List.drop_eq_getElem?_toList_append, e0, List.drop_eq_getElem?_toList_append, e1,
      List.drop_eq_getElem?_toList_append, e2]
    rfl
  calc bytes.take k ++ startCode ++ bytes.drop (k + 3)
      = bytes.take k ++ (0 :: 0 :: 1 :: bytes.drop (k + 3)) := by simp [startCode]
    _ = bytes := by rw [← first, List.take_append_drop]

section Codes
variable {ε σ : Type}

theorem codesFrom_skip {sc : Scode} {check : Option (CheckFrame ε σ)} {virt : Nat → UInt8}
    {size i : Nat} {force : Bool} {priv : σ} (n todo : Nat)
    (none : ∀ j, i ≤ j → j < i + n →
      codeEnds { sc with forceExtraOnFirst := force } virt j = false) :
    codesFrom sc check virt size (n + todo) i force priv =
      codesFrom sc check virt size todo (i + n) force priv := by
  induction n generalizing i with
  | zero => simp
  | succ n ih =>
    have here := none i (le_refl i) (by omega)
    rw [show n + 1 + todo = n + todo + 1 by omega, codesFrom, here,
      show i + (n + 1) = i + 1 + n by omega]
    simp only [Bool.false_eq_true, if_false]
    exact ih fun j low high => none j (by omega) (by omega)

/-- The codes of units that lie at `pos`, each classified in turn. -/
def codesOf (sc : Scode) (check : CheckFrame ε σ) (virt : Nat → UInt8) (size : Nat) :
    (pos : Nat) → List Bytes → σ → Except ε (List Code × σ)
  | _, [], priv => .ok ([], priv)
  | pos, u :: us, priv => do
    let (type, priv) ← check virt (pos + 3) (leftSize size (pos + 3)) priv
    let (codes, priv) ← codesOf sc check virt size (pos + 3 + u.length) us priv
    .ok (if type = .UNKNOWN then codes
      else ⟨pos + 2, codeOffset sc (window virt (pos + 2)) (pos + 2), type⟩ :: codes, priv)

theorem no_code {sc : Scode} (standard : Standard sc) {virt : Nat → UInt8} {j : Nat}
    (differ : virt j ≠ 1 ∨ virt (j - 1) ≠ 0 ∨ virt (j - 2) ≠ 0) :
    codeEnds { sc with forceExtraOnFirst := false } virt j = false := by
  by_contra ends
  obtain ⟨-, b2, b1, b0⟩ := (codeEnds_standard standard).mp (by simpa using ends)
  rcases differ with h | h | h
  · exact h b0
  · exact h b1
  · exact h b2

/-- The scan of one unit: its own code, and nothing else. -/
theorem codesFrom_unit {sc : Scode} (standard : Standard sc) (check : CheckFrame ε σ)
    {virt : Nat → UInt8} (size : Nat) {pos : Nat} {u : Bytes}
    (holds : Holds virt pos (startCode ++ u)) (clean : Clean u) (todo : Nat) (priv : σ) :
    codesFrom sc (some check) virt size (3 + u.length + todo) pos false priv = (do
      let (type, priv) ← check virt (pos + 3) (leftSize size (pos + 3)) priv
      let (codes, priv) ← codesFrom sc (some check) virt size todo (pos + 3 + u.length) false priv
      .ok (if type = .UNKNOWN then codes
        else ⟨pos + 2, codeOffset sc (window virt (pos + 2)) (pos + 2), type⟩ :: codes, priv)) := by
  have z0 : virt pos = 0 := holds 0 0 rfl
  have z1 : virt (pos + 1) = 0 := holds 1 0 rfl
  have z2 : virt (pos + 2) = 1 := holds 2 1 rfl
  have code : codeEnds { sc with forceExtraOnFirst := false } virt (pos + 2) = true :=
    (codeEnds_standard standard).mpr ⟨by omega, z0, z1, z2⟩
  have front : ∀ j, pos ≤ j → j < pos + 2 →
      codeEnds { sc with forceExtraOnFirst := false } virt j = false := by
    intro j low high
    rcases (by omega : j = pos ∨ j = pos + 1) with rfl | rfl
    · exact no_code standard (.inl (by simp [z0]))
    · exact no_code standard (.inl (by simp [z1]))
  have inside : ∀ j, pos + 3 ≤ j → j < pos + 3 + u.length →
      codeEnds { sc with forceExtraOnFirst := false } virt j = false := by
    intro j low high
    rcases (by omega : j = pos + 3 ∨ j = pos + 4 ∨ pos + 3 + 2 ≤ j) with rfl | rfl | later
    · exact no_code standard (.inr (.inl (by simp [z2])))
    · exact no_code standard (.inr (.inr (by simp [z2])))
    · exact no_code_inside standard holds.right clean later high
  rw [show 3 + u.length + todo = 2 + (u.length + todo + 1) by omega, codesFrom_skip 2 _ front,
    codesFrom, code]
  simp only [if_true, classify, codesFrom_skip u.length todo inside, bind, Except.bind]
  cases check virt (pos + 3) (leftSize size (pos + 3)) priv with
  | error e => rfl
  | ok result =>
    obtain ⟨type, next⟩ := result
    by_cases unknown : type = .UNKNOWN
    · simp only [unknown, if_true]
      cases codesFrom sc (some check) virt size todo (pos + 3 + u.length) false next <;> rfl
    · simp only [unknown, if_false]

theorem codesFrom_units {sc : Scode} (standard : Standard sc) {check : CheckFrame ε σ}
    {virt : Nat → UInt8} {size pos : Nat} {units : List Bytes}
    (holds : Holds virt pos (stream units)) (clean : ∀ u ∈ units, Clean u) (priv : σ) :
    codesFrom sc (some check) virt size (stream units).length pos false priv =
      codesOf sc check virt size pos units priv := by
  induction units generalizing pos priv with
  | nil => rfl
  | cons u us ih =>
    rw [stream_cons, ← List.append_assoc] at holds
    have length : (stream (u :: us)).length = 3 + u.length + (stream us).length := by
      simp only [stream_cons, startCode, List.length_append, List.length_cons, List.length_nil]
      omega
    have rest : Holds virt (pos + 3 + u.length) (stream us) := by
      have := holds.right
      rwa [List.length_append, ← Nat.add_assoc] at this
    have tail := ih rest fun v mem => clean v (List.mem_cons_of_mem _ mem)
    rw [length, codesFrom_unit standard check size holds.left (clean u (by simp))]
    simp only [codesOf, tail]

/-- Bytes in front of the first unit hold no code. -/
theorem codesFrom_lead {sc : Scode} (standard : Standard sc) (check : CheckFrame ε σ)
    {virt : Nat → UInt8} (size : Nat) {lead : Bytes} (holds : Holds virt 0 lead)
    (clean : Clean lead) (todo : Nat) (priv : σ) :
    codesFrom sc (some check) virt size (lead.length + todo) 0 false priv =
      codesFrom sc (some check) virt size todo lead.length false priv := by
  have none : ∀ j, 0 ≤ j → j < 0 + lead.length →
      codeEnds { sc with forceExtraOnFirst := false } virt j = false := by
    intro j _ high
    by_cases late : 2 ≤ j
    · exact no_code_inside standard holds clean (by omega) high
    · by_contra ends
      exact late ((codeEnds_standard standard).mp (by simpa using ends)).1
  simpa using codesFrom_skip (i := 0) lead.length todo none

end Codes

/-- The bytes of a unit up to the last that is not zero, and the number of zero
bytes between it and the next start code. -/
structure Element where
  bytes : Bytes
  zeros : Nat := 0
deriving DecidableEq, Repr

def Element.code (e : Element) : Option UInt8 := e.bytes.head?

/-- An element with what it is there for. -/
structure CodedUnit (τ : Type) extends Element where
  tag : τ
deriving DecidableEq, Repr

def CodedUnit.of {τ : Type} (tag : τ) (e : Element) : CodedUnit τ := { e with tag }

namespace CodedUnit
variable {τ : Type}

def payload (u : CodedUnit τ) : Bytes := u.bytes ++ List.replicate u.zeros 0

/-- Bytes without a start code in them and without a zero at the end. -/
structure Closed (u : CodedUnit τ) : Prop where
  clean : Clean u.bytes
  nonempty : u.bytes ≠ []
  last : u.bytes.getLast? ≠ some 0

instance (u : CodedUnit τ) : Decidable u.Closed :=
  decidable_of_iff (Clean u.bytes ∧ u.bytes ≠ [] ∧ u.bytes.getLast? ≠ some 0)
    ⟨fun ⟨clean, nonempty, last⟩ => ⟨clean, nonempty, last⟩,
      fun ⟨clean, nonempty, last⟩ => ⟨clean, nonempty, last⟩⟩

end CodedUnit

theorem clean_zeros {bytes : Bytes} (clean : Clean bytes) (n : Nat) :
    Clean (bytes ++ List.replicate n 0) := by
  induction n with
  | zero => simpa using clean
  | succ n ih =>
    rw [List.replicate_succ', ← List.append_assoc]
    rintro ⟨before, after, eq⟩
    -- the last byte is zero, so the code lies before it
    rcases List.eq_nil_or_concat after with rfl | ⟨front, b, rfl⟩
    · have last := congrArg List.getLast? eq
      simp [startCode] at last
    · rw [List.concat_eq_append, ← List.append_assoc] at eq
      exact ih ⟨before, front, (List.append_inj' eq rfl).1⟩

/-- A code at `pos` is taken to start there or, in its long form, at the zero
byte before. -/
theorem codeOffset_standard {sc : Scode} (standard : Standard sc) (virt : Nat → UInt8) (pos : Nat) :
    codeOffset sc (window virt (pos + 2)) (pos + 2) = pos ∨
      codeOffset sc (window virt (pos + 2)) (pos + 2) = pos - 1 ∧ 1 ≤ pos ∧ virt (pos - 1) = 0 := by
  unfold codeOffset
  rcases standard.extra with three | ⟨four, code, mask⟩
  · left
    rw [three, standard.num]
    split <;> omega
  · rw [four, code, mask, standard.num]
    by_cases long : 4 ≤ pos + 2 + 1 ∧ window virt (pos + 2) &&& 0xffffffff = 1
    · right
      have positive : 1 ≤ pos := by omega
      refine ⟨by simp only [long, and_self, if_true]; omega, positive, ?_⟩
      have bytes := long.2
      rw [show (0xffffffff : Nat) = 2 ^ 32 - 1 from rfl, Nat.and_two_pow_sub_one_eq_mod] at bytes
      have h0 := byteBack_lt virt (pos + 2) 0
      have h1 := byteBack_lt virt (pos + 2) 1
      have h2 := byteBack_lt virt (pos + 2) 2
      have h3 := byteBack_lt virt (pos + 2) 3
      have zero : byteBack virt (pos + 2) 3 = 0 := by
        simp only [window] at bytes
        omega
      have late : 3 ≤ pos + 2 := by omega
      simp only [byteBack, late, if_true, show pos + 2 - 3 = pos - 1 by omega] at zero
      exact UInt8.toNat_inj.mp zero
    · left
      simp only [long, if_false]
      omega

section Layout
variable {τ α ε σ : Type}

structure Placed (τ : Type) where
  tag : τ
  start : Nat
  stop : Nat
deriving DecidableEq, Repr

def payloads (us : List (CodedUnit τ)) : List Bytes := us.map CodedUnit.payload

/-- Where the unit behind `us` starts. -/
def place (pos : Nat) (us : List (CodedUnit τ)) : Nat := pos + (stream (payloads us)).length

def placed (pos : Nat) (us : List (CodedUnit τ)) (u : CodedUnit τ) : Placed τ :=
  ⟨u.tag, place pos us, place pos us + 3 + u.bytes.length⟩

/-- The units with their places, the first start code being at `pos`. -/
def layout : Nat → List (CodedUnit τ) → List (Placed τ)
  | _, [] => []
  | pos, u :: us => placed pos [] u :: layout (place pos [u]) us

@[simp] theorem place_nil (pos : Nat) : place pos ([] : List (CodedUnit τ)) = pos := rfl

theorem place_append (pos : Nat) (us vs : List (CodedUnit τ)) :
    place pos (us ++ vs) = place (place pos us) vs := by
  simp only [place, payloads, List.map_append, stream_append, List.length_append, Nat.add_assoc]

theorem place_cons (pos : Nat) (u : CodedUnit τ) (us : List (CodedUnit τ)) :
    place pos (u :: us) = place (place pos [u]) us := by
  rw [← place_append, List.singleton_append]

theorem place_singleton (pos : Nat) (u : CodedUnit τ) :
    place pos [u] = pos + 3 + u.bytes.length + u.zeros := by
  simp [place, payloads, startCode, CodedUnit.payload]
  omega

theorem place_le (pos : Nat) (us : List (CodedUnit τ)) : pos ≤ place pos us := Nat.le_add_right ..

theorem mem_layout {pos : Nat} {us : List (CodedUnit τ)} {x : Placed τ} :
    x ∈ layout pos us ↔ ∃ before u after, us = before ++ u :: after ∧ x = placed pos before u := by
  induction us generalizing pos with
  | nil => simp [layout]
  | cons v vs ih =>
    rw [layout, List.mem_cons, ih]
    constructor
    · rintro (rfl | ⟨before, u, after, rfl, rfl⟩)
      · exact ⟨[], v, vs, rfl, rfl⟩
      · refine ⟨v :: before, u, after, rfl, ?_⟩
        simp only [placed, ← List.singleton_append (l := before), place_append]
    · rintro ⟨before, u, after, eq, rfl⟩
      cases before with
      | nil =>
        obtain ⟨rfl, rfl⟩ := List.cons.inj eq
        exact .inl rfl
      | cons w before =>
        obtain ⟨rfl, rfl⟩ := List.cons.inj eq
        refine .inr ⟨before, u, after, rfl, ?_⟩
        simp only [placed, ← List.singleton_append (l := before), place_append]

theorem layout_append (pos : Nat) (us vs : List (CodedUnit τ)) :
    layout pos (us ++ vs) = layout pos us ++ layout (place pos us) vs := by
  induction us generalizing pos with
  | nil => rfl
  | cons u us ih => simp only [List.cons_append, layout, ih, place_cons pos u us]

theorem layout_bounds {pos : Nat} {us : List (CodedUnit τ)} {x : Placed τ}
    (mem : x ∈ layout pos us) :
    pos ≤ x.start ∧ x.start < x.stop ∧ x.stop ≤ place pos us ∧ ∃ u ∈ us, u.tag = x.tag := by
  obtain ⟨before, u, behind, rfl, rfl⟩ := mem_layout.mp mem
  have low := place_le pos before
  have here := place_singleton (place pos before) u
  have high := place_le (place (place pos before) [u]) behind
  have whole := place_append pos before (u :: behind)
  have next := place_cons (place pos before) u behind
  refine ⟨low, ?_, ?_, u, by simp, rfl⟩
  · simp only [placed]
    omega
  · simp only [placed]
    omega

/-- The codes of units when `step` says how each is classified. -/
def codesBy (sc : Scode) (virt : Nat → UInt8) (step : α → CodedUnit τ → ParserType × α) :
    Nat → List (CodedUnit τ) → α → List Code
  | _, [], _ => []
  | pos, u :: us, a =>
    if (step a u).1 = .UNKNOWN then codesBy sc virt step (place pos [u]) us (step a u).2
    else ⟨pos + 2, codeOffset sc (window virt (pos + 2)) (pos + 2), (step a u).1⟩ ::
      codesBy sc virt step (place pos [u]) us (step a u).2

def after (step : α → CodedUnit τ → ParserType × α) (a : α) (us : List (CodedUnit τ)) : α :=
  us.foldl (fun a u => (step a u).2) a

theorem after_append (step : α → CodedUnit τ → ParserType × α) (a : α) (us vs : List (CodedUnit τ)) :
    after step a (us ++ vs) = after step (after step a us) vs := List.foldl_append ..

theorem codesBy_append (sc : Scode) (virt : Nat → UInt8) (step : α → CodedUnit τ → ParserType × α)
    (pos : Nat) (us vs : List (CodedUnit τ)) (a : α) :
    codesBy sc virt step pos (us ++ vs) a =
      codesBy sc virt step pos us a ++ codesBy sc virt step (place pos us) vs (after step a us) := by
  induction us generalizing pos a with
  | nil => rfl
  | cons u us ih =>
    have spot := place_cons pos u us
    simp only [List.cons_append, codesBy, ih, spot, after, List.foldl_cons]
    split <;> rfl

/-- How the units are classified. -/
def types (step : α → CodedUnit τ → ParserType × α) : α → List (CodedUnit τ) → List ParserType
  | _, [] => []
  | a, u :: us => (step a u).1 :: types step (step a u).2 us

theorem types_append (step : α → CodedUnit τ → ParserType × α) (a : α) (us vs : List (CodedUnit τ)) :
    types step a (us ++ vs) = types step a us ++ types step (after step a us) vs := by
  induction us generalizing a with
  | nil => rfl
  | cons u us ih => simp only [List.cons_append, types, ih, after, List.foldl_cons]

theorem frames_codesBy (sc : Scode) (virt : Nat → UInt8) (step : α → CodedUnit τ → ParserType × α)
    (pos : Nat) (us : List (CodedUnit τ)) (a : α) :
    frames ((codesBy sc virt step pos us a).map Code.mark) = (types step a us).count .FRAME := by
  induction us generalizing pos a with
  | nil => rfl
  | cons u us ih =>
    have tail := ih (place pos [u]) (step a u).2
    simp only [frames] at tail
    rw [codesBy, types, List.count_cons]
    cases type : (step a u).1 <;> simp [frames, Code.mark, tail]

/-- Units each of which is fit for the state it is met in. -/
def Legal (step : α → CodedUnit τ → ParserType × α) (fit : α → CodedUnit τ → Prop) : α → List (CodedUnit τ) → Prop
  | _, [] => True
  | a, u :: us => fit a u ∧ Legal step fit (step a u).2 us

instance legalDecidable {step : α → CodedUnit τ → ParserType × α} {fit : α → CodedUnit τ → Prop}
    [∀ a u, Decidable (fit a u)] : (us : List (CodedUnit τ)) → (a : α) → Decidable (Legal step fit a us)
  | [], _ => inferInstanceAs (Decidable True)
  | u :: us, a =>
    have : Decidable (Legal step fit (step a u).2 us) := legalDecidable us (step a u).2
    inferInstanceAs (Decidable (_ ∧ _))

theorem Legal.append {step : α → CodedUnit τ → ParserType × α} {fit : α → CodedUnit τ → Prop} {a : α}
    {us vs : List (CodedUnit τ)} :
    Legal step fit a (us ++ vs) ↔ Legal step fit a us ∧ Legal step fit (after step a us) vs := by
  induction us generalizing a with
  | nil => simp [Legal, after]
  | cons u us ih => simp only [List.cons_append, Legal, ih, after, List.foldl_cons, and_assoc]

/-- A callback that follows `step` on every fit unit gives the codes of `step`. -/
theorem codesOf_simulates {sc : Scode} {check : CheckFrame ε σ} {virt : Nat → UInt8} {size : Nat}
    {step : α → CodedUnit τ → ParserType × α} {fit : α → CodedUnit τ → Prop} {R : Nat → σ → α → Prop}
    (simulates : ∀ pos u s a, R pos s a → fit a u → Holds virt pos (startCode ++ u.payload) →
      place pos [u] ≤ size → ∃ s', check virt (pos + 3) (leftSize size (pos + 3)) s =
        .ok ((step a u).1, s') ∧ R (place pos [u]) s' (step a u).2)
    {pos : Nat} {us : List (CodedUnit τ)} {s : σ} {a : α} (related : R pos s a)
    (legal : Legal step fit a us) (holds : Holds virt pos (stream (payloads us)))
    (inside : place pos us ≤ size) :
    ∃ s', codesOf sc check virt size pos (payloads us) s =
      .ok (codesBy sc virt step pos us a, s') := by
  induction us generalizing pos s a with
  | nil => exact ⟨s, rfl⟩
  | cons u us ih =>
    have spot := place_cons pos u us
    have bytes : Holds virt pos ((startCode ++ u.payload) ++ stream (payloads us)) := by
      simpa [payloads] using holds
    have next : pos + 3 + u.payload.length = place pos [u] := by
      simp [place, payloads, startCode]
      omega
    have rest : Holds virt (place pos [u]) (stream (payloads us)) := by
      have := bytes.right
      rwa [List.length_append, ← Nat.add_assoc, show startCode.length = 3 from rfl, next] at this
    obtain ⟨s', checked, related'⟩ := simulates pos u s a related legal.1 bytes.left
      ((place_le _ us).trans (spot ▸ inside))
    obtain ⟨s'', codes⟩ := ih related' legal.2 rest (spot ▸ inside)
    refine ⟨s'', ?_⟩
    simp only [payloads, List.map_cons, codesOf, checked, codesBy, bind, Except.bind, next]
    rw [← payloads, codes]

section Pieces
variable {sc : Scode} {virt : Nat → UInt8} {step : α → CodedUnit τ → ParserType × α}

def codeAt (sc : Scode) (virt : Nat → UInt8) (pos : Nat) (type : ParserType) : Code :=
  ⟨pos + 2, codeOffset sc (window virt (pos + 2)) (pos + 2), type⟩

/-- Every code is the code of a unit that is not passed over. -/
theorem mem_codesBy {pos : Nat} {us : List (CodedUnit τ)} {a : α} {c : Code}
    (mem : c ∈ codesBy sc virt step pos us a) :
    ∃ before u behind, us = before ++ u :: behind ∧
      c = codeAt sc virt (place pos before) (step (after step a before) u).1 := by
  induction us generalizing pos a with
  | nil => contradiction
  | cons v vs ih =>
    have deeper : c ∈ codesBy sc virt step (place pos [v]) vs (step a v).2 →
        ∃ before u behind, v :: vs = before ++ u :: behind ∧
          c = codeAt sc virt (place pos before) (step (after step a before) u).1 := by
      intro mem
      obtain ⟨before, u, behind, rfl, rfl⟩ := ih mem
      refine ⟨v :: before, u, behind, rfl, ?_⟩
      rw [← place_append, List.singleton_append]
      rfl
    rw [codesBy] at mem
    split at mem
    · exact deeper mem
    · rcases List.mem_cons.mp mem with rfl | mem
      · exact ⟨[], v, vs, rfl, rfl⟩
      · exact deeper mem

theorem frame_code (pos : Nat) {before behind : List (CodedUnit τ)} {u : CodedUnit τ} {a : α}
    (frame : (step (after step a before) u).1 = .FRAME) :
    ∃ c ∈ codesBy sc virt step pos (before ++ u :: behind) a, c.type = .FRAME := by
  refine ⟨codeAt sc virt (place pos before) .FRAME, ?_, rfl⟩
  simp only [codesBy_append, codesBy, frame, reduceCtorEq, if_false]
  exact List.mem_append_right _ List.mem_cons_self

/-- No code behind a closed unit starts before the end of its bytes. -/
theorem codesBy_behind (standard : Standard sc) {pos : Nat} {u : CodedUnit τ} (closed : u.Closed)
    {us : List (CodedUnit τ)} (holds : Holds virt pos (startCode ++ u.payload)) {a : α} {c : Code}
    (mem : c ∈ codesBy sc virt step (place pos [u]) us a) :
    ((placed pos [] u).stop : Int) ≤ c.offset := by
  obtain ⟨before, v, behind, rfl, rfl⟩ := mem_codesBy mem
  have next := place_singleton pos u
  have low := place_le (place pos [u]) before
  simp only [placed, place_nil, codeAt]
  rcases codeOffset_standard standard virt (place (place pos [u]) before) with same | ⟨less, -, zero⟩
  · omega
  · by_contra short
    have spot : place (place pos [u]) before - 1 = pos + (3 + (u.bytes.length - 1)) := by
      have := List.length_pos_iff.mpr closed.nonempty
      omega
    have found : (startCode ++ u.payload)[3 + (u.bytes.length - 1)]? = u.bytes.getLast? := by
      have := List.length_pos_iff.mpr closed.nonempty
      rw [List.getElem?_append_right (by simp [startCode]), List.getLast?_eq_getElem?, CodedUnit.payload,
        List.getElem?_append_left (by simp [startCode]; omega)]
      simp [startCode]
    have last := List.getLast?_eq_some_getLast closed.nonempty
    have value := holds _ _ (found.trans last)
    rw [← spot, zero] at value
    exact closed.last (by rw [last, ← value])

/-- Units none of which is kept. -/
def Quiet (step : α → CodedUnit τ → ParserType × α) : α → List (CodedUnit τ) → Prop
  | _, [] => True
  | a, u :: us => (step a u).1 = .UNKNOWN ∧ Quiet step (step a u).2 us

theorem codesBy_quiet {pos : Nat} {us : List (CodedUnit τ)} {a : α} (quiet : Quiet step a us) :
    codesBy sc virt step pos us a = [] := by
  induction us generalizing pos a with
  | nil => rfl
  | cons u us ih => simp only [codesBy, quiet.1, if_true, ih quiet.2]

theorem Quiet.append {us vs : List (CodedUnit τ)} {a : α} :
    Quiet step a (us ++ vs) ↔ Quiet step a us ∧ Quiet step (after step a us) vs := by
  induction us generalizing a with
  | nil => simp [Quiet, after]
  | cons u us ih => simp only [List.cons_append, Quiet, ih, after, List.foldl_cons, and_assoc]

/-- Past units that are not kept, the codes are those of the rest. -/
theorem codesBy_past {pos : Nat} {quiet rest before behind : List (CodedUnit τ)} {f u : CodedUnit τ} {a : α}
    (silent : Quiet step (after step a [f]) quiet) (split : f :: quiet = before ++ u :: behind) :
    codesBy sc virt step (place pos [f]) (quiet ++ rest) (after step a [f]) =
      codesBy sc virt step (place (place pos before) [u]) (behind ++ rest)
        (after step a (before ++ [u])) := by
  cases before with
  | nil =>
    obtain ⟨rfl, rfl⟩ := List.cons.inj split
    rfl
  | cons v before =>
    obtain ⟨rfl, rfl⟩ := List.cons.inj split
    have units : before.append (u :: behind) = (before ++ [u]) ++ behind := by simp
    rw [units] at silent ⊢
    rw [List.append_assoc, codesBy_append, codesBy_quiet (Quiet.append.mp silent).1,
      ← place_append, ← place_append, ← after_append]
    rfl

theorem holds_unit {pos : Nat} {before behind : List (CodedUnit τ)} {u : CodedUnit τ}
    (holds : Holds virt pos (stream (payloads (before ++ u :: behind)))) :
    Holds virt (place pos before) (startCode ++ u.payload) := by
  simp only [payloads, List.map_append, List.map_cons, stream_append, stream_cons] at holds
  rw [← List.append_assoc startCode] at holds
  exact holds.right.left

/-- The piece a frame unit lies in. It holds every unit up to the next code,
and ends there when another frame follows. -/
structure Around (sc : Scode) (virt : Nat → UInt8) (step : α → CodedUnit τ → ParserType × α)
    (pos : Nat) (before : List (CodedUnit τ)) (f : CodedUnit τ) (behind : List (CodedUnit τ)) (a : α)
    (piece : Int × Int) : Prop where
  start : piece.1 ≤ place pos before
  holds : ∀ quiet rest, behind = quiet ++ rest → Quiet step (after step a (before ++ [f])) quiet →
    ∀ x ∈ layout (place pos before) (f :: quiet), (x.stop : Int) ≤ piece.2
  stops : ∀ quiet g rest, behind = quiet ++ g :: rest →
    (step (after step a (before ++ f :: quiet)) g).1 ≠ .UNKNOWN →
    (∃ c ∈ codesBy sc virt step (place pos (before ++ [f])) behind (after step a (before ++ [f])),
      c.type = .FRAME) →
    piece.2 ≤ place pos (before ++ f :: quiet)

theorem frame_piece (standard : Standard sc) {size pos : Nat} {before behind : List (CodedUnit τ)}
    {f : CodedUnit τ} {a : α} (frame : (step (after step a before) f).1 = .FRAME)
    (holds : Holds virt pos (stream (payloads (before ++ f :: behind))))
    (closed : ∀ u ∈ before ++ f :: behind, u.Closed)
    (inside : place pos (before ++ f :: behind) ≤ size)
    (ordered : Ordered (size : Int)
      ((codesBy sc virt step pos (before ++ f :: behind) a).map Code.mark)) :
    ∃ piece, (cut (size : Int) ((codesBy sc virt step pos (before ++ f :: behind) a).map Code.mark))[
        frames ((codesBy sc virt step pos before a).map Code.mark)]? = some piece ∧
      Around sc virt step pos before f behind a piece := by
  let first := codesBy sc virt step pos before a
  let later := codesBy sc virt step (place pos (before ++ [f])) behind (after step a (before ++ [f]))
  have split : codesBy sc virt step pos (before ++ f :: behind) a =
      first ++ codeAt sc virt (place pos before) .FRAME :: later := by
    rw [codesBy_append, codesBy, frame, ← place_append]
    simp only [reduceCtorEq, if_false, first, later, after, List.foldl_append, List.foldl_cons,
      List.foldl_nil]
    rfl
  rw [split, List.map_append, List.map_cons] at ordered ⊢
  obtain ⟨piece, found, low, high, stop⟩ := cut_frame (by rfl) ordered
  refine ⟨piece, found, ?_, ?_, ?_⟩
  · have := codeOffset_standard standard virt (place pos before)
    simp only [codeAt, Code.mark] at low
    omega
  · rintro quiet rest rfl silent x mem
    obtain ⟨front, u, back, units, rfl⟩ := mem_layout.mp mem
    have whole : before ++ f :: (quiet ++ rest) = (before ++ front) ++ u :: (back ++ rest) := by
      rw [← List.cons_append, units]
      simp
    rw [stop, stopAfter]
    split
    case isTrue more =>
      cases h : later with
      | nil => simp [h] at more
      | cons c cs =>
        simp only [List.map_cons, List.head?_cons, Option.map_some, Option.getD_some]
        have mem : c ∈ later := h ▸ List.mem_cons_self
        rw [after_append] at silent
        simp only [later, place_append, after_append] at mem
        rw [codesBy_past silent units] at mem
        have unit := holds_unit (whole ▸ holds)
        rw [place_append] at unit
        exact codesBy_behind standard (closed u (whole ▸ by simp)) unit mem
    case isFalse =>
      have end_ : place pos (before ++ f :: (quiet ++ rest)) =
          place (place (place pos before) front) (u :: (back ++ rest)) := by
        rw [whole, place_append, place_append]
      have next := place_singleton (place (place pos before) front) u
      have grow := place_le (place (place (place pos before) front) [u]) (back ++ rest)
      rw [← place_cons] at grow
      simp only [placed]
      omega
  · rintro quiet g rest rfl kept more
    have sorted := ordered.1
    rw [List.pairwise_append] at sorted
    have mem : codeAt sc virt (place pos (before ++ f :: quiet))
        (step (after step a (before ++ f :: quiet)) g).1 ∈ later := by
      have state : after step (after step a (before ++ [f])) quiet =
          after step a (before ++ f :: quiet) := by
        rw [← after_append, List.append_assoc, List.singleton_append]
      have spot : place (place pos (before ++ [f])) quiet = place pos (before ++ f :: quiet) := by
        rw [← place_append, List.append_assoc, List.singleton_append]
      simp only [later, codesBy_append, codesBy, state, spot, kept, if_false]
      exact List.mem_append_right _ List.mem_cons_self
    have framed : (later.map Code.mark).any Mark.frame = true := by
      obtain ⟨c, inside, type⟩ := more
      rw [List.any_eq_true]
      exact ⟨c.mark, List.mem_map_of_mem inside, by simp [Code.mark, type]⟩
    have bound := codeOffset_standard standard virt (place pos (before ++ f :: quiet))
    rw [stop, stopAfter, if_pos framed]
    cases h : later with
    | nil => simp [h] at framed
    | cons c cs =>
      simp only [List.map_cons, List.head?_cons, Option.map_some, Option.getD_some]
      rw [h] at mem sorted
      rcases List.mem_cons.mp mem with same | inside
      · simp only [← same, Code.mark, codeAt]
        omega
      · have less := List.rel_of_pairwise_cons sorted.2.1.of_cons (List.mem_map_of_mem inside)
        simp only [Code.mark, codeAt] at less ⊢
        omega

end Pieces

/-- The file in memory: bytes without a start code, then units. What lies past
the end is left open. -/
structure File (virt : Nat → UInt8) (size : Nat) (lead : Bytes) (us : List (CodedUnit τ)) : Prop where
  clean : Clean lead
  closed : ∀ u ∈ us, u.Closed
  holds : Holds virt 0 (lead ++ stream (payloads us))
  size : size = place lead.length us

/-- A memory with nothing but the given bytes. -/
def memory (bytes : Bytes) : Nat → UInt8 := fun i => bytes.getD i 0

theorem memory_holds (bytes : Bytes) : Holds (memory bytes) 0 bytes := by
  intro k b found
  simp only [memory, Nat.zero_add, List.getD_eq_getElem?_getD, found, Option.getD_some]

theorem File.of_memory {lead : Bytes} {us : List (CodedUnit τ)} (clean : Clean lead)
    (closed : ∀ u ∈ us, u.Closed) :
    File (memory (lead ++ stream (payloads us))) (place lead.length us) lead us :=
  { clean, closed, holds := memory_holds _, size := rfl }

theorem File.units {virt : Nat → UInt8} {size : Nat} {lead : Bytes} {us : List (CodedUnit τ)}
    (file : File virt size lead us) : Holds virt lead.length (stream (payloads us)) := by
  simpa using file.holds.right

theorem acceptedCodes_units {psc : Scode} (known : psc ∈ scodes) (standard : Standard (normalize psc))
    {check : CheckFrame ε σ} {virt : Nat → UInt8} {size : Nat} {lead : Bytes} {us : List (CodedUnit τ)}
    (file : File virt size lead us) (number : Nat) (priv : σ) :
    acceptedCodes { virt, size, number } psc (some check) priv =
      codesOf (normalize psc) check virt size lead.length (payloads us) priv := by
  have clean : ∀ bytes ∈ payloads us, Clean bytes := by
    intro bytes mem
    obtain ⟨u, inside, rfl⟩ := List.mem_map.mp mem
    exact clean_zeros (file.closed u inside).clean _
  have length : size = lead.length + (stream (payloads us)).length := file.size
  rw [acceptedCodes, (scodes_spaced psc known).relaxed]
  rw [← codesFrom_units standard file.units clean priv,
    ← codesFrom_lead standard check size file.holds.left file.clean]
  simp only [length]

/-- What a frame limit leaves of the ranges of a file. -/
def kept (number : Nat) (ranges : List (Int × Int)) : List (Int × Int) :=
  if number = 0 then ranges else ranges.take number

theorem kept_mem {number : Nat} {ranges : List (Int × Int)} {r : Int × Int}
    (mem : r ∈ kept number ranges) : r ∈ ranges := by
  unfold kept at mem
  split at mem
  · exact mem
  · exact List.mem_of_mem_take mem

theorem kept_getElem {number : Nat} {ranges : List (Int × Int)} {k : Nat} :
    (kept number ranges)[k]? = if number = 0 ∨ k < number then ranges[k]? else none := by
  unfold kept
  by_cases unlimited : number = 0
  · simp [unlimited]
  · simp [unlimited, List.getElem?_take]

theorem cut_length_le (size : Int) (ms : List (Mark Int)) :
    (cut size ms).length ≤ max 1 (frames ms) := by
  cases ms with
  | nil => simp
  | cons m ms => rw [cut_length]

/-- A range with another one behind it is not the last. -/
theorem mem_dropLast {ranges : List (Int × Int)} {k : Nat} {r : Int × Int}
    (found : ranges[k]? = some r) (more : k + 1 < ranges.length) : r ∈ ranges.dropLast := by
  rw [List.dropLast_eq_take]
  apply List.mem_of_getElem? (i := k)
  rw [List.getElem?_take_of_lt (by omega), found]

/-- A parse of a file of units by a callback that follows `step`. -/
theorem parse_units {psc : Scode} (known : psc ∈ scodes) (standard : Standard (normalize psc))
    {check : CheckFrame ε σ} {virt : Nat → UInt8} {size : Nat} {lead : Bytes} {us : List (CodedUnit τ)}
    (file : File virt size lead us) {s : σ} {a : α} {step : α → CodedUnit τ → ParserType × α}
    (follows : ∃ s', codesOf (normalize psc) check virt size lead.length (payloads us) s =
      .ok (codesBy (normalize psc) virt step lead.length us a, s')) (number : Nat) :
    Ordered (size : Int) ((codesBy (normalize psc) virt step lead.length us a).map Code.mark) ∧
    ∃ q final, pitcherParseStartcode { virt, size, number } psc (some check) s = .ok (.OK, q, final) ∧
      q.handed.map range =
        kept number (cut size ((codesBy (normalize psc) virt step lead.length us a).map Code.mark)) := by
  obtain ⟨s', codes⟩ := follows
  rw [← acceptedCodes_units known standard file number] at codes
  have room : HasRoom { virt, size, number } := by
    rcases Nat.eq_zero_or_pos number with zero | some_
    · exact .inl zero
    · exact .inr some_
  have matching : ∀ psc ∈ scodes, psc.num < psc.extraNum → psc.extraCode &&& psc.mask = psc.scode := by
    decide
  have positive : 0 < psc.num := (normalize_widest psc).2 ▸ (scodes_spaced psc known).positive
  obtain ⟨q, final, run, handed⟩ := pitcherParseStartcode_spec positive (matching psc known) room codes
  refine ⟨acceptedCodes_ordered known codes, q, final, run, ?_⟩
  rw [handed.handed, List.nil_append, range_call]
  simp only [limited, kept, Nat.sub_zero]

end Layout

end ImxTest.Pitcher.Elementary
