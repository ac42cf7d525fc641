import ImxTest.Pitcher.ParseProofs
import Mathlib.Tactic.IntervalCases

/-! The ranges a start-code parser hands over, for the descriptors of this
repository. None of their codes can end inside another, so the accepted codes
lie in increasing order and the pieces cut at them tile the file. -/
namespace ImxTest.Pitcher

open Lib.Cut

namespace Scan
variable {ε σ : Type}

def byteOf (k x : Nat) : Nat := x / 2 ^ (8 * k) % 2 ^ 8

theorem byteOf_and (k x y : Nat) : byteOf k (x &&& y) = byteOf k x &&& byteOf k y := by
  simp only [byteOf, Nat.and_div_two_pow, Nat.and_mod_two_pow]

theorem byteOf_window {virt : Nat → UInt8} {i k : Nat} (small : k < 4) :
    byteOf k (window virt i) = byteBack virt i k := by
  have h0 := byteBack_lt virt i 0
  have h1 := byteBack_lt virt i 1
  have h2 := byteBack_lt virt i 2
  have h3 := byteBack_lt virt i 3
  interval_cases k
  all_goals simp only [byteOf, window]
  all_goals omega

/-- The last byte of the plain code of `sc` is none of the bytes in front of the
last one of a code of `n` bytes. -/
def Unlike (sc : Scode) (n code mask : Nat) : Prop :=
  n ≤ 4 ∧ ∀ k < n, 0 < k → byteOf k mask = 255 ∧
    byteOf k code &&& byteOf 0 sc.mask ≠ byteOf 0 sc.scode

instance (sc : Scode) (n code mask : Nat) : Decidable (Unlike sc n code mask) :=
  inferInstanceAs (Decidable (_ ∧ _))

theorem apart {sc : Scode} {n code mask : Nat} (unlike : Unlike sc n code mask)
    {virt : Nat → UInt8} {i j : Nat} (less : i < j) (long : n ≤ j + 1)
    (first : window virt i &&& sc.mask = sc.scode) (second : window virt j &&& mask = code) :
    i + n ≤ j := by
  by_contra close
  obtain ⟨k, rfl⟩ : ∃ k, j = i + k := ⟨j - i, by omega⟩
  obtain ⟨full, differ⟩ := unlike.2 k (by omega) (by omega)
  have small : k < 4 := by have := unlike.1; omega
  have byte : byteOf k code = byteOf 0 (window virt i) := by
    rw [← second, byteOf_and, full, byteOf_window small, byteOf_window (by decide)]
    rw [show (255 : Nat) = 2 ^ 8 - 1 from rfl, Nat.and_two_pow_sub_one_eq_mod,
      Nat.mod_eq_of_lt (byteBack_lt ..)]
    simp [byteBack]
  exact differ (by rw [byte, ← byteOf_and, first])

/-- No code of the descriptor ends inside another one. -/
structure Spaced (sc : Scode) : Prop where
  positive : 0 < sc.num
  widest : sc.num ≤ sc.extraNum
  relaxed : sc.forceExtraOnFirst = false
  plain : Unlike sc sc.num sc.scode sc.mask
  extra : Unlike sc sc.extraNum sc.extraCode sc.extraMask

theorem scodes_spaced : ∀ psc ∈ scodes, Spaced (normalize psc) := by
  intro psc mem
  have checked : ∀ psc ∈ scodes, 0 < (normalize psc).num ∧ (normalize psc).num ≤ (normalize psc).extraNum ∧
      (normalize psc).forceExtraOnFirst = false ∧
      Unlike (normalize psc) (normalize psc).num (normalize psc).scode (normalize psc).mask ∧
      Unlike (normalize psc) (normalize psc).extraNum (normalize psc).extraCode
        (normalize psc).extraMask := by decide
  obtain ⟨positive, widest, relaxed, plain, extra⟩ := checked psc mem
  exact { positive, widest, relaxed, plain, extra }

theorem codeEnds_relaxed {sc : Scode} {virt : Nat → UInt8} {i : Nat} :
    codeEnds { sc with forceExtraOnFirst := false } virt i = true ↔
      sc.num ≤ i + 1 ∧ window virt i &&& sc.mask = sc.scode := by
  simp only [codeEnds, tooEarly, noCode, Bool.false_and, Bool.false_eq_true, if_false,
    Bool.and_eq_true, Bool.not_eq_true', decide_eq_false_iff_not, bne_eq_false_iff_eq]
  constructor
  · rintro ⟨late, code⟩
    exact ⟨by omega, code⟩
  · rintro ⟨late, code⟩
    exact ⟨by omega, code⟩

theorem Spaced.offset_after {sc : Scode} (spaced : Spaced sc) {virt : Nat → UInt8} {i j : Nat}
    (less : i < j) (first : codeEnds { sc with forceExtraOnFirst := false } virt i = true)
    (second : codeEnds { sc with forceExtraOnFirst := false } virt j = true) :
    (i : Int) < codeOffset sc (window virt j) j := by
  obtain ⟨-, first⟩ := codeEnds_relaxed.mp first
  obtain ⟨late, second⟩ := codeEnds_relaxed.mp second
  unfold codeOffset
  split
  case isTrue long =>
    have := apart spaced.extra less long.1 first long.2
    omega
  case isFalse =>
    have := apart spaced.plain less late first second
    omega

/-- The codes accepted from index `i` on end there or later, and start after
every code that ended before. -/
theorem codesFrom_after {sc : Scode} (spaced : Spaced sc) {check : Option (CheckFrame ε σ)}
    {virt : Nat → UInt8} {size todo i : Nat} {priv last : σ} {codes : List Code}
    (accepted : codesFrom sc check virt size todo i false priv = .ok (codes, last)) :
    (∀ c ∈ codes, i ≤ c.last ∧ c.last < i + todo ∧ 0 ≤ c.offset ∧ c.offset ≤ c.last ∧
      ∀ k < i, codeEnds { sc with forceExtraOnFirst := false } virt k = true → (k : Int) < c.offset) ∧
    codes.Pairwise (fun c d => (c.last : Int) < d.offset) := by
  induction todo generalizing i priv codes with
  | zero =>
    obtain ⟨rfl, -⟩ : [] = codes ∧ priv = last := by simpa [codesFrom] using accepted
    exact ⟨by simp, .nil⟩
  | succ todo ih =>
    have widen : ∀ {codes : List Code},
        (∀ c ∈ codes, i + 1 ≤ c.last ∧ c.last < i + 1 + todo ∧ 0 ≤ c.offset ∧ c.offset ≤ c.last ∧
          ∀ k < i + 1, codeEnds { sc with forceExtraOnFirst := false } virt k = true →
            (k : Int) < c.offset) →
        ∀ c ∈ codes, i ≤ c.last ∧ c.last < i + (todo + 1) ∧ 0 ≤ c.offset ∧ c.offset ≤ c.last ∧
          ∀ k < i, codeEnds { sc with forceExtraOnFirst := false } virt k = true →
            (k : Int) < c.offset := by
      intro codes later c mem
      obtain ⟨low, high, positive, bound, clear⟩ := later c mem
      exact ⟨by omega, by omega, positive, bound, fun k hk => clear k (by omega)⟩
    rcases codesFrom_cases accepted with ⟨-, later⟩ | ⟨ends, type, next, -, found⟩
    · exact ⟨widen (ih later).1, (ih later).2⟩
    · rcases found with ⟨-, later⟩ | ⟨-, rest, later, rfl⟩
      · exact ⟨widen (ih later).1, (ih later).2⟩
      · obtain ⟨after, sorted⟩ := ih later
        have bounds := codeOffset_bounds spaced.positive spaced.widest ends
        constructor
        · intro c mem
          rcases List.mem_cons.mp mem with rfl | mem
          · exact ⟨le_refl _, by simp, bounds.1, bounds.2,
              fun k less earlier => spaced.offset_after less earlier ends⟩
          · exact widen after c mem
        · exact .cons (fun d mem => (after d mem).2.2.2.2 i (Nat.lt_succ_self i) ends) sorted

end Scan

theorem acceptedCodes_ordered {ε σ : Type} {psc : Scode} (known : psc ∈ scodes)
    {check : Option (CheckFrame ε σ)} {parser : PitcherParser} {priv last : σ}
    {codes : List Scan.Code} (accepted : acceptedCodes parser psc check priv = .ok (codes, last)) :
    Ordered (parser.size : Int) (codes.map Scan.Code.mark) := by
  have spaced := Scan.scodes_spaced psc known
  rw [acceptedCodes, spaced.relaxed] at accepted
  obtain ⟨bounds, sorted⟩ := Scan.codesFrom_after spaced accepted
  constructor
  · rw [List.pairwise_map]
    refine sorted.imp_of_mem fun {c d} left _ less => ?_
    have := (bounds c left).2.2.2.1
    simp only [Scan.Code.mark]
    omega
  · intro m mem
    obtain ⟨c, inside, rfl⟩ := List.mem_map.mp mem
    have := bounds c inside
    simp only [Scan.Code.mark]
    omega

/-- A callback that returns, whatever state it keeps. -/
abbrev Callback (σ : Type) := (Nat → UInt8) → Nat → Nat → σ → ParserType × σ

def Callback.total {σ : Type} (f : Callback σ) : CheckFrame Empty σ :=
  fun virt pos size priv => .ok (f virt pos size priv)

theorem codesFrom_total {σ : Type} (sc : Scode) (check : Option (Callback σ))
    (virt : Nat → UInt8) (size todo i : Nat) (force : Bool) (priv : σ) :
    ∃ codes last,
      Scan.codesFrom sc (check.map Callback.total) virt size todo i force priv = .ok (codes, last) := by
  induction todo generalizing i force priv with
  | zero => exact ⟨[], priv, rfl⟩
  | succ todo ih =>
    have classified : ∃ type next,
        Scan.classify (check.map Callback.total) virt size i priv = .ok (type, next) := by
      cases check with
      | none => exact ⟨_, _, rfl⟩
      | some f => exact ⟨_, _, rfl⟩
    obtain ⟨type, next, classified⟩ := classified
    simp only [Scan.codesFrom, classified, bind, Except.bind]
    split
    · split
      · exact ih (i + 1) force next
      · obtain ⟨codes, last, rest⟩ := ih (i + 1) false next
        exact ⟨_, last, by rw [rest]⟩
    · exact ih (i + 1) force priv

/-- The range a call hands over, as start and end. -/
def range (handed : Int × Int) : Int × Int := (handed.1, handed.1 + handed.2)

theorem range_call (pieces : List (Int × Int)) : (pieces.map Scan.call).map range = pieces := by
  rw [List.map_map]
  refine (List.map_congr_left fun p _ => ?_).trans (List.map_id _)
  simp [range, Scan.call]

/-- The ranges handed over for a file of `size` bytes with these start codes:
contiguous from the first code on, and each but the last with one frame code,
cut at the code read after it. -/
structure Covers (codes : List Scan.Code) (size : Nat) (ranges : List (Int × Int)) : Prop where
  none : codes = [] → ranges = []
  tiles : ∀ first rest, codes = first :: rest → ranges ≠ [] ∧ Tiles first.offset ranges size
  single : ∀ k r, ranges[k]? = some r → k + 1 < ranges.length →
    ∃ before c d after, codes = before ++ c :: d :: after ∧ c.type = .FRAME ∧
      (r.1 ≤ c.offset ∧ c.offset < r.2) ∧ r.2 = d.offset ∧
      ∀ x ∈ before ++ d :: after, x.type = .FRAME → ¬ (r.1 ≤ x.offset ∧ x.offset < r.2)

theorem cut_covers {codes : List Scan.Code} {size : Nat}
    (ordered : Ordered (size : Int) (codes.map Scan.Code.mark)) :
    Covers codes size (cut (size : Int) (codes.map Scan.Code.mark)) where
  none := by
    rintro rfl
    rfl
  tiles := by
    rintro first rest rfl
    refine ⟨fun empty => ?_, cut_tiles ordered⟩
    have := cut_length (size : Int) first.mark (rest.map Scan.Code.mark)
    rw [← List.map_cons, empty, List.length_nil] at this
    omega
  single := by
    intro k r piece more
    obtain ⟨first, m, n, after, split, frame, -, inside, stop, alone⟩ :=
      cut_single ordered piece more
    obtain ⟨before, behind, rfl, rfl, marks⟩ := List.map_eq_append_iff.mp split
    obtain ⟨c, tail, rfl, rfl, later⟩ := List.map_eq_cons_iff.mp marks
    obtain ⟨d, after, rfl, rfl, rfl⟩ := List.map_eq_cons_iff.mp later
    refine ⟨before, c, d, after, rfl, by simpa [Scan.Code.mark] using frame, inside, stop, ?_⟩
    intro x mem type
    refine alone x.mark ?_ (by simp [Scan.Code.mark, type])
    rw [← List.map_cons, ← List.map_append]
    exact List.mem_map_of_mem mem

/-- The ranges every parser with a start-code descriptor hands over, and what a
frame limit leaves of them. -/
theorem startcode_ranges {σ : Type} {psc : Scode} (known : psc ∈ scodes)
    (check : Option (Callback σ)) (priv : σ) (virt : Nat → UInt8) (size : Nat) :
    ∃ codes last q final,
      acceptedCodes { virt, size } psc (check.map Callback.total) priv = .ok (codes, last) ∧
      pitcherParseStartcode { virt, size } psc (check.map Callback.total) priv =
        .ok (.OK, q, final) ∧
      Covers codes size (q.handed.map range) ∧
      ∀ number, 0 < number → ∃ p final,
        pitcherParseStartcode { virt, size, number } psc (check.map Callback.total) priv =
          .ok (.OK, p, final) ∧
        p.handed = q.handed.take number := by
  have spaced := Scan.scodes_spaced psc known
  have positive : 0 < psc.num := (normalize_widest psc).2 ▸ spaced.positive
  have matching : ∀ psc ∈ scodes, psc.num < psc.extraNum → psc.extraCode &&& psc.mask = psc.scode := by
    decide
  have extra := matching psc known
  obtain ⟨codes, last, accepted⟩ := codesFrom_total (Scan.normalize psc) check virt size size 0
    (Scan.normalize psc).forceExtraOnFirst priv
  have room : Scan.HasRoom { virt, size } := .inl rfl
  have ordered : Ordered (size : Int) (codes.map Scan.Code.mark) :=
    acceptedCodes_ordered known (show acceptedCodes { virt, size } psc _ priv = _ from accepted)
  obtain ⟨q, final, run, handed⟩ := pitcherParseStartcode_spec positive extra room accepted
  have whole : q.handed = (cut (size : Int) (codes.map Scan.Code.mark)).map Scan.call := by
    simpa [Scan.limited] using handed.handed
  refine ⟨codes, last, q, final, accepted, run, ?_, ?_⟩
  · rw [whole, range_call]
    exact cut_covers ordered
  · intro number some_
    have room : Scan.HasRoom { virt, size, number } := .inr some_
    obtain ⟨p, final, run, part⟩ := pitcherParseStartcode_spec positive extra room accepted
    refine ⟨p, final, run, ?_⟩
    have limit : number ≠ 0 := by omega
    simpa [Scan.limited, limit, whole, List.map_take] using part.handed

/-- A file with two codes of the H.264 descriptor, the first kept as a frame,
the second too. -/
theorem startcode_ranges_two :
    let file := fun i => [0, 0, 0, 1, 0x65, 0x88, 0, 0, 1, 0x65, 0x80].getD i 0
    let check : Callback Nat := fun _ _ _ seen => (.FRAME, seen + 1)
    ∃ codes last q final,
      acceptedCodes { virt := file, size := 11 } h264Scode (some check.total) 0 = .ok (codes, last) ∧
      pitcherParseStartcode { virt := file, size := 11 } h264Scode (some check.total) 0 =
        .ok (.OK, q, final) ∧
      Covers codes 11 (q.handed.map range) ∧
      ∀ number, 0 < number → ∃ p final,
        pitcherParseStartcode { virt := file, size := 11, number } h264Scode (some check.total) 0 =
          .ok (.OK, p, final) ∧
        p.handed = q.handed.take number :=
  startcode_ranges (by decide) (some fun _ _ _ seen => (.FRAME, seen + 1)) 0 _ 11

end ImxTest.Pitcher
