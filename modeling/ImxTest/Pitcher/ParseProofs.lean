import ImxTest.Pitcher.Parse
import Mathlib.Tactic.Ring
import Mathlib.Data.Nat.Bitwise

/-! What `pitcher_parse_startcode` hands to `pitcher_parser_push_new_frame`. The
scan is split into the codes it accepts, which depend on bytes and callback only,
and the cutting automaton of `Lib.Cut` run on them. -/
namespace ImxTest.Pitcher

open Lib.Cut

/-- The byte `k` places before index `i`, zero in front of the file. -/
def byteBack (virt : Nat → UInt8) (i k : Nat) : Nat := if k ≤ i then (virt (i - k)).toNat else 0

/-- The four bytes that end at index `i`, most significant first. -/
def window (virt : Nat → UInt8) (i : Nat) : Nat :=
  byteBack virt i 3 * 2 ^ 24 + byteBack virt i 2 * 2 ^ 16 + byteBack virt i 1 * 2 ^ 8 + byteBack virt i 0

theorem byteBack_lt (virt : Nat → UInt8) (i k : Nat) : byteBack virt i k < 256 := by
  unfold byteBack
  split
  · exact (virt _).toNat_lt
  · decide

theorem byteBack_succ (virt : Nat → UInt8) (i k : Nat) :
    byteBack virt (i + 1) (k + 1) = byteBack virt i k := by
  simp only [byteBack, Nat.add_le_add_iff_right, Nat.add_sub_add_right]

theorem byteBack_zero (virt : Nat → UInt8) (i : Nat) : byteBack virt i 0 = (virt i).toNat := by
  simp [byteBack]

private theorem shift_byte (w : Nat) (b : UInt8) :
    (w <<< 8 ||| b.toNat) % 2 ^ 32 = (w * 256 + b.toNat) % 2 ^ 32 := by
  rw [← Nat.shiftLeft_add_eq_or_of_lt b.toNat_lt, Nat.shiftLeft_eq]

/-- The shift register before index `i` is read. -/
def register (virt : Nat → UInt8) : Nat → Nat
  | 0 => 0
  | i + 1 => window virt i

theorem register_shift (virt : Nat → UInt8) (i : Nat) :
    (register virt i <<< 8 ||| (virt i).toNat) % 2 ^ 32 = window virt i := by
  rw [shift_byte]
  have bound := (virt i).toNat_lt
  cases i with
  | zero => simp [register, window, byteBack]
  | succ i =>
    have h0 := byteBack_lt virt i 0
    have h1 := byteBack_lt virt i 1
    have h2 := byteBack_lt virt i 2
    simp only [register, window, byteBack_succ, byteBack_zero virt (i + 1)]
    omega

namespace Scan
variable {ε σ : Type}

/-- A start code ends at index `i`. -/
def codeEnds (sc : Scode) (virt : Nat → UInt8) (i : Nat) : Bool :=
  !tooEarly sc i && !noCode sc (window virt i)

structure Code where
  last : Nat
  offset : Int
  type : ParserType
deriving DecidableEq, Repr

def Code.mark (c : Code) : Mark Int := ⟨c.offset, decide (c.type = .FRAME)⟩

/-- The type of a code and the state after its classification. -/
def classify (check : Option (CheckFrame ε σ)) (virt : Nat → UInt8) (size i : Nat) (priv : σ) :
    Except ε (ParserType × σ) :=
  match check with
  | none => .ok (.FRAME, priv)
  | some f => f virt (i + 1) (leftSize size (i + 1)) priv

/-- The start codes the scan accepts in `todo` bytes from index `i` on, with
the state the callback is left in. -/
def codesFrom (sc : Scode) (check : Option (CheckFrame ε σ)) (virt : Nat → UInt8) (size : Nat) :
    (todo i : Nat) → Bool → σ → Except ε (List Code × σ)
  | 0, _, _, priv => .ok ([], priv)
  | todo + 1, i, force, priv =>
    if codeEnds { sc with forceExtraOnFirst := force } virt i then do
      let (type, priv) ← classify check virt size i priv
      if type = .UNKNOWN then codesFrom sc check virt size todo (i + 1) force priv
      else do
        let (codes, priv) ← codesFrom sc check virt size todo (i + 1) false priv
        .ok (⟨i, codeOffset sc (window virt i) i, type⟩ :: codes, priv)
    else codesFrom sc check virt size todo (i + 1) force priv

theorem codesFrom_cases {sc : Scode} {check : Option (CheckFrame ε σ)} {virt : Nat → UInt8}
    {size todo i : Nat} {force : Bool} {priv last : σ} {codes : List Code}
    (accepted : codesFrom sc check virt size (todo + 1) i force priv = .ok (codes, last)) :
    (codeEnds { sc with forceExtraOnFirst := force } virt i = false ∧
      codesFrom sc check virt size todo (i + 1) force priv = .ok (codes, last)) ∨
    (codeEnds { sc with forceExtraOnFirst := force } virt i = true ∧
      ∃ type next, classify check virt size i priv = .ok (type, next) ∧
        (type = .UNKNOWN ∧ codesFrom sc check virt size todo (i + 1) force next = .ok (codes, last) ∨
          type ≠ .UNKNOWN ∧ ∃ rest,
            codesFrom sc check virt size todo (i + 1) false next = .ok (rest, last) ∧
            codes = ⟨i, codeOffset sc (window virt i) i, type⟩ :: rest)) := by
  simp only [codesFrom] at accepted
  split at accepted
  case isFalse none => exact .inl ⟨by simpa using none, accepted⟩
  case isTrue ends =>
    refine .inr ⟨ends, ?_⟩
    cases classified : classify check virt size i priv with
    | error e => simp only [classified, bind, Except.bind, reduceCtorEq] at accepted
    | ok result =>
      obtain ⟨type, next⟩ := result
      refine ⟨type, next, rfl, ?_⟩
      simp only [classified, bind, Except.bind] at accepted
      by_cases unknown : type = .UNKNOWN
      · simp only [unknown, if_true] at accepted
        exact .inl ⟨unknown, accepted⟩
      · simp only [unknown, if_false] at accepted
        cases tail : codesFrom sc check virt size todo (i + 1) false next with
        | error e => simp only [tail, reduceCtorEq] at accepted
        | ok pair =>
          obtain ⟨rest, end_⟩ := pair
          simp only [tail, Except.ok.injEq, Prod.mk.injEq] at accepted
          obtain ⟨rfl, rfl⟩ := accepted
          exact .inr ⟨unknown, rest, rfl, rfl⟩

end Scan

/-- The accepted start codes of a file. -/
def acceptedCodes {ε σ : Type} (parser : PitcherParser) (psc : Scode)
    (check : Option (CheckFrame ε σ)) (priv : σ) : Except ε (List Scan.Code × σ) :=
  Scan.codesFrom (Scan.normalize psc) check parser.virt parser.size parser.size 0
    (Scan.normalize psc).forceExtraOnFirst priv

namespace Scan
variable {ε σ : Type}

/-- The locals hold what the cutting automaton remembers. -/
def Agrees (v : Locals σ) : Phase Int → Prop
  | .idle => v.start < 0 ∧ v.stop < 0 ∧ v.frameCount = 0
  | .header a => v.start = a ∧ 0 ≤ a ∧ v.stop < 0 ∧ v.frameCount = 0
  | .framed a => v.start = a ∧ 0 ≤ a ∧ v.stop < 0 ∧ v.frameCount = 1
  | .closed a b => v.start = a ∧ 0 ≤ a ∧ v.stop = b ∧ 0 ≤ b ∧ v.frameCount = 1

def call (piece : Int × Int) : Int × Int := (piece.1, piece.2 - piece.1)

/-- What a frame keeps of an offset and a size. -/
def narrowed (handed : Int × Int) : Nat × Nat :=
  ((handed.1 % 2 ^ 32).toNat, (handed.2 % 2 ^ 64).toNat)

def heldRange (frame : PitcherFrame) : Nat × Nat := (frame.offset, frame.size)

/-- Neither the cutting nor the tail touches anything but the pushed frames. -/
structure Extends (p q : PitcherParser) (pieces : List (Int × Int)) : Prop where
  virt : q.virt = p.virt
  size : q.size = p.size
  number : q.number = p.number
  handed : q.handed = p.handed ++ pieces.map call
  frameCnt : q.frameCnt = p.frameCnt + pieces.length
  queue : q.queue.map heldRange = p.queue.map heldRange ++ pieces.map (fun piece => narrowed (call piece))

theorem Extends.refl (p : PitcherParser) : Extends p p [] :=
  ⟨rfl, rfl, rfl, by simp, by simp, by simp⟩

theorem Extends.push (p : PitcherParser) (start stop : Int) (index : Nat) :
    Extends p (pitcherParserPushNewFrame p start (stop - start) index) [(start, stop)] :=
  ⟨rfl, rfl, rfl, rfl, rfl, List.map_append⟩

theorem Extends.trans {p q r : PitcherParser} {xs ys : List (Int × Int)}
    (first : Extends p q xs) (second : Extends q r ys) : Extends p r (xs ++ ys) :=
  ⟨second.virt.trans first.virt, second.size.trans first.size, second.number.trans first.number,
    by rw [second.handed, first.handed, List.map_append, List.append_assoc],
    by rw [second.frameCnt, first.frameCnt, List.length_append, Nat.add_assoc],
    by rw [second.queue, first.queue, List.map_append, List.append_assoc]⟩

theorem accept_agrees {v : Locals σ} {p : Phase Int} (agrees : Agrees v p) (i : Nat)
    (offset : Int) (offsetEq : codeOffset { v.sc with forceExtraOnFirst := false } v.state i = offset)
    (positive : 0 ≤ offset) (frame : Bool) (frameEq : frame = decide (v.type = .FRAME)) :
    Agrees (accept v i) (p.next ⟨offset, frame⟩).1 ∧
    Extends v.parser (accept v i).parser (p.next ⟨offset, frame⟩).2.toList ∧
    (accept v i).sc = { v.sc with forceExtraOnFirst := false } ∧
    (accept v i).state = v.state ∧ (accept v i).priv = v.priv := by
  subst frameEq
  cases p with
  | idle =>
    obtain ⟨hs, he, hf⟩ := agrees
    by_cases type : v.type = .FRAME
    · simp [accept, Phase.next, Agrees, offsetEq, hs, he, hf, type, positive, Extends.refl]
    · simp [accept, Phase.next, Agrees, offsetEq, hs, he, hf, type, positive, Extends.refl]
  | header a =>
    obtain ⟨hs, ha, he, hf⟩ := agrees
    have start : ¬ a < 0 := by omega
    by_cases type : v.type = .FRAME
    · simp [accept, Phase.next, Agrees, hs, he, hf, type, start, ha, Extends.refl]
    · simp [accept, Phase.next, Agrees, hs, he, hf, type, start, ha, Extends.refl]
  | framed a =>
    obtain ⟨hs, ha, he, hf⟩ := agrees
    have start : ¬ a < 0 := by omega
    by_cases type : v.type = .FRAME
    · simp [accept, Phase.next, Agrees, offsetEq, hs, he, hf, type, start, positive, Extends.push]
    · simp [accept, Phase.next, Agrees, offsetEq, hs, he, hf, type, start, ha, positive, Extends.refl]
  | closed a b =>
    obtain ⟨hs, ha, he, hb, hf⟩ := agrees
    have start : ¬ a < 0 := by omega
    have stop : ¬ b < 0 := by omega
    by_cases type : v.type = .FRAME
    · simp [accept, Phase.next, Agrees, hs, he, hf, type, start, stop, hb, Extends.push]
    · simp [accept, Phase.next, Agrees, hs, he, hf, type, start, stop, ha, hb, Extends.refl]

theorem body_skip {sc : Scode} {force : Bool} {v : Locals σ} {i : Nat}
    (hsc : v.sc = { sc with forceExtraOnFirst := force })
    (hstate : v.state = register v.parser.virt i) (check : Option (CheckFrame ε σ))
    (none : codeEnds { sc with forceExtraOnFirst := force } v.parser.virt i = false) :
    body check i v = .ok ({ v with state := window v.parser.virt i }, false) := by
  simp only [codeEnds, Bool.and_eq_false_iff, Bool.not_eq_false'] at none
  simp only [body, hstate, register_shift, hsc]
  rcases none with early | absent
  · simp [early]
  · simp [absent]

theorem body_code {sc : Scode} {force : Bool} {v : Locals σ} {i : Nat}
    (hsc : v.sc = { sc with forceExtraOnFirst := force })
    (hstate : v.state = register v.parser.virt i) {check : Option (CheckFrame ε σ)}
    (ends : codeEnds { sc with forceExtraOnFirst := force } v.parser.virt i = true)
    {type : ParserType} {priv : σ}
    (classified : classify check v.parser.virt v.parser.size i v.priv = .ok (type, priv))
    (default : check = none → v.type = .FRAME) :
    let w : Locals σ := { v with state := window v.parser.virt i, type, priv }
    body check i v = .ok (if type = .UNKNOWN then (w, false)
      else (accept w i, limitReached (accept w i).parser)) := by
  simp only [codeEnds, Bool.and_eq_true, Bool.not_eq_true'] at ends
  intro w
  cases check with
  | none =>
    have same : w = { v with state := window v.parser.virt i } := by
      obtain ⟨rfl, rfl⟩ : ParserType.FRAME = type ∧ v.priv = priv := by
        simpa [classify] using classified
      simp only [w, ← default rfl]
    have frame : type = .FRAME := by
      have pair := Except.ok.inj classified
      exact (congrArg Prod.fst pair).symm
    simp only [body, hstate, register_shift, hsc, ends.1, ends.2, same, frame]
    simp
  | some f =>
    simp only [classify] at classified
    simp only [body, hstate, register_shift, hsc, ends.1, ends.2, classified]
    simp only [Bool.false_eq_true, if_false, bind, Except.bind, w, hsc]
    split
    · rfl
    · rfl

/-- What a scan with a frame limit hands over of the pieces that remain. -/
def limited (parser : PitcherParser) (pieces : List (Int × Int)) : List (Int × Int) :=
  if parser.number = 0 then pieces else pieces.take (parser.number - parser.frameCnt)

def HasRoom (parser : PitcherParser) : Prop :=
  parser.number = 0 ∨ parser.frameCnt < parser.number

theorem limited_append {p q : PitcherParser} {first : List (Int × Int)}
    (extends_ : Extends p q first) (room : HasRoom q) (rest : List (Int × Int)) :
    limited p (first ++ rest) = first ++ limited q rest := by
  simp only [limited, extends_.number]
  rcases room with unlimited | below
  · rw [extends_.number] at unlimited
    simp only [unlimited, if_true]
  · rw [extends_.number, extends_.frameCnt] at below
    have limit : p.number ≠ 0 := by omega
    have split : p.number - p.frameCnt = first.length + (p.number - q.frameCnt) := by
      rw [extends_.frameCnt]
      omega
    simp only [limit, if_false, split, List.take_length_add_append]

theorem limited_short {p : PitcherParser} (room : HasRoom p) {pieces : List (Int × Int)}
    (short : pieces.length ≤ 1) : limited p pieces = pieces := by
  rcases room with unlimited | below
  · simp only [limited, unlimited, if_true]
  · have limit : p.number ≠ 0 := by omega
    simp only [limited, limit, if_false]
    exact List.take_of_length_le (by omega)

theorem limited_stop {p q : PitcherParser} {first : List (Int × Int)}
    (extends_ : Extends p q first) (room : HasRoom p) (short : first.length ≤ 1)
    (reached : limitReached q = true) (rest : List (Int × Int)) :
    limited p (first ++ rest) = first := by
  simp only [limitReached, Bool.and_eq_true, decide_eq_true_eq, extends_.number,
    extends_.frameCnt] at reached
  have limit : p.number ≠ 0 := by omega
  have below : p.frameCnt < p.number := room.resolve_left limit
  have exact_ : p.number - p.frameCnt = first.length := by omega
  simp only [limited, limit, if_false, exact_, List.take_left]

theorem hasRoom_of_continue {p q : PitcherParser} {first : List (Int × Int)}
    (extends_ : Extends p q first) (room : HasRoom p) (more : limitReached q = false) :
    HasRoom q := by
  simp only [limitReached, Bool.and_eq_false_iff, decide_eq_false_iff_not, extends_.number] at more
  simp only [HasRoom, extends_.number]
  rcases room with unlimited | below
  · exact .inl unlimited
  · right
    omega

theorem codeOffset_bounds {sc : Scode} {force : Bool} {virt : Nat → UInt8} {i : Nat}
    (positive : 0 < sc.num) (widest : sc.num ≤ sc.extraNum)
    (ends : codeEnds { sc with forceExtraOnFirst := force } virt i = true) :
    0 ≤ codeOffset sc (window virt i) i ∧ codeOffset sc (window virt i) i ≤ i := by
  have late : sc.num - 1 ≤ i := by
    simp only [codeEnds, Bool.and_eq_true, Bool.not_eq_true', tooEarly] at ends
    have first := ends.1
    split at first
    · contradiction
    · simpa using first
  unfold codeOffset
  split <;> omega

/-- The places a phase remembers lie before `bound`. -/
def Within (bound : Int) : Phase Int → Prop
  | .idle => True
  | .header a | .framed a => a < bound
  | .closed a b => a < bound ∧ b < bound

theorem within_next {bound : Int} {p : Phase Int} (within : Within bound p) {m : Mark Int}
    (below : m.pos ≤ bound) : Within (bound + 1) (p.next m).1 := by
  cases p with
  | idle => cases h : m.frame <;> simp [Phase.next, Within, h] <;> omega
  | header a | framed a => cases h : m.frame <;> simp [Phase.next, Within, h] at within ⊢ <;> omega
  | closed a b => cases h : m.frame <;> simp [Phase.next, Within, h] at within ⊢ <;> omega

theorem tail_extends {v : Locals σ} {p : Phase Int} (agrees : Agrees v p)
    (within : Within v.parser.size p) :
    Extends v.parser (tail v).parser (p.finish v.parser.size) := by
  cases p with
  | idle =>
    have none : ¬ 0 ≤ v.start := by have := agrees.1; omega
    simp only [tail, none, false_and, if_false, Phase.finish]
    exact Extends.refl _
  | header a | framed a =>
    obtain ⟨rfl, positive, -⟩ := agrees
    have below : v.start < v.parser.size := within
    simp only [tail, positive, below, and_self, if_true, Phase.finish]
    exact Extends.push ..
  | closed a b =>
    obtain ⟨rfl, positive, -⟩ := agrees
    have below : v.start < v.parser.size := within.1
    simp only [tail, positive, below, and_self, if_true, Phase.finish]
    exact Extends.push ..

theorem tail_priv (v : Locals σ) : (tail v).priv = v.priv := by
  simp only [tail]
  split_ifs <;> rfl

theorem accept_type (v : Locals σ) (i : Nat) : (accept v i).type = v.type := by
  simp only [accept]
  split_ifs <;> rfl

/-- The locals before index `i`, `force` telling whether the first code is
still asked for in its long form. -/
structure Reached (sc : Scode) (check : Option (CheckFrame ε σ)) (force : Bool) (i : Nat)
    (v : Locals σ) (p : Phase Int) : Prop where
  sc : v.sc = { sc with forceExtraOnFirst := force }
  state : v.state = register v.parser.virt i
  type : check = none → v.type = .FRAME
  agrees : Agrees v p
  within : Within i p
  room : HasRoom v.parser

section Steps
variable {sc : Scode} {check : Option (CheckFrame ε σ)} {force : Bool} {i : Nat}
  {v : Locals σ} {p : Phase Int}

/-- An index without an accepted code changes the callback's state at most. -/
theorem Reached.pass (reached : Reached sc check force i v p) {type : ParserType}
    (default : check = none → type = .FRAME) (priv : σ) :
    Reached sc check force (i + 1)
      { v with state := window v.parser.virt i, type, priv } p where
  sc := reached.sc
  state := rfl
  type := default
  agrees := by
    have := reached.agrees
    cases p <;> exact this
  within := by
    have := reached.within
    cases p <;> simp only [Within] at this ⊢ <;> omega
  room := reached.room

theorem classify_default {virt : Nat → UInt8} {size : Nat} {priv next : σ} {type : ParserType}
    (classified : classify check virt size i priv = .ok (type, next)) :
    check = none → type = .FRAME := by
  rintro rfl
  exact (congrArg Prod.fst (Except.ok.inj classified)).symm

theorem Reached.accept (reached : Reached sc check force i v p)
    (positive : 0 < sc.num) (widest : sc.num ≤ sc.extraNum)
    (ends : codeEnds { sc with forceExtraOnFirst := force } v.parser.virt i = true)
    {type : ParserType} (default : check = none → type = .FRAME) (priv : σ) :
    let m := Code.mark ⟨i, codeOffset sc (window v.parser.virt i) i, type⟩
    let w := Scan.accept { v with state := window v.parser.virt i, type, priv } i
    Extends v.parser w.parser (p.next m).2.toList ∧ w.priv = priv ∧
    (limitReached w.parser = false → Reached sc check false (i + 1) w (p.next m).1) := by
  intro m w
  have bounds := codeOffset_bounds positive widest ends
  have passed := reached.pass default priv
  obtain ⟨agrees, extends_, scEq, stateEq, privEq⟩ :=
    accept_agrees passed.agrees i m.pos
      (by simp only [reached.sc, codeOffset, m, Code.mark]) bounds.1 m.frame rfl
  refine ⟨extends_, privEq, fun more => ?_⟩
  exact
    { sc := by rw [scEq, reached.sc]
      state := by rw [stateEq, extends_.virt]; rfl
      type := fun h => (accept_type _ i).trans (default h)
      agrees
      within := within_next reached.within bounds.2
      room := hasRoom_of_continue extends_ reached.room more }

end Steps

/-- From any index the scan hands over the pieces the automaton cuts at the
codes still to come, as far as the frame limit lets it. -/
theorem loop_spec {sc : Scode} {check : Option (CheckFrame ε σ)} (positive : 0 < sc.num)
    (widest : sc.num ≤ sc.extraNum) {todo i : Nat} {force : Bool} {v : Locals σ} {p : Phase Int}
    (reached : Reached sc check force i v p) (whole : i + todo = v.parser.size)
    {codes : List Code} {last : σ}
    (accepted : codesFrom sc check v.parser.virt v.parser.size todo i force v.priv =
      .ok (codes, last)) :
    ∃ w done, loop check todo i v = .ok (w, done) ∧
      Extends v.parser (if done then w else tail w).parser
        (limited v.parser (cutFrom v.parser.size p (codes.map Code.mark))) := by
  induction todo generalizing i force v p codes with
  | zero =>
    obtain ⟨rfl, rfl⟩ : [] = codes ∧ v.priv = last := by simpa [codesFrom] using accepted
    have within : Within v.parser.size p := by simpa [← whole] using reached.within
    have short : (p.finish (v.parser.size : Int)).length ≤ 1 := by cases p <;> simp [Phase.finish]
    refine ⟨v, false, rfl, ?_⟩
    simpa [limited_short reached.room short] using tail_extends reached.agrees within
  | succ todo ih =>
    have rest : i + 1 + todo = v.parser.size := by omega
    rcases codesFrom_cases accepted with ⟨none, later⟩ | ⟨ends, type, next, classified, found⟩
    · have step := body_skip reached.sc reached.state check none
      obtain ⟨w, done, run, handed⟩ := ih (reached.pass reached.type v.priv) rest later
      exact ⟨w, done, by simpa only [loop, step, bind, Except.bind, Bool.false_eq_true, if_false]
        using run, handed⟩
    · have default := classify_default classified
      have step := body_code reached.sc reached.state ends classified reached.type
      rcases found with ⟨rfl, later⟩ | ⟨known, codes, later, rfl⟩
      · obtain ⟨w, done, run, handed⟩ := ih (reached.pass default next) rest later
        exact ⟨w, done, by simpa only [loop, step, bind, Except.bind, Bool.false_eq_true, if_true,
          if_false] using run, handed⟩
      · obtain ⟨extends_, privEq, continue_⟩ := reached.accept positive widest ends default next
        rw [List.map_cons, cutFrom_cons]
        simp only [known, if_false] at step
        cases reachedLimit : limitReached
          (Scan.accept { v with state := window v.parser.virt i, type, priv := next } i).parser
        · have next := continue_ reachedLimit
          obtain ⟨w, done, run, handed⟩ := ih next (by rw [extends_.size]; exact rest)
            (by rw [extends_.virt, extends_.size, privEq]; exact later)
          refine ⟨w, done, ?_, ?_⟩
          · simpa only [loop, step, bind, Except.bind, reachedLimit, Bool.false_eq_true, if_false]
              using run
          · rw [extends_.size] at handed
            rw [limited_append extends_ next.room]
            exact extends_.trans handed
        · refine ⟨_, true, by simp only [loop, step, bind, Except.bind, reachedLimit, if_true]; rfl, ?_⟩
          rw [limited_stop extends_ reached.room Option.length_toList_le reachedLimit]
          exact extends_

/-- The places behind the codes in `todo` bytes from index `i` on. -/
def spots (sc : Scode) (virt : Nat → UInt8) : (todo i : Nat) → List Nat
  | 0, _ => []
  | todo + 1, i =>
    if codeEnds sc virt i then (i + 1) :: spots sc virt todo (i + 1) else spots sc virt todo (i + 1)

theorem mem_spots {sc : Scode} {virt : Nat → UInt8} {todo i p : Nat} :
    p ∈ spots sc virt todo i ↔ ∃ j, i ≤ j ∧ j < i + todo ∧ codeEnds sc virt j = true ∧ p = j + 1 := by
  induction todo generalizing i with
  | zero => simp only [spots, List.not_mem_nil, false_iff]; omega
  | succ todo ih =>
    have here : (∃ j, i ≤ j ∧ j < i + (todo + 1) ∧ codeEnds sc virt j = true ∧ p = j + 1) ↔
        (codeEnds sc virt i = true ∧ p = i + 1) ∨
          ∃ j, i + 1 ≤ j ∧ j < i + 1 + todo ∧ codeEnds sc virt j = true ∧ p = j + 1 := by
      constructor
      · rintro ⟨j, low, high, ends, place⟩
        rcases Nat.eq_or_lt_of_le low with rfl | later
        · exact .inl ⟨ends, place⟩
        · exact .inr ⟨j, later, by omega, ends, place⟩
      · rintro (⟨ends, place⟩ | ⟨j, low, high, ends, place⟩)
        · exact ⟨i, le_refl i, by omega, ends, place⟩
        · exact ⟨j, by omega, by omega, ends, place⟩
    rw [here, ← ih, spots]
    split
    case isTrue ends => simp [ends]
    case isFalse no => simp [no]

theorem spots_sorted (sc : Scode) (virt : Nat → UInt8) (todo i : Nat) :
    (spots sc virt todo i).Pairwise (· < ·) ∧ ∀ p ∈ spots sc virt todo i, i < p := by
  induction todo generalizing i with
  | zero => exact ⟨.nil, by simp [spots]⟩
  | succ todo ih =>
    obtain ⟨sorted, above⟩ := ih (i + 1)
    rw [spots]
    split
    · refine ⟨.cons above sorted, ?_⟩
      intro p mem
      rcases List.mem_cons.mp mem with rfl | mem
      · exact Nat.lt_succ_self i
      · exact Nat.lt_of_succ_lt (above p mem)
    · exact ⟨sorted, fun p mem => Nat.lt_of_succ_lt (above p mem)⟩

/-- The calls of a callback at these places, when `frames` frames came before. A
limit ends them with the frame that makes the last range complete. -/
def calls (check : CheckFrame ε σ) (virt : Nat → UInt8) (size number : Nat) :
    (frames : Nat) → List Nat → σ → Except ε σ
  | _, [], priv => .ok priv
  | frames, p :: ps, priv => do
    let (type, priv) ← check virt p (leftSize size p) priv
    if type = .FRAME then
      if 0 < number ∧ frames = number then .ok priv
      else calls check virt size number (frames + 1) ps priv
    else calls check virt size number frames ps priv

/-- The frames in a phase that are not handed over yet. -/
def pending : Phase Int → Nat
  | .idle | .header _ => 0
  | .framed _ | .closed _ _ => 1

theorem pending_next (p : Phase Int) (m : Mark Int) :
    pending (p.next m).1 + (p.next m).2.toList.length = pending p + m.frame.toNat := by
  cases p <;> cases h : m.frame <;> simp [Phase.next, pending, h]

theorem pending_pushes (p : Phase Int) (m : Mark Int) :
    (p.next m).2.toList.length = if m.frame then pending p else 0 := by
  cases p <;> cases h : m.frame <;> simp [Phase.next, pending, h]

/-- Errors and the last state of a scan are those of the calls. -/
theorem loop_calls {sc : Scode} {check : CheckFrame ε σ} (relaxed : sc.forceExtraOnFirst = false)
    (positive : 0 < sc.num) (widest : sc.num ≤ sc.extraNum) (todo : Nat) {i : Nat} {v : Locals σ}
    {p : Phase Int} (reached : Reached sc (some check) false i v p) :
    (loop (some check) todo i v).map (fun r => r.1.priv) =
      calls check v.parser.virt v.parser.size v.parser.number (v.parser.frameCnt + pending p)
        (spots sc v.parser.virt todo i) v.priv := by
  have same : { sc with forceExtraOnFirst := false } = sc := by
    cases sc
    simpa using relaxed.symm
  induction todo generalizing i v p with
  | zero => rfl
  | succ todo ih =>
    cases ends : codeEnds sc v.parser.virt i
    · have step := body_skip reached.sc reached.state (some check) (same.symm ▸ ends)
      have later := ih (reached.pass reached.type v.priv)
      simpa only [loop, step, bind, Except.bind, spots, ends, Bool.false_eq_true, if_false] using later
    · simp only [spots, ends, if_true, calls, loop]
      cases called : check v.parser.virt (i + 1) (leftSize v.parser.size (i + 1)) v.priv with
      | error e =>
        have early := ends
        simp only [codeEnds, Bool.and_eq_true, Bool.not_eq_true'] at early
        have stops : body (some check) i v = .error e := by
          simp only [body, reached.sc, same, reached.state, register_shift, early.1, early.2,
            Bool.false_eq_true, if_false, called, bind, Except.bind]
        simp only [stops, bind, Except.bind, Except.map]
      | ok result =>
        obtain ⟨type, next⟩ := result
        have classified : classify (some check) v.parser.virt v.parser.size i v.priv =
          .ok (type, next) := called
        have default := classify_default classified
        have step := body_code reached.sc reached.state (same.symm ▸ ends) classified reached.type
        simp only [step, bind, Except.bind]
        by_cases unknown : type = .UNKNOWN
        · have later := ih (reached.pass default next)
          subst unknown
          simpa only [if_true, Bool.false_eq_true, if_false, reduceCtorEq] using later
        · obtain ⟨extends_, privEq, continue_⟩ :=
            reached.accept positive widest (same.symm ▸ ends) default next
          have grown := extends_.frameCnt
          rw [pending_pushes] at grown
          have total := pending_next p (Code.mark ⟨i, codeOffset sc (window v.parser.virt i) i, type⟩)
          rw [pending_pushes] at total
          have limit : limitReached (Scan.accept { v with
              state := window v.parser.virt i, type, priv := next } i).parser =
              decide (type = .FRAME ∧ 0 < v.parser.number ∧
                v.parser.frameCnt + pending p = v.parser.number) := by
            have room := reached.room
            have one : pending p ≤ 1 := by cases p <;> simp [pending]
            simp only [limitReached, extends_.number, grown, Code.mark, HasRoom] at room ⊢
            rw [← Bool.decide_and]
            apply decide_eq_decide.mpr
            by_cases frame : type = .FRAME
            · simp only [frame, decide_true, if_true, true_and]
              omega
            · simp only [frame, decide_false, Bool.false_eq_true, if_false, false_and, iff_false]
              omega
          simp only [unknown, if_false, limit]
          by_cases stop : type = .FRAME ∧ 0 < v.parser.number ∧
              v.parser.frameCnt + pending p = v.parser.number
          · rw [decide_eq_true stop, if_pos stop.1, if_pos stop.2]
            exact congrArg Except.ok privEq
          · have later := ih (continue_ (by rw [limit]; simpa using stop))
            rw [extends_.virt, extends_.size, extends_.number, privEq, grown, Nat.add_assoc,
              Nat.add_comm _ (pending _), total] at later
            rw [decide_eq_false stop]
            simp only [Bool.false_eq_true, if_false]
            rw [later]
            by_cases frame : type = .FRAME
            · rw [if_pos frame, if_neg fun full => stop ⟨frame, full⟩]
              simp [Code.mark, frame, Nat.add_assoc]
            · rw [if_neg frame]
              simp [Code.mark, frame]

end Scan

theorem normalize_widest (psc : Scode) :
    (Scan.normalize psc).num ≤ (Scan.normalize psc).extraNum ∧ (Scan.normalize psc).num = psc.num := by
  unfold Scan.normalize
  split <;> constructor <;> first | rfl | omega

/-- Before the first index. -/
theorem Scan.reached_start {ε σ : Type} (psc : Scode) (check : Option (CheckFrame ε σ))
    {parser : PitcherParser} (room : Scan.HasRoom parser) (priv : σ) :
    Scan.Reached (Scan.normalize psc) check (Scan.normalize psc).forceExtraOnFirst 0
      { sc := Scan.normalize psc, priv, parser } .idle :=
  { sc := rfl, state := rfl, type := fun _ => rfl
    agrees := ⟨Int.negSucc_lt_zero 0, Int.negSucc_lt_zero 0, rfl⟩
    within := trivial, room }

/-- A descriptor whose codes are all looked for in their plain form is scanned to
the state the calls of its callback leave, or to their error. -/
theorem pitcherParseStartcode_calls {ε σ : Type} {psc : Scode} (positive : 0 < psc.num)
    (extra : psc.num < psc.extraNum → psc.extraCode &&& psc.mask = psc.scode)
    (relaxed : (Scan.normalize psc).forceExtraOnFirst = false) (check : CheckFrame ε σ)
    {parser : PitcherParser} (room : Scan.HasRoom parser) (priv : σ) :
    (pitcherParseStartcode parser psc (some check) priv).map (fun r => r.2.2) =
      Scan.calls check parser.virt parser.size parser.number parser.frameCnt
        (Scan.spots (Scan.normalize psc) parser.virt parser.size 0) priv := by
  have nonzero : psc.num ≠ 0 := by omega
  have matching : ¬ (psc.num < psc.extraNum ∧ psc.extraCode &&& psc.mask ≠ psc.scode) :=
    fun ⟨wide, differ⟩ => differ (extra wide)
  have widest := normalize_widest psc
  have start := Scan.reached_start psc (some check) room priv
  rw [relaxed] at start
  have run := Scan.loop_calls relaxed (by omega) widest.1 parser.size start
  simp only [pitcherParseStartcode, nonzero, matching, if_false, bind, Except.bind]
  cases scanned : Scan.loop (some check) parser.size 0
      { sc := Scan.normalize psc, priv, parser : Scan.Locals σ } with
  | error e =>
    rw [scanned] at run
    exact run
  | ok result =>
    obtain ⟨v, done⟩ := result
    rw [scanned] at run
    refine Eq.trans ?_ run
    cases done
    · exact congrArg Except.ok (Scan.tail_priv v)
    · rfl

/-- The scan as a whole, for a descriptor it takes. -/
theorem pitcherParseStartcode_spec {ε σ : Type} {psc : Scode} (positive : 0 < psc.num)
    (extra : psc.num < psc.extraNum → psc.extraCode &&& psc.mask = psc.scode)
    {check : Option (CheckFrame ε σ)} {parser : PitcherParser} (room : Scan.HasRoom parser)
    {priv last : σ} {codes : List Scan.Code}
    (accepted : acceptedCodes parser psc check priv = .ok (codes, last)) :
    ∃ q final, pitcherParseStartcode parser psc check priv = .ok (.OK, q, final) ∧
      Scan.Extends parser q (Scan.limited parser (cut parser.size (codes.map Scan.Code.mark))) := by
  have nonzero : psc.num ≠ 0 := by omega
  have matching : ¬ (psc.num < psc.extraNum ∧ psc.extraCode &&& psc.mask ≠ psc.scode) :=
    fun ⟨wide, differ⟩ => differ (extra wide)
  have widest := normalize_widest psc
  have reached := Scan.reached_start psc check room priv
  obtain ⟨w, done, run, handed⟩ := Scan.loop_spec (by omega) widest.1 reached (Nat.zero_add _) accepted
  refine ⟨(if done then w else Scan.tail w).parser, (if done then w else Scan.tail w).priv, ?_, handed⟩
  simp only [pitcherParseStartcode, nonzero, matching, if_false, run, bind, Except.bind]

end ImxTest.Pitcher
