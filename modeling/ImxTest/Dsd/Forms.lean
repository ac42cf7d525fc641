import ImxTest.Dsd.Files

/-! Well-formed DSDIFF files and what is played of them. A chunk of odd size has a byte of
padding behind it, which the reader does not know of. -/
namespace ImxTest.Dsd

open Lib Reading BitString

/-- A chunk in a file, with its padding. -/
def chunkBytes (id body : List UInt8) : List UInt8 :=
  id ++ (encode true 8 body.length ++ (body ++ List.replicate (body.length % 2) 0))

/-- The chunks that mean something to the reader. -/
def known : List (List UInt8) := [ascii "FVER", ascii "PROP", ascii "FS  ", ascii "CHNL", ascii "CMPR", ascii "DSD "]

/-- Four printable characters. -/
structure IsId (id : List UInt8) : Prop where
  length : id.length = 4
  printable : ∀ c ∈ id, 0x20 ≤ c

structure OtherChunk where
  id : List UInt8
  body : List UInt8
  is_id : IsId id
  unknown : id ∉ known
  fits : body.length < 2 ^ 64

inductive PropChunk where
  | fs (sampleRate : UInt32)
  | chnl (numChannels : UInt16) (ids : List UInt8) (fits : ids.length = 4 * numChannels.toNat)
  /-- The name may have a padding of its own. -/
  | compr (count : UInt8) (name : List UInt8)
      (fits : name.length = count.toNat ∨ name.length = count.toNat + 1)
  | other (chunk : OtherChunk)

namespace PropChunk

def id : PropChunk → List UInt8
  | fs _ => ascii "FS  "
  | chnl .. => ascii "CHNL"
  | compr .. => ascii "CMPR"
  | other chunk => chunk.id

def body : PropChunk → List UInt8
  | fs sampleRate => encode true 4 sampleRate.toNat
  | chnl numChannels ids _ => encode true 2 numChannels.toNat ++ ids
  | compr count name _ => ascii "DSD " ++ ([count] ++ name)
  | other chunk => chunk.body

/-- The size of the array that the reader wants for it. -/
def array : PropChunk → Nat
  | chnl _ ids _ => ids.length
  | other chunk => chunk.body.length
  | _ => 0

def fs? : PropChunk → Option Nat
  | fs sampleRate => some sampleRate.toNat
  | _ => none

def chnl? : PropChunk → Option Nat
  | chnl numChannels .. => some numChannels.toNat
  | _ => none

def compr? : PropChunk → Option Unit
  | compr .. => some ()
  | _ => none

end PropChunk

/-- A DSDIFF file. The size of the form and that of the property chunk can be any. -/
structure DffFile where
  formSize : UInt64
  version : UInt32
  before : List OtherChunk
  propSize : UInt64
  props : List PropChunk
  after : List OtherChunk
  data : List UInt8
  /-- What follows the data. -/
  metadata : List UInt8
  samplingFreq : UInt32
  channelNum : UInt16
  one_fs : props.filterMap PropChunk.fs? = [samplingFreq.toNat]
  one_chnl : props.filterMap PropChunk.chnl? = [channelNum.toNat]
  one_compr : props.filterMap PropChunk.compr? = [()]
  fits : data.length < 2 ^ 64

def othersBytes (others : List OtherChunk) : List UInt8 := others.flatMap fun c => chunkBytes c.id c.body

def propsBytes (props : List PropChunk) : List UInt8 := props.flatMap fun c => chunkBytes c.id c.body

namespace DffFile

/-- The data chunk and what follows it. -/
def tail (file : DffFile) : List UInt8 :=
  ascii "DSD " ++ (encode true 8 file.data.length ++ (file.data ++ file.metadata))

def bytes (file : DffFile) : List UInt8 :=
  ascii "FRM8" ++ (encode true 8 file.formSize.toNat ++ (ascii "DSD " ++
  (chunkBytes (ascii "FVER") (encode true 4 file.version.toNat) ++ (othersBytes file.before ++
  (ascii "PROP" ++ (encode true 8 file.propSize.toNat ++ (ascii "SND " ++
  (propsBytes file.props ++ (othersBytes file.after ++ file.tail)))))))))

end DffFile

/-! ## Chunks that the reader gets over -/

/-- The array has room, and there is no padding. -/
def OtherChunk.Good (sys : System) (c : OtherChunk) : Prop := c.body.length ≤ sys.stack ∧ c.body.length % 2 = 0

def PropChunk.Good (sys : System) (c : PropChunk) : Prop := c.array ≤ sys.stack ∧ c.body.length % 2 = 0

instance (sys : System) (c : OtherChunk) : Decidable (c.Good sys) := inferInstanceAs (Decidable (_ ∧ _))

instance (sys : System) (c : PropChunk) : Decidable (c.Good sys) := inferInstanceAs (Decidable (_ ∧ _))

/-- The front of a chunk. -/
structure Front (left : List UInt8) : Prop where
  is_id : IsId (left.take 4)
  long : 12 ≤ left.length

theorem front_append {id : List UInt8} (is_id : IsId id) {left : List UInt8} (long : 8 ≤ left.length) :
    Front (id ++ left) where
  is_id := by rwa [← is_id.length, List.take_left]
  long := by
    rw [List.length_append, is_id.length]
    omega

/-- A byte of padding in front of a chunk. -/
def Lost (left : List UInt8) : Prop := ∃ front, Front front ∧ left = 0 :: front

variable {sys : System}

theorem strict_number (be : Bool) {n v : Nat} (fits : v < 2 ^ (8 * n)) :
    Strict.Passes (Strict.number be n) (encode be n v) v := by
  intro rest
  rw [Strict.number, Strict.bind_ok (Strict.passes_take (encode_length be n v) rest), number_encode be fits]
  rfl

theorem skipChunk_passes {body : List UInt8} (fits : body.length < 2 ^ 64) (room : body.length ≤ sys.stack) :
    Strict.Passes (Walk.skipChunk sys) (encode true 8 body.length ++ body) () := by
  refine (strict_number true fits).bind fun rest => ?_
  rw [Strict.skip, if_neg (Nat.not_lt.mpr room), if_pos (by simp), List.drop_left]

theorem skipChunk_large {size : Nat} (fits : size < 2 ^ 64) (large : sys.stack < size) (left : List UInt8) :
    Walk.skipChunk sys (encode true 8 size ++ left) = .error .large := by
  rw [Walk.skipChunk, Strict.bind_ok (strict_number true fits left), Strict.skip, if_pos large]

/-- The size that is read over a byte of padding is too large. -/
theorem skipChunk_lost {front : List UInt8} (is_front : Front front) :
    Walk.skipChunk sys (front.drop 3) = .error .large := by
  obtain ⟨is_id, long⟩ := is_front
  match front, long with
  | a :: b :: c :: d :: rest, long =>
    have printable := UInt8.le_iff_toNat_le.mp (is_id.printable d (by simp))
    have rest_long : 7 ≤ rest.length := by
      simp only [List.length_cons] at long
      omega
    have size : 2 ^ 61 ≤ number true ((d :: rest).take 8) := by
      have split := number_append true [d] (rest.take 7)
      rw [if_pos rfl, List.length_take_of_le rest_long] at split
      rw [List.take_succ_cons, ← List.singleton_append, split]
      have front_byte : number true [d] = d.toNat := by simp [number, word]
      rw [front_byte]
      simp only [UInt8.toNat_ofNat] at printable
      omega
    have small := sys.stack_lt
    rw [List.drop_succ_cons, List.drop_succ_cons, List.drop_succ_cons, List.drop_zero, Walk.skipChunk,
      Strict.bind_ok (Strict.number_long true (by rw [List.length_cons]; omega)), Strict.skip,
      if_pos (by omega)]

/-! ## Chunks of the property chunk -/

def PropChunk.found (prop : DffProp) : PropChunk → DffProp
  | fs sampleRate => { prop with fs := some sampleRate.toNat }
  | chnl numChannels .. => { prop with chnl := some numChannels.toNat }
  | compr .. => { prop with compr := true }
  | other _ => prop

/-- It has not been found before. -/
def PropChunk.Free (prop : DffProp) : PropChunk → Prop
  | fs _ => prop.fs = none
  | chnl .. => prop.chnl = none
  | compr .. => prop.compr = false
  | other _ => True

theorem propChunk_unknown {tag : List UInt8} (unknown : tag ∉ known) (prop : DffProp) :
    Walk.propChunk sys tag prop = Walk.skipChunk sys >>= fun _ => pure prop := by
  simp only [known, List.mem_cons, List.not_mem_nil, not_or] at unknown
  simp [Walk.propChunk, unknown]

theorem field_passes (size : Nat) (fits : size < 2 ^ 64) (v : UInt32) :
    Strict.Passes Walk.field (encode true 8 size ++ encode true 4 v.toNat) v.toNat :=
  (strict_number true fits).bind (strict_number true v.toNat_lt)

theorem chnl_passes (size : Nat) (fits : size < 2 ^ 64) (n : UInt16) (ids : List UInt8)
    (ids_length : ids.length = 4 * n.toNat) (room : ids.length ≤ sys.stack) :
    Strict.Passes (Walk.chnl sys) (encode true 8 size ++ (encode true 2 n.toNat ++ ids)) n.toNat := by
  refine (strict_number true fits).bind <| (strict_number true n.toNat_lt).bind fun rest => ?_
  have skipped : Strict.skip sys (4 * n.toNat) (ids ++ rest) = .ok ((), rest) := by
    rw [← ids_length, Strict.skip, if_neg (Nat.not_lt.mpr room), if_pos (by simp), List.drop_left]
  exact Strict.bind_ok skipped _

theorem compr_passes (count : UInt8) (name : List UInt8) (short : name.length ≤ 256) :
    Strict.Passes (Walk.compr sys)
      (encode true 8 (ascii "DSD " ++ ([count] ++ name)).length ++ (ascii "DSD " ++ ([count] ++ name))) () := by
  intro rest
  have length : (ascii "DSD " ++ ([count] ++ name)).length = name.length + 5 := by
    rw [List.length_append, List.length_append, List.length_singleton, show (ascii "DSD ").length = 4 by decide]
    omega
  have size : nameSize (name.length + 5) = name.length := by
    unfold nameSize
    omega
  have taken := sys.most_ge
  have named : Strict.Passes (Walk.name name.length) name () := by
    intro rest
    rw [Walk.name, if_neg (by omega), if_pos (by simp), List.drop_left]
  have passes : Strict.Passes
      (Strict.expect (ascii "DSD ") >>= fun _ => Strict.take 1 >>= fun _ => Walk.name name.length)
      (ascii "DSD " ++ ([count] ++ name)) () :=
    (Strict.passes_expect _).bind <| (Strict.passes_take List.length_singleton).bind named
  rw [length, Walk.compr, if_pos (by simp), List.append_assoc,
    Strict.bind_ok (strict_number true (by omega) _), size, if_neg (by omega)]
  exact passes rest

theorem PropChunk.passes {c : PropChunk} {prop : DffProp} (free : c.Free prop) (room : c.array ≤ sys.stack) :
    Strict.Passes (Walk.propChunk sys c.id prop) (encode true 8 c.body.length ++ c.body) (c.found prop) := by
  cases c with
  | fs rate =>
    have free : prop.fs = none := free
    have here : Walk.propChunk sys (ascii "FS  ") prop =
        Walk.field >>= fun sampleRate => pure { prop with fs := some sampleRate } := by
      simp [Walk.propChunk, free]
    have size : (PropChunk.body (.fs rate)).length < 2 ^ 64 := by simp [PropChunk.body]
    have passes := (field_passes _ size rate).map fun rate => { prop with fs := some rate }
    rw [PropChunk.id, here]
    exact passes
  | chnl n ids fits =>
    have free : prop.chnl = none := free
    have here : Walk.propChunk sys (ascii "CHNL") prop =
        Walk.chnl sys >>= fun numChannels => pure { prop with chnl := some numChannels } := by
      simp [Walk.propChunk, free, show ascii "CHNL" ≠ ascii "FS  " by decide]
    have size : (PropChunk.body (.chnl n ids fits)).length < 2 ^ 64 := by
      have small := n.toNat_lt
      simp only [PropChunk.body, List.length_append, encode_length]
      omega
    have passes := (chnl_passes _ size n ids fits room).map fun n => { prop with chnl := some n }
    rw [PropChunk.id, here]
    exact passes
  | compr count name fits =>
    have free : prop.compr = false := free
    have here : Walk.propChunk sys (ascii "CMPR") prop =
        Walk.compr sys >>= fun _ => pure { prop with compr := true } := by
      simp [Walk.propChunk, free, show ascii "CMPR" ≠ ascii "FS  " by decide,
        show ascii "CMPR" ≠ ascii "CHNL" by decide]
    have small := count.toNat_lt
    have short : name.length ≤ 256 := by omega
    rw [PropChunk.id, here, PropChunk.body, PropChunk.found]
    intro rest
    exact Strict.bind_ok (compr_passes count name short rest) _
  | other c =>
    rw [PropChunk.id, propChunk_unknown c.unknown]
    exact (skipChunk_passes c.fits room).map fun _ => prop

theorem PropChunk.large {c : PropChunk} {prop : DffProp} (free : c.Free prop) (large : sys.stack < c.array)
    (left : List UInt8) :
    Walk.propChunk sys c.id prop (encode true 8 c.body.length ++ (c.body ++ left)) = .error .large := by
  cases c with
  | fs rate => exact absurd large (Nat.not_lt_zero _)
  | compr count name fits => exact absurd large (Nat.not_lt_zero _)
  | chnl n ids fits =>
    have free : prop.chnl = none := free
    have here : Walk.propChunk sys (ascii "CHNL") prop =
        Walk.chnl sys >>= fun numChannels => pure { prop with chnl := some numChannels } := by
      simp [Walk.propChunk, free, show ascii "CHNL" ≠ ascii "FS  " by decide]
    have small := n.toNat_lt
    have size : (PropChunk.body (.chnl n ids fits)).length < 2 ^ 64 := by
      simp only [PropChunk.body, List.length_append, encode_length]
      omega
    rw [PropChunk.id, here]
    refine Strict.bind_error ?_ _
    rw [Walk.chnl, Strict.bind_ok (strict_number true size _), PropChunk.body, List.append_assoc,
      Strict.bind_ok (strict_number true n.toNat_lt _)]
    refine Strict.bind_error ?_ _
    rw [Strict.skip, if_pos (by rw [← fits]; exact large)]
  | other c =>
    rw [PropChunk.id, propChunk_unknown c.unknown]
    exact Strict.bind_error (skipChunk_large c.fits large _) _

theorem propChunk_shrinks (tag : List UInt8) (prop : DffProp) (left : List UInt8) (prop' : DffProp)
    (rest : List UInt8) (ok : Walk.propChunk sys tag prop left = .ok (prop', rest)) :
    rest.length ≤ left.length :=
  (((tracks_propChunk tag prop).inside left).found prop' rest ok).1

theorem known_is_id {id : List UInt8} (mem : id ∈ known) : IsId id := by
  have printable : ∀ id ∈ known, id.length = 4 ∧ ∀ c ∈ id, 0x20 ≤ c := by decide +kernel
  exact ⟨(printable id mem).1, (printable id mem).2⟩

/-- A byte of padding is no part of a known tag. -/
theorem lost_unknown (tag : List UInt8) : 0 :: tag ∉ known := by
  intro mem
  exact absurd ((known_is_id mem).printable 0 List.mem_cons_self) (by decide)

theorem Lost.split {left : List UInt8} (lost : Lost left) : ∃ front, Front front ∧
    left = (0 :: front.take 3) ++ front.drop 3 ∧ (0 :: front.take 3).length = 4 := by
  obtain ⟨front, is_front, rfl⟩ := lost
  have long := is_front.long
  refine ⟨front, is_front, by rw [List.cons_append, List.take_append_drop], ?_⟩
  rw [List.length_cons, List.length_take]
  omega

theorem Lost.prop_large {left : List UInt8} (lost : Lost left) {prop : DffProp} (not_done : prop.done = false) :
    Strict.allChunks DffProp.done (Walk.propChunk sys) prop left = .error .large := by
  obtain ⟨front, is_front, rfl, tag⟩ := lost.split
  rw [Strict.allChunks_tag propChunk_shrinks not_done tag, propChunk_unknown (lost_unknown _)]
  exact Strict.bind_error (Strict.bind_error (skipChunk_lost is_front) _) _

/-- What is still to come when so much has been found. -/
structure Expects (samplingFreq channelNum : Nat) (prop : DffProp) (chunks : List PropChunk) : Prop where
  fs : prop.fs.toList ++ chunks.filterMap PropChunk.fs? = [samplingFreq]
  chnl : prop.chnl.toList ++ chunks.filterMap PropChunk.chnl? = [channelNum]
  compr : (if prop.compr then [()] else []) ++ chunks.filterMap PropChunk.compr? = [()]

section Expects
variable {f n : Nat} {prop : DffProp} {c : PropChunk} {chunks : List PropChunk}

theorem first_one {α : Type} {found : Option α} {x y : α} {rest : List α}
    (one : found.toList ++ x :: rest = [y]) : found = none ∧ x :: rest = [y] := by
  cases found with
  | none => exact ⟨rfl, one⟩
  | some z => cases (List.cons.inj one).2

theorem not_yet {found : Bool} {rest : List Unit} (one : (if found then [()] else []) ++ () :: rest = [()]) :
    found = false ∧ () :: rest = [()] := by
  cases found with
  | false => exact ⟨rfl, one⟩
  | true => cases (List.cons.inj one).2

theorem Expects.free (expects : Expects f n prop (c :: chunks)) : c.Free prop := by
  cases c with
  | fs rate => exact (first_one expects.fs).1
  | chnl n ids fits => exact (first_one expects.chnl).1
  | compr count name fits => exact (not_yet expects.compr).1
  | other c => trivial

theorem Expects.next (expects : Expects f n prop (c :: chunks)) : Expects f n (c.found prop) chunks := by
  cases c with
  | fs rate => exact ⟨(first_one expects.fs).2, expects.chnl, expects.compr⟩
  | chnl n ids fits => exact ⟨expects.fs, (first_one expects.chnl).2, expects.compr⟩
  | compr count name fits => exact ⟨expects.fs, expects.chnl, (not_yet expects.compr).2⟩
  | other c => exact ⟨expects.fs, expects.chnl, expects.compr⟩

theorem Expects.done (expects : Expects f n prop []) : prop.done = true := by
  obtain ⟨fs, chnl, compr⟩ := expects
  cases known_fs : prop.fs <;> cases known_chnl : prop.chnl <;> cases known_compr : prop.compr <;>
    simp_all [DffProp.done]

theorem Expects.final (expects : Expects f n prop chunks) (is_done : prop.done = true) :
    prop = ⟨some f, some n, true⟩ ∧ ∃ others : List OtherChunk, chunks = others.map .other := by
  obtain ⟨fs, chnl, compr⟩ := prop
  obtain ⟨⟨some_fs, some_chnl⟩, rfl⟩ : (fs.isSome ∧ chnl.isSome) ∧ compr = true := by
    simpa [DffProp.done] using is_done
  obtain ⟨rate, rfl⟩ := Option.isSome_iff_exists.mp some_fs
  obtain ⟨channels, rfl⟩ := Option.isSome_iff_exists.mp some_chnl
  obtain ⟨rfl, no_fs⟩ := List.cons.inj expects.fs
  obtain ⟨rfl, no_chnl⟩ := List.cons.inj expects.chnl
  obtain ⟨-, no_compr⟩ := List.cons.inj expects.compr
  refine ⟨rfl, ?_⟩
  induction chunks with
  | nil => exact ⟨[], rfl⟩
  | cons c chunks ih =>
    have free := expects.free
    cases c with
    | other c =>
      obtain ⟨others, rfl⟩ := ih no_fs no_chnl expects.next no_compr
      exact ⟨c :: others, rfl⟩
    | _ => cases free

end Expects

/-! ## Lists of chunks -/

theorem chunkBytes_front {id body left : List UInt8} (is_id : IsId id) : Front (chunkBytes id body ++ left) := by
  rw [chunkBytes, List.append_assoc]
  refine front_append is_id ?_
  simp only [List.length_append, encode_length]
  omega

theorem PropChunk.is_id (c : PropChunk) : IsId c.id := by
  cases c with
  | other c => exact c.is_id
  | _ => exact known_is_id (by simp [known, PropChunk.id])

theorem others_front {rest : List UInt8} (front : Front rest) (others : List OtherChunk) :
    Front (othersBytes others ++ rest) := by
  cases others with
  | nil => exact front
  | cons c others =>
    rw [othersBytes, List.flatMap_cons, List.append_assoc]
    exact chunkBytes_front c.is_id

theorem props_front {rest : List UInt8} (front : Front rest) (props : List PropChunk) :
    Front (propsBytes props ++ rest) := by
  cases props with
  | nil => exact front
  | cons c props =>
    rw [propsBytes, List.flatMap_cons, List.append_assoc]
    exact chunkBytes_front c.is_id

/-- One chunk and its padding. -/
theorem PropChunk.walk {c : PropChunk} {prop : DffProp} (free : c.Free prop) (not_done : prop.done = false)
    (left : List UInt8) :
    Strict.allChunks DffProp.done (Walk.propChunk sys) prop (chunkBytes c.id c.body ++ left) =
      if sys.stack < c.array then .error .large
      else Strict.allChunks DffProp.done (Walk.propChunk sys) (c.found prop)
        (List.replicate (c.body.length % 2) 0 ++ left) := by
  rw [chunkBytes, List.append_assoc, Strict.allChunks_tag propChunk_shrinks not_done c.is_id.length,
    List.append_assoc, List.append_assoc]
  split_ifs with large
  · exact Strict.bind_error (PropChunk.large free large _) _
  · have passes := PropChunk.passes free (Nat.not_lt.mp large) (List.replicate (c.body.length % 2) 0 ++ left)
    rw [List.append_assoc] at passes
    exact Strict.bind_ok passes _

/-- The walk over the property chunk finds what there is and stops in front of other chunks;
or else it has met a chunk that it does not get over. -/
theorem props_walk {f n : Nat} {rest : List UInt8} (front : Front rest) (chunks : List PropChunk)
    (prop : DffProp) (expects : Expects f n prop chunks) :
    (∃ others : List OtherChunk, Strict.allChunks DffProp.done (Walk.propChunk sys) prop
        (propsBytes chunks ++ rest) = .ok (⟨some f, some n, true⟩, othersBytes others ++ rest) ∧
      ((∀ c ∈ chunks, c.Good sys) ↔ ∀ c ∈ others, c.Good sys)) ∨
    (∃ c ∈ chunks, ¬ c.Good sys) ∧
      (Strict.allChunks DffProp.done (Walk.propChunk sys) prop (propsBytes chunks ++ rest) = .error .large ∨
      ∃ left, Lost left ∧ Strict.allChunks DffProp.done (Walk.propChunk sys) prop
        (propsBytes chunks ++ rest) = .ok (⟨some f, some n, true⟩, left)) := by
  induction chunks generalizing prop with
  | nil =>
    obtain ⟨rfl, -⟩ := expects.final expects.done
    exact .inl ⟨[], Strict.allChunks_done expects.done _, by simp⟩
  | cons c chunks ih =>
    cases is_done : prop.done with
    | true =>
      obtain ⟨rfl, others, all⟩ := expects.final is_done
      rw [all]
      refine .inl ⟨others, ?_, ?_⟩
      · rw [propsBytes, List.flatMap_map]
        exact Strict.allChunks_done is_done _
      · simp only [List.mem_map, forall_exists_index, and_imp, forall_apply_eq_imp_iff₂]
        rfl
    | false =>
      rw [propsBytes, List.flatMap_cons, List.append_assoc, PropChunk.walk expects.free is_done]
      split_ifs with large
      · exact .inr ⟨⟨c, List.mem_cons_self, fun good => absurd good.1 (Nat.not_le.mpr large)⟩, .inl rfl⟩
      · rcases Nat.mod_two_eq_zero_or_one c.body.length with even | odd
        · have good : c.Good sys := ⟨Nat.not_lt.mp large, even⟩
          rw [even, List.replicate_zero, List.nil_append]
          refine (ih (c.found prop) expects.next).imp ?_ ?_
          · rintro ⟨others, walk, same⟩
            refine ⟨others, walk, Iff.trans ?_ same⟩
            simp only [List.mem_cons, forall_eq_or_imp, good, true_and]
          · rintro ⟨⟨bad, mem, is_bad⟩, walk⟩
            exact ⟨⟨bad, List.mem_cons_of_mem c mem, is_bad⟩, walk⟩
        · have bad : ¬ c.Good sys := fun good => by
            have even := good.2
            omega
          have lost : Lost (0 :: (propsBytes chunks ++ rest)) := ⟨_, props_front front chunks, rfl⟩
          refine .inr ⟨⟨c, List.mem_cons_self, bad⟩, ?_⟩
          rw [odd, List.replicate_one, List.singleton_append]
          cases done_now : (c.found prop).done with
          | true =>
            rw [← (expects.next.final done_now).1]
            exact .inr ⟨_, lost, Strict.allChunks_done done_now _⟩
          | false => exact .inl (lost.prop_large done_now)

/-! ## The form -/

theorem formChunk_unknown {tag : List UInt8} (unknown : tag ∉ known) (form : DffForm) :
    Walk.formChunk sys tag form = Walk.skipChunk sys >>= fun _ => pure form := by
  simp only [known, List.mem_cons, List.not_mem_nil, not_or] at unknown
  simp [Walk.formChunk, unknown]

theorem formChunk_shrinks (tag : List UInt8) (form : DffForm) (left : List UInt8) (form' : DffForm)
    (rest : List UInt8) (ok : Walk.formChunk sys tag form left = .ok (form', rest)) :
    rest.length ≤ left.length :=
  (((tracks_formChunk tag form).inside left).found form' rest ok).1

theorem Lost.form_large {left : List UInt8} (lost : Lost left) {form : DffForm} (not_done : form.done = false) :
    Strict.allChunks DffForm.done (Walk.formChunk sys) form left = .error .large := by
  obtain ⟨front, is_front, rfl, tag⟩ := lost.split
  rw [Strict.allChunks_tag formChunk_shrinks not_done tag, formChunk_unknown (lost_unknown _)]
  exact Strict.bind_error (Strict.bind_error (skipChunk_lost is_front) _) _

/-- Other chunks in the form are passed over. -/
theorem others_walk {form : DffForm} (not_done : form.done = false) {rest : List UInt8} (front : Front rest)
    (others : List OtherChunk) :
    Strict.allChunks DffForm.done (Walk.formChunk sys) form (othersBytes others ++ rest) =
      if ∀ c ∈ others, c.Good sys then Strict.allChunks DffForm.done (Walk.formChunk sys) form rest
      else .error .large := by
  induction others with
  | nil => rw [if_pos (by simp)]; rfl
  | cons c others ih =>
    have walk (left : List UInt8) : Strict.allChunks DffForm.done (Walk.formChunk sys) form
        (chunkBytes c.id c.body ++ left) = if sys.stack < c.body.length then .error .large
          else Strict.allChunks DffForm.done (Walk.formChunk sys) form
            (List.replicate (c.body.length % 2) 0 ++ left) := by
      rw [chunkBytes, List.append_assoc, Strict.allChunks_tag formChunk_shrinks not_done c.is_id.length,
        List.append_assoc, List.append_assoc, formChunk_unknown c.unknown]
      split_ifs with large
      · exact Strict.bind_error (Strict.bind_error (skipChunk_large c.fits large _) _) _
      · have passes := skipChunk_passes c.fits (Nat.not_lt.mp large) (List.replicate (c.body.length % 2) 0 ++ left)
        rw [List.append_assoc] at passes
        exact Strict.bind_ok (Strict.bind_ok passes _) _
    rw [othersBytes, List.flatMap_cons, List.append_assoc, walk]
    change _ = if ∀ d ∈ c :: others, d.Good sys then _ else _
    simp only [List.mem_cons, forall_eq_or_imp]
    by_cases large : sys.stack < c.body.length
    · rw [if_pos large, if_neg fun good => absurd good.1.1 (Nat.not_le.mpr large)]
    · rw [if_neg large]
      rcases Nat.mod_two_eq_zero_or_one c.body.length with even | odd
      · have good : c.Good sys := ⟨Nat.not_lt.mp large, even⟩
        rw [even, List.replicate_zero, List.nil_append]
        simp only [good, true_and]
        exact ih
      · have bad : ¬ c.Good sys := fun good => by
          have even := good.2
          omega
        have lost : Lost (0 :: (othersBytes others ++ rest)) := ⟨_, others_front front others, rfl⟩
        rw [odd, List.replicate_one, List.singleton_append, if_neg fun good => bad good.1]
        exact lost.form_large not_done

/-- The reader gets over everything in front of the data. -/
structure DffFile.Readable (sys : System) (file : DffFile) : Prop where
  before : ∀ c ∈ file.before, c.Good sys
  props : ∀ c ∈ file.props, c.Good sys
  after : ∀ c ∈ file.after, c.Good sys

def DffFile.params (file : DffFile) : DsdParams where
  samplingFreq := file.samplingFreq.toNat
  bitsPerSample := 8
  channelNum := file.channelNum.toNat
  dsdChunkSize := file.data.length

theorem DffFile.tail_front (file : DffFile) : Front file.tail :=
  front_append (known_is_id (by simp [known])) (by simp)

/-- All that is found in the form. -/
def DffFile.form (file : DffFile) : DffForm where
  version := some file.version.toNat
  prop := some ⟨some file.samplingFreq.toNat, some file.channelNum.toNat, true⟩
  dsdData := some file.data.length

section Walk
variable (file : DffFile)

theorem DffFile.walk_tail : Strict.allChunks DffForm.done (Walk.formChunk sys) { file.form with dsdData := none }
    file.tail = .ok (file.form, file.data ++ file.metadata) := by
  have tag : IsId (ascii "DSD ") := known_is_id (by simp [known])
  rw [DffFile.tail, Strict.allChunks_tag formChunk_shrinks rfl tag.length]
  have here : Walk.formChunk sys (ascii "DSD ") { file.form with dsdData := none } =
      Strict.number true 8 >>= fun size => pure { file.form with dsdData := some size } := by
    simp [Walk.formChunk, DffFile.form]
  rw [here]
  exact (Strict.bind_ok (Strict.bind_ok (strict_number true file.fits _) _) _).trans
    (Strict.allChunks_done rfl _)

/-- The property chunk and everything behind it. -/
def DffFile.propTail : List UInt8 :=
  ascii "PROP" ++ (encode true 8 file.propSize.toNat ++ (ascii "SND " ++
    (propsBytes file.props ++ (othersBytes file.after ++ file.tail))))

theorem DffFile.propTail_front : Front file.propTail :=
  front_append (known_is_id (by simp [known])) (by simp)

theorem DffFile.walk_propTail :
    Strict.allChunks DffForm.done (Walk.formChunk sys) { version := some file.version.toNat } file.propTail =
      if (∀ c ∈ file.props, c.Good sys) ∧ ∀ c ∈ file.after, c.Good sys then
        .ok (file.form, file.data ++ file.metadata)
      else .error .large := by
  have here : Walk.formChunk sys (ascii "PROP") { version := some file.version.toNat } =
      Walk.prop sys >>= fun prop => pure { version := some file.version.toNat, prop := some prop } := by
    simp [Walk.formChunk]
  have tag : IsId (ascii "PROP") := known_is_id (by simp [known])
  have behind := others_front file.tail_front file.after
  have expects : Expects file.samplingFreq.toNat file.channelNum.toNat {} file.props :=
    ⟨file.one_fs, file.one_chnl, file.one_compr⟩
  have entry (left : List UInt8) : Walk.prop sys (encode true 8 file.propSize.toNat ++ (ascii "SND " ++ left)) =
      Strict.allChunks DffProp.done (Walk.propChunk sys) {} left := by
    rw [Walk.prop, Strict.bind_ok (strict_number true file.propSize.toNat_lt _),
      Strict.bind_ok (Strict.passes_expect _ _)]
  rw [DffFile.propTail, Strict.allChunks_tag formChunk_shrinks rfl tag.length, here]
  rcases props_walk behind file.props {} expects with ⟨others, walk, same⟩ | ⟨bad, walk⟩
  · rw [Strict.bind_ok (Strict.bind_ok ((entry _).trans walk) _)]
    change Strict.allChunks DffForm.done (Walk.formChunk sys) { file.form with dsdData := none } _ = _
    rw [others_walk rfl behind, others_walk rfl file.tail_front, file.walk_tail]
    simp only [same]
    split_ifs <;> simp_all
  · rw [if_neg fun good => bad.elim fun c is_bad => is_bad.2 (good.1 c is_bad.1)]
    rcases walk with large | ⟨left, lost, walk⟩
    · exact Strict.bind_error (Strict.bind_error ((entry _).trans large) _) _
    · rw [Strict.bind_ok (Strict.bind_ok ((entry _).trans walk) _)]
      exact lost.form_large rfl

/-- The walk over a well-formed file finds what is in it, or a chunk it does not get over. -/
theorem DffFile.walk : Walk.form sys file.bytes =
    if (∀ c ∈ file.before, c.Good sys) ∧ (∀ c ∈ file.props, c.Good sys) ∧ ∀ c ∈ file.after, c.Good sys then
      .ok (file.form, file.data ++ file.metadata)
    else .error .large := by
  have version : Strict.Passes (Walk.formChunk sys (ascii "FVER") {})
      (encode true 8 (encode true 4 file.version.toNat).length ++ encode true 4 file.version.toNat)
      { version := some file.version.toNat } := by
    have here : Walk.formChunk sys (ascii "FVER") {} =
        Walk.field >>= fun version => pure { version := some version } := rfl
    rw [here]
    exact (field_passes _ (by simp) file.version).map _
  have tag : IsId (ascii "FVER") := known_is_id (by simp [known])
  have entry : Walk.form sys file.bytes = Strict.allChunks DffForm.done (Walk.formChunk sys) {}
      (chunkBytes (ascii "FVER") (encode true 4 file.version.toNat) ++ (othersBytes file.before ++ file.propTail)) := by
    rw [Walk.form, DffFile.bytes, Strict.bind_ok (Strict.passes_expect _ _),
      Strict.bind_ok (strict_number true file.formSize.toNat_lt _), Strict.bind_ok (Strict.passes_expect _ _)]
    rfl
  have passes := version (othersBytes file.before ++ file.propTail)
  rw [List.append_assoc] at passes
  rw [entry, chunkBytes, encode_length, show 4 % 2 = 0 from rfl, List.replicate_zero, List.append_nil,
    List.append_assoc,

    Strict.allChunks_tag formChunk_shrinks rfl tag.length, List.append_assoc]
  rw [encode_length] at passes
  rw [Strict.bind_ok passes, others_walk rfl file.propTail_front, file.walk_propTail]
  split_ifs <;> simp_all

end Walk

/-- The blocks for the interleave function are the data of the file and nothing else. -/
def DffFile.Plays (sys : System) (file : DffFile) : Prop := ∀ junk, ∃ turns, ∀ fuel, turns ≤ fuel →
  ∃ blocks t, playDff sys fuel ⟨file.bytes, junk⟩ = .ok (blocks, t) ∧
    Cuts (file.channelNum.toNat * DSF_BLOCK_SIZE) file.data blocks

/-- The reader gets over all the chunks in front of the data; there are channels, and unless
there is no data, two blocks have room. -/
def DffFile.Playable (sys : System) (file : DffFile) : Prop :=
  file.Readable sys ∧ file.channelNum ≠ 0 ∧
    (file.data = [] ∨ 2 * (file.channelNum.toNat * DSF_BLOCK_SIZE) ≤ sys.stack)

/-- For a channel count of two bytes nothing wraps. -/
theorem blockSize_word {channelNum : Nat} (small : channelNum < 2 ^ 16) :
    blockSize channelNum = channelNum * DSF_BLOCK_SIZE ∧ (bytesPerFrame channelNum ≠ 0 ↔ channelNum ≠ 0) := by
  unfold blockSize bytesPerFrame DSF_BLOCK_SIZE formatWidth
  rw [Int.bmod_def]
  constructor
  · split_ifs <;> omega
  · omega

theorem DffFile.play_readable {file : DffFile} (readable : file.Readable sys) (junk : Stream' UInt8) :
    ∃ turns junk', ∀ fuel, turns ≤ fuel → playDff sys fuel ⟨file.bytes, junk⟩ =
      play sys file.params ⟨file.data ++ file.metadata, junk'⟩ := by
  have tracks : TracksAt (Walk.form sys file.bytes) (fun fuel => readDffForm sys fuel) file.bytes :=
    tracks_form.inside file.bytes
  have walk : Walk.form sys file.bytes = .ok (file.form, file.data ++ file.metadata) := by
    rw [file.walk, if_pos ⟨readable.before, readable.props, readable.after⟩]
  obtain ⟨-, k, turns, found⟩ := tracks.found _ _ walk
  refine ⟨turns, junk.drop k, fun fuel enough => ?_⟩
  have read := (found fuel junk).resolve_right fun few => absurd enough (Nat.not_le.mpr few.1)
  exact bind_ok (bind_ok read _) _

theorem DffFile.Plays.readable {file : DffFile} (plays : file.Plays sys) : file.Readable sys := by
  by_contra not_readable
  have tracks : TracksAt (Walk.form sys file.bytes) (fun fuel => readDffForm sys fuel) file.bytes :=
    tracks_form.inside file.bytes
  have walk : Walk.form sys file.bytes = .error .large := by
    rw [file.walk, if_neg fun good => not_readable ⟨good.1, good.2.1, good.2.2⟩]
  obtain ⟨turns, played⟩ := plays (Stream'.const 0)
  obtain ⟨blocks, t, run, -⟩ := played turns (le_refl _)
  obtain ⟨e, -, stopped⟩ := bind_stalls (bind_stalls (tracks.large walk turns (Stream'.const 0)) _) (play sys)
  cases run.symm.trans stopped

theorem dff_plays_iff (sys : System) (file : DffFile) : file.Plays sys ↔ file.Playable sys := by
  have taken : (file.data ++ file.metadata).take file.data.length = file.data := List.take_left
  have small := file.channelNum.toNat_lt
  obtain ⟨size, frames⟩ := blockSize_word small
  have channels : file.channelNum.toNat ≠ 0 ↔ file.channelNum ≠ 0 := by
    rw [ne_eq, ne_eq, ← UInt16.toNat_inj]
    rfl
  have none : file.data.length = 0 ↔ file.data = [] := List.length_eq_zero_iff
  constructor
  · intro plays
    obtain ⟨turns, junk', same⟩ := DffFile.play_readable plays.readable (Stream'.const 0)
    obtain ⟨turns', played⟩ := plays (Stream'.const 0)
    have played := played (max turns turns') (le_max_right _ _)
    rw [same _ (le_max_left _ _)] at played
    obtain ⟨-, some_frames, room, -⟩ := (play_iff sys file.params _ file.data).mp played
    refine ⟨plays.readable, channels.mp (frames.mp some_frames), room.imp none.mp fun room => ?_⟩
    have fits : 2 * blockSize file.channelNum.toNat ≤ sys.stack := room.2
    rw [size] at fits
    exact_mod_cast fits
  · rintro ⟨readable, some_channels, room⟩ junk
    obtain ⟨turns, junk', same⟩ := DffFile.play_readable readable junk
    refine ⟨turns, fun fuel enough => ?_⟩
    rw [same fuel enough]
    refine (play_iff sys file.params _ file.data).mpr ⟨taken, frames.mpr (channels.mpr some_channels), ?_, ?_⟩
    · refine room.imp none.mpr fun room => ?_
      change 0 < blockSize file.channelNum.toNat ∧ 2 * blockSize file.channelNum.toNat ≤ sys.stack
      have positive := Nat.mul_pos (Nat.pos_of_ne_zero (channels.mpr some_channels))
        (show 0 < DSF_BLOCK_SIZE by decide)
      rw [size]
      exact ⟨by exact_mod_cast positive, by exact_mod_cast room⟩
    · right
      change file.channelNum.toNat * DSF_BLOCK_SIZE < 2 ^ 32
      unfold DSF_BLOCK_SIZE
      omega

/-- When what is played of either kind of file is its data and nothing else. -/
theorem plays_iff (sys : System) : (∀ file : DsfFile, file.Plays sys ↔ file.Playable sys) ∧
    ∀ file : DffFile, file.Plays sys ↔ file.Playable sys :=
  ⟨dsf_plays_iff sys, dff_plays_iff sys⟩

/-- A block of two channels and metadata behind it: twelve bytes of that are played as well. -/
theorem plays_metadata : ¬ DsfFile.Plays ⟨8 * 2 ^ 20, by decide, 2 ^ 63 - 1, by decide⟩
    { fileSize := 8300, metadataPtr := 8284, formatVersion := 1, formatId := 0, channelType := 2,
      channelNum := 2, samplingFreq := 2822400, bitsPerSample := 1, sampleCount := 32768,
      data := List.replicate 8192 0x69, metadata := ascii "ID3" ++ List.replicate 13 0,
      fits := by rw [List.length_replicate]; decide } :=
  fun plays => absurd ((dsf_plays_iff _ _).mp plays).1 (by decide)

end ImxTest.Dsd
