import ImxTest.Lib.Marker
import ImxTest.Lib.While

/-! The motion JPEG stream of mxc_vpu_test/dec.c, cut into chunks in front of each SOI marker
(READ_WHOLE_FILE is not defined). -/
namespace ImxTest.Vpu.Mjpg
open Lib Lib.Marker Lib.While

def STREAM_BUF_SIZE : Nat := 0x200000

/-- The marker SOI. -/
def soi : List UInt8 := [0xFF, 0xD8]

/-- A read runs over the end of the cache. -/
inductive Fault where
  | overrun
deriving DecidableEq, Repr

/-- The cache holds the bytes in front of `mjpg_wr_ptr`; `src` is what `vpu_read` gives call by call,
`none` where it fails and nothing more behind the last. -/
structure Decode where
  mjpgScState : Nat := 0
  mjpgRdPtr : Nat := 0
  mjpgCachedBsbuf : List UInt8 := []
  mjpgEof : Bool := false
  virtBsbuf : List UInt8 := []
  src : List (Option (List UInt8))

def Decode.mjpgWrPtr (d : Decode) : Nat := d.mjpgCachedBsbuf.length

/-- The state behind the bytes that are looked at, and how many these are. -/
def scanSoi : (state : Nat) → List UInt8 → Nat × Nat
  | state, [] => (state, 0)
  | state, byte :: buf =>
    let next (state : Nat) := ((scanSoi state buf).1, (scanSoi state buf).2 + 1)
    match state with
    | 0 => next (if byte = 0xFF then 1 else 0)
    | 1 => if byte = 0xD8 then (2, 1) else next (if byte ≠ 0xFF then 0 else 1)
    | 2 => next (if byte = 0xFF then 1 else 0)
    | state => next state

/-- The new state, and the position behind the marker or -1. -/
def mjpgSeekSoi (state : Nat) (buf : List UInt8) : Nat × Int :=
  ((scanSoi state buf).1, if (scanSoi state buf).1 = 2 then (scanSoi state buf).2 else -1)

def Decode.put (d : Decode) (bytes : List UInt8) : Except Fault Decode :=
  if d.mjpgWrPtr + bytes.length ≤ STREAM_BUF_SIZE then
    .ok { d with mjpgCachedBsbuf := d.mjpgCachedBsbuf ++ bytes }
  else .error .overrun

/-- The second half of the loop's body: a marker is looked for in what is not read yet. -/
def Decode.seek (d : Decode) : Turn Decode (Int × Decode) :=
  let (state, pos) := mjpgSeekSoi d.mjpgScState (d.mjpgCachedBsbuf.drop d.mjpgRdPtr)
  if pos < 0 then .again { d with mjpgScState := state, mjpgRdPtr := d.mjpgWrPtr }
  else
    let rdPtr := d.mjpgRdPtr + pos.toNat
    .leave (rdPtr,
      { d with mjpgScState := state, mjpgRdPtr := rdPtr, virtBsbuf := d.mjpgCachedBsbuf.take (rdPtr - 2) })

/-- The body of the loop of `mjpg_read_chunk_till_soi`. -/
def tillSoiTurn (d : Decode) : Except Fault (Turn Decode (Int × Decode)) :=
  if d.mjpgRdPtr = d.mjpgWrPtr then
    match d.src.headD (some []) with
    | none => .ok (.leave (-1, { d with src := d.src.tail }))
    | some [] =>
      if d.mjpgEof then .ok (.leave (0, { d with src := d.src.tail }))
      else do
        let d ← d.put soi
        return { d with src := d.src.tail, mjpgEof := true }.seek
    | some bytes => do
      let d ← d.put bytes
      return { d with src := d.src.tail }.seek
  else .ok d.seek

/-- The bytes that are done with leave the cache. -/
def Decode.shift (d : Decode) : Decode :=
  if d.mjpgRdPtr > 2 then
    { d with mjpgCachedBsbuf := d.mjpgCachedBsbuf.drop (d.mjpgRdPtr - 2), mjpgRdPtr := 2 }
  else d

/-- The loop makes so many turns at most; `none` when these are too few. -/
def mjpgReadChunkTillSoi (fuel : Nat) (d : Decode) : Option (Except Fault (Int × Decode)) :=
  run tillSoiTurn fuel d.shift

def mjpgReadChunk (fuel : Nat) (d : Decode) : Option (Except Fault (Int × Decode)) :=
  if d.mjpgRdPtr = 0 then
    match mjpgReadChunkTillSoi fuel d with
    | some (.ok (ret, d)) => if ret ≤ 0 then some (.ok (ret, d)) else mjpgReadChunkTillSoi fuel d
    | stopped => stopped
  else mjpgReadChunkTillSoi fuel d

/-- A call of `mjpg_read_chunk` comes back with `ret`. -/
def Returns (d : Decode) (ret : Int) (d' : Decode) : Prop :=
  ∃ fuel, mjpgReadChunk fuel d = some (.ok (ret, d'))

/-- What the successive calls copy to the bitstream buffer, up to the first of those that return 0. -/
inductive Chunks : Decode → List (List UInt8) → Prop where
  | eof {d d' : Decode} : Returns d 0 d' → Returns d' 0 d' → Chunks d []
  | chunk {d d' : Decode} {chunks : List (List UInt8)} : Returns d (d'.virtBsbuf.length + 2) d' →
      Chunks d' chunks → Chunks d (d'.virtBsbuf :: chunks)

/-! ## What the cache is to hold -/

/-- The end of the bytes read that a cut in front of each marker leaves behind. -/
def Kept (bytes last : List UInt8) : Prop :=
  ∃ done, bytes = done ++ last ∧
    (done = [] ∧ Free 0xFF 0xD8 last ∨ soi <+: last ∧ Free 0xFF 0xD8 last.tail)

/-- Behind what is kept there is room for so many bytes. -/
def Room (bytes : List UInt8) (n : Nat) : Prop := ∀ last, Kept bytes last → last.length + n ≤ STREAM_BUF_SIZE

/-- Every read has room in the cache behind the chunk that is not complete yet, and so has the
marker that is put at the end. -/
def Fits : (bytes : List UInt8) → List (List UInt8) → Prop
  | bytes, [] => Room bytes soi.length
  | bytes, r :: reads => Room bytes r.length ∧ Fits (bytes ++ r) reads

/-! ## The scan -/

theorem scanSoi_cons {state : Nat} (small : state ≤ 2) (byte : UInt8) (buf : List UInt8) :
    scanSoi state (byte :: buf) =
      if state = 1 ∧ byte = 0xD8 then (2, 1)
      else
        let next := scanSoi (if byte = 0xFF then 1 else 0) buf
        (next.1, next.2 + 1) := by
  obtain rfl | rfl | rfl : state = 0 ∨ state = 1 ∨ state = 2 := by omega
  · rfl
  · simp only [scanSoi, true_and, ite_not]
  · rfl

theorem scanSoi_found {state n : Nat} {buf : List UInt8} (small : state ≤ 2)
    (found : Marker.seek 0xFF 0xD8 (state = 1) buf = some n) : scanSoi state buf = (2, n) := by
  induction buf generalizing state n with
  | nil => simp [Marker.seek] at found
  | cons byte buf ih =>
    rw [scanSoi_cons small]
    rw [Marker.seek] at found
    split at found
    · rename_i here
      rw [if_pos (by simpa using here), Option.some.inj found]
    · rename_i later
      obtain ⟨m, below, rfl⟩ := Option.map_eq_some_iff.mp found
      rw [if_neg (by simpa using later), ih (n := m) (by split <;> decide)]
      by_cases first : byte = 0xFF <;> simpa [first] using below

/-- Without a marker the state says whether the last byte may begin one. -/
theorem scanSoi_none {state : Nat} {buf : List UInt8} (small : state ≤ 2)
    (found : Marker.seek 0xFF 0xD8 (state = 1) buf = none) (some_byte : buf ≠ []) :
    (scanSoi state buf).1 = if armedBy 0xFF (state = 1) buf then 1 else 0 := by
  induction buf generalizing state with
  | nil => exact absurd rfl some_byte
  | cons byte buf ih =>
    rw [scanSoi_cons small]
    rw [Marker.seek] at found
    split at found
    · simp at found
    · rename_i later
      rw [if_neg (by simpa using later)]
      have below := Option.map_eq_none_iff.mp found
      cases buf with
      | nil => by_cases first : byte = 0xFF <;> simp [scanSoi, armedBy, first]
      | cons byte' buf =>
        by_cases first : byte = 0xFF
        · simp only [first, if_true, armedBy, decide_true] at below ⊢
          exact ih (by decide) below (by simp)
        · simp only [first, if_false, armedBy, decide_false] at below ⊢
          exact ih (by decide) below (by simp)

/-! ## The loop -/

/-- The cache in front of a scan: `lead` and `p` are looked at already, `q` is not. -/
structure At (d : Decode) (lead p q : List UInt8) (reads : List (List UInt8)) : Prop where
  small : d.mjpgScState ≤ 2
  armed : decide (d.mjpgScState = 1) = armedBy 0xFF false p
  cache : d.mjpgCachedBsbuf = lead ++ p ++ q
  rdPtr : d.mjpgRdPtr = lead.length + p.length
  src : d.src = reads.map some
  free : Marker.seek 0xFF 0xD8 false p = none

/-- A chunk is found. What is left of the stream, with the marker that is to be put at its end. -/
structure Found (d : Decode) (chunk q : List UInt8) (reads : List (List UInt8)) : Prop where
  state : d.mjpgScState = 2
  cache : d.mjpgCachedBsbuf = chunk ++ soi ++ q
  rdPtr : d.mjpgRdPtr = chunk.length + 2
  copied : d.virtBsbuf = chunk
  src : d.src = reads.map some
  some_bytes : ∀ r ∈ reads, r ≠ []
  goesOn : d.mjpgEof = false → ∃ done, Fits (done ++ soi ++ q) reads
  ended : d.mjpgEof = true → q = [] ∧ reads = []

def ahead (eof : Bool) (q : List UInt8) (reads : List (List UInt8)) : List UInt8 :=
  q ++ reads.flatten ++ if eof then [] else soi

variable {d d' : Decode} {lead p q done : List UInt8} {reads : List (List UInt8)} {n : Nat}

theorem seek_found (here : At d lead p q reads) (found : Marker.seek 0xFF 0xD8 (armedBy 0xFF false p) q = some n) :
    ∃ before, p ++ q = before ++ soi ++ q.drop n ∧ Free 0xFF 0xD8 (before ++ [0xFF]) ∧
      d.seek = .leave (((lead ++ before).length + 2 : Nat),
        { d with mjpgScState := 2, mjpgRdPtr := (lead ++ before).length + 2, virtBsbuf := lead ++ before }) := by
  have whole : Marker.seek 0xFF 0xD8 false (p ++ q) = some (p.length + n) := by
    rw [seek_append, here.free, found]
    rfl
  obtain ⟨before, parts, -, length, free⟩ := seek_some whole
  rw [List.drop_length_add_append] at parts
  simp only [begun, Bool.false_eq_true, if_false, List.nil_append, List.length_nil, Nat.zero_add] at parts length
  have unread : d.mjpgCachedBsbuf.drop d.mjpgRdPtr = q := by
    rw [here.cache, here.rdPtr, ← List.length_append, List.drop_left]
  rw [← here.armed] at found
  have position : d.mjpgRdPtr + n = (lead ++ before).length + 2 := by
    rw [here.rdPtr, List.length_append]
    omega
  have copied : d.mjpgCachedBsbuf.take ((lead ++ before).length + 2 - 2) = lead ++ before := by
    have cells : d.mjpgCachedBsbuf = lead ++ before ++ (soi ++ q.drop n) := by
      rw [here.cache, List.append_assoc lead, parts]
      simp only [List.append_assoc, soi]
    rw [Nat.add_sub_cancel, cells, List.take_left]
  refine ⟨before, parts, free, ?_⟩
  unfold Decode.seek mjpgSeekSoi
  rw [unread, scanSoi_found here.small found]
  simp only [if_true, Int.toNat_natCast, if_neg (Int.not_lt.mpr (Int.natCast_nonneg n)), position, copied]

theorem seek_none (here : At d lead p q reads) (some_byte : q ≠ [])
    (found : Marker.seek 0xFF 0xD8 (armedBy 0xFF false p) q = none) :
    ∃ d', d.seek = .again d' ∧ At d' lead (p ++ q) [] reads ∧ d'.mjpgEof = d.mjpgEof := by
  have unread : d.mjpgCachedBsbuf.drop d.mjpgRdPtr = q := by
    rw [here.cache, here.rdPtr, ← List.length_append, List.drop_left]
  have armed : armedBy 0xFF false (p ++ q) = armedBy 0xFF (decide (d.mjpgScState = 1)) q := by
    rw [armedBy_append, here.armed]
  have free : Marker.seek 0xFF 0xD8 false (p ++ q) = none := by
    rw [seek_append, here.free, found]
    rfl
  rw [← here.armed] at found
  have state := scanSoi_none here.small found some_byte
  rw [← armed] at state
  have watching : (if armedBy 0xFF false (p ++ q) = true then 1 else 0) ≠ 2 := by split <;> decide
  refine ⟨{ d with mjpgScState := if armedBy 0xFF false (p ++ q) then 1 else 0, mjpgRdPtr := d.mjpgWrPtr }, ?_, ?_, rfl⟩
  · unfold Decode.seek mjpgSeekSoi
    rw [unread]
    simp only [state, if_neg watching]
    rfl
  · refine ⟨?_, ?_, ?_, ?_, here.src, free⟩
    · dsimp only
      split <;> decide
    · cases armedBy 0xFF false (p ++ q) <;> rfl
    · simp [here.cache]
    · simp [Decode.mjpgWrPtr, here.cache]

theorem put_fits {bytes : List UInt8} (room : d.mjpgWrPtr + bytes.length ≤ STREAM_BUF_SIZE) :
    d.put bytes = .ok { d with mjpgCachedBsbuf := d.mjpgCachedBsbuf ++ bytes } := if_pos room

theorem turn_read {r : List UInt8} (here : At d lead p [] (r :: reads)) (some_byte : r ≠ [])
    (room : (lead ++ p).length + r.length ≤ STREAM_BUF_SIZE) :
    ∃ d', tillSoiTurn d = .ok d'.seek ∧ At d' lead p r reads ∧ d'.mjpgEof = d.mjpgEof := by
  have full : d.mjpgCachedBsbuf = lead ++ p := by rw [here.cache, List.append_nil]
  have drained : d.mjpgRdPtr = d.mjpgWrPtr := by rw [Decode.mjpgWrPtr, full, here.rdPtr, List.length_append]
  refine ⟨{ d with mjpgCachedBsbuf := d.mjpgCachedBsbuf ++ r, src := d.src.tail }, ?_, ?_, rfl⟩
  · cases r with
    | nil => exact absurd rfl some_byte
    | cons byte r =>
      unfold tillSoiTurn
      rw [if_pos drained, here.src]
      simp only [List.map_cons, List.headD_cons]
      rw [put_fits (by rwa [Decode.mjpgWrPtr, full]), here.src]
      rfl
  · exact ⟨here.small, here.armed, by rw [full], here.rdPtr, by simp [here.src], here.free⟩

theorem turn_pad (here : At d lead p [] []) (open_ : d.mjpgEof = false)
    (room : (lead ++ p).length + soi.length ≤ STREAM_BUF_SIZE) :
    ∃ d', tillSoiTurn d = .ok d'.seek ∧ At d' lead p soi [] ∧ d'.mjpgEof = true := by
  have full : d.mjpgCachedBsbuf = lead ++ p := by rw [here.cache, List.append_nil]
  have drained : d.mjpgRdPtr = d.mjpgWrPtr := by rw [Decode.mjpgWrPtr, full, here.rdPtr, List.length_append]
  refine ⟨{ d with mjpgCachedBsbuf := d.mjpgCachedBsbuf ++ soi, src := d.src.tail, mjpgEof := true }, ?_, ?_, rfl⟩
  · unfold tillSoiTurn
    rw [if_pos drained, here.src]
    simp only [List.map_nil, List.headD_nil]
    rw [if_neg (by simp [open_]), put_fits (by rwa [Decode.mjpgWrPtr, full]), here.src]
    rfl
  · exact ⟨here.small, here.armed, by rw [full], here.rdPtr, by simp [here.src], here.free⟩

theorem turn_eof (drained : d.mjpgRdPtr = d.mjpgWrPtr) (src : d.src = []) (closed : d.mjpgEof = true) :
    tillSoiTurn d = .ok (.leave (0, d)) := by
  cases d
  subst src
  exact (if_pos drained).trans (if_pos closed)

/-- The loop comes to the first marker in what is ahead. -/
def Reaches (d : Decode) (lead p q : List UInt8) (reads : List (List UInt8)) : Prop :=
  ∃ before d' q' reads', Ends tillSoiTurn d (.ok (((lead ++ before).length + 2 : Nat), d')) ∧
    Found d' (lead ++ before) q' reads' ∧ Free 0xFF 0xD8 (before ++ [0xFF]) ∧
    p ++ ahead false q reads = before ++ soi ++ ahead d'.mjpgEof q' reads'

/-- The bytes looked at are all of the stream that is read, or they begin with the last marker. -/
def Chunked (done lead p : List UInt8) : Prop := done = [] ∧ lead = [] ∨ lead = [0xFF] ∧ [0xD8] <+: p

theorem Chunked.kept (chunked : Chunked done lead p) (free : Marker.seek 0xFF 0xD8 false p = none) :
    Kept (done ++ lead ++ p) (lead ++ p) := by
  have clean : Free 0xFF 0xD8 p := seek_none_iff.mp free
  refine ⟨done, List.append_assoc .., ?_⟩
  rcases chunked with ⟨rfl, rfl⟩ | ⟨rfl, first⟩
  · exact .inl ⟨rfl, clean⟩
  · exact .inr ⟨List.cons_prefix_cons.mpr ⟨rfl, first⟩, clean⟩

theorem Chunked.append (chunked : Chunked done lead p) (r : List UInt8) : Chunked done lead (p ++ r) :=
  chunked.imp id fun first => ⟨first.1, first.2.trans (List.prefix_append ..)⟩

theorem found_reaches {d₀ : Decode} (turn : tillSoiTurn d₀ = .ok d.seek) (here : At d lead p q reads)
    (some_bytes : ∀ r ∈ reads, r ≠ [])
    (found : Marker.seek 0xFF 0xD8 (armedBy 0xFF false p) q = some n)
    (goesOn : d.mjpgEof = false → Fits (done ++ lead ++ p ++ q) reads)
    (ended : d.mjpgEof = true → q.drop n = [] ∧ reads = []) :
    ∃ before d', Ends tillSoiTurn d₀ (.ok (((lead ++ before).length + 2 : Nat), d')) ∧
      Found d' (lead ++ before) (q.drop n) reads ∧ Free 0xFF 0xD8 (before ++ [0xFF]) ∧
      p ++ q = before ++ soi ++ q.drop n ∧ d'.mjpgEof = d.mjpgEof := by
  obtain ⟨before, parts, free, left⟩ := seek_found here found
  refine ⟨before, _, ends_leave (turn.trans (congrArg _ left)), ?_, free, parts, rfl⟩
  refine ⟨rfl, ?_, rfl, rfl, here.src, some_bytes, fun open_ => ⟨done ++ lead ++ before, ?_⟩, ended⟩
  · rw [here.cache, List.append_assoc lead, parts]
    simp only [List.append_assoc]
  · have fits := goesOn open_
    rw [List.append_assoc _ p, parts] at fits
    simpa only [List.append_assoc] using fits

/-- From a scan on, when the loop goes on rightly from the end of what is read. -/
theorem scan_reaches {d₀ : Decode} (turn : tillSoiTurn d₀ = .ok d.seek) (here : At d lead p q reads)
    (open_ : d.mjpgEof = false) (some_byte : q ≠ []) (some_bytes : ∀ r ∈ reads, r ≠ [])
    (fits : Fits (done ++ lead ++ p ++ q) reads)
    (drained : ∀ d₁, At d₁ lead (p ++ q) [] reads → d₁.mjpgEof = false → Reaches d₁ lead (p ++ q) [] reads) :
    Reaches d₀ lead p q reads := by
  cases found : Marker.seek 0xFF 0xD8 (armedBy 0xFF false p) q with
  | some n =>
    obtain ⟨before, d', ended, result, free, parts, eof⟩ := found_reaches turn here some_bytes found (fun _ => fits)
      (fun closed => by rw [open_] at closed; cases closed)
    refine ⟨before, d', q.drop n, reads, ended, result, free, ?_⟩
    rw [eof, open_]
    simp only [ahead, ← List.append_assoc]
    rw [parts]
  | none =>
    obtain ⟨d₁, again, next, eof⟩ := seek_none here some_byte found
    obtain ⟨before, d', q', reads', ended, result, free, parts⟩ := drained d₁ next (eof.trans open_)
    refine ⟨before, d', q', reads', (ends_again (turn.trans (congrArg _ again))).mpr ended, result, free, ?_⟩
    rw [← parts]
    simp only [ahead, List.append_assoc, List.nil_append]

/-- From where all bytes that are read are looked at. -/
theorem drained_reaches (here : At d lead p [] reads) (open_ : d.mjpgEof = false) (chunked : Chunked done lead p)
    (some_bytes : ∀ r ∈ reads, r ≠ []) (fits : Fits (done ++ lead ++ p) reads) :
    Reaches d lead p [] reads := by
  induction reads generalizing d p with
  | nil =>
    obtain ⟨d₁, turn, next, eof⟩ := turn_pad here open_ (fits _ (chunked.kept here.free))
    have found : Marker.seek 0xFF 0xD8 (armedBy 0xFF false p) soi = some 2 := by
      cases armedBy 0xFF false p <;> decide
    obtain ⟨before, d', ended, result, free, parts, eof'⟩ := @found_reaches _ _ _ _ done _ _ _ turn next some_bytes found
      (fun still => by rw [eof] at still; cases still) (fun _ => ⟨rfl, rfl⟩)
    refine ⟨before, d', _, _, ended, result, free, ?_⟩
    rw [eof', eof]
    simpa [ahead] using parts
  | cons r reads ih =>
    obtain ⟨some_byte, some_bytes⟩ := List.forall_mem_cons.mp some_bytes
    obtain ⟨d₁, turn, next, eof⟩ := turn_read here some_byte (fits.1 _ (chunked.kept here.free))
    have reached : Reaches d lead p r reads := by
      refine scan_reaches turn next (eof.trans open_) some_byte some_bytes fits.2 fun d₂ last still => ?_
      exact ih last still (chunked.append r) some_bytes (by simpa only [List.append_assoc] using fits.2)
    simpa [Reaches, ahead] using reached

theorem reaches (here : At d lead p q reads) (open_ : d.mjpgEof = false) (chunked : Chunked done lead p)
    (some_bytes : ∀ r ∈ reads, r ≠ []) (fits : Fits (done ++ lead ++ p ++ q) reads) :
    Reaches d lead p q reads := by
  by_cases empty : q = []
  · subst empty
    exact drained_reaches here open_ chunked some_bytes (by simpa using fits)
  · have behind : d.mjpgRdPtr ≠ d.mjpgWrPtr := by
      have longer := List.length_pos_iff.mpr empty
      rw [Decode.mjpgWrPtr, here.cache, here.rdPtr]
      simp only [List.length_append]
      omega
    refine scan_reaches (if_neg behind) here open_ empty some_bytes fits fun d₁ last still => ?_
    exact drained_reaches last still (chunked.append q) some_bytes (by simpa only [List.append_assoc] using fits)

/-! ## The calls -/

theorem mjpgReadChunk_more {fuel : Nat} {outcome : Except Fault (Int × Decode)}
    (enough : mjpgReadChunk fuel d = some outcome) (extra : Nat) : mjpgReadChunk (fuel + extra) d = some outcome := by
  unfold mjpgReadChunk mjpgReadChunkTillSoi at *
  split at enough
  · rename_i first
    rw [if_pos first]
    cases seen : run tillSoiTurn fuel d.shift with
    | none => simp [seen] at enough
    | some stopped =>
      rw [run_more seen]
      rw [seen] at enough
      cases stopped with
      | error fault => exact enough
      | ok result =>
        dsimp only at enough ⊢
        split at enough
        · rename_i failed
          rw [if_pos failed]
          exact enough
        · rename_i more
          rw [if_neg more]
          exact run_more enough extra
  · rename_i later
    rw [if_neg later]
    exact run_more enough extra

theorem Returns.unique {ret ret' : Int} {d₁ d₂ : Decode} (one : Returns d ret d₁) (two : Returns d ret' d₂) :
    ret = ret' ∧ d₁ = d₂ := by
  obtain ⟨m, one⟩ := one
  obtain ⟨n, two⟩ := two
  have left := mjpgReadChunk_more one n
  have right := mjpgReadChunk_more two m
  rw [Nat.add_comm] at right
  simpa using left.symm.trans right

theorem Chunks.unique {first second : List (List UInt8)} (one : Chunks d first) (two : Chunks d second) :
    first = second := by
  induction one generalizing second with
  | eof left _ =>
    cases two with
    | eof _ _ => rfl
    | chunk right _ =>
      have same := (left.unique right).1
      omega
  | chunk left _ ih =>
    cases two with
    | eof right _ =>
      have same := (left.unique right).1
      omega
    | chunk right rest =>
      obtain rfl := (left.unique right).2
      rw [ih rest]

theorem returns_later {ret : Int} (later : d.mjpgRdPtr ≠ 0) (ended : Ends tillSoiTurn d.shift (.ok (ret, d'))) :
    Returns d ret d' := by
  obtain ⟨fuel, ended⟩ := ended
  exact ⟨fuel, (if_neg later).trans ended⟩

theorem returns_first {ret ret' : Int} {d₁ : Decode} (first : d.mjpgRdPtr = 0)
    (junk : Ends tillSoiTurn d.shift (.ok (ret, d₁))) (found : 0 < ret)
    (ended : Ends tillSoiTurn d₁.shift (.ok (ret', d'))) : Returns d ret' d' := by
  obtain ⟨m, junk⟩ := junk
  obtain ⟨n, ended⟩ := ended
  refine ⟨m + n, ?_⟩
  unfold mjpgReadChunk mjpgReadChunkTillSoi
  rw [if_pos first, run_more junk]
  dsimp only
  rw [if_neg (Int.not_le.mpr found), Nat.add_comm]
  exact run_more ended m

section Found
variable {c : List UInt8}

theorem Found.shift_eq (found : Found d c q reads) :
    d.shift = { d with mjpgCachedBsbuf := soi ++ q, mjpgRdPtr := 2 } := by
  have cut : d.mjpgCachedBsbuf.drop c.length = soi ++ q := by
    rw [found.cache, List.append_assoc, List.drop_left]
  unfold Decode.shift
  split
  · rw [found.rdPtr, Nat.add_sub_cancel, cut]
  · rename_i first
    have empty : c.length = 0 := by
      have place := found.rdPtr
      omega
    rw [empty, List.drop_zero] at cut
    have place : d.mjpgRdPtr = 2 := by rw [found.rdPtr, empty]
    rw [← cut, ← place]

/-- Behind the last chunk a call changes nothing any more. -/
theorem Found.last (found : Found d c q reads) (closed : d.mjpgEof = true) :
    Ends tillSoiTurn d.shift (.ok (0, d.shift)) ∧ Returns d.shift 0 d.shift := by
  obtain ⟨rfl, rfl⟩ := found.ended closed
  have same := found.shift_eq
  have ended : Ends tillSoiTurn d.shift (.ok (0, d.shift)) := by
    refine ends_leave ?_
    rw [same]
    exact turn_eof rfl found.src closed
  have rdPtr : d.shift.mjpgRdPtr = 2 := by rw [same]
  refine ⟨ended, returns_later (by omega) ?_⟩
  have again : d.shift.shift = d.shift := if_neg (by omega)
  rw [again]
  exact ended

/-- The next chunk. -/
theorem Found.next (found : Found d c q reads) (open_ : d.mjpgEof = false) :
    ∃ chunk d' q' reads', Ends tillSoiTurn d.shift (.ok ((chunk.length + 2 : Nat), d')) ∧ Found d' chunk q' reads' ∧
      soi <+: chunk ∧ Free 0xFF 0xD8 chunk.tail ∧
      soi ++ ahead false q reads = chunk ++ soi ++ ahead d'.mjpgEof q' reads' := by
  obtain ⟨done, fits⟩ := found.goesOn open_
  have same := found.shift_eq
  have here : At d.shift [0xFF] [0xD8] q reads := by
    rw [same]
    exact ⟨Nat.le_of_eq found.state, by rw [found.state]; decide, rfl, rfl, found.src, by decide⟩
  have goes : d.shift.mjpgEof = false := by
    rw [same]
    exact open_
  obtain ⟨before, d', q', reads', ended, result, free, parts⟩ :=
    @reaches _ _ _ _ done _ here goes (.inr ⟨rfl, List.prefix_rfl⟩) found.some_bytes (by simpa [soi] using fits)
  refine ⟨0xFF :: before, d', q', reads', ended, result, ?_, ?_, ?_⟩
  · refine List.cons_prefix_cons.mpr ⟨rfl, ?_⟩
    cases before with
    | nil => simp [soi] at parts
    | cons x before =>
      obtain ⟨rfl, -⟩ := List.cons.inj parts
      exact ⟨before, rfl⟩
  · exact fun inside => free (inside.trans (List.infix_append' [] _ _))
  · exact congrArg (0xFF :: ·) parts

end Found

/-- The chunks from the first marker on, wherever the calls begin. -/
theorem exists_chunks {c : List UInt8} {d₀ : Decode} (found : Found d c q reads)
    (begins : ∀ ret d', Ends tillSoiTurn d.shift (.ok (ret, d')) → Returns d₀ ret d') :
    ∃ chunks, Chunks d₀ chunks ∧ (∀ chunk ∈ chunks, soi <+: chunk ∧ Free 0xFF 0xD8 chunk.tail) ∧
      soi ++ ahead d.mjpgEof q reads = chunks.flatten ++ soi := by
  induction length : (ahead d.mjpgEof q reads).length using Nat.strongRecOn generalizing d d₀ c q reads with
  | ind n ih =>
    cases eof : d.mjpgEof with
    | true =>
      obtain ⟨rfl, rfl⟩ := found.ended eof
      obtain ⟨ended, again⟩ := found.last eof
      exact ⟨[], .eof (begins _ _ ended) again, by simp, by simp [ahead]⟩
    | false =>
      obtain ⟨chunk, d', q', reads', ended, next, starts, free, parts⟩ := found.next eof
      have shorter : (ahead d'.mjpgEof q' reads').length < n := by
        have lengths := congrArg List.length parts
        have two := starts.length_le
        rw [eof] at length
        simp only [List.length_append, soi, List.length_cons, List.length_nil] at lengths two
        omega
      have later : d'.mjpgRdPtr ≠ 0 := by
        rw [next.rdPtr]
        omega
      obtain ⟨chunks, calls, each, whole⟩ :=
        ih _ shorter next (fun _ _ ended => returns_later later ended) rfl
      have copied := next.copied
      subst copied
      refine ⟨d'.virtBsbuf :: chunks, .chunk (begins _ _ ended) calls, List.forall_mem_cons.mpr ⟨⟨starts, free⟩, each⟩,
        ?_⟩
      rw [parts, List.append_assoc, whole]
      simp

/-- A stream that is no longer than the cache fits in any case. -/
theorem fits_of_length {bytes : List UInt8} (short : bytes.length + reads.flatten.length + 2 ≤ STREAM_BUF_SIZE) :
    Fits bytes reads := by
  have room (bytes : List UInt8) (n : Nat) (short : bytes.length + n ≤ STREAM_BUF_SIZE) : Room bytes n := by
    rintro last ⟨done, rfl, -⟩
    rw [List.length_append] at short
    omega
  induction reads generalizing bytes with
  | nil => exact room bytes 2 short
  | cons r reads ih =>
    rw [List.flatten_cons, List.length_append] at short
    refine ⟨room bytes r.length (by omega), ih ?_⟩
    rw [List.length_append]
    omega

/-- The chunks are the stream from its first marker on, cut in front of each marker. -/
theorem mjpgReadChunk_chunks (reads : List (List UInt8)) (some_bytes : ∀ r ∈ reads, r ≠ []) (fits : Fits [] reads) :
    (∃ chunks, Chunks { src := reads.map some } chunks) ∧
      ∀ chunks, Chunks { src := reads.map some } chunks →
        (∀ chunk ∈ chunks, soi <+: chunk ∧ Free 0xFF 0xD8 chunk.tail) ∧
          chunks.flatten = fromFirst 0xFF 0xD8 reads.flatten := by
  have start : At { src := reads.map some } [] [] [] reads := ⟨Nat.zero_le _, rfl, rfl, rfl, rfl, rfl⟩
  obtain ⟨junk, d, q, reads', ended, found, free, parts⟩ := @reaches _ _ _ _ [] _ start rfl (.inl ⟨rfl, rfl⟩) some_bytes fits
  obtain ⟨chunks, calls, each, whole⟩ := exists_chunks found fun ret d' next =>
    returns_first (d := { src := reads.map some }) rfl ended (by omega) next
  refine ⟨⟨chunks, calls⟩, fun other calls' => ?_⟩
  obtain rfl := calls'.unique calls
  refine ⟨each, ?_⟩
  have stream : reads.flatten = junk ++ other.flatten := by
    rw [List.append_assoc, whole] at parts
    simpa [ahead, ← List.append_assoc] using parts
  rw [stream]
  refine (fromFirst_eq free ?_).symm
  cases other with
  | nil => exact .inl rfl
  | cons chunk other => exact .inr ((each chunk (List.mem_cons_self ..)).1.trans (List.prefix_append ..))

/-- Two pictures behind a byte of junk, the first marker in two reads. -/
theorem mjpgReadChunk_chunks_two :
    (∃ chunks, Chunks { src := [some [0x00, 0xFF], some [0xD8, 0x01, 0xFF, 0xD8, 0x02]] } chunks) ∧
      ∀ chunks, Chunks { src := [some [0x00, 0xFF], some [0xD8, 0x01, 0xFF, 0xD8, 0x02]] } chunks →
        (∀ chunk ∈ chunks, soi <+: chunk ∧ Free 0xFF 0xD8 chunk.tail) ∧
          chunks.flatten = [0xFF, 0xD8, 0x01, 0xFF, 0xD8, 0x02] :=
  mjpgReadChunk_chunks [[0x00, 0xFF], [0xD8, 0x01, 0xFF, 0xD8, 0x02]] (by simp) (fits_of_length (by decide))

end ImxTest.Vpu.Mjpg
