import SofaBolt.IOBufferSpec
import SofaBolt.Run

namespace SofaBolt

open Memory IOBuffer Run

structure InputStream where
  byteCount : ℕ
  addOffset : ℕ
  refIndex : ℕ
deriving DecidableEq, Repr

namespace InputStream

def new (buf : IOBuffer) : InputStream := ⟨0, 0, buf.refOffset⟩

/-- `Next`: what `*data` and `*size` stand for, unless it returns false. -/
def next (buf : IOBuffer) (s : InputStream) : Option (Slice × InputStream) :=
  match buf.ref[s.refIndex]? with
  | none => none
  | some slice =>
    some (⟨slice.block, slice.offset + s.addOffset, slice.length - s.addOffset⟩,
      ⟨s.byteCount + (slice.length - s.addOffset), 0, s.refIndex + 1⟩)

def backUp (buf : IOBuffer) (s : InputStream) (count : ℕ) : InputStream :=
  if buf.refOffset < s.refIndex then
    match buf.ref[s.refIndex - 1]? with
    -- an index behind the end of the vector does not occur
    | none => s
    | some slice => ⟨s.byteCount - count, slice.length - count, s.refIndex - 1⟩
  else s

def skipLoop : List Slice → ℕ → InputStream → Bool × InputStream
  | [], _, s => (false, s)
  | slice :: rest, count, s =>
    let leftBytes := slice.length - s.addOffset
    if count < leftBytes then
      (true, { s with byteCount := s.byteCount + count, addOffset := s.addOffset + count })
    else skipLoop rest (count - leftBytes) ⟨s.byteCount + leftBytes, 0, s.refIndex + 1⟩

def skip (buf : IOBuffer) (s : InputStream) (count : ℕ) : Bool × InputStream :=
  skipLoop (buf.ref.drop s.refIndex) count s

variable {buf : IOBuffer} {s s' : InputStream} {slice : Slice} {h : Heap}

def before (buf : IOBuffer) (i : ℕ) : ℕ :=
  (((buf.ref.take i).drop buf.refOffset).map Slice.length).sum

structure Valid (buf : IOBuffer) (s : InputStream) : Prop where
  refOffset_le : buf.refOffset ≤ s.refIndex
  addOffset_le : s.addOffset ≤ ((buf.ref[s.refIndex]?).map Slice.length).getD 0
  byteCount_eq : s.byteCount = before buf s.refIndex + s.addOffset

theorem valid_new (buf : IOBuffer) : Valid buf (new buf) := by
  refine ⟨le_rfl, Nat.zero_le _, ?_⟩
  simp [new, before]

theorem live_eq {i : ℕ} (hi : buf.refOffset ≤ i) :
    buf.live = (buf.ref.take i).drop buf.refOffset ++ buf.ref.drop i := by
  rw [List.drop_take, live]
  conv_lhs => rw [← List.take_append_drop (i - buf.refOffset) (buf.ref.drop buf.refOffset)]
  rw [List.drop_drop, Nat.add_sub_cancel' hi]

theorem before_add {i : ℕ} (hi : buf.refOffset ≤ i) :
    before buf i + ((buf.ref.drop i).map Slice.length).sum = buf.length := by
  rw [IOBuffer.length, live_eq hi, List.map_append, List.sum_append, before]

theorem drop_ref {i : ℕ} (hs : buf.ref[i]? = some slice) :
    buf.ref.drop i = slice :: buf.ref.drop (i + 1) := by
  rw [List.drop_eq_getElem?_toList_append, hs, Option.toList_some, List.singleton_append]

theorem before_succ {i : ℕ} (hi : buf.refOffset ≤ i) (hs : buf.ref[i]? = some slice) :
    before buf (i + 1) = before buf i + slice.length := by
  have h₁ := before_add hi
  have h₂ := before_add (Nat.le_succ_of_le hi)
  rw [drop_ref hs, List.map_cons, List.sum_cons] at h₁
  simp only [Nat.succ_eq_add_one] at h₂
  omega

theorem drop_toString {i : ℕ} (hi : buf.refOffset ≤ i) (n : ℕ) :
    (buf.toString h).drop (before buf i + n) =
      ((buf.ref.drop i).flatMap (Slice.bytes h)).drop n := by
  have hlen : (((buf.ref.take i).drop buf.refOffset).flatMap (Slice.bytes h)).length =
      before buf i := by
    simp [List.length_flatMap, before]
  rw [IOBuffer.toString, live_eq hi, List.flatMap_append, ← List.drop_drop,
    List.drop_left' hlen]

theorem Valid.byteCount_le (hv : Valid buf s) : s.byteCount ≤ buf.length := by
  have hadd := before_add hv.refOffset_le
  have hoff := hv.addOffset_le
  rw [hv.byteCount_eq]
  cases hs : buf.ref[s.refIndex]? with
  | none =>
    simp only [hs, Option.map_none, Option.getD_none] at hoff
    omega
  | some slice =>
    rw [drop_ref hs, List.map_cons, List.sum_cons] at hadd
    simp only [hs, Option.map_some, Option.getD_some] at hoff
    omega

theorem Valid.byteCount_of_none (hv : Valid buf s) (hs : buf.ref[s.refIndex]? = none) :
    s.byteCount = buf.length := by
  have hadd := before_add hv.refOffset_le
  have hoff := hv.addOffset_le
  rw [List.drop_eq_nil_of_le (List.getElem?_eq_none_iff.mp hs)] at hadd
  simp only [hs, Option.map_none, Option.getD_none] at hoff
  rw [hv.byteCount_eq]
  simp only [List.map_nil, List.sum_nil] at hadd
  omega

theorem Valid.addOffset_le_length (hv : Valid buf s) (hs : buf.ref[s.refIndex]? = some slice) :
    s.addOffset ≤ slice.length := by
  simpa [hs] using hv.addOffset_le

theorem Valid.succ (hv : Valid buf s) (hs : buf.ref[s.refIndex]? = some slice) :
    Valid buf ⟨s.byteCount + (slice.length - s.addOffset), 0, s.refIndex + 1⟩ := by
  have hle := hv.addOffset_le_length hs
  refine ⟨Nat.le_succ_of_le hv.refOffset_le, Nat.zero_le _, ?_⟩
  simp only [before_succ hv.refOffset_le hs, hv.byteCount_eq]
  omega

theorem Valid.within (hv : Valid buf s) (hs : buf.ref[s.refIndex]? = some slice) {count : ℕ}
    (hc : s.addOffset + count ≤ slice.length) :
    Valid buf { s with byteCount := s.byteCount + count, addOffset := s.addOffset + count } := by
  refine ⟨hv.refOffset_le, by simpa [hs] using hc, ?_⟩
  rw [hv.byteCount_eq, Nat.add_assoc]

theorem next_eq_none (hv : Valid buf s) (hn : s.next buf = none) : s.byteCount = buf.length := by
  cases hs : buf.ref[s.refIndex]? with
  | none => exact hv.byteCount_of_none hs
  | some slice =>
    rw [next, hs] at hn
    cases hn

theorem next_eq_some (hn : s.next buf = some (slice, s')) :
    ∃ slice₀, buf.ref[s.refIndex]? = some slice₀ ∧
      slice = ⟨slice₀.block, slice₀.offset + s.addOffset, slice₀.length - s.addOffset⟩ ∧
      s' = ⟨s.byteCount + (slice₀.length - s.addOffset), 0, s.refIndex + 1⟩ := by
  cases hs : buf.ref[s.refIndex]? with
  | none =>
    rw [next, hs] at hn
    cases hn
  | some slice₀ =>
    rw [next, hs] at hn
    obtain ⟨rfl, rfl⟩ := Prod.mk.inj (Option.some.inj hn)
    exact ⟨slice₀, rfl, rfl, rfl⟩

theorem next_spec (hv : Valid buf s) (hn : s.next buf = some (slice, s')) :
    Valid buf s' ∧ s'.byteCount = s.byteCount + slice.length := by
  obtain ⟨slice₀, hs, rfl, rfl⟩ := next_eq_some hn
  exact ⟨hv.succ hs, rfl⟩

/-- `Next` returns the bytes at the position, up to the end of a slice. -/
theorem next_bytes (h : Heap) (hv : Valid buf s) (hn : s.next buf = some (slice, s')) :
    slice.bytes h = ((buf.toString h).drop s.byteCount).take slice.length := by
  obtain ⟨slice₀, hs, rfl, rfl⟩ := next_eq_some hn
  have hle := hv.addOffset_le_length hs
  have hbytes : (Slice.bytes h slice₀).drop s.addOffset =
      Slice.bytes h ⟨slice₀.block, slice₀.offset + s.addOffset, slice₀.length - s.addOffset⟩ :=
    readAt_drop _ _ hle
  rw [hv.byteCount_eq, drop_toString hv.refOffset_le, drop_ref hs, List.flatMap_cons,
    List.drop_append_of_le_length (by rwa [Slice.bytes_length]), hbytes]
  exact (List.take_left' (Slice.bytes_length h _)).symm

theorem backUp_spec (hv : Valid buf s) (hn : s.next buf = some (slice, s')) {count : ℕ}
    (hc : count ≤ slice.length) :
    Valid buf (s'.backUp buf count) ∧ (s'.backUp buf count).byteCount = s'.byteCount - count := by
  obtain ⟨slice₀, hs, rfl, rfl⟩ := next_eq_some hn
  have hle := hv.addOffset_le_length hs
  have hlt : buf.refOffset < s.refIndex + 1 := Nat.lt_succ_of_le hv.refOffset_le
  simp only at hc
  simp only [backUp, hlt, if_true, Nat.add_sub_cancel, hs, and_true]
  refine ⟨hv.refOffset_le, by simp [hs], ?_⟩
  simp only [hv.byteCount_eq]
  omega

/-- `Skip` moves on as far as it can, and returns true if it has not come to the end. -/
theorem skipLoop_spec {rest : List Slice} (hv : Valid buf s) (hr : buf.ref.drop s.refIndex = rest)
    (count : ℕ) :
    Valid buf (skipLoop rest count s).2 ∧
      (skipLoop rest count s).2.byteCount = s.byteCount + min count (buf.length - s.byteCount) ∧
      ((skipLoop rest count s).1 = true ↔ s.byteCount + count < buf.length) := by
  induction rest generalizing s count with
  | nil =>
    have hend := hv.byteCount_of_none (List.getElem?_eq_none_iff.mpr (List.drop_eq_nil_iff.mp hr))
    refine ⟨hv, ?_, ?_⟩
    · simp [skipLoop, hend]
    · simp [skipLoop, hend]
  | cons slice rest ih =>
    have hs : buf.ref[s.refIndex]? = some slice := by
      rw [← List.head?_drop, hr, List.head?_cons]
    have hle := hv.addOffset_le_length hs
    have hnext := hv.succ hs
    have hbound := hnext.byteCount_le
    by_cases hc : count < slice.length - s.addOffset
    · simp only [skipLoop, hc, if_true, true_iff]
      simp only at hbound
      refine ⟨hv.within hs (by omega), ?_, by omega⟩
      rw [Nat.min_eq_left (by omega)]
    · have hr' : buf.ref.drop (s.refIndex + 1) = rest := by
        rw [← List.tail_drop, hr, List.tail_cons]
      obtain ⟨h₁, h₂, h₃⟩ := ih hnext hr' (count - (slice.length - s.addOffset))
      simp only [skipLoop, hc, if_false]
      simp only at hbound h₂ h₃
      refine ⟨h₁, ?_, ?_⟩
      · rw [h₂]
        omega
      · rw [h₃]
        omega

theorem skip_spec (hv : Valid buf s) (count : ℕ) :
    Valid buf (s.skip buf count).2 ∧
      (s.skip buf count).2.byteCount = s.byteCount + min count (buf.length - s.byteCount) ∧
      ((s.skip buf count).1 = true ↔ s.byteCount + count < buf.length) :=
  skipLoop_spec hv rfl count

end InputStream

inductive InputCall where
  | next
  | backUp (count : ℕ)
  | skip (count : ℕ)
deriving DecidableEq, Repr

/-- A stream with the position its calls are to have brought it to.  `last` is the size that the
call just made has returned, if that was a `Next` that returned true. -/
structure InputReader where
  stream : InputStream
  pos : ℕ
  last : Option ℕ
deriving DecidableEq, Repr

namespace InputReader

open InputStream

def start (buf : IOBuffer) : InputReader := ⟨.new buf, 0, none⟩

def call (buf : IOBuffer) (w : InputReader) : InputCall → Option InputReader
  | .next =>
    match w.stream.next buf with
    | none => some { w with last := none }
    | some (slice, s) => some ⟨s, w.pos + slice.length, some slice.length⟩
  | .backUp count => some ⟨w.stream.backUp buf count, w.pos - count, none⟩
  | .skip count =>
    some ⟨(w.stream.skip buf count).2, w.pos + min count (buf.length - w.pos), none⟩

def Legal (w : InputReader) : InputCall → Prop
  | .backUp count => ∃ size ∈ w.last, count ≤ size
  | _ => True

instance (w : InputReader) : (c : InputCall) → Decidable (w.Legal c)
  | .next => isTrue trivial
  | .backUp count => inferInstanceAs (Decidable (∃ size ∈ w.last, count ≤ size))
  | .skip _ => isTrue trivial

variable {buf : IOBuffer} {w : InputReader} {h : Heap}

/-- What holds after every call: the stream is where it is to be, and after a `Next` there was a
stream on which that was called. -/
structure Inv (buf : IOBuffer) (w : InputReader) : Prop where
  valid : Valid buf w.stream
  pos_eq : w.stream.byteCount = w.pos
  last : ∀ size ∈ w.last, ∃ s slice, Valid buf s ∧ s.next buf = some (slice, w.stream) ∧
    slice.length = size

theorem inv_start (buf : IOBuffer) : Inv buf (start buf) :=
  ⟨valid_new buf, rfl, by simp [start]⟩

theorem Inv.call (w : InputReader) (c : InputCall) (hi : Inv buf w) (hc : w.Legal c) :
    ∃ w', w.call buf c = some w' ∧ Inv buf w' := by
  cases c with
  | next =>
    cases hn : w.stream.next buf with
    | none =>
      exact ⟨{ w with last := none }, by rw [InputReader.call, hn], hi.valid, hi.pos_eq, by simp⟩
    | some r =>
      obtain ⟨slice, s⟩ := r
      obtain ⟨hv, hcount⟩ := next_spec hi.valid hn
      refine ⟨⟨s, w.pos + slice.length, some slice.length⟩, by rw [InputReader.call, hn], hv, ?_,
        ?_⟩
      · rw [hcount, hi.pos_eq]
      · rintro _ ⟨⟩
        exact ⟨w.stream, slice, hi.valid, hn, rfl⟩
  | backUp count =>
    obtain ⟨size, hlast, hle⟩ := hc
    obtain ⟨s, slice, hv, hn, rfl⟩ := hi.last size hlast
    obtain ⟨hv', hcount⟩ := backUp_spec hv hn hle
    exact ⟨_, rfl, hv', by rw [hcount, hi.pos_eq], by simp⟩
  | skip count =>
    obtain ⟨hv, hcount, -⟩ := skip_spec hi.valid count
    exact ⟨_, rfl, hv, by rw [hcount, hi.pos_eq], by simp⟩

theorem reader_inv {cs : List InputCall} (hm : Meets (call buf) Legal (start buf) cs) :
    ∃ w, run (call buf) (start buf) cs = some w ∧ Inv buf w :=
  run_total Inv.call (inv_start buf) hm

/-- Whatever has been called, `ByteCount` is the position, and the next call starts there. -/
theorem inputStream_keeps_position (h : Heap) (buf : IOBuffer) (cs : List InputCall)
    (hm : Meets (call buf) Legal (start buf) cs) :
    ∃ w, run (call buf) (start buf) cs = some w ∧
      w.stream.byteCount = w.pos ∧ w.pos ≤ (buf.toString h).length ∧
      (∀ slice s, w.stream.next buf = some (slice, s) →
        slice.bytes h = ((buf.toString h).drop w.pos).take slice.length ∧
          w.pos + slice.length ≤ (buf.toString h).length ∧
          s.byteCount = w.pos + slice.length) ∧
      (w.stream.next buf = none → w.pos = (buf.toString h).length) ∧
      (∀ size ∈ w.last, ∀ count ≤ size, count ≤ w.pos ∧
        (w.stream.backUp buf count).byteCount = w.pos - count) ∧
      ∀ count, (w.stream.skip buf count).2.byteCount =
        w.pos + min count ((buf.toString h).length - w.pos) := by
  obtain ⟨w, hr, hi⟩ := reader_inv hm
  rw [← length_eq buf h]
  refine ⟨w, hr, hi.pos_eq, hi.pos_eq ▸ hi.valid.byteCount_le, fun slice s hn => ?_, fun hn => ?_,
    fun size hsize count hle => ?_, fun count => ?_⟩
  · obtain ⟨hv, hcount⟩ := next_spec hi.valid hn
    rw [← hi.pos_eq, ← hcount]
    exact ⟨next_bytes h hi.valid hn, hv.byteCount_le, rfl⟩
  · exact hi.pos_eq ▸ next_eq_none hi.valid hn
  · obtain ⟨s, slice, hv, hn, rfl⟩ := hi.last size hsize
    have hcount := (next_spec hv hn).2
    rw [← hi.pos_eq]
    exact ⟨by omega, (backUp_spec hv hn hle).2⟩
  · rw [← hi.pos_eq]
    exact (skip_spec hi.valid count).2.1

def sliced : IOBuffer := ⟨[⟨0, 0, 9⟩, ⟨0, 0, 3⟩, ⟨0, 1, 0⟩, ⟨0, 3, 4⟩], 1⟩

def counting : Heap := .init fun _ => ⟨none, 8168, 9, UInt8.ofNat⟩

def slicedCalls : List InputCall := [.next, .backUp 3, .skip 4, .next, .backUp 2, .skip 1]

theorem inputStream_keeps_position_sliced :
    ∃ w, run (call sliced) (start sliced) slicedCalls = some w ∧ w.pos = 6 ∧
      w.stream.byteCount = 6 ∧ (w.stream.skip sliced 9).2.byteCount = 7 := by
  have hget : ∃ w, run (call sliced) (start sliced) slicedCalls = some w ∧ w.pos = 6 := by decide
  obtain ⟨w', hr', hpos⟩ := hget
  obtain ⟨w, hr, hcount, -, -, -, -, hskip⟩ :=
    inputStream_keeps_position counting sliced slicedCalls (by decide)
  obtain rfl := Option.some.inj (hr.symm.trans hr')
  have hlen : (sliced.toString counting).length = 7 := by decide
  rw [hpos, hlen] at hskip
  exact ⟨w, hr, hpos, hcount.trans hpos, hskip 9⟩

/-- `Skip` returns true exactly if that many bytes are left, and it does so for every request but
one that ends at the end of the buffer. -/
theorem skip_returns_true_iff (h : Heap) (buf : IOBuffer) (cs : List InputCall)
    (hm : Meets (call buf) Legal (start buf) cs) (w : InputReader)
    (hr : run (call buf) (start buf) cs = some w) (count : ℕ) :
    ((w.stream.skip buf count).1 = true ↔ w.pos + count ≤ (buf.toString h).length) ↔
      w.pos + count ≠ (buf.toString h).length := by
  obtain ⟨w', hr', hi⟩ := reader_inv hm
  obtain rfl := Option.some.inj (hr'.symm.trans hr)
  rw [(skip_spec hi.valid count).2.2, hi.pos_eq, length_eq buf h]
  constructor
  · intro hiff heq
    exact absurd (hiff.mpr heq.le) heq.not_lt
  · exact fun hne => ⟨Nat.le_of_lt, fun hle => hle.lt_of_ne hne⟩

theorem skip_returns_true_iff_sliced :
    ((InputStream.mk 4 1 3).skip sliced 2).1 = true ↔ 4 + 2 ≤ 7 :=
  (skip_returns_true_iff counting sliced [.next, .skip 1] (by decide) ⟨⟨4, 1, 3⟩, 4, none⟩
    (by decide) 2).mpr (by decide)

/-- Skipping all that is left, or nothing at the end, returns false. -/
theorem skip_to_end_returns_false :
    (sliced.toString counting).length = 7 ∧
      (∃ w, run (call sliced) (start sliced) [.next] = some w ∧ w.pos = 3 ∧
        (w.stream.skip sliced 4).1 = false ∧ (w.stream.skip sliced 4).2.byteCount = 7) ∧
      ∃ w, run (call sliced) (start sliced) [.skip 9] = some w ∧ w.pos = 7 ∧
        (w.stream.skip sliced 0).1 = false := by
  decide

end InputReader

end SofaBolt
