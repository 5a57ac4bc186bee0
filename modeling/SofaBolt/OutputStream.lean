import SofaBolt.IOBufferAppend

/- Protobuf is not part of the repository; what it may do with such a stream is fixed by the
contract of `ZeroCopyOutputStream`: after each `Next` it writes a part of the space it got,
from the start, and backs up over the others before it goes on. -/

namespace SofaBolt

open Memory IOBuffer

structure OutputStream where
  buf : IOBuffer
  byteCount : ℕ
deriving DecidableEq, Repr

namespace OutputStream

variable {h : Heap} {s : OutputStream}

/-- `Next`: besides the stream the block, the offset and the size handed out. -/
def next (h : Heap) (t : ThreadId) (s : OutputStream) :
    Option (Heap × OutputStream × BlockId × ℕ × ℕ) := do
  let (h, b) ← h.shareBlockFromTLSChain t
  let blk := h.block b
  some (h.setBlock b { blk with size := blk.capacity },
    { buf := { s.buf with ref := s.buf.ref ++ [⟨b, blk.size, blk.freeSpace⟩] }
      byteCount := s.byteCount + blk.freeSpace },
    b, blk.size, blk.freeSpace)

/-- The loop of `BackUp`, on the slices from the last one backwards. The source reads the length
once more through a reference that `pop_back` has invalidated; what that gives is left open,
`popped` is an arbitrary function. -/
def backUpLoop (popped : Slice → ℕ) : ℤ → Heap → ℕ → List Slice → Heap × ℕ × List Slice
  | _, h, byteCount, [] => (h, byteCount, [])
  | count, h, byteCount, slice :: rest =>
    if count = 0 then (h, byteCount, slice :: rest)
    else
      let blk := h.block slice.block
      if count < slice.length then
        (h.setBlock slice.block { blk with size := (blk.size - count).toNat },
          (byteCount - count).toNat,
          { slice with length := (slice.length - count).toNat } :: rest)
      else
        backUpLoop popped (count - popped slice)
          (h.setBlock slice.block { blk with size := blk.size - slice.length })
          (byteCount - slice.length) rest

def backUp (popped : Slice → ℕ) (h : Heap) (s : OutputStream) (count : ℕ) : Heap × OutputStream :=
  let (h, byteCount, ref) := backUpLoop popped count h s.byteCount s.buf.ref.reverse
  (h, { buf := { s.buf with ref := ref.reverse }, byteCount })

/-- The vector's memory keeps the length of a slice that has been popped. -/
def LeavesLength (popped : Slice → ℕ) : Prop := ∀ slice, popped slice = slice.length

/-- One `Next` of which the first `keep` bytes, at most, are used for `bs`, and
the `BackUp` over the others; besides the stream the bytes still to write. -/
def writeRound (h : Heap) (t : ThreadId) (s : OutputStream) (keep : ℕ) (bs : Bytes) :
    Option (Heap × OutputStream × Bytes) := do
  let (h, s, b, o, size) ← s.next h t
  let used := min keep (min size bs.length)
  let h := h.setBlock b { h.block b with data := writeAt (h.block b).data o (bs.take used) }
  let (h, s) := backUp Slice.length h s (size - used)
  some (h, s, bs.drop used)

def writeRest (t : ThreadId) : ℕ → Heap → OutputStream → Bytes → Option (Heap × OutputStream)
  | _, h, s, [] => some (h, s)
  | 0, _, _, _ :: _ => none
  | fuel + 1, h, s, b :: bs => do
    let (h, s, bs) ← writeRound h t s (b :: bs).length (b :: bs)
    writeRest t fuel h s bs

def writeAll (t : ThreadId) : List ℕ → Heap → OutputStream → Bytes → Option (Heap × OutputStream)
  | keep :: keeps, h, s, bs => do
    let (h, s, bs) ← writeRound h t s keep bs
    writeAll t keeps h s bs
  | [], h, s, bs => writeRest t bs.length h s bs

variable {popped : Slice → ℕ}

theorem backUpLoop_cons (hp : LeavesLength popped) (count : ℕ) (h : Heap) (n : ℕ) (slice : Slice)
    (rest : List Slice) :
    backUpLoop popped count h n (slice :: rest) =
      if count = 0 then (h, n, slice :: rest)
      else if count < slice.length then
        (h.setBlock slice.block
            { h.block slice.block with size := (h.block slice.block).size - count },
          n - count, { slice with length := slice.length - count } :: rest)
      else
        backUpLoop popped (count - slice.length : ℕ)
          (h.setBlock slice.block
            { h.block slice.block with size := (h.block slice.block).size - slice.length })
          (n - slice.length) rest := by
  simp only [backUpLoop, Nat.cast_eq_zero, Nat.cast_lt, Int.toNat_sub, hp slice]
  split_ifs with h0 hlt
  · rfl
  · rfl
  · rw [Nat.cast_sub (not_lt.mp hlt)]

theorem backUpLoop_zero (h : Heap) (n : ℕ) (l : List Slice) :
    backUpLoop popped 0 h n l = (h, n, l) := by
  cases l <;> simp [backUpLoop]

theorem backUp_last (hp : LeavesLength popped) (h : Heap) (buf : IOBuffer) (n b o size count : ℕ)
    (hc : count ≤ size) (hs : 0 < size) :
    backUp popped h ⟨{ buf with ref := buf.ref ++ [⟨b, o, size⟩] }, n⟩ count =
      (h.setBlock b { h.block b with size := (h.block b).size - count },
        ⟨if count = size then buf else { buf with ref := buf.ref ++ [⟨b, o, size - count⟩] },
          n - count⟩) := by
  simp only [backUp, List.reverse_append, List.reverse_cons, List.reverse_nil, List.nil_append,
    List.singleton_append, backUpLoop_cons hp]
  by_cases h0 : count = 0
  · have he : h.setBlock b { h.block b with size := (h.block b).size - count } = h := by
      simp [h0, Heap.setBlock]
    have hne : count ≠ size := by omega
    rw [if_pos h0, he, if_neg hne]
    simp [h0]
  · rw [if_neg h0]
    by_cases hlt : count < size
    · rw [if_pos hlt, if_neg (by omega)]
      simp
    · obtain rfl : count = size := by omega
      rw [if_neg hlt, if_pos rfl, Nat.sub_self, Nat.cast_zero, backUpLoop_zero]
      simp

def lay (h : Heap) (b : BlockId) (area : Bytes) (k : ℕ) : Heap :=
  h.setBlock b { h.block b with
    size := (h.block b).size + k
    data := writeAt (h.block b).data (h.block b).size area }

def withArea (buf : IOBuffer) (b : BlockId) (o k : ℕ) : IOBuffer :=
  if k = 0 then buf else { buf with ref := buf.ref ++ [⟨b, o, k⟩] }

theorem lay_grows (h : Heap) (b : BlockId) (area : Bytes) (k : ℕ) : h.Grows (lay h b area k) :=
  h.grows_setBlock _ _ (Nat.le_add_right _ _) fun _ hi => writeAt_of_lt _ _ hi

theorem appended_area {buf : IOBuffer} (hw : h.WF) (hb : buf.WF h) {b : BlockId}
    (hlt : b < h.fresh) (area : Bytes) (k : ℕ) (hk : k ≤ area.length)
    (hf : area.length ≤ (h.block b).freeSpace) :
    Appended h buf (lay h b area k) (withArea buf b (h.block b).size k) (area.take k) := by
  have hg := lay_grows h b area k
  have hsize := hw.size_le b hlt
  have hw' : (lay h b area k).WF := by
    refine hw.setBlock rfl ?_ fun t ht => hw.chain_next t b ht
    simp only [Block.freeSpace] at hf
    dsimp only
    omega
  have hin : ∀ s ∈ [(⟨b, (h.block b).size, k⟩ : Slice)], s.InBlock (lay h b area k) := by
    intro s hs
    obtain rfl := List.mem_singleton.mp hs
    exact ⟨hlt, by simp [lay]⟩
  unfold withArea
  split_ifs with h0
  · subst h0
    exact ⟨hw', hg, hb.grows hg, by rw [toString_grows hb hg]; simp, rfl⟩
  · refine ⟨hw', hg, hb.append hg hin, ?_, rfl⟩
    rw [toString_append hb hg]
    simp only [List.flatMap_cons, List.flatMap_nil, List.append_nil, Slice.bytes, lay,
      Heap.setBlock_block_self]
    rw [← readAt_take _ _ hk, readAt_writeAt]

theorem next_filled {h₁ : Heap} {b : BlockId} {t : ThreadId} (hw : h₁.WF) (hlt : b < h₁.fresh)
    (hs : h.shareBlockFromTLSChain t = some (h₁, b)) (hf : 0 < (h₁.block b).freeSpace)
    (area : Bytes) :
    ∃ h₂, s.next h t = some (h₂,
        ⟨withArea s.buf b (h₁.block b).size (h₁.block b).freeSpace,
          s.byteCount + (h₁.block b).freeSpace⟩,
        b, (h₁.block b).size, (h₁.block b).freeSpace) ∧
      h₂.setBlock b { h₂.block b with data := writeAt (h₂.block b).data (h₁.block b).size area } =
        lay h₁ b area (h₁.block b).freeSpace := by
  have hsize := hw.size_le b hlt
  have hcap : (h₁.block b).size + (h₁.block b).freeSpace = (h₁.block b).capacity := by
    simp only [Block.freeSpace]
    omega
  refine ⟨h₁.setBlock b { h₁.block b with size := (h₁.block b).capacity }, ?_, ?_⟩
  · simp only [next, hs, Option.bind_eq_bind, Option.bind_some, withArea, if_neg hf.ne']
  · simp [lay, Heap.setBlock, hcap]

theorem backUp_area (hp : LeavesLength popped) (h : Heap) (buf : IOBuffer) (n : ℕ) (b : BlockId)
    (area : Bytes) {size count : ℕ} (hc : count ≤ size) (hs : 0 < size) :
    backUp popped (lay h b area size) ⟨withArea buf b (h.block b).size size, n⟩ count =
      (lay h b area (size - count),
        ⟨withArea buf b (h.block b).size (size - count), n - count⟩) := by
  have hsub : (h.block b).size + size - count = (h.block b).size + (size - count) := by omega
  have hheap : (lay h b area size).setBlock b { (lay h b area size).block b with
      size := ((lay h b area size).block b).size - count } = lay h b area (size - count) := by
    simp [lay, Heap.setBlock, hsub]
  have hbuf : (if count = size then buf
      else { buf with ref := buf.ref ++ [⟨b, (h.block b).size, size - count⟩] }) =
      withArea buf b (h.block b).size (size - count) := by
    unfold withArea
    by_cases he : count = size
    · rw [if_pos he, if_pos (by omega)]
    · rw [if_neg he, if_neg (by omega)]
  have hlast : withArea buf b (h.block b).size size =
      { buf with ref := buf.ref ++ [⟨b, (h.block b).size, size⟩] } := if_neg hs.ne'
  rw [hlast, backUp_last hp _ _ _ _ _ _ _ hc hs, hheap, hbuf]

/-- A round appends the bytes it uses, and the space it does not use is free
again. -/
theorem writeRound_spec (hw : h.WF) (hb : s.buf.WF h) (t : ThreadId) (keep : ℕ) (bs : Bytes) :
    ∃ h' s' k, writeRound h t s keep bs = some (h', s', bs.drop k) ∧
      Appended h s.buf h' s'.buf (bs.take k) ∧ (0 < keep → bs ≠ [] → 0 < k) := by
  obtain ⟨h₁, b, hs, hw₁, hg₁, -, hlt, hf⟩ := h.shareBlockFromTLSChain_spec hw t
  set k := min keep (min (h₁.block b).freeSpace bs.length) with hk
  have hlen : (bs.take k).length = k := List.length_take_of_le (by omega)
  obtain ⟨h₂, hnext, hlay⟩ := next_filled (s := s) hw₁ hlt hs hf (bs.take k)
  have hkeep : (h₁.block b).freeSpace - ((h₁.block b).freeSpace - k) = k := by omega
  have harea := appended_area hw₁ (hb.grows hg₁) hlt (bs.take k) k hlen.ge (by omega)
  refine ⟨lay h₁ b (bs.take k) k, ⟨withArea s.buf b (h₁.block b).size k,
    s.byteCount + (h₁.block b).freeSpace - ((h₁.block b).freeSpace - k)⟩, k, ?_,
    ⟨harea.heap, hg₁.trans harea.grows, harea.wf, ?_, harea.refOffset_eq⟩, fun hkeep hne => ?_⟩
  · simp only [writeRound, hnext, Option.bind_eq_bind, Option.bind_some, ← hk, hlay]
    rw [backUp_area (fun _ => rfl) h₁ s.buf _ b (bs.take k) (Nat.sub_le _ _) hf, hkeep]
  · rw [harea.toString_eq, toString_grows hb hg₁, List.take_take, min_self]
  · have : 0 < bs.length := List.length_pos_of_ne_nil hne
    omega

theorem writeRest_spec (t : ThreadId) (fuel : ℕ) (bs : Bytes) (hfuel : bs.length ≤ fuel)
    (hw : h.WF) (hb : s.buf.WF h) :
    ∃ h' s', writeRest t fuel h s bs = some (h', s') ∧ Appended h s.buf h' s'.buf bs := by
  induction fuel generalizing h s bs with
  | zero =>
    obtain rfl : bs = [] := List.length_eq_zero_iff.mp (by omega)
    exact ⟨h, s, rfl, .nil hw hb⟩
  | succ fuel ih =>
    cases bs with
    | nil => exact ⟨h, s, rfl, .nil hw hb⟩
    | cons b bs =>
      obtain ⟨h₁, s₁, k, hr, ha₁, hpos⟩ := writeRound_spec hw hb t (b :: bs).length (b :: bs)
      have hk := hpos (by simp) (by simp)
      obtain ⟨h₂, s₂, hr₂, ha₂⟩ :=
        ih ((b :: bs).drop k) (by rw [List.length_drop]; omega) ha₁.heap ha₁.wf
      refine ⟨h₂, s₂, ?_, ?_⟩
      · rw [writeRest, hr]
        exact hr₂
      · rw [← List.take_append_drop k (b :: bs)]
        exact ha₁.trans ha₂

/-- Whatever it keeps in which round, the client appends exactly its bytes. -/
theorem writeAll_spec (t : ThreadId) (keeps : List ℕ) (bs : Bytes) (hw : h.WF) (hb : s.buf.WF h) :
    ∃ h' s', writeAll t keeps h s bs = some (h', s') ∧ Appended h s.buf h' s'.buf bs := by
  induction keeps generalizing h s bs with
  | cons keep keeps ih =>
    obtain ⟨h₁, s₁, k, hr, ha₁, -⟩ := writeRound_spec hw hb t keep bs
    obtain ⟨h₂, s₂, hr₂, ha₂⟩ := ih (bs.drop k) ha₁.heap ha₁.wf
    refine ⟨h₂, s₂, ?_, ?_⟩
    · rw [writeAll, hr]
      exact hr₂
    · rw [← List.take_append_drop k bs]
      exact ha₁.trans ha₂
  | nil => exact writeRest_spec t bs.length bs le_rfl hw hb

end OutputStream

end SofaBolt
