import SofaBolt.Block

/- `offset` and `length` are 32-bit in the source; a slice lies inside its block of 8168 bytes,
so no sum of the two wraps. `none` is a loop that does not end or the use of a null block
pointer. -/

namespace SofaBolt

open Memory

structure Slice where
  block : BlockId
  offset : ℕ
  length : ℕ
deriving DecidableEq, Repr

structure IOBuffer where
  ref : List Slice
  refOffset : ℕ
deriving DecidableEq, Repr

def Slice.bytes (h : Heap) (s : Slice) : Bytes := readAt (h.block s.block).data s.offset s.length

inductive Errno where
  | eintr
  | eagain
  | other
deriving DecidableEq, Repr

/-- What the descriptor has to give to one `readv`: no bytes at the end of the
stream; of more bytes than the vector holds it gives the first ones. -/
inductive ReadOutcome where
  | error (e : Errno)
  | data (bs : Bytes)
deriving DecidableEq, Repr

inductive WriteOutcome where
  | error (e : Errno)
  | accepted (n : ℕ)
deriving DecidableEq, Repr

def ioBufferDefaultSliceRefSize : ℕ := 4
def maxAppendIovec : ℕ := 64
def iobufIovMax : ℕ := 256

structure Iovec where
  block : BlockId
  base : ℕ
  len : ℕ
deriving DecidableEq, Repr

/-- The loop `while (cur_size < n)` that `pop_front`, `cut` and `copy_to` run
over the slices from `idx` on. -/
structure Walk where
  /-- Slices passed as a whole. -/
  passed : ℕ
  curSize : ℕ
  /-- The slices from the final `idx` on, the first one shortened if the loop
  ended inside it. -/
  rest : List Slice
  /-- The stretches that `cut` hands on and `copy_to` copies. -/
  covered : List Slice
deriving DecidableEq, Repr

def walk (n : ℕ) : ℕ → List Slice → Walk
  | cur, [] => ⟨0, cur, [], []⟩
  | cur, s :: rest =>
    if cur < n then
      if n - cur < s.length then
        ⟨0, cur + (n - cur),
          { s with offset := s.offset + (n - cur), length := s.length - (n - cur) } :: rest,
          [{ s with length := n - cur }]⟩
      else
        let r := walk n (cur + s.length) rest
        ⟨r.passed + 1, r.curSize, r.rest, s :: r.covered⟩
    else ⟨0, cur, s :: rest, []⟩

/-- The loop of `pop_back`, over the slices from the last one backwards down to
`_ref_offset`: `cur_size` at the end and the slices left. -/
def walkBack (n : ℕ) : ℕ → List Slice → ℕ × List Slice
  | cur, [] => (cur, [])
  | cur, s :: rest =>
    if cur < n then
      if n - cur < s.length then
        (cur + (n - cur), { s with length := s.length - (n - cur) } :: rest)
      else walkBack n (cur + s.length) rest
    else (cur, s :: rest)

namespace IOBuffer

def empty : IOBuffer := ⟨[], 0⟩

def live (buf : IOBuffer) : List Slice := buf.ref.drop buf.refOffset

def toString (buf : IOBuffer) (h : Heap) : Bytes := buf.live.flatMap (Slice.bytes h)

def length (buf : IOBuffer) : ℕ := (buf.live.map Slice.length).sum

def clear (_ : IOBuffer) : IOBuffer := ⟨[], 0⟩

def tryReleaseBlock (buf : IOBuffer) : IOBuffer :=
  if ioBufferDefaultSliceRefSize < buf.refOffset then
    if buf.ref.length - buf.refOffset = 0 then ⟨[], 0⟩
    else ⟨buf.ref.drop buf.refOffset, 0⟩
  else buf

def advance (buf : IOBuffer) (r : Walk) : IOBuffer :=
  tryReleaseBlock ⟨buf.ref.take (buf.refOffset + r.passed) ++ r.rest, buf.refOffset + r.passed⟩

def popFront (buf : IOBuffer) (n : ℕ) : IOBuffer × ℕ :=
  let r := walk n 0 buf.live
  (buf.advance r, r.curSize)

def popBack (buf : IOBuffer) (n : ℕ) : IOBuffer × ℕ :=
  let r := walkBack n 0 buf.live.reverse
  (⟨buf.ref.take buf.refOffset ++ r.2.reverse, buf.refOffset⟩, r.1)

/-- `append(const IOBuffer &)`: every slice of the other buffer, also those in
front of its `_ref_offset`. -/
def appendBuffer (buf other : IOBuffer) : IOBuffer := { buf with ref := buf.ref ++ other.ref }

/-- `append(IOBuffer &&)`: the new buffer and the cleared other one. -/
def appendMove (buf other : IOBuffer) : IOBuffer × IOBuffer := (buf.appendBuffer other, other.clear)

/-- The `do { } while (0)` of the appends: the last live slice is lengthened if
it ends where the block ends, otherwise a slice is added. -/
def extend (buf : IOBuffer) (b : BlockId) (size n : ℕ) : IOBuffer :=
  match buf.live.getLast? with
  | some back =>
    if back.block = b ∧ back.offset + back.length = size then
      { buf with ref := buf.ref.dropLast ++ [{ back with length := back.length + n }] }
    else { buf with ref := buf.ref ++ [⟨b, size, n⟩] }
  | none => { buf with ref := buf.ref ++ [⟨b, size, n⟩] }

def fill (h : Heap) (b : BlockId) (bs : Bytes) : Heap :=
  h.setBlock b { h.block b with
    data := writeAt (h.block b).data (h.block b).size bs
    size := (h.block b).size + bs.length }

def appendChar (h : Heap) (t : ThreadId) (buf : IOBuffer) (c : UInt8) :
    Option (Heap × IOBuffer) := do
  let (h, b) ← h.shareBlockFromTLSChain t
  some (fill h b [c], buf.extend b (h.block b).size 1)

/-- The loop `while (cur_size < count)`; every round appends at least a byte. -/
def appendLoop (t : ThreadId) : ℕ → Heap → IOBuffer → Bytes → Option (Heap × IOBuffer)
  | _, h, buf, [] => some (h, buf)
  | 0, _, _, _ :: _ => none
  | fuel + 1, h, buf, x :: xs => do
    let (h, b) ← h.shareBlockFromTLSChain t
    let pushSize := min (x :: xs).length (h.block b).freeSpace
    appendLoop t fuel (fill h b ((x :: xs).take pushSize))
      (buf.extend b (h.block b).size pushSize) ((x :: xs).drop pushSize)

/-- `append(const void *data, size_t count)`; `none` is the null pointer. -/
def append (h : Heap) (t : ThreadId) (buf : IOBuffer) (data : Option Bytes) :
    Option (Heap × IOBuffer) :=
  match data with
  | none => some (h, buf)
  | some bs => appendLoop t bs.length h buf bs

/-- `if (block_tail) block_tail->next = block`. -/
def linkTail (h : Heap) (blockTail : Option BlockId) (b : BlockId) : Heap :=
  match blockTail with
  | some tail => h.setBlock tail { h.block tail with next := some b }
  | none => h

/-- The first loop: blocks are taken off the chain and linked behind one
another until their free space reaches `max_size` or `left` vectors are used. -/
def acquireVectors (t : ThreadId) (maxSize : ℕ) :
    ℕ → Heap → ℕ → Option BlockId → Option (Heap × List Iovec)
  | 0, h, _, _ => some (h, [])
  | left + 1, h, space, blockTail => do
    let (h, b) ← h.acquireBlockFromTLSChain t
    let h := linkTail h blockTail b
    let len := min (h.block b).freeSpace (maxSize - space)
    let v : Iovec := ⟨b, (h.block b).size, len⟩
    if maxSize ≤ space + len then some (h, [v])
    else do
      let (h, vec) ← acquireVectors t maxSize left h (space + len) (some b)
      some (h, v :: vec)

def scatter : List Iovec → Heap → Bytes → Heap
  | [], h, _ => h
  | v :: vec, h, bs =>
    scatter vec
      (h.setBlock v.block
        { h.block v.block with data := writeAt (h.block v.block).data v.base (bs.take v.len) })
      (bs.drop v.len)

def delivered (vec : List Iovec) (bs : Bytes) : Bytes := bs.take (vec.map Iovec.len).sum

/-- The `do { } while (total_len > 0)` that turns what was read into slices;
`blockHead` is dereferenced in every round. -/
def takeSlices : ℕ → Heap → IOBuffer → Option BlockId → ℕ →
    Option (Heap × IOBuffer × Option BlockId)
  | 0, _, _, _, _ => none
  | _, _, _, none, _ => none
  | fuel + 1, h, buf, some head, totalLen =>
    let len := min totalLen (h.block head).freeSpace
    let buf := { buf with ref := buf.ref ++ [⟨head, (h.block head).size, len⟩] }
    let h := h.setBlock head { h.block head with size := (h.block head).size + len }
    let blockHead := if (h.block head).freeSpace = 0 then (h.block head).next else some head
    if 0 < totalLen - len then takeSlices fuel h buf blockHead (totalLen - len)
    else some (h, buf, blockHead)

/-- `if (nr > 0)`. -/
def takeRead (h : Heap) (buf : IOBuffer) (blockHead : Option BlockId) (nr : ℕ) :
    Option (Heap × IOBuffer × Option BlockId) :=
  if 0 < nr then takeSlices nr h buf blockHead nr else some (h, buf, blockHead)

/-- `while (block_head)`: `releaseBlockToTLSChain` overwrites `next` before the
loop follows it. -/
def releaseBlocks (t : ThreadId) : ℕ → Heap → Option BlockId → Option Heap
  | _, h, none => some h
  | 0, _, some _ => none
  | fuel + 1, h, some head =>
    let h := h.releaseBlockToTLSChain t head
    releaseBlocks t fuel h (h.block head).next

def appendFromFileDescriptor (h : Heap) (t : ThreadId) (buf : IOBuffer) (maxSize : ℕ)
    (r : ReadOutcome) : Option (Heap × IOBuffer × ℤ) := do
  let (h, vec) ← acquireVectors t maxSize maxAppendIovec h 0 none
  let blockHead := vec.head?.map Iovec.block
  match r with
  | .error _ =>
    let h ← releaseBlocks t (h.fresh + 1) h blockHead
    some (h, buf, -1)
  | .data bs =>
    let h := scatter vec h bs
    let nr := (delivered vec bs).length
    let (h, buf, blockHead) ← takeRead h buf blockHead nr
    let h ← releaseBlocks t (h.fresh + 1) h blockHead
    some (h, buf, nr)

/-- `cut(IOBuffer *out, size_t n)`: this buffer, `out` and the size. -/
def cut (buf out : IOBuffer) (n : ℕ) : IOBuffer × IOBuffer × ℕ :=
  let r := walk n 0 buf.live
  (buf.advance r, { out with ref := out.ref ++ r.covered }, r.curSize)

/-- `cut(void *out, size_t n)`: this buffer and the bytes stored at `out`,
whose number is the size returned. -/
def cutVoid (buf : IOBuffer) (h : Heap) (n : ℕ) : IOBuffer × Bytes :=
  let r := walk n 0 buf.live
  (buf.advance r, r.covered.flatMap (Slice.bytes h))

/-- `cut(std::string &out, size_t n)`. -/
def cutString (buf : IOBuffer) (h : Heap) (out : Bytes) (n : ℕ) : IOBuffer × Bytes × ℕ :=
  if n = 0 then (buf, out, 0)
  else
    let r := buf.cutVoid h (min n buf.length)
    (r.1, out ++ r.2, r.2.length)

def copyTo (buf : IOBuffer) (h : Heap) (n : ℕ) : Bytes :=
  (walk n 0 buf.live).covered.flatMap (Slice.bytes h)

/-- The `do { } while (nvec < nref && cur_len < size_hint)`, which takes a first
slice without looking whether there is one. -/
def writeVectors (sizeHint : ℕ) : ℕ → ℕ → List Slice → Option (List Slice)
  | _, _, [] => none
  | 0, _, s :: _ => some [s]
  | nref + 1, curLen, s :: rest =>
    if nref ≠ 0 ∧ curLen + s.length < sizeHint then do
      let vec ← writeVectors sizeHint nref (curLen + s.length) rest
      some (s :: vec)
    else some [s]

/-- `cut_into_file_descriptor`: this buffer, what the descriptor received and
the return value. -/
def cutIntoFileDescriptor (buf : IOBuffer) (h : Heap) (sizeHint : ℕ) (r : WriteOutcome) :
    Option (IOBuffer × Bytes × ℤ) := do
  let nref := min (buf.ref.length - buf.refOffset) iobufIovMax
  let vec ← writeVectors sizeHint nref 0 buf.live
  match r with
  | .error _ => some (buf, [], -1)
  | .accepted n =>
    let sent := (vec.flatMap (Slice.bytes h)).take n
    let nw := sent.length
    some (if 0 < nw then (buf.popFront nw).1 else buf, sent, nw)

end IOBuffer

end SofaBolt
