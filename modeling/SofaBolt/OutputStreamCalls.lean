import SofaBolt.OutputStream
import SofaBolt.Run

namespace SofaBolt.OutputStream

open Memory IOBuffer Run

structure Area where
  block : BlockId
  offset : ℕ
  size : ℕ
deriving DecidableEq, Repr

inductive StreamCall where
  | next (fill : ℕ → UInt8)
  | backUp (count : ℕ)

/-- A stream in use: `last` is the area of the call just made, if that was `Next`, and `kept`
has for every area the bytes that have not been given back. -/
structure Session where
  heap : Heap
  stream : OutputStream
  last : Option Area
  kept : List Bytes

namespace Session

def start (h : Heap) (buf : IOBuffer) : Session := ⟨h, ⟨buf, 0⟩, none, []⟩

def giveBack (kept : List Bytes) (count : ℕ) : List Bytes :=
  kept.dropLast ++ [(kept.getLastD []).take ((kept.getLastD []).length - count)]

def call (popped : Slice → ℕ) (t : ThreadId) (w : Session) : StreamCall → Option Session
  | .next fill => do
    let (h, s, b, o, size) ← w.stream.next w.heap t
    let area := (List.range size).map fill
    let h := h.setBlock b { h.block b with data := writeAt (h.block b).data o area }
    some ⟨h, s, some ⟨b, o, size⟩, w.kept ++ [area]⟩
  | .backUp count =>
    let (h, s) := backUp popped w.heap w.stream count
    some ⟨h, s, none, giveBack w.kept count⟩

def Legal (w : Session) : StreamCall → Prop
  | .next _ => True
  | .backUp count => ∃ a ∈ w.last, count ≤ a.size

instance (w : Session) : (c : StreamCall) → Decidable (w.Legal c)
  | .next _ => isTrue trivial
  | .backUp count => inferInstanceAs (Decidable (∃ a ∈ w.last, count ≤ a.size))

variable {h : Heap} {buf : IOBuffer} {t : ThreadId} {w : Session} {a : Area} {popped : Slice → ℕ}

structure Written (h : Heap) (buf : IOBuffer) (w : Session) : Prop where
  appended : Appended h buf w.heap w.stream.buf w.kept.flatten
  byteCount : w.stream.byteCount = w.kept.flatten.length

structure Before (t : ThreadId) (h : Heap) (buf : IOBuffer) (a : Area) (w : Session) : Prop where
  written : w.Written h buf
  chain : w.heap.tlsBlockChain t = some a.block
  offset : (w.heap.block a.block).size = a.offset
  size : (w.heap.block a.block).freeSpace = a.size
  pos : 0 < a.size

def keep (w : Session) (a : Area) (last : Option Area) (area : Bytes) (k : ℕ) : Session :=
  ⟨lay w.heap a.block area k, ⟨withArea w.stream.buf a.block a.offset k, w.stream.byteCount + k⟩,
    last, w.kept ++ [area.take k]⟩

theorem Before.keep {area : Bytes} (hbef : w.Before t h buf a) (harea : area.length = a.size)
    (last : Option Area) {k : ℕ} (hk : k ≤ a.size) : (w.keep a last area k).Written h buf := by
  have hw := hbef.written.appended.heap
  have happ := appended_area hw hbef.written.appended.wf (hw.chain_lt t a.block hbef.chain) area k
    (by omega) (by rw [hbef.size]; omega)
  rw [hbef.offset] at happ
  constructor
  · simpa [Session.keep] using hbef.written.appended.trans happ
  · have hlen : (area.take k).length = k := List.length_take_of_le (by omega)
    simp [Session.keep, hbef.written.byteCount, hlen]

def Outstanding (t : ThreadId) (h : Heap) (buf : IOBuffer) (w : Session) (a : Area) : Prop :=
  ∃ w₁ area, Before t h buf a w₁ ∧ area.length = a.size ∧ w = w₁.keep a (some a) area a.size

structure Inv (t : ThreadId) (h : Heap) (buf : IOBuffer) (w : Session) : Prop where
  written : w.Written h buf
  outstanding : ∀ a ∈ w.last, w.Outstanding t h buf a

theorem inv_start (hw : h.WF) (hb : buf.WF h) : Inv t h buf (start h buf) :=
  ⟨⟨.nil hw hb, rfl⟩, by simp [start]⟩

theorem Inv.next (hi : w.Inv t h buf) (fill : ℕ → UInt8) :
    ∃ w', w.call popped t (.next fill) = some w' ∧ w'.Inv t h buf := by
  obtain ⟨h₁, b, hs, hw₁, hg₁, hch, hlt, hf⟩ :=
    w.heap.shareBlockFromTLSChain_spec hi.written.appended.heap t
  set a : Area := ⟨b, (h₁.block b).size, (h₁.block b).freeSpace⟩ with ha
  set area := (List.range a.size).map fill
  have harea : area.length = a.size := by simp [area]
  obtain ⟨h₂, hnext, hlay⟩ := next_filled (s := w.stream) hw₁ hlt hs hf area
  have hbef : Before t h buf a { w with heap := h₁ } :=
    ⟨⟨hi.written.appended.later hw₁ hg₁, hi.written.byteCount⟩, hch, rfl, rfl, hf⟩
  refine ⟨{ w with heap := h₁ }.keep a (some a) area a.size, ?_, hbef.keep harea _ le_rfl, ?_⟩
  · have htake : area.take a.size = area := List.take_of_length_le harea.le
    simp only [call, hnext, Option.bind_eq_bind, Option.bind_some, Session.keep, htake]
    rw [hlay]
  · rintro a' ⟨⟩
    exact ⟨_, area, hbef, harea, rfl⟩

theorem Outstanding.backUp (hp : LeavesLength popped) (ho : w.Outstanding t h buf a) {count : ℕ}
    (hc : count ≤ a.size) :
    ∃ w₁ area, Before t h buf a w₁ ∧ area.length = a.size ∧
      w.call popped t (.backUp count) = some (w₁.keep a none area (a.size - count)) := by
  obtain ⟨w₁, area, hbef, harea, rfl⟩ := ho
  refine ⟨w₁, area, hbef, harea, ?_⟩
  have hback := backUp_area hp w₁.heap w₁.stream.buf (w₁.stream.byteCount + a.size) a.block area hc
    hbef.pos
  rw [hbef.offset] at hback
  have hkept : giveBack (w₁.kept ++ [area.take a.size]) count =
      w₁.kept ++ [area.take (a.size - count)] := by
    simp [giveBack, harea, List.take_take]
  have hcount : w₁.stream.byteCount + a.size - count = w₁.stream.byteCount + (a.size - count) := by
    omega
  simp only [call, Session.keep, hback, hkept, hcount]

theorem Inv.call (hp : LeavesLength popped) (w : Session) (c : StreamCall)
    (hi : w.Inv t h buf) (hc : w.Legal c) :
    ∃ w', w.call popped t c = some w' ∧ w'.Inv t h buf := by
  cases c with
  | next fill => exact hi.next fill
  | backUp count =>
    obtain ⟨a, ha, hle⟩ := hc
    obtain ⟨w₁, area, hbef, harea, he⟩ := (hi.outstanding a ha).backUp hp hle
    exact ⟨_, he, hbef.keep harea none (Nat.sub_le _ _), by simp [Session.keep]⟩

/-- The thread's next `Next`, on any stream, hands out the `size` bytes at `offset`, and its next
append, to any buffer, puts its first bytes there. -/
def StartsAt (t : ThreadId) (h : Heap) (block : BlockId) (offset size : ℕ) : Prop :=
  (∀ s : OutputStream, ∃ h' s', s.next h t = some (h', s', block, offset, size)) ∧
    ∀ (other : IOBuffer) (bs : Bytes), other.WF h → ∃ h' other',
      append h t other (some bs) = some (h', other') ∧
        readAt (h'.block block).data offset (min bs.length size) = bs.take size

theorem Before.startsAt {area : Bytes} (hbef : w.Before t h buf a) (harea : area.length = a.size)
    {count : ℕ} (hpos : 0 < count) (hc : count ≤ a.size) :
    StartsAt t (lay w.heap a.block area (a.size - count)) a.block (a.offset + (a.size - count))
      count := by
  set h' := lay w.heap a.block area (a.size - count) with hh'
  have hch : h'.tlsBlockChain t = some a.block := hbef.chain
  have hsize : (h'.block a.block).size = a.offset + (a.size - count) := by
    rw [hh', lay, Heap.setBlock_block_self, hbef.offset]
  have hfree : (h'.block a.block).freeSpace = count := by
    have hs := hbef.size
    have ho := hbef.offset
    simp only [hh', lay, Heap.setBlock_block_self, Block.freeSpace] at hs ⊢
    omega
  have hw : h'.WF := (hbef.keep harea none (Nat.sub_le a.size count)).appended.heap
  refine ⟨fun s => ?_, fun other bs hb => ?_⟩
  · have hshare := h'.shareBlockFromTLSChain_of_free hch (by omega)
    obtain ⟨h₂, hnext, -⟩ := next_filled (s := s) hw (hw.chain_lt t a.block hch) hshare (by omega) []
    rw [hsize, hfree] at hnext
    exact ⟨h₂, _, hnext⟩
  · have happ := append_starts_at hw hb hch (by omega) bs
    rwa [hsize, hfree] at happ

/-- Any calls that obey the contract leave the buffer with its former content and the bytes kept of
each area in order, counted by `ByteCount`, and every other buffer as it was. -/
theorem outputStream_contract (hp : LeavesLength popped) (hw : h.WF) (hb : buf.WF h)
    (t : ThreadId) (cs : List StreamCall)
    (hm : Meets (call popped t) Legal (start h buf) cs) :
    ∃ w, run (call popped t) (start h buf) cs = some w ∧
      w.stream.buf.toString w.heap = buf.toString h ++ w.kept.flatten ∧
      w.stream.byteCount = w.kept.flatten.length ∧
      (∀ other : IOBuffer, other.WF h → other.toString w.heap = other.toString h) ∧
      ∀ a ∈ w.last, ∀ count, 0 < count → count ≤ a.size →
        ∃ w', w.call popped t (.backUp count) = some w' ∧
          StartsAt t w'.heap a.block (a.offset + (a.size - count)) count := by
  obtain ⟨w, hr, hi⟩ := run_total (Inv.call hp) (inv_start hw hb) hm
  refine ⟨w, hr, hi.written.appended.toString_eq, hi.written.byteCount,
    fun other ho => toString_grows ho hi.written.appended.grows, fun a ha count hpos hle => ?_⟩
  obtain ⟨w₁, area, hbef, harea, he⟩ := (hi.outstanding a ha).backUp hp hle
  exact ⟨_, he, hbef.startsAt harea hpos hle⟩

def sampleCalls : List StreamCall :=
  [.next fun _ => 1, .backUp 8168, .next fun i => UInt8.ofNat (i + 1), .backUp 8165]

theorem outputStream_contract_sample :
    ∃ w, run (call Slice.length 0) (start (Heap.init fun _ => ⟨none, 0, 0, fun _ => 0⟩) IOBuffer.empty)
        sampleCalls = some w ∧
      w.stream.buf.toString w.heap = [1, 2, 3] ∧ w.stream.byteCount = 3 := by
  have hget : ∃ w, run (call Slice.length 0)
      (start (Heap.init fun _ => ⟨none, 0, 0, fun _ => 0⟩) IOBuffer.empty) sampleCalls = some w ∧
      w.kept.flatten = [1, 2, 3] := by
    decide +kernel
  obtain ⟨w', hr', hkept⟩ := hget
  obtain ⟨w, hr, htxt, hcount, -⟩ := outputStream_contract (fun _ => rfl)
    (Heap.wf_init fun _ => ⟨none, 0, 0, fun _ => 0⟩) (wf_empty _) 0 sampleCalls (by decide +kernel)
  obtain rfl := Option.some.inj (hr.symm.trans hr')
  rw [hkept] at htxt hcount
  exact ⟨w, hr, htxt, hcount⟩

end Session

end SofaBolt.OutputStream
