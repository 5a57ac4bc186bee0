import SofaBolt.IOBufferRefinement
import SofaBolt.OutputStream
import SofaBolt.Run

namespace SofaBolt

open IOBuffer Run

namespace IOBuffer

theorem appendLoop_heap (t : ThreadId) (fuel : ℕ) (h : Heap) (buf buf' : IOBuffer) (bs : Bytes) :
    (appendLoop t fuel h buf bs).map Prod.fst = (appendLoop t fuel h buf' bs).map Prod.fst := by
  induction fuel generalizing h buf buf' bs with
  | zero => cases bs <;> rfl
  | succ fuel ih =>
    cases bs with
    | nil => rfl
    | cons x xs =>
      rw [appendLoop, appendLoop]
      cases h.shareBlockFromTLSChain t with
      | none => rfl
      | some r => exact ih ..

theorem takeSlices_heap (fuel : ℕ) (h : Heap) (buf buf' : IOBuffer) (head : Option BlockId)
    (n : ℕ) :
    (takeSlices fuel h buf head n).map (fun r => (r.1, r.2.2)) =
      (takeSlices fuel h buf' head n).map fun r => (r.1, r.2.2) := by
  induction fuel generalizing h buf buf' head n with
  | zero => rfl
  | succ fuel ih =>
    cases head with
    | none => rfl
    | some b =>
      rw [takeSlices, takeSlices]
      dsimp only
      by_cases hmore : 0 < n - min n (h.block b).freeSpace
      · rw [if_pos hmore, if_pos hmore]
        exact ih ..
      · rw [if_neg hmore, if_neg hmore]
        rfl

variable {h : Heap} {t : ThreadId}

theorem append_wf (hw : h.WF) (t : ThreadId) (buf : IOBuffer) (data : Option Bytes) :
    ∃ h' buf', append h t buf data = some (h', buf') ∧ h'.WF := by
  obtain ⟨h', buf₁, he, ha⟩ := append_spec hw (wf_empty h) t data
  cases data with
  | none => exact ⟨h, buf, rfl, hw⟩
  | some bs =>
    have hheap := appendLoop_heap t bs.length h buf empty bs
    rw [show appendLoop t bs.length h empty bs = some (h', buf₁) from he] at hheap
    obtain ⟨⟨h'', buf'⟩, he', rfl⟩ := Option.map_eq_some_iff.mp hheap
    exact ⟨h'', buf', he', ha.heap⟩

theorem takeRead_heap (h : Heap) (buf buf' : IOBuffer) (head : Option BlockId) (n : ℕ) :
    (takeRead h buf head n).map (fun r => (r.1, r.2.2)) =
      (takeRead h buf' head n).map fun r => (r.1, r.2.2) := by
  unfold takeRead
  split_ifs
  · exact takeSlices_heap ..
  · rfl

theorem appendFromFileDescriptor_heap (h : Heap) (t : ThreadId) (buf buf' : IOBuffer)
    (maxSize : ℕ) (r : ReadOutcome) :
    (appendFromFileDescriptor h t buf maxSize r).map Prod.fst =
      (appendFromFileDescriptor h t buf' maxSize r).map Prod.fst := by
  unfold appendFromFileDescriptor
  cases acquireVectors t maxSize maxAppendIovec h 0 none with
  | none => rfl
  | some x =>
    obtain ⟨h₁, vec⟩ := x
    cases r with
    | error e =>
      simp only [Option.bind_eq_bind, Option.bind_some, Option.map_bind]
      rfl
    | data bs =>
      have htake := takeRead_heap (scatter vec h₁ bs) buf buf' (vec.head?.map Iovec.block)
        (delivered vec bs).length
      simp only [Option.bind_eq_bind, Option.bind_some]
      cases hr : takeRead (scatter vec h₁ bs) buf (vec.head?.map Iovec.block)
          (delivered vec bs).length with
      | none =>
        rw [hr, Option.map_none] at htake
        rw [Option.map_eq_none_iff.mp htake.symm]
      | some x =>
        obtain ⟨h₂, buf₂, head⟩ := x
        rw [hr, Option.map_some] at htake
        obtain ⟨⟨h₃, buf₃, head'⟩, hr', heq⟩ := Option.map_eq_some_iff.mp htake.symm
        obtain ⟨rfl, rfl⟩ := Prod.mk.inj heq
        rw [hr']
        simp only [Option.bind_some, Option.map_bind, Function.comp_def, Option.map_some]

/-- Reading into any buffer ends, and the chain it leaves is a block that is not full. -/
theorem appendFromFileDescriptor_wf (hw : h.WF) (t : ThreadId) (buf : IOBuffer) (maxSize : ℕ)
    (r : ReadOutcome) :
    ∃ h' buf' nr, appendFromFileDescriptor h t buf maxSize r = some (h', buf', nr) ∧ h'.WF ∧
      ∀ b, h'.tlsBlockChain t = some b → 0 < (h'.block b).freeSpace := by
  obtain ⟨h', buf₁, nr₁, he, hw', -, -, -, hfree, -⟩ :=
    appendFromFileDescriptor_spec hw (wf_empty h) t maxSize r
  have hheap := appendFromFileDescriptor_heap h t buf empty maxSize r
  rw [he] at hheap
  obtain ⟨⟨h'', buf', nr⟩, he', rfl⟩ := Option.map_eq_some_iff.mp hheap
  exact ⟨h'', buf', nr, he', hw', hfree⟩

end IOBuffer

namespace OutputStream

variable {h : Heap}

theorem next_wf (hw : h.WF) (t : ThreadId) (s : OutputStream) :
    ∃ h' s' b o size, s.next h t = some (h', s', b, o, size) ∧ h'.WF := by
  obtain ⟨h₁, b, hs, hw₁, -, -, hlt, -⟩ := h.shareBlockFromTLSChain_spec hw t
  refine ⟨_, _, _, _, _, by rw [next, hs]; rfl, ?_⟩
  exact hw₁.setBlock rfl le_rfl fun t' ht' => hw₁.chain_next t' b ht'

variable {popped : Slice → ℕ}

theorem backUpLoop_wf (hp : LeavesLength popped) (count : ℕ) (hw : h.WF) (n : ℕ) (l : List Slice) :
    (backUpLoop popped count h n l).1.WF := by
  induction l generalizing count h n with
  | nil => exact hw
  | cons s l ih =>
    rw [backUpLoop_cons hp]
    split_ifs
    · exact hw
    · exact hw.shrink _ (Nat.sub_le _ _)
    · exact ih _ (hw.shrink _ (Nat.sub_le _ _)) _

theorem backUp_wf (hp : LeavesLength popped) (hw : h.WF) (s : OutputStream) (count : ℕ) :
    (backUp popped h s count).1.WF :=
  backUpLoop_wf hp count hw s.byteCount s.buf.ref.reverse

end OutputStream

structure Buffers where
  heap : Heap
  stream : BufId → OutputStream

inductive BlockOp where
  | appendChar (t : ThreadId) (b : BufId) (c : UInt8)
  | append (t : ThreadId) (b : BufId) (data : Option Bytes)
  | appendFromFileDescriptor (t : ThreadId) (b : BufId) (maxSize : ℕ) (r : ReadOutcome)
  | next (t : ThreadId) (b : BufId)
  | backUp (b : BufId) (count : ℕ)
deriving DecidableEq, Repr

namespace Buffers

def init (memory : BlockId → Block) : Buffers := ⟨Heap.init memory, fun _ => ⟨IOBuffer.empty, 0⟩⟩

def setStream (w : Buffers) (h : Heap) (b : BufId) (s : OutputStream) : Buffers :=
  ⟨h, Function.update w.stream b s⟩

def step (popped : Slice → ℕ) (w : Buffers) : BlockOp → Option Buffers
  | .appendChar t b c => do
    let (h, buf) ← IOBuffer.appendChar w.heap t (w.stream b).buf c
    some (w.setStream h b { w.stream b with buf })
  | .append t b data => do
    let (h, buf) ← IOBuffer.append w.heap t (w.stream b).buf data
    some (w.setStream h b { w.stream b with buf })
  | .appendFromFileDescriptor t b maxSize r => do
    let (h, buf, _) ← IOBuffer.appendFromFileDescriptor w.heap t (w.stream b).buf maxSize r
    some (w.setStream h b { w.stream b with buf })
  | .next t b => do
    let (h, s, _) ← (w.stream b).next w.heap t
    some (w.setStream h b s)
  | .backUp b count =>
    let (h, s) := (w.stream b).backUp popped w.heap count
    some (w.setStream h b s)

variable {w : Buffers} {popped : Slice → ℕ}

theorem step_wf (hp : OutputStream.LeavesLength popped) (w : Buffers) (op : BlockOp)
    (hw : w.heap.WF) : ∃ w', w.step popped op = some w' ∧ w'.heap.WF := by
  cases op with
  | appendChar t b c =>
    obtain ⟨h₁, k, hs, hw₁, -, -, hlt, hf⟩ := w.heap.shareBlockFromTLSChain_spec hw t
    exact ⟨_, by rw [step, IOBuffer.appendChar, hs]; rfl, fill_wf hw₁ hlt (show [c].length ≤ _ from hf)⟩
  | append t b data =>
    obtain ⟨h', buf', he, hw'⟩ := append_wf hw t (w.stream b).buf data
    exact ⟨_, by rw [step, he]; rfl, hw'⟩
  | appendFromFileDescriptor t b maxSize r =>
    obtain ⟨h', buf', nr, he, hw', -⟩ :=
      appendFromFileDescriptor_wf hw t (w.stream b).buf maxSize r
    exact ⟨_, by rw [step, he]; rfl, hw'⟩
  | next t b =>
    obtain ⟨h', s', k, o, size, he, hw'⟩ := (w.stream b).next_wf hw t
    exact ⟨_, by rw [step, he]; rfl, hw'⟩
  | backUp b count => exact ⟨_, rfl, OutputStream.backUp_wf hp hw (w.stream b) count⟩

/-- The chain of a thread is at most one block, without a successor; a read into any buffer ends
with its last loop and leaves such a chain again, with a block that is not full. -/
theorem tls_chain_short (hp : OutputStream.LeavesLength popped) (memory : BlockId → Block)
    (ops : List BlockOp) :
    ∃ w, run (step popped) (init memory) ops = some w ∧
      (∀ t b, w.heap.tlsBlockChain t = some b → (w.heap.block b).next = none) ∧
      ∀ (t : ThreadId) (buf : IOBuffer) (maxSize : ℕ) (r : ReadOutcome), ∃ h' buf' nr,
        IOBuffer.appendFromFileDescriptor w.heap t buf maxSize r = some (h', buf', nr) ∧
          ∀ b, h'.tlsBlockChain t = some b →
            (h'.block b).next = none ∧ 0 < (h'.block b).freeSpace := by
  obtain ⟨w, hr, hw⟩ := run_total (fun w op hw _ => step_wf hp w op hw) (Heap.wf_init memory)
    (meets_of_forall (fun _ _ => trivial) (init memory) :
      Meets (step popped) (fun _ _ => True) (init memory) ops)
  refine ⟨w, hr, hw.chain_next, fun t buf maxSize r => ?_⟩
  obtain ⟨h', buf', nr, he, hw', hfree⟩ := appendFromFileDescriptor_wf hw t buf maxSize r
  exact ⟨h', buf', nr, he, fun b hb => ⟨hw'.chain_next t b hb, hfree b hb⟩⟩

theorem tls_chain_short_backUp :
    ∃ w, run (step Slice.length) (init fun _ => ⟨none, 0, 0, fun _ => 0⟩)
        [.next 0 0, .next 0 0, .backUp 0 8170] = some w ∧
      ∀ t b, w.heap.tlsBlockChain t = some b → (w.heap.block b).next = none := by
  obtain ⟨w, hr, hnext, -⟩ := tls_chain_short (fun _ => rfl)
    (fun _ => ⟨none, 0, 0, fun _ => 0⟩) [.next 0 0, .next 0 0, .backUp 0 8170]
  exact ⟨w, hr, hnext⟩

end Buffers

end SofaBolt
