import SofaBolt.IOBufferRefinement
import SofaBolt.Run

namespace SofaBolt.SocketWrite

open IOBuffer Run

inductive Status where
  | running
  | returned (ret : Bool)
  /-- `cut_into_file_descriptor` was called on an empty buffer. -/
  | undefined
deriving DecidableEq, Repr

/-- The call at the test of its loop; `sent` is all that the descriptor has taken so far,
`active` the status of the socket. -/
structure Call where
  buffer : IOBuffer
  bufferSize : ℕ
  curSize : ℕ
  sent : Bytes
  active : Bool
  status : Status
deriving DecidableEq, Repr

def begin (buffer : IOBuffer) (timeoutMs : ℤ) (active : Bool) : Call where
  buffer := buffer
  bufferSize := buffer.length
  curSize := 0
  sent := []
  active := active
  status := if timeoutMs < 0 ∨ buffer.length = 0 then .returned false else .running

/-- `cur_size += nw`: a negative result wraps.  The sums of the others are lengths of stretches
of the buffer. -/
def addResult (curSize : ℕ) : ℤ → ℕ
  | .ofNat n => curSize + n
  | .negSucc n => (curSize + (2 ^ 64 - (n + 1))) % 2 ^ 64

/-- `while (cur_size < buffer_size)`. -/
def Call.test (c : Call) : Call :=
  { c with status := if c.curSize < c.bufferSize then .running else .returned true }

def step (h : Heap) (c : Call) (r : WriteOutcome) : Option Call :=
  if c.status = .running then
    match c.buffer.cutIntoFileDescriptor h c.bufferSize r with
    | none => some { c with status := .undefined }
    | some (buffer, sent, nw) =>
      let c := { c with buffer, sent := c.sent ++ sent }
      if nw < 0 ∧ r ≠ .error .eagain then
        some { c with active := false, status := .returned false }
      else some { c with curSize := addResult c.curSize nw }.test
  else none

structure Inv (h : Heap) (content : Bytes) (c : Call) : Prop where
  buffer : c.buffer.WF h
  size : c.bufferSize = content.length
  split : c.sent ++ c.buffer.toString h = content
  count : c.curSize = c.sent.length
  running : c.status = .running → c.curSize < c.bufferSize
  done : c.status = .returned true → c.bufferSize ≤ c.curSize
  defined : c.status ≠ .undefined

variable {h : Heap} {content : Bytes} {buffer : IOBuffer} {c c' : Call}

theorem inv_begin (hb : buffer.WF h) (timeoutMs : ℤ) (active : Bool) :
    Inv h (buffer.toString h) (begin buffer timeoutMs active) where
  buffer := hb
  size := length_eq buffer h
  split := rfl
  count := rfl
  running hs := by
    simp only [begin] at hs ⊢
    split_ifs at hs with h0
    omega
  done hs := by
    simp only [begin] at hs
    split_ifs at hs
    simp at hs
  defined := by
    simp only [begin]
    split_ifs <;> simp

theorem Inv.test {buffer : IOBuffer} {sent : Bytes} (hi : Inv h content c) (hb : buffer.WF h)
    (hsplit : sent ++ buffer.toString h = content) :
    Inv h content { c with buffer, sent, curSize := sent.length }.test where
  buffer := hb
  size := hi.size
  split := hsplit
  count := rfl
  running hs := by
    simp only [Call.test] at hs ⊢
    split_ifs at hs with hlt
    exact hlt
  done hs := by
    simp only [Call.test] at hs ⊢
    split_ifs at hs with hlt
    omega
  defined := by
    simp only [Call.test]
    split_ifs <;> simp

theorem Inv.content_ne_nil (hi : Inv h content c) (hs : c.status = .running) :
    c.buffer.toString h ≠ [] := by
  intro hempty
  have hlen := congrArg List.length hi.split
  have hlt := hi.running hs
  rw [hempty, List.append_nil, ← hi.count, ← hi.size] at hlen
  omega

theorem Inv.sent_eq (hi : Inv h content c) (hs : c.status = .returned true) : c.sent = content := by
  have hlen := congrArg List.length hi.split
  have hle := hi.done hs
  rw [List.length_append, ← hi.count, ← hi.size] at hlen
  have hempty : c.buffer.toString h = [] := List.length_eq_zero_iff.mp (by omega)
  rw [← hi.split, hempty, List.append_nil]

theorem Inv.step (c : Call) (r : WriteOutcome) (c' : Call) (hi : Inv h content c)
    (hr : r ≠ .error .eagain) (hs : step h c r = some c') : Inv h content c' := by
  rw [SocketWrite.step] at hs
  split_ifs at hs with hrun
  obtain ⟨buffer, sent, nw, hcut, hb, hspec⟩ :=
    cutIntoFileDescriptor_spec hi.buffer (hi.content_ne_nil hrun) c.bufferSize r
  rw [hcut] at hs
  dsimp only at hs
  cases r with
  | error e =>
    obtain ⟨rfl, rfl, htxt⟩ := hspec
    rw [if_pos ⟨by decide, hr⟩] at hs
    obtain rfl := Option.some.inj hs
    exact ⟨hb, hi.size, by rw [List.append_nil, htxt]; exact hi.split,
      by rw [List.append_nil]; exact hi.count, by simp, by simp, by simp⟩
  | accepted n =>
    obtain ⟨k, rfl, -, -, hk, rfl, htxt⟩ := hspec
    rw [if_neg (by omega)] at hs
    obtain rfl := Option.some.inj hs
    have hlen : ((c.buffer.toString h).take k).length = k := List.length_take_of_le hk
    have hcur : addResult c.curSize k = (c.sent ++ (c.buffer.toString h).take k).length := by
      rw [List.length_append, hlen, ← hi.count]
      rfl
    rw [hcur]
    refine hi.test hb ?_
    rw [htxt, List.append_assoc, List.take_append_drop, hi.split]

/-- A call none of whose writes meets `EAGAIN` writes from a non-empty buffer each time, and
if it returns true the descriptor has taken the content of the buffer. -/
theorem write_sends_all (hb : buffer.WF h) (timeoutMs : ℤ) (active : Bool)
    (rs : List WriteOutcome) (hr : ∀ r ∈ rs, r ≠ .error .eagain)
    (hrun : run (step h) (begin buffer timeoutMs active) rs = some c) :
    c.status ≠ .undefined ∧ (c.status = .running → c.buffer.toString h ≠ []) ∧
      (c.status = .returned true → c.sent = buffer.toString h) := by
  have hi : Inv h (buffer.toString h) c :=
    run_induction Inv.step (inv_begin hb timeoutMs active)
      (meets_of_forall hr (begin buffer timeoutMs active)) hrun
  exact ⟨hi.defined, hi.content_ne_nil, hi.sent_eq⟩

def sampleHeap : Heap where
  block _ := { next := none, size := 4, capacity := 8168, data := fun i => UInt8.ofNat (i + 1) }
  fresh := 1
  tlsBlockChain _ := none

def sampleBuffer : IOBuffer := ⟨[⟨0, 0, 2⟩, ⟨0, 3, 1⟩], 0⟩

theorem write_sends_all_pieces :
    ∃ c, run (step sampleHeap) (begin sampleBuffer 0 true) [.accepted 1, .accepted 2] = some c ∧
      c.status = .returned true ∧ c.sent = [1, 2, 4] := by
  have hwf : sampleBuffer.WF sampleHeap := ⟨by decide, by unfold Slice.InBlock; decide⟩
  have hget : ∃ c,
      run (step sampleHeap) (begin sampleBuffer 0 true) [.accepted 1, .accepted 2] = some c ∧
      c.status = .returned true := by
    decide
  obtain ⟨c, hrun, hret⟩ := hget
  exact ⟨c, hrun, hret, (write_sends_all hwf 0 true _ (by decide) hrun).2.2 hret⟩

/-- `EAGAIN` on the first write ends the call with nothing sent; on a later one it leaves the
call running when the buffer is empty. -/
theorem write_miscounts :
    ∃ c₁ c₂ c₃, run (step sampleHeap) (begin sampleBuffer 0 true) [.error .eagain] = some c₁ ∧
      c₁.status = .returned true ∧ c₁.sent = [] ∧
      run (step sampleHeap) (begin sampleBuffer 0 true)
        [.accepted 1, .error .eagain, .accepted 2] = some c₂ ∧
      c₂.status = .running ∧ c₂.buffer.toString sampleHeap = [] ∧
      step sampleHeap c₂ (.accepted 1) = some c₃ ∧ c₃.status = .undefined := by
  have hfirst : ∃ c,
      run (step sampleHeap) (begin sampleBuffer 0 true) [.error .eagain] = some c ∧
      c.status = .returned true ∧ c.sent = [] := by
    decide +kernel
  have hlater : ∃ c, run (step sampleHeap) (begin sampleBuffer 0 true)
      [.accepted 1, .error .eagain, .accepted 2] = some c ∧
      c.status = .running ∧ c.buffer.toString sampleHeap = [] ∧
      ∃ c', step sampleHeap c (.accepted 1) = some c' ∧ c'.status = .undefined := by
    decide +kernel
  obtain ⟨c₁, h₁, hret, hsent⟩ := hfirst
  obtain ⟨c₂, h₂, hrunning, hempty, c₃, h₃, hundef⟩ := hlater
  exact ⟨c₁, c₂, c₃, h₁, hret, hsent, h₂, hrunning, hempty, h₃, hundef⟩

end SofaBolt.SocketWrite
