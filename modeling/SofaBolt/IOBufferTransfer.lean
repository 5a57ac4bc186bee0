import SofaBolt.IOBufferRefinement
import SofaBolt.Run

namespace SofaBolt

open Run

/-- `operator=(IOBuffer &&)` for two buffers: this one and the cleared other one. -/
def IOBuffer.moveAssign (buf right : IOBuffer) : IOBuffer × IOBuffer :=
  ({ buf with ref := right.ref }, right.clear)

inductive Transfer where
  | op (o : Op)
  | appendBuffer (b right : BufId)
  | appendMove (b right : BufId)
  | moveAssign (b right : BufId)
deriving DecidableEq, Repr

namespace World

def transfer (w : World) : Transfer → Option World
  | .op o => (w.step o).map Prod.fst
  | .appendBuffer b right => some (w.setBuf b ((w.buf b).appendBuffer (w.buf right)))
  | .appendMove b right =>
    let (buf, buf') := (w.buf b).appendMove (w.buf right)
    some ((w.setBuf b buf).setBuf right buf')
  | .moveAssign b right =>
    if b ≠ right then
      let (buf, buf') := (w.buf b).moveAssign (w.buf right)
      some ((w.setBuf b buf).setBuf right buf')
    else some w

/-- No buffer is appended to itself, and a move assignment leaves the offset within the
slices it takes. -/
def Proper (w : World) : Transfer → Prop
  | .op o => o.Allowed w.content
  | .appendBuffer b right => b ≠ right
  | .appendMove b right => b ≠ right
  | .moveAssign b right => b ≠ right → (w.buf b).refOffset ≤ (w.buf right).ref.length

variable {w w' : World}

theorem transfer_wf (w : World) (x : Transfer) (w' : World) (hw : w.WF) (hp : w.Proper x)
    (hs : w.transfer x = some w') : w'.WF := by
  cases x with
  | op o =>
    obtain ⟨w₁, out, h₁, hw₁, -⟩ := step_spec hw o hp
    rw [transfer, h₁] at hs
    exact Option.some.inj hs ▸ hw₁
  | appendBuffer b right =>
    obtain rfl := Option.some.inj hs
    exact (setBuf_spec_same hw b ((hw.buf b).append (.refl _) (hw.buf right).inBlock)).1
  | appendMove b right =>
    obtain rfl := Option.some.inj hs
    exact (setBuf_spec_two hw b right ((hw.buf b).append (.refl _) (hw.buf right).inBlock)
      (IOBuffer.wf_empty _)).1
  | moveAssign b right =>
    rw [transfer] at hs
    split_ifs at hs with hne
    · obtain rfl := Option.some.inj hs
      have hb : ((w.buf b).moveAssign (w.buf right)).1.WF w.heap := ⟨hp hne, (hw.buf right).inBlock⟩
      exact (setBuf_spec_two hw b right hb (IOBuffer.wf_empty _)).1
    · exact Option.some.inj hs ▸ hw

theorem run_transfer_wf {xs : List Transfer} (hw : w.WF) (hm : Meets transfer Proper w xs)
    (hr : Run.run transfer w xs = some w') : w'.WF :=
  run_induction transfer_wf hw hm hr

/-- After any operations, appending a buffer none of whose slices has been consumed appends
its content, by copy and by move; no other buffer changes. -/
theorem append_buffer_appends (hw : w.WF) (xs : List Transfer) (hm : Meets transfer Proper w xs)
    (hr : Run.run transfer w xs = some w') (a b : BufId) (hab : a ≠ b)
    (hb : (w'.buf b).refOffset = 0) :
    ∃ w₁ w₂, w'.transfer (.appendBuffer a b) = some w₁ ∧ w'.transfer (.appendMove a b) = some w₂ ∧
      w₁.content = Function.update w'.content a (w'.content a ++ w'.content b) ∧
      w₁.buf b = w'.buf b ∧ w₁.WF ∧
      w₂.buf a = w₁.buf a ∧ w₂.content = Function.update w₁.content b [] ∧
      w₂.buf b = IOBuffer.empty ∧ w₂.WF := by
  have hw' : w'.WF := run_transfer_wf hw hm hr
  obtain ⟨hwf, htxt⟩ := IOBuffer.appendBuffer_spec (hw'.buf a) (hw'.buf b) hb
  obtain ⟨hw₁, hc₁⟩ := setBuf_spec_same hw' a hwf
  obtain ⟨hw₂, hc₂⟩ := setBuf_spec_two hw' a b hwf (IOBuffer.wf_empty w'.heap)
  refine ⟨_, _, rfl, rfl, ?_, ?_, hw₁, ?_, ?_, ?_, hw₂⟩
  · rw [hc₁, htxt]
    rfl
  · exact Function.update_of_ne hab.symm ..
  · exact Function.update_of_ne hab ..
  · rw [hc₁]
    exact hc₂
  · exact Function.update_self ..

def fillTwice : List Transfer :=
  [.op (.append 0 1 (some [1, 2])), .op (.append 1 1 (some [3]))]

theorem append_buffer_appends_two :
    ∃ w w₁ w₂, Run.run transfer (init fun _ => ⟨none, 0, 0, fun _ => 0⟩) fillTwice = some w ∧
      (w.buf 1).refOffset = 0 ∧ w.transfer (.appendBuffer 0 1) = some w₁ ∧
      w.transfer (.appendMove 0 1) = some w₂ ∧ w₁.content 0 = [1, 2, 3] ∧
      w₁.content 1 = [1, 2, 3] ∧ w₂.buf 0 = w₁.buf 0 ∧ w₂.content 1 = [] := by
  have hget : ∃ w, Run.run transfer (init fun _ => ⟨none, 0, 0, fun _ => 0⟩) fillTwice = some w ∧
      (w.buf 1).refOffset = 0 ∧ w.content 0 = [] ∧ w.content 1 = [1, 2, 3] := by
    decide +kernel
  obtain ⟨w, hr, h0, hc₀, hc₁⟩ := hget
  have hm : Meets transfer Proper (init fun _ => ⟨none, 0, 0, fun _ => 0⟩) fillTwice :=
    ⟨trivial, fun _ _ => ⟨trivial, fun _ _ => trivial⟩⟩
  obtain ⟨w₁, w₂, h₁, h₂, hc, -, -, ha, hc', -⟩ :=
    append_buffer_appends (wf_init _) fillTwice hm hr 0 1 (by decide) h0
  refine ⟨w, w₁, w₂, hr, h0, h₁, h₂, ?_, ?_, ha, ?_⟩
  · rw [hc, Function.update_self, hc₀, hc₁]
    rfl
  · rw [hc, Function.update_of_ne (by decide), hc₁]
  · rw [hc', Function.update_self]

def emptied : List Transfer := [.op (.append 0 1 (some [7])), .op (.popFront 1 1)]

/-- The byte comes back in the buffer it is appended to. -/
theorem append_buffer_revives :
    ∃ w w₁, Run.run transfer (init fun _ => ⟨none, 0, 0, fun _ => 0⟩) emptied = some w ∧
      w.transfer (.appendBuffer 0 1) = some w₁ ∧ w.content 0 = [] ∧ w.content 1 = [] ∧
      w₁.content 0 = [7] := by
  have hget : ∃ w, Run.run transfer (init fun _ => ⟨none, 0, 0, fun _ => 0⟩) emptied = some w ∧
      w.content 0 = [] ∧ w.content 1 = [] ∧
      ∃ w₁, w.transfer (.appendBuffer 0 1) = some w₁ ∧ w₁.content 0 = [7] := by
    decide +kernel
  obtain ⟨w, hr, hc₀, hc₁, w₁, h₁, hc⟩ := hget
  exact ⟨w, w₁, hr, h₁, hc₀, hc₁, hc⟩

/-- After any operations, a move assignment between buffers with as many consumed slices
transfers the content. -/
theorem move_assign_transfers (hw : w.WF) (xs : List Transfer) (hm : Meets transfer Proper w xs)
    (hr : Run.run transfer w xs = some w') (a b : BufId) (hab : a ≠ b)
    (hoff : (w'.buf a).refOffset = (w'.buf b).refOffset) :
    ∃ w₁, w'.transfer (.moveAssign a b) = some w₁ ∧ w₁.content a = w'.content b ∧
      w₁.content b = [] ∧ w₁.buf b = IOBuffer.empty ∧
      (w₁.buf a).refOffset ≤ (w₁.buf a).ref.length := by
  have hw' : w'.WF := run_transfer_wf hw hm hr
  have hmove : (w'.buf a).moveAssign (w'.buf b) = (w'.buf b, IOBuffer.empty) := by
    rw [IOBuffer.moveAssign, hoff]
    rfl
  obtain ⟨hw₁, hc⟩ := setBuf_spec_two hw' a b (hw'.buf b) (IOBuffer.wf_empty w'.heap)
  refine ⟨_, by rw [transfer, if_pos hab, hmove], ?_, ?_, ?_, (hw₁.buf a).offset_le⟩
  · rw [hc, Function.update_of_ne hab, Function.update_self]
    rfl
  · rw [hc, Function.update_self]
    rfl
  · exact Function.update_self ..

def consumedBoth : List Transfer :=
  [.op (.append 0 0 (some [7])), .op (.append 0 1 (some [8])), .op (.append 1 1 (some [9])),
    .op (.popFront 0 1), .op (.popFront 1 1)]

theorem move_assign_transfers_both :
    ∃ w w₁, Run.run transfer (init fun _ => ⟨none, 0, 0, fun _ => 0⟩) consumedBoth = some w ∧
      (w.buf 0).refOffset = (w.buf 1).refOffset ∧ w.transfer (.moveAssign 0 1) = some w₁ ∧
      w₁.content 0 = [9] ∧ w₁.content 1 = [] ∧ (w₁.buf 0).refOffset ≤ (w₁.buf 0).ref.length := by
  have hget : ∃ w,
      Run.run transfer (init fun _ => ⟨none, 0, 0, fun _ => 0⟩) consumedBoth = some w ∧
      (w.buf 0).refOffset = (w.buf 1).refOffset ∧ w.content 1 = [9] := by
    decide +kernel
  obtain ⟨w, hr, hoff, hc⟩ := hget
  have hm : Meets transfer Proper (init fun _ => ⟨none, 0, 0, fun _ => 0⟩) consumedBoth :=
    ⟨trivial, fun _ _ => ⟨trivial, fun _ _ => ⟨trivial, fun _ _ => ⟨trivial, fun _ _ =>
      ⟨trivial, fun _ _ => trivial⟩⟩⟩⟩⟩
  obtain ⟨w₁, h₁, ha, hb, -, hle⟩ :=
    move_assign_transfers (wf_init _) consumedBoth hm hr 0 1 (by decide) hoff
  exact ⟨w, w₁, hr, hoff, h₁, ha.trans hc, hb, hle⟩

def consumedOne : List Transfer :=
  [.op (.append 0 0 (some [7])), .op (.popFront 0 1), .op (.append 0 1 (some [8]))]

/-- The offset stays where it was: the content is lost, and moved out of an empty buffer the
offset is behind the end. -/
theorem move_assign_loses :
    ∃ w w₁ w₂, Run.run transfer (init fun _ => ⟨none, 0, 0, fun _ => 0⟩) consumedOne = some w ∧
      w.transfer (.moveAssign 0 1) = some w₁ ∧ w.content 1 = [8] ∧ w₁.content 0 = [] ∧
      w.transfer (.moveAssign 0 2) = some w₂ ∧ (w₂.buf 0).ref.length < (w₂.buf 0).refOffset := by
  have hget : ∃ w,
      Run.run transfer (init fun _ => ⟨none, 0, 0, fun _ => 0⟩) consumedOne = some w ∧
      w.content 1 = [8] ∧ (∃ w₁, w.transfer (.moveAssign 0 1) = some w₁ ∧ w₁.content 0 = []) ∧
      ∃ w₂, w.transfer (.moveAssign 0 2) = some w₂ ∧
        (w₂.buf 0).ref.length < (w₂.buf 0).refOffset := by
    decide +kernel
  obtain ⟨w, hr, hc, ⟨w₁, h₁, hc₁⟩, w₂, h₂, hc₂⟩ := hget
  exact ⟨w, w₁, w₂, hr, h₁, hc, hc₁, h₂, hc₂⟩

end World

end SofaBolt
