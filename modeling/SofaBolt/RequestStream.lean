import SofaBolt.BoltRequest
import SofaBolt.SocketWrite

/- `Socket::write` does not look at the status of the socket; of a connection on which a write
has failed it is assumed that later ones fail too. -/

namespace SofaBolt.RequestStream

open IOBuffer Wire Run Bolt SocketWrite

/-- The length of the frame that begins with `bs`; a part of a header counts as a whole one. -/
def frameLength (bs : Bytes) : ℕ :=
  22 + ((decodeFields [1, 1, 2, 1, 4, 1, 4, 2, 2, 4] bs).map fun r => (r.1.drop 7).sum).getD 0

def decodeRequests (bs : Bytes) : List (Option RequestFrame) × Bytes :=
  if frameLength bs ≤ bs.length then
    let rest := decodeRequests (bs.drop (frameLength bs))
    (decodeRequest (bs.take (frameLength bs)) :: rest.1, rest.2)
  else ([], bs)
termination_by bs.length
decreasing_by
  rw [List.length_drop]
  unfold frameLength at *
  omega

def payload : RequestData → Option Bytes
  | .string data => data
  | .protobuf data => data.map Message.bytes
  | _ => none

def fits (req : BoltRequest) : Bool :=
  (payload req.data).any (fun p => p.length < 2 ^ 32) &&
    decide (((headerEntries req).flatMap (encodeEntry 4)).length ≤ 65535)

def received (req : BoltRequest) (requestId : ℕ) : RequestFrame where
  proto := 1
  type := 1
  cmdcode := 1
  ver2 := 1
  requestId := requestId % 2 ^ 32
  codec := 11
  timeout := 2 ^ 32 - 1
  classLen := className.length
  headerLen := ((headerEntries req).flatMap (encodeEntry 4)).length
  contentLen := ((payload req.data).getD []).length
  className := className
  entries := headerEntries req
  content := (payload req.data).getD []

structure Assembled where
  req : BoltRequest
  requestId : ℕ
  buffer : IOBuffer

/-- `sent` is what the descriptor has taken, `written` the requests whose `write` returned true. -/
structure Connection where
  heap : Heap
  sessionId : ℕ
  ready : List Assembled
  active : Bool
  sent : Bytes
  written : List (BoltRequest × ℕ)

def Connection.init (memory : BlockId → Block) : Connection where
  heap := Heap.init memory
  sessionId := 1
  ready := []
  active := true
  sent := []
  written := []

inductive Act where
  | assemble (t : ThreadId) (req : BoltRequest)
  | write (i : ℕ) (timeoutMs : ℤ) (rs : List WriteOutcome)

def Connection.wrote (s : Connection) (i : ℕ) (a : Assembled) (c : Call) : Option Connection :=
  match c.status with
  | .returned ret => some { s with
      ready := s.ready.eraseIdx i
      active := c.active
      sent := s.sent ++ c.sent
      written := if ret then s.written ++ [(a.req, a.requestId)] else s.written }
  | _ => none

def Connection.step (s : Connection) : Act → Option Connection
  | .assemble t req => (assembleBoltRequest s.heap t req s.sessionId IOBuffer.empty).map fun r =>
    { s with
      heap := r.1
      sessionId := (s.sessionId + 1) % 2 ^ 64
      ready := if r.2.2 then s.ready ++ [⟨req, s.sessionId, r.2.1⟩] else s.ready }
  | .write i timeoutMs rs => (s.ready[i]?).bind fun a =>
    (run (SocketWrite.step s.heap) (begin a.buffer timeoutMs s.active) rs).bind (s.wrote i a)

def refused : WriteOutcome → Bool
  | .error _ => true
  | .accepted _ => false

def Connection.allows (s : Connection) : Act → Bool
  | .assemble _ req => fits req
  | .write _ _ rs => rs.all fun r => r ≠ .error .eagain && (s.active || refused r)

def frame (req : BoltRequest) (requestId : ℕ) : Bytes :=
  (finalHeader req requestId ((payload req.data).getD [])).bytes ++
    (className ++ ((headerEntries req).flatMap (encodeEntry 4) ++ (payload req.data).getD []))

variable {req : BoltRequest} {h : Heap}

theorem carries_of_fits (hf : fits req = true) : req.data.Carries ((payload req.data).getD []) := by
  cases hd : req.data with
  | string data =>
    cases data with
    | none => simp [fits, payload, hd] at hf
    | some p => exact .inl rfl
  | protobuf data =>
    cases data with
    | none => simp [fits, payload, hd] at hf
    | some m => exact .inr ⟨m.keeps, rfl⟩
  | _ => simp [fits, payload, hd] at hf

theorem lengths_of_fits (hf : fits req = true) : ((payload req.data).getD []).length < 2 ^ 32 ∧
    ((headerEntries req).flatMap (encodeEntry 4)).length ≤ 65535 := by
  cases hp : payload req.data with
  | none => simp [fits, hp] at hf
  | some p => simpa [fits, hp] using hf

theorem finalHeader_lengths (hf : fits req = true) (requestId : ℕ) :
    (finalHeader req requestId ((payload req.data).getD [])).contentLen.toNat =
        ((payload req.data).getD []).length ∧
      (finalHeader req requestId ((payload req.data).getD [])).headerLen.toNat =
        ((headerEntries req).flatMap (encodeEntry 4)).length := by
  obtain ⟨hp, hkvs⟩ := lengths_of_fits hf
  simp only [finalHeader, UInt32.toNat_ofNat', UInt16.toNat_ofNat']
  omega

theorem decodeRequest_frame (hf : fits req = true) (requestId : ℕ) :
    decodeRequest (frame req requestId) = some (received req requestId) := by
  obtain ⟨hcon, hhl⟩ := finalHeader_lengths hf requestId
  have hfit : ∀ e ∈ headerEntries req, e.Fits 4 :=
    fits_of_flatMap_lt (by have := (lengths_of_fits hf).2; omega)
  have hcmd : (finalHeader req requestId ((payload req.data).getD [])).cmdcode = 1 := by
    simp only [finalHeader, initHeader, if_neg (carries_of_fits hf).ne_none]
    rfl
  have hid : (finalHeader req requestId ((payload req.data).getD [])).requestId.toNat =
      requestId % 2 ^ 32 := UInt32.toNat_ofNat'
  rw [frame, decodeRequest_bytes _ className _ (headerEntries req) rfl hhl.symm hfit hcon.symm,
    hcmd, hid, hhl, hcon]
  rfl

theorem le_frameLength (bs : Bytes) : 22 ≤ frameLength bs := Nat.le_add_right ..

/-- A stream that begins with the header of a frame shows its length. -/
theorem frameLength_header (hf : fits req = true) (requestId : ℕ) (rest : Bytes) :
    frameLength ((finalHeader req requestId ((payload req.data).getD [])).bytes ++ rest) =
      (frame req requestId).length := by
  obtain ⟨hcon, hhl⟩ := finalHeader_lengths hf requestId
  have hcl : (finalHeader req requestId ((payload req.data).getD [])).classLen.toNat =
      className.length := rfl
  rw [frameLength, BoltRequestHeader.decodeFields_bytes]
  simp [frame, hcon, hhl, hcl]

theorem frameLength_frame (hf : fits req = true) (requestId : ℕ) (rest : Bytes) :
    frameLength (frame req requestId ++ rest) = (frame req requestId).length := by
  conv_lhs => rw [frame, List.append_assoc]
  exact frameLength_header hf requestId _

theorem lt_frameLength_of_prefix (hf : fits req = true) {requestId : ℕ} {part : Bytes}
    (hp : part <+: frame req requestId) (hlt : part.length < (frame req requestId).length) :
    part.length < frameLength part := by
  by_cases hshort : part.length < 22
  · exact hshort.trans_le (le_frameLength part)
  · have hhead : (finalHeader req requestId ((payload req.data).getD [])).bytes <+: part :=
      List.prefix_of_prefix_length_le (List.prefix_append ..) hp
        (by rw [BoltRequestHeader.bytes_length]; omega)
    obtain ⟨rest, rfl⟩ := hhead
    rwa [frameLength_header hf requestId rest]

theorem decodeRequests_part {part : Bytes} (hlt : part.length < frameLength part) :
    decodeRequests part = ([], part) := by
  rw [decodeRequests, if_neg (not_le.mpr hlt)]

theorem decodeRequests_frames {written : List (BoltRequest × ℕ)}
    (hf : ∀ r ∈ written, fits r.1 = true) {part : Bytes} (hlt : part.length < frameLength part) :
    decodeRequests (written.flatMap (fun r => frame r.1 r.2) ++ part) =
      (written.map fun r => some (received r.1 r.2), part) := by
  induction written with
  | nil => exact decodeRequests_part hlt
  | cons r written ih =>
    obtain ⟨hr, hrest⟩ := List.forall_mem_cons.mp hf
    rw [List.flatMap_cons, List.append_assoc, decodeRequests, frameLength_frame hr,
      if_pos (by simp), List.take_left, List.drop_left, ih hrest, decodeRequest_frame hr]
    rfl

variable {b : IOBuffer} {c c' : Call} {active : Bool} {content : Bytes}

theorem step_error (hi : SocketWrite.Inv h content c) {e : Errno} (he : e ≠ .eagain)
    (hs : SocketWrite.step h c (.error e) = some c') :
    c'.status = .returned false ∧ c'.active = false ∧ c'.sent = c.sent ∧
      c.sent.length < content.length := by
  rw [SocketWrite.step] at hs
  split_ifs at hs with hrun
  obtain ⟨buffer, sent, nw, hcut, -, rfl, rfl, -⟩ :=
    cutIntoFileDescriptor_spec hi.buffer (hi.content_ne_nil hrun) c.bufferSize (.error e)
  rw [hcut] at hs
  dsimp only at hs
  rw [if_pos ⟨by decide, by simpa using he⟩] at hs
  obtain rfl := Option.some.inj hs
  have hlt := hi.running hrun
  rw [hi.count, hi.size] at hlt
  exact ⟨rfl, rfl, List.append_nil _, hlt⟩

theorem step_accepted (hi : SocketWrite.Inv h content c) {n : ℕ}
    (hs : SocketWrite.step h c (.accepted n) = some c') :
    c'.status ≠ .returned false ∧ c'.active = c.active := by
  rw [SocketWrite.step] at hs
  split_ifs at hs with hrun
  obtain ⟨buffer, sent, nw, hcut, -, k, rfl, -⟩ :=
    cutIntoFileDescriptor_spec hi.buffer (hi.content_ne_nil hrun) c.bufferSize (.accepted n)
  rw [hcut] at hs
  dsimp only at hs
  rw [if_neg (by omega)] at hs
  obtain rfl := Option.some.inj hs
  refine ⟨?_, rfl⟩
  simp only [Call.test]
  split_ifs <;> simp

/-- A call on a socket that is `active` or not: one that fails has not sent everything, and
nothing if it leaves the socket active. -/
structure Writes (h : Heap) (content : Bytes) (active : Bool) (c : Call) : Prop where
  inv : SocketWrite.Inv h content c
  failed : c.status = .returned false → c.sent.length < content.length ∧
    (c.active = true → active = true ∧ c.sent = [])
  kept : c.status ≠ .returned false → c.active = active
  refused : active = false → c.sent = [] ∧ c.status ≠ .returned true

theorem writes_begin (hb : b.WF h) (hne : b.toString h ≠ []) (timeoutMs : ℤ) :
    Writes h (b.toString h) active (begin b timeoutMs active) where
  inv := inv_begin hb timeoutMs active
  failed _ := ⟨List.length_pos_iff.mpr hne, fun ha => ⟨ha, rfl⟩⟩
  kept _ := rfl
  refused _ := ⟨rfl, by simp only [begin]; split_ifs <;> simp⟩

theorem Writes.step (c : Call) (r : WriteOutcome) (c' : Call) (hw : Writes h content active c)
    (hr : r ≠ .error .eagain ∧ (active = true ∨ RequestStream.refused r = true))
    (hs : SocketWrite.step h c r = some c') : Writes h content active c' := by
  have hi := hw.inv.step c r c' hr.1 hs
  cases r with
  | error e =>
    obtain ⟨hst, hact, hsent, hlt⟩ := step_error hw.inv (by simpa using hr.1) hs
    refine ⟨hi, fun _ => ⟨hsent ▸ hlt, fun ha => ?_⟩, fun hne => absurd hst hne, fun ha => ?_⟩
    · exact absurd (hact.symm.trans ha) (by decide)
    · exact ⟨hsent.trans (hw.refused ha).1, by simp [hst]⟩
  | accepted n =>
    obtain ⟨hst, hact⟩ := step_accepted hw.inv hs
    have hactive : active = true := hr.2.resolve_right (by simp [RequestStream.refused])
    have hrun : c.status ≠ .returned false := by
      intro hc
      simp [SocketWrite.step, hc] at hs
    exact ⟨hi, fun h => absurd h hst, fun _ => hact.trans (hw.kept hrun), fun ha => by
      simp [ha] at hactive⟩

structure Connection.Inv (s : Connection) : Prop where
  heap : s.heap.WF
  ready : ∀ a ∈ s.ready, fits a.req = true ∧ a.buffer.WF s.heap ∧
    a.buffer.toString s.heap = frame a.req a.requestId
  written : ∀ r ∈ s.written, fits r.1 = true
  sent : ∃ part, s.sent = s.written.flatMap (fun r => frame r.1 r.2) ++ part ∧
    part.length < frameLength part ∧ (s.active = true → part = [])

variable {s s' : Connection}

theorem Connection.inv_init (memory : BlockId → Block) : (init memory).Inv where
  heap := Heap.wf_init memory
  ready := by simp [init]
  written := by simp [init]
  sent := ⟨[], rfl, le_frameLength [] |>.trans_lt' (by simp), fun _ => rfl⟩

theorem Connection.Inv.assemble (hi : s.Inv) {t : ThreadId} (hf : fits req = true)
    (hs : s.step (.assemble t req) = some s') : s'.Inv := by
  obtain ⟨h', b', he, hw', hg, hb', htxt⟩ := assembleBoltRequest_spec (carries_of_fits hf)
    (lengths_of_fits hf).2 hi.heap (wf_empty s.heap) t s.sessionId
  rw [Connection.step, he] at hs
  cases hs
  refine ⟨hw', fun a ha => ?_, hi.written, hi.sent⟩
  rcases List.mem_append.mp ha with ha | ha
  · obtain ⟨hfa, hba, hta⟩ := hi.ready a ha
    exact ⟨hfa, hba.grows hg, (toString_grows hba hg).trans hta⟩
  · cases List.mem_singleton.mp ha
    exact ⟨hf, hb', by rw [htxt, toString_empty]; rfl⟩

theorem Connection.Inv.write (hi : s.Inv) {i : ℕ} {timeoutMs : ℤ} {rs : List WriteOutcome}
    (hall : s.allows (.write i timeoutMs rs) = true)
    (hs : s.step (.write i timeoutMs rs) = some s') : s'.Inv := by
  obtain ⟨a, ha, hs⟩ := Option.bind_eq_some_iff.mp hs
  obtain ⟨c, hrun, hs⟩ := Option.bind_eq_some_iff.mp hs
  obtain ⟨hfa, hba, hta⟩ := hi.ready a (mem_of_getElem? ha)
  have hne : a.buffer.toString s.heap ≠ [] := by
    rw [hta]
    simp [frame, className, literal]
  have hr : ∀ r ∈ rs, r ≠ .error .eagain ∧ (s.active = true ∨ refused r = true) := by
    intro r hr
    simpa using List.all_eq_true.mp hall r hr
  have hw := run_induction Writes.step (writes_begin hba hne timeoutMs)
    (meets_of_forall hr (begin a.buffer timeoutMs s.active)) hrun
  rw [hta] at hw
  obtain ⟨part, hsent, hpart, hact⟩ := hi.sent
  have hready : ∀ a' ∈ s.ready.eraseIdx i, fits a'.req = true ∧ a'.buffer.WF s.heap ∧
      a'.buffer.toString s.heap = frame a'.req a'.requestId :=
    fun a' ha' => hi.ready a' (List.mem_of_mem_eraseIdx ha')
  cases hst : c.status with
  | returned ret =>
    rw [wrote, hst] at hs
    cases hs
    cases ret with
    | true =>
      have hactive : s.active = true := by
        by_contra hna
        exact (hw.refused (by simpa using hna)).2 hst
      refine ⟨hi.heap, hready, fun r hr => ?_, [], ?_, le_frameLength [] |>.trans_lt' (by simp),
        fun _ => rfl⟩
      · rcases List.mem_append.mp hr with hr | hr
        · exact hi.written r hr
        · cases List.mem_singleton.mp hr
          exact hfa
      · simp [hsent, hact hactive, hw.inv.sent_eq hst]
    | false =>
      obtain ⟨hlt, hkeep⟩ := hw.failed hst
      have hpre : c.sent <+: frame a.req a.requestId := ⟨_, hw.inv.split⟩
      cases hactive : s.active with
      | true =>
        refine ⟨hi.heap, hready, hi.written, c.sent, ?_, lt_frameLength_of_prefix hfa hpre hlt,
          fun ha => (hkeep ha).2⟩
        simp [hsent, hact hactive]
      | false =>
        refine ⟨hi.heap, hready, hi.written, part, ?_, hpart, fun ha => ?_⟩
        · simp [hsent, (hw.refused hactive).1]
        · exact absurd ((hkeep ha).1.symm.trans hactive) (by decide)
  | _ =>
    rw [wrote, hst] at hs
    cases hs

theorem Connection.Inv.step (s : Connection) (a : Act) (s' : Connection) (hi : s.Inv)
    (hall : s.allows a = true) (hs : s.step a = some s') : s'.Inv := by
  cases a with
  | assemble t req => exact hi.assemble hall hs
  | write i timeoutMs rs => exact hi.write hall hs

/-- The peer reads the requests whose `write` returned true, in the order of the writes and each
once, whatever pieces the descriptor takes.  One whose `write` failed is never complete. -/
theorem peer_reads_written (memory : BlockId → Block) (as : List Act) (s : Connection)
    (hm : Meets Connection.step (fun s a => s.allows a = true) (.init memory) as)
    (hr : run Connection.step (.init memory) as = some s) :
    ∃ part, decodeRequests s.sent = (s.written.map fun r => some (received r.1 r.2), part) ∧
      (s.active = true → part = []) := by
  have hi := run_induction Connection.Inv.step (Connection.inv_init memory) hm hr
  obtain ⟨part, hsent, hpart, hact⟩ := hi.sent
  exact ⟨part, by rw [hsent, decodeRequests_frames hi.written hpart], hact⟩

theorem peer_reads_written_pieces :
    ∃ s, run Connection.step (.init fun _ => ⟨none, 0, 0, fun _ => 0⟩)
        [.assemble 0 ⟨literal "s", literal "m", [], .string (some [1, 2])⟩,
          .assemble 1 ⟨literal "s", [], [255], .protobuf (some ⟨[8, 1], [0]⟩)⟩,
          .write 1 10 [.accepted 7, .accepted 50, .accepted 1000],
          .write 0 10 [.accepted 9, .error .other]] = some s ∧
      s.active = false ∧ ∃ part, decodeRequests s.sent =
        ([some (received ⟨literal "s", [], [255], .protobuf (some ⟨[8, 1], [0]⟩)⟩ 2)], part) := by
  have hrun : ∃ s, run Connection.step (.init fun _ => ⟨none, 0, 0, fun _ => 0⟩)
        [.assemble 0 ⟨literal "s", literal "m", [], .string (some [1, 2])⟩,
          .assemble 1 ⟨literal "s", [], [255], .protobuf (some ⟨[8, 1], [0]⟩)⟩,
          .write 1 10 [.accepted 7, .accepted 50, .accepted 1000],
          .write 0 10 [.accepted 9, .error .other]] = some s ∧ s.active = false ∧
      s.written = [(⟨literal "s", [], [255], .protobuf (some ⟨[8, 1], [0]⟩)⟩, 2)] := by
    decide +kernel
  obtain ⟨s, hs, hact, hwritten⟩ := hrun
  obtain ⟨part, hpart, -⟩ := peer_reads_written _ _ s (by decide +kernel) hs
  exact ⟨s, hs, hact, part, by rw [hpart, hwritten]; rfl⟩

end SofaBolt.RequestStream
