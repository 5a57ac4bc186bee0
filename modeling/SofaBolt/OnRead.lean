import SofaBolt.Socket

namespace SofaBolt

open IOBuffer Bolt Framing

variable {D : Type}

structure IsReply (f : Bytes) : Prop where
  isFrame : IsFrame f
  length_le : f.length ≤ boltHeaderSize + maxBoltBodySize
  requestId_ne : (BoltHeader.ofBytes f).requestId ≠ 0

structure IsResponse (f : Bytes) : Prop where
  isFrame : IsFrame f
  length_le : f.length ≤ boltHeaderSize + maxBoltBodySize

theorem IsReply.isResponse {f : Bytes} (hf : IsReply f) : IsResponse f :=
  ⟨hf.isFrame, hf.length_le⟩

def IsPartial (part : Bytes) : Prop :=
  part = [] ∨ ∃ next, IsResponse next ∧ part <+: next ∧ part.length < next.length

theorem IsPartial.not_isResponse {part f : Bytes} (hp : IsPartial part) (hf : IsResponse f) :
    ¬ f <+: part := by
  intro hpre
  have hlen := hf.isFrame.1
  rcases hp with rfl | ⟨next, hnext, hpart, hlt⟩
  · rw [List.prefix_nil.mp hpre, boltHeaderSize] at hlen
    exact absurd hlen (by decide)
  · have hhead : BoltHeader.ofBytes next = BoltHeader.ofBytes f := by
      rw [List.prefix_iff_eq_take.mp (hpre.trans hpart), BoltHeader.ofBytes_take hlen]
    have h₁ := hf.isFrame.2
    have h₂ := hnext.isFrame.2
    rw [hhead] at h₂
    have := hpre.length_le
    omega

theorem isPartial_of_pending {todo : List Bytes} (hf : ∀ f ∈ todo, IsReply f) {part : Bytes}
    (hpre : part <+: todo.flatten) (hp : Pending todo part) : IsPartial part := by
  cases todo with
  | nil => exact .inl hp
  | cons f fs =>
    refine .inr ⟨f, (hf f List.mem_cons_self).isResponse, ?_, hp⟩
    exact List.prefix_of_prefix_length_le hpre (List.prefix_append f fs.flatten) (le_of_lt hp)

def replyId (f : Bytes) : ℕ := (BoltHeader.ofBytes f).requestId.toNat

theorem IsReply.replyId_ne {f : Bytes} (hf : IsReply f) : replyId f ≠ 0 := by
  intro h0
  exact hf.requestId_ne (UInt32.toNat_inj.mp h0)

def Socket.Keyed (s : Socket D) : Prop :=
  ∀ id sid, s.sessionMap id = some sid → (s.session sid).requestId = id

/-- The call took the frame off the buffer, and it went to the session registered with its
id, in the map or in the queue, or nowhere if there is none. -/
structure HandedOut.Of (o : HandedOut D) (f : Bytes) : Prop where
  readBuf : o.before.readBuf.toString o.heap = f ++ o.after.readBuf.toString o.heap
  session :
    match (o.before.prepareSessions o.onReadBeginTime).sessionMap (replyId f) with
    | some sid => (o.before.sessionMap (replyId f) = some sid ∨ sid ∈ o.before.sessionInfo) ∧
        (o.before.session sid).requestId = replyId f ∧
        (o.after.session sid).readBuf.toString o.heap =
          (o.before.session sid).readBuf.toString o.heap ++ f ∧
        ∀ other, other ≠ sid → o.after.session other = o.before.session other
    | none => o.before.sessionMap (replyId f) = none ∧ o.after.session = o.before.session

namespace Socket

variable {s : Socket D} {h : Heap}

@[simp] theorem prepareSessions_readBuf (s : Socket D) (now : ℕ) :
    (s.prepareSessions now).readBuf = s.readBuf := rfl

@[simp] theorem prepareSessions_session (s : Socket D) (now : ℕ) :
    (s.prepareSessions now).session = s.session := rfl

@[simp] theorem prepareSessions_active (s : Socket D) (now : ℕ) :
    (s.prepareSessions now).active = s.active := rfl

theorem prepareSessions_nil (hq : s.sessionInfo = []) (now : ℕ) : s.prepareSessions now = s := by
  unfold prepareSessions
  rw [hq, popSessionInfo, ← hq]

theorem prepareSessions_cons {x : SessionId} {q : List SessionId} (hq : s.sessionInfo = x :: q)
    (now : ℕ) : s.prepareSessions now =
      if now ≤ (s.session x).requestTime then
        { s with sessionInfo := q, sessionMap := emplace s.sessionMap (s.session x).requestId x }
      else prepareSessions
        { s with sessionInfo := q, sessionMap := emplace s.sessionMap (s.session x).requestId x }
        now := by
  unfold prepareSessions
  rw [hq, popSessionInfo]
  split_ifs <;> rfl

theorem emplace_keyed {m : ℕ → Option SessionId} {session : SessionId → ReadSession D}
    (hm : ∀ id sid, m id = some sid → (session sid).requestId = id) (x : SessionId) :
    ∀ id sid, emplace m (session x).requestId x id = some sid → (session sid).requestId = id := by
  intro id sid hid
  rw [emplace_apply, Option.or_eq_some_iff] at hid
  rcases hid with hid | ⟨-, hid⟩
  · exact hm id sid hid
  · split_ifs at hid with e
    obtain rfl := Option.some.inj hid
    exact e.symm

theorem popSessionInfo_keyed (session : SessionId → ReadSession D) (now : ℕ) (q : List SessionId)
    (m : ℕ → Option SessionId) (hm : ∀ id sid, m id = some sid → (session sid).requestId = id) :
    ∀ id sid, (popSessionInfo session now q m).2 id = some sid → (session sid).requestId = id := by
  induction q generalizing m with
  | nil => exact hm
  | cons x q ih =>
    rw [popSessionInfo]
    split_ifs
    · exact emplace_keyed hm x
    · apply ih
      exact emplace_keyed hm x

theorem Keyed.prepareSessions (hk : s.Keyed) (now : ℕ) : (s.prepareSessions now).Keyed :=
  popSessionInfo_keyed s.session now s.sessionInfo s.sessionMap hk

/-- What stands in the map afterwards was in it or in the queue. -/
theorem popSessionInfo_registered (session : SessionId → ReadSession D) (now : ℕ)
    (q : List SessionId) (m : ℕ → Option SessionId) {id : ℕ} {sid : SessionId}
    (h : (popSessionInfo session now q m).2 id = some sid) : m id = some sid ∨ sid ∈ q := by
  induction q generalizing m with
  | nil => exact .inl h
  | cons x q ih =>
    have hemplace : emplace m (session x).requestId x id = some sid →
        m id = some sid ∨ sid ∈ x :: q := by
      intro hid
      rw [emplace_apply, Option.or_eq_some_iff] at hid
      rcases hid with hid | ⟨-, hid⟩
      · exact .inl hid
      · split_ifs at hid
        obtain rfl := Option.some.inj hid
        exact .inr List.mem_cons_self
    rw [popSessionInfo] at h
    split_ifs at h
    · exact hemplace h
    · exact (ih _ h).elim hemplace fun hq => .inr (List.mem_cons_of_mem x hq)

theorem popSessionInfo_kept (session : SessionId → ReadSession D) (now : ℕ) (q : List SessionId)
    (m : ℕ → Option SessionId) {id : ℕ} {sid : SessionId} (h : m id = some sid) :
    (popSessionInfo session now q m).2 id = some sid := by
  induction q generalizing m with
  | nil => exact h
  | cons x q ih =>
    have hemplace : emplace m (session x).requestId x id = some sid := by
      rw [emplace_apply, h, Option.some_or]
    rw [popSessionInfo]
    split_ifs
    · exact hemplace
    · exact ih _ hemplace

theorem cutIntoMessage_partial (hp : IsPartial (s.readBuf.toString h))
    (first : (ℕ → Option SessionId) → Option SessionId) (now : ℕ) :
    cutIntoMessage (boltProtocol D) first now h s = (s, 0) := by
  unfold cutIntoMessage
  rw [length_eq s.readBuf h]
  split_ifs with h0
  · rfl
  · rcases hp with hnil | ⟨next, hnext, hpre, hlt⟩
    · exact absurd (congrArg List.length hnil) h0
    · have hpre' : s.readBuf.toString h <+: next ++ [] := by rwa [List.append_nil]
      have hcheck := (checkHeader_spec hnext.isFrame hnext.length_le hpre' 0 0).1 hlt
      simp only [boltProtocol]
      generalize checkHeader h s.readBuf 0 0 = r at hcheck
      obtain ⟨ret, size, id⟩ := r
      obtain rfl : ret = .parseNotEnoughData := hcheck
      rfl

theorem toInt_replyId (f : Bytes) : (BitVec.ofNat 64 (replyId f)).toInt = replyId f := by
  have hlt : replyId f < 2 ^ 32 := UInt32.toNat_lt _
  rw [BitVec.toInt_ofNat', Int.bmod_eq_of_le (by omega) (by omega)]

theorem handOut_none {f rest : Bytes} (hw : s.WF h) (ht : s.readBuf.toString h = f ++ rest) :
    (s.handOut none f.length).WF h ∧ (s.handOut none f.length).readBuf.toString h = rest := by
  obtain ⟨hb, hc, -⟩ := popFront_spec hw.readBuf f.length
  exact ⟨⟨hb, hw.session⟩, by rw [handOut, hc, ht, List.drop_left]⟩

theorem handOut_some {f rest : Bytes} (hw : s.WF h) (ht : s.readBuf.toString h = f ++ rest)
    (sid : SessionId) :
    (s.handOut (some sid) f.length).WF h ∧
      (s.handOut (some sid) f.length).readBuf.toString h = rest ∧
      ((s.handOut (some sid) f.length).session sid).readBuf.toString h =
        (s.session sid).readBuf.toString h ++ f := by
  obtain ⟨hb, hc, hb', hc', -⟩ := cut_spec hw.readBuf (hw.session sid) f.length
  rw [ht, List.drop_left] at hc
  rw [ht, List.take_left] at hc'
  refine ⟨⟨hb, fun other => ?_⟩, hc, ?_⟩
  · by_cases e : other = sid
    · subst e
      simpa [handOut] using hb'
    · simpa [handOut, Function.update_of_ne e] using hw.session other
  · simpa [handOut] using hc'

theorem handOut_requestId (s : Socket D) (o : Option SessionId) (n : ℕ) (sid : SessionId) :
    ((s.handOut o n).session sid).requestId = (s.session sid).requestId := by
  cases o with
  | none => rfl
  | some x =>
    by_cases e : sid = x
    · subst e
      simp [handOut]
    · simp [handOut, Function.update_of_ne e]

theorem handOut_sessionMap (s : Socket D) (o : Option SessionId) (n : ℕ) :
    (s.handOut o n).sessionMap = s.sessionMap := by cases o <;> rfl

theorem handOut_sessionInfo (s : Socket D) (o : Option SessionId) (n : ℕ) :
    (s.handOut o n).sessionInfo = s.sessionInfo := by cases o <;> rfl

theorem handOut_active (s : Socket D) (o : Option SessionId) (n : ℕ) :
    (s.handOut o n).active = s.active := by cases o <;> rfl

/-- On a complete frame `cutIntoMessage` looks its id up and hands it out. -/
theorem cutIntoMessage_eq {f rest : Bytes} (hf : IsResponse f)
    (ht : s.readBuf.toString h = f ++ rest)
    (first : (ℕ → Option SessionId) → Option SessionId) (now : ℕ) :
    cutIntoMessage (boltProtocol D) first now h s =
      ((s.prepareSessions now).handOut ((s.prepareSessions now).sessionMap (replyId f)) f.length,
        (BitVec.ofNat 64 (replyId f)).toInt) := by
  have hlen : s.readBuf.length ≠ 0 := by
    have := hf.isFrame.1
    rw [length_eq s.readBuf h, ht, List.length_append]
    simp only [boltHeaderSize] at this
    omega
  have hpre : s.readBuf.toString h <+: f ++ rest := by rw [ht]
  have hcheck := (checkHeader_spec hf.isFrame hf.length_le hpre 0 0).2
    (by rw [ht, List.length_append]; omega)
  unfold cutIntoMessage
  rw [if_neg hlen]
  simp only [boltProtocol, hcheck]
  rfl

theorem cutIntoMessage_frame {f rest : Bytes} (hf : IsResponse f) (hw : s.WF h) (hk : s.Keyed)
    (ht : s.readBuf.toString h = f ++ rest)
    (first : (ℕ → Option SessionId) → Option SessionId) (now : ℕ) :
    ∃ s', cutIntoMessage (boltProtocol D) first now h s =
        (s', (BitVec.ofNat 64 (replyId f)).toInt) ∧
      s'.WF h ∧ s'.Keyed ∧ s'.active = s.active ∧ s'.readBuf.toString h = rest ∧
      HandedOut.Of ⟨h, now, s, s'⟩ f := by
  have hk' := hk.prepareSessions now
  have hw' : (s.prepareSessions now).WF h := ⟨hw.readBuf, hw.session⟩
  refine ⟨_, cutIntoMessage_eq hf ht first now, ?_⟩
  generalize ho : (s.prepareSessions now).sessionMap (replyId f) = o
  have hkeyed : ((s.prepareSessions now).handOut o f.length).Keyed := by
    intro id sid hid
    rw [handOut_sessionMap] at hid
    rw [handOut_requestId]
    exact hk' id sid hid
  cases o with
  | none =>
    obtain ⟨hwf, hrest⟩ := handOut_none hw' ht
    refine ⟨hwf, hkeyed, handOut_active _ _ _, hrest, ⟨?_, ?_⟩⟩
    · change s.readBuf.toString h = _
      rw [ht, hrest]
    · rw [ho]
      refine ⟨Option.eq_none_iff_forall_ne_some.mpr fun sid hsid => ?_, rfl⟩
      have hkept : (s.prepareSessions now).sessionMap (replyId f) = some sid :=
        popSessionInfo_kept s.session now s.sessionInfo s.sessionMap hsid
      rw [ho] at hkept
      cases hkept
  | some sid =>
    obtain ⟨hwf, hrest, hgot⟩ := handOut_some hw' ht sid
    refine ⟨hwf, hkeyed, handOut_active _ _ _, hrest, ⟨?_, ?_⟩⟩
    · change s.readBuf.toString h = _
      rw [ht, hrest]
    · rw [ho]
      refine ⟨popSessionInfo_registered s.session now s.sessionInfo s.sessionMap ho, hk' _ _ ho,
        hgot, fun other hne => ?_⟩
      simp [handOut, Function.update_of_ne hne]

end Socket

namespace LoopState

variable {w : LoopState D} {e : LoopEnv D}

structure Progress (w : LoopState D) (done : List Bytes) (b : Bytes) : Prop where
  heap : w.heap.WF
  socket : w.socket.WF w.heap
  keyed : w.socket.Keyed
  handed : List.Forall₂ HandedOut.Of w.handed done
  readBuf : w.socket.readBuf.toString w.heap = b

theorem Progress.interfere {done : List Bytes} {b : Bytes} (hp : w.Progress done b)
    (e : LoopEnv D) : (w.interfere e).Progress done b := by
  set i := e.interference w.tick with hi
  refine ⟨i.heap_wf _ hp.heap hp.socket, i.socket_wf _ hp.heap hp.socket, ?_, hp.handed, ?_⟩
  · intro id sid hid
    have hmap : (w.interfere e).socket.sessionMap = w.socket.sessionMap :=
      i.sessionMap_eq (w.heap, w.socket)
    rw [hmap] at hid
    exact (i.requestId_eq (w.heap, w.socket) sid).trans (hp.keyed id sid hid)
  · have hbuf : (w.interfere e).socket.readBuf = w.socket.readBuf :=
      i.readBuf_eq (w.heap, w.socket)
    have hg : w.heap.Grows (w.interfere e).heap := i.grows (w.heap, w.socket) hp.heap hp.socket
    rw [hbuf, toString_grows hp.socket.readBuf hg]
    exact hp.readBuf

@[simp] theorem interfere_active (w : LoopState D) (e : LoopEnv D) :
    (w.interfere e).socket.active = w.socket.active :=
  (e.interference w.tick).active_eq (w.heap, w.socket)

def behindZero (frames : List Bytes) : List Bytes := (frames.dropWhile (replyId · ≠ 0)).tail

theorem behindZero_cons_zero {f : Bytes} (h0 : replyId f = 0) (fs : List Bytes) :
    behindZero (f :: fs) = fs := by simp [behindZero, h0]

theorem behindZero_cons_ne {f : Bytes} (h0 : replyId f ≠ 0) (fs : List Bytes) :
    behindZero (f :: fs) = behindZero fs := by simp [behindZero, h0]

theorem behindZero_eq_nil_iff {frames : List Bytes} :
    behindZero frames = [] ↔ ∀ f ∈ frames.dropLast, replyId f ≠ 0 := by
  induction frames with
  | nil => simp [behindZero]
  | cons f fs ih =>
    by_cases h0 : replyId f = 0
    · rw [behindZero_cons_zero h0]
      cases fs with
      | nil => simp
      | cons g fs => simp [h0]
    · rw [behindZero_cons_ne h0, ih]
      cases fs with
      | nil => simp
      | cons g fs => simp [h0]

theorem mem_of_mem_behindZero {f : Bytes} {frames : List Bytes} (h : f ∈ behindZero frames) :
    f ∈ frames := (List.dropWhile_suffix _).subset (List.mem_of_mem_tail h)

/-- The inner loop hands out the complete frames up to the first one with id 0. -/
theorem cutLoop_spec (he : e.protocol = boltProtocol D) {frames : List Bytes}
    (hf : ∀ f ∈ frames, IsResponse f) {part : Bytes}
    (hpart : IsPartial part) (fuel : ℕ) {done : List Bytes}
    (hp : w.Progress done (frames.flatten ++ part))
    (hfuel : (frames.flatten ++ part).length < fuel) :
    ∃ w', cutLoop e fuel w = some (w', 0) ∧
      w'.socket.readBuf.toString w'.heap = (behindZero frames).flatten ++ part ∧
      ((∀ f ∈ frames, replyId f ≠ 0) → w'.Progress (done ++ frames) part) ∧
      w'.socket.active = w.socket.active := by
  induction frames generalizing w done fuel with
  | nil =>
    -- nothing complete is left
    obtain ⟨fuel, rfl⟩ := Nat.exists_eq_succ_of_ne_zero (Nat.ne_zero_of_lt hfuel)
    have hp₁ := hp.interfere e
    have hb₁ : (w.interfere e).socket.readBuf.toString (w.interfere e).heap = part := hp₁.readBuf
    have hcut := Socket.cutIntoMessage_partial (hb₁ ▸ hpart) e.first (e.clock (w.interfere e).tick)
    refine ⟨w.interfere e, ?_, hb₁, fun _ => by simpa using hp₁, interfere_active w e⟩
    simp only [cutLoop, he, hcut, le_refl, if_true]
  | cons f fs ih =>
    obtain ⟨fuel, rfl⟩ := Nat.exists_eq_succ_of_ne_zero (Nat.ne_zero_of_lt hfuel)
    have hp₁ := hp.interfere e
    have hb₁ := hp₁.readBuf
    rw [List.flatten_cons, List.append_assoc] at hb₁ hfuel
    have hfr := hf f List.mem_cons_self
    obtain ⟨s', hcut, hw', hk', ha', hr', hof⟩ := Socket.cutIntoMessage_frame hfr hp₁.socket
      hp₁.keyed hb₁ e.first (e.clock (w.interfere e).tick)
    rw [Socket.toInt_replyId] at hcut
    by_cases h0 : replyId f = 0
    · -- the value returned is the one for "not enough data"
      rw [behindZero_cons_zero h0]
      refine ⟨{ w.interfere e with socket := s' }, ?_, hr', fun hall => ?_,
        ha'.trans (interfere_active w e)⟩
      · simp only [cutLoop, he, hcut, h0, Nat.cast_zero, le_refl, if_true]
      · exact absurd h0 (hall f List.mem_cons_self)
    · set w₂ : LoopState D := { w.interfere e with
        socket := s'
        handed := (w.interfere e).handed ++
          [⟨(w.interfere e).heap, e.clock (w.interfere e).tick, (w.interfere e).socket, s'⟩] }
        with hw₂
      have hp₂ : w₂.Progress (done ++ [f]) (fs.flatten ++ part) :=
        ⟨hp₁.heap, hw', hk', List.rel_append hp₁.handed (.cons hof .nil), hr'⟩
      -- a frame is not empty, so each round costs fuel and bytes
      have hlen : (fs.flatten ++ part).length < fuel := by
        have := hfr.isFrame.1
        rw [List.length_append] at hfuel
        simp only [boltHeaderSize] at this
        omega
      obtain ⟨w', hrun, hrest, hp', hact⟩ :=
        ih (fun g hg => hf g (List.mem_cons_of_mem f hg)) fuel hp₂ hlen
      rw [behindZero_cons_ne h0]
      refine ⟨w', ?_, hrest, fun hall => ?_, ?_⟩
      · have hpos : ¬ (replyId f : ℤ) ≤ 0 := by omega
        simp only [cutLoop, he, hcut, hpos, if_false]
        exact hrun
      · simpa using hp' fun g hg => hall g (List.mem_cons_of_mem f hg)
      · rw [hact, hw₂]
        exact ha'.trans (interfere_active w e)

def Reading (frames : List Bytes) (p : Bytes) (w : LoopState D) : Prop :=
  ∃ done todo b, frames = done ++ todo ∧ p = done.flatten ++ b ∧ b <+: todo.flatten ∧
    Pending todo b ∧ w.Progress done b

theorem Progress.setReadBuf {done : List Bytes} {b c : Bytes} (hp : w.Progress done b) {h' : Heap}
    {buf' : IOBuffer} (hw' : h'.WF) (hg : w.heap.Grows h') (hb' : buf'.WF h')
    (hc : buf'.toString h' = c) :
    ({ w with heap := h', socket := { w.socket with readBuf := buf' } } : LoopState D).Progress
      done c :=
  ⟨hw', ⟨hb', fun sid => (hp.socket.session sid).grows hg⟩, hp.keyed, hp.handed, hc⟩

theorem readOnce_error {done : List Bytes} {b : Bytes} (hp : w.Progress done b) (e : LoopEnv D)
    (err : Errno) :
    ∃ w', readOnce e (.error err) w = some w' ∧ w'.Progress done b ∧
      w'.socket.active = w.socket.active := by
  have hp₁ := hp.interfere e
  obtain ⟨h', buf', nr, hr, hw', hg, hb', -, -, -, hc⟩ := appendFromFileDescriptor_spec hp₁.heap
    hp₁.socket.readBuf e.thread minOnceRead (.error err)
  refine ⟨_, ?_, hp₁.setReadBuf hw' hg hb' (hc.trans hp₁.readBuf), interfere_active w e⟩
  rw [readOnce, hr]
  rfl

theorem readOnce_data {done : List Bytes} {b bs : Bytes} (hp : w.Progress done b) (e : LoopEnv D)
    (hbs : bs.length ≤ minOnceRead) :
    ∃ w', readOnce e (.data bs) w = some w' ∧ w'.Progress done (b ++ bs) ∧
      w'.socket.active = w.socket.active := by
  have hp₁ := hp.interfere e
  obtain ⟨h', buf', nr, hr, hw', hg, hb', -, -, k, -, hk₁, hk₂, hk₃, hc⟩ :=
    appendFromFileDescriptor_spec hp₁.heap hp₁.socket.readBuf e.thread minOnceRead (.data bs)
  have hk : k = bs.length := by
    simp only [minOnceRead] at hbs hk₂ hk₃
    omega
  rw [hk, List.take_length, hp₁.readBuf] at hc
  refine ⟨_, ?_, hp₁.setReadBuf hw' hg hb' hc, interfere_active w e⟩
  rw [readOnce, hr]
  rfl

section

variable (he : e.protocol = boltProtocol D) {frames : List Bytes} (hf : ∀ f ∈ frames, IsReply f)
include he hf

theorem cutAll_spec {done todo : List Bytes} {b : Bytes} (hfr : frames = done ++ todo)
    (hp : w.Progress done b) (hpre : b <+: todo.flatten) :
    ∃ w', cutAll e w = some (w', 0) ∧ Reading frames (done.flatten ++ b) w' ∧
      w'.socket.active = w.socket.active := by
  subst hfr
  obtain ⟨more, todo', part, rfl, rfl, hpre', hpend⟩ := exists_pending hpre
  have hf' : ∀ f ∈ more ++ todo', IsReply f := fun f hmem => hf f (List.mem_append_right _ hmem)
  have hmore : ∀ f ∈ more, IsReply f := fun f hmem => hf' f (List.mem_append_left _ hmem)
  have hpart : IsPartial part :=
    isPartial_of_pending (fun f hmem => hf' f (List.mem_append_right _ hmem)) hpre' hpend
  obtain ⟨w', hcut, -, hp', ha⟩ := cutLoop_spec he (fun f hmem => (hmore f hmem).isResponse) hpart
    (w.socket.readBuf.length + 1) hp (by rw [length_eq _ w.heap, hp.readBuf]; omega)
  refine ⟨w', hcut, ⟨done ++ more, todo', part, ?_, ?_, hpre', hpend,
    hp' fun f hmem => (hmore f hmem).replyId_ne⟩, ha⟩
  · rw [List.append_assoc]
  · rw [List.flatten_append, List.append_assoc]

theorem readLoop_spec (reads : List Read) (last : LastRead) {p : Bytes} (hr : Reading frames p w)
    (hpre : p ++ reads.flatMap Read.bytes <+: frames.flatten) :
    ∃ w', readLoop e last reads w = some w' ∧ Reading frames (p ++ reads.flatMap Read.bytes) w' ∧
      (last = .eagain → w'.socket.active = w.socket.active) := by
  induction reads generalizing w p with
  | nil =>
    obtain ⟨done, todo, b, hfr, rfl, hpre', hpend, hp⟩ := hr
    rw [List.flatMap_nil, List.append_nil]
    cases last with
    | eagain =>
      obtain ⟨w', hrun, hp', ha⟩ := readOnce_error hp e .eagain
      exact ⟨w', hrun, ⟨done, todo, b, hfr, rfl, hpre', hpend, hp'⟩, fun _ => ha⟩
    | error =>
      obtain ⟨w', hrun, hp', -⟩ := readOnce_error hp e .other
      have hp'' : w'.setInactive.Progress done b :=
        ⟨hp'.heap, ⟨hp'.socket.readBuf, hp'.socket.session⟩, hp'.keyed, hp'.handed, hp'.readBuf⟩
      refine ⟨w'.setInactive, ?_, ⟨done, todo, b, hfr, rfl, hpre', hpend, hp''⟩, by simp⟩
      rw [readLoop, hrun]
      rfl
    | eof =>
      -- a read of 0 bytes sets the socket inactive and cuts once more
      have h0 : ([] : Bytes).length ≤ minOnceRead := Nat.zero_le _
      obtain ⟨w', hrun, hp', -⟩ := readOnce_data hp e h0
      rw [List.append_nil] at hp'
      have hp'' : w'.setInactive.Progress done b :=
        ⟨hp'.heap, ⟨hp'.socket.readBuf, hp'.socket.session⟩, hp'.keyed, hp'.handed, hp'.readBuf⟩
      obtain ⟨w₂, hcut, hread, -⟩ := cutAll_spec he hf hfr hp'' hpre'
      refine ⟨w₂, ?_, hread, by simp⟩
      simp only [readLoop, hrun, Option.bind_eq_bind, Option.bind_some, hcut]
  | cons r reads ih =>
    rw [List.flatMap_cons, ← List.append_assoc] at hpre ⊢
    cases r with
    | eintr =>
      obtain ⟨done, todo, b, hfr, rfl, hpre', hpend, hp⟩ := hr
      obtain ⟨w₁, hrun₁, hp₁, ha₁⟩ := readOnce_error hp e .eintr
      rw [Read.bytes, List.append_nil] at hpre ⊢
      obtain ⟨w', hrun, hread, ha⟩ := ih ⟨done, todo, b, hfr, rfl, hpre', hpend, hp₁⟩ hpre
      refine ⟨w', ?_, hread, fun hl => (ha hl).trans ha₁⟩
      simp only [readLoop, hrun₁, Option.bind_eq_bind, Option.bind_some, hrun]
    | chunk c =>
      obtain ⟨done, todo, b, hfr, rfl, -, -, hp⟩ := hr
      obtain ⟨w₁, hrun₁, hp₁, ha₁⟩ := readOnce_data hp e c.length_le
      -- what has arrived is a beginning of the frames not yet handed out
      have hpre₁ : b ++ c.bytes <+: todo.flatten := by
        have h := (List.prefix_append _ _).trans hpre
        rw [hfr, List.flatten_append, List.append_assoc] at h
        exact (List.prefix_append_right_inj _).mp h
      obtain ⟨w₂, hcut, hread₂, ha₂⟩ := cutAll_spec he hf hfr hp₁ hpre₁
      rw [← List.append_assoc] at hread₂
      obtain ⟨w', hrun, hread, ha⟩ := ih hread₂ hpre
      refine ⟨w', ?_, hread, fun hl => (ha hl).trans (ha₂.trans ha₁)⟩
      simp only [readLoop, hrun₁, Option.bind_eq_bind, Option.bind_some, hcut, lt_irrefl,
        if_false, hrun]

theorem onRead_spec (c : OnReadCall) {p : Bytes} (hr : Reading frames p w)
    (hact : w.socket.active = true) (hpre : p ++ c.received <+: frames.flatten) :
    ∃ w', onRead e c w = some w' ∧ Reading frames (p ++ c.received) w' ∧
      (c.last = .eagain → w'.socket.active = true) := by
  obtain ⟨w₁, hrun, ⟨done, todo, b, hfr, hp, hpre', hpend, hprog⟩, ha⟩ :=
    readLoop_spec he hf c.reads c.last hr hpre
  refine ⟨{ w₁ with socket := w₁.socket.tryReclaimSessionMap c.reclaimed },
    by simp only [onRead, hact, if_true, hrun]; rfl,
    ⟨done, todo, b, hfr, hp, hpre', hpend, ?_⟩, fun hl => (ha hl).trans hact⟩
  refine ⟨hprog.heap, ⟨hprog.socket.readBuf, hprog.socket.session⟩, ?_, hprog.handed,
    hprog.readBuf⟩
  intro id sid hid
  exact hprog.keyed id sid (Option.filter_eq_some_iff.mp hid).1

/-- Successive calls, of which only the last may have found the connection
closed. -/
theorem onReads_spec (cs : List OnReadCall) (hlast : ∀ c ∈ cs.dropLast, c.last = .eagain)
    {p : Bytes} (hr : Reading frames p w) (hact : w.socket.active = true)
    (hpre : p ++ cs.flatMap OnReadCall.received <+: frames.flatten) :
    ∃ w', onReads e cs w = some w' ∧
      Reading frames (p ++ cs.flatMap OnReadCall.received) w' := by
  induction cs generalizing w p with
  | nil => exact ⟨w, rfl, by simpa using hr⟩
  | cons c cs ih =>
    rw [List.flatMap_cons, ← List.append_assoc] at hpre ⊢
    obtain ⟨w₁, hrun₁, hr₁, ha₁⟩ :=
      onRead_spec he hf c hr hact ((List.prefix_append _ _).trans hpre)
    cases cs with
    | nil => exact ⟨w₁, by simp [onReads, hrun₁], by simpa using hr₁⟩
    | cons c' cs =>
      have hc : c.last = .eagain := hlast c (by simp)
      obtain ⟨w', hrun, hr'⟩ := ih (fun x hx => hlast x (by simp [hx])) hr₁ (ha₁ hc) hpre
      exact ⟨w', by simp only [onReads, hrun₁, Option.bind_eq_bind, Option.bind_some]; exact hrun,
        hr'⟩

end

theorem reading_init {h : Heap} (hw : h.WF) {session : SessionId → ReadSession D}
    (hs : ∀ sid, (session sid).readBuf.WF h) (frames : List Bytes)
    (hf : ∀ f ∈ frames, IsReply f) : Reading frames [] (init h session) := by
  refine ⟨[], frames, [], rfl, rfl, List.nil_prefix, ?_, hw, ⟨wf_empty h, hs⟩, ?_, .nil, rfl⟩
  · cases frames with
    | nil => rfl
    | cons f fs => exact (Nat.succ_pos _).trans_le (hf f List.mem_cons_self).isFrame.1
  · intro id sid hid
    cases hid

end LoopState

end SofaBolt
