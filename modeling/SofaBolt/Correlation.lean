import SofaBolt.Exchange

/- Every session ahead in the queue has read the clock before the loop thread does. The loop
over the queue also stops at a session with the same time, so a tie can hide the session
that is looked for. -/

namespace SofaBolt

open IOBuffer Bolt Run

variable {D : Type}

namespace Exchange

variable {s s' : Exchange D} {sid : SessionId}

theorem Inv.read (hi : Inv s) {n : ℕ} (h : s.read n = some s') : Inv s' := by
  unfold Exchange.read at h
  split_ifs at h with hc
  obtain ⟨hidle, hlen⟩ := hc
  obtain ⟨⟨h', buf', nr⟩, hread, hs'⟩ := Option.map_eq_some_iff.mp h
  obtain ⟨h'', buf'', nr', hread', hw', hg, hb', -, -, k, -, hk₁, hk₂, hk₃, hbytes⟩ :=
    appendFromFileDescriptor_spec hi.heap hi.socket.readBuf 0 minOnceRead
      (.data (s.unread.take n))
  rw [hread] at hread'
  obtain ⟨rfl, rfl, rfl⟩ : h' = h'' ∧ buf' = buf'' ∧ nr = nr' := by simpa using hread'
  have hk : k = (s.unread.take n).length := by
    simp only [minOnceRead] at hlen hk₂ hk₃
    omega
  rw [hk, List.take_length] at hbytes
  subst hs'
  refine ⟨hi.toRegistry.of_same rfl rfl rfl rfl rfl le_rfl (fun _ h => h) (fun _ => rfl)
    (fun _ => rfl), ⟨hw', ⟨hb', fun o => (hi.socket.session o).grows hg⟩, hi.frames, ?_⟩, ?_⟩
  · rw [hbytes, List.append_assoc, List.take_append_drop]
    exact hi.stream
  · simp only [hidle]
    trivial

theorem Inv.parse (hi : Inv s) (h : s.parse = some s') : Inv s' := by
  unfold Exchange.parse at h
  split_ifs at h with hidle hempty
  · exact Option.some.inj h ▸ hi
  have hstream := hi.stream
  rw [length_eq _ s.heap] at hempty
  cases hpend : s.pending with
  | nil =>
    rw [hpend] at hstream
    rw [(List.append_eq_nil_iff.mp hstream).1] at hempty
    exact absurd rfl hempty
  | cons p rest =>
    obtain ⟨r, f⟩ := p
    rw [hpend, List.map_cons, List.flatten_cons] at hstream
    have hf : IsResponse f := hi.frames (r, f) (by rw [hpend]; exact List.mem_cons_self)
    have hpre : s.socket.readBuf.toString s.heap <+: f ++ (rest.map Prod.snd).flatten :=
      ⟨_, hstream⟩
    obtain ⟨hshort, hlong⟩ := checkHeader_spec hf.isFrame hf.length_le hpre 0 0
    have hsame : ∀ data pc, Exchange.PcOk { s with
        socket := { s.socket with readAdditionalData := data }, pc := pc } pc → Inv { s with
        socket := { s.socket with readAdditionalData := data }, pc := pc } := fun data pc hpc =>
      ⟨hi.toRegistry.of_same rfl rfl rfl rfl rfl le_rfl (fun _ h => h) (fun _ => rfl)
        (fun _ => rfl), ⟨hi.heap, ⟨hi.socket.readBuf, hi.socket.session⟩, hi.frames, hi.stream⟩,
        hpc⟩
    simp only [boltProtocol] at h
    by_cases hlt : (s.socket.readBuf.toString s.heap).length < f.length
    · have hres := hshort hlt
      generalize checkHeader s.heap s.socket.readBuf 0 0 = res at h hres
      obtain ⟨ret, size, id⟩ := res
      obtain rfl : ret = .parseNotEnoughData := hres
      obtain rfl := Option.some.inj h
      exact hsame _ s.pc (by rw [hidle]; trivial)
    · rw [hlong (not_lt.mp hlt)] at h
      obtain rfl := Option.some.inj h
      refine hsame _ _ ⟨r, f, ⟨rest, hpend⟩, ?_, rfl, rfl⟩
      exact List.prefix_of_prefix_length_le (List.prefix_append f _) hpre (not_lt.mp hlt)

theorem Inv.clock (hi : Inv s) {t : ℕ} (h : s.clock t = some s') : Inv s' := by
  have hpc := hi.pc
  unfold Exchange.clock at h
  cases hp : s.pc with
  | parsed size id =>
    rw [hp] at h hpc
    simp only at h
    split_ifs at h with hnow
    obtain rfl := Option.some.inj h
    obtain ⟨r, f, hhead⟩ := hpc
    refine ⟨hi.toRegistry.of_same rfl rfl rfl rfl rfl hnow (fun _ h => h) (fun _ => rfl)
      (fun _ => rfl), ⟨hi.heap, hi.socket, hi.frames, hi.stream⟩,
      r, f, ⟨hhead.pending, hhead.readBuf, hhead.size_eq, hhead.id_eq⟩, ?_⟩
    -- every session that is queued now has read the clock before
    intro i j y _ hy _
    exact (hi.times y (hi.queued y (List.mem_of_getElem? hy)).ne_unborn).trans hnow
  | _ => simp [hp] at h

/-- A session popped from the queue goes to the map, where its id is free. -/
theorem Registry.pop (hr : Registry s) {x : SessionId} {q : List SessionId}
    (hq : s.socket.sessionInfo = x :: q) (pc : CutPc) :
    Registry { s with
      socket := { s.socket with
        sessionInfo := q
        sessionMap := emplace s.socket.sessionMap (s.socket.session x).requestId x }
      pc := pc } := by
  have hx : x ∈ s.socket.sessionInfo := by rw [hq]; exact List.mem_cons_self
  have hregx := hr.queued x hx
  have hnodup := hr.nodup
  rw [hq, List.nodup_cons] at hnodup
  -- a session in the map is not queued, and no other has this id
  have hfree : s.socket.sessionMap (s.requestId x) = none := by
    cases hm : s.socket.sessionMap (s.requestId x) with
    | none => rfl
    | some y =>
      obtain ⟨h₁, h₂, h₃⟩ := hr.mapped _ y hm
      have hyx : y = x := hr.distinct y (hr.active y (Or.inr h₂)) x (hr.active x (Or.inr hregx)) h₁
      exact absurd (hyx ▸ hx) h₃
  have hmap : ∀ k, emplace s.socket.sessionMap (s.socket.session x).requestId x k =
      if k = s.requestId x then some x else s.socket.sessionMap k := by
    intro k
    rw [emplace_apply]
    change (s.socket.sessionMap k).or (if k = s.requestId x then some x else none) = _
    by_cases hk : k = s.requestId x
    · rw [if_pos hk, if_pos hk, hk, hfree, Option.none_or]
    · rw [if_neg hk, if_neg hk, Option.or_none]
  constructor
  case born => exact hr.born
  case times => exact hr.times
  case distinct => exact hr.distinct
  case active => exact hr.active
  case unreclaimed => exact hr.unreclaimed
  case queued => exact fun o ho => hr.queued o (by rw [hq]; exact List.mem_cons_of_mem x ho)
  case nodup => exact hnodup.2
  case mapped =>
    intro k o ho
    replace ho := (hmap k).symm.trans ho
    split_ifs at ho with hk
    · obtain rfl := Option.some.inj ho
      exact ⟨hk.symm, hregx, hnodup.1⟩
    · obtain ⟨h₁, h₂, h₃⟩ := hr.mapped k o ho
      rw [hq] at h₃
      exact ⟨h₁, h₂, fun hmem => h₃ (List.mem_cons_of_mem x hmem)⟩
  case registered =>
    intro o ho
    rcases hr.registered o ho with h | h
    · rw [hq, List.mem_cons] at h
      rcases h with rfl | h
      · exact Or.inr ((hmap _).trans (if_pos rfl))
      · exact Or.inl h
    · refine Or.inr ((hmap _).trans ?_)
      by_cases hk : s.requestId o = s.requestId x
      · rw [hk, hfree] at h
        cases h
      · exact (if_neg hk).trans h
  case answered => exact hr.answered

/-- A session whose `request_time` equals `on_read_begin_time` is about to be
popped, and the session of the response is behind it in the queue. -/
def tied (s : Exchange D) : Bool :=
  match s.pc, s.socket.sessionInfo, s.pending with
  | .draining t _ _, x :: q, (r, _) :: _ => (s.socket.session x).requestTime = t ∧ r ∈ q
  | _, _, _ => false

theorem Inv.pop (hi : Inv s) (htie : s.tied = false) (h : s.pop = some s') : Inv s' := by
  have hpc := hi.pc
  unfold Exchange.pop at h
  cases hp : s.pc with
  | draining t size id =>
    rw [hp] at h hpc
    obtain ⟨r, f, hhead, hahead⟩ := hpc
    cases hq : s.socket.sessionInfo with
    | nil =>
      rw [hq] at h
      obtain rfl := Option.some.inj h
      refine ⟨hi.toRegistry.of_same rfl rfl rfl rfl rfl le_rfl (fun _ h => h) (fun _ => rfl)
        (fun _ => rfl), ⟨hi.heap, hi.socket, hi.frames, hi.stream⟩,
        r, f, ⟨hhead.pending, hhead.readBuf, hhead.size_eq, hhead.id_eq⟩, ?_⟩
      rw [hq]
      exact List.not_mem_nil
    | cons x q =>
      rw [hq] at h
      obtain rfl := Option.some.inj h
      refine ⟨hi.toRegistry.pop hq _,
        ⟨hi.heap, ⟨hi.socket.readBuf, hi.socket.session⟩, hi.frames, hi.stream⟩, ?_⟩
      simp only
      split_ifs with hstop
      · -- the loop stops at `x`, and nothing ahead of `r` is younger
        refine ⟨r, f, ⟨hhead.pending, hhead.readBuf, hhead.size_eq, hhead.id_eq⟩, ?_⟩
        intro hr
        obtain ⟨j, hj⟩ := List.mem_iff_getElem?.mp hr
        have hle := hahead 0 (j + 1) x (Nat.succ_pos j) (by rw [hq]; rfl) (by rw [hq]; exact hj)
        obtain ⟨rest, hrest⟩ := hhead.pending
        have heq : (s.socket.session x).requestTime = t := le_antisymm hle hstop
        simp only [tied, hp, hq, hrest, decide_eq_false_iff_not, not_and] at htie
        exact htie heq hr
      · refine ⟨r, f, ⟨hhead.pending, hhead.readBuf, hhead.size_eq, hhead.id_eq⟩, ?_⟩
        intro i j y hij hy hr
        exact hahead (i + 1) (j + 1) y (Nat.succ_lt_succ hij) (by rw [hq]; exact hy)
          (by rw [hq]; exact hr)
  | _ => simp [hp] at h

theorem handOut_requestTime (s : Socket D) (o : Option SessionId) (n : ℕ) (sid : SessionId) :
    ((s.handOut o n).session sid).requestTime = (s.session sid).requestTime := by
  cases o with
  | none => rfl
  | some x =>
    by_cases e : sid = x
    · subst e
      simp [Socket.handOut]
    · simp [Socket.handOut, Function.update_of_ne e]

theorem handOut_sessionInfo (s : Socket D) (o : Option SessionId) (n : ℕ) :
    (s.handOut o n).sessionInfo = s.sessionInfo := by cases o <;> rfl

theorem Inv.handOut (hi : Inv s) (h : s.handOut = some s') : Inv s' := by
  have hpc := hi.pc
  unfold Exchange.handOut at h
  cases hp : s.pc with
  | prepared size id =>
    rw [hp] at h hpc
    obtain rfl := Option.some.inj h
    obtain ⟨r, f, ⟨⟨rest, hrest⟩, ⟨tail, htail⟩, rfl, rfl⟩, -⟩ := hpc
    set o := s.socket.findSession (boltProtocol D).type (fun _ => none) (replyId f)
    have hout : (s.socket.handOut o f.length).WF s.heap ∧
        (s.socket.handOut o f.length).readBuf.toString s.heap = tail := by
      cases o with
      | none => exact Socket.handOut_none hi.socket htail.symm
      | some x =>
        obtain ⟨h₁, h₂, -⟩ := Socket.handOut_some hi.socket htail.symm x
        exact ⟨h₁, h₂⟩
    have hsub : ∀ p ∈ s.pending.tail, p ∈ s.pending := fun p hmem => List.mem_of_mem_tail hmem
    refine ⟨hi.toRegistry.of_same rfl rfl rfl (handOut_sessionInfo _ _ _)
      (Socket.handOut_sessionMap _ _ _) le_rfl hsub (Socket.handOut_requestId _ _ _)
      (handOut_requestTime _ _ _), ⟨hi.heap, hout.1, fun p hmem => hi.frames p (hsub p hmem), ?_⟩,
      trivial⟩
    have hstream := hi.stream
    rw [hrest, ← htail, List.map_cons, List.flatten_cons, List.append_assoc] at hstream
    simp only [hout.2, hrest, List.tail_cons]
    exact List.append_cancel_left hstream
  | _ => simp [hp] at h

theorem Registry.reclaim (hr : Registry s) (reclaimed : SessionId → Bool) :
    Registry { s with
      socket := s.socket.tryReclaimSessionMap reclaimed
      reclaimed := fun sid => s.reclaimed sid ||
        (reclaimed sid && decide (s.socket.sessionMap (s.requestId sid) = some sid)) } := by
  set s' : Exchange D := { s with
      socket := s.socket.tryReclaimSessionMap reclaimed
      reclaimed := fun sid => s.reclaimed sid ||
        (reclaimed sid && decide (s.socket.sessionMap (s.requestId sid) = some sid)) } with hs'
  have hreg : ∀ o, s'.Registered o ↔ s.Registered o ∧
      ¬ (reclaimed o = true ∧ s.socket.sessionMap (s.requestId o) = some o) := by
    intro o
    simp only [Registered, hs', Bool.or_eq_false_iff, ← and_assoc, Bool.and_eq_false_iff,
      decide_eq_false_iff_not]
    rw [not_and_or, Bool.not_eq_true]
  have hmap : ∀ k o, s'.socket.sessionMap k = some o ↔
      s.socket.sessionMap k = some o ∧ reclaimed o = false := by
    intro k o
    simp [hs', Socket.tryReclaimSessionMap, Option.filter_eq_some_iff]
  constructor
  case born => exact hr.born
  case times => exact hr.times
  case distinct => exact hr.distinct
  case active =>
    intro o ho
    rw [hreg] at ho
    exact hr.active o (ho.imp_right And.left)
  case unreclaimed =>
    intro o ho
    simp only [hs', Bool.or_eq_true, Bool.and_eq_true, decide_eq_true_eq] at ho
    rcases ho with ho | ⟨-, ho⟩
    · exact hr.unreclaimed o ho
    · exact (hr.mapped _ o ho).2.1.1
  case queued =>
    intro o ho
    refine (hreg o).mpr ⟨hr.queued o ho, ?_⟩
    rintro ⟨-, hm⟩
    exact (hr.mapped _ o hm).2.2 ho
  case nodup => exact hr.nodup
  case mapped =>
    intro k o ho
    obtain ⟨hm, hkeep⟩ := (hmap k o).mp ho
    obtain ⟨h₁, h₂, h₃⟩ := hr.mapped k o hm
    refine ⟨h₁, (hreg o).mpr ⟨h₂, ?_⟩, h₃⟩
    rw [hkeep]
    exact fun h => by cases h.1
  case registered =>
    intro o ho
    obtain ⟨ho, hkeep⟩ := (hreg o).mp ho
    refine (hr.registered o ho).imp_right fun hm => (hmap _ o).mpr ⟨hm, ?_⟩
    by_contra hne
    exact hkeep ⟨by simpa using hne, hm⟩
  case answered => exact hr.answered

theorem Inv.reclaim (hi : Inv s) {reclaimed : SessionId → Bool}
    (h : s.reclaim reclaimed = some s') : Inv s' := by
  unfold Exchange.reclaim at h
  split_ifs at h with hidle
  obtain rfl := Option.some.inj h
  refine ⟨hi.toRegistry.reclaim reclaimed,
    ⟨hi.heap, ⟨hi.socket.readBuf, hi.socket.session⟩, hi.frames, hi.stream⟩, ?_⟩
  simp only [hidle]
  trivial

/-- The loop over the queue is not stopped by a tie in front of the session of
the response. -/
def Untied (s : Exchange D) : ExchangeAct D → Prop
  | .pop => s.tied = false
  | _ => True

instance (s : Exchange D) : DecidablePred s.Untied
  | .pop => inferInstanceAs (Decidable (s.tied = false))
  | .create .. | .prepareRead .. | .write _ | .reply .. | .close _ | .work _ | .read _ | .parse
  | .clock _ | .handOut | .reclaim _ => isTrue trivial

theorem Inv.step (hi : Inv s) {a : ExchangeAct D} (hcond : s.Untied a) (h : s.step a = some s') :
    Inv s' := by
  cases a with
  | create sid beginTime sessionId => exact hi.create h
  | prepareRead sid accepted => exact hi.prepareRead h
  | write sid => exact hi.write h
  | reply sid frame => exact hi.reply h
  | close sid => exact hi.close h
  | work w => exact Option.some.inj h ▸ hi.work w
  | read n => exact hi.read h
  | parse => exact hi.parse h
  | clock t => exact hi.clock h
  | pop => exact hi.pop hcond h
  | handOut => exact hi.handOut h
  | reclaim reclaimed => exact hi.reclaim h

/-- When the queue has been looked through, the session of the response is found
if it is registered, and no other one is. -/
theorem Inv.lookup (hi : Inv s) {size id : ℕ} (hpc : s.pc = .prepared size id) :
    ∃ r f rest, s.pending = (r, f) :: rest ∧ f <+: s.socket.readBuf.toString s.heap ∧
      size = f.length ∧ id = replyId f ∧
      (s.Registered r → s.socket.sessionMap id = some r) ∧
      ∀ sid, s.socket.sessionMap id = some sid → sid = r := by
  have hp := hi.pc
  rw [hpc] at hp
  obtain ⟨r, f, ⟨⟨rest, hrest⟩, hpre, hsize, hid⟩, hnot⟩ := hp
  obtain ⟨hout, -, hrid⟩ := hi.answered (r, f) (by rw [hrest]; exact List.mem_cons_self)
  refine ⟨r, f, rest, hrest, hpre, hsize, hid, ?_, ?_⟩
  · intro hreg
    rw [hid, hrid]
    exact (hi.registered r hreg).resolve_left hnot
  · intro sid hm
    obtain ⟨h₁, h₂, -⟩ := hi.mapped id sid hm
    exact hi.distinct sid (hi.active sid (Or.inr h₂)) r hout (by rw [h₁, hid, hrid])

/-- Left alone, the loop over the queue does what `prepareSessions` says. -/
theorem run_pop_eq_prepareSessions {t size id : ℕ} (q : List SessionId) (s : Exchange D)
    (hq : s.socket.sessionInfo = q) (hpc : s.pc = .draining t size id) :
    ∃ n, run step s (List.replicate n .pop) =
      some { s with socket := s.socket.prepareSessions t, pc := .prepared size id } := by
  induction q generalizing s with
  | nil =>
    refine ⟨1, ?_⟩
    simp only [List.replicate_one, run, step, pop, hpc, hq, Option.bind_some]
    rw [Socket.prepareSessions_nil hq]
  | cons x q ih =>
    by_cases hstop : t ≤ (s.socket.session x).requestTime
    · refine ⟨1, ?_⟩
      rw [Socket.prepareSessions_cons hq, if_pos hstop]
      simp only [List.replicate_one, run, step, pop, hpc, hq, Option.bind_some, hstop, if_true]
    · have hstep : s.step .pop = some { s with
          socket := { s.socket with
            sessionInfo := q
            sessionMap := emplace s.socket.sessionMap (s.socket.session x).requestId x } } := by
        simp only [step, pop, hpc, hq, hstop, if_false]
      obtain ⟨n, hn⟩ := ih { s with
          socket := { s.socket with
            sessionInfo := q
            sessionMap := emplace s.socket.sessionMap (s.socket.session x).requestId x } } rfl hpc
      refine ⟨n + 1, ?_⟩
      rw [List.replicate_succ, run, hstep, Option.bind_some, hn, Socket.prepareSessions_cons hq,
        if_neg hstop]

/-- Left alone, the steps of the loop thread on a complete response are a call of
`cutIntoMessage`. -/
theorem run_eq_cutIntoMessage {t size id : ℕ} (hidle : s.pc = .idle) (hnow : s.now ≤ t)
    (hlen : s.socket.readBuf.length ≠ 0)
    (hcheck : checkHeader s.heap s.socket.readBuf 0 0 = (.parseOk, size, id))
    (first : (ℕ → Option SessionId) → Option SessionId) :
    ∃ n s', run step s (.parse :: .clock t :: List.replicate n .pop ++ [.handOut]) = some s' ∧
      s'.socket = (s.socket.cutIntoMessage (boltProtocol D) first t s.heap).1 := by
  have hparse : s.step .parse = some { s with pc := .parsed size id } := by
    simp only [step, parse, hidle, hlen, boltProtocol, hcheck, if_true, if_false]
  have hclock : step { s with pc := .parsed size id } (.clock t) =
      some { s with now := t, pc := .draining t size id } := by
    simp only [step, clock, hnow, if_true]
  obtain ⟨n, hn⟩ := run_pop_eq_prepareSessions _
    { s with now := t, pc := .draining t size id } rfl rfl
  refine ⟨n, { s with
      socket := (s.socket.prepareSessions t).handOut
        ((s.socket.prepareSessions t).findSession (boltProtocol D).type (fun _ => none) id) size
      now := t
      pending := s.pending.tail
      pc := .idle }, ?_, ?_⟩
  · rw [List.cons_append, List.cons_append, run, hparse, Option.bind_some, run, hclock,
      Option.bind_some, run_append, hn]
    rfl
  · unfold Socket.cutIntoMessage
    simp only [hlen, boltProtocol, hcheck, if_false]
    rfl

/-- In every run without a tie, `cutIntoMessage` hands the response to the request of `r` to the
session of `r`, unless that has been reclaimed, and to no other. -/
theorem responses_reach_their_sessions (heap : Heap) (hw : heap.WF) (as : List (ExchangeAct D))
    (s : Exchange D) (hm : Meets step Untied (init heap) as)
    (h : run step (init heap) as = some s) (size id : ℕ) (hpc : s.pc = .prepared size id) :
    ∃ r f rest, s.pending = (r, f) :: rest ∧ replyId f = id ∧
      (s.Registered r → s.socket.sessionMap id = some r) ∧
      ∃ s', s.step .handOut = some s' ∧
        (s.socket.sessionMap id = some r → (s'.socket.session r).readBuf.toString s'.heap =
          (s.socket.session r).readBuf.toString s.heap ++ f) ∧
        (s.socket.sessionMap id = none → s'.socket.session r = s.socket.session r) ∧
        ∀ other, other ≠ r → s'.socket.session other = s.socket.session other := by
  have hi : Inv s := run_induction (fun _ _ _ hi hc h => hi.step hc h) (inv_init hw) hm h
  obtain ⟨r, f, rest, hrest, ⟨tail, htail⟩, rfl, rfl, hfound, honly⟩ := hi.lookup hpc
  refine ⟨r, f, rest, hrest, rfl, hfound, _, by simp only [step, handOut, hpc]; rfl, ?_, ?_, ?_⟩
  · intro hmap
    have hgot := (Socket.handOut_some hi.socket htail.symm r).2.2
    simpa [Socket.findSession, boltProtocol, hmap] using hgot
  · intro hmap
    simp [Socket.findSession, boltProtocol, hmap, Socket.handOut]
  · intro other hne
    simp only [Socket.findSession, boltProtocol]
    cases hmap : s.socket.sessionMap (replyId f) with
    | none => rfl
    | some x =>
      obtain rfl := honly x hmap
      simp [Socket.handOut, Function.update_of_ne hne]

def secondResponse : Bytes := [1, 0, 0, 2, 1, 0, 0, 0, 2, 11, 0, 0, 0, 0, 0, 0, 0, 0, 0, 0]

def blankMemory : BlockId → Block := fun _ => ⟨none, 0, 0, fun _ => 0⟩

def lateSessionRun : List (ExchangeAct Unit) :=
  [.create 0 5 1, .create 1 6 2, .prepareRead 0 true, .prepareRead 1 true, .write 1,
    .reply 1 secondResponse, .read 7, .parse, .read 13, .parse, .clock 6, .create 2 7 3,
    .prepareRead 2 true, .pop, .pop]

theorem responses_reach_their_sessions_late_session :
    ∃ s s', run step (init (Heap.init blankMemory)) lateSessionRun = some s ∧
      s.step .handOut = some s' ∧ s.Registered 1 ∧
      (s'.socket.session 1).readBuf.toString s'.heap =
        (s.socket.session 1).readBuf.toString s.heap ++ secondResponse := by
  have heval : (run step (init (Heap.init blankMemory)) lateSessionRun).map
      (fun s => (s.pc, s.pending, decide (s.Registered 1))) =
      some (.prepared 20 2, [(1, secondResponse)], true) := by decide +kernel
  have hm : Meets step Untied (init (Heap.init blankMemory)) lateSessionRun := by
    decide +kernel
  obtain ⟨s, hrun, hs⟩ := Option.map_eq_some_iff.mp heval
  simp only [Prod.mk.injEq, decide_eq_true_eq] at hs
  obtain ⟨hpc, hpend, hreg⟩ := hs
  obtain ⟨r, f, rest, hrest, -, hfound, s', hstep, hgot, -⟩ :=
    responses_reach_their_sessions _ (Heap.wf_init blankMemory) _ s hm hrun 20 2 hpc
  rw [hpend] at hrest
  simp only [List.cons.injEq, Prod.mk.injEq] at hrest
  obtain ⟨⟨rfl, rfl⟩, -⟩ := hrest
  exact ⟨s, s', hrun, hstep, hreg, hgot (hfound hreg)⟩

/-- The session queued first has the `request_time` that the loop thread reads as
`on_read_begin_time`.  It stops there, and the response to the second request is
dropped although its session is queued. -/
theorem responses_dropped_on_tie :
    ∃ s, run step (init (Heap.init blankMemory))
        ([.create 0 5 1, .create 1 5 2, .prepareRead 0 true, .prepareRead 1 true, .write 1,
          .reply 1 secondResponse, .read 20, .parse, .clock 5, .pop] : List (ExchangeAct Unit)) =
          some s ∧
      s.pc = .prepared 20 2 ∧ s.pending = [(1, secondResponse)] ∧ s.Registered 1 ∧
      s.requestId 1 = 2 ∧ s.socket.sessionMap 2 = none := by
  have heval : (run step (init (Heap.init blankMemory))
      ([.create 0 5 1, .create 1 5 2, .prepareRead 0 true, .prepareRead 1 true, .write 1,
        .reply 1 secondResponse, .read 20, .parse, .clock 5, .pop] : List (ExchangeAct Unit))).map
      (fun s => (s.pc, s.pending,
        decide (s.Registered 1 ∧ s.requestId 1 = 2 ∧ s.socket.sessionMap 2 = none))) =
      some (.prepared 20 2, [(1, secondResponse)], true) := by decide +kernel
  obtain ⟨s, hrun, hs⟩ := Option.map_eq_some_iff.mp heval
  simp only [Prod.mk.injEq, decide_eq_true_eq] at hs
  exact ⟨s, hrun, hs⟩

end Exchange

end SofaBolt
