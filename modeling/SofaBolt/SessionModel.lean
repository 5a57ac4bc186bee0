import SofaBolt.LifeCycleLock

/- The sender in `Session::sendInternal` from the moment it has set up the session, the loop
thread that hands it replies and tries to reclaim it, and the timer thread that runs its
closure. Every access to `owners`, and every other access to the session that can be the
last one of its thread, is a step of its own. -/

namespace SofaBolt

open LifeCycleLock

inductive ESessionError where
  | sessionOk
  | protocolNotFound
  | assembleRequestFail
  | socketLost
  | socketBusy
  | writeFail
  | readFail
  | readTimeout
  | parseResponseFail
  | timerBusy
deriving DecidableEq, Repr

/-- The session object.  `callback` tells whether it is non-empty, `results` and
`invoked` what the promise was set to and the callback was called with, and
`badAccess` whether the object was used after its deletion. -/
structure SessionInfo where
  owners : ℤ
  callback : Bool
  timerTaskId : ℕ
  results : List ESessionError
  invoked : List ESessionError
  alive : Bool
  badAccess : Bool
deriving DecidableEq, Repr

/-- As `new SocketReadSession` and the assignments behind it leave it. -/
def SessionInfo.init (callback : Bool) : SessionInfo where
  owners := 0
  callback := callback
  timerTaskId := 0
  results := []
  invoked := []
  alive := true
  badAccess := false

def SessionInfo.touch (i : SessionInfo) : SessionInfo :=
  { i with badAccess := i.badAccess || !i.alive }

def postProcess (parsed : Bool) (error : ESessionError) : ESessionError :=
  if error = .sessionOk ∧ parsed = false then .parseResponseFail else error

inductive NotifyPc where
  | tryShared
  | backOut
  | upgrade
  | testCallback
  | postProcess
  | invoke (error : ESessionError)
  | setValue
  | release (result : Bool)
deriving DecidableEq, Repr

inductive NotifyOut where
  | next (pc : NotifyPc)
  | ret (result : Bool)
deriving DecidableEq, Repr

def notifyStep (error : ESessionError) (parsed : Bool) (i : SessionInfo) :
    NotifyPc → SessionInfo × NotifyOut
  | .tryShared =>
    ({ i.touch with owners := addShared i.owners },
      .next (if held i.owners then .backOut else .upgrade))
  | .backOut => ({ i.touch with owners := releaseShared i.owners }, .ret false)
  | .upgrade =>
    ({ i.touch with owners := orUpgraded i.owners },
      .next (if held i.owners then .release false else .testCallback))
  | .testCallback => (i.touch, .next (if i.callback then .postProcess else .setValue))
  | .postProcess => (i.touch, .next (.invoke (postProcess parsed error)))
  | .invoke e => ({ i.touch with invoked := i.invoked ++ [e] }, .next (.release true))
  | .setValue => ({ i.touch with results := i.results ++ [error] }, .ret true)
  | .release r => ({ i.touch with owners := releaseShared i.owners }, .ret r)

/-- The next step of `sendInternal`; `done` tells the error code and whether the
sender has released a share. -/
inductive SenderPc where
  | tryShared
  | prepareRead
  | addTimeschdule
  | storeTaskId (id : ℕ)
  | testTaskId
  | releaseTimerBusy
  | write
  | removeTimeschdule
  | releaseWriteFail
  | testCallback
  | waitResult
  | postProcess (error : ESessionError)
  | releaseSync (error : ESessionError)
  | done (error : ESessionError) (released : Bool)
deriving DecidableEq, Repr

inductive TimerPc where
  | none
  | queued
  | notify (pc : NotifyPc)
  | readTaskId
  | release
  | done
deriving DecidableEq, Repr

inductive LoopPc where
  | idle
  | notify (pc : NotifyPc)
deriving DecidableEq, Repr

/-- Where the pointer to the session is: with the sender only, in `_session_info`,
in `_session_map`, or erased from it. -/
inductive Place where
  | created
  | queued
  | mapped
  | erased
deriving DecidableEq, Repr

structure SessionState where
  info : SessionInfo
  place : Place
  sender : SenderPc
  timer : TimerPc
  loop : LoopPc
deriving DecidableEq, Repr

def SessionState.init (callback : Bool) : SessionState where
  info := SessionInfo.init callback
  place := .created
  sender := .tryShared
  timer := .none
  loop := .idle

/-- A step of one of the threads.  `sender n` carries the result of the call it
makes, 0 being failure: of `prepareRead`, of `addTimeschdule`, of `write` and of
the parser; `timer` and `loop` that of the parser. -/
inductive SessionAct where
  | sender (n : ℕ)
  | timer (parsed : Bool)
  | loop (parsed : Bool)
  | drain
  | reply
  | sweep
deriving DecidableEq, Repr

def senderStep (n : ℕ) (s : SessionState) : Option SessionState :=
  match s.sender with
  | .tryShared => some { s with
      info := { s.info.touch with owners := addShared s.info.owners }
      sender := .prepareRead }
  | .prepareRead =>
    -- the queue is full: nobody else has seen the session, and it is deleted here
    if n = 0 then some { s with
      info := { s.info.touch with alive := false }
      sender := .done .socketBusy false }
    else some { s with place := .queued, sender := .addTimeschdule }
  | .addTimeschdule => some { s with
      timer := if n = 0 then s.timer else .queued
      sender := .storeTaskId n }
  | .storeTaskId id => some { s with
      info := { s.info.touch with timerTaskId := id }
      sender := .testTaskId }
  | .testTaskId => some { s with
      info := s.info.touch
      sender := if s.info.timerTaskId = 0 then .releaseTimerBusy else .write }
  | .releaseTimerBusy => some { s with
      info := { s.info.touch with owners := releaseShared s.info.owners }
      sender := .done .timerBusy true }
  | .write => some { s with sender := if n = 0 then .removeTimeschdule else .testCallback }
  -- the closure may be running already; the unschedule does not wait for it
  | .removeTimeschdule => some { s with info := s.info.touch, sender := .releaseWriteFail }
  | .releaseWriteFail => some { s with
      info := { s.info.touch with owners := releaseShared s.info.owners }
      sender := .done .writeFail true }
  | .testCallback => some { s with
      info := s.info.touch
      sender := if s.info.callback then .done .sessionOk false else .waitResult }
  | .waitResult =>
    match s.info.results with
    | [] => none
    | e :: _ => some { s with info := s.info.touch, sender := .postProcess e }
  | .postProcess e => some { s with
      info := s.info.touch
      sender := .releaseSync (postProcess (n ≠ 0) e) }
  | .releaseSync e => some { s with
      info := { s.info.touch with owners := releaseShared s.info.owners }
      sender := .done e true }
  | .done _ _ => none

/-- The closure.  It may fire at any time after it was accepted, also after an
unschedule. -/
def timerStep (parsed : Bool) (s : SessionState) : Option SessionState :=
  match s.timer with
  | .queued => some { s with timer := .notify .tryShared }
  | .notify pc =>
    match notifyStep .readTimeout parsed s.info pc with
    | (info, .next pc) => some { s with info, timer := .notify pc }
    | (info, .ret _) => some { s with info, timer := .readTaskId }
  | .readTaskId => some { s with info := s.info.touch, timer := .release }
  | .release => some { s with
      info := { s.info.touch with owners := releaseShared s.info.owners }
      timer := .done }
  | .none | .done => none

def loopStep (parsed : Bool) (s : SessionState) : Option SessionState :=
  match s.loop with
  | .notify pc =>
    match notifyStep .sessionOk parsed s.info pc with
    | (info, .next pc) => some { s with info, loop := .notify pc }
    | (info, .ret _) => some { s with info, loop := .idle }
  | .idle => none

def sessionStep (s : SessionState) : SessionAct → Option SessionState
  | .sender n => senderStep n s
  | .timer parsed => timerStep parsed s
  | .loop parsed => loopStep parsed s
  | .drain =>
    if s.place = .queued ∧ s.loop = .idle then
      some { s with info := s.info.touch, place := .mapped }
    else none
  | .reply =>
    if s.place = .mapped ∧ s.loop = .idle then
      some { s with info := s.info.touch, loop := .notify .tryShared }
    else none
  | .sweep =>
    if s.place = .mapped ∧ s.loop = .idle then
      match tryExclusive s.info.owners with
      | some owners => some { s with
          info := { s.info.touch with owners, alive := false }
          place := .erased }
      | none => some { s with info := s.info.touch }
    else none

def NotifyOut.timerPc : NotifyOut → TimerPc
  | .next pc => .notify pc
  | .ret _ => .readTaskId

def NotifyOut.loopPc : NotifyOut → LoopPc
  | .next pc => .notify pc
  | .ret _ => .idle

theorem loopStep_cases {s s' : SessionState} {parsed : Bool} (h : loopStep parsed s = some s') :
    ∃ pc, s.loop = .notify pc ∧ s' = { s with
      info := (notifyStep .sessionOk parsed s.info pc).1
      loop := (notifyStep .sessionOk parsed s.info pc).2.loopPc } := by
  unfold loopStep at h
  cases hl : s.loop with
  | idle => simp [hl] at h
  | notify pc =>
    refine ⟨pc, rfl, ?_⟩
    simp only [hl] at h
    generalize notifyStep .sessionOk parsed s.info pc = r at h
    obtain ⟨i, pc' | b⟩ := r
    all_goals exact (Option.some.inj h).symm

theorem timerStep_cases {s s' : SessionState} {parsed : Bool} (h : timerStep parsed s = some s') :
    (s.timer = .queued ∧ s' = { s with timer := .notify .tryShared }) ∨
    (∃ pc, s.timer = .notify pc ∧ s' = { s with
      info := (notifyStep .readTimeout parsed s.info pc).1
      timer := (notifyStep .readTimeout parsed s.info pc).2.timerPc }) ∨
    (s.timer = .readTaskId ∧ s' = { s with info := s.info.touch, timer := .release }) ∨
    (s.timer = .release ∧ s' = { s with
      info := { s.info.touch with owners := releaseShared s.info.owners }
      timer := .done }) := by
  unfold timerStep at h
  cases ht : s.timer with
  | none => simp [ht] at h
  | done => simp [ht] at h
  | notify pc =>
    refine .inr (.inl ⟨pc, rfl, ?_⟩)
    simp only [ht] at h
    generalize notifyStep .readTimeout parsed s.info pc = r at h
    obtain ⟨i, pc' | b⟩ := r
    all_goals exact (Option.some.inj h).symm
  | queued =>
    rw [ht] at h
    exact .inl ⟨rfl, (Option.some.inj h).symm⟩
  | readTaskId =>
    rw [ht] at h
    exact .inr (.inr (.inl ⟨rfl, (Option.some.inj h).symm⟩))
  | release =>
    rw [ht] at h
    exact .inr (.inr (.inr ⟨rfl, (Option.some.inj h).symm⟩))

theorem drain_cases {s s' : SessionState} (h : sessionStep s .drain = some s') :
    (s.place = .queued ∧ s.loop = .idle) ∧
      s' = { s with info := s.info.touch, place := .mapped } := by
  simp only [sessionStep] at h
  split_ifs at h with hp
  exact ⟨hp, (Option.some.inj h).symm⟩

theorem reply_cases {s s' : SessionState} (h : sessionStep s .reply = some s') :
    (s.place = .mapped ∧ s.loop = .idle) ∧
      s' = { s with info := s.info.touch, loop := .notify .tryShared } := by
  simp only [sessionStep] at h
  split_ifs at h with hp
  exact ⟨hp, (Option.some.inj h).symm⟩

theorem sweep_cases {s s' : SessionState} (h : sessionStep s .sweep = some s') :
    (s.place = .mapped ∧ s.loop = .idle) ∧
      ((∃ owners, tryExclusive s.info.owners = some owners ∧ s' = { s with
        info := { s.info.touch with owners, alive := false }
        place := .erased }) ∨
      s' = { s with info := s.info.touch }) := by
  simp only [sessionStep] at h
  split_ifs at h with hp
  refine ⟨hp, ?_⟩
  split at h
  next owners hx => exact .inl ⟨owners, hx, (Option.some.inj h).symm⟩
  next => exact .inr (Option.some.inj h).symm

theorem notifyStep_results (error : ESessionError) (parsed : Bool) (i : SessionInfo)
    (pc : NotifyPc) {e : ESessionError} (he : e ∈ (notifyStep error parsed i pc).1.results) :
    e ∈ i.results ∨ e = error := by
  cases pc with
  | setValue => exact (List.mem_append.mp he).imp_right List.mem_singleton.mp
  | _ => exact Or.inl he

/-- A step of `notify` leaves the rest of the session as it is. -/
theorem notifyStep_frame (error : ESessionError) (parsed : Bool) (i : SessionInfo)
    (pc : NotifyPc) :
    (notifyStep error parsed i pc).1.alive = i.alive ∧
      (notifyStep error parsed i pc).1.callback = i.callback ∧
      (notifyStep error parsed i pc).1.timerTaskId = i.timerTaskId ∧
      (notifyStep error parsed i pc).1.badAccess = (i.badAccess || !i.alive) := by
  cases pc <;> simp [notifyStep, SessionInfo.touch]

/-- What the sender finds of its session after a step of another thread: the promise may have
been set, and the session may have moved on. -/
structure SessionState.Frame (s s' : SessionState) : Prop where
  sender : s'.sender = s.sender
  callback : s'.info.callback = s.info.callback
  timerTaskId : s'.info.timerTaskId = s.info.timerTaskId
  place : s'.place = .created ↔ s.place = .created
  timer : s'.timer = .none ↔ s.timer = .none
  results : ∀ e ∈ s'.info.results, e ∈ s.info.results ∨ e = .sessionOk ∨ e = .readTimeout

theorem sessionStep_frame {s s' : SessionState} {a : SessionAct} (ha : ∀ k, a ≠ .sender k)
    (h : sessionStep s a = some s') : s.Frame s' := by
  cases a with
  | sender k => exact absurd rfl (ha k)
  | timer parsed =>
    rcases timerStep_cases h with ⟨ht, rfl⟩ | ⟨pc, ht, rfl⟩ | ⟨ht, rfl⟩ | ⟨ht, rfl⟩
    · exact ⟨rfl, rfl, rfl, .rfl, by simp [ht], fun _ he => .inl he⟩
    · obtain ⟨-, hcb, hid, -⟩ := notifyStep_frame .readTimeout parsed s.info pc
      refine ⟨rfl, hcb, hid, .rfl, ?_, ?_⟩
      · cases (notifyStep .readTimeout parsed s.info pc).2 <;> simp [ht, NotifyOut.timerPc]
      · exact fun e he => (notifyStep_results .readTimeout parsed s.info pc he).imp_right .inr
    · exact ⟨rfl, rfl, rfl, .rfl, by simp [ht], fun _ he => .inl he⟩
    · exact ⟨rfl, rfl, rfl, .rfl, by simp [ht], fun _ he => .inl he⟩
  | loop parsed =>
    obtain ⟨pc, hl, rfl⟩ := loopStep_cases h
    obtain ⟨-, hcb, hid, -⟩ := notifyStep_frame .sessionOk parsed s.info pc
    exact ⟨rfl, hcb, hid, .rfl, .rfl,
      fun e he => (notifyStep_results .sessionOk parsed s.info pc he).imp_right .inl⟩
  | drain =>
    obtain ⟨⟨hp, -⟩, rfl⟩ := drain_cases h
    exact ⟨rfl, rfl, rfl, by simp [hp], .rfl, fun _ he => .inl he⟩
  | reply =>
    obtain ⟨-, rfl⟩ := reply_cases h
    exact ⟨rfl, rfl, rfl, .rfl, .rfl, fun _ he => .inl he⟩
  | sweep =>
    obtain ⟨⟨hp, -⟩, ⟨owners, -, rfl⟩ | rfl⟩ := sweep_cases h
    · exact ⟨rfl, rfl, rfl, by simp [hp], .rfl, fun _ he => .inl he⟩
    · exact ⟨rfl, rfl, rfl, .rfl, .rfl, fun _ he => .inl he⟩

end SofaBolt
