import SofaBolt.SessionAsync

namespace SofaBolt

open Run

namespace SessionState

def hears (s : SessionState) : SessionAct → Bool
  | .reply => true
  | .timer _ => s.timer = .queued
  | _ => false

def failed (s : SessionState) : Bool :=
  match s.sender with
  | .removeTimeschdule | .releaseWriteFail => true
  | .done error _ => error ≠ .sessionOk ∧ error ≠ .readTimeout
  | _ => false

end SessionState

def ESessionError.IsFinal (error : ESessionError) : Prop :=
  error = .sessionOk ∨ error = .readTimeout

/-- The sender comes to its write, the response can be parsed, and a session whose write fails is
not heard of. -/
def SessionAct.Orderly (heard : Bool) (s : SessionState) : SessionAct → Prop
  | .sender n => n = 0 → s.sender ≠ .prepareRead ∧ s.sender ≠ .addTimeschdule ∧
      s.sender ≠ .postProcess .sessionOk ∧ (s.sender = .write → heard = false)
  | act => s.hears act → s.failed = false

instance (heard : Bool) (s : SessionState) : DecidablePred (SessionAct.Orderly heard s) := by
  intro act
  cases act <;> unfold SessionAct.Orderly <;> infer_instance

def SenderPc.Holds (taskId : ℕ) : SenderPc → Prop
  | .storeTaskId id => id ≠ 0
  | .testTaskId => taskId ≠ 0
  | .releaseTimerBusy => False
  | .postProcess error | .releaseSync error => error.IsFinal
  | .done error _ => error.IsFinal ∨ error = .writeFail
  | _ => True

namespace SessionState

variable {s s' : SessionState} {heard : Bool}

structure Attempting (s : SessionState) (heard : Bool) : Prop where
  failed : s.failed = true → heard = false
  sender : s.sender.Holds s.info.timerTaskId
  results : ∀ error ∈ s.info.results, error.IsFinal

theorem attempting_init (callback : Bool) : Attempting (init callback) false where
  failed _ := rfl
  sender := trivial
  results _ h := absurd h List.not_mem_nil

theorem Attempting.senderStep (ha : s.Attempting heard) {n : ℕ}
    (ho : SessionAct.Orderly heard s (.sender n)) (h : SofaBolt.senderStep n s = some s') :
    s'.Attempting heard := by
  have ho : n = 0 → s.sender ≠ .prepareRead ∧ s.sender ≠ .addTimeschdule ∧
      s.sender ≠ .postProcess .sessionOk ∧ (s.sender = .write → heard = false) := ho
  have hfailed := ha.failed
  have hsender := ha.sender
  unfold SofaBolt.senderStep at h
  unfold SessionState.failed at hfailed
  cases hs : s.sender with
  | tryShared =>
    rw [hs] at h
    obtain rfl := Option.some.inj h
    exact ⟨(by cases ·), trivial, ha.results⟩
  | prepareRead =>
    have hn : n ≠ 0 := fun hn => (ho hn).1 hs
    simp only [hs, hn, if_false] at h
    obtain rfl := Option.some.inj h
    exact ⟨(by cases ·), trivial, ha.results⟩
  | addTimeschdule =>
    have hn : n ≠ 0 := fun hn => (ho hn).2.1 hs
    rw [hs] at h
    obtain rfl := Option.some.inj h
    exact ⟨(by cases ·), hn, ha.results⟩
  | storeTaskId id =>
    rw [hs] at h hsender
    obtain rfl := Option.some.inj h
    exact ⟨(by cases ·), hsender, ha.results⟩
  | testTaskId =>
    rw [hs] at h hsender
    have hid : s.info.timerTaskId ≠ 0 := hsender
    simp only [hid, if_false] at h
    obtain rfl := Option.some.inj h
    exact ⟨(by cases ·), trivial, ha.results⟩
  | releaseTimerBusy =>
    rw [hs] at hsender
    exact hsender.elim
  | write =>
    rw [hs] at h
    obtain rfl := Option.some.inj h
    refine ⟨fun hf => (ho ?_).2.2.2 hs, ?_, ha.results⟩
    · by_contra hn
      simp [SessionState.failed, hn] at hf
    · change SenderPc.Holds _ (if _ then _ else _)
      split_ifs <;> trivial
  | removeTimeschdule =>
    rw [hs] at h hfailed
    obtain rfl := Option.some.inj h
    exact ⟨fun _ => hfailed rfl, trivial, ha.results⟩
  | releaseWriteFail =>
    rw [hs] at h hfailed
    obtain rfl := Option.some.inj h
    exact ⟨fun _ => hfailed rfl, .inr rfl, ha.results⟩
  | testCallback =>
    rw [hs] at h
    obtain rfl := Option.some.inj h
    refine ⟨fun hf => ?_, ?_, ha.results⟩
    · cases hcb : s.info.callback <;> simp [SessionState.failed, hcb] at hf
    · change SenderPc.Holds _ (if _ then _ else _)
      split_ifs
      · exact .inl (.inl rfl)
      · trivial
  | waitResult =>
    simp only [hs] at h
    cases hr : s.info.results with
    | nil => simp [hr] at h
    | cons error rest =>
      rw [hr] at h
      obtain rfl := Option.some.inj h
      exact ⟨(by cases ·), ha.results error (by simp [hr]), ha.results⟩
  | postProcess error =>
    rw [hs] at h hsender
    obtain rfl := Option.some.inj h
    have hkeep : SofaBolt.postProcess (decide (n ≠ 0)) error = error := by
      rw [SofaBolt.postProcess, if_neg]
      rintro ⟨rfl, hn⟩
      exact (ho (by simpa using hn)).2.2.1 hs
    refine ⟨(by cases ·), ?_, ha.results⟩
    change ESessionError.IsFinal _
    rw [hkeep]
    exact hsender
  | releaseSync error =>
    rw [hs] at h hsender
    obtain rfl := Option.some.inj h
    refine ⟨fun hf => ?_, .inl hsender, ha.results⟩
    rcases hsender with rfl | rfl <;> simp [SessionState.failed] at hf
  | done error released => simp [hs] at h

theorem Attempting.step (ha : s.Attempting heard) {act : SessionAct}
    (ho : act.Orderly heard s) (h : sessionStep s act = some s') :
    s'.Attempting (heard || s.hears act) := by
  by_cases hsend : ∃ n, act = .sender n
  · obtain ⟨n, rfl⟩ := hsend
    simpa [hears] using ha.senderStep ho h
  · have hf := sessionStep_frame (fun k hk => hsend ⟨k, hk⟩) h
    have ho : s.hears act → s.failed = false := by
      cases act with
      | sender n => exact absurd ⟨n, rfl⟩ hsend
      | _ => exact ho
    have hfailed : s'.failed = s.failed := by
      simp only [SessionState.failed, hf.sender]
    refine ⟨fun hfail => ?_, ?_, fun error he => ?_⟩
    · rw [hfailed] at hfail
      have hnot : s.hears act = false := by
        by_contra hh
        rw [ho (by simpa using hh)] at hfail
        cases hfail
      rw [ha.failed hfail, hnot]
      rfl
    · rw [hf.sender, hf.timerTaskId]
      exact ha.sender
    · exact (hf.results error he).elim (ha.results error) id

end SessionState

structure Attempt where
  error : ESessionError
  heard : Bool
deriving DecidableEq, Repr

structure RetryCall where
  call : AsyncCall
  heard : Bool
  ended : List Attempt
deriving DecidableEq, Repr

def SenderPc.error : SenderPc → Option ESessionError
  | .done error _ => some error
  | _ => none

namespace AsyncCall

def isRunning (c : AsyncCall) (j : ℕ) : Bool := c.pc = .sending ∧ j + 1 = c.sessions.length

def hears (c : AsyncCall) : CallAct → Bool
  | .session j act => c.isRunning j && (c.sessions[j]?).any (·.hears act)
  | _ => false

def attemptError (c : AsyncCall) : CallAct → Option ESessionError
  | .start .protocolNotFound => some .protocolNotFound
  | .start .socketLost => some .socketLost
  | .start .assembleRequestFail => some .assembleRequestFail
  | .endAttempt => c.sessions.getLast?.bind fun s => s.sender.error
  | _ => none

end AsyncCall

def CallAct.isStart : CallAct → Bool
  | .start _ => true
  | _ => false

namespace RetryCall

def init (retry : ℤ) (callback : Bool) : RetryCall :=
  ⟨{ AsyncCall.init retry with callback }, false, []⟩

def heardAfter (r : RetryCall) (a : CallAct) : Bool :=
  !a.isStart && (r.heard || r.call.hears a)

def step (r : RetryCall) (a : CallAct) : Option RetryCall :=
  (callStep r.call a).map fun call =>
    ⟨call, r.heardAfter a,
      r.ended ++ (r.call.attemptError a).toList.map fun error => ⟨error, r.heardAfter a⟩⟩

def begun (r : RetryCall) : ℕ := r.ended.length + if r.call.pc = .sending then 1 else 0

def OnLast (r : RetryCall) : Prop := r.call.retry ≤ r.call.attempts + 1

instance (r : RetryCall) : Decidable r.OnLast := inferInstanceAs (Decidable (_ ≤ _))

def Orderly (r : RetryCall) : CallAct → Prop
  | .start outcome => r.OnLast ∨ outcome = .assembled
  | .session j act => r.OnLast ∨
      (r.call.isRunning j → ∀ s ∈ r.call.sessions[j]?, act.Orderly r.heard s)
  | _ => True

instance (r : RetryCall) : DecidablePred (Orderly r) := by
  intro a
  cases a <;> unfold Orderly <;> infer_instance

variable {r r' : RetryCall} {retry : ℤ}

structure Unheard (a : Attempt) : Prop where
  heard : a.heard = false
  error : a.error = .writeFail

inductive Stage (r : RetryCall) : Prop where
  | attempt (pc : r.call.pc = .attempt) (attempts : r.call.attempts < r.call.retry)
      (ended : ∀ a ∈ r.ended, Unheard a)
  | sending (pc : r.call.pc = .sending) (attempts : r.call.attempts < r.call.retry)
      (ended : ∀ a ∈ r.ended, Unheard a) (s : SessionState)
      (session : r.call.sessions.getLast? = some s)
      (attempting : ¬ r.OnLast → s.Attempting r.heard)
  | stopped (pc : r.call.pc = .attempted ∨ r.call.pc = .returned)
      (attempts : r.call.attempts ≤ r.call.retry) (before : List Attempt) (last : Attempt)
      (ended : r.ended = before ++ [last]) (unheard : ∀ a ∈ before, Unheard a)
      (errorCode : r.call.errorCode = last.error)

structure Inv (retry : ℤ) (r : RetryCall) : Prop where
  limit : r.call.retry = max 1 retry.toNat
  count : r.ended.length = r.call.attempts
  stage : r.Stage

theorem inv_init (retry : ℤ) (callback : Bool) : Inv retry (init retry callback) where
  limit := by
    simp only [init, AsyncCall.init]
    split_ifs with hr <;> omega
  count := rfl
  stage := by
    refine .attempt rfl ?_ (by simp [init])
    simp only [init, AsyncCall.init]
    split_ifs with hr <;> omega

/-- The loop behind an attempt: it goes on only if nothing was heard. -/
theorem Inv.endAttempt (hi : Inv retry r) (hlt : r.call.attempts < r.call.retry)
    (hended : ∀ a ∈ r.ended, Unheard a) (error : ESessionError) (heard : Bool)
    (hretry : ¬ error.IsFinal → ¬ r.OnLast → Unheard ⟨error, heard⟩) :
    Inv retry ⟨r.call.endAttempt error, heard, r.ended ++ [⟨error, heard⟩]⟩ where
  limit := hi.limit
  count := by simp [AsyncCall.endAttempt, hi.count]
  stage := by
    by_cases hstop : error = .sessionOk ∨ error = .readTimeout ∨
        r.call.retry ≤ r.call.attempts + 1
    · exact .stopped (.inl (if_pos hstop)) hlt r.ended ⟨error, heard⟩ rfl hended rfl
    · have hfinal : ¬ error.IsFinal := fun h => hstop (h.imp_right .inl)
      refine .attempt (if_neg hstop) ?_ fun a ha => ?_
      · simp only [AsyncCall.endAttempt]
        omega
      · rcases List.mem_append.mp ha with ha | ha
        · exact hended a ha
        · rw [List.mem_singleton.mp ha]
          exact hretry hfinal fun hlast => hstop (.inr (.inr hlast))

theorem Inv.start (hi : Inv retry r) (hpc : r.call.pc = .attempt) {outcome : AttemptStart}
    (ho : r.Orderly (.start outcome)) :
    Inv retry ⟨r.call.startAttempt outcome, r.heardAfter (.start outcome),
      r.ended ++ (r.call.attemptError (.start outcome)).toList.map
        fun error => ⟨error, r.heardAfter (.start outcome)⟩⟩ := by
  cases hi.stage with
  | sending pc => simp [hpc] at pc
  | stopped pc => simp [hpc] at pc
  | attempt _ hlt hended =>
    have hfail (error : ESessionError) (hne : outcome ≠ .assembled) : Inv retry
        ⟨r.call.endAttempt error, false, r.ended ++ [⟨error, false⟩]⟩ :=
      hi.endAttempt hlt hended error false fun _ hmore => absurd (ho.resolve_left hmore) hne
    cases outcome with
    | protocolNotFound => exact hfail _ (by decide)
    | socketLost => exact hfail _ (by decide)
    | assembleRequestFail => exact hfail _ (by decide)
    | assembled =>
      refine ⟨hi.limit, ?_, ?_⟩
      · simpa [AsyncCall.attemptError, AsyncCall.startAttempt] using hi.count
      refine .sending rfl hlt (by simpa [AsyncCall.attemptError] using hended)
        (SessionState.init r.call.callback) ?_ fun _ => SessionState.attempting_init _
      simp [AsyncCall.startAttempt]

theorem Inv.session (hi : Inv retry r) {j : ℕ} {act : SessionAct}
    (ho : r.Orderly (.session j act)) {c : AsyncCall}
    (h : callStep r.call (.session j act) = some c) :
    Inv retry ⟨c, r.heardAfter (.session j act), r.ended⟩ := by
  simp only [callStep] at h
  split_ifs at h with hmay
  obtain ⟨s, hj, h⟩ := Option.bind_eq_some_iff.mp h
  obtain ⟨s', hstep, rfl⟩ := Option.map_eq_some_iff.mp h
  refine ⟨hi.limit, hi.count, ?_⟩
  cases hi.stage with
  | attempt hpc hlt hended => exact .attempt hpc hlt hended
  | stopped hpc hle before last hended hunheard hcode =>
    exact .stopped hpc hle before last hended hunheard hcode
  | sending hpc hlt hended s₀ hlast hatt =>
    by_cases hj' : j + 1 = r.call.sessions.length
    · -- the session of the running attempt
      have hrun : r.call.isRunning j = true := by simp [AsyncCall.isRunning, hpc, hj']
      have hs : s₀ = s := by
        rw [List.getLast?_eq_getElem?, ← hj', Nat.add_sub_cancel, hj] at hlast
        exact (Option.some.inj hlast).symm
      subst hs
      have hheard : r.heardAfter (.session j act) = (r.heard || s₀.hears act) := by
        simp [heardAfter, CallAct.isStart, AsyncCall.hears, hrun, hj]
      refine .sending hpc hlt hended s' ?_ ?_
      · rw [List.getLast?_eq_getElem?, List.length_set, ← hj', Nat.add_sub_cancel,
          List.getElem?_set_self (by omega)]
      · rw [hheard]
        exact fun hmore => (hatt hmore).step (ho.resolve_left hmore hrun s₀ hj) hstep
    · have hheard : r.heardAfter (.session j act) = r.heard := by
        simp [heardAfter, CallAct.isStart, AsyncCall.hears, AsyncCall.isRunning, hj']
      have hlen : j < r.call.sessions.length := (List.getElem?_eq_some_iff.mp hj).1
      refine .sending hpc hlt hended s₀ ?_ (by rw [hheard]; exact hatt)
      rw [List.getLast?_eq_getElem?, List.length_set, List.getElem?_set_ne (by omega),
        ← List.getLast?_eq_getElem?, hlast]

theorem Inv.returns (hi : Inv retry r) {c : AsyncCall}
    (h : callStep r.call .endAttempt = some c) :
    Inv retry ⟨c, r.heardAfter .endAttempt, r.ended ++ (r.call.attemptError .endAttempt).toList.map
      fun error => ⟨error, r.heardAfter .endAttempt⟩⟩ := by
  cases hi.stage with
  | attempt hpc => simp [callStep, hpc] at h
  | stopped hpc => rcases hpc with hpc | hpc <;> simp [callStep, hpc] at h
  | sending hpc hlt hended s hlast hatt =>
    simp only [callStep, hpc, hlast] at h
    cases hs : s.sender with
    | done error released =>
      rw [hs] at h
      obtain rfl := Option.some.inj h
      have herror : r.call.attemptError .endAttempt = some error := by
        simp [AsyncCall.attemptError, hlast, hs, SenderPc.error]
      have hheard : r.heardAfter .endAttempt = r.heard := by
        simp [heardAfter, CallAct.isStart, AsyncCall.hears]
      rw [herror, hheard]
      refine hi.endAttempt hlt hended error r.heard fun hfinal hmore =>
        ⟨(hatt hmore).failed ?_, ?_⟩
      · simpa [SessionState.failed, hs, ESessionError.IsFinal, not_or] using hfinal
      · have hholds := (hatt hmore).sender
        rw [hs] at hholds
        exact hholds.resolve_left hfinal
    | _ => simp [hs] at h

theorem Inv.step (hi : Inv retry r) {a : CallAct} (ho : r.Orderly a) (h : r.step a = some r') :
    Inv retry r' := by
  obtain ⟨c, hc, rfl⟩ := Option.map_eq_some_iff.mp h
  cases a with
  | start outcome =>
    simp only [callStep] at hc
    split_ifs at hc with hpc
    obtain rfl := Option.some.inj hc
    exact hi.start hpc ho
  | session j act => simpa [AsyncCall.attemptError] using hi.session ho hc
  | endAttempt => exact hi.returns hc
  | finish =>
    simp only [callStep] at hc
    split_ifs at hc with hpc
    obtain rfl := Option.some.inj hc
    cases hi.stage with
    | attempt pc => simp [hpc] at pc
    | sending pc => simp [hpc] at pc
    | stopped _ hle before last hended hunheard hcode =>
      have hsame : r.call.finish.retry = r.call.retry ∧ r.call.finish.attempts = r.call.attempts ∧
          r.call.finish.errorCode = r.call.errorCode ∧ r.call.finish.pc = .returned := by
        unfold AsyncCall.finish
        split_ifs <;> exact ⟨rfl, rfl, rfl, rfl⟩
      obtain ⟨hretry, hattempts, herror, hpc'⟩ := hsame
      refine ⟨hretry.trans hi.limit, ?_, .stopped (.inr hpc') ?_ before last ?_ hunheard ?_⟩
      · simpa [AsyncCall.attemptError, hattempts] using hi.count
      · simpa [hretry, hattempts] using hle
      · simpa [AsyncCall.attemptError] using hended
      · exact herror.trans hcode

theorem Inv.begun_le (hi : Inv retry r) : r.begun ≤ max 1 retry.toNat := by
  rw [← hi.limit, begun, hi.count]
  cases hi.stage with
  | attempt pc hlt => rw [if_neg (by simp [pc])]; omega
  | sending pc hlt => rw [if_pos pc]; omega
  | stopped pc hle =>
    rw [if_neg (by rcases pc with pc | pc <;> simp [pc])]
    omega

def sessionSteps (j : ℕ) (acts : List SessionAct) : List CallAct := acts.map (.session j)

def sendSteps (j : ℕ) : List CallAct :=
  .start .assembled ::
    sessionSteps j [.sender 0, .sender 1, .drain, .sender 7, .sender 0, .sender 0]

def replySteps (j : ℕ) : List CallAct :=
  sessionSteps j [.reply, .loop true, .loop true, .loop true, .loop true, .sender 0, .sender 0]

def secondAnswered : List CallAct :=
  sendSteps 0 ++ sessionSteps 0 [.sender 0, .sender 0, .sender 0] ++ .endAttempt ::
    sendSteps 1 ++ sessionSteps 1 [.sender 1] ++ replySteps 1 ++
    sessionSteps 1 [.sender 1, .sender 0] ++ [.endAttempt]

end RetryCall

end SofaBolt
