import SofaBolt.Run
import SofaBolt.SessionShares

namespace SofaBolt

open LifeCycleLock Run

inductive AttemptStart where
  | protocolNotFound
  | socketLost
  | assembleRequestFail
  | assembled
deriving DecidableEq, Repr

/-- Where the caller is: before an attempt, in `sendInternal` with the session of
the attempt set up, behind the attempts, or behind `async`. -/
inductive CallPc where
  | attempt
  | sending
  | attempted
  | returned
deriving DecidableEq, Repr

/-- `callback` tells whether the caller's function is still non-empty, `invoked`
what `async` itself has called it with, and `emptyCalls` how often it has called
an empty one. -/
structure AsyncCall where
  retry : ℕ
  attempts : ℕ
  callback : Bool
  errorCode : ESessionError
  pc : CallPc
  sessions : List SessionState
  invoked : List ESessionError
  emptyCalls : ℕ
deriving DecidableEq, Repr

namespace AsyncCall

def init (retry : ℤ) : AsyncCall where
  retry := if 0 < retry then retry.toNat else 1
  attempts := 0
  callback := true
  errorCode := .sessionOk
  pc := .attempt
  sessions := []
  invoked := []
  emptyCalls := 0

def endAttempt (c : AsyncCall) (error : ESessionError) : AsyncCall :=
  { c with
    attempts := c.attempts + 1
    errorCode := error
    pc := if error = .sessionOk ∨ error = .readTimeout ∨ c.retry ≤ c.attempts + 1
      then .attempted else .attempt }

def startAttempt (c : AsyncCall) : AttemptStart → AsyncCall
  | .protocolNotFound => c.endAttempt .protocolNotFound
  | .socketLost => c.endAttempt .socketLost
  | .assembleRequestFail => c.endAttempt .assembleRequestFail
  | .assembled =>
    { c with
      callback := false
      sessions := c.sessions ++ [SessionState.init c.callback]
      pc := .sending }

def finish (c : AsyncCall) : AsyncCall :=
  if c.errorCode = .sessionOk then { c with pc := .returned }
  else if c.callback then
    { c with invoked := c.invoked ++ [c.errorCode], pc := .returned }
  else { c with emptyCalls := c.emptyCalls + 1, pc := .returned }

end AsyncCall

inductive CallAct where
  | start (outcome : AttemptStart)
  | session (j : ℕ) (act : SessionAct)
  | endAttempt
  | finish
deriving DecidableEq, Repr

def AsyncCall.mayStep (c : AsyncCall) (j : ℕ) : SessionAct → Bool
  | .sender _ => c.pc = .sending ∧ j + 1 = c.sessions.length
  | _ => true

def callStep (c : AsyncCall) : CallAct → Option AsyncCall
  | .start outcome => if c.pc = .attempt then some (c.startAttempt outcome) else none
  | .session j act =>
    if c.mayStep j act then
      (c.sessions[j]?).bind fun s =>
        (sessionStep s act).map fun s' => { c with sessions := c.sessions.set j s' }
    else none
  | .endAttempt =>
    match c.pc, c.sessions.getLast? with
    | .sending, some s =>
      match s.sender with
      | .done error _ => some (c.endAttempt error)
      | _ => none
    | _, _ => none
  | .finish => if c.pc = .attempted then some c.finish else none

def AsyncCall.invocations (c : AsyncCall) : ℕ :=
  c.invoked.length + (c.sessions.map fun s => s.info.invoked.length).sum

/-- The caller is behind `async`, and no closure and no `notify` is left to run. -/
def AsyncCall.Finished (c : AsyncCall) : Prop :=
  c.pc = .returned ∧ ∀ s ∈ c.sessions, (s.timer = .none ∨ s.timer = .done) ∧ s.loop = .idle

def SenderPc.calls : SenderPc → Bool
  | .prepareRead | .addTimeschdule | .write => true
  | _ => false

/-- The calls of the sender succeed, and the loop thread does not delete the
session before the sender has left it. -/
def SessionAct.Smooth (s : SessionState) : SessionAct → Prop
  | .sender n => s.sender.calls → n ≠ 0
  | .sweep => (tryExclusive s.info.owners).isSome → s.sender.isDone
  | _ => True

instance (s : SessionState) : DecidablePred (SessionAct.Smooth s)
  | .sender n => inferInstanceAs (Decidable (s.sender.calls → n ≠ 0))
  | .sweep => inferInstanceAs (Decidable ((tryExclusive s.info.owners).isSome → s.sender.isDone))
  | .timer _ | .loop _ | .drain | .reply => isTrue trivial

def SenderPc.OnSuccess (timerTaskId : ℕ) : SenderPc → Prop
  | .storeTaskId id => id ≠ 0
  | .testTaskId => timerTaskId ≠ 0
  | .tryShared | .prepareRead | .addTimeschdule | .write | .testCallback => True
  | .done error released => error = .sessionOk ∧ released = false
  | _ => False

theorem SenderPc.OnSuccess.released {k : ℕ} {pc : SenderPc} (h : pc.OnSuccess k) :
    pc.released = 0 ∧ ¬ pc.Releasing := by
  cases pc with
  | done e r => exact ⟨by rw [h.2]; rfl, id⟩
  | _ => first | exact h.elim | exact ⟨rfl, id⟩

namespace SessionState

variable {s s' : SessionState} {n : ℕ} {u : Bool}

structure AsyncInv (s : SessionState) : Prop extends Base s where
  callback : s.info.callback = true
  onSuccess : s.sender.OnSuccess s.info.timerTaskId
  placed : 2 ≤ s.sender.stage → s.place ≠ .created
  timed : 3 ≤ s.sender.stage → s.timer ≠ .none

theorem asyncInv_init : AsyncInv (init true) where
  toBase := base_init true
  callback := rfl
  onSuccess := trivial
  placed h := absurd h (by decide)
  timed h := absurd h (by decide)

theorem AsyncInv.shares_eq (hi : AsyncInv s) (hc : s.Counted n u) :
    n + s.timer.released = s.sender.taken + s.timer.holds + s.loop.holds := by
  have hshares := hc.shares
  rw [hi.onSuccess.released.1, hi.told.1 hi.callback, List.length_nil] at hshares
  omega

theorem AsyncInv.covered (hi : AsyncInv s) (hc : s.Counted n u) : s.Covered n where
  sender hr := absurd hr hi.onSuccess.released.2
  timer ht := by
    have hshares := hi.shares_eq hc
    have hstage := hi.timer (by rw [ht]; decide)
    rw [ht, SenderPc.taken_of_stage (by omega)] at hshares
    simp only [TimerPc.released] at hshares
    omega
  loop hl := by
    have hshares := hi.shares_eq hc
    have hle := s.timer.released_le
    have hidle : s.loop ≠ .idle := fun h => by rw [h] at hl; exact hl
    have hstage := hi.place (by rw [hi.loop hidle]; decide)
    rw [(LoopPc.of_late hl).2, SenderPc.taken_of_stage (by omega)] at hshares
    omega

/-- The share taken for the timer keeps the session until the closure is done. -/
theorem AsyncInv.timer_done (hi : AsyncInv s) (hplace : s.place = .mapped)
    (hc : s.Counted 0 true) : s.timer = .done := by
  have hshares := hi.shares_eq hc
  have hstage := hi.place (by rw [hplace]; decide)
  rw [SenderPc.taken_of_stage (by omega)] at hshares
  have hrel : s.timer.released ≠ 0 := by omega
  cases ht : s.timer with
  | done => rfl
  | _ => rw [ht] at hrel; exact absurd rfl hrel

theorem AsyncInv.senderStep (hi : AsyncInv s) {k : ℕ} (hk : s.sender.calls → k ≠ 0)
    (h : SofaBolt.senderStep k s = some s') :
    s'.sender.OnSuccess s'.info.timerTaskId ∧ (2 ≤ s'.sender.stage → s'.place ≠ .created) ∧
      (3 ≤ s'.sender.stage → s'.timer ≠ .none) := by
  have hon := hi.onSuccess
  have hplaced := hi.placed
  have htimed := hi.timed
  unfold SofaBolt.senderStep at h
  cases hs : s.sender with
  | tryShared =>
    rw [hs] at h
    obtain rfl := Option.some.inj h
    exact ⟨trivial, fun h => by simp [SenderPc.stage] at h, fun h => by simp [SenderPc.stage] at h⟩
  | prepareRead =>
    have hk := hk (by rw [hs]; rfl)
    simp only [hs, if_neg hk] at h
    obtain rfl := Option.some.inj h
    exact ⟨trivial, fun _ => by simp, fun h => by simp [SenderPc.stage] at h⟩
  | addTimeschdule =>
    have hk := hk (by rw [hs]; rfl)
    simp only [hs, if_neg hk] at h
    rw [hs] at hplaced
    obtain rfl := Option.some.inj h
    exact ⟨hk, fun _ => hplaced le_rfl, fun _ => by simp⟩
  | storeTaskId id =>
    rw [hs] at h hon hplaced htimed
    obtain rfl := Option.some.inj h
    exact ⟨hon, hplaced, htimed⟩
  | testTaskId =>
    rw [hs] at hon hplaced htimed
    simp only [hs, if_neg hon] at h
    obtain rfl := Option.some.inj h
    exact ⟨trivial, hplaced, htimed⟩
  | write =>
    have hk := hk (by rw [hs]; rfl)
    rw [hs] at hplaced htimed
    simp only [hs, if_neg hk] at h
    obtain rfl := Option.some.inj h
    exact ⟨trivial, hplaced, htimed⟩
  | testCallback =>
    rw [hs] at hplaced htimed
    simp only [hs, hi.callback, if_true] at h
    obtain rfl := Option.some.inj h
    exact ⟨⟨rfl, rfl⟩, hplaced, htimed⟩
  | done e r => simp [hs] at h
  | _ => rw [hs] at hon; exact hon.elim

theorem AsyncInv.step (hi : AsyncInv s) {a : SessionAct} (hcond : a.Smooth s)
    (h : sessionStep s a = some s') : AsyncInv s' := by
  have hsweep : a = .sweep → s.place = .mapped → s.Counted 0 true →
      (∃ e r, s.sender = .done e r) ∧ s.timer = .done := by
    rintro rfl hplace hc
    refine ⟨?_, hi.timer_done hplace hc⟩
    have hdone : s.sender.isDone := by
      apply hcond
      rw [hc.owners]
      rfl
    cases hs : s.sender with
    | done e r => exact ⟨e, r, rfl⟩
    | _ => rw [hs] at hdone; cases hdone
  have hbase := hi.toBase.step (fun _ _ hc => hi.covered hc) hsweep h
  have hcallback := (sessionStep_callback h).trans hi.callback
  cases a with
  | sender k =>
    obtain ⟨h₁, h₂, h₃⟩ := hi.senderStep hcond h
    exact ⟨hbase, hcallback, h₁, h₂, h₃⟩
  | _ =>
    have hf := sessionStep_frame (by simp) h
    refine ⟨hbase, hcallback, ?_, ?_, ?_⟩
    · rw [hf.sender, hf.timerTaskId]
      exact hi.onSuccess
    · rw [hf.sender]
      exact fun hst hne => hi.placed hst (hf.place.mp hne)
    · rw [hf.sender]
      exact fun hst hne => hi.timed hst (hf.timer.mp hne)

/-- Once the sender and the closure are done, the callback has been called. -/
theorem AsyncInv.invoked_eq_one (hi : AsyncInv s) (hsender : s.sender.isDone)
    (htimer : s.timer = .none ∨ s.timer = .done) (hloop : s.loop = .idle) :
    s.info.invoked.length = 1 := by
  have hstage : s.sender.stage = 3 := by
    cases hs : s.sender with
    | done e r => rfl
    | _ => rw [hs] at hsender; cases hsender
  have hresults : s.info.results = [] := hi.told.1 hi.callback
  have hdone : s.timer = .done := htimer.resolve_left (hi.timed hstage.ge)
  by_cases ha : s.info.alive = true
  · obtain ⟨n, u, hc⟩ := hi.counted ha
    have htells := hc.tells
    have hu : u = true := hc.timerLate (by rw [hdone]; trivial)
    rw [hu, hresults, hdone, hloop] at htells
    simpa [TimerPc.won, LoopPc.won] using htells.symm
  · rcases (hi.dead (by simpa using ha)).place with hp | ⟨-, hp⟩
    · exact absurd hp (hi.placed (by omega))
    · simpa [hresults] using hp

end SessionState

namespace AsyncCall

variable {c c' : AsyncCall}

def Smooth (c : AsyncCall) : CallAct → Prop
  | .session j act => ∀ s ∈ c.sessions[j]?, act.Smooth s
  | _ => True

instance (c : AsyncCall) : DecidablePred (Smooth c)
  | .session j act => inferInstanceAs (Decidable (∀ s ∈ c.sessions[j]?, act.Smooth s))
  | .start _ => isTrue trivial
  | .endAttempt => isTrue trivial
  | .finish => isTrue trivial

/-- Either no attempt has got as far as a session, and the caller still has the
callback; or one has, and it is the last. -/
inductive Inv (c : AsyncCall) : Prop where
  | unsent (sessions : c.sessions = []) (callback : c.callback = true)
      (emptyCalls : c.emptyCalls = 0)
      (pc : c.pc = .attempt ∧ c.invoked = [] ∨
        c.pc = .attempted ∧ c.invoked = [] ∧ c.errorCode ≠ .sessionOk ∨
        c.pc = .returned ∧ c.invoked.length = 1)
  | sent (s : SessionState) (sessions : c.sessions = [s]) (inv : s.AsyncInv)
      (emptyCalls : c.emptyCalls = 0) (invoked : c.invoked = [])
      (pc : c.pc = .sending ∨ (c.pc = .attempted ∨ c.pc = .returned) ∧
        c.errorCode = .sessionOk ∧ s.sender.isDone)

theorem inv_init (retry : ℤ) : Inv (init retry) :=
  .unsent rfl rfl rfl (Or.inl ⟨rfl, rfl⟩)

/-- An attempt that fails before it has a session leaves the callback where it is. -/
theorem Inv.of_failed (hs : c.sessions = []) (hcb : c.callback = true) (he : c.emptyCalls = 0)
    (hinv : c.invoked = []) {error : ESessionError} (herror : error ≠ .sessionOk) :
    Inv (c.endAttempt error) := by
  refine .unsent hs hcb he ?_
  unfold endAttempt
  by_cases hp : error = .sessionOk ∨ error = .readTimeout ∨ c.retry ≤ c.attempts + 1
  · exact Or.inr (Or.inl ⟨if_pos hp, hinv, herror⟩)
  · exact Or.inl ⟨if_neg hp, hinv⟩

theorem Inv.startAttempt (hi : Inv c) (hpc : c.pc = .attempt) (outcome : AttemptStart) :
    Inv (c.startAttempt outcome) := by
  cases hi with
  | sent s hs hinv he hcalls hp => simp [hpc] at hp
  | unsent hs hcb he hp =>
    have hinv : c.invoked = [] := by simpa [hpc] using hp
    cases outcome with
    | protocolNotFound => exact .of_failed hs hcb he hinv (by decide)
    | socketLost => exact .of_failed hs hcb he hinv (by decide)
    | assembleRequestFail => exact .of_failed hs hcb he hinv (by decide)
    | assembled =>
      refine .sent (SessionState.init true) ?_ SessionState.asyncInv_init he hinv (Or.inl rfl)
      simp [AsyncCall.startAttempt, hs, hcb]

theorem Inv.session (hi : Inv c) {j : ℕ} {act : SessionAct} (hcond : c.Smooth (.session j act))
    (h : callStep c (.session j act) = some c') : Inv c' := by
  simp only [callStep] at h
  split_ifs at h with hmay
  obtain ⟨s, hj, h⟩ := Option.bind_eq_some_iff.mp h
  obtain ⟨s', hstep, rfl⟩ := Option.map_eq_some_iff.mp h
  cases hi with
  | unsent hs hcb he hp => simp [hs] at hj
  | sent s₀ hs hinv he hcalls hp =>
    obtain ⟨rfl, rfl⟩ : j = 0 ∧ s₀ = s := by
      rw [hs, List.getElem?_singleton] at hj
      simpa using hj
    refine .sent s' (by simp [hs]) (hinv.step (hcond s₀ hj) hstep) he hcalls ?_
    rcases hp with hp | ⟨hp, herror, hdone⟩
    · exact Or.inl hp
    · refine Or.inr ⟨hp, herror, ?_⟩
      cases act with
      | sender n =>
        rcases hp with hp | hp <;> simp [mayStep, hp] at hmay
      | _ =>
        rw [(sessionStep_frame (by simp) hstep).sender]
        exact hdone

theorem Inv.endAttempt (hi : Inv c) (h : callStep c .endAttempt = some c') : Inv c' := by
  simp only [callStep] at h
  split at h
  case h_2 => cases h
  case h_1 s hpc hlast =>
    cases hi with
    | unsent hs hcb he hp => simp [hs] at hlast
    | sent s₀ hs hinv he hcalls hp =>
      obtain rfl : s₀ = s := by simpa [hs] using hlast
      have hon := hinv.onSuccess
      cases hsender : s₀.sender with
      | done e r =>
        rw [hsender] at h hon
        obtain ⟨rfl, rfl⟩ := hon
        obtain rfl := Option.some.inj h
        refine .sent s₀ hs hinv he hcalls (Or.inr ⟨Or.inl rfl, rfl, ?_⟩)
        rw [hsender]
        rfl
      | _ => simp [hsender] at h

theorem Inv.finish (hi : Inv c) (hpc : c.pc = .attempted) : Inv c.finish := by
  cases hi with
  | unsent hs hcb he hp =>
    obtain ⟨hinv, herror⟩ : c.invoked = [] ∧ c.errorCode ≠ .sessionOk := by
      simpa [hpc] using hp
    unfold AsyncCall.finish
    rw [if_neg herror, if_pos hcb]
    exact .unsent hs hcb he (Or.inr (Or.inr ⟨rfl, by simp [hinv]⟩))
  | sent s hs hinv he hcalls hp =>
    obtain ⟨herror, hdone⟩ : c.errorCode = .sessionOk ∧ s.sender.isDone := by
      simpa [hpc] using hp
    unfold AsyncCall.finish
    rw [if_pos herror]
    exact .sent s hs hinv he hcalls (Or.inr ⟨Or.inr rfl, herror, hdone⟩)

theorem Inv.step (hi : Inv c) {a : CallAct} (hcond : c.Smooth a) (h : callStep c a = some c') :
    Inv c' := by
  cases a with
  | start outcome =>
    simp only [callStep] at h
    split_ifs at h with hpc
    exact Option.some.inj h ▸ hi.startAttempt hpc outcome
  | session j act => exact hi.session hcond h
  | endAttempt => exact hi.endAttempt h
  | finish =>
    simp only [callStep] at h
    split_ifs at h with hpc
    exact Option.some.inj h ▸ hi.finish hpc

theorem Inv.invocations_le (hi : Inv c) : c.invocations ≤ 1 := by
  unfold invocations
  cases hi with
  | unsent hs hcb he hp =>
    rw [hs]
    rcases hp with ⟨-, hp⟩ | ⟨-, hp, -⟩ | ⟨-, hp⟩ <;> simp [hp]
  | sent s hs hinv he hcalls hp =>
    have htold := hinv.told_le
    rw [hs, hcalls]
    simp only [List.length_nil, List.map_cons, List.map_nil, List.sum_cons, List.sum_nil]
    omega

theorem Inv.invocations_eq (hi : Inv c) (hf : c.Finished) : c.invocations = 1 := by
  obtain ⟨hpc, hquiet⟩ := hf
  unfold invocations
  cases hi with
  | unsent hs hcb he hp =>
    have hinv : c.invoked.length = 1 := by simpa [hpc] using hp
    simp [hs, hinv]
  | sent s hs hinv he hcalls hp =>
    have hdone : s.sender.isDone := by
      rw [hpc] at hp
      simpa using (hp.resolve_left (by simp)).2.2
    obtain ⟨htimer, hloop⟩ := hquiet s (by simp [hs])
    simp [hs, hcalls, hinv.invoked_eq_one hdone htimer hloop]

theorem Inv.emptyCalls_eq (hi : Inv c) : c.emptyCalls = 0 := by
  cases hi with
  | unsent hs hcb he hp => exact he
  | sent s hs hinv he hcalls hp => exact he

/-- If no attempt fails after it has taken over the callback, and no session is deleted under its
sender, the callback is called at most once, and exactly once when nothing is left to run. -/
theorem async_completes_once (retry : ℤ) (as : List CallAct) (c : AsyncCall)
    (hm : Meets callStep Smooth (init retry) as) (h : run callStep (init retry) as = some c) :
    c.invocations ≤ 1 ∧ c.emptyCalls = 0 ∧ (c.Finished → c.invocations = 1) := by
  have hi : Inv c := run_induction (fun _ _ _ hi hc h => hi.step hc h) (inv_init retry) hm h
  exact ⟨hi.invocations_le, hi.emptyCalls_eq, hi.invocations_eq⟩

/-- The socket is lost in the first attempt.  In the second one the reply comes
before the sender has left `sendInternal` and while the closure starts. -/
def secondAttemptRun : List CallAct :=
  [.start .socketLost, .start .assembled, .session 0 (.sender 0), .session 0 (.sender 1),
    .session 0 (.sender 7), .session 0 .drain, .session 0 (.sender 0), .session 0 (.sender 0),
    .session 0 (.sender 1), .session 0 .reply, .session 0 (.loop true), .session 0 (.timer true),
    .session 0 (.timer true), .session 0 (.loop true), .session 0 (.loop true),
    .session 0 (.timer true), .session 0 (.loop true), .session 0 (.loop true),
    .session 0 (.loop true), .session 0 (.sender 0), .endAttempt, .finish,
    .session 0 (.timer true), .session 0 (.timer true), .session 0 (.timer true),
    .session 0 .sweep]

theorem async_completes_once_second_attempt :
    ∃ c, run callStep (init 3) secondAttemptRun = some c ∧ c.Finished ∧ c.invocations = 1 ∧
      c.emptyCalls = 0 := by
  have hrun : run callStep (init 3) secondAttemptRun = some
      { retry := 3, attempts := 2, callback := false, errorCode := .sessionOk, pc := .returned
        sessions := [{
          info := ⟨1, true, 7, [], [.sessionOk], false, false⟩, place := .erased
          sender := .done .sessionOk false, timer := .done, loop := .idle }]
        invoked := [], emptyCalls := 0 } := by decide +kernel
  have hm : Meets callStep Smooth (init 3) secondAttemptRun := by decide +kernel
  obtain ⟨-, hempty, honce⟩ := async_completes_once 3 secondAttemptRun _ hm hrun
  exact ⟨_, hrun, ⟨rfl, by simp⟩, honce ⟨rfl, by simp⟩, hempty⟩

/-- With one attempt and a full session queue the callback is deleted with the
session, and `async` calls an empty function. -/
theorem async_queue_full_calls_empty :
    ∃ c, run callStep (init 1) [.start .assembled, .session 0 (.sender 0),
        .session 0 (.sender 0), .endAttempt, .finish] = some c ∧
      c.Finished ∧ c.invocations = 0 ∧ c.emptyCalls = 1 := by
  have hrun : run callStep (init 1) [.start .assembled, .session 0 (.sender 0),
      .session 0 (.sender 0), .endAttempt, .finish] = some
      { retry := 1, attempts := 1, callback := false, errorCode := .socketBusy, pc := .returned
        sessions := [{
          info := ⟨4, true, 0, [], [], false, false⟩, place := .created
          sender := .done .socketBusy false, timer := .none, loop := .idle }]
        invoked := [], emptyCalls := 1 } := by decide +kernel
  exact ⟨_, hrun, ⟨rfl, by simp⟩, rfl, rfl⟩

end AsyncCall

end SofaBolt
