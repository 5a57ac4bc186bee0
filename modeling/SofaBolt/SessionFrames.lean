import SofaBolt.Block
import SofaBolt.Run
import SofaBolt.SessionShares

namespace SofaBolt

open LifeCycleLock Run

/-- `received` has every frame with the id of the session that has been read, also those that
were dropped, and `parsed` the content of `read_buf` at every call of `parse_response_fn`. -/
structure FramedSession where
  session : SessionState
  readBuf : Bytes
  received : List Bytes
  parsed : List Bytes
deriving DecidableEq, Repr

inductive FrameAct where
  | session (act : SessionAct)
  | frame (f : Bytes)
deriving DecidableEq, Repr

def SenderPc.mayParse : SenderPc → Bool
  | .releaseTimerBusy | .removeTimeschdule | .releaseWriteFail | .releaseSync _ | .done _ _ => false
  | _ => true

def NotifyPc.telling : NotifyPc → Bool
  | .testCallback | .postProcess | .setValue => true
  | _ => false

namespace SessionState

/-- The step calls the parser: `postProcess` of the sender, or that of a `notify` in the loop
thread. -/
def parses (s : SessionState) : SessionAct → Bool
  | .sender _ => s.sender = .postProcess .sessionOk
  | .loop _ => s.loop = .notify .postProcess
  | _ => false

def parseDue (s : SessionState) : Bool :=
  s.info.results.head? = some .sessionOk ∧ s.sender.mayParse

end SessionState

namespace FramedSession

def init (callback : Bool) : FramedSession := ⟨.init callback, [], [], []⟩

def parsedAfter (s : FramedSession) (act : SessionAct) : List Bytes :=
  if s.session.parses act then s.parsed ++ [s.readBuf] else s.parsed

def step (s : FramedSession) : FrameAct → Option FramedSession
  | .session act =>
    if act = .reply then none
    else (sessionStep s.session act).map fun session =>
      { s with session, parsed := s.parsedAfter act }
  | .frame f =>
    if s.session.loop = .idle then
      if s.session.place = .mapped then
        (sessionStep s.session .reply).map fun session =>
          { s with session, readBuf := s.readBuf ++ f, received := s.received ++ [f] }
      else some { s with received := s.received ++ [f] }
    else none

/-- A frame comes when its session is in the map or has been erased from it, and no second one
while the first is still to be parsed. -/
def Once (s : FramedSession) : FrameAct → Prop
  | .frame _ => s.session.place = .erased ∨
      s.session.place = .mapped ∧ (s.received ≠ [] → s.session.parseDue = false)
  | _ => True

instance (s : FramedSession) : DecidablePred (Once s)
  | .frame _ => inferInstanceAs (Decidable (_ ∨ _))
  | .session _ => isTrue trivial

end FramedSession

structure SessionState.SenderFrame (s s' : SessionState) : Prop where
  held : held s'.info.owners = held s.info.owners
  results : s'.info.results = s.info.results
  loop : s'.loop = s.loop
  won : s'.timer.won ≤ s.timer.won
  erased : s'.place = .erased → s.place = .erased
  mayParse : s'.sender.mayParse = true → s.sender.mayParse = true
  postProcess : ∀ e, s'.sender = .postProcess e →
    s.sender = .waitResult ∧ s.info.results.head? = some e

theorem senderStep_frame {s s' : SessionState} {n : ℕ} (h : senderStep n s = some s') :
    s.SenderFrame s' := by
  unfold senderStep at h
  cases hs : s.sender with
  | tryShared =>
    rw [hs] at h
    obtain rfl := Option.some.inj h
    exact ⟨held_addShared _, rfl, rfl, le_rfl, id, fun _ => by rw [hs]; rfl, (by rintro e ⟨⟩)⟩
  | prepareRead =>
    simp only [hs] at h
    split_ifs at h with hn
    · obtain rfl := Option.some.inj h
      exact ⟨rfl, rfl, rfl, le_rfl, id, (by cases ·), (by rintro e ⟨⟩)⟩
    · obtain rfl := Option.some.inj h
      exact ⟨rfl, rfl, rfl, le_rfl, (by cases ·), fun _ => by rw [hs]; rfl, (by rintro e ⟨⟩)⟩
  | addTimeschdule =>
    rw [hs] at h
    obtain rfl := Option.some.inj h
    refine ⟨rfl, rfl, rfl, ?_, id, fun _ => by rw [hs]; rfl, (by rintro e ⟨⟩)⟩
    simp only
    split_ifs
    · exact le_rfl
    · exact Nat.zero_le _
  | storeTaskId id' =>
    rw [hs] at h
    obtain rfl := Option.some.inj h
    exact ⟨rfl, rfl, rfl, le_rfl, id, fun _ => by rw [hs]; rfl, (by rintro e ⟨⟩)⟩
  | testTaskId =>
    rw [hs] at h
    obtain rfl := Option.some.inj h
    refine ⟨rfl, rfl, rfl, le_rfl, id, fun _ => by rw [hs]; rfl, fun e he => ?_⟩
    simp only at he
    split_ifs at he
  | releaseTimerBusy =>
    rw [hs] at h
    obtain rfl := Option.some.inj h
    exact ⟨held_releaseShared _, rfl, rfl, le_rfl, id, (by cases ·), (by rintro e ⟨⟩)⟩
  | write =>
    rw [hs] at h
    obtain rfl := Option.some.inj h
    refine ⟨rfl, rfl, rfl, le_rfl, id, fun _ => by rw [hs]; rfl, fun e he => ?_⟩
    simp only at he
    split_ifs at he
  | removeTimeschdule =>
    rw [hs] at h
    obtain rfl := Option.some.inj h
    exact ⟨rfl, rfl, rfl, le_rfl, id, (by cases ·), (by rintro e ⟨⟩)⟩
  | releaseWriteFail =>
    rw [hs] at h
    obtain rfl := Option.some.inj h
    exact ⟨held_releaseShared _, rfl, rfl, le_rfl, id, (by cases ·), (by rintro e ⟨⟩)⟩
  | testCallback =>
    rw [hs] at h
    obtain rfl := Option.some.inj h
    refine ⟨rfl, rfl, rfl, le_rfl, id, fun _ => by rw [hs]; rfl, fun e he => ?_⟩
    simp only at he
    split_ifs at he
  | waitResult =>
    simp only [hs] at h
    cases hr : s.info.results with
    | nil => simp [hr] at h
    | cons error rest =>
      rw [hr] at h
      obtain rfl := Option.some.inj h
      refine ⟨rfl, rfl, rfl, le_rfl, id, fun _ => by rw [hs]; rfl, fun e he => ⟨hs, ?_⟩⟩
      rw [hr, SenderPc.postProcess.inj he]
      rfl
  | postProcess error =>
    rw [hs] at h
    obtain rfl := Option.some.inj h
    exact ⟨rfl, rfl, rfl, le_rfl, id, (by cases ·), (by rintro e ⟨⟩)⟩
  | releaseSync error =>
    rw [hs] at h
    obtain rfl := Option.some.inj h
    exact ⟨held_releaseShared _, rfl, rfl, le_rfl, id, (by cases ·), (by rintro e ⟨⟩)⟩
  | done error released => simp [hs] at h

theorem held_notifyStep (error : ESessionError) (parsed : Bool) (i : SessionInfo)
    (pc : NotifyPc) : held (notifyStep error parsed i pc).1.owners =
      (held i.owners || decide (pc = .upgrade)) := by
  cases pc <;> simp [notifyStep, SessionInfo.touch, held_addShared, held_releaseShared,
    held_orUpgraded]

/-- A `notify` that has not won sets no promise; it wins by being the first to upgrade. -/
theorem notifyStep_of_not_won (error : ESessionError) (parsed : Bool) (i : SessionInfo)
    {pc : NotifyPc} (hw : pc.won = 0) :
    (notifyStep error parsed i pc).1.results = i.results ∧
      (held (notifyStep error parsed i pc).1.owners = held i.owners ∧
          (notifyStep error parsed i pc).2.won = 0 ∨
        held i.owners = false ∧ held (notifyStep error parsed i pc).1.owners = true) := by
  have hheld := held_notifyStep error parsed i pc
  cases pc with
  | tryShared =>
    refine ⟨rfl, .inl ⟨by simpa using hheld, ?_⟩⟩
    cases hh : held i.owners <;> simp [notifyStep, hh, NotifyOut.won, NotifyPc.won]
  | upgrade =>
    refine ⟨rfl, ?_⟩
    rw [hheld]
    cases hh : held i.owners with
    | false => exact .inr ⟨rfl, rfl⟩
    | true => exact .inl ⟨rfl, by simp [notifyStep, hh, NotifyOut.won, NotifyPc.won]⟩
  | backOut => exact ⟨rfl, .inl ⟨by simpa using hheld, rfl⟩⟩
  | release r => exact ⟨rfl, .inl ⟨by simpa using hheld, rfl⟩⟩
  | _ => cases hw

structure SessionState.TimerFrame (s s' : SessionState) : Prop where
  sender : s'.sender = s.sender
  loop : s'.loop = s.loop
  place : s'.place = s.place
  held : held s.info.owners = true → LifeCycleLock.held s'.info.owners = true
  results : ∀ e ∈ s'.info.results, e ∈ s.info.results ∨ e = .readTimeout
  unwon : s.timer.won = 0 → s'.info.results = s.info.results ∧
    (LifeCycleLock.held s'.info.owners = LifeCycleLock.held s.info.owners ∧ s'.timer.won = 0 ∨
      LifeCycleLock.held s.info.owners = false ∧ LifeCycleLock.held s'.info.owners = true)

theorem timerStep_frame {s s' : SessionState} {parsed : Bool} (h : timerStep parsed s = some s') :
    s.TimerFrame s' := by
  rcases timerStep_cases h with ⟨-, rfl⟩ | ⟨pc, ht, rfl⟩ | ⟨-, rfl⟩ | ⟨-, rfl⟩
  · exact ⟨rfl, rfl, rfl, id, fun _ => .inl, fun _ => ⟨rfl, .inl ⟨rfl, rfl⟩⟩⟩
  · refine ⟨rfl, rfl, rfl, fun hh => ?_,
      fun e he => notifyStep_results .readTimeout parsed s.info pc he, fun hw => ?_⟩
    · rw [held_notifyStep, hh]
      rfl
    · rw [ht] at hw
      rw [(NotifyOut.timerPc_counts _).2.1]
      exact notifyStep_of_not_won .readTimeout parsed s.info hw
  · exact ⟨rfl, rfl, rfl, id, fun _ => .inl, fun _ => ⟨rfl, .inl ⟨rfl, rfl⟩⟩⟩
  · refine ⟨rfl, rfl, rfl, fun hh => ?_, fun _ => .inl, fun _ => ⟨rfl, .inl ⟨?_, rfl⟩⟩⟩
    · exact (held_releaseShared _).trans hh
    · exact held_releaseShared _

namespace FramedSession

variable {s s' : FramedSession}

structure Open (s : FramedSession) : Prop where
  held : held s.session.info.owners = false
  place : s.session.place ≠ .erased
  results : s.session.info.results = []
  sender : ∀ e, s.session.sender ≠ .postProcess e
  timer : s.session.timer.won = 0
  frames : s.session.loop = .idle ∧ s.received = [] ∧ s.readBuf = [] ∨
    (s.session.loop = .notify .tryShared ∨ s.session.loop = .notify .upgrade) ∧
      s.received = [s.readBuf]
  parsed : s.parsed = []

structure Telling (s : FramedSession) : Prop where
  held : held s.session.info.owners = true
  results : s.session.info.results = []
  sender : ∀ e, s.session.sender ≠ .postProcess e
  timer : s.session.timer.won = 0
  loop : ∃ pc, s.session.loop = .notify pc ∧ pc.telling = true
  received : s.received.head? = some s.readBuf
  parsed : s.parsed = []

structure Told (s : FramedSession) : Prop where
  held : held s.session.info.owners = true
  results : s.session.info.results = [.sessionOk]
  sender : s.session.sender.mayParse = true
  postProcess : ∀ e, s.session.sender = .postProcess e → e = .sessionOk
  timer : s.session.timer.won = 0
  loop : s.session.loop = .idle
  received : s.received.head? = some s.readBuf
  parsed : s.parsed = []

structure Settled (s : FramedSession) : Prop where
  held : held s.session.info.owners = true
  results : .sessionOk ∈ s.session.info.results → s.session.sender.mayParse = false
  sender : s.session.sender ≠ .postProcess .sessionOk
  loop : ∀ pc, s.session.loop = .notify pc → pc.telling = false
  parsed : ∀ c ∈ s.parsed, s.received.head? = some c
  once : s.parsed.length ≤ 1

inductive Inv (s : FramedSession) : Prop where
  | unheld (h : Open s)
  | telling (h : Telling s)
  | told (h : Told s)
  | settled (h : Settled s)

theorem Telling.not_idle (ht : Telling s) : s.session.loop ≠ .idle := by
  obtain ⟨pc, hl, -⟩ := ht.loop
  rw [hl]
  rintro ⟨⟩

theorem Told.not_notify (ht : Told s) (pc : NotifyPc) : s.session.loop ≠ .notify pc := by
  rw [ht.loop]
  rintro ⟨⟩

theorem Open.not_telling (ho : Open s) {pc : NotifyPc} (hpc : s.session.loop = .notify pc) :
    pc.telling = false := by
  rcases ho.frames with ⟨hl, -⟩ | ⟨hl | hl, -⟩
  · cases hl.symm.trans hpc
  · obtain rfl := LoopPc.notify.inj (hl.symm.trans hpc)
    rfl
  · obtain rfl := LoopPc.notify.inj (hl.symm.trans hpc)
    rfl

theorem inv_init (callback : Bool) : Inv (init callback) :=
  .unheld ⟨rfl, by rintro ⟨⟩, rfl, fun _ => by rintro ⟨⟩, rfl, .inl ⟨rfl, rfl, rfl⟩, rfl⟩

theorem Open.sender_step (ho : Open s) {session : SessionState}
    (hf : s.session.SenderFrame session) : Open { s with session } where
  held := hf.held.trans ho.held
  place h := ho.place (hf.erased h)
  results := hf.results.trans ho.results
  sender e he := by
    have hhead := (hf.postProcess e he).2
    rw [ho.results] at hhead
    cases hhead
  timer := Nat.le_zero.mp (ho.timer ▸ hf.won)
  frames := by
    rw [show ({ s with session } : FramedSession).session.loop = s.session.loop from hf.loop]
    exact ho.frames
  parsed := ho.parsed

theorem Telling.sender_step (ht : Telling s) {session : SessionState}
    (hf : s.session.SenderFrame session) : Telling { s with session } where
  held := hf.held.trans ht.held
  results := hf.results.trans ht.results
  sender e he := by
    have hhead := (hf.postProcess e he).2
    rw [ht.results] at hhead
    cases hhead
  timer := Nat.le_zero.mp (ht.timer ▸ hf.won)
  loop := by
    obtain ⟨pc, hpc, htell⟩ := ht.loop
    exact ⟨pc, hf.loop.trans hpc, htell⟩
  received := ht.received
  parsed := ht.parsed

theorem Settled.sender_step (hs : Settled s) {session : SessionState}
    (hf : s.session.SenderFrame session) : Settled { s with session } where
  held := hf.held.trans hs.held
  results hmem := by
    have hno := hs.results (hf.results ▸ hmem)
    by_contra hmay
    have hyes := hf.mayParse (by simpa using hmay)
    rw [hno] at hyes
    cases hyes
  sender he := by
    -- a sender that waits may parse, so the promise was not set to success
    obtain ⟨hwait, hhead⟩ := hf.postProcess _ he
    have hno := hs.results (List.mem_of_head? hhead)
    rw [hwait] at hno
    cases hno
  loop pc hpc := hs.loop pc (hf.loop ▸ hpc)
  parsed := hs.parsed
  once := hs.once

theorem Told.sender_step (ht : Told s) {n : ℕ} {session : SessionState}
    (h : senderStep n s.session = some session) :
    Inv { s with session, parsed := s.parsedAfter (.sender n) } := by
  have hf := senderStep_frame h
  by_cases hp : s.session.sender = .postProcess .sessionOk
  · -- the content is the first frame
    refine .settled ⟨hf.held.trans ht.held, fun _ => ?_, fun he => ?_, fun pc hpc => ?_, ?_, ?_⟩
    · unfold senderStep at h
      rw [hp] at h
      obtain rfl := Option.some.inj h
      rfl
    · have hwait := (hf.postProcess _ he).1
      rw [hp] at hwait
      cases hwait
    · exact absurd (hf.loop.symm.trans hpc) (ht.not_notify pc)
    · simp [parsedAfter, SessionState.parses, hp, ht.parsed, ht.received]
    · simp [parsedAfter, SessionState.parses, hp, ht.parsed]
  · simp only [parsedAfter, SessionState.parses, hp, decide_false, Bool.false_eq_true, if_false]
    by_cases hmay : session.sender.mayParse = true
    · refine .told ⟨hf.held.trans ht.held, hf.results.trans ht.results, hmay, fun e he => ?_,
        Nat.le_zero.mp (ht.timer ▸ hf.won), hf.loop.trans ht.loop, ht.received, ht.parsed⟩
      have hhead := (hf.postProcess e he).2
      rw [ht.results] at hhead
      exact (Option.some.inj hhead).symm
    · refine .settled ⟨hf.held.trans ht.held, fun _ => by simpa using hmay, fun he => ?_,
        fun pc hpc => ?_, by simp [ht.parsed], by simp [ht.parsed]⟩
      · exact hmay (by rw [show session.sender = _ from he]; rfl)
      · exact absurd (hf.loop.symm.trans hpc) (ht.not_notify pc)

theorem Inv.sender_step (hi : Inv s) {n : ℕ} {session : SessionState}
    (h : senderStep n s.session = some session) :
    Inv { s with session, parsed := s.parsedAfter (.sender n) } := by
  have hf := senderStep_frame h
  have hkeep (hp : s.session.sender ≠ .postProcess .sessionOk) :
      s.parsedAfter (.sender n) = s.parsed := by
    simp [parsedAfter, SessionState.parses, hp]
  cases hi with
  | unheld ho => rw [hkeep (ho.sender _)]; exact .unheld (ho.sender_step hf)
  | telling ht => rw [hkeep (ht.sender _)]; exact .telling (ht.sender_step hf)
  | told ht => exact ht.sender_step h
  | settled hs => rw [hkeep hs.sender]; exact .settled (hs.sender_step hf)

theorem Inv.timer_step (hi : Inv s) {parsed : Bool} {session : SessionState}
    (h : timerStep parsed s.session = some session) : Inv { s with session } := by
  have hf := timerStep_frame h
  cases hi with
  | unheld ho =>
    obtain ⟨hres, ⟨hheld, hwon⟩ | ⟨-, hheld⟩⟩ := hf.unwon ho.timer
    · refine .unheld ⟨hheld.trans ho.held, by rw [hf.place]; exact ho.place, hres.trans ho.results,
        by rw [hf.sender]; exact ho.sender, hwon, ?_, ho.parsed⟩
      rw [show ({ s with session } : FramedSession).session.loop = s.session.loop from hf.loop]
      exact ho.frames
    · -- the timer is the first to upgrade
      refine .settled ⟨hheld, fun hmem => ?_, ?_, fun pc hpc => ?_, by simp [ho.parsed],
        by simp [ho.parsed]⟩
      · rw [hres, ho.results] at hmem
        cases hmem
      · rw [hf.sender]
        exact ho.sender _
      · exact ho.not_telling (hf.loop.symm.trans hpc)
  | telling ht =>
    obtain ⟨hres, ⟨-, hwon⟩ | ⟨hfree, -⟩⟩ := hf.unwon ht.timer
    · refine .telling ⟨hf.held ht.held, hres.trans ht.results, by rw [hf.sender]; exact ht.sender,
        hwon, by rw [hf.loop]; exact ht.loop, ht.received, ht.parsed⟩
    · rw [ht.held] at hfree
      cases hfree
  | told ht =>
    obtain ⟨hres, ⟨-, hwon⟩ | ⟨hfree, -⟩⟩ := hf.unwon ht.timer
    · refine .told ⟨hf.held ht.held, hres.trans ht.results, by rw [hf.sender]; exact ht.sender,
        by rw [hf.sender]; exact ht.postProcess, hwon, hf.loop.trans ht.loop, ht.received,
        ht.parsed⟩
    · rw [ht.held] at hfree
      cases hfree
  | settled hs =>
    refine .settled ⟨hf.held hs.held, fun hmem => ?_, by rw [hf.sender]; exact hs.sender,
      by rw [hf.loop]; exact hs.loop, hs.parsed, hs.once⟩
    rw [hf.sender]
    exact hs.results ((hf.results _ hmem).resolve_right (by decide))

theorem notifyStep_late (error : ESessionError) (parsed : Bool) {i : SessionInfo} {pc : NotifyPc}
    (hh : held i.owners = true) (hpc : pc.telling = false) :
    (notifyStep error parsed i pc).1.results = i.results ∧
      ∀ pc', (notifyStep error parsed i pc).2.loopPc = .notify pc' → pc'.telling = false := by
  cases pc with
  | testCallback => cases hpc
  | postProcess => cases hpc
  | setValue => cases hpc
  | tryShared =>
    refine ⟨rfl, fun pc' h' => ?_⟩
    simp only [notifyStep, hh, if_true, NotifyOut.loopPc] at h'
    obtain rfl := LoopPc.notify.inj h'
    rfl
  | upgrade =>
    refine ⟨rfl, fun pc' h' => ?_⟩
    simp only [notifyStep, hh, if_true, NotifyOut.loopPc] at h'
    obtain rfl := LoopPc.notify.inj h'
    rfl
  | invoke e =>
    refine ⟨rfl, fun pc' h' => ?_⟩
    obtain rfl := LoopPc.notify.inj h'
    rfl
  | backOut => exact ⟨rfl, fun pc' h' => by cases h'⟩
  | release r => exact ⟨rfl, fun pc' h' => by cases h'⟩

theorem Open.loop_step (ho : Open s) {parsed : Bool} {session : SessionState}
    (h : loopStep parsed s.session = some session) : Inv { s with session } := by
  obtain ⟨pc, hl, rfl⟩ := loopStep_cases h
  have hheld := held_notifyStep .sessionOk parsed s.session.info pc
  rcases ho.frames with ⟨hidle, -⟩ | ⟨hpc, hrec⟩
  · rw [hl] at hidle
    cases hidle
  · rcases hpc with hpc | hpc
    · rw [hl] at hpc
      obtain rfl := LoopPc.notify.inj hpc
      refine .unheld ⟨by rw [hheld, ho.held]; rfl, ho.place, ho.results, ho.sender, ho.timer,
        .inr ⟨.inr ?_, hrec⟩, ho.parsed⟩
      simp [notifyStep, ho.held, NotifyOut.loopPc]
    · rw [hl] at hpc
      obtain rfl := LoopPc.notify.inj hpc
      refine .telling ⟨by rw [hheld]; simp, ho.results, ho.sender, ho.timer,
        ⟨.testCallback, ?_, rfl⟩, by simp [hrec], ho.parsed⟩
      simp [notifyStep, ho.held, NotifyOut.loopPc]

theorem Telling.loop_step (ht : Telling s) {parsed : Bool} {session : SessionState}
    (h : loopStep parsed s.session = some session) :
    Inv { s with session, parsed := s.parsedAfter (.loop parsed) } := by
  obtain ⟨pc, hl, rfl⟩ := loopStep_cases h
  obtain ⟨pc', hl', htell⟩ := ht.loop
  obtain rfl := LoopPc.notify.inj (hl.symm.trans hl')
  have hheld := held_notifyStep .sessionOk parsed s.session.info pc
  rw [ht.held, Bool.true_or] at hheld
  cases pc with
  | testCallback =>
    rw [show s.parsedAfter (.loop parsed) = s.parsed by simp [parsedAfter, SessionState.parses, hl]]
    refine .telling ⟨hheld, ht.results, ht.sender, ht.timer, ?_, ht.received, ht.parsed⟩
    cases hcb : s.session.info.callback with
    | true => exact ⟨.postProcess, by simp [notifyStep, hcb, NotifyOut.loopPc], rfl⟩
    | false => exact ⟨.setValue, by simp [notifyStep, hcb, NotifyOut.loopPc], rfl⟩
  | postProcess =>
    rw [show s.parsedAfter (.loop parsed) = [s.readBuf] by
      simp [parsedAfter, SessionState.parses, hl, ht.parsed]]
    refine .settled ⟨hheld, fun hmem => ?_, ht.sender _, fun pc hpc => ?_, ?_, ?_⟩
    · rw [show (notifyStep .sessionOk parsed s.session.info .postProcess).1.results = [] from
        ht.results] at hmem
      cases hmem
    · obtain rfl := LoopPc.notify.inj hpc
      rfl
    · simp [ht.received]
    · simp
  | setValue =>
    rw [show s.parsedAfter (.loop parsed) = s.parsed by simp [parsedAfter, SessionState.parses, hl]]
    have hres : (notifyStep .sessionOk parsed s.session.info .setValue).1.results =
        [.sessionOk] := by simp [notifyStep, ht.results]
    by_cases hmay : s.session.sender.mayParse = true
    · exact .told ⟨hheld, hres, hmay, fun e he => absurd he (ht.sender e), ht.timer, rfl,
        ht.received, ht.parsed⟩
    · exact .settled ⟨hheld, fun _ => by simpa using hmay, ht.sender _, (by rintro pc ⟨⟩),
        by simp [ht.parsed], by simp [ht.parsed]⟩
  | _ => cases htell

theorem Inv.loop_step (hi : Inv s) {parsed : Bool} {session : SessionState}
    (h : loopStep parsed s.session = some session) :
    Inv { s with session, parsed := s.parsedAfter (.loop parsed) } := by
  cases hi with
  | unheld ho =>
    have hne : s.session.loop ≠ .notify .postProcess := fun hl => by cases ho.not_telling hl
    rw [show s.parsedAfter (.loop parsed) = s.parsed by
      simp [parsedAfter, SessionState.parses, hne]]
    exact ho.loop_step h
  | telling ht => exact ht.loop_step h
  | told ht => simp [loopStep, ht.loop] at h
  | settled hs =>
    obtain ⟨pc, hl, rfl⟩ := loopStep_cases h
    have hpc := hs.loop pc hl
    have hnot : s.parsedAfter (.loop parsed) = s.parsed := by
      have hne : pc ≠ .postProcess := by
        rintro rfl
        cases hpc
      simp [parsedAfter, SessionState.parses, hl, hne]
    obtain ⟨hres, hout⟩ := notifyStep_late .sessionOk parsed hs.held hpc
    rw [hnot]
    refine .settled ⟨?_, fun hmem => hs.results (hres ▸ hmem), hs.sender, hout, hs.parsed, hs.once⟩
    rw [held_notifyStep, hs.held]
    rfl

/-- The loop thread collects the session, or tries to reclaim it. -/
theorem Inv.move (hi : Inv s) {session : SessionState} (hidle : s.session.loop = .idle)
    (hsender : session.sender = s.session.sender) (htimer : session.timer = s.session.timer)
    (hloop : session.loop = s.session.loop)
    (hres : session.info.results = s.session.info.results)
    (hheld : held session.info.owners = held s.session.info.owners)
    (hplace : held s.session.info.owners = false → session.place ≠ .erased) :
    Inv { s with session } := by
  cases hi with
  | unheld ho =>
    refine .unheld ⟨hheld.trans ho.held, hplace ho.held, hres.trans ho.results,
      by rw [hsender]; exact ho.sender, by rw [htimer]; exact ho.timer, ?_, ho.parsed⟩
    rw [show ({ s with session } : FramedSession).session.loop = s.session.loop from hloop]
    exact ho.frames
  | telling ht => exact absurd hidle ht.not_idle
  | told ht =>
    exact .told ⟨hheld.trans ht.held, hres.trans ht.results, by rw [hsender]; exact ht.sender,
      by rw [hsender]; exact ht.postProcess, by rw [htimer]; exact ht.timer, hloop.trans ht.loop,
      ht.received, ht.parsed⟩
  | settled hs =>
    exact .settled ⟨hheld.trans hs.held, by rw [hres, hsender]; exact hs.results,
      by rw [hsender]; exact hs.sender, by rw [hloop]; exact hs.loop, hs.parsed, hs.once⟩

theorem Inv.frame (hi : Inv s) {f : Bytes} (hc : s.Once (.frame f))
    (h : s.step (.frame f) = some s') : Inv s' := by
  simp only [step] at h
  split_ifs at h with hidle hmap
  · obtain ⟨session, hrep, rfl⟩ := Option.map_eq_some_iff.mp h
    obtain ⟨-, rfl⟩ := reply_cases hrep
    have hdue : s.received ≠ [] → s.session.parseDue = false := by
      rcases hc with he | ⟨-, hdue⟩
      · rw [hmap] at he
        cases he
      · exact hdue
    cases hi with
    | unheld ho =>
      rcases ho.frames with ⟨-, hrec, hbuf⟩ | ⟨hl, -⟩
      · exact .unheld ⟨ho.held, ho.place, ho.results, ho.sender, ho.timer,
          .inr ⟨.inl rfl, by simp [hrec, hbuf]⟩, ho.parsed⟩
      · rw [hidle] at hl
        rcases hl with hl | hl <;> cases hl
    | telling ht => exact absurd hidle ht.not_idle
    | told ht =>
      have hne : s.received ≠ [] := by
        intro hnil
        have hrec := ht.received
        rw [hnil] at hrec
        cases hrec
      have hno := hdue hne
      simp [SessionState.parseDue, ht.results, ht.sender] at hno
    | settled hs =>
      refine .settled ⟨hs.held, hs.results, hs.sender, fun pc hpc => ?_, fun c hc => ?_, hs.once⟩
      · obtain rfl := LoopPc.notify.inj hpc
        rfl
      · simp [List.head?_append, hs.parsed c hc]
  · obtain rfl := Option.some.inj h
    have herased : s.session.place = .erased := hc.resolve_right fun hm => hmap hm.1
    cases hi with
    | unheld ho => exact absurd herased ho.place
    | telling ht => exact absurd hidle ht.not_idle
    | told ht =>
      exact .told ⟨ht.held, ht.results, ht.sender, ht.postProcess, ht.timer, ht.loop,
        by simp [List.head?_append, ht.received], ht.parsed⟩
    | settled hs =>
      exact .settled ⟨hs.held, hs.results, hs.sender, hs.loop,
        fun c hc => by simp [List.head?_append, hs.parsed c hc], hs.once⟩

theorem Inv.step (hi : Inv s) {a : FrameAct} (hc : s.Once a) (h : s.step a = some s') :
    Inv s' := by
  cases a with
  | frame f => exact hi.frame hc h
  | session act =>
    have hrep : act ≠ .reply := by
      rintro rfl
      cases h
    simp only [FramedSession.step, if_neg hrep] at h
    obtain ⟨session, hstep, rfl⟩ := Option.map_eq_some_iff.mp h
    cases act with
    | sender n => exact hi.sender_step hstep
    | timer parsed => exact hi.timer_step hstep
    | loop parsed => exact hi.loop_step hstep
    | reply => exact absurd rfl hrep
    | drain =>
      obtain ⟨⟨hp, hidle⟩, rfl⟩ := drain_cases hstep
      exact hi.move hidle rfl rfl rfl rfl rfl fun _ hp' => by cases hp'
    | sweep =>
      obtain ⟨⟨hp, hidle⟩, ⟨owners, hx, rfl⟩ | rfl⟩ := sweep_cases hstep
      · obtain ⟨hb, hv⟩ := held_of_tryExclusive hx
        exact hi.move hidle rfl rfl rfl rfl (hv.trans hb.symm) fun hno => by
          rw [hb] at hno
          cases hno
      · exact hi.move hidle rfl rfl rfl rfl rfl fun _ hp' => by
          rw [show s.session.place = _ from hp'] at hp
          cases hp

/-- If no frame with the id of the session comes before it is in the map, and no second one between
its notification and its parsing, the first frame is parsed, at most once. -/
theorem session_parses_first_frame (callback : Bool) (as : List FrameAct) (s : FramedSession)
    (hm : Meets step Once (init callback) as) (hr : run step (init callback) as = some s) :
    (∀ c ∈ s.parsed, s.received.head? = some c) ∧ s.parsed.length ≤ 1 := by
  have hi : Inv s := run_induction (fun _ _ _ hi hc h => hi.step hc h) (inv_init callback) hm hr
  cases hi with
  | unheld ho => simp [ho.parsed]
  | telling ht => simp [ht.parsed]
  | told ht => simp [ht.parsed]
  | settled hs => exact ⟨hs.parsed, hs.once⟩

def answered (f : Bytes) : List FrameAct :=
  [.session (.sender 0), .session (.sender 1), .session .drain, .session (.sender 7),
    .session (.sender 0), .session (.sender 0), .session (.sender 1), .frame f,
    .session (.loop true), .session (.loop true), .session (.loop true), .session (.loop true)]

def wakeUp : List FrameAct := [.session (.sender 0), .session (.sender 0)]

def repeatedLate : List FrameAct :=
  answered [1, 2] ++ wakeUp ++ [.session (.sender 1), .frame [3], .session (.loop true),
    .session (.loop true)]

theorem session_parses_first_frame_late :
    ∃ s, run step (init false) repeatedLate = some s ∧ s.received = [[1, 2], [3]] ∧
      s.readBuf = [1, 2, 3] ∧ s.parsed.length = 1 ∧ ∀ c ∈ s.parsed, c = [1, 2] := by
  have hget : ∃ s, run step (init false) repeatedLate = some s ∧ s.received = [[1, 2], [3]] ∧
      s.readBuf = [1, 2, 3] ∧ s.parsed.length = 1 := by decide +kernel
  obtain ⟨s, hr, hrec, hbuf, hlen⟩ := hget
  obtain ⟨hfirst, -⟩ := session_parses_first_frame false repeatedLate s (by decide +kernel) hr
  refine ⟨s, hr, hrec, hbuf, hlen, fun c hc => ?_⟩
  have hhead := hfirst c hc
  rw [hrec] at hhead
  exact (Option.some.inj hhead).symm

/-- A second frame before the sender has parsed is parsed with the first one; and a frame that
comes before the session is in the map is dropped, and the second one parsed. -/
theorem session_parses_two_frames :
    (∃ s, run step (init false) (answered [1, 2] ++ [.frame [3]] ++ wakeUp ++
        [.session (.sender 1)]) = some s ∧
      s.received = [[1, 2], [3]] ∧ s.parsed = [[1, 2, 3]]) ∧
    ∃ s, run step (init false) (.frame [3] :: answered [1, 2] ++ wakeUp ++
        [.session (.sender 1)]) = some s ∧
      s.received = [[3], [1, 2]] ∧ s.parsed = [[1, 2]] := by
  decide +kernel

end FramedSession

end SofaBolt
