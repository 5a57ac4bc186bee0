import SofaBolt.Run
import SofaBolt.SessionTracked

namespace SofaBolt

open LifeCycleLock Run

def SenderPc.BehindWriteFail : SenderPc → Prop
  | .removeTimeschdule | .releaseWriteFail | .done .writeFail _ => True
  | _ => False

/-- The write succeeds, and the closure gives up its share only when the sender has
left `sendInternal`. -/
def SessionAct.KeepsShare (s : SessionState) : SessionAct → Prop
  | .sender n => s.sender = .write → n ≠ 0
  | .timer _ => s.timer = .release → s.sender.isDone
  | _ => True

instance (s : SessionState) : DecidablePred (SessionAct.KeepsShare s)
  | .sender n => inferInstanceAs (Decidable (s.sender = .write → n ≠ 0))
  | .timer _ => inferInstanceAs (Decidable (s.timer = .release → s.sender.isDone))
  | .loop _ | .drain | .reply | .sweep => isTrue trivial

namespace SessionState

variable {s s' : SessionState} {n : ℕ} {u : Bool}

structure Kept (s : SessionState) : Prop extends Tracked s where
  callback : s.info.callback = true
  written : ¬ s.sender.BehindWriteFail
  timerDone : s.timer = .done → s.sender.isDone

theorem kept_init : Kept (init true) where
  toTracked := tracked_init true
  callback := rfl
  written := id
  timerDone h := by cases h

/-- Only a sender whose closure was refused has released the share. -/
theorem Kept.timer_eq_none (hk : Kept s) (hs : s.sender.released ≠ 0) : s.timer = .none := by
  have htr := hk.toTracked.sender
  have hw := hk.written
  cases hpc : s.sender with
  | done e r =>
    rw [hpc] at hs htr hw
    cases r with
    | false => exact absurd rfl hs
    | true =>
      cases e with
      | timerBusy => exact htr.1
      | writeFail => exact absurd trivial hw
      | _ =>
        have hr := htr.2.1
        rw [hk.callback] at hr
        cases hr
  | _ => rw [hpc] at hs; exact absurd rfl hs

theorem Kept.shares_eq (hk : Kept s) (hb : Base s) (hc : s.Counted n u) :
    n + s.sender.released + s.timer.released =
      s.sender.taken + s.timer.holds + s.loop.holds := by
  have hshares := hc.shares
  rw [hb.told.1 hk.callback, List.length_nil] at hshares
  omega

theorem Kept.sender_share (hk : Kept s) (hb : Base s) (hc : s.Counted n u)
    (hr : s.sender.Releasing) : 1 ≤ n := by
  have hshares := hk.shares_eq hb hc
  obtain ⟨hrel, htaken⟩ := SenderPc.of_releasing hr
  have htimer : s.timer = .none := by
    have htr := hk.toTracked.sender
    have hw := hk.written
    cases hpc : s.sender with
    | releaseTimerBusy =>
      rw [hpc] at htr
      exact htr
    | releaseWriteFail =>
      rw [hpc] at hw
      exact absurd trivial hw
    | releaseSync e =>
      rw [hpc] at htr
      exact absurd (hk.callback.symm.trans htr.2.1) (by decide)
    | _ => rw [hpc] at hr; exact hr.elim
  rw [hrel, htaken, htimer] at hshares
  simp only [TimerPc.released, TimerPc.holds] at hshares
  omega

theorem Kept.timer_share (hk : Kept s) (hb : Base s) (hc : s.Counted n u)
    (ht : s.timer = .release) : 1 ≤ n := by
  have hshares := hk.shares_eq hb hc
  have hnone : s.timer ≠ .none := by rw [ht]; decide
  have hrel : s.sender.released = 0 := by
    by_contra hs
    exact hnone (hk.timer_eq_none hs)
  rw [hrel, ht, SenderPc.taken_of_stage (le_trans (by decide) (hb.timer hnone))] at hshares
  simp only [TimerPc.released] at hshares
  omega

theorem Kept.loop_share (hk : Kept s) (hb : Base s) (hc : s.Counted n u) (hl : s.loop.late) :
    1 ≤ n := by
  have hshares := hk.shares_eq hb hc
  have hidle : s.loop ≠ .idle := fun h => by rw [h] at hl; exact hl
  have hstage := hb.place (by rw [hb.loop hidle]; decide)
  rw [(LoopPc.of_late hl).2, SenderPc.taken_of_stage (le_trans (by decide) hstage)] at hshares
  have hle := s.sender.released_le_taken
  rw [SenderPc.taken_of_stage (le_trans (by decide) hstage)] at hle
  have hle' := s.timer.released_le
  by_cases hs : s.sender.released = 0
  · omega
  · rw [hk.timer_eq_none hs] at hshares
    simp only [TimerPc.released] at hshares
    omega

/-- When the lock is free, the share was released: by the closure, which waits for
the sender, or by a sender without a closure. -/
theorem Kept.over (hk : Kept s) (hb : Base s) (hp : s.place = .mapped) (hc : s.Counted 0 true) :
    (∃ e r, s.sender = .done e r) ∧ (s.timer = .none ∨ s.timer = .done) := by
  have hshares := hk.shares_eq hb hc
  have hstage := hb.place (by rw [hp]; decide)
  rw [SenderPc.taken_of_stage (le_trans (by decide) hstage)] at hshares
  by_cases hs : s.sender.released = 0
  · have hdone : s.timer = .done := by
      apply TimerPc.eq_done_of_released
      omega
    have hsender := hk.timerDone hdone
    refine ⟨?_, Or.inr hdone⟩
    cases hpc : s.sender with
    | done e r => exact ⟨e, r, rfl⟩
    | _ => rw [hpc] at hsender; cases hsender
  · refine ⟨?_, Or.inl (hk.timer_eq_none hs)⟩
    cases hpc : s.sender with
    | done e r => exact ⟨e, r, rfl⟩
    | _ => rw [hpc] at hs; exact absurd rfl hs

theorem Kept.base_step (hk : Kept s) (hb : Base s) {a : SessionAct}
    (h : sessionStep s a = some s') : Base s' := by
  apply hb.step_of _ _ _ _ h
  · exact fun _ _ hr _ _ hc => hk.sender_share hb hc hr
  · exact fun _ _ ht _ _ hc => hk.timer_share hb hc ht
  · exact fun _ _ hl _ _ hc => hk.loop_share hb hc hl
  · exact fun _ hp _ hc => hk.over hb hp hc

/-- A sender whose write succeeds does not come behind a failed one, and one that
is done makes no step. -/
theorem senderStep_written (hw : ¬ s.sender.BehindWriteFail) (hcb : s.info.callback = true)
    (ht : Tracked s) {k : ℕ} (hk : s.sender = .write → k ≠ 0)
    (h : SofaBolt.senderStep k s = some s') :
    ¬ s'.sender.BehindWriteFail ∧ ¬ s.sender.isDone ∧ (s'.timer = .done → s.timer = .done) := by
  have htr := ht.sender
  unfold SofaBolt.senderStep at h
  cases hs : s.sender with
  | prepareRead =>
    simp only [hs] at h
    split_ifs at h
    all_goals
      obtain rfl := Option.some.inj h
      exact ⟨id, Bool.false_ne_true, id⟩
  | addTimeschdule =>
    rw [hs] at h
    obtain rfl := Option.some.inj h
    refine ⟨id, Bool.false_ne_true, ?_⟩
    change (if _ then _ else _) = _ → _
    split_ifs
    · exact id
    · exact (by cases ·)
  | testTaskId =>
    rw [hs] at h
    obtain rfl := Option.some.inj h
    refine ⟨?_, Bool.false_ne_true, id⟩
    change ¬ SenderPc.BehindWriteFail (if _ then _ else _)
    split_ifs <;> exact id
  | write =>
    simp only [hs, if_neg (hk hs)] at h
    obtain rfl := Option.some.inj h
    exact ⟨id, Bool.false_ne_true, id⟩
  | removeTimeschdule => exact absurd (by rw [hs]; trivial) hw
  | releaseWriteFail => exact absurd (by rw [hs]; trivial) hw
  | testCallback =>
    simp only [hs, hcb, if_true] at h
    obtain rfl := Option.some.inj h
    exact ⟨id, Bool.false_ne_true, id⟩
  -- a sender with a callback does not wait
  | waitResult =>
    rw [hs] at htr
    exact absurd (hcb.symm.trans htr.2) (by decide)
  | postProcess e =>
    rw [hs] at htr
    exact absurd (hcb.symm.trans htr.2.1) (by decide)
  | releaseSync e =>
    rw [hs] at htr
    exact absurd (hcb.symm.trans htr.2.1) (by decide)
  | done e r => simp [hs] at h
  | _ =>
    rw [hs] at h
    obtain rfl := Option.some.inj h
    exact ⟨id, Bool.false_ne_true, id⟩

theorem Kept.step (hk : Kept s) (hb : Base s) (halive : s.info.alive = true) {a : SessionAct}
    (hcond : a.KeepsShare s) (h : sessionStep s a = some s') (ha : s'.info.alive = true) :
    Kept s' := by
  have ht := hk.toTracked.step hb halive h ha
  have hcb := (sessionStep_callback h).trans hk.callback
  cases a with
  | sender k =>
    obtain ⟨hw, hnd, htimer⟩ := senderStep_written hk.written hk.callback hk.toTracked hcond h
    exact ⟨ht, hcb, hw, fun hd => absurd (hk.timerDone (htimer hd)) hnd⟩
  | timer parsed =>
    obtain ⟨-, -, -, hf⟩ := timerStep_frame halive h
    refine ⟨ht, hcb, ?_, fun hd => ?_⟩
    · rw [hf.sender]
      exact hk.written
    · rw [hf.sender]
      exact hcond ((timerStep_ne_queued h).2 hd)
  | loop parsed =>
    obtain ⟨-, htimer, hf⟩ := loopStep_frame halive h
    refine ⟨ht, hcb, ?_, ?_⟩
    · rw [hf.sender]
      exact hk.written
    · rw [hf.sender, htimer]
      exact hk.timerDone
  | drain =>
    obtain ⟨-, rfl⟩ := drain_cases h
    exact ⟨ht, hcb, hk.written, hk.timerDone⟩
  | reply =>
    obtain ⟨-, rfl⟩ := reply_cases h
    exact ⟨ht, hcb, hk.written, hk.timerDone⟩
  | sweep =>
    obtain ⟨-, ⟨owners, -, rfl⟩ | rfl⟩ := sweep_cases h
    · exact ⟨ht, hcb, hk.written, hk.timerDone⟩
    · exact ⟨ht, hcb, hk.written, hk.timerDone⟩

structure OwnedInv (s : SessionState) : Prop extends Base s where
  kept : s.info.alive = true → s.Kept

theorem OwnedInv.step (hi : OwnedInv s) {a : SessionAct} (hcond : a.KeepsShare s)
    (h : sessionStep s a = some s') : OwnedInv s' := by
  by_cases halive : s.info.alive = true
  · have hk := hi.kept halive
    exact ⟨hk.base_step hi.toBase h, hk.step hi.toBase halive hcond h⟩
  · rw [(hi.dead (by simpa using halive)).step_eq_none] at h
    cases h

/-- If its writes succeed and its closure completes only behind the sender, a session with a
callback is deleted only when the sender has left it and the closure is done or was refused. -/
theorem asyncSession_outlives_users (as : List SessionAct) (s : SessionState)
    (hm : Meets sessionStep SessionAct.KeepsShare (init true) as)
    (hr : run sessionStep (init true) as = some s) :
    s.info.badAccess = false ∧
      (s.info.alive = false →
        (∃ e r, s.sender = .done e r) ∧ (s.timer = .none ∨ s.timer = .done)) := by
  have hi : s.OwnedInv := run_induction (fun _ _ _ hi hcond h => OwnedInv.step hi hcond h)
    ⟨base_init true, fun _ => kept_init⟩ hm hr
  exact ⟨hi.badAccess, fun hd => ⟨(hi.dead hd).sender, (hi.dead hd).timer⟩⟩

theorem asyncSession_outlives_users_reclaimed :
    ∃ as s, Meets sessionStep SessionAct.KeepsShare (init true) as ∧
      run sessionStep (init true) as = some s ∧ s.info.alive = false ∧
      s.info.badAccess = false ∧ (∃ e r, s.sender = .done e r) ∧
      (s.timer = .none ∨ s.timer = .done) := by
  have hm : Meets sessionStep SessionAct.KeepsShare (init true)
      [.sender 0, .sender 1, .sender 7, .sender 0, .drain, .sender 0, .sender 1, .reply,
        .loop true, .timer true, .loop true, .sender 0, .loop true, .timer true, .loop true,
        .loop true, .loop true, .timer true, .timer true, .timer true, .sweep] := by
    decide +kernel
  have hr : run sessionStep (init true)
      [.sender 0, .sender 1, .sender 7, .sender 0, .drain, .sender 0, .sender 1, .reply,
        .loop true, .timer true, .loop true, .sender 0, .loop true, .timer true, .loop true,
        .loop true, .loop true, .timer true, .timer true, .timer true, .sweep] = some
      { info := ⟨1, true, 7, [], [.sessionOk], false, false⟩, place := .erased
        sender := .done .sessionOk false, timer := .done, loop := .idle } := by decide +kernel
  obtain ⟨h₁, h₂⟩ := asyncSession_outlives_users _ _ hm hr
  exact ⟨_, _, hm, hr, rfl, h₁, h₂ rfl⟩

/-- The closure fires while the sender is about to store its id, and a sweep for
another reply deletes the session: the store goes to freed memory. -/
theorem asyncSession_used_after_delete :
    ∃ as s, run sessionStep (init true) as = some s ∧ s.info.alive = false ∧
      s.sender = .testTaskId ∧ s.info.badAccess = true := by
  refine ⟨[.sender 0, .sender 1, .sender 7, .drain, .timer true, .timer true, .timer true,
    .timer true, .timer true, .timer true, .timer true, .timer true, .timer true, .sweep,
    .sender 0],
    { info := ⟨1, true, 7, [], [.readTimeout], false, true⟩, place := .erased
      sender := .testTaskId, timer := .done, loop := .idle }, ?_, rfl, rfl, rfl⟩
  decide +kernel

end SessionState

end SofaBolt
