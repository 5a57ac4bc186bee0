import SofaBolt.Run
import SofaBolt.SessionTracked

namespace SofaBolt

open LifeCycleLock Run

def LoopPc.Returning : LoopPc → Prop
  | .notify .setValue | .notify .backOut | .notify (.release _) => True
  | _ => False

instance : DecidablePred LoopPc.Returning
  | .idle => isFalse id
  | .notify pc => by cases pc <;> first | exact isTrue trivial | exact isFalse id

namespace SessionState

variable {s s' : SessionState} {n : ℕ} {u : Bool}

def Notified (s : SessionState) : Prop := s.info.invoked ≠ [] ∨ s.loop ≠ .idle

instance : DecidablePred Notified := fun s =>
  inferInstanceAs (Decidable (s.info.invoked ≠ [] ∨ s.loop ≠ .idle))

def WriteFailed (s : SessionState) : Prop := s.sender = .done .writeFail true

instance : DecidablePred WriteFailed := fun s =>
  inferInstanceAs (Decidable (s.sender = .done .writeFail true))

/-- The sender has left `sendInternal`, the closure is done, was never accepted or
was unscheduled, and no `notify` is in progress. -/
structure Finished (s : SessionState) : Prop where
  sender : ∃ e r, s.sender = .done e r
  timer : s.timer = .none ∨ s.timer = .done ∨ s.timer = .queued ∧ s.WriteFailed
  loop : s.loop = .idle

end SessionState

/-- After a refused closure the sender leaves no session that nobody has notified or is about to.
After a failed write likewise if it has unscheduled the closure in time, and then the share is
not released by both. -/
def SessionAct.Reclaims (s : SessionState) : SessionAct → Prop
  | .sender _ =>
    (s.sender = .releaseTimerBusy → s.info.callback = true ∧ s.Notified) ∧
      (s.sender = .releaseWriteFail → s.info.callback = true →
        s.timer ≠ .done ∧ (s.timer = .queued → s.Notified)) ∧
      (s.sender = .releaseWriteFail → s.info.callback = false →
        s.timer = .queued → s.loop ≠ .idle)
  | .timer _ => s.timer = .release → s.info.callback = true → ¬ s.WriteFailed
  | .loop _ => s.loop.Returning → s.info.callback = false → s.timer = .queued → ¬ s.WriteFailed
  | _ => True

instance (s : SessionState) : DecidablePred (SessionAct.Reclaims s)
  | .sender _ => inferInstanceAs (Decidable (_ ∧ _ ∧ _))
  | .timer _ => inferInstanceAs (Decidable (_ → _ → ¬ _))
  | .loop _ => inferInstanceAs (Decidable (_ → _ → _ → ¬ _))
  | .drain | .reply | .sweep => isTrue trivial

namespace SessionState

variable {s s' : SessionState} {n : ℕ} {u : Bool}

structure ReclaimInv (s : SessionState) : Prop extends Base s, Tracked s where
  timerBusy : ∀ r, s.sender = .done .timerBusy r → s.info.callback = true ∧ s.Notified
  writeFail : s.WriteFailed → s.info.callback = true →
    s.timer ≠ .done ∧ (s.timer = .queued → s.Notified)
  syncWriteFail : s.WriteFailed → s.info.callback = false → s.timer = .queued → s.loop ≠ .idle

theorem reclaimInv_init (callback : Bool) : ReclaimInv (init callback) where
  toBase := base_init callback
  toTracked := tracked_init callback
  timerBusy _ h := by cases h
  writeFail h := by cases h
  syncWriteFail h := by cases h

/-- A promise that was set, or is about to be, comes with a share for the sender. -/
theorem Counted.share_of_told (hc : s.Counted n true) (hb : Base s)
    (hcb : s.info.callback = false) (hw : s.timer.won = 0) :
    1 ≤ s.info.results.length + s.loop.holds := by
  have htells := hc.tells
  have hle := s.loop.won_le_holds
  rw [hb.told.2 hcb, hw, List.length_nil, Bool.toNat_true] at htells
  omega

/-- A sender and a closure that have both released a share: the session has no
callback. -/
theorem ReclaimInv.callback_eq_false (hi : ReclaimInv s) (hs : s.sender.released ≠ 0)
    (hnone : s.timer ≠ .none) (hw : s.WriteFailed → s.info.callback = false) :
    s.info.callback = false := by
  have htr := hi.sender
  cases hpc : s.sender with
  | done e r =>
    rw [hpc] at hs htr
    cases r with
    | false => exact absurd rfl hs
    | true =>
      cases e with
      | timerBusy => exact absurd htr.1 hnone
      | writeFail => exact hw hpc
      | _ => simpa using htr.2.1
  | _ => rw [hpc] at hs; exact absurd rfl hs

theorem ReclaimInv.timer_share (hi : ReclaimInv s) (hc : s.Counted n u)
    (ht : s.timer = .release) (hw : s.info.callback = true → ¬ s.WriteFailed) : 1 ≤ n := by
  have hnone : s.timer ≠ .none := by rw [ht]; decide
  have hu : u = true := hc.timerLate (by rw [ht]; trivial)
  have htaken := SenderPc.taken_of_stage (le_trans (by decide) (hi.timer hnone))
  have hshares := hc.shares
  rw [ht, htaken] at hshares
  simp only [TimerPc.released, TimerPc.holds] at hshares
  have hle := s.sender.released_le_taken
  rw [htaken] at hle
  by_cases hs : s.sender.released = 0
  · omega
  · have hcb := hi.callback_eq_false hs hnone fun hf => by
      by_contra hcb
      exact hw (by simpa using hcb) hf
    subst hu
    have := hc.share_of_told hi.toBase hcb (by rw [ht]; rfl)
    omega

theorem ReclaimInv.loop_share (hi : ReclaimInv s) (hc : s.Counted n u) (hl : s.loop.late) :
    1 ≤ n := by
  have hu : u = true := hc.loopLate hl
  have hidle : s.loop ≠ .idle := fun h => by rw [h] at hl; exact hl
  have hstage := hi.place (by rw [hi.loop hidle]; decide)
  have htaken := SenderPc.taken_of_stage (le_trans (by decide) hstage)
  have hshares := hc.shares
  have hle := s.sender.released_le_taken
  have hle' := s.timer.released_le
  obtain ⟨hwon, hholds⟩ := LoopPc.of_late hl
  rw [htaken, hholds] at hshares
  rw [htaken] at hle
  by_cases hr : s.sender.released = 0 ∨ s.timer.released = 0
  · omega
  · obtain ⟨hs, ht⟩ := not_or.mp hr
    have hdone := TimerPc.eq_done_of_released ht
    have hcb := hi.callback_eq_false hs (by rw [hdone]; decide) fun hf => by
      by_contra hcb
      exact (hi.writeFail hf (by simpa using hcb)).1 hdone
    -- the promise was set, since the callback was not called and nobody is about to
    have htells := hc.tells
    rw [hu, hi.told.2 hcb, hdone, hwon] at htells
    simp only [Bool.toNat_true, List.length_nil, TimerPc.won] at htells
    omega

theorem ReclaimInv.sender_share (hi : ReclaimInv s) (hc : s.Counted n u)
    (hr : s.sender.Releasing)
    (hw : s.sender = .releaseWriteFail → s.info.callback = true → s.timer ≠ .done) : 1 ≤ n := by
  have hshares := hc.shares
  obtain ⟨hrel, htaken⟩ := SenderPc.of_releasing hr
  rw [hrel, htaken] at hshares
  by_cases ht : s.timer.released = 0
  · omega
  · have hdone := TimerPc.eq_done_of_released ht
    have hcb : s.info.callback = false := by
      have htr := hi.sender
      cases hpc : s.sender with
      | releaseTimerBusy =>
        rw [hpc] at htr
        exact absurd (htr.symm.trans hdone) (by decide)
      | releaseWriteFail =>
        by_contra hcb
        exact hw hpc (by simpa using hcb) hdone
      | releaseSync e =>
        rw [hpc] at htr
        exact htr.2.1
      | _ => rw [hpc] at hr; exact hr.elim
    have hu : u = true := hc.timerLate (TimerPc.late_of_released ht)
    subst hu
    have := hc.share_of_told hi.toBase hcb (by rw [hdone]; rfl)
    have hle := s.timer.released_le
    omega

theorem notifyStep_invoked (error : ESessionError) (parsed : Bool) (i : SessionInfo)
    (pc : NotifyPc) (h : i.invoked ≠ []) : (notifyStep error parsed i pc).1.invoked ≠ [] := by
  cases pc with
  | invoke e => exact List.append_ne_nil_of_left_ne_nil h _
  | _ => exact h

theorem notifyStep_ret {error : ESessionError} {parsed : Bool} {i : SessionInfo} {pc : NotifyPc}
    {b : Bool} (h : (notifyStep error parsed i pc).2 = .ret b) :
    (LoopPc.notify pc).Returning ∧ (notifyStep error parsed i pc).1.invoked = i.invoked := by
  cases pc with
  | setValue => exact ⟨trivial, rfl⟩
  | backOut => exact ⟨trivial, rfl⟩
  | release r => exact ⟨trivial, rfl⟩
  | _ => simp [notifyStep] at h

/-- A step of the loop thread inside `notify` goes on, or is its last. -/
theorem loopStep_invoked {parsed : Bool} (h : SofaBolt.loopStep parsed s = some s') :
    (s.info.invoked ≠ [] → s'.info.invoked ≠ []) ∧
      (s'.loop ≠ .idle ∨ s.loop.Returning ∧ s'.info.invoked = s.info.invoked) := by
  obtain ⟨pc, hl, rfl⟩ := loopStep_cases h
  refine ⟨notifyStep_invoked .sessionOk parsed s.info pc, ?_⟩
  cases ho : (notifyStep .sessionOk parsed s.info pc).2 with
  | next pc' => exact Or.inl (by cases ·)
  | ret b =>
    right
    rw [hl]
    exact notifyStep_ret ho

/-- When `notify` returns, the callback has been called, unless the closure is
about to call it. -/
theorem Base.invoked_of_returning (hb : Base s) (ha : s.info.alive = true)
    (hcb : s.info.callback = true) (hl : s.loop.Returning) (hw : s.timer.won = 0) :
    s.info.invoked ≠ [] := by
  obtain ⟨n, u, hc⟩ := hb.counted ha
  have hlate : s.loop.late := by
    have hpath := hb.loopPath
    cases hpc : s.loop with
    | idle => rw [hpc] at hl; exact hl.elim
    | notify pc =>
      rw [hpc] at hl hpath
      cases pc with
      | setValue =>
        rw [hcb] at hpath
        cases hpath
      | backOut => trivial
      | release r => trivial
      | _ => exact hl.elim
  have htells := hc.tells
  rw [hc.loopLate hlate, hb.told.1 hcb, hw, (LoopPc.of_late hlate).1] at htells
  intro hnil
  simp [hnil] at htells

theorem Base.notified_loopStep (hb : Base s) (ha : s.info.alive = true)
    (hcb : s.info.callback = true) (hw : s.timer.won = 0) {parsed : Bool}
    (h : SofaBolt.loopStep parsed s = some s') : s'.Notified := by
  rcases (loopStep_invoked h).2 with hl | ⟨hl, heq⟩
  · exact Or.inr hl
  · exact Or.inl (heq ▸ hb.invoked_of_returning ha hcb hl hw)

/-- The sender leaves the session after a failure only by the two releases. -/
theorem Tracked.senderStep_done (ht : Tracked s) {k : ℕ} {e : ESessionError} {r : Bool}
    (h : SofaBolt.senderStep k s = some s') (hd : s'.sender = .done e r)
    (ha : s'.info.alive = true) :
    (e = .timerBusy → s.sender = .releaseTimerBusy) ∧
      (e = .writeFail → s.sender = .releaseWriteFail) ∧ s'.info.callback = s.info.callback ∧
      s'.info.invoked = s.info.invoked ∧ s'.loop = s.loop ∧ s'.timer = s.timer := by
  have hsender := ht.sender
  unfold SofaBolt.senderStep at h
  cases hs : s.sender with
  | prepareRead =>
    simp only [hs] at h
    split_ifs at h
    · obtain rfl := Option.some.inj h
      cases ha
    · obtain rfl := Option.some.inj h
      cases hd
  | testTaskId =>
    rw [hs] at h
    obtain rfl := Option.some.inj h
    change (if _ then _ else _) = _ at hd
    split_ifs at hd
  | write =>
    rw [hs] at h
    obtain rfl := Option.some.inj h
    change (if _ then _ else _) = _ at hd
    split_ifs at hd
  | releaseTimerBusy =>
    rw [hs] at h
    obtain rfl := Option.some.inj h
    cases hd
    exact ⟨fun _ => rfl, (by cases ·), rfl, rfl, rfl, rfl⟩
  | releaseWriteFail =>
    rw [hs] at h
    obtain rfl := Option.some.inj h
    cases hd
    exact ⟨(by cases ·), fun _ => rfl, rfl, rfl, rfl, rfl⟩
  | testCallback =>
    rw [hs] at h
    obtain rfl := Option.some.inj h
    change (if _ then _ else _) = _ at hd
    split_ifs at hd
    cases hd
    exact ⟨(by cases ·), (by cases ·), rfl, rfl, rfl, rfl⟩
  | waitResult =>
    cases hr : s.info.results with
    | nil => simp [hs, hr] at h
    | cons e es =>
      rw [hs, hr] at h
      obtain rfl := Option.some.inj h
      cases hd
  | releaseSync e' =>
    rw [hs] at h hsender
    obtain rfl := Option.some.inj h
    cases hd
    have he := hsender.2.2
    refine ⟨?_, ?_, rfl, rfl, rfl, rfl⟩
    · rintro rfl
      exact he.elim
    · rintro rfl
      exact he.elim
  | done e r => simp [hs] at h
  | _ =>
    rw [hs] at h
    obtain rfl := Option.some.inj h
    cases hd

theorem ReclaimInv.base_step (hi : ReclaimInv s) {a : SessionAct} (hcond : a.Reclaims s)
    (h : sessionStep s a = some s') (ha : s'.info.alive = true) : Base s' := by
  refine hi.toBase.step_of ?_ ?_ ?_ ?_ h
  · rintro k rfl hr n u hc
    exact hi.sender_share hc hr fun hs hcb => (hcond.2.1 hs hcb).1
  · rintro parsed rfl ht n u hc
    exact hi.timer_share hc ht (hcond ht)
  · rintro parsed rfl hl n u hc
    exact hi.loop_share hc hl
  · -- a sweep that finds the lock free deletes the session
    rintro rfl hp hl hc
    have hx : tryExclusive s.info.owners = some exclusive := by
      rw [hc.owners]
      rfl
    simp only [sessionStep, hp, hl, hx, and_self, if_true] at h
    obtain rfl := Option.some.inj h
    cases ha

theorem ReclaimInv.step (hi : ReclaimInv s) {a : SessionAct} (hcond : a.Reclaims s)
    (halive : s.info.alive = true) (h : sessionStep s a = some s')
    (ha : s'.info.alive = true) : ReclaimInv s' := by
  have hb := hi.base_step hcond h ha
  have ht := hi.toTracked.step hi.toBase halive h ha
  cases a with
  | sender k =>
    have hdone := fun e r => @Tracked.senderStep_done s s' hi.toTracked k e r h
    refine { toBase := hb, toTracked := ht, timerBusy := ?_, writeFail := ?_, syncWriteFail := ?_ }
    · intro r hr
      obtain ⟨hpc, -, hcb, hinv, hl, -⟩ := hdone _ _ hr ha
      unfold Notified
      rw [hcb, hinv, hl]
      exact hcond.1 (hpc rfl)
    · intro hf
      obtain ⟨-, hpc, hcb, hinv, hl, htimer⟩ := hdone _ _ hf ha
      unfold Notified
      rw [hcb, hinv, hl, htimer]
      exact hcond.2.1 (hpc rfl)
    · intro hf
      obtain ⟨-, hpc, hcb, -, hl, htimer⟩ := hdone _ _ hf ha
      rw [hcb, hl, htimer]
      exact hcond.2.2 (hpc rfl)
  | timer parsed =>
    obtain ⟨hne, -, hl, hf⟩ := timerStep_frame halive h
    obtain ⟨hq, hd⟩ := timerStep_ne_queued h
    refine { toBase := hb, toTracked := ht, timerBusy := ?_, writeFail := ?_, syncWriteFail := ?_ }
    · -- after `TIMER_BUSY` there is no closure to take a step
      intro r hr
      have htr := hi.sender
      rw [hf.sender] at hr
      rw [hr] at htr
      exact absurd htr.1 hne
    · unfold WriteFailed
      rw [hf.sender, hf.callback]
      exact fun hs hcb => ⟨fun hdone => hcond (hd hdone) hcb hs, fun h => absurd h hq⟩
    · exact fun _ _ h => absurd h hq
  | loop parsed =>
    obtain ⟨-, htimer, hf⟩ := loopStep_frame halive h
    refine { toBase := hb, toTracked := ht, timerBusy := ?_, writeFail := ?_, syncWriteFail := ?_ }
    · intro r hr
      have htr := hi.sender
      rw [hf.sender] at hr
      rw [hr] at htr
      have hcb := (hi.timerBusy r hr).1
      rw [hf.callback]
      exact ⟨hcb, hi.notified_loopStep halive hcb (by rw [htr.1]; rfl) h⟩
    · unfold WriteFailed
      rw [hf.sender, hf.callback, htimer]
      refine fun hs hcb => ⟨(hi.writeFail hs hcb).1, fun hq => ?_⟩
      exact hi.notified_loopStep halive hcb (by rw [hq]; rfl) h
    · unfold WriteFailed
      rw [hf.sender, hf.callback, htimer]
      intro hs hcb hq
      exact (loopStep_invoked h).2.resolve_right fun hret => hcond hret.1 hcb hq hs
  | drain =>
    obtain ⟨-, rfl⟩ := drain_cases h
    exact { toBase := hb, toTracked := ht, timerBusy := hi.timerBusy, writeFail := hi.writeFail
            syncWriteFail := hi.syncWriteFail }
  | reply =>
    obtain ⟨-, rfl⟩ := reply_cases h
    exact { toBase := hb, toTracked := ht
            timerBusy := fun r hr => ⟨(hi.timerBusy r hr).1, Or.inr (by simp)⟩
            writeFail := fun hf hcb => ⟨(hi.writeFail hf hcb).1, fun _ => Or.inr (by simp)⟩
            syncWriteFail := fun _ _ _ => by simp }
  | sweep =>
    obtain ⟨-, ⟨owners, -, rfl⟩ | rfl⟩ := sweep_cases h
    · cases ha
    · exact { toBase := hb, toTracked := ht, timerBusy := hi.timerBusy, writeFail := hi.writeFail
              syncWriteFail := hi.syncWriteFail }

theorem sessionStep_alive {a : SessionAct} (h : sessionStep s a = some s')
    (ha : s'.info.alive = true) : s.info.alive = true := by
  cases a with
  | sender k =>
    simp only [sessionStep, SofaBolt.senderStep] at h
    cases hs : s.sender with
    | done e r => simp [hs] at h
    | prepareRead =>
      simp only [hs] at h
      split_ifs at h
      · obtain rfl := Option.some.inj h
        cases ha
      · obtain rfl := Option.some.inj h
        exact ha
    | waitResult =>
      cases hr : s.info.results with
      | nil => simp [hs, hr] at h
      | cons e es =>
        rw [hs, hr] at h
        obtain rfl := Option.some.inj h
        exact ha
    | _ =>
      rw [hs] at h
      obtain rfl := Option.some.inj h
      exact ha
  | timer parsed =>
    rcases timerStep_cases h with ⟨-, rfl⟩ | ⟨pc, -, rfl⟩ | ⟨-, rfl⟩ | ⟨-, rfl⟩
    · exact ha
    · exact (notifyStep_frame .readTimeout parsed s.info pc).1.symm.trans ha
    · exact ha
    · exact ha
  | loop parsed =>
    obtain ⟨pc, -, rfl⟩ := loopStep_cases h
    exact (notifyStep_frame .sessionOk parsed s.info pc).1.symm.trans ha
  | drain =>
    obtain ⟨-, rfl⟩ := drain_cases h
    exact ha
  | reply =>
    obtain ⟨-, rfl⟩ := reply_cases h
    exact ha
  | sweep =>
    obtain ⟨-, ⟨owners, -, rfl⟩ | rfl⟩ := sweep_cases h
    · cases ha
    · exact ha

/-- Both shares were released and somebody was told: by each path the lock is free. -/
theorem ReclaimInv.owners_eq (hi : ReclaimInv s) (ha : s.info.alive = true) (hf : s.Finished) :
    s.info.owners = upgraded := by
  obtain ⟨n, u, hc⟩ := hi.counted ha
  obtain ⟨⟨e, r, hs⟩, htimer, hl⟩ := hf
  rw [hc.owners, word_eq_upgraded]
  have htr := hi.sender
  have hshares := hc.shares
  have htells := hc.tells
  have hbool : u.toNat ≤ 1 := by cases u <;> simp
  rw [hs] at htr hshares
  rw [hl] at hshares htells
  simp only [SenderPc.taken, LoopPc.holds, LoopPc.won] at hshares htells
  -- the loop thread has told the callback, and only one of the two threads can
  have htold : ∀ hw : s.timer.won = 0, s.info.callback = true → s.Notified →
      s.info.results.length = 0 ∧ u = true := by
    intro hw hcb hn
    have hne : 0 < s.info.invoked.length :=
      List.length_pos_iff.mpr (hn.resolve_right (not_not.mpr hl))
    rw [hi.told.1 hcb]
    refine ⟨rfl, ?_⟩
    cases u with
    | true => rfl
    | false => simp only [Bool.toNat_false] at htells; omega
  -- the closure releases the share of an asynchronous call, the sender its own
  have hdone : s.timer = .done → r = !s.info.callback → n = 0 ∧ u = true := by
    intro ht hr
    have hu : u = true := hc.timerLate (by rw [ht]; trivial)
    refine ⟨?_, hu⟩
    rw [ht, hr] at hshares
    rw [ht, hu] at htells
    cases hcb : s.info.callback with
    | true =>
      rw [hcb, hi.told.1 hcb] at hshares
      simp only [Bool.not_true, SenderPc.released, TimerPc.released, TimerPc.holds,
        List.length_nil] at hshares
      omega
    | false =>
      rw [hi.told.2 hcb] at htells
      rw [hcb] at hshares
      simp only [Bool.not_false, SenderPc.released, TimerPc.released, TimerPc.holds,
        TimerPc.won, Bool.toNat_true, List.length_nil] at hshares htells
      omega
  rcases htimer with ht | ht | ⟨ht, hw⟩
  · -- the timer has refused the closure
    cases e with
    | timerBusy =>
      obtain ⟨hcb, hn⟩ := hi.timerBusy r hs
      obtain ⟨hres, hu⟩ := htold (by rw [ht]; rfl) hcb hn
      rw [htr.2, ht, hres] at hshares
      simp only [SenderPc.released, TimerPc.released, TimerPc.holds] at hshares
      exact ⟨by omega, hu⟩
    | _ => exact absurd ht htr.1
  · -- the closure is done
    cases e with
    | timerBusy => exact absurd (htr.1.symm.trans ht) (by decide)
    | writeFail =>
      have hfail : s.WriteFailed := by rw [WriteFailed, hs, htr.2]
      refine hdone ht ?_
      cases hcb : s.info.callback with
      | true => exact absurd ht (hi.writeFail hfail hcb).1
      | false => exact htr.2
    | _ => exact hdone ht htr.2.1
  · -- the closure was unscheduled
    cases hcb : s.info.callback with
    | false => exact absurd hl (hi.syncWriteFail hw hcb ht)
    | true =>
      obtain ⟨hres, hu⟩ := htold (by rw [ht]; rfl) hcb ((hi.writeFail hw hcb).2 ht)
      obtain ⟨rfl, rfl⟩ := SenderPc.done.inj (hs.symm.trans hw)
      rw [ht, hres] at hshares
      simp only [SenderPc.released, TimerPc.released, TimerPc.holds] at hshares
      exact ⟨by omega, hu⟩

/-- In every run whose steps meet the condition, the lock of a finished session is
exactly `UPGRADED`, and the next sweep over the map that holds the session deletes
it. -/
theorem finished_session_reclaimable (callback : Bool) (as : List SessionAct) (s : SessionState)
    (hm : Meets sessionStep SessionAct.Reclaims (init callback) as)
    (hr : run sessionStep (init callback) as = some s) (ha : s.info.alive = true)
    (hf : s.Finished) :
    s.info.owners = upgraded ∧ s.place ≠ .created ∧
      (s.place = .mapped → ∃ s', sessionStep s .sweep = some s' ∧ s'.place = .erased ∧
        s'.info.alive = false) := by
  have hi : s.ReclaimInv :=
    run_induction (fun s₁ _ _ (hi : s₁.info.alive = true → s₁.ReclaimInv) hcond hstep ha =>
        (hi (sessionStep_alive hstep ha)).step hcond (sessionStep_alive hstep ha) hstep ha)
      (fun _ => reclaimInv_init callback) hm hr ha
  have howners := hi.owners_eq ha hf
  obtain ⟨⟨e, r, hs⟩, -, hl⟩ := hf
  refine ⟨howners, hi.placed (by rw [hs]; exact (by decide : 2 ≤ 3)), fun hp => ?_⟩
  refine ⟨{ s with info := { s.info.touch with owners := exclusive, alive := false }
                   place := .erased }, ?_, rfl, rfl⟩
  simp only [sessionStep, hp, hl, and_self, if_true, howners]
  rfl

theorem finished_session_reclaimable_write_failed :
    ∃ as s, Meets sessionStep SessionAct.Reclaims (init true) as ∧
      run sessionStep (init true) as = some s ∧ s.Finished ∧ s.info.owners = upgraded ∧
      s.place ≠ .created ∧ ∃ s', sessionStep s .sweep = some s' ∧ s'.place = .erased ∧
        s'.info.alive = false := by
  have hm : Meets sessionStep SessionAct.Reclaims (init true)
      [.sender 0, .sender 1, .sender 7, .sender 0, .sender 0, .drain, .reply, .loop true,
        .sender 0, .sender 0, .sender 0, .loop true, .loop true, .loop true, .loop true,
        .loop true] := by decide +kernel
  have hr : run sessionStep (init true)
      [.sender 0, .sender 1, .sender 7, .sender 0, .sender 0, .drain, .reply, .loop true,
        .sender 0, .sender 0, .sender 0, .loop true, .loop true, .loop true, .loop true,
        .loop true] = some
      { info := ⟨2, true, 7, [], [.sessionOk], true, false⟩, place := .mapped
        sender := .done .writeFail true, timer := .queued, loop := .idle } := by decide +kernel
  have hf : Finished
      { info := ⟨2, true, 7, [], [.sessionOk], true, false⟩, place := .mapped
        sender := .done .writeFail true, timer := .queued, loop := .idle } :=
    ⟨⟨_, _, rfl⟩, Or.inr (Or.inr ⟨rfl, rfl⟩), rfl⟩
  obtain ⟨h₁, h₂, h₃⟩ := finished_session_reclaimable true _ _ hm hr rfl hf
  exact ⟨_, _, hm, hr, hf, h₁, h₂, h₃ rfl⟩

/-- A call with a callback whose closure the timer refuses: the session is finished, its
lock is 0, and a sweep leaves it where it is. -/
theorem finished_session_not_reclaimed :
    ∃ as s, run sessionStep (init true) as = some s ∧ s.info.alive = true ∧ s.Finished ∧
      s.info.owners ≠ upgraded ∧ s.place = .mapped ∧ sessionStep s .sweep = some s := by
  refine ⟨[.sender 0, .sender 1, .sender 0, .sender 0, .sender 0, .sender 0, .drain],
    { info := ⟨0, true, 0, [], [], true, false⟩, place := .mapped
      sender := .done .timerBusy true, timer := .none, loop := .idle }, ?_, rfl,
    ⟨⟨_, _, rfl⟩, Or.inl rfl, rfl⟩, ?_, rfl, ?_⟩
  · decide +kernel
  · exact (by decide : (0 : ℤ) ≠ upgraded)
  · decide +kernel

end SessionState

end SofaBolt
