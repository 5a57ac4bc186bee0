import SofaBolt.Run
import SofaBolt.SessionShares

namespace SofaBolt

open Run

namespace SessionState

variable {s s' : SessionState} {n : ℕ} {u : Bool}

structure SyncInv (s : SessionState) : Prop extends Base s where
  callback : s.info.callback = false

/-- As nothing was invoked, an upgraded lock means that the promise is set or
about to be, and then there is a share for it. -/
theorem SyncInv.shares_ge (hi : SyncInv s) (hc : s.Counted n u) :
    s.sender.taken + u.toNat ≤ n + s.sender.released + s.timer.released := by
  have htells := hc.tells
  have hshares := hc.shares
  have h₁ := s.timer.won_le_holds
  have h₂ := s.loop.won_le_holds
  rw [hi.told.2 hi.callback, List.length_nil] at htells
  omega

/-- A closure that has released its share knows of the upgrade. -/
theorem Counted.timer_released_le (hc : s.Counted n u) : s.timer.released ≤ u.toNat := by
  by_cases h : s.timer.released = 0
  · omega
  · rw [hc.timerLate (TimerPc.late_of_released h)]
    exact s.timer.released_le

theorem SyncInv.covered (hi : SyncInv s) (hc : s.Counted n u) : s.Covered n where
  sender hr := by
    obtain ⟨h₁, h₂⟩ := SenderPc.of_releasing hr
    have hge := hi.shares_ge hc
    have hle := hc.timer_released_le
    omega
  timer ht := by
    have hge := hi.shares_ge hc
    have hle := s.sender.released_le_taken
    have hu : u = true := hc.timerLate (by rw [ht]; trivial)
    rw [ht, hu] at hge
    simp only [TimerPc.released, Bool.toNat_true] at hge
    omega
  loop hl := by
    obtain ⟨hwon, hholds⟩ := LoopPc.of_late hl
    have htells := hc.tells
    have hshares := hc.shares
    have h₁ := s.timer.won_le_holds
    have h₂ := s.sender.released_le_taken
    have h₃ := s.timer.released_le
    rw [hc.loopLate hl, hi.told.2 hi.callback, List.length_nil, Bool.toNat_true, hwon] at htells
    omega

/-- The loop thread deletes the session only when both others are done with it. -/
theorem SyncInv.sweep (hi : SyncInv s) (hplace : s.place = .mapped) (hc : s.Counted 0 true) :
    (∃ e r, s.sender = .done e r) ∧ s.timer = .done := by
  have hge := hi.shares_ge hc
  have hle := s.timer.released_le
  have hstage := hi.place (by rw [hplace]; decide)
  have htaken : s.sender.taken = 1 := SenderPc.taken_of_stage (by omega)
  have hrel := s.sender.released_le_taken
  rw [htaken, Bool.toNat_true] at hge
  have h₁ : s.sender.released = 1 := by omega
  have h₂ : s.timer.released = 1 := by omega
  refine ⟨?_, ?_⟩
  · cases hs : s.sender with
    | done e r => exact ⟨e, r, rfl⟩
    | _ => rw [hs] at h₁; cases h₁
  · cases ht : s.timer with
    | done => rfl
    | _ => rw [ht] at h₂; cases h₂

theorem SyncInv.step (hi : SyncInv s) {a : SessionAct} (h : sessionStep s a = some s') :
    SyncInv s' where
  toBase := hi.toBase.step (fun _ _ hc => hi.covered hc) (fun _ => hi.sweep) h
  callback := (sessionStep_callback h).trans hi.callback

/-- The promise of a session without a callback is set at most once, nobody uses the session after
its deletion, and it is deleted only when the sender is done and the closure is done or will
never run. -/
theorem syncSession_lifeCycle (as : List SessionAct) (s : SessionState)
    (h : run sessionStep (init false) as = some s) :
    s.info.results.length ≤ 1 ∧ s.info.badAccess = false ∧
      (s.info.alive = false →
        (∃ e r, s.sender = .done e r) ∧ (s.timer = .none ∨ s.timer = .done)) := by
  have hi : SyncInv s := run_invariant (fun _ _ _ hi h => hi.step h) ⟨base_init false, rfl⟩ h
  exact ⟨(Nat.le_add_right _ _).trans hi.told_le, hi.badAccess,
    fun hd => ⟨(hi.dead hd).sender, (hi.dead hd).timer⟩⟩

def sampleRun : List SessionAct :=
  [.sender 0, .sender 1, .sender 7, .drain, .sender 0, .sender 0, .sender 1, .timer true,
    .reply, .loop true, .timer true, .sender 0, .loop true, .loop true, .timer true,
    .timer true, .loop true, .sweep, .timer true, .sender 0, .sender 1, .timer true,
    .sweep, .sender 0, .sweep]

theorem syncSession_lifeCycle_reclaimed :
    ∃ s, run sessionStep (init false) sampleRun = some s ∧ s.info.alive = false ∧
      s.info.results.length ≤ 1 ∧ s.info.badAccess = false ∧
      (∃ e r, s.sender = .done e r) ∧ (s.timer = .none ∨ s.timer = .done) := by
  have hrun : run sessionStep (init false) sampleRun = some
      { info := ⟨1, false, 7, [.sessionOk], [], false, false⟩, place := .erased
        sender := .done .sessionOk true, timer := .done, loop := .idle } := by decide +kernel
  obtain ⟨h₁, h₂, h₃⟩ := syncSession_lifeCycle _ _ hrun
  exact ⟨_, hrun, rfl, h₁, h₂, h₃ rfl⟩

end SessionState

end SofaBolt
