import SofaBolt.SessionModel

/- `owners` counts the share taken for the timer, one for every promise that was set and one
for every `notify` in progress, less what the sender and the closure have released. That
whoever releases a share finds one (`Covered`) has a different reason with and without a
callback. -/

namespace SofaBolt

open LifeCycleLock

namespace NotifyPc

def holds : NotifyPc → ℕ
  | .tryShared => 0
  | _ => 1

def won : NotifyPc → ℕ
  | .testCallback | .postProcess | .invoke _ | .setValue => 1
  | _ => 0

def late : NotifyPc → Prop
  | .backOut | .release _ => True
  | _ => False

end NotifyPc

namespace NotifyOut

def holds : NotifyOut → ℕ
  | .next pc => pc.holds
  | .ret _ => 0

def won : NotifyOut → ℕ
  | .next pc => pc.won
  | .ret _ => 0

def late : NotifyOut → Prop
  | .next pc => pc.late
  | .ret _ => True

end NotifyOut

/-- One step of `notify` moves shares and the right to tell, and makes neither. -/
theorem notifyStep_counts {i : SessionInfo} {pc : NotifyPc} {n : ℕ} {u : Bool}
    (hi : i.owners = word n u) (hwon : pc.won ≤ u.toNat) (hlate : pc.late → u = true)
    (hn : pc.late → 1 ≤ n) (error : ESessionError) (parsed : Bool) :
    ∃ n' u', (notifyStep error parsed i pc).1.owners = word n' u' ∧
      n' + pc.holds + i.results.length =
        n + (notifyStep error parsed i pc).2.holds +
          (notifyStep error parsed i pc).1.results.length ∧
      u'.toNat + pc.won + i.results.length + i.invoked.length =
        u.toNat + (notifyStep error parsed i pc).2.won +
          (notifyStep error parsed i pc).1.results.length +
          (notifyStep error parsed i pc).1.invoked.length ∧
      ((notifyStep error parsed i pc).2.late → u' = true) ∧ (u = true → u' = true) := by
  cases pc with
  | tryShared =>
    refine ⟨n + 1, u, by simp [notifyStep, hi, addShared_word], ?_, ?_, ?_, id⟩
    · cases u <;> simp [notifyStep, hi, held_word, NotifyOut.holds, NotifyPc.holds,
        SessionInfo.touch]
    · cases u <;> simp [notifyStep, hi, held_word, NotifyOut.won, NotifyPc.won, SessionInfo.touch]
    · cases u <;> simp [notifyStep, hi, held_word, NotifyOut.late, NotifyPc.late]
  | upgrade =>
    refine ⟨n, true, by simp [notifyStep, hi, orUpgraded_word], ?_, ?_, by simp, by simp⟩
    · cases u <;> simp [notifyStep, hi, held_word, NotifyOut.holds, NotifyPc.holds,
        SessionInfo.touch]
    · cases u <;> simp [notifyStep, hi, held_word, NotifyOut.won, NotifyPc.won,
        SessionInfo.touch]
  | testCallback =>
    refine ⟨n, u, hi, ?_, ?_, ?_, id⟩
    · cases hc : i.callback <;> simp [notifyStep, hc, NotifyOut.holds, NotifyPc.holds,
        SessionInfo.touch]
    · cases hc : i.callback <;> simp [notifyStep, hc, NotifyOut.won, NotifyPc.won,
        SessionInfo.touch]
    · cases hc : i.callback <;> simp [notifyStep, hc, NotifyOut.late, NotifyPc.late]
  | backOut =>
    have hu : u = true := hlate (by simp [NotifyPc.late])
    obtain ⟨m, rfl⟩ := Nat.exists_eq_add_of_le' (hn (by simp [NotifyPc.late]))
    refine ⟨m, u, ?_, ?_, ?_, fun _ => hu, id⟩
    · rw [notifyStep, hi, releaseShared_word]
    · simp [notifyStep, NotifyOut.holds, NotifyPc.holds, SessionInfo.touch]
    · simp [notifyStep, NotifyOut.won, NotifyPc.won, SessionInfo.touch]
  | release r =>
    have hu : u = true := hlate (by simp [NotifyPc.late])
    obtain ⟨m, rfl⟩ := Nat.exists_eq_add_of_le' (hn (by simp [NotifyPc.late]))
    refine ⟨m, u, ?_, ?_, ?_, fun _ => hu, id⟩
    · rw [notifyStep, hi, releaseShared_word]
    · simp [notifyStep, NotifyOut.holds, NotifyPc.holds, SessionInfo.touch]
    · simp [notifyStep, NotifyOut.won, NotifyPc.won, SessionInfo.touch]
  | postProcess =>
    refine ⟨n, u, hi, rfl, rfl, ?_, id⟩
    simp [notifyStep, NotifyOut.late, NotifyPc.late]
  | invoke e =>
    have hu : u = true := by cases u <;> simp_all [NotifyPc.won]
    refine ⟨n, u, hi, rfl, ?_, fun _ => hu, id⟩
    simp [notifyStep, NotifyOut.won, NotifyPc.won, SessionInfo.touch]
    omega
  | setValue =>
    have hu : u = true := by cases u <;> simp_all [NotifyPc.won]
    refine ⟨n, u, hi, ?_, ?_, fun _ => hu, id⟩
    · simp [notifyStep, NotifyOut.holds, NotifyPc.holds, SessionInfo.touch]
      omega
    · simp [notifyStep, NotifyOut.won, NotifyPc.won, SessionInfo.touch]
      omega

theorem SessionInfo.touch_eq {i : SessionInfo} (ha : i.alive = true) (hb : i.badAccess = false) :
    i.touch = i := by
  cases i
  simp_all [touch]

namespace SenderPc

def taken : SenderPc → ℕ
  | .tryShared => 0
  | _ => 1

def released : SenderPc → ℕ
  | .done _ true => 1
  | _ => 0

def isDone : SenderPc → Bool
  | .done _ _ => true
  | _ => false

def Releasing : SenderPc → Prop
  | .releaseTimerBusy | .releaseWriteFail | .releaseSync _ => True
  | _ => False

def stage : SenderPc → ℕ
  | .tryShared => 0
  | .prepareRead => 1
  | .addTimeschdule => 2
  | _ => 3

end SenderPc

namespace TimerPc

def holds : TimerPc → ℕ
  | .notify pc => pc.holds
  | _ => 0

def won : TimerPc → ℕ
  | .notify pc => pc.won
  | _ => 0

def late : TimerPc → Prop
  | .notify pc => pc.late
  | .readTaskId | .release | .done => True
  | _ => False

def released : TimerPc → ℕ
  | .done => 1
  | _ => 0

end TimerPc

namespace LoopPc

def holds : LoopPc → ℕ
  | .notify pc => pc.holds
  | .idle => 0

def won : LoopPc → ℕ
  | .notify pc => pc.won
  | .idle => 0

def late : LoopPc → Prop
  | .notify pc => pc.late
  | .idle => False

end LoopPc

namespace SessionState

structure Counted (s : SessionState) (n : ℕ) (u : Bool) : Prop where
  owners : s.info.owners = word n u
  shares : n + s.sender.released + s.timer.released =
    s.sender.taken + s.info.results.length + s.timer.holds + s.loop.holds
  tells : u.toNat =
    s.info.results.length + s.info.invoked.length + s.timer.won + s.loop.won
  timerLate : s.timer.late → u = true
  loopLate : s.loop.late → u = true

end SessionState

theorem NotifyPc.won_le_holds (pc : NotifyPc) : pc.won ≤ pc.holds := by
  cases pc <;> simp [won, holds]

theorem TimerPc.won_le_holds (pc : TimerPc) : pc.won ≤ pc.holds := by
  cases pc with
  | notify pc => exact pc.won_le_holds
  | _ => exact le_rfl

theorem LoopPc.won_le_holds (pc : LoopPc) : pc.won ≤ pc.holds := by
  cases pc with
  | notify pc => exact pc.won_le_holds
  | idle => exact le_rfl

theorem TimerPc.released_le (pc : TimerPc) : pc.released ≤ 1 := by
  cases pc <;> simp [released]

theorem TimerPc.eq_done_of_released {pc : TimerPc} (h : pc.released ≠ 0) : pc = .done := by
  cases pc <;> first | rfl | exact absurd rfl h

theorem TimerPc.late_of_released {pc : TimerPc} (h : pc.released ≠ 0) : pc.late := by
  cases pc <;> simp_all [released, late]

theorem LoopPc.of_late {pc : LoopPc} (h : pc.late) : pc.won = 0 ∧ pc.holds = 1 := by
  cases pc with
  | idle => exact h.elim
  | notify pc =>
    cases pc <;> simp_all [late, NotifyPc.late, won, NotifyPc.won, holds, NotifyPc.holds]

theorem SenderPc.of_releasing {pc : SenderPc} (h : pc.Releasing) :
    pc.released = 0 ∧ pc.taken = 1 := by
  cases pc <;> first | exact h.elim | exact ⟨rfl, rfl⟩

theorem SenderPc.taken_of_stage {pc : SenderPc} (h : 1 ≤ pc.stage) : pc.taken = 1 := by
  cases pc <;> first | rfl | exact absurd h (by decide)

theorem SenderPc.released_le_taken (pc : SenderPc) : pc.released ≤ pc.taken := by
  cases pc with
  | done e r => cases r <;> simp [released, taken]
  | _ => simp [released]

/-- The two threads that run `notify` account for it in the same way. -/
theorem NotifyOut.timerPc_counts (o : NotifyOut) : o.timerPc.holds = o.holds ∧
    o.timerPc.won = o.won ∧ o.timerPc.released = 0 ∧ (o.timerPc.late → o.late) := by
  cases o <;> exact ⟨rfl, rfl, rfl, id⟩

theorem NotifyOut.loopPc_counts (o : NotifyOut) : o.loopPc.holds = o.holds ∧
    o.loopPc.won = o.won ∧ (o.loopPc.late → o.late) := by
  cases o with
  | next pc => exact ⟨rfl, rfl, id⟩
  | ret b => exact ⟨rfl, rfl, False.elim⟩

/-- `notify` sets the promise of a session without a callback, and calls the
callback of one that has it. -/
def NotifyPc.OnPath (callback : Bool) : NotifyPc → Prop
  | .postProcess | .invoke _ => callback = true
  | .setValue => callback = false
  | _ => True

def NotifyOut.OnPath (callback : Bool) : NotifyOut → Prop
  | .next pc => pc.OnPath callback
  | .ret _ => True

def TimerPc.OnPath (callback : Bool) : TimerPc → Prop
  | .notify pc => pc.OnPath callback
  | _ => True

def LoopPc.OnPath (callback : Bool) : LoopPc → Prop
  | .notify pc => pc.OnPath callback
  | .idle => True

/-- The promise of a session with a callback, or the callback of one without,
is never used. -/
def SessionInfo.Told (i : SessionInfo) : Prop :=
  (i.callback = true → i.results = []) ∧ (i.callback = false → i.invoked = [])

theorem notifyStep_onPath {i : SessionInfo} {pc : NotifyPc} (hpc : pc.OnPath i.callback)
    (htold : i.Told) (error : ESessionError) (parsed : Bool) :
    (notifyStep error parsed i pc).2.OnPath i.callback ∧
      (notifyStep error parsed i pc).1.Told := by
  cases pc with
  | tryShared =>
    refine ⟨?_, htold⟩
    cases h : held i.owners <;> simp [notifyStep, h, NotifyOut.OnPath, NotifyPc.OnPath]
  | upgrade =>
    refine ⟨?_, htold⟩
    cases h : held i.owners <;> simp [notifyStep, h, NotifyOut.OnPath, NotifyPc.OnPath]
  | testCallback =>
    refine ⟨?_, htold⟩
    cases h : i.callback <;> simp [notifyStep, h, NotifyOut.OnPath, NotifyPc.OnPath]
  | postProcess => exact ⟨hpc, htold⟩
  | invoke e => exact ⟨trivial, htold.1, fun h => absurd (h.symm.trans hpc) (by decide)⟩
  | setValue => exact ⟨trivial, fun h => absurd (h.symm.trans hpc) (by decide), htold.2⟩
  | backOut => exact ⟨trivial, htold⟩
  | release r => exact ⟨trivial, htold⟩

namespace SessionState

variable {s s' : SessionState} {n : ℕ} {u : Bool}

structure SameFrame (s s' : SessionState) : Prop where
  sender : s'.sender = s.sender
  place : s'.place = s.place
  alive : s'.info.alive = true
  callback : s'.info.callback = s.info.callback
  timerTaskId : s'.info.timerTaskId = s.info.timerTaskId
  badAccess : s'.info.badAccess = s.info.badAccess

theorem timerStep_frame (ha : s.info.alive = true) {parsed : Bool}
    (h : SofaBolt.timerStep parsed s = some s') :
    s.timer ≠ .none ∧ s'.timer ≠ .none ∧ s'.loop = s.loop ∧ SameFrame s s' := by
  have htouch : s.info.touch.badAccess = s.info.badAccess := by simp [SessionInfo.touch, ha]
  rcases timerStep_cases h with ⟨ht, rfl⟩ | ⟨pc, ht, rfl⟩ | ⟨ht, rfl⟩ | ⟨ht, rfl⟩
  · exact ⟨by simp [ht], by simp, rfl, rfl, rfl, ha, rfl, rfl, rfl⟩
  · obtain ⟨h₁, h₂, h₃, h₄⟩ := notifyStep_frame .readTimeout parsed s.info pc
    refine ⟨by simp [ht], ?_, rfl, rfl, rfl, h₁.trans ha, h₂, h₃, by rw [h₄, ha]; simp⟩
    cases (notifyStep .readTimeout parsed s.info pc).2 <;> rintro ⟨⟩
  · exact ⟨by simp [ht], by simp, rfl, rfl, rfl, ha, rfl, rfl, htouch⟩
  · exact ⟨by simp [ht], by simp, rfl, rfl, rfl, ha, rfl, rfl, htouch⟩

theorem loopStep_frame (ha : s.info.alive = true) {parsed : Bool}
    (h : SofaBolt.loopStep parsed s = some s') :
    s.loop ≠ .idle ∧ s'.timer = s.timer ∧ SameFrame s s' := by
  obtain ⟨pc, hl, rfl⟩ := loopStep_cases h
  obtain ⟨h₁, h₂, h₃, h₄⟩ := notifyStep_frame .sessionOk parsed s.info pc
  exact ⟨by simp [hl], rfl, rfl, rfl, h₁.trans ha, h₂, h₃, by rw [h₄, ha]; simp⟩

theorem timerStep_onPath (hp : s.timer.OnPath s.info.callback) (ht : s.info.Told) {parsed : Bool}
    (h : SofaBolt.timerStep parsed s = some s') :
    s'.timer.OnPath s.info.callback ∧ s'.info.Told := by
  rcases timerStep_cases h with ⟨-, rfl⟩ | ⟨pc, htm, rfl⟩ | ⟨-, rfl⟩ | ⟨-, rfl⟩
  · exact ⟨trivial, ht⟩
  · rw [htm] at hp
    obtain ⟨h₁, h₂⟩ := notifyStep_onPath hp ht .readTimeout parsed
    refine ⟨?_, h₂⟩
    generalize (notifyStep .readTimeout parsed s.info pc).2 = o at h₁
    cases o with
    | next pc => exact h₁
    | ret b => trivial
  · exact ⟨trivial, ht⟩
  · exact ⟨trivial, ht⟩

theorem loopStep_onPath (hp : s.loop.OnPath s.info.callback) (ht : s.info.Told) {parsed : Bool}
    (h : SofaBolt.loopStep parsed s = some s') :
    s'.loop.OnPath s.info.callback ∧ s'.info.Told := by
  obtain ⟨pc, hl, rfl⟩ := loopStep_cases h
  rw [hl] at hp
  obtain ⟨h₁, h₂⟩ := notifyStep_onPath hp ht .sessionOk parsed
  refine ⟨?_, h₂⟩
  generalize (notifyStep .sessionOk parsed s.info pc).2 = o at h₁
  cases o with
  | next pc => exact h₁
  | ret b => trivial

/-- A step of the closure; the share it releases at its end has to be there. -/
theorem Counted.timerStep (hc : s.Counted n u) (hrel : s.timer = .release → 1 ≤ n)
    {parsed : Bool} (h : SofaBolt.timerStep parsed s = some s') : ∃ n' u', s'.Counted n' u' := by
  obtain ⟨howners, hshares, htells, htl, hll⟩ := hc
  have hst := s.sender.released_le_taken
  rcases timerStep_cases h with ⟨ht, rfl⟩ | ⟨pc, ht, rfl⟩ | ⟨ht, rfl⟩ | ⟨ht, rfl⟩
  · rw [ht] at hshares htells
    exact ⟨n, u, howners, hshares, htells, False.elim, hll⟩
  · rw [ht] at hshares htells htl
    have hholds : pc.late → pc.holds = 1 := by cases pc <;> simp [NotifyPc.late, NotifyPc.holds]
    simp only [TimerPc.holds, TimerPc.won, TimerPc.released] at hshares htells
    obtain ⟨n', u', h₁, h₂, h₃, h₄, h₅⟩ := notifyStep_counts howners (by omega) htl
      (fun hl => by have := hholds hl; omega) .readTimeout parsed
    obtain ⟨hh, hw, hr, hlate⟩ := (notifyStep .readTimeout parsed s.info pc).2.timerPc_counts
    refine ⟨n', u', h₁, ?_, ?_, fun hl => h₄ (hlate hl), fun hl => h₅ (hll hl)⟩
    · dsimp only
      omega
    · dsimp only
      omega
  · rw [ht] at hshares htells htl
    exact ⟨n, u, howners, hshares, htells, htl, hll⟩
  · rw [ht] at hshares htells htl
    obtain ⟨m, rfl⟩ := Nat.exists_eq_add_of_le' (hrel ht)
    refine ⟨m, u, ?_, ?_, htells, htl, hll⟩
    · exact (congrArg releaseShared howners).trans (releaseShared_word m u)
    · simp only [TimerPc.released, TimerPc.holds, SessionInfo.touch] at hshares ⊢
      omega

theorem Counted.loopStep (hc : s.Counted n u) (hrel : s.loop.late → 1 ≤ n) {parsed : Bool}
    (h : SofaBolt.loopStep parsed s = some s') : ∃ n' u', s'.Counted n' u' := by
  obtain ⟨howners, hshares, htells, htl, hll⟩ := hc
  obtain ⟨pc, hl, rfl⟩ := loopStep_cases h
  rw [hl] at hshares htells hll hrel
  simp only [LoopPc.holds, LoopPc.won] at hshares htells
  obtain ⟨n', u', h₁, h₂, h₃, h₄, h₅⟩ := notifyStep_counts howners (by omega) hll hrel
    .sessionOk parsed
  obtain ⟨hh, hw, hlate⟩ := (notifyStep .sessionOk parsed s.info pc).2.loopPc_counts
  refine ⟨n', u', h₁, ?_, ?_, fun hl => h₅ (htl hl), fun hl => h₄ (hlate hl)⟩
  · dsimp only
    omega
  · dsimp only
    omega

structure Over (s : SessionState) : Prop where
  sender : ∃ e r, s.sender = .done e r
  timer : s.timer = .none ∨ s.timer = .done
  loop : s.loop = .idle
  place : s.place = .created ∨
    s.place = .erased ∧ s.info.results.length + s.info.invoked.length = 1

structure Sound (s : SessionState) : Prop where
  badAccess : s.info.badAccess = false
  told : s.info.Told
  timerPath : s.timer.OnPath s.info.callback
  loopPath : s.loop.OnPath s.info.callback

structure Base (s : SessionState) : Prop extends Sound s where
  counted : s.info.alive = true → ∃ n u, s.Counted n u
  dead : s.info.alive = false → s.Over
  told_le : s.info.results.length + s.info.invoked.length ≤ 1
  place : s.place ≠ .created → 2 ≤ s.sender.stage
  timer : s.timer ≠ .none → 3 ≤ s.sender.stage
  loop : s.loop ≠ .idle → s.place = .mapped

theorem base_init (callback : Bool) : Base (init callback) where
  badAccess := rfl
  told := ⟨fun _ => rfl, fun _ => rfl⟩
  timerPath := trivial
  loopPath := trivial
  counted _ := ⟨0, false, rfl, rfl, rfl, False.elim, False.elim⟩
  dead h := by cases h
  told_le := Nat.zero_le 1
  place h := absurd rfl h
  timer h := absurd rfl h
  loop h := absurd rfl h

theorem Over.step_eq_none (ho : s.Over) (a : SessionAct) : sessionStep s a = none := by
  obtain ⟨⟨e, r, hs⟩, ht, hl, hp⟩ := ho
  cases a with
  | sender n => simp [sessionStep, senderStep, hs]
  | timer parsed => rcases ht with ht | ht <;> simp [sessionStep, SofaBolt.timerStep, ht]
  | loop parsed => simp [sessionStep, SofaBolt.loopStep, hl]
  | drain => rcases hp with hp | ⟨hp, -⟩ <;> simp [sessionStep, hp]
  | reply => rcases hp with hp | ⟨hp, -⟩ <;> simp [sessionStep, hp]
  | sweep => rcases hp with hp | ⟨hp, -⟩ <;> simp [sessionStep, hp]

/-- The invariant after a step that goes on with a living session. -/
theorem Base.of_counted (hs : Sound s) (hc : s.Counted n u) (halive : s.info.alive = true)
    (hplace : s.place ≠ .created → 2 ≤ s.sender.stage)
    (htimer : s.timer ≠ .none → 3 ≤ s.sender.stage)
    (hloop : s.loop ≠ .idle → s.place = .mapped) : Base s where
  toSound := hs
  counted _ := ⟨n, u, hc⟩
  dead h := by rw [halive] at h; cases h
  told_le := by
    have htells := hc.tells
    have hu : u.toNat ≤ 1 := by cases u <;> simp
    omega
  place := hplace
  timer := htimer
  loop := hloop

theorem Base.moveSender (hb : Base s) (ha : s.info.alive = true) (id : ℕ) (pc : SenderPc)
    (hrel : pc.released = s.sender.released) (htaken : pc.taken = s.sender.taken)
    (hstage : s.sender.stage ≤ pc.stage) :
    Base { s with info := { s.info with timerTaskId := id }, sender := pc } := by
  obtain ⟨n, u, hc⟩ := hb.counted ha
  have hc' : Counted { s with info := { s.info with timerTaskId := id }, sender := pc } n u :=
    ⟨hc.owners, by rw [hrel, htaken]; exact hc.shares, hc.tells, hc.timerLate, hc.loopLate⟩
  exact .of_counted ⟨hb.badAccess, hb.told, hb.timerPath, hb.loopPath⟩ hc' ha
    (fun h => (hb.place h).trans hstage) (fun h => (hb.timer h).trans hstage) hb.loop

theorem Base.releaseSender (hb : Base s) (ha : s.info.alive = true)
    (hrel : s.sender.released = 0) (htaken : s.sender.taken = 1)
    (hn : ∀ n u, s.Counted n u → 1 ≤ n) (e : ESessionError) :
    Base { s with
      info := { s.info with owners := releaseShared s.info.owners }
      sender := .done e true } := by
  obtain ⟨n, u, hc⟩ := hb.counted ha
  obtain ⟨m, rfl⟩ := Nat.exists_eq_add_of_le' (hn n u hc)
  have hshares := hc.shares
  have hc' : Counted { s with
      info := { s.info with owners := releaseShared s.info.owners }
      sender := .done e true } m u := by
    refine ⟨?_, ?_, hc.tells, hc.timerLate, hc.loopLate⟩
    · exact (congrArg releaseShared hc.owners).trans (releaseShared_word m u)
    · simp only [SenderPc.released, SenderPc.taken]
      omega
  exact .of_counted ⟨hb.badAccess, hb.told, hb.timerPath, hb.loopPath⟩ hc' ha
    (fun _ => (by decide : 2 ≤ 3)) (fun _ => le_rfl) hb.loop

theorem Base.unshared (hb : Base s) (hs : s.sender.stage < 2) :
    s.place = .created ∧ s.timer = .none ∧ s.loop = .idle := by
  have hplace : s.place = .created := by
    by_contra hne
    have := hb.place hne
    omega
  refine ⟨hplace, ?_, ?_⟩
  · by_contra hne
    have := hb.timer hne
    omega
  · by_contra hne
    rw [hb.loop hne] at hplace
    cases hplace

structure Covered (s : SessionState) (n : ℕ) : Prop where
  sender : s.sender.Releasing → 1 ≤ n
  timer : s.timer = .release → 1 ≤ n
  loop : s.loop.late → 1 ≤ n

theorem Base.senderStep (hb : Base s) (ha : s.info.alive = true)
    (hrel : s.sender.Releasing → ∀ n u, s.Counted n u → 1 ≤ n) {k : ℕ}
    (h : SofaBolt.senderStep k s = some s') : Base s' := by
  unfold SofaBolt.senderStep at h
  rw [SessionInfo.touch_eq ha hb.badAccess] at h
  have hmove := hb.moveSender ha s.info.timerTaskId
  have hrelease := hb.releaseSender ha
  cases hs : s.sender with
  | tryShared =>
    rw [hs] at h
    obtain rfl := Option.some.inj h
    obtain ⟨n, u, hc⟩ := hb.counted ha
    have hshares := hc.shares
    have hc' : Counted { s with
        info := { s.info with owners := addShared s.info.owners }
        sender := .prepareRead } (n + 1) u := by
      refine ⟨?_, ?_, hc.tells, hc.timerLate, hc.loopLate⟩
      · exact (congrArg addShared hc.owners).trans (addShared_word n u)
      · rw [hs] at hshares
        simp only [SenderPc.released, SenderPc.taken] at hshares ⊢
        omega
    have hstage : s.sender.stage ≤ SenderPc.stage .prepareRead := by rw [hs]; decide
    exact .of_counted ⟨hb.badAccess, hb.told, hb.timerPath, hb.loopPath⟩ hc' ha
      (fun h => (hb.place h).trans hstage) (fun h => (hb.timer h).trans hstage) hb.loop
  | prepareRead =>
    rw [hs] at h
    obtain ⟨hplace, htimer, hloop⟩ := hb.unshared (by rw [hs]; decide)
    simp only at h
    split_ifs at h with hk
    · -- refused: the session dies with no other thread in it
      obtain rfl := Option.some.inj h
      exact { hb with
        counted := fun h => by cases h
        dead := fun _ => ⟨⟨_, _, rfl⟩, Or.inl htimer, hloop, Or.inl hplace⟩
        place := fun h => absurd hplace h
        timer := fun h => absurd htimer h
        loop := fun h => absurd hloop h }
    · obtain rfl := Option.some.inj h
      obtain ⟨n, u, hc⟩ := hb.counted ha
      have hc' : Counted { s with place := .queued, sender := .addTimeschdule } n u :=
        ⟨hc.owners, by have := hc.shares; rw [hs] at this; exact this, hc.tells, hc.timerLate,
          hc.loopLate⟩
      exact .of_counted ⟨hb.badAccess, hb.told, hb.timerPath, hb.loopPath⟩ hc' ha
        (fun _ => le_rfl) (fun h => absurd htimer h) (fun h => absurd hloop h)
  | addTimeschdule =>
    rw [hs] at h
    obtain rfl := Option.some.inj h
    -- the closure is queued by this step and not before
    have htimer : s.timer = .none := by
      by_contra hne
      have := hb.timer hne
      rw [hs] at this
      exact absurd this (by decide)
    obtain ⟨n, u, hc⟩ := hb.counted ha
    have hc' : Counted { s with
        timer := if k = 0 then s.timer else .queued
        sender := .storeTaskId k } n u := by
      have hshares := hc.shares
      have htells := hc.tells
      rw [htimer] at hshares htells
      rw [hs] at hshares
      refine ⟨hc.owners, ?_, ?_, ?_, hc.loopLate⟩
      · rw [htimer]
        split_ifs <;> exact hshares
      · rw [htimer]
        split_ifs <;> exact htells
      · rw [htimer]
        split_ifs <;> exact False.elim
    have hpath : (if k = 0 then s.timer else TimerPc.queued).OnPath s.info.callback := by
      rw [htimer]
      split_ifs <;> trivial
    exact .of_counted ⟨hb.badAccess, hb.told, hpath, hb.loopPath⟩ hc' ha
      (fun _ => by simp [SenderPc.stage]) (fun _ => by simp [SenderPc.stage]) hb.loop
  | storeTaskId id =>
    rw [hs] at h
    obtain rfl := Option.some.inj h
    exact hb.moveSender ha id _ (by rw [hs]; rfl) (by rw [hs]; rfl) (by rw [hs]; rfl)
  | testTaskId =>
    rw [hs] at h
    obtain rfl := Option.some.inj h
    apply hmove
    all_goals rw [hs]; split_ifs <;> decide
  | releaseTimerBusy =>
    rw [hs] at h hrelease hrel
    obtain rfl := Option.some.inj h
    exact hrelease rfl rfl (hrel trivial) .timerBusy
  | write =>
    rw [hs] at h
    obtain rfl := Option.some.inj h
    apply hmove
    all_goals rw [hs]; split_ifs <;> decide
  | removeTimeschdule =>
    rw [hs] at h
    obtain rfl := Option.some.inj h
    apply hmove
    all_goals rw [hs]; decide
  | releaseWriteFail =>
    rw [hs] at h hrelease hrel
    obtain rfl := Option.some.inj h
    exact hrelease rfl rfl (hrel trivial) .writeFail
  | testCallback =>
    rw [hs] at h
    obtain rfl := Option.some.inj h
    apply hmove
    all_goals rw [hs]; cases s.info.callback <;> decide
  | waitResult =>
    rw [hs] at h
    cases hr : s.info.results with
    | nil => simp [hr] at h
    | cons e es =>
      rw [hr] at h
      obtain rfl := Option.some.inj h
      apply hmove
      all_goals rw [hs]; rfl
  | postProcess e =>
    rw [hs] at h
    obtain rfl := Option.some.inj h
    apply hmove
    all_goals rw [hs]; rfl
  | releaseSync e =>
    rw [hs] at h hrelease hrel
    obtain rfl := Option.some.inj h
    exact hrelease rfl rfl (hrel trivial) e
  | done e r => simp [hs] at h

theorem Base.timerStep (hb : Base s) (ha : s.info.alive = true)
    (hrel : s.timer = .release → ∀ n u, s.Counted n u → 1 ≤ n) {parsed : Bool}
    (h : SofaBolt.timerStep parsed s = some s') : Base s' := by
  obtain ⟨n, u, hc⟩ := hb.counted ha
  obtain ⟨n', u', hc'⟩ := hc.timerStep (fun ht => hrel ht n u hc) h
  obtain ⟨hpath, htold⟩ := timerStep_onPath hb.timerPath hb.told h
  obtain ⟨hne, -, hloop, hf⟩ := timerStep_frame ha h
  refine .of_counted ⟨hf.badAccess.trans hb.badAccess, htold, ?_, ?_⟩ hc' hf.alive ?_ ?_ ?_
  · rwa [hf.callback]
  · rw [hloop, hf.callback]
    exact hb.loopPath
  · rw [hf.place, hf.sender]
    exact hb.place
  · intro _
    rw [hf.sender]
    exact hb.timer hne
  · rw [hf.place, hloop]
    exact hb.loop

theorem Base.loopStep (hb : Base s) (ha : s.info.alive = true)
    (hrel : s.loop.late → ∀ n u, s.Counted n u → 1 ≤ n) {parsed : Bool}
    (h : SofaBolt.loopStep parsed s = some s') : Base s' := by
  obtain ⟨n, u, hc⟩ := hb.counted ha
  obtain ⟨n', u', hc'⟩ := hc.loopStep (fun hl => hrel hl n u hc) h
  obtain ⟨hpath, htold⟩ := loopStep_onPath hb.loopPath hb.told h
  obtain ⟨hne, htimer, hf⟩ := loopStep_frame ha h
  refine .of_counted ⟨hf.badAccess.trans hb.badAccess, htold, ?_, ?_⟩ hc' hf.alive ?_ ?_ ?_
  · rw [htimer, hf.callback]
    exact hb.timerPath
  · rwa [hf.callback]
  · rw [hf.place, hf.sender]
    exact hb.place
  · rw [htimer, hf.sender]
    exact hb.timer
  · intro _
    rw [hf.place]
    exact hb.loop hne

theorem Counted.of_tryExclusive (hc : s.Counted n u) {owners : ℤ}
    (hx : tryExclusive s.info.owners = some owners) : n = 0 ∧ u = true := by
  rw [hc.owners, tryExclusive, Option.ite_none_right_eq_some, word_eq_upgraded] at hx
  exact hx.1

/-- A step keeps the invariant if whoever releases a share in it finds one, and the
session is not deleted in it before the sender and the closure are done. -/
theorem Base.step_of (hb : Base s) {a : SessionAct}
    (hsender : ∀ k, a = .sender k → s.sender.Releasing → ∀ n u, s.Counted n u → 1 ≤ n)
    (htimer : ∀ parsed, a = .timer parsed → s.timer = .release → ∀ n u, s.Counted n u → 1 ≤ n)
    (hloop : ∀ parsed, a = .loop parsed → s.loop.late → ∀ n u, s.Counted n u → 1 ≤ n)
    (hsweep : a = .sweep → s.place = .mapped → s.loop = .idle → s.Counted 0 true →
      (∃ e r, s.sender = .done e r) ∧ (s.timer = .none ∨ s.timer = .done))
    (h : sessionStep s a = some s') : Base s' := by
  by_cases ha : s.info.alive = true
  swap
  · rw [(hb.dead (by simpa using ha)).step_eq_none a] at h
    cases h
  have htouch := SessionInfo.touch_eq ha hb.badAccess
  obtain ⟨n, u, hc⟩ := hb.counted ha
  cases a with
  | sender k => exact hb.senderStep ha (hsender k rfl) h
  | timer parsed => exact hb.timerStep ha (htimer parsed rfl) h
  | loop parsed => exact hb.loopStep ha (hloop parsed rfl) h
  | drain =>
    obtain ⟨hp, hs'⟩ := drain_cases h
    rw [htouch] at hs'
    subst hs'
    have hc' : Counted { s with place := .mapped } n u :=
      ⟨hc.owners, hc.shares, hc.tells, hc.timerLate, hc.loopLate⟩
    exact .of_counted ⟨hb.badAccess, hb.told, hb.timerPath, hb.loopPath⟩ hc' ha
      (fun _ => hb.place (by rw [hp.1]; decide)) hb.timer (fun _ => rfl)
  | reply =>
    obtain ⟨hp, hs'⟩ := reply_cases h
    rw [htouch] at hs'
    subst hs'
    have hc' : Counted { s with loop := .notify .tryShared } n u := by
      have hshares := hc.shares
      have htells := hc.tells
      rw [hp.2] at hshares htells
      exact ⟨hc.owners, hshares, htells, hc.timerLate, False.elim⟩
    exact .of_counted ⟨hb.badAccess, hb.told, hb.timerPath, trivial⟩ hc' ha hb.place hb.timer
      (fun _ => hp.1)
  | sweep =>
    obtain ⟨hp, ⟨owners, hx, hs'⟩ | hs'⟩ := sweep_cases h
    all_goals rw [htouch] at hs'; subst hs'
    · obtain ⟨rfl, rfl⟩ := hc.of_tryExclusive hx
      obtain ⟨hdone, htimer⟩ := hsweep rfl hp.1 hp.2 hc
      -- the bit is set, so somebody has been told
      have htold : s.info.results.length + s.info.invoked.length = 1 := by
        have htells := hc.tells
        rw [hp.2] at htells
        rcases htimer with ht | ht
        all_goals
          rw [ht] at htells
          exact htells.symm
      exact { hb with
        counted := fun h => by cases h
        dead := fun _ => ⟨hdone, htimer, hp.2, Or.inr ⟨rfl, htold⟩⟩
        place := fun _ => hb.place (by rw [hp.1]; decide)
        loop := fun h => absurd hp.2 h }
    · exact hb

/-- Every step keeps the invariant if those who release a share find one and the
session is not deleted before the sender and the closure are done. -/
theorem Base.step (hb : Base s) {a : SessionAct}
    (hcov : ∀ n u, s.Counted n u → s.Covered n)
    (hsweep : a = .sweep → s.place = .mapped → s.Counted 0 true →
      (∃ e r, s.sender = .done e r) ∧ s.timer = .done)
    (h : sessionStep s a = some s') : Base s' :=
  hb.step_of (fun _ _ hr n u hc => (hcov n u hc).sender hr)
    (fun _ _ hr n u hc => (hcov n u hc).timer hr) (fun _ _ hr n u hc => (hcov n u hc).loop hr)
    (fun ha hp _ hc => (hsweep ha hp hc).imp_right Or.inr) h

theorem senderStep_callback {k : ℕ} (h : SofaBolt.senderStep k s = some s') :
    s'.info.callback = s.info.callback := by
  unfold SofaBolt.senderStep at h
  cases hs : s.sender with
  | done e r => simp [hs] at h
  | prepareRead =>
    simp only [hs] at h
    split_ifs at h <;> exact Option.some.inj h ▸ rfl
  | waitResult =>
    cases hr : s.info.results with
    | nil => simp [hs, hr] at h
    | cons e es =>
      rw [hs, hr] at h
      exact Option.some.inj h ▸ rfl
  | _ =>
    rw [hs] at h
    exact Option.some.inj h ▸ rfl

theorem sessionStep_callback {a : SessionAct} (h : sessionStep s a = some s') :
    s'.info.callback = s.info.callback := by
  cases a with
  | sender k => exact senderStep_callback h
  | _ => exact (sessionStep_frame (by simp) h).callback

end SessionState

end SofaBolt
