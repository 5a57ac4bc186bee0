import SofaBolt.SessionShares

namespace SofaBolt

def ESessionError.FromNotify : ESessionError → Prop
  | .sessionOk | .readTimeout | .parseResponseFail => True
  | _ => False

theorem postProcess_fromNotify {e : ESessionError} (h : e.FromNotify) (parsed : Bool) :
    (postProcess parsed e).FromNotify := by
  unfold postProcess
  split_ifs
  · trivial
  · exact h

def SenderPc.Tracked (callback : Bool) (timer : TimerPc) (id : ℕ) : SenderPc → Prop
  | .tryShared | .prepareRead | .addTimeschdule => True
  | .storeTaskId k => timer = .none ↔ k = 0
  | .testTaskId => timer = .none ↔ id = 0
  | .releaseTimerBusy => timer = .none
  | .write | .removeTimeschdule | .releaseWriteFail | .testCallback => timer ≠ .none
  | .waitResult => timer ≠ .none ∧ callback = false
  | .postProcess e => timer ≠ .none ∧ callback = false ∧ e.FromNotify
  | .releaseSync e => timer ≠ .none ∧ callback = false ∧ e.FromNotify
  | .done .timerBusy r => timer = .none ∧ r = true
  | .done .writeFail r => timer ≠ .none ∧ r = true
  | .done e r => timer ≠ .none ∧ r = !callback ∧ e.FromNotify

theorem SenderPc.tracked_done {callback r : Bool} {timer : TimerPc} {id : ℕ} {e : ESessionError}
    (ht : timer ≠ .none) (hr : r = !callback) (he : e.FromNotify) :
    (SenderPc.done e r).Tracked callback timer id := by
  cases e <;> first | exact ⟨ht, hr, he⟩ | exact he.elim

theorem SenderPc.Tracked.of_timer {callback : Bool} {timer timer' : TimerPc} {id : ℕ}
    {pc : SenderPc} (h : pc.Tracked callback timer id) (ht : timer' = .none ↔ timer = .none) :
    pc.Tracked callback timer' id := by
  cases pc with
  | tryShared => trivial
  | prepareRead => trivial
  | addTimeschdule => trivial
  | done e r => cases e <;> simpa only [SenderPc.Tracked, ne_eq, ht] using h
  | _ => simpa only [SenderPc.Tracked, ne_eq, ht] using h

namespace SessionState

variable {s s' : SessionState} {n : ℕ} {u : Bool}

structure Tracked (s : SessionState) : Prop where
  sender : s.sender.Tracked s.info.callback s.timer s.info.timerTaskId
  placed : 2 ≤ s.sender.stage → s.place ≠ .created
  results : ∀ e ∈ s.info.results, e.FromNotify

theorem tracked_init (callback : Bool) : Tracked (init callback) where
  sender := trivial
  placed h := by simp [init, SenderPc.stage] at h
  results _ h := absurd h List.not_mem_nil

theorem timerStep_results {parsed : Bool} (h : SofaBolt.timerStep parsed s = some s')
    {e : ESessionError} (he : e ∈ s'.info.results) : e ∈ s.info.results ∨ e = .readTimeout := by
  rcases timerStep_cases h with ⟨-, rfl⟩ | ⟨pc, -, rfl⟩ | ⟨-, rfl⟩ | ⟨-, rfl⟩
  · exact Or.inl he
  · exact notifyStep_results .readTimeout parsed s.info pc he
  · exact Or.inl he
  · exact Or.inl he

theorem loopStep_results {parsed : Bool} (h : SofaBolt.loopStep parsed s = some s')
    {e : ESessionError} (he : e ∈ s'.info.results) : e ∈ s.info.results ∨ e = .sessionOk := by
  obtain ⟨pc, -, rfl⟩ := loopStep_cases h
  exact notifyStep_results .sessionOk parsed s.info pc he

theorem timerStep_ne_queued {parsed : Bool} (h : SofaBolt.timerStep parsed s = some s') :
    s'.timer ≠ .queued ∧ (s'.timer = .done → s.timer = .release) := by
  rcases timerStep_cases h with ⟨-, rfl⟩ | ⟨pc, -, rfl⟩ | ⟨-, rfl⟩ | ⟨ht, rfl⟩
  · exact ⟨(by cases ·), (by cases ·)⟩
  · cases (notifyStep .readTimeout parsed s.info pc).2 <;> exact ⟨(by cases ·), (by cases ·)⟩
  · exact ⟨(by cases ·), (by cases ·)⟩
  · exact ⟨(by cases ·), fun _ => ht⟩

/-- A step of the sender, unless it deletes the session itself. -/
theorem Tracked.senderStep (hb : Base s) (ht : Tracked s) {k : ℕ}
    (h : SofaBolt.senderStep k s = some s') (ha : s'.info.alive = true) : Tracked s' := by
  have hsender := ht.sender
  have hplaced := ht.placed
  unfold SofaBolt.senderStep at h
  cases hs : s.sender with
  | tryShared =>
    rw [hs] at h
    obtain rfl := Option.some.inj h
    exact ⟨trivial, fun h => by simp [SenderPc.stage] at h, ht.results⟩
  | prepareRead =>
    simp only [hs] at h
    split_ifs at h with hk
    · obtain rfl := Option.some.inj h
      cases ha
    · obtain rfl := Option.some.inj h
      exact ⟨trivial, fun _ => by simp, ht.results⟩
  | addTimeschdule =>
    have htimer : s.timer = .none := by
      by_contra hne
      have hstage := hb.timer hne
      rw [hs] at hstage
      exact absurd hstage (by decide)
    rw [hs] at h hplaced
    obtain rfl := Option.some.inj h
    refine ⟨?_, fun _ => hplaced le_rfl, ht.results⟩
    simp only [SenderPc.Tracked, htimer]
    split_ifs with hk <;> simp [hk]
  | storeTaskId id =>
    rw [hs] at h hsender hplaced
    obtain rfl := Option.some.inj h
    exact ⟨hsender, hplaced, ht.results⟩
  | testTaskId =>
    -- id 0 and no closure are the same thing, so the test reads whether one is queued
    rw [hs] at h hsender hplaced
    obtain rfl := Option.some.inj h
    refine ⟨?_, fun _ => hplaced (by decide), ht.results⟩
    change SenderPc.Tracked _ s.timer _ _
    by_cases hid : s.info.timerTaskId = 0
    · rw [if_pos hid]
      exact hsender.mpr hid
    · rw [if_neg hid]
      exact fun hnone => hid (hsender.mp hnone)
  | releaseTimerBusy =>
    rw [hs] at h hsender hplaced
    obtain rfl := Option.some.inj h
    exact ⟨⟨hsender, rfl⟩, hplaced, ht.results⟩
  | write =>
    rw [hs] at h hsender hplaced
    obtain rfl := Option.some.inj h
    refine ⟨?_, fun _ => hplaced (by decide), ht.results⟩
    change SenderPc.Tracked _ s.timer _ _
    split_ifs <;> exact hsender
  | removeTimeschdule =>
    rw [hs] at h hsender hplaced
    obtain rfl := Option.some.inj h
    exact ⟨hsender, hplaced, ht.results⟩
  | releaseWriteFail =>
    rw [hs] at h hsender hplaced
    obtain rfl := Option.some.inj h
    exact ⟨⟨hsender, rfl⟩, hplaced, ht.results⟩
  | testCallback =>
    rw [hs] at h hsender hplaced
    obtain rfl := Option.some.inj h
    refine ⟨?_, fun _ => hplaced (by decide), ht.results⟩
    change SenderPc.Tracked s.info.callback s.timer _ _
    cases hcb : s.info.callback with
    | true => exact ⟨hsender, rfl, trivial⟩
    | false => exact ⟨hsender, rfl⟩
  | waitResult =>
    rw [hs] at h hsender hplaced
    have hres := ht.results
    cases hr : s.info.results with
    | nil => simp [hr] at h
    | cons e es =>
      rw [hr] at h hres
      obtain rfl := Option.some.inj h
      exact ⟨⟨hsender.1, hsender.2, hres e (List.mem_cons_self ..)⟩, hplaced, ht.results⟩
  | postProcess e =>
    rw [hs] at h hsender hplaced
    obtain rfl := Option.some.inj h
    exact ⟨⟨hsender.1, hsender.2.1, postProcess_fromNotify hsender.2.2 _⟩, hplaced, ht.results⟩
  | releaseSync e =>
    rw [hs] at h hsender hplaced
    obtain rfl := Option.some.inj h
    obtain ⟨hne, hcb, he⟩ := hsender
    exact ⟨SenderPc.tracked_done hne (by simp [hcb, SessionInfo.touch]) he, hplaced, ht.results⟩
  | done e r => simp [hs] at h

theorem Tracked.step (hb : Base s) (ht : Tracked s) (halive : s.info.alive = true)
    {a : SessionAct} (h : sessionStep s a = some s') (ha : s'.info.alive = true) :
    Tracked s' := by
  cases a with
  | sender k => exact ht.senderStep hb h ha
  | timer parsed =>
    obtain ⟨hne, hne', -, hf⟩ := timerStep_frame halive h
    refine ⟨?_, ?_, fun e he => ?_⟩
    · rw [hf.sender, hf.callback, hf.timerTaskId]
      exact ht.sender.of_timer ⟨fun h => absurd h hne', fun h => absurd h hne⟩
    · rw [hf.sender, hf.place]
      exact ht.placed
    · rcases timerStep_results h he with he | rfl
      · exact ht.results e he
      · trivial
  | loop parsed =>
    obtain ⟨-, htimer, hf⟩ := loopStep_frame halive h
    refine ⟨?_, ?_, fun e he => ?_⟩
    · rw [hf.sender, hf.callback, hf.timerTaskId, htimer]
      exact ht.sender
    · rw [hf.sender, hf.place]
      exact ht.placed
    · rcases loopStep_results h he with he | rfl
      · exact ht.results e he
      · trivial
  | drain =>
    obtain ⟨-, rfl⟩ := drain_cases h
    exact ⟨ht.sender, fun _ => by simp, ht.results⟩
  | reply =>
    obtain ⟨-, rfl⟩ := reply_cases h
    exact ⟨ht.sender, ht.placed, ht.results⟩
  | sweep =>
    obtain ⟨-, ⟨owners, -, rfl⟩ | rfl⟩ := sweep_cases h
    · cases ha
    · exact ⟨ht.sender, ht.placed, ht.results⟩

end SessionState

end SofaBolt
