import SofaBolt.ThreadPoolOnce

namespace SofaBolt

namespace SPMCQueue

open SPMC RingIndex

variable {α : Type*} {size : ℕ} {q q' : SPMCQueue α}

/-- As long as the indices are not used up, only a full queue refuses. -/
theorem Ok.full {val : α} {write : ℕ} (h : Ok size q) (hp : ProducerOk q (.loadRead val write))
    (hidx : q.readIdx + q.capacity < 2 ^ 64) (hfull : isFull q.capacity q.readIdx write = true) :
    q.unread = size := by
  cases h with
  | zero => rfl
  | power hw =>
    have hrefused : q.pushStep (.loadRead val write) = some (q, .returned false) := by
      rw [SPMCQueue.pushStep, hfull, if_pos rfl]
    rw [hw.capacity] at hidx
    exact (hw.full hp hrefused).resolve_right (not_le.mpr hidx)

theorem pushStep_pushed {pc pc' : SPMC.PushPc α} (h : q.pushStep pc = some (q', pc')) :
    q.pushed <+: q'.pushed := by
  cases pc with
  | publish val write =>
    cases h
    exact List.prefix_append _ _
  | idle => cases h
  | returned result => cases h
  | _ =>
    cases h
    exact List.prefix_refl _

theorem popStep_pushed {pc pc' : SPMC.PopPc α} (h : q.popStep pc = some (q', pc')) :
    q'.pushed = q.pushed := by
  cases pc with
  | claim read val =>
    rw [SPMCQueue.popStep] at h
    split_ifs at h <;> cases h <;> rfl
  | idle => cases h
  | returned result val => cases h
  | _ =>
    cases h
    rfl

end SPMCQueue

namespace ThreadPool

def Submitter.made (u : Submitter) : Option ℕ :=
  match u.pc with
  | .storeActive _ i | .addActive _ i | .setSpecific _ i => some i
  | _ => u.paired

namespace Pool

open SPMC RingIndex Run

variable {s s' : Pool} {i j w x : ℕ} {u u' : Submitter} {td td' : SingleThread}
  {tds : List SingleThread} {a : Act}

/-- The pool is not being destroyed; the second compare-exchange of
`deleteThreadLocalPairThread` fails; and the indices of the queue a thread pushes to are not
used up. -/
def Open (s : Pool) : Act → Prop
  | .submit _ | .endThread _ | .worker _ | .destructor => True
  | .destroy => False
  | .submitter j => ∀ u ∈ s.submitters[j]?,
    (∀ status ∈ u.pc.again, ∀ w ∈ u.paired, ∀ td ∈ s.tds[w]?, td.status ≠ status) ∧
      ∀ w ∈ u.pc.target, ∀ td ∈ s.tds[w]?, ∀ q ∈ td.tasks, q.readIdx + q.capacity < 2 ^ 64

instance (s : Pool) : (a : Act) → Decidable (Open s a)
  | .submit _ | .endThread _ | .worker _ | .destructor => instDecidableTrue
  | .destroy => instDecidableFalse
  | .submitter j => inferInstanceAs (Decidable (∀ u ∈ s.submitters[j]?,
    (∀ status ∈ u.pc.again, ∀ w ∈ u.paired, ∀ td ∈ s.tds[w]?, td.status ≠ status) ∧
      ∀ w ∈ u.pc.target, ∀ td ∈ s.tds[w]?, ∀ q ∈ td.tasks, q.readIdx + q.capacity < 2 ^ 64))

theorem tasksOf_set_self (htd : tds[w]? = some td) (td' : SingleThread) :
    tasksOf (tds.set w td') w = td'.tasks := by
  rw [tasksOf_set htd, Function.update_self]

def Grows (tds tds' : List SingleThread) : Prop :=
  ∀ w q, tasksOf tds w = some q → ∃ q', tasksOf tds' w = some q' ∧ q.pushed <+: q'.pushed

theorem Grows.refl (tds : List SingleThread) : Grows tds tds :=
  fun _ q hq => ⟨q, hq, List.prefix_refl _⟩

theorem Grows.set (htd : tds[w]? = some td)
    (h : ∀ q, td.tasks = some q → ∃ q', td'.tasks = some q' ∧ q.pushed <+: q'.pushed) :
    Grows tds (tds.set w td') := by
  intro v q hq
  by_cases hvw : v = w
  · subst hvw
    rw [tasksOf_set_self htd]
    rw [tasksOf, htd, Option.bind_some] at hq
    exact h q hq
  · rw [tasksOf_set htd, Function.update_of_ne hvw]
    exact ⟨q, hq, List.prefix_refl _⟩

theorem Grows.set_same (htd : tds[w]? = some td) (h : td'.tasks = td.tasks) :
    Grows tds (tds.set w td') :=
  .set htd fun q hq => ⟨q, h.trans hq, List.prefix_refl _⟩

structure Keeps (s s' : Pool) : Prop where
  exit : s'.exit = s.exit
  destructor : s'.destructor = s.destructor
  nextTask : s.nextTask ≤ s'.nextTask
  grows : Grows s.tds s'.tds

theorem WorkerMove.keeps {pc : WorkerPc} (h : WorkerMove s i pc s') :
    Keeps s s' ∧ s'.submitters = s.submitters := by
  cases h with
  | quiet => exact ⟨⟨rfl, rfl, le_rfl, Grows.refl _⟩, rfl⟩
  | execute => exact ⟨⟨rfl, rfl, le_rfl, Grows.refl _⟩, rfl⟩
  | standby _ htd => exact ⟨⟨rfl, rfl, le_rfl, .set_same htd rfl⟩, rfl⟩
  | pop _ htd htk hstep =>
    refine ⟨⟨rfl, rfl, le_rfl, .set htd fun q hq => ?_⟩, rfl⟩
    obtain rfl := Option.some.inj (htk.symm.trans hq)
    exact ⟨_, rfl, (SPMCQueue.popStep_pushed hstep).symm ▸ List.prefix_refl _⟩

structure SubmitterMove (s : Pool) (j : ℕ) (u u' : Submitter) (s' : Pool) : Prop where
  submitters : s'.submitters = s.submitters.set j u'
  hand : ∀ y ∈ u'.pc.hand, y ∈ u.pc.hand
  made : ∀ w ∈ u'.made, w ∈ u.made ∨ (tasksOf s'.tds w).isSome
  keeps : Keeps s s'

theorem SubmitterMove.quiet {mtx : Option ℕ} {active : ℕ} {locked : Bool} {ws : List WorkerPc}
    {executed returned : List ℕ} (hhand : ∀ y ∈ u'.pc.hand, y ∈ u.pc.hand)
    (hmade : ∀ w ∈ u'.made, w ∈ u.made) :
    SubmitterMove s j u u' { s with
      tdMtx := mtx
      activeTdSize := active
      wakeupMtx := locked
      workers := ws
      executed := executed
      returned := returned
      submitters := s.submitters.set j u' } :=
  ⟨rfl, hhand, fun w hw => Or.inl (hmade w hw), rfl, rfl, le_rfl, Grows.refl _⟩

theorem submitterStep_move {paired : Option ℕ} {pc : SubmitPc}
    (h : s.submitterStep j paired pc = some s') : ∃ u', SubmitterMove s j ⟨pc, paired⟩ u' s' := by
  cases pc with
  | idle => cases h
  | ended => cases h
  | testExit x =>
    cases h
    split_ifs <;> exact ⟨_, .quiet (fun _ => id) (fun _ => id)⟩
  | loadActive x =>
    cases h
    split_ifs <;> exact ⟨_, .quiet (fun _ => id) (fun _ => id)⟩
  | getSpecific x =>
    cases h
    cases paired <;> exact ⟨_, .quiet (fun _ => id) (fun _ => id)⟩
  | lockTd x =>
    obtain ⟨-, h⟩ := Option.ite_none_right_eq_some.mp h
    cases h
    exact ⟨_, .quiet (fun _ => id) (fun _ => id)⟩
  | scan x n =>
    rw [submitterStep] at h
    split_ifs at h
    · obtain ⟨td, -, h⟩ := Option.map_eq_some_iff.mp h
      cases h
      split_ifs <;> exact ⟨_, .quiet (fun _ => id) (fun _ => id)⟩
    · cases h
      exact ⟨_, .quiet (fun _ => id) (fun _ => id)⟩
  | makeQueue x n =>
    obtain ⟨td, htd, h⟩ := Option.map_eq_some_iff.mp h
    cases h
    refine ⟨_, rfl, fun _ => id, fun v hv => Or.inr ?_, rfl, rfl, le_rfl, .set htd fun q hq => ?_⟩
    · obtain rfl : n = v := Option.some.inj hv
      exact Option.isSome_of_eq_some (tasksOf_set_self htd _)
    · exact ⟨q, by rw [hq]; rfl, List.prefix_refl _⟩
  | storeActive x n =>
    obtain ⟨td, htd, h⟩ := Option.map_eq_some_iff.mp h
    cases h
    exact ⟨_, rfl, fun _ => id, fun _ => Or.inl, rfl, rfl, le_rfl, .set_same htd rfl⟩
  | addActive x n =>
    cases h
    exact ⟨_, .quiet (fun _ => id) (fun _ => id)⟩
  | setSpecific x n =>
    cases h
    exact ⟨_, .quiet (fun _ => id) (fun _ => id)⟩
  | unlockTd x found =>
    cases h
    cases found <;> exact ⟨_, .quiet (fun _ => id) (fun _ => id)⟩
  | push x w pc =>
    cases pc with
    | returned result =>
      cases h
      cases result <;> exact ⟨_, .quiet (fun _ => id) (fun _ => id)⟩
    | _ =>
      obtain ⟨td, htd, h⟩ := Option.bind_eq_some_iff.mp h
      obtain ⟨q, htk, h⟩ := Option.bind_eq_some_iff.mp h
      obtain ⟨⟨q', pc'⟩, hstep, h⟩ := Option.map_eq_some_iff.mp h
      cases h
      refine ⟨_, rfl, fun y hy => ?_, fun _ => Or.inl, rfl, rfl, le_rfl, .set htd fun q₀ hq₀ => ?_⟩
      · cases pc' with
        | returned result => cases result <;> first | exact hy | cases hy
        | _ => exact hy
      · obtain rfl := Option.some.inj (htk.symm.trans hq₀)
        exact ⟨q', rfl, SPMCQueue.pushStep_pushed hstep⟩
  | runInline x =>
    cases h
    exact ⟨_, .quiet (fun _ hy => by cases hy) (fun _ => id)⟩
  | loadWakeup x =>
    cases h
    split_ifs <;> exact ⟨_, .quiet (fun _ => id) (fun _ => id)⟩
  | lockWakeup x =>
    rw [submitterStep] at h
    split_ifs at h
    cases h
    exact ⟨_, .quiet (fun _ => id) (fun _ => id)⟩
  | notify x =>
    cases h
    exact ⟨_, .quiet (fun _ => id) (fun _ => id)⟩
  | ret x =>
    cases h
    exact ⟨_, .quiet (fun _ => id) (fun _ => id)⟩
  | deleteLoad =>
    obtain ⟨w, rfl, h⟩ := Option.bind_eq_some_iff.mp h
    obtain ⟨td, htd, h⟩ := Option.map_eq_some_iff.mp h
    cases h
    exact ⟨_, .quiet (fun _ => id) (fun _ => id)⟩
  | deleteCas status again =>
    obtain ⟨w, rfl, h⟩ := Option.bind_eq_some_iff.mp h
    obtain ⟨td, htd, h⟩ := Option.map_eq_some_iff.mp h
    split_ifs at h <;> cases h
    · exact ⟨_, rfl, fun _ => id, fun _ => Or.inl, rfl, rfl, le_rfl, .set_same htd rfl⟩
    · exact ⟨_, rfl, fun _ => id, fun _ => Or.inl, rfl, rfl, le_rfl, .set_same htd rfl⟩
    · exact ⟨_, .quiet (fun _ => id) (fun _ => id)⟩

structure Live (s : Pool) : Prop where
  inv : Inv s
  exit : s.exit = false
  destructor : s.destructor = .idle
  made : ∀ u ∈ s.submitters, ∀ w ∈ u.made, (tasksOf s.tds w).isSome

theorem live_init (capacity queueSize submitters : ℕ)
    (hsize : queueSize = 0 ∨ ∃ k, queueSize = 2 ^ k) :
    Live (init capacity queueSize submitters) := by
  refine ⟨inv_init capacity queueSize submitters hsize, rfl, rfl, fun u hu w hw => ?_⟩
  rw [List.eq_of_mem_replicate hu] at hw
  cases hw

/-- No submitting thread moves; or one does, or begins something, and then the only task it
may take up is a new one. -/
inductive Moved (s : Pool) (a : Act) (s' : Pool) : Prop where
  | none : s'.submitters = s.submitters → Moved s a s'
  | one {i : ℕ} {u u' : Submitter} : s.submitters[i]? = some u →
    s'.submitters = s.submitters.set i u' → (a = .submitter i ∨ u.pc = .idle) →
    (∀ y ∈ u'.pc.hand, y ∈ u.pc.hand ∨ y = s.nextTask) →
    (∀ w ∈ u'.made, w ∈ u.made ∨ (tasksOf s'.tds w).isSome) → Moved s a s'

theorem Live.moved (hl : Live s) (ho : Open s a) (h : s.step a = some s') :
    Keeps s s' ∧ Moved s a s' := by
  cases a with
  | submit i =>
    obtain ⟨u, hu, h⟩ := Option.bind_eq_some_iff.mp h
    obtain ⟨hidle, h⟩ := Option.ite_none_right_eq_some.mp h
    cases h
    refine ⟨⟨rfl, rfl, Nat.le_succ _, Grows.refl _⟩, .one hu rfl (Or.inr hidle) ?_ ?_⟩
    · exact fun y hy => Or.inr (List.mem_singleton.mp hy)
    · intro w hw
      rw [Submitter.made, hidle]
      exact Or.inl hw
  | endThread i =>
    obtain ⟨u, hu, h⟩ := Option.bind_eq_some_iff.mp h
    obtain ⟨hidle, h⟩ := Option.ite_none_right_eq_some.mp h
    cases h
    refine ⟨⟨rfl, rfl, le_rfl, Grows.refl _⟩, .one hu rfl (Or.inr hidle) ?_ ?_⟩
    · intro y hy
      split_ifs at hy <;> cases hy
    · intro w hw
      rw [Submitter.made, hidle]
      refine Or.inl ?_
      split_ifs at hw <;> exact hw
  | destroy => exact ho.elim
  | worker i =>
    obtain ⟨pc, hw, h⟩ := Option.bind_eq_some_iff.mp h
    have hstale : s.exit = true → pc.stale = none := by
      intro hexit
      rw [hl.exit] at hexit
      cases hexit
    obtain ⟨hkeeps, hsame⟩ := (workerStep_move hstale h).keeps
    exact ⟨hkeeps, .none hsame⟩
  | submitter i =>
    obtain ⟨u, hu, h⟩ := Option.bind_eq_some_iff.mp h
    obtain ⟨u', hm⟩ := submitterStep_move h
    exact ⟨hm.keeps, .one hu hm.submitters (Or.inl rfl) (fun y hy => Or.inl (hm.hand y hy)) hm.made⟩
  | destructor =>
    rw [step, hl.destructor] at h
    cases h

theorem Live.step (hl : Live s) (ho : Open s a) (h : s.step a = some s') : Live s' := by
  obtain ⟨hkeeps, hmoved⟩ := hl.moved ho h
  have hgrow : ∀ w, (tasksOf s.tds w).isSome → (tasksOf s'.tds w).isSome := by
    intro w hw
    obtain ⟨q, hq⟩ := Option.isSome_iff_exists.mp hw
    obtain ⟨q', hq', -⟩ := hkeeps.grows w q hq
    exact Option.isSome_iff_exists.mpr ⟨q', hq'⟩
  refine ⟨?_, hkeeps.exit.trans hl.exit, hkeeps.destructor.trans hl.destructor, fun u hu w hw => ?_⟩
  · cases a with
    | submit i => exact hl.inv.submit h
    | endThread i => exact hl.inv.endThread h
    | destroy => exact ho.elim
    | worker i =>
      obtain ⟨pc, hw, h⟩ := Option.bind_eq_some_iff.mp h
      refine hl.inv.workerStep hw (fun hexit => ?_) h
      rw [hl.exit] at hexit
      cases hexit
    | submitter i =>
      obtain ⟨u, hu, h⟩ := Option.bind_eq_some_iff.mp h
      exact hl.inv.submitter hu (ho u hu).1 h
    | destructor =>
      rw [Pool.step, hl.destructor] at h
      cases h
  · cases hmoved with
    | none hsame => exact hgrow w (hl.made u (hsame ▸ hu) w hw)
    | one hi hset _ _ hmade =>
      rw [hset] at hu
      rcases List.mem_or_eq_of_mem_set hu with hu | rfl
      · exact hgrow w (hl.made u hu w hw)
      · rcases hmade w hw with hold | hnew
        · exact hgrow w (hl.made _ (mem_of_getElem? hi) w hold)
        · exact hnew

def PushedTo (s : Pool) (w x : ℕ) : Prop := ∃ q, tasksOf s.tds w = some q ∧ x ∈ q.pushed

def FullFor (s : Pool) (j w x : ℕ) : Prop :=
  (∃ write, s.submitters[j]? = some ⟨.push x w (.loadRead x write), some w⟩) ∧
    ∃ q, tasksOf s.tds w = some q ∧ q.unread = s.queueSize

theorem PushedTo.keeps (h : PushedTo s w x) (hk : Keeps s s') : PushedTo s' w x := by
  obtain ⟨q, hq, hx⟩ := h
  obtain ⟨q', hq', hle⟩ := hk.grows w q hq
  exact ⟨q', hq', hle.subset hx⟩

/-- Where a paired thread is after `n` steps of a `submit`, when it is past the test of
`_active_td_size`; `refused` is set if the queue was full. -/
inductive Stage (x w : ℕ) : ℕ → Bool → SubmitPc → Prop where
  | testExit : Stage x w 0 false (.testExit x)
  | loadActive : Stage x w 1 false (.loadActive x)
  | getSpecific : Stage x w 2 false (.getSpecific x)
  | loadWrite : Stage x w 3 false (.push x w (.loadWrite x))
  | loadRead (write : ℕ) : Stage x w 4 false (.push x w (.loadRead x write))
  | store (write : ℕ) : Stage x w 5 false (.push x w (.store x write))
  | publish (write : ℕ) : Stage x w 6 false (.push x w (.publish x write))
  | refused : Stage x w 5 true (.push x w (.returned false))
  | runInline : Stage x w 6 true (.runInline x)

theorem submitterStep_push {paired : Option ℕ} {pc pc' : SPMC.PushPc ℕ} {q q' : SPMCQueue ℕ}
    (htd : s.tds[w]? = some td) (hq : td.tasks = some q) (h : q.pushStep pc = some (q', pc')) :
    s.submitterStep j paired (.push x w pc) = some { s with
      tds := s.tds.set w { td with tasks := some q' }
      submitters := s.submitters.set j ⟨.push x w pc', paired⟩ } := by
  cases pc with
  | returned result => cases h
  | _ => simp only [submitterStep, htd, hq, h, Option.bind_some, Option.map_some]

theorem Live.tasks (hl : Live s) (hj : s.submitters[j]? = some u) (hw : w ∈ u.made) :
    ∃ td q, s.tds[w]? = some td ∧ td.tasks = some q ∧ tasksOf s.tds w = some q := by
  obtain ⟨q, hq⟩ := Option.isSome_iff_exists.mp (hl.made u (mem_of_getElem? hj) w hw)
  obtain ⟨td, htd, htk⟩ := Option.bind_eq_some_iff.mp hq
  exact ⟨td, q, htd, htk, hq⟩

section Stage

variable {n : ℕ} {refused : Bool} {pc : SubmitPc}

theorem Stage.lt (h : Stage x w n refused pc) : n < 7 := by
  cases h <;> decide

theorem Stage.ne_idle (h : Stage x w n refused pc) : pc ≠ .idle := by
  cases h <;> exact SubmitPc.noConfusion

theorem Stage.refused_of_runInline (h : Stage x w n refused pc) (hpc : pc = .runInline x) :
    refused = true := by
  cases h <;> first | rfl | cases hpc

theorem Stage.made (h : Stage x w n refused pc) : w ∈ Submitter.made ⟨pc, some w⟩ := by
  cases h <;> rfl

theorem Live.enabled (hl : Live s) (hj : s.submitters[j]? = some ⟨pc, some w⟩)
    (hst : Stage x w n refused pc) : (s.step (.submitter j)).isSome := by
  obtain ⟨td, q, htd, htk, -⟩ := hl.tasks hj hst.made
  rw [Pool.step, hj, Option.bind_some]
  cases hst with
  | loadWrite => exact Option.isSome_of_eq_some (submitterStep_push htd htk rfl)
  | loadRead write => exact Option.isSome_of_eq_some (submitterStep_push htd htk rfl)
  | store write => exact Option.isSome_of_eq_some (submitterStep_push htd htk rfl)
  | publish write => exact Option.isSome_of_eq_some (submitterStep_push htd htk rfl)
  | _ => rfl

inductive Next (s s' : Pool) (j w x n : ℕ) (refused : Bool) : Prop where
  | stage {refused' : Bool} {pc : SubmitPc} : s'.submitters[j]? = some ⟨pc, some w⟩ →
    Stage x w (n + 1) refused' pc → (refused' = true → refused = true ∨ FullFor s j w x) →
    Next s s' j w x n refused
  | inlined : n = 6 → refused = true → Next s s' j w x n refused
  | pushed {u : Submitter} : n = 6 → PushedTo s' w x → s'.submitters[j]? = some u →
    u.pc.hand = [] → Next s s' j w x n refused

theorem Live.next (hl : Live s) (ho : Open s (.submitter j))
    (hspare : pc = .loadActive x → s.activeTdSize ≠ s.tdCapacity)
    (hj : s.submitters[j]? = some ⟨pc, some w⟩) (hst : Stage x w n refused pc)
    (h : s.step (.submitter j) = some s') : Next s s' j w x n refused := by
  have hset : ∀ u', (s.submitters.set j u')[j]? = some u' := fun u' =>
    List.getElem?_set_self (List.getElem?_eq_some_iff.mp hj).1
  obtain ⟨td, q, htd, htk, hq⟩ := hl.tasks hj hst.made
  rw [Pool.step, hj, Option.bind_some] at h
  cases hst with
  | testExit =>
    cases h
    refine .stage ?_ .loadActive (fun h => by cases h)
    rw [hl.exit]
    exact hset _
  | loadActive =>
    cases h
    refine .stage ?_ .getSpecific (fun h => by cases h)
    rw [if_neg (hspare rfl)]
    exact hset _
  | getSpecific =>
    cases h
    exact .stage (hset _) .loadWrite (fun h => by cases h)
  | loadWrite =>
    cases (submitterStep_push htd htk rfl).symm.trans h
    exact .stage (hset _) (.loadRead q.writeIdx) (fun h => by cases h)
  | loadRead write =>
    cases (submitterStep_push htd htk rfl).symm.trans h
    cases hfull : isFull q.capacity q.readIdx write with
    | true =>
      refine .stage (hset _) .refused fun _ => Or.inr ⟨⟨write, hj⟩, q, hq, ?_⟩
      exact (hl.inv.queued.ok w q hq).full (hl.inv.queued.producer hj hq).1
        ((ho _ hj).2 w rfl td htd q htk) hfull
    | false => exact .stage (hset _) (.store write) (fun h => by cases h)
  | store write =>
    cases (submitterStep_push htd htk rfl).symm.trans h
    exact .stage (hset _) (.publish write) (fun h => by cases h)
  | publish write =>
    cases (submitterStep_push htd htk rfl).symm.trans h
    refine .pushed rfl ⟨_, tasksOf_set_self htd _, ?_⟩ (hset _) rfl
    exact List.mem_append_right _ (List.mem_singleton.mpr rfl)
  | refused =>
    cases h
    exact .stage (hset _) .runInline Or.inl
  | runInline => exact .inlined rfl rfl

end Stage

/-- When the thread compares `_active_td_size` with `_td_capacity` for this task, they
differ. -/
def Spare (s : Pool) (j x : ℕ) (a : Act) : Prop :=
  a = .submitter j → ∀ u ∈ s.submitters[j]?, u.pc = .loadActive x → s.activeTdSize ≠ s.tdCapacity

instance (s : Pool) (j x : ℕ) (a : Act) : Decidable (Spare s j x a) := by
  unfold Spare
  infer_instance

def FoundFull (s : Pool) (as : List Act) (j w x : ℕ) : Prop :=
  ∃ bs m, bs ++ [.submitter j] <+: as ∧ run step s bs = some m ∧ FullFor m j w x

theorem FoundFull.append {as : List Act} (h : FoundFull s as j w x) (a : Act) :
    FoundFull s (as ++ [a]) j w x := by
  obtain ⟨bs, m, hpre, hrest⟩ := h
  exact ⟨bs, m, hpre.trans (List.prefix_append as [a]), hrest⟩

inductive Progress (s₀ : Pool) (as : List Act) (j w x : ℕ) (s : Pool) : Prop where
  | stage {refused : Bool} {pc : SubmitPc} : s.submitters[j]? = some ⟨pc, some w⟩ →
    Stage x w (as.count (.submitter j)) refused pc → (refused = true → FoundFull s₀ as j w x) →
    Progress s₀ as j w x s
  | inlined : 7 ≤ as.count (.submitter j) → FoundFull s₀ as j w x → Progress s₀ as j w x s
  | pushed {u : Submitter} : 7 ≤ as.count (.submitter j) → PushedTo s w x →
    s.submitters[j]? = some u → x ∉ u.pc.hand → Progress s₀ as j w x s

theorem Moved.other (h : Moved s a s') (hj : s.submitters[j]? = some u) (hne : u.pc ≠ .idle)
    (ha : a ≠ .submitter j) : s'.submitters[j]? = some u := by
  cases h with
  | none hsame => rw [hsame, hj]
  | @one i r r' hi hset hwho _ _ =>
    have hij : i ≠ j := by
      rintro rfl
      obtain rfl : r = u := Option.some.inj (hi.symm.trans hj)
      exact hwho.elim ha hne
    rw [hset, List.getElem?_set_ne hij, hj]

/-- A thread that has put a task down does not take it up again. -/
theorem Moved.hand (h : Moved s a s') (hj : s.submitters[j]? = some u) (hx : x < s.nextTask)
    (hhand : x ∉ u.pc.hand) : ∃ u', s'.submitters[j]? = some u' ∧ x ∉ u'.pc.hand := by
  cases h with
  | none hsame => exact ⟨u, by rw [hsame, hj], hhand⟩
  | @one i r r' hi hset _ htakes _ =>
    by_cases hij : i = j
    · subst hij
      obtain rfl : r = u := Option.some.inj (hi.symm.trans hj)
      refine ⟨r', by rw [hset, List.getElem?_set_self (List.getElem?_eq_some_iff.mp hj).1], ?_⟩
      exact fun hmem => (htakes x hmem).elim hhand hx.ne
    · exact ⟨u, by rw [hset, List.getElem?_set_ne hij, hj], hhand⟩

theorem Progress.step {s₀ : Pool} {as : List Act} (hp : Progress s₀ as j w x s)
    (hr : run step s₀ as = some s) (hl : Live s) (hx : x < s.nextTask) (ho : Open s a)
    (hspare : Spare s j x a) (h : s.step a = some s') : Progress s₀ (as ++ [a]) j w x s' := by
  obtain ⟨hkeeps, hmoved⟩ := hl.moved ho h
  have hcount : as.count (.submitter j) ≤ (as ++ [a]).count (.submitter j) :=
    (List.sublist_append_left as [a]).count_le _
  cases hp with
  | stage hj hst hfound =>
    by_cases ha : a = .submitter j
    · subst ha
      have hnext : (as ++ [Act.submitter j]).count (.submitter j) =
          as.count (.submitter j) + 1 := by
        rw [List.count_append, List.count_singleton_self]
      cases hl.next ho (fun hpc => hspare rfl _ hj hpc) hj hst h with
      | stage hj' hst' hfull =>
        refine .stage hj' (hnext ▸ hst') fun hrefused => ?_
        rcases hfull hrefused with hold | hnew
        · exact (hfound hold).append _
        · exact ⟨as, s, List.prefix_refl _, hr, hnew⟩
      | inlined hn hrefused => exact .inlined (by omega) ((hfound hrefused).append _)
      | pushed hn hpush hj' hhand =>
        exact .pushed (by omega) hpush hj' (hhand ▸ List.not_mem_nil)
    · have hsame : (as ++ [a]).count (.submitter j) = as.count (.submitter j) := by
        rw [List.count_append, List.count_singleton, if_neg (by simpa using ha), Nat.add_zero]
      refine .stage (hmoved.other hj hst.ne_idle ha) (hsame ▸ hst) fun hrefused => ?_
      exact (hfound hrefused).append a
  | inlined hn hfound => exact .inlined (hn.trans hcount) (hfound.append a)
  | pushed hn hpush hj hhand =>
    obtain ⟨u', hj', hhand'⟩ := hmoved.hand hj hx hhand
    exact .pushed (hn.trans hcount) (hpush.keeps hkeeps) hj' hhand'

theorem Inv.lt_nextTask (hi : Inv s) (hj : s.submitters[j]? = some u) (hx : x ∈ u.pc.current) :
    x < s.nextTask := by
  have hsubmits := hi.accounted.submits x
  have hpos : 0 < (s.submitters.flatMap fun u => u.pc.current).count x :=
    List.count_pos_iff.mpr (List.mem_flatMap.mpr ⟨u, mem_of_getElem? hj, hx⟩)
  by_contra hge
  rw [if_neg hge] at hsubmits
  omega

/-- A thread that is paired with a worker submits a task, and the test finds a worker that is not
paired: the task goes to the queue of its worker, or the push has found that queue full, and
only then the thread runs the task itself. -/
theorem paired_submit_pushes (capacity queueSize submitters : ℕ)
    (hsize : queueSize = 0 ∨ ∃ k, queueSize = 2 ^ k) (as bs : List Act) (s s' : Pool) (j w x : ℕ)
    (hm : Meets step Open (init capacity queueSize submitters) as)
    (hr : run step (init capacity queueSize submitters) as = some s)
    (hbegin : s.submitters[j]? = some ⟨.testExit x, some w⟩)
    (hm' : Meets step (fun m a => Open m a ∧ Spare m j x a) s bs)
    (hr' : run step s bs = some s') :
    (bs.count (.submitter j) < 7 → (s'.step (.submitter j)).isSome) ∧
      (7 ≤ bs.count (.submitter j) → PushedTo s' w x ∨ FoundFull s bs j w x) ∧
      ∀ u ∈ s'.submitters[j]?, u.pc = .runInline x → FoundFull s bs j w x := by
  have hlive : Live s := run_induction (fun _ _ _ hl ho h => hl.step ho h)
    (live_init capacity queueSize submitters hsize) hm hr
  obtain ⟨hl, -, hp⟩ : Live s' ∧ x < s'.nextTask ∧ Progress s bs j w x s' := by
    refine run_history (fun cs m => Live m ∧ x < m.nextTask ∧ Progress s cs j w x m) ?_ ?_ hm' hr'
    · rintro cs m a m' hrun ⟨hl, hx, hp⟩ ⟨ho, hspare⟩ h
      exact ⟨hl.step ho h, hx.trans_le (hl.moved ho h).1.nextTask,
        hp.step hrun hl hx ho hspare h⟩
    · exact ⟨hlive, hlive.inv.lt_nextTask hbegin List.mem_cons_self,
        .stage hbegin .testExit (fun h => by cases h)⟩
  cases hp with
  | stage hj hst hfound =>
    refine ⟨fun _ => hl.enabled hj hst, fun hn => absurd hst.lt (not_lt.mpr hn), ?_⟩
    intro u hu hpc
    obtain rfl := Option.some.inj (hj.symm.trans hu)
    exact hfound (hst.refused_of_runInline hpc)
  | inlined hn hfound =>
    exact ⟨fun hlt => absurd hlt (not_lt.mpr hn), fun _ => Or.inr hfound, fun _ _ _ => hfound⟩
  | pushed hn hpush hj hhand =>
    refine ⟨fun hlt => absurd hlt (not_lt.mpr hn), fun _ => Or.inl hpush, fun u hu hpc => ?_⟩
    obtain rfl := Option.some.inj (hj.symm.trans hu)
    rw [hpc] at hhand
    exact absurd List.mem_cons_self hhand

def beginsAgain : List Act := .submit 0 :: List.replicate 17 (.submitter 0) ++ [.submit 0]

theorem paired_submit_pushes_two :
    ∃ s, run step (init 2 2 1) beginsAgain = some s ∧
      ∃ s', run step s (List.replicate 7 (.submitter 0)) = some s' ∧
        (PushedTo s' 0 1 ∨ FoundFull s (List.replicate 7 (.submitter 0)) 0 0 1) := by
  have h : ∃ s, run step (init 2 2 1) beginsAgain = some s ∧
      s.submitters[0]? = some ⟨.testExit 1, some 0⟩ ∧
      Meets step (fun m a => Open m a ∧ Spare m 0 1 a) s (List.replicate 7 (.submitter 0)) ∧
      ∃ s', run step s (List.replicate 7 (.submitter 0)) = some s' ∧ s'.exit = false := by
    decide +kernel
  obtain ⟨s, hr, hbegin, hm', s', hr', -⟩ := h
  have hpushes := paired_submit_pushes 2 2 1 (Or.inr ⟨1, rfl⟩) beginsAgain
    (List.replicate 7 (.submitter 0)) s s' 0 0 1 (by decide +kernel) hr hbegin hm' hr'
  exact ⟨s, hr, s', hr', hpushes.2.1 (by decide)⟩

/-- With one worker the second task of the thread is not pushed to the queue of that worker,
in which one of two places is free: the thread runs it. -/
theorem paired_submit_inline :
    ∃ s, run step (init 1 2 1) (beginsAgain ++ List.replicate 3 (.submitter 0)) = some s ∧
      s.exit = false ∧ s.submitters = [⟨.loadWakeup 1, some 0⟩] ∧ s.executed = [1] ∧
      ∃ q, tasksOf s.tds 0 = some q ∧ q.pushed = [0] ∧ q.unread = 1 ∧ q.capacity = 2 := by
  decide +kernel

end Pool

end ThreadPool

end SofaBolt
