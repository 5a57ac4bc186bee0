import SofaBolt.TimeOnce

namespace SofaBolt

open Run

namespace TimeThread

def drainedId (s : TimeThread) : Option (ℕ × ℕ) :=
  match s.loop with
  | .popAbandon i (_ + 1) _ =>
    s.containers[i]?.bind fun container => container.abandonTasks.head?.map fun x => (i, x)
  | _ => none

/-- The timer thread takes an abandoned id off its queue only when the task is in
no container. -/
def DrainsCollected (s : TimeThread) : TimeAct → Prop
  | .loop _ _ => ∀ d ∈ s.drainedId, ∀ u ∈ s.queued, u.taskId ≠ d.2
  | _ => True

instance (s : TimeThread) (a : TimeAct) : Decidable (DrainsCollected s a) :=
  match a with
  | .loop _ _ => inferInstanceAs (Decidable (∀ d ∈ s.drainedId, ∀ u ∈ s.queued, u.taskId ≠ d.2))
  | .scheduleAbs .. | .unschedule .. | .client _ | .destroy | .destroyStep => isTrue trivial

structure Cancelled (u : TimerTask) (s : TimeThread) : Prop where
  inactive : u.taskId ∉ s.activeIds
  collected : u ∈ s.tasks ∨ u ∈ s.popped
  not_ran : u ∉ s.ran

variable {s s' : TimeThread} {p : ℕ} {c : Client} {u : TimerTask}

/-- No task in a container has the id of one that was collected. -/
theorem Ledger.taskId_ne_of_queued (hl : Ledger s) (hu : u ∈ s.tasks ∨ u ∈ s.popped)
    {v : TimerTask} (hv : v ∈ s.queued) : v.taskId ≠ u.taskId := by
  intro hid
  obtain rfl := hl.taskId_inj (hl.accepted_of_placed (Or.inl hv))
    (hl.accepted_of_placed (Or.inr hu)) hid
  have hplaced := hl.placed v
  have hone := hl.accepted_count_le v
  simp only [← List.count_pos_iff] at hu hv
  omega

theorem Cancelled.of_frame (hc : Cancelled u s) (hf : ClientFrame s s') : Cancelled u s' := by
  refine ⟨?_, ?_, ?_⟩
  · rw [hf.activeIds]
    exact hc.inactive
  · rw [hf.tasks, hf.popped]
    exact hc.collected
  · rw [ran, hf.executed]
    exact hc.not_ran

theorem Cancelled.not_ran_append (hc : Cancelled u s) {task : TimerTask}
    (hid : task.taskId ∈ s.activeIds) (clock : Option ℕ) :
    u ∉ ran { s with executed := s.executed ++ [⟨task, clock⟩] } := by
  intro hran
  simp only [ran, List.map_append, List.map_cons, List.map_nil, List.mem_append,
    List.mem_singleton] at hran
  rcases hran with hran | rfl
  · exact hc.not_ran hran
  · exact hc.inactive hid

theorem Cancelled.loopStep (hl : Ledger s) (hc : Cancelled u s) {clock j : ℕ}
    (h : s.loopStep clock j = some s') : Cancelled u s' := by
  obtain ⟨pc, -, hm⟩ := loopMove_of_loopStep h
  cases hm with
  | @collect i size left container task rest hi htasks =>
    have hqueued : task ∈ s.queued := by
      refine List.mem_flatMap.mpr ⟨container, mem_of_getElem? hi, ?_⟩
      rw [htasks]
      exact List.mem_cons_self ..
    refine ⟨fun hmem => ?_, hc.collected.imp_left (List.mem_append_left _), hc.not_ran⟩
    rcases Finset.mem_insert.mp hmem with hid | hmem
    · exact hl.taskId_ne_of_queued hc.collected hqueued hid.symm
    · exact hc.inactive hmem
  | abandon hi htasks =>
    exact { hc with inactive := fun hmem => hc.inactive (Finset.mem_of_mem_erase hmem) }
  | @pop t k task htask hle =>
    refine { hc with collected := ?_ }
    rcases hc.collected with hu | hu
    · by_cases hut : u = task
      · exact Or.inr (List.mem_append_right _ (by simp [hut]))
      · refine Or.inl ?_
        obtain ⟨hk, rfl⟩ := List.getElem?_eq_some_iff.mp htask
        have hperm := (List.getElem_cons_eraseIdx_perm hk).mem_iff.mpr hu
        exact (List.mem_cons.mp hperm).resolve_left hut
    · exact Or.inr (List.mem_append_left _ hu)
  | execute hid =>
    exact ⟨fun hmem => hc.inactive (Finset.mem_of_mem_erase hmem), hc.collected,
      hc.not_ran_append hid _⟩
  | _ => exact { hc with }

theorem Cancelled.destroyStep (hl : Ledger s) (hc : Cancelled u s) (h : s.destroyStep = some s') :
    Cancelled u s' := by
  obtain ⟨pc, -, hm⟩ := destroyMove_of_destroyStep h
  cases hm with
  | @drain i container hi =>
    refine ⟨fun hmem => ?_, hc.collected.imp_left (List.mem_append_left _), hc.not_ran⟩
    rcases Finset.mem_union.mp (Finset.mem_sdiff.mp hmem).1 with hmem | hmem
    · exact hc.inactive hmem
    · -- the ids that are queued are those of other tasks
      obtain ⟨v, hv, hid⟩ := List.mem_map.mp (List.mem_toFinset.mp hmem)
      exact hl.taskId_ne_of_queued hc.collected
        (List.mem_flatMap.mpr ⟨container, mem_of_getElem? hi, hv⟩) hid
  | execute hid =>
    exact ⟨fun hmem => hc.inactive (Finset.mem_of_mem_erase hmem), hc.collected,
      hc.not_ran_append hid _⟩
  | _ => exact { hc with }

theorem Cancelled.step (hl : Ledger s) (hc : Cancelled u s) {a : TimeAct}
    (h : s.step a = some s') : Cancelled u s' := by
  cases a with
  | scheduleAbs p absTime =>
    obtain ⟨c, hp, h⟩ := Option.bind_eq_some_iff.mp h
    split_ifs at h
    exact Option.some.inj h ▸ { hc with }
  | unschedule p taskId =>
    obtain ⟨c, hp, h⟩ := Option.bind_eq_some_iff.mp h
    split_ifs at h
    exact Option.some.inj h ▸ { hc with }
  | client p =>
    obtain ⟨c, hp, h⟩ := Option.bind_eq_some_iff.mp h
    exact hc.of_frame (clientStep_frame hl hp h)
  | loop clock j => exact hc.loopStep hl h
  | destroy =>
    simp only [TimeThread.step] at h
    split_ifs at h
    exact Option.some.inj h ▸ { hc with }
  | destroyStep => exact hc.destroyStep hl h

theorem accepted_subset_of_step (hl : Ledger s) {a : TimeAct} (h : s.step a = some s') :
    s.accepted ⊆ s'.accepted := by
  have hsame : ∀ {t}, s' = t → t.accepted = s.accepted → s.accepted ⊆ s'.accepted := by
    rintro t rfl ht
    rw [ht]
    exact List.Subset.refl _
  cases a with
  | scheduleAbs p absTime =>
    obtain ⟨c, hp, h⟩ := Option.bind_eq_some_iff.mp h
    split_ifs at h
    exact hsame (Option.some.inj h).symm rfl
  | unschedule p taskId =>
    obtain ⟨c, hp, h⟩ := Option.bind_eq_some_iff.mp h
    split_ifs at h
    exact hsame (Option.some.inj h).symm rfl
  | client p =>
    obtain ⟨c, hp, h⟩ := Option.bind_eq_some_iff.mp h
    exact (clientStep_frame hl hp h).accepted
  | loop clock j =>
    obtain ⟨pc, -, hm⟩ := loopMove_of_loopStep h
    cases hm <;> exact List.Subset.refl _
  | destroy =>
    simp only [TimeThread.step] at h
    split_ifs at h
    exact hsame (Option.some.inj h).symm rfl
  | destroyStep =>
    obtain ⟨pc, -, hm⟩ := destroyMove_of_destroyStep h
    cases hm <;> exact List.Subset.refl _

theorem drainedId_eq_some {i x : ℕ} (h : s.drainedId = some (i, x)) :
    ∃ left ret container rest, s.loop = .popAbandon i (left + 1) ret ∧
      s.containers[i]? = some container ∧ container.abandonTasks = x :: rest := by
  unfold drainedId at h
  split at h
  · next k left ret hpc =>
    obtain ⟨container, hi, h⟩ := Option.bind_eq_some_iff.mp h
    obtain ⟨y, hy, h⟩ := Option.map_eq_some_iff.mp h
    obtain ⟨rfl, rfl⟩ := Prod.mk.inj h
    obtain ⟨rest, htasks⟩ := List.head?_eq_some_iff.mp hy
    exact ⟨left, ret, container, rest, hpc, hi, htasks⟩
  · cases h

/-- The timer thread takes the id off a queue when the task has been collected. -/
theorem cancelled_of_drainedId (hl : Ledger s) {i clock j : ℕ}
    (hd : s.drainedId = some (i, u.taskId)) (hcond : DrainsCollected s (.loop clock j))
    (hu : u ∈ s.accepted) (hran : u ∉ s.ran) (h : s.step (.loop clock j) = some s') :
    Cancelled u s' := by
  have hcollected : u ∈ s.tasks ∨ u ∈ s.popped :=
    (hl.placed_of_accepted hu).resolve_left fun hq => hcond _ hd u hq rfl
  obtain ⟨left, ret, container, rest, hpc, hi, htasks⟩ := drainedId_eq_some hd
  obtain ⟨pc, hpc', hm⟩ := loopMove_of_loopStep h
  obtain rfl := hpc.symm.trans hpc'
  cases hm with
  | abandon hi' htasks' =>
    obtain rfl := Option.some.inj (hi.symm.trans hi')
    obtain ⟨rfl, -⟩ := List.cons.inj (htasks.symm.trans htasks')
    exact ⟨Finset.notMem_erase _ _, hcollected, hran⟩
  | abandoned hnone =>
    rcases hnone container hi with hleft | hnil
    · cases hleft
    · cases htasks.symm.trans hnil

/-- In `s₁` thread `p`, whose container is `i`, is about to pass the task's id on and
`unschedule` returns true, before the task is popped; after the further actions
`as` the timer thread takes the id off that container, before it runs the task. -/
structure CancelledInTime (u : TimerTask) (p i : ℕ) (s₁ : TimeThread) (as : List TimeAct)
    (s₂ : TimeThread) : Prop where
  scheduled : u ∈ s₁.accepted
  not_popped : u ∉ s₁.popped
  asked : s₁.clients[p]? = some ⟨some i, .abandonPush u.taskId⟩
  answered : ∃ s, s₁.step (.client p) = some s ∧
    s.clients[p]? = some ⟨some i, .abandoned true⟩ ∧ run step s as = some s₂
  drained : s₂.drainedId = some (i, u.taskId)
  not_ran : u ∉ s₂.ran

/-- A task that is cancelled in time never runs, if the timer thread takes ids off
the queues of abandoned tasks only when their tasks are in no container. -/
theorem cancelled_task_never_runs {n clock j i : ℕ} {as₁ as₂ as₃ : List TimeAct}
    {s₁ s₂ s₃ : TimeThread}
    (hm : Meets step DrainsCollected (init n)
      (as₁ ++ .client p :: (as₂ ++ .loop clock j :: as₃)))
    (h₁ : run step (init n) as₁ = some s₁) (hc : CancelledInTime u p i s₁ as₂ s₂)
    (h₃ : run step s₂ (.loop clock j :: as₃) = some s₃) : u ∉ s₃.ran := by
  obtain ⟨s, hs, -, h₂⟩ := hc.answered
  have hl₁ := (once_run h₁).1
  have hcond := (meets_of_append ((meets_of_append hm h₁).2 s hs) h₂).1
  have hl₂ : Ledger s₂ ∧ u ∈ s₂.accepted :=
    run_invariant (fun s _ _ (hi : Ledger s ∧ u ∈ s.accepted) h =>
      ⟨hi.1.step h, accepted_subset_of_step hi.1 h hi.2⟩)
      ⟨hl₁.step hs, accepted_subset_of_step hl₁ hs hc.scheduled⟩ h₂
  obtain ⟨s₂', hs₂, h₃⟩ := run_cons h₃
  have hcancelled := cancelled_of_drainedId hl₂.1 hc.drained hcond hl₂.2 hc.not_ran hs₂
  have hend : Ledger s₃ ∧ Cancelled u s₃ :=
    run_invariant (fun s _ _ (hi : Ledger s ∧ Cancelled u s) h =>
      ⟨hi.1.step h, hi.2.step hi.1 h⟩) ⟨hl₂.1.step hs₂, hcancelled⟩ h₃
  exact hend.2.not_ran

/-- On a given run all this can be evaluated; `Q` is what is asked of the rest. -/
theorem exists_cancelledInTime (n p i : ℕ) (u : TimerTask) (as₁ as₂ : List TimeAct)
    (Q : TimeThread → Prop)
    (h : ∃ s₁, run step (init n) as₁ = some s₁ ∧ (u ∈ s₁.accepted ∧ u ∉ s₁.popped ∧
        s₁.clients[p]? = some ⟨some i, .abandonPush u.taskId⟩) ∧
      ∃ s, s₁.step (.client p) = some s ∧ s.clients[p]? = some ⟨some i, .abandoned true⟩ ∧
        ∃ s₂, run step s as₂ = some s₂ ∧ (s₂.drainedId = some (i, u.taskId) ∧ u ∉ s₂.ran) ∧
          Q s₂) :
    ∃ s₁ s₂, run step (init n) as₁ = some s₁ ∧ CancelledInTime u p i s₁ as₂ s₂ ∧ Q s₂ := by
  obtain ⟨s₁, h₁, ⟨hacc, hpop, hask⟩, s, hs, hret, s₂, h₂, ⟨hdrain, hran⟩, hq⟩ := h
  exact ⟨s₁, s₂, h₁, ⟨hacc, hpop, hask, ⟨s, hs, hret, h₂⟩, hdrain, hran⟩, hq⟩

def cancelRun : List TimeAct :=
  TimeAct.scheduleAbs 0 3 :: List.replicate 8 (TimeAct.client 0) ++
    TimeAct.unschedule 1 1 :: List.replicate 2 (TimeAct.client 1)

theorem cancelled_task_never_runs_cross_thread :
    ∃ s₁ s₂ s₃, run step (init 2) cancelRun = some s₁ ∧
      CancelledInTime ⟨3, 1, 0⟩ 1 1 s₁ (List.replicate 12 (.loop 10 0)) s₂ ∧
      run step s₂ (.loop 10 0 :: List.replicate 19 (.loop 10 0)) = some s₃ ∧
      ⟨3, 1, 0⟩ ∈ s₃.popped ∧ ⟨3, 1, 0⟩ ∉ s₃.ran := by
  have hm : Meets step DrainsCollected (init 2) (cancelRun ++ TimeAct.client 1 ::
      (List.replicate 12 (TimeAct.loop 10 0) ++
        TimeAct.loop 10 0 :: List.replicate 19 (TimeAct.loop 10 0))) := by
    decide +kernel
  obtain ⟨s₁, s₂, h₁, hc, hq⟩ := exists_cancelledInTime 2 1 1 ⟨3, 1, 0⟩ cancelRun
    (List.replicate 12 (.loop 10 0))
    (fun s₂ => ∃ s₃, run step s₂ (.loop 10 0 :: List.replicate 19 (.loop 10 0)) = some s₃ ∧
      ⟨3, 1, 0⟩ ∈ s₃.popped) (by decide +kernel)
  obtain ⟨s₃, h₃, hpop⟩ := hq
  exact ⟨s₁, s₂, s₃, h₁, hc, h₃, hpop, cancelled_task_never_runs hm h₁ hc h₃⟩

def lostCancelRun : List TimeAct :=
  TimeAct.scheduleAbs 0 100 :: List.replicate 8 (TimeAct.client 0) ++
    TimeAct.scheduleAbs 1 3 :: List.replicate 8 (TimeAct.client 1) ++
    TimeAct.unschedule 0 2 :: List.replicate 2 (TimeAct.client 0)

/-- The thread that cancels has the first container: the timer thread takes the id
off before it collects the task, and runs the task. -/
theorem cancelled_task_runs :
    ∃ s₁ s₂ s₃, run step (init 2) lostCancelRun = some s₁ ∧
      CancelledInTime ⟨3, 2, 1⟩ 0 0 s₁ (List.replicate 8 (.loop 10 1)) s₂ ∧
      run step s₂ (List.replicate 20 (.loop 10 1)) = some s₃ ∧ ⟨3, 2, 1⟩ ∈ s₃.ran := by
  obtain ⟨s₁, s₂, h₁, hc, hq⟩ := exists_cancelledInTime 2 0 0 ⟨3, 2, 1⟩ lostCancelRun
    (List.replicate 8 (.loop 10 1))
    (fun s₂ => ∃ s₃, run step s₂ (List.replicate 20 (.loop 10 1)) = some s₃ ∧ ⟨3, 2, 1⟩ ∈ s₃.ran)
    (by decide +kernel)
  obtain ⟨s₃, h₃, hran⟩ := hq
  exact ⟨s₁, s₂, s₃, h₁, hc, h₃, hran⟩

end TimeThread

end SofaBolt
