import SofaBolt.TimeLedger

namespace SofaBolt

open Run

def ClientPc.abandonIds : ClientPc → List ℕ
  | .abandonGetLocal taskId | .abandonAcquire taskId | .abandonPush taskId => [taskId]
  | _ => []

def TimeLoopPc.inHand : TimeLoopPc → List TimerTask
  | .collectStart task _ | .collect task _ _ _ | .execute task _ => [task]
  | .countAbandon _ (.collect task _ _) | .popAbandon _ _ (.collect task _ _) => [task]
  | _ => []

def DestroyPc.done (tasks : List TimerTask) : DestroyPc → List TimerTask
  | .running done _ => done
  | .returned => tasks
  | _ => []

def DestroyPc.todo (tasks : List TimerTask) : DestroyPc → List TimerTask
  | .running _ rest => rest
  | .returned => []
  | _ => tasks

def DestroyPc.Past : DestroyPc → ℕ → Prop
  | .draining i, j => j < i
  | .running _ _, _ => True
  | .returned, _ => True
  | _, _ => False

theorem DestroyPc.of_not_isJoined (tasks : List TimerTask) {pc : DestroyPc} (h : ¬pc.isJoined) :
    pc.done tasks = [] ∧ pc.todo tasks = tasks := by
  cases pc <;> first | exact ⟨rfl, rfl⟩ | exact absurd rfl h

namespace TimeThread

def LoopDue (s : TimeThread) : Prop :=
  match s.loop with
  | .loadNearest t => ∃ x ∈ s.tasks, x.absTime ≤ t
  | .pop t => ∃ x ∈ s.tasks, x.absTime ≤ t
  | .collectStart task t => task.absTime ≤ t
  | .collect task t _ _ => task.absTime ≤ t
  | .execute task t => task.absTime ≤ t
  | .countAbandon _ (.collect task t _) => task.absTime ≤ t
  | .popAbandon _ _ (.collect task t _) => task.absTime ≤ t
  | _ => True

def ran (s : TimeThread) : List TimerTask := s.executed.map Execution.task

structure Once (s : TimeThread) : Prop where
  halves : ∀ u, (s.destroyPc.done s.tasks).count u + (s.destroyPc.todo s.tasks).count u =
    s.tasks.count u
  ran_le : ∀ u, s.ran.count u + s.loop.inHand.count u ≤
    s.popped.count u + (s.destroyPc.done s.tasks).count u
  le_ran : ∀ u, u.taskId ∉ s.unscheduled →
    s.popped.count u + (s.destroyPc.done s.tasks).count u ≤ s.ran.count u + s.loop.inHand.count u
  active : ∀ u, u ∈ s.destroyPc.todo s.tasks ∨ u ∈ s.loop.inHand → u.taskId ∉ s.unscheduled →
    u.taskId ∈ s.activeIds
  queued : ∀ container ∈ s.containers, ∀ x ∈ container.abandonTasks, x ∈ s.unscheduled
  asked : ∀ c ∈ s.clients, ∀ x ∈ c.pc.abandonIds, x ∈ s.unscheduled
  clock : ∀ e ∈ s.executed, (∃ t, e.clock = some t ∧ e.task.absTime ≤ t) ∨
    e.clock = none ∧ s.destroyPc.isJoined
  due : LoopDue s

theorem once_init (n : ℕ) : Once (init n) where
  halves _ := rfl
  ran_le _ := le_rfl
  le_ran _ _ := le_rfl
  active u h := by simp [init, DestroyPc.todo, TimeLoopPc.inHand] at h
  queued _ h := absurd h List.not_mem_nil
  asked c hc := by simp [List.eq_of_mem_replicate hc, ClientPc.abandonIds]
  clock _ h := absurd h List.not_mem_nil
  due := trivial

variable {s s' : TimeThread} {p : ℕ} {c : Client}

theorem Once.go (ho : Once s) (pc : TimeLoopPc) (hin : pc.inHand = s.loop.inHand)
    (hdue : LoopDue { s with loop := pc }) : Once { s with loop := pc } where
  halves := ho.halves
  ran_le u := by
    change s.ran.count u + pc.inHand.count u ≤ _
    rw [hin]
    exact ho.ran_le u
  le_ran u hu := by
    change _ ≤ s.ran.count u + pc.inHand.count u
    rw [hin]
    exact ho.le_ran u hu
  active u hu := by
    refine ho.active u ?_
    rw [← hin]
    exact hu
  queued := ho.queued
  asked := ho.asked
  clock := ho.clock
  due := hdue

theorem Once.collect (ho : Once s) {i size left : ℕ} {container : TaskContainer}
    {task : TimerTask} {rest : List TimerTask} (hrun : ¬s.destroyPc.isJoined)
    (hpc : s.loop = .popTasks i size (left + 1)) (hi : s.containers[i]? = some container) :
    Once { s with
      containers := s.containers.set i { container with tasks := rest }
      activeIds := insert task.taskId s.activeIds
      tasks := s.tasks ++ [task]
      loop := .popTasks i size left } := by
  have ho' := ho.go (.popTasks i size left) (by rw [hpc]; rfl) trivial
  obtain ⟨hdone, htodo⟩ := DestroyPc.of_not_isJoined s.tasks hrun
  obtain ⟨hdone', htodo'⟩ := DestroyPc.of_not_isJoined (s.tasks ++ [task]) hrun
  refine { ho' with halves := ?_, ran_le := ?_, le_ran := ?_, active := ?_, queued := ?_ }
  · intro u
    simp only [hdone', htodo', List.count_nil, Nat.zero_add]
  · intro u
    have hle := ho'.ran_le u
    simp only [hdone, hdone'] at hle ⊢
    exact hle
  · intro u hu
    have hle := ho'.le_ran u hu
    simp only [hdone, hdone'] at hle ⊢
    exact hle
  · intro u hu hun
    simp only [htodo', List.mem_append, List.mem_singleton] at hu
    rcases hu with (hu | rfl) | hu
    · exact Finset.mem_insert_of_mem (ho.active u (Or.inl (by rwa [htodo])) hun)
    · exact Finset.mem_insert_self _ _
    · cases hu
  · intro k hk
    rcases List.mem_or_eq_of_mem_set hk with hk | rfl
    · exact ho.queued k hk
    · exact ho.queued container (mem_of_getElem? hi)

theorem Once.abandon (ho : Once s) {i left taskId : ℕ} {ret : AbandonReturn}
    {container : TaskContainer} {rest : List ℕ} (hpc : s.loop = .popAbandon i (left + 1) ret)
    (hi : s.containers[i]? = some container) (htasks : container.abandonTasks = taskId :: rest) :
    Once { s with
      containers := s.containers.set i { container with abandonTasks := rest }
      activeIds := s.activeIds.erase taskId
      loop := .popAbandon i left ret } := by
  have hasked := ho.queued container (mem_of_getElem? hi)
  rw [htasks] at hasked
  have hdue := ho.due
  rw [LoopDue, hpc] at hdue
  have ho' := ho.go (.popAbandon i left ret) (by rw [hpc]; cases ret <;> rfl)
    (by cases ret <;> exact hdue)
  refine { ho' with active := ?_, queued := ?_ }
  · intro u hu hun
    refine Finset.mem_erase.mpr ⟨?_, ho'.active u hu hun⟩
    rintro rfl
    exact hun (hasked _ (List.mem_cons_self ..))
  · intro k hk
    rcases List.mem_or_eq_of_mem_set hk with hk | rfl
    · exact ho.queued k hk
    · exact fun x hx => hasked x (List.mem_cons_of_mem _ hx)

theorem Once.pop (ho : Once s) {t k : ℕ} {task : TimerTask} (hrun : ¬s.destroyPc.isJoined)
    (hpc : s.loop = .pop t) (htask : s.tasks[k]? = some task)
    (hle : ∀ x ∈ s.tasks, task.absTime ≤ x.absTime) :
    Once { s with
      tasks := s.tasks.eraseIdx k
      loop := .collectStart task t
      popped := s.popped ++ [task] } := by
  obtain ⟨hdone, htodo⟩ := DestroyPc.of_not_isJoined s.tasks hrun
  obtain ⟨hdone', htodo'⟩ := DestroyPc.of_not_isJoined (s.tasks.eraseIdx k) hrun
  have hran := ho.ran_le
  have hall := ho.le_ran
  have hdue := ho.due
  simp only [LoopDue, hpc] at hdue
  simp only [hpc, hdone] at hran hall
  refine { ho with halves := ?_, ran_le := ?_, le_ran := ?_, active := ?_, due := ?_ }
  · intro u
    simp only [hdone', htodo', List.count_nil, Nat.zero_add]
  · intro u
    have hu := hran u
    simp only [hdone', TimeLoopPc.inHand, List.count_append, List.count_nil] at hu ⊢
    change s.ran.count u + _ ≤ _
    omega
  · intro u hun
    have hu := hall u hun
    simp only [hdone', TimeLoopPc.inHand, List.count_append, List.count_nil] at hu ⊢
    change _ ≤ s.ran.count u + _
    omega
  · intro u hu
    refine ho.active u (Or.inl ?_)
    simp only [htodo', TimeLoopPc.inHand, List.mem_singleton] at hu
    rw [htodo]
    rcases hu with hu | rfl
    · exact List.mem_of_mem_eraseIdx hu
    · exact mem_of_getElem? htask
  · obtain ⟨x, hx, hxt⟩ := hdue
    exact (hle x hx).trans hxt

theorem Once.execute (hl : Ledger s) (ho : Once s) {task : TimerTask} {t : ℕ}
    (hrun : ¬s.destroyPc.isJoined) (hpc : s.loop = .execute task t) :
    Once { s with
      activeIds := s.activeIds.erase task.taskId
      loop := .heap
      executed := s.executed ++ [⟨task, some t⟩] } := by
  obtain ⟨hdone, htodo⟩ := DestroyPc.of_not_isJoined s.tasks hrun
  have hran := ho.ran_le
  have hall := ho.le_ran
  have hdue := ho.due
  simp only [LoopDue, hpc] at hdue
  simp only [hpc, hdone, TimeLoopPc.inHand, List.count_nil] at hran hall
  refine { ho with ran_le := ?_, le_ran := ?_, active := ?_, clock := ?_, due := trivial }
  · intro u
    have hu := hran u
    simp only [ran, hdone, TimeLoopPc.inHand, List.map_append, List.map_cons, List.map_nil,
      List.count_append, List.count_nil] at hu ⊢
    omega
  · intro u hun
    have hu := hall u hun
    simp only [ran, hdone, TimeLoopPc.inHand, List.map_append, List.map_cons, List.map_nil,
      List.count_append, List.count_nil] at hu ⊢
    omega
  · intro u hu hun
    simp only [htodo, TimeLoopPc.inHand, List.not_mem_nil, or_false] at hu
    refine Finset.mem_erase.mpr ⟨fun hid => ?_, ho.active u (Or.inl (by rwa [htodo])) hun⟩
    -- the task in hand has left the heap
    have hself := hran task
    rw [List.count_singleton_self] at hself
    have hpopped : task ∈ s.popped := List.count_pos_iff.mp (by omega)
    obtain rfl := hl.taskId_inj (hl.accepted_of_placed (Or.inr (Or.inl hu)))
      (hl.accepted_of_placed (Or.inr (Or.inr hpopped))) hid
    have hplaced := hl.placed u
    have hone := hl.accepted_count_le u
    have hheap := List.count_pos_iff.mpr hu
    omega
  · intro e he
    rcases List.mem_append.mp he with he | he
    · exact ho.clock e he
    · rw [List.mem_singleton.mp he]
      exact Or.inl ⟨t, rfl, hdue⟩

theorem Once.inactive (ho : Once s) {task : TimerTask} {t : ℕ}
    (hpc : s.loop = .execute task t) (hid : task.taskId ∉ s.activeIds) :
    Once { s with loop := .heap } := by
  have hran := ho.ran_le
  have hall := ho.le_ran
  simp only [hpc, TimeLoopPc.inHand] at hran hall
  refine { ho with ran_le := ?_, le_ran := ?_, active := ?_, due := trivial }
  · intro u
    exact (Nat.add_le_add_left (Nat.zero_le _) _).trans (hran u)
  · intro u hun
    have hne : task ≠ u := by
      rintro rfl
      refine hid (ho.active task (Or.inr ?_) hun)
      rw [hpc]
      exact List.mem_singleton_self task
    have hu := hall u hun
    rwa [List.count_singleton, beq_eq_false_iff_ne.mpr hne] at hu
  · intro u hu hun
    rcases hu with hu | hu
    · exact ho.active u (Or.inl hu) hun
    · cases hu

theorem Once.loopStep (hl : Ledger s) (ho : Once s) {clock j : ℕ}
    (h : s.loopStep clock j = some s') : Once s' := by
  have hrun := hl.not_isJoined_of_loopStep h
  obtain ⟨pc, hpc, hm⟩ := loopMove_of_loopStep h
  have hdue := ho.due
  rw [LoopDue, hpc] at hdue
  cases hm with
  | reset => exact { ho.go .count (by rw [hpc]; rfl) trivial with }
  | collect hi htasks => exact ho.collect hrun hpc hi
  | @countAbandon i ret left =>
    refine ho.go _ ?_ ?_
    · rw [hpc]
      cases ret <;> rfl
    · cases ret <;> exact hdue
  | @abandoned i left ret _ =>
    refine ho.go _ ?_ ?_
    · rw [hpc]
      cases ret <;> rfl
    · cases ret <;> exact hdue
  | abandon hi htasks => exact ho.abandon hpc hi htasks
  | due hx hle => exact ho.go _ (by rw [hpc]; rfl) ⟨_, hx, hle⟩
  | again => exact { ho.go .check (by rw [hpc]; rfl) trivial with }
  | @load t x hx hle => exact { ho.go (.pop t) (by rw [hpc]; rfl) hdue with }
  | pop htask hle => exact ho.pop hrun hpc htask hle
  | collectStart => exact ho.go _ (by rw [hpc]; rfl) hdue
  | collectAvailable => exact ho.go _ (by rw [hpc]; rfl) hdue
  | collectContainer => exact ho.go _ (by rw [hpc]; rfl) hdue
  | collectEnd => exact ho.go _ (by rw [hpc]; rfl) hdue
  | execute hid => exact ho.execute hl hrun hpc
  | inactive hid => exact ho.inactive hpc hid
  | @lower next hlt => exact { ho.go (.lower next next) (by rw [hpc]; rfl) trivial with }
  | _ => exact ho.go _ (by rw [hpc]; rfl) trivial

structure ClientFrame (s s' : TimeThread) : Prop where
  exit : s'.exit = s.exit
  activeIds : s'.activeIds = s.activeIds
  tasks : s'.tasks = s.tasks
  loop : s'.loop = s.loop
  destroyPc : s'.destroyPc = s.destroyPc
  popped : s'.popped = s.popped
  executed : s'.executed = s.executed
  unscheduled : s'.unscheduled = s.unscheduled
  accepted : s.accepted ⊆ s'.accepted
  kept : ∀ (i : ℕ) (k : TaskContainer), s.containers[i]? = some k →
    ∃ k' : TaskContainer, s'.containers[i]? = some k' ∧ k.abandonTasks ⊆ k'.abandonTasks
  queued : ∀ k' ∈ s'.containers, ∀ x ∈ k'.abandonTasks,
    (∃ k ∈ s.containers, x ∈ k.abandonTasks) ∨ ∃ c ∈ s.clients, x ∈ c.pc.abandonIds
  asked : ∀ c' ∈ s'.clients, ∀ x ∈ c'.pc.abandonIds, ∃ c ∈ s.clients, x ∈ c.pc.abandonIds

theorem clientFrame_setPc (hp : s.clients[p]? = some c) (c' : Client)
    (hc : c'.pc.abandonIds ⊆ c.pc.abandonIds) :
    ClientFrame s { s with clients := s.clients.set p c' } where
  exit := rfl
  activeIds := rfl
  tasks := rfl
  loop := rfl
  destroyPc := rfl
  popped := rfl
  executed := rfl
  unscheduled := rfl
  accepted := List.Subset.refl _
  kept i k hk := ⟨k, hk, List.Subset.refl _⟩
  queued k hk x hx := Or.inl ⟨k, hk, hx⟩
  asked k hk x hx := by
    rcases List.mem_or_eq_of_mem_set hk with hk | rfl
    · exact ⟨k, hk, hx⟩
    · exact ⟨c, mem_of_getElem? hp, hc hx⟩

/-- A container is replaced by one with the same abandoned tasks and one more. -/
theorem ClientFrame.setContainer (hf : ClientFrame s s') {i : ℕ} {container : TaskContainer}
    (container' : TaskContainer) (hi : s.containers[i]? = some container)
    {ids : List ℕ} (habandon : container'.abandonTasks = container.abandonTasks ++ ids)
    (hids : ∀ x ∈ ids, ∃ c ∈ s.clients, x ∈ c.pc.abandonIds) :
    ClientFrame s { s' with containers := s.containers.set i container' } := by
  refine { hf with kept := fun j k hk => ?_, queued := fun k hk x hx => ?_ }
  · by_cases hij : i = j
    · subst hij
      obtain rfl := Option.some.inj (hi.symm.trans hk)
      refine ⟨container', ?_, ?_⟩
      · exact List.getElem?_set_self (List.getElem?_eq_some_iff.mp hi).1
      · rw [habandon]
        exact List.subset_append_left _ _
    · exact ⟨k, (List.getElem?_set_ne hij).trans hk, List.Subset.refl _⟩
  · rcases List.mem_or_eq_of_mem_set hk with hk | rfl
    · exact Or.inl ⟨k, hk, hx⟩
    · rw [habandon] at hx
      rcases List.mem_append.mp hx with hx | hx
      · exact Or.inl ⟨container, mem_of_getElem? hi, hx⟩
      · exact Or.inr (hids x hx)

theorem ClientFrame.acquire (hl : Ledger s) (hf : ClientFrame s s') (o : Option ℕ) :
    ClientFrame s { s' with containers := (acquireContainer s.containers o).1 } := by
  rw [hl.acquireContainer_eq]
  cases o with
  | some i =>
    exact { hf with kept := fun j k hk => ⟨k, hk, List.Subset.refl _⟩
                    queued := fun k hk x hx => Or.inl ⟨k, hk, hx⟩ }
  | none =>
    refine { hf with kept := fun j k hk => ?_, queued := fun k hk x hx => ?_ }
    · exact ⟨k, (List.getElem?_append_left (List.getElem?_eq_some_iff.mp hk).1).trans hk,
        List.Subset.refl _⟩
    · rcases List.mem_append.mp hk with hk | hk
      · exact Or.inl ⟨k, hk, hx⟩
      · rw [List.mem_singleton.mp hk] at hx
        cases hx

theorem clientStep_frame (hl : Ledger s) (hp : s.clients[p]? = some c)
    (h : s.clientStep p c = some s') : ClientFrame s s' := by
  obtain ⟨o, pc⟩ := c
  cases pc with
  | idle => cases h
  | returned result => cases h
  | abandoned result => cases h
  | loadExit absTime fn =>
    obtain rfl := Option.some.inj h
    split_ifs
    · exact { clientFrame_setPc hp ⟨o, .returned 0⟩ (List.nil_subset _) with }
    · exact clientFrame_setPc hp _ (List.nil_subset _)
  | getLocal absTime fn =>
    obtain rfl := Option.some.inj h
    split_ifs
    · exact { clientFrame_setPc hp ⟨o, .returned 0⟩ (List.nil_subset _) with }
    · exact clientFrame_setPc hp _ (List.nil_subset _)
  | acquire absTime fn =>
    obtain rfl := Option.some.inj h
    exact (clientFrame_setPc hp ⟨_, .fetchId absTime fn⟩ (List.nil_subset _)).acquire hl o
  | fetchId absTime fn =>
    obtain rfl := Option.some.inj h
    exact { clientFrame_setPc hp ⟨o, .push ⟨absTime, s.timerId, fn⟩⟩ (List.nil_subset _) with }
  | push task =>
    obtain ⟨⟨i, container⟩, hloc, h⟩ := Option.bind_eq_some_iff.mp h
    have hf := clientFrame_setPc hp ⟨o, .loadNearest task⟩ (List.nil_subset _)
    simp only at h
    split_ifs at h <;> obtain rfl := Option.some.inj h
    · exact { hf.setContainer { container with tasks := container.tasks ++ [task] }
        (localContainer_eq hloc) (List.append_nil _).symm
        (fun x hx => absurd hx List.not_mem_nil) with
        accepted := List.subset_append_left _ _ }
    · exact { clientFrame_setPc hp ⟨o, .returned 0⟩ (List.nil_subset _) with }
  | loadNearest task => exact Option.some.inj h ▸ clientFrame_setPc hp _ (List.nil_subset _)
  | compare task nearestTime =>
    simp only [TimeThread.clientStep] at h
    split_ifs at h <;> obtain rfl := Option.some.inj h
    · exact clientFrame_setPc hp _ (List.nil_subset _)
    · exact { clientFrame_setPc hp ⟨o, .finish task⟩ (List.nil_subset _) with }
    · exact clientFrame_setPc hp _ (List.nil_subset _)
  | finish task =>
    obtain rfl := Option.some.inj h
    exact { clientFrame_setPc hp ⟨o, .returned task.taskId⟩ (List.nil_subset _) with }
  | abandonGetLocal taskId =>
    simp only [TimeThread.clientStep] at h
    split_ifs at h
    exact Option.some.inj h ▸ clientFrame_setPc hp _ (List.Subset.refl _)
  | abandonAcquire taskId =>
    obtain rfl := Option.some.inj h
    exact (clientFrame_setPc hp ⟨_, .abandonPush taskId⟩ (List.Subset.refl _)).acquire hl o
  | abandonPush taskId =>
    obtain ⟨⟨i, container⟩, hloc, h⟩ := Option.bind_eq_some_iff.mp h
    have hf := clientFrame_setPc hp ⟨o, .abandoned true⟩ (List.nil_subset _)
    simp only at h
    split_ifs at h <;> obtain rfl := Option.some.inj h
    · exact hf.setContainer _ (localContainer_eq hloc) rfl
        (fun x hx => ⟨_, mem_of_getElem? hp, hx⟩)
    · exact clientFrame_setPc hp _ (List.nil_subset _)

theorem Once.of_frame (ho : Once s) (hf : ClientFrame s s') : Once s' := by
  obtain ⟨-, hactive, htasks, hloop, hdestroy, hpopped, hexecuted, hun, -, -, hqueued, hasked⟩ := hf
  have hdue := ho.due
  constructor
  all_goals simp only [ran, LoopDue, hactive, htasks, hloop, hdestroy, hpopped, hexecuted, hun]
  · exact ho.halves
  · exact ho.ran_le
  · exact ho.le_ran
  · exact ho.active
  · intro k hk x hx
    rcases hqueued k hk x hx with ⟨k', hk', hx'⟩ | ⟨c, hc, hx'⟩
    · exact ho.queued k' hk' x hx'
    · exact ho.asked c hc x hx'
  · intro c hc x hx
    obtain ⟨c', hc', hx'⟩ := hasked c hc x hx
    exact ho.asked c' hc' x hx'
  · exact ho.clock
  · exact hdue

theorem Once.join (ho : Once s) (hrun : ¬s.destroyPc.isJoined) :
    Once { s with destroyPc := .draining 0 } := by
  obtain ⟨hdone, htodo⟩ := DestroyPc.of_not_isJoined s.tasks hrun
  have hran := ho.ran_le
  have hall := ho.le_ran
  have hactive := ho.active
  simp only [hdone] at hran hall
  simp only [htodo] at hactive
  refine { ho with halves := ?_, ran_le := hran, le_ran := hall, active := hactive, clock := ?_ }
  · exact fun u => Nat.zero_add _
  · exact fun e he => (ho.clock e he).imp_right fun h => ⟨h.1, rfl⟩

theorem LoopDue.of_exited (h : s.loop = .exited) : LoopDue s := by
  rw [LoopDue, h]
  trivial

theorem Once.drain (ho : Once s) {i : ℕ} {container : TaskContainer} (hloop : s.loop = .exited)
    (hpc : s.destroyPc = .draining i) (hi : s.containers[i]? = some container) :
    Once { s with
      activeIds := (s.activeIds ∪ (container.tasks.map TimerTask.taskId).toFinset) \
        container.abandonTasks.toFinset
      tasks := s.tasks ++ container.tasks
      containers := s.containers.set i { container with tasks := [], abandonTasks := [] }
      destroyPc := .draining (i + 1) } := by
  have hran := ho.ran_le
  have hall := ho.le_ran
  have hactive := ho.active
  simp only [hpc, DestroyPc.done, DestroyPc.todo] at hran hall hactive
  refine { ho with halves := ?_, ran_le := hran, le_ran := hall, active := ?_, queued := ?_
                   clock := ?_, due := LoopDue.of_exited hloop }
  · exact fun u => Nat.zero_add _
  · intro u hu hun
    have hnot : u.taskId ∉ container.abandonTasks.toFinset := fun hx =>
      hun (ho.queued container (mem_of_getElem? hi) _ (List.mem_toFinset.mp hx))
    refine Finset.mem_sdiff.mpr ⟨?_, hnot⟩
    rcases hu with hu | hu
    · rcases List.mem_append.mp hu with hu | hu
      · exact Finset.mem_union_left _ (hactive u (Or.inl hu) hun)
      · exact Finset.mem_union_right _ (List.mem_toFinset.mpr (List.mem_map_of_mem hu))
    · exact Finset.mem_union_left _ (hactive u (Or.inr hu) hun)
  · intro k hk
    rcases List.mem_or_eq_of_mem_set hk with hk | rfl
    · exact ho.queued k hk
    · exact fun x hx => absurd hx List.not_mem_nil
  · exact fun e he => (ho.clock e he).imp_right fun h => ⟨h.1, rfl⟩

theorem Once.runOne (hl : Ledger s) (ho : Once s) {done rest : List TimerTask} {task : TimerTask}
    (hpc : s.destroyPc = .running done (task :: rest)) :
    Once { s with
      activeIds := s.activeIds.erase task.taskId
      destroyPc := .running (done ++ [task]) rest
      executed := s.executed ++ [⟨task, none⟩] } := by
  have hloop := hl.joined (by rw [hpc]; rfl)
  have hhalves := ho.halves
  have hran := ho.ran_le
  have hall := ho.le_ran
  have hactive := ho.active
  simp only [hpc, hloop, DestroyPc.done, DestroyPc.todo, TimeLoopPc.inHand, List.not_mem_nil,
    or_false] at hhalves hran hall hactive
  refine { ho with halves := ?_, ran_le := ?_, le_ran := ?_, active := ?_, clock := ?_ }
  · intro u
    have hu := hhalves u
    simp only [DestroyPc.done, DestroyPc.todo, List.count_append, List.count_cons,
      List.count_nil] at hu ⊢
    omega
  · intro u
    have hu := hran u
    simp only [ran, hloop, DestroyPc.done, TimeLoopPc.inHand, List.map_append, List.map_cons,
      List.map_nil, List.count_append] at hu ⊢
    omega
  · intro u hun
    have hu := hall u hun
    simp only [ran, hloop, DestroyPc.done, TimeLoopPc.inHand, List.map_append, List.map_cons,
      List.map_nil, List.count_append] at hu ⊢
    omega
  · intro u hu hun
    simp only [hloop, TimeLoopPc.inHand, DestroyPc.todo, List.not_mem_nil, or_false] at hu
    refine Finset.mem_erase.mpr ⟨fun hid => ?_, hactive u (List.mem_cons_of_mem _ hu) hun⟩
    -- a second task with this id would be the same task, twice on the heap
    have hheap : ∀ v ∈ task :: rest, v ∈ s.tasks := by
      intro v hv
      have hcount := hhalves v
      have hpos := List.count_pos_iff.mpr hv
      exact List.count_pos_iff.mp (by omega)
    obtain rfl := hl.taskId_inj
      (hl.accepted_of_placed (Or.inr (Or.inl (hheap u (List.mem_cons_of_mem _ hu)))))
      (hl.accepted_of_placed (Or.inr (Or.inl (hheap task (List.mem_cons_self ..))))) hid
    have hcount := hhalves u
    have hplaced := hl.placed u
    have hone := hl.accepted_count_le u
    have hrest := List.count_pos_iff.mpr hu
    rw [List.count_cons_self] at hcount
    omega
  · intro e he
    rcases List.mem_append.mp he with he | he
    · exact (ho.clock e he).imp_right fun h => ⟨h.1, rfl⟩
    · rw [List.mem_singleton.mp he]
      exact Or.inr ⟨rfl, rfl⟩

theorem Once.skipOne (hl : Ledger s) (ho : Once s) {done rest : List TimerTask} {task : TimerTask}
    (hpc : s.destroyPc = .running done (task :: rest)) (hid : task.taskId ∉ s.activeIds) :
    Once { s with destroyPc := .running (done ++ [task]) rest } := by
  have hloop := hl.joined (by rw [hpc]; rfl)
  have hhalves := ho.halves
  have hran := ho.ran_le
  have hall := ho.le_ran
  have hactive := ho.active
  simp only [hpc, hloop, DestroyPc.done, DestroyPc.todo, TimeLoopPc.inHand, List.not_mem_nil,
    or_false] at hhalves hran hall hactive
  refine { ho with halves := ?_, ran_le := ?_, le_ran := ?_, active := ?_, clock := ?_ }
  · intro u
    have hu := hhalves u
    simp only [DestroyPc.done, DestroyPc.todo, List.count_append, List.count_cons,
      List.count_nil] at hu ⊢
    omega
  · intro u
    have hu := hran u
    simp only [ran, hloop, DestroyPc.done, TimeLoopPc.inHand, List.count_append] at hu ⊢
    omega
  · intro u hun
    have hne : task ≠ u := by
      rintro rfl
      exact hid (hactive task (List.mem_cons_self ..) hun)
    have hu := hall u hun
    simp only [ran, hloop, DestroyPc.done, TimeLoopPc.inHand, List.count_append,
      List.count_singleton, beq_eq_false_iff_ne.mpr hne] at hu ⊢
    simpa using hu
  · intro u hu
    simp only [hloop, TimeLoopPc.inHand, DestroyPc.todo, List.not_mem_nil, or_false] at hu
    exact hactive u (List.mem_cons_of_mem _ hu)
  · exact fun e he => (ho.clock e he).imp_right fun h => ⟨h.1, rfl⟩

theorem Once.destroyStep (hl : Ledger s) (ho : Once s) (h : s.destroyStep = some s') :
    Once s' := by
  obtain ⟨pc, hpc, hm⟩ := destroyMove_of_destroyStep h
  cases hm with
  | join => exact ho.join (by rw [hpc]; rintro ⟨⟩)
  | drain hi => exact ho.drain (hl.joined (by rw [hpc]; rfl)) hpc hi
  | drained =>
    have hran := ho.ran_le
    have hall := ho.le_ran
    have hactive := ho.active
    simp only [hpc] at hran hall hactive
    exact { ho with
      halves := fun u => Nat.zero_add _
      ran_le := hran
      le_ran := hall
      active := hactive
      clock := fun e he => (ho.clock e he).imp_right fun h => ⟨h.1, rfl⟩ }
  | execute => exact ho.runOne hl hpc
  | inactive hid => exact ho.skipOne hl hpc hid
  | finish =>
    -- the second half of the heap is empty, so the first is all of it
    have hhalves := ho.halves
    have hran := ho.ran_le
    have hall := ho.le_ran
    have hactive := ho.active
    simp only [hpc, DestroyPc.done, DestroyPc.todo, List.count_nil, Nat.add_zero] at hhalves
    simp only [hpc, DestroyPc.done, hhalves] at hran hall
    simp only [hpc] at hactive
    exact { ho with
      halves := fun u => Nat.add_zero _
      ran_le := hran
      le_ran := hall
      active := hactive
      clock := fun e he => (ho.clock e he).imp_right fun h => ⟨h.1, rfl⟩ }

structure Stopping (s : TimeThread) : Prop where
  exit : s.exit = false → s.destroyPc = .notStarted
  outside : s.exit = true → ∀ c ∈ s.clients,
    c.pc.isOutside ∨ ∃ absTime fn, c.pc = .loadExit absTime fn
  drained : ∀ (j : ℕ) (container : TaskContainer), s.containers[j]? = some container →
    s.destroyPc.Past j → container.tasks = []

theorem stopping_init (n : ℕ) : Stopping (init n) where
  exit _ := rfl
  outside h := by cases h
  drained _ _ _ h := h.elim

theorem loopStep_frame {clock j : ℕ} (h : s.loopStep clock j = some s') :
    s'.exit = s.exit ∧ s'.clients = s.clients ∧ s'.destroyPc = s.destroyPc := by
  obtain ⟨pc, -, hm⟩ := loopMove_of_loopStep h
  cases hm <;> exact ⟨rfl, rfl, rfl⟩

theorem clientStep_of_isOutside (h : c.pc.isOutside) : s.clientStep p c = none := by
  obtain ⟨o, pc⟩ := c
  cases pc <;> first | rfl | cases h

theorem Stopping.client (hl : Ledger s) (hs : Stopping s) (hp : s.clients[p]? = some c)
    (h : s.clientStep p c = some s') : Stopping s' := by
  have hf := clientStep_frame hl hp h
  cases hexit : s.exit with
  | false =>
    have hexit' := hf.exit.trans hexit
    have hstart := hf.destroyPc.trans (hs.exit hexit)
    refine ⟨fun _ => hstart, fun h => ?_, fun j k _ hpast => ?_⟩
    · rw [hexit'] at h
      cases h
    · rw [hstart] at hpast
      exact hpast.elim
  | true =>
    have hmoved : ∃ fn, s' = s.refuse p c fn := by
      obtain ⟨o, pc⟩ := c
      rcases hs.outside hexit _ (mem_of_getElem? hp) with hout | ⟨absTime, fn, rfl⟩
      · rw [clientStep_of_isOutside hout] at h
        cases h
      · refine ⟨fn, ?_⟩
        simp only [TimeThread.clientStep, hexit, if_true, Option.some.injEq] at h
        exact h.symm
    obtain ⟨fn, rfl⟩ := hmoved
    refine ⟨hs.exit, fun hexit k hk => ?_, hs.drained⟩
    rcases List.mem_or_eq_of_mem_set hk with hk | rfl
    · exact hs.outside hexit k hk
    · exact Or.inl rfl

theorem Stopping.destroyStep (hs : Stopping s) (h : s.destroyStep = some s') : Stopping s' := by
  obtain ⟨pc, hpc, hm⟩ := destroyMove_of_destroyStep h
  have hdrained := hs.drained
  have hexit : pc ≠ .notStarted → s.exit = false → s'.destroyPc = .notStarted :=
    fun hne hexit => absurd (hpc.symm.trans (hs.exit hexit)) hne
  rw [hpc] at hdrained
  cases hm with
  | join =>
    exact ⟨hexit (by cases ·), hs.outside, fun j k _ hpast => absurd hpast (Nat.not_lt_zero j)⟩
  | @drain i container hi =>
    refine ⟨hexit (by cases ·), hs.outside, fun j k hk hpast => ?_⟩
    rcases Nat.lt_succ_iff_lt_or_eq.mp hpast with hj | rfl
    · rw [List.getElem?_set_ne hj.ne'] at hk
      exact hdrained j k hk hj
    · rw [List.getElem?_set_self (List.getElem?_eq_some_iff.mp hi).1] at hk
      rw [← Option.some.inj hk]
  | drained hnone =>
    refine ⟨hexit (by cases ·), hs.outside, fun j k hk _ => hdrained j k hk ?_⟩
    exact (List.getElem?_eq_some_iff.mp hk).1.trans_le (List.getElem?_eq_none_iff.mp hnone)
  | _ => exact ⟨hexit (by cases ·), hs.outside, hdrained⟩

theorem Stopping.step (hl : Ledger s) (hs : Stopping s) {a : TimeAct} (h : s.step a = some s') :
    Stopping s' := by
  cases a with
  | scheduleAbs p absTime =>
    obtain ⟨c, hp, h⟩ := Option.bind_eq_some_iff.mp h
    split_ifs at h with hc
    obtain rfl := Option.some.inj h
    refine ⟨hs.exit, fun hexit k hk => ?_, hs.drained⟩
    rcases List.mem_or_eq_of_mem_set hk with hk | rfl
    · exact hs.outside hexit k hk
    · exact Or.inr ⟨_, _, rfl⟩
  | unschedule p taskId =>
    obtain ⟨c, hp, h⟩ := Option.bind_eq_some_iff.mp h
    split_ifs at h with hc
    obtain rfl := Option.some.inj h
    refine ⟨hs.exit, fun hexit => ?_, hs.drained⟩
    rw [show s.exit = true from hexit] at hc
    cases hc.2
  | client p =>
    obtain ⟨c, hp, h⟩ := Option.bind_eq_some_iff.mp h
    exact hs.client hl hp h
  | loop clock j =>
    have hrun := hl.not_isJoined_of_loopStep h
    obtain ⟨hexit, hclients, hdestroy⟩ := loopStep_frame h
    refine ⟨?_, ?_, fun j k _ hpast => ?_⟩
    · rw [hexit, hdestroy]
      exact hs.exit
    · rw [hexit, hclients]
      exact hs.outside
    · rw [hdestroy] at hpast
      cases hpc : s.destroyPc <;> simp_all [DestroyPc.Past, DestroyPc.isJoined]
  | destroy =>
    simp only [TimeThread.step] at h
    split_ifs at h with hexit
    obtain rfl := Option.some.inj h
    exact ⟨(by cases ·), fun _ k hk => Or.inl (hexit.2 k hk), fun _ _ _ hpast => hpast.elim⟩
  | destroyStep => exact hs.destroyStep h

theorem Once.step (hl : Ledger s) (hs : Stopping s) (ho : Once s) {a : TimeAct}
    (h : s.step a = some s') : Once s' := by
  cases a with
  | scheduleAbs p absTime =>
    obtain ⟨c, hp, h⟩ := Option.bind_eq_some_iff.mp h
    split_ifs at h with hc
    obtain rfl := Option.some.inj h
    have hf := clientFrame_setPc hp ⟨c.localTask, .loadExit absTime s.calls⟩ (List.nil_subset _)
    exact { ho.of_frame hf with }
  | unschedule p taskId =>
    obtain ⟨c, hp, h⟩ := Option.bind_eq_some_iff.mp h
    split_ifs at h with hc
    obtain rfl := Option.some.inj h
    have hold : ∀ x ∈ s.unscheduled, x ∈ s.unscheduled ++ [taskId] :=
      fun x hx => List.mem_append_left _ hx
    refine { ho with le_ran := ?_, active := ?_, queued := ?_, asked := ?_ }
    · exact fun u hu => ho.le_ran u fun hx => hu (hold _ hx)
    · exact fun u hu hun => ho.active u hu fun hx => hun (hold _ hx)
    · exact fun k hk x hx => hold x (ho.queued k hk x hx)
    · intro k hk x hx
      rcases List.mem_or_eq_of_mem_set hk with hk | rfl
      · exact hold x (ho.asked k hk x hx)
      · exact List.mem_append_right _ hx
  | client p =>
    obtain ⟨c, hp, h⟩ := Option.bind_eq_some_iff.mp h
    exact ho.of_frame (clientStep_frame hl hp h)
  | loop clock j => exact ho.loopStep hl h
  | destroy =>
    simp only [TimeThread.step] at h
    split_ifs at h with hexit
    obtain rfl := Option.some.inj h
    have hstart := hs.exit hexit.1
    have hhalves := ho.halves
    have hran := ho.ran_le
    have hall := ho.le_ran
    have hactive := ho.active
    have hclock := ho.clock
    rw [hstart] at hhalves hran hall hactive hclock
    exact { ho with
      halves := hhalves
      ran_le := hran
      le_ran := hall
      active := hactive
      clock := hclock }
  | destroyStep => exact ho.destroyStep hl h

theorem once_run {n : ℕ} {as : List TimeAct} (h : run step (init n) as = some s) :
    Ledger s ∧ Stopping s ∧ Once s :=
  run_invariant
    (fun s _ _ (hi : Ledger s ∧ Stopping s ∧ Once s) hs =>
      ⟨hi.1.step hs, hi.2.1.step hi.1 hs, hi.2.2.step hi.1 hi.2.1 hs⟩)
    ⟨ledger_init n, stopping_init n, once_init n⟩ h

/-- The functions were called for tasks that were queued, for each at most once. -/
theorem Once.ran_subperm (hl : Ledger s) (ho : Once s) : s.ran.Subperm s.accepted := by
  rw [List.subperm_ext_iff]
  intro u _
  have hran := ho.ran_le u
  have hhalves := ho.halves u
  have hplaced := hl.placed u
  omega

theorem Once.ran_fn_count_le (hl : Ledger s) (ho : Once s) (f : ℕ) :
    (s.executed.map fun e => e.task.fn).count f ≤ (s.accepted.map TimerTask.fn).count f := by
  obtain ⟨tasks, hperm, hsub⟩ := ho.ran_subperm hl
  have hcount := (hperm.map TimerTask.fn).count_eq f
  rw [ran, List.map_map] at hcount
  exact hcount.symm.trans_le ((hsub.map TimerTask.fn).count_le f)

/-- When `destroy` has returned, what was not executed was passed to `unschedule`. -/
theorem Once.ran_of_returned (hl : Ledger s) (hs : Stopping s) (ho : Once s)
    (hdestroy : s.destroyPc = .returned) {u : TimerTask} (hret : u ∈ s.returned)
    (hun : u.taskId ∉ s.unscheduled) : u ∈ s.ran := by
  have hqueued : u ∉ s.queued := by
    intro hq
    obtain ⟨container, hc, hu⟩ := List.mem_flatMap.mp hq
    obtain ⟨j, hj⟩ := List.mem_iff_getElem?.mp hc
    rw [hs.drained j container hj (by rw [hdestroy]; trivial)] at hu
    cases hu
  have hloop := hl.joined (by rw [hdestroy]; rfl)
  have hall := ho.le_ran u hun
  simp only [hdestroy, hloop, DestroyPc.done, TimeLoopPc.inHand, List.count_nil] at hall
  rcases hl.placed_of_accepted (hl.accepted_of_returned hret) with hq | hheap | hpop
  · exact absurd hq hqueued
  · have hpos := List.count_pos_iff.mpr hheap
    exact List.count_pos_iff.mp (by omega)
  · have hpos := List.count_pos_iff.mpr hpop
    exact List.count_pos_iff.mp (by omega)

/-- Every call that has returned an id runs its function at most once, not before its time while the
timer thread runs, and exactly once by the end of `destroy` unless it was passed to
`unschedule`. -/
theorem accepted_tasks_run_once {n : ℕ} {as : List TimeAct}
    (h : run step (init n) as = some s) :
    (∀ u ∈ s.returned, u.taskId ≠ 0 ∧ (s.executed.map fun e => e.task.fn).count u.fn ≤ 1) ∧
      (∀ e ∈ s.executed, (∃ t, e.clock = some t ∧ e.task.absTime ≤ t) ∨
        e.clock = none ∧ s.loop = .exited) ∧
      (s.destroyPc = .returned → ∀ u ∈ s.returned, u.taskId ∉ s.unscheduled →
        (s.executed.map fun e => e.task.fn).count u.fn = 1) ∧
      ∀ f ∈ s.refused, f ∉ s.executed.map fun e => e.task.fn := by
  obtain ⟨hl, hs, ho⟩ := once_run h
  have hle : ∀ f, (s.executed.map fun e => e.task.fn).count f + s.refused.count f ≤ 1 := by
    intro f
    have hcount := ho.ran_fn_count_le hl f
    have huses := (hl.fns f).1
    rw [fnUses] at huses
    omega
  refine ⟨fun u hu => ⟨?_, ?_⟩, fun e he => ?_, fun hdestroy u hu hun => ?_, fun f hf hran => ?_⟩
  · have hid : 0 < (s.accepted.map TimerTask.taskId).count u.taskId :=
      List.count_pos_iff.mpr (List.mem_map_of_mem (hl.accepted_of_returned hu))
    have hpos := (hl.ids u.taskId).2
    rw [idUses] at hpos
    omega
  · exact (Nat.le_add_right _ _).trans (hle u.fn)
  · exact (ho.clock e he).imp_right fun hc => ⟨hc.1, hl.joined hc.2⟩
  · have hmem : u.fn ∈ s.executed.map fun e => e.task.fn := by
      obtain ⟨e, he, rfl⟩ := List.mem_map.mp (ho.ran_of_returned hl hs hdestroy hu hun)
      exact List.mem_map_of_mem he
    have hpos := List.count_pos_iff.mpr hmem
    have hone := hle u.fn
    omega
  · have hone := hle f
    have hpos := List.count_pos_iff.mpr hf
    have hran := List.count_pos_iff.mpr hran
    omega

/-- The first task is executed at time 10, the second one is still queued when
`destroy` begins, and the third call comes too late. -/
def destroyedRun : List TimeAct :=
  TimeAct.scheduleAbs 0 3 :: List.replicate 8 (TimeAct.client 0) ++
    List.replicate 19 (TimeAct.loop 10 0) ++
    TimeAct.scheduleAbs 0 50 :: List.replicate 8 (TimeAct.client 0) ++
    TimeAct.destroy :: List.replicate 6 (TimeAct.loop 10 0) ++
    List.replicate 5 TimeAct.destroyStep ++ [TimeAct.scheduleAbs 0 60, TimeAct.client 0]

theorem accepted_tasks_run_once_destroyed :
    ∃ s, run step (init 1) destroyedRun = some s ∧ s.destroyPc = .returned ∧
      s.returned = [⟨3, 1, 0⟩, ⟨50, 2, 1⟩] ∧ s.unscheduled = [] ∧ s.refused = [2] ∧
      (s.executed.map fun e => e.task.fn).count 0 = 1 ∧
      (s.executed.map fun e => e.task.fn).count 1 = 1 ∧
      2 ∉ s.executed.map fun e => e.task.fn := by
  have hend : ∃ s, run step (init 1) destroyedRun = some s ∧ s.destroyPc = .returned ∧
      s.returned = [⟨3, 1, 0⟩, ⟨50, 2, 1⟩] ∧ s.unscheduled = [] ∧ s.refused = [2] := by
    decide +kernel
  obtain ⟨s, hrun, hdestroy, hret, hun, href⟩ := hend
  obtain ⟨-, -, hall, hnone⟩ := accepted_tasks_run_once hrun
  rw [hret, hun] at hall
  rw [href] at hnone
  exact ⟨s, hrun, hdestroy, hret, hun, href, hall hdestroy ⟨3, 1, 0⟩ (by simp) (by simp),
    hall hdestroy ⟨50, 2, 1⟩ (by simp) (by simp), hnone 2 (List.mem_singleton_self 2)⟩

end TimeThread

end SofaBolt
