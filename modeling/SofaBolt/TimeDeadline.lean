import SofaBolt.TimeLedger

/- A task that waits in a container is announced: `_nearest_run_time` is at most its deadline,
or the thread that has queued it has not compared the two yet. The exceptions are the tasks
that the timer thread collects after it has reset `_nearest_run_time`. -/

namespace SofaBolt

open Run

/-- The timer thread collects the task at place `pos` of container `j` before it
looks at `_nearest_run_time` again. -/
def TimeLoopPc.Collects : TimeLoopPc → ℕ → ℕ → Prop
  | .count, _, _ => True
  | .container i size, j, _ => i ≤ j ∧ j < size
  | .popTasks i size left, j, pos => (j = i ∧ pos < left) ∨ (i < j ∧ j < size)
  | .countAbandon i (.drain size), j, _ => i < j ∧ j < size
  | .popAbandon i _ (.drain size), j, _ => i < j ∧ j < size
  | _, _, _ => False

def ClientPc.comparing : ClientPc → List TimerTask
  | .loadNearest task | .compare task _ => [task]
  | _ => []

theorem ClientPc.comparing_subset_posted (pc : ClientPc) : pc.comparing ⊆ pc.posted := by
  cases pc <;> simp [ClientPc.comparing, ClientPc.posted]

theorem ClientPc.comparing_of_isOutside (pc : ClientPc) (h : pc.isOutside) :
    pc.comparing = [] := by
  cases pc <;> first | rfl | cases h

namespace TimeThread

def taskAt (containers : List TaskContainer) (j pos : ℕ) : Option TimerTask :=
  containers[j]?.bind fun container => container.tasks[pos]?

structure Announced (nearestRunTime : ℕ) (clients : List Client) (u : TimerTask) : Prop where
  lowered : (∀ c ∈ clients, u ∉ c.pc.comparing) → nearestRunTime ≤ u.absTime
  loaded : ∀ c ∈ clients, ∀ n, c.pc = .compare u n → nearestRunTime ≤ n

def LoopBound (s : TimeThread) : Prop :=
  match s.loop with
  | .pop _ => ∀ u ∈ s.seen, u ∉ s.popped → ∃ x ∈ s.tasks, x.absTime ≤ u.absTime
  | .lower next _ => ∀ x ∈ s.tasks, next ≤ x.absTime
  | .curTime n => ∀ x ∈ s.tasks, n ≤ x.absTime
  | .waiting n => ∀ x ∈ s.tasks, n ≤ x.absTime
  | _ => True

structure Deadline (s : TimeThread) : Prop where
  announced : ∀ j pos u, taskAt s.containers j pos = some u → ¬s.loop.Collects j pos →
    Announced s.nearestRunTime s.clients u
  bound : LoopBound s

theorem deadline_init (n : ℕ) : Deadline (init n) where
  announced j pos u h := by cases h
  bound := trivial

variable {s s' : TimeThread} {p : ℕ} {c : Client}

theorem taskAt_set {containers : List TaskContainer} {i : ℕ} (container : TaskContainer)
    (j pos : ℕ) (hi : i < containers.length) :
    taskAt (containers.set i container) j pos =
      if i = j then container.tasks[pos]? else taskAt containers j pos := by
  rw [taskAt, List.getElem?_set]
  split_ifs with hj
  · rfl
  · rfl

theorem taskAt_append_empty (containers : List TaskContainer) (status : ContainerStatus)
    (j pos : ℕ) : taskAt (containers ++ [⟨status, [], []⟩]) j pos = taskAt containers j pos := by
  rw [taskAt, taskAt, List.getElem?_append]
  split_ifs with hj
  · rfl
  · rw [List.getElem?_eq_none (Nat.le_of_not_lt hj)]
    cases j - containers.length <;> simp

theorem exists_taskAt {u : TimerTask} (h : u ∈ s.queued) :
    ∃ j pos, taskAt s.containers j pos = some u := by
  obtain ⟨container, hc, hu⟩ := List.mem_flatMap.mp h
  obtain ⟨j, hj⟩ := List.mem_iff_getElem?.mp hc
  obtain ⟨pos, hpos⟩ := List.mem_iff_getElem?.mp hu
  exact ⟨j, pos, by rw [taskAt, hj]; exact hpos⟩

theorem Announced.mono {n n' : ℕ} {clients : List Client} {u : TimerTask}
    (h : Announced n clients u) (hn : n' ≤ n) : Announced n' clients u where
  lowered hu := hn.trans (h.lowered hu)
  loaded c hc m hm := hn.trans (h.loaded c hc m hm)

theorem Announced.set {n : ℕ} {clients : List Client} {u : TimerTask} (h : Announced n clients u)
    (hp : clients[p]? = some c) {c' : Client}
    (hcomparing : u ∈ c.pc.comparing → u ∈ c'.pc.comparing ∨ n ≤ u.absTime)
    (hloaded : ∀ m, c'.pc = .compare u m → n ≤ m) : Announced n (clients.set p c') u where
  lowered hu := by
    by_cases hc : u ∈ c.pc.comparing
    · rcases hcomparing hc with hc' | hle
      · exact absurd hc' (hu c' (List.mem_set (List.getElem?_eq_some_iff.mp hp).1 c'))
      · exact hle
    · apply h.lowered
      intro k hk
      by_cases hkc : k = c
      · rwa [hkc]
      · exact hu k (mem_set_of_ne hp hkc hk)
  loaded k hk m hm := by
    rcases List.mem_or_eq_of_mem_set hk with hk | rfl
    · exact h.loaded k hk m hm
    · exact hloaded m hm

theorem Deadline.update (hd : Deadline s) (hp : s.clients[p]? = some c) {c' : Client}
    (hclients : s'.clients = s.clients.set p c') (hloop : s'.loop = s.loop) (hbound : LoopBound s')
    (hnear : s'.nearestRunTime ≤ s.nearestRunTime)
    (htasks : ∀ j pos u, taskAt s'.containers j pos = some u →
      taskAt s.containers j pos = some u ∨ Announced s'.nearestRunTime s'.clients u)
    (hcomparing : ∀ u ∈ c.pc.comparing, Announced s.nearestRunTime s.clients u →
      u ∈ c'.pc.comparing ∨ s'.nearestRunTime ≤ u.absTime)
    (hloaded : ∀ u n, c'.pc = .compare u n → s'.nearestRunTime ≤ n) : Deadline s' where
  announced j pos u hu hz := by
    rcases htasks j pos u hu with hold | hnew
    · rw [hloop] at hz
      rw [hclients]
      have ha := hd.announced j pos u hold hz
      exact (ha.mono hnear).set hp (fun hu => hcomparing u hu ha) (hloaded u)
    · exact hnew
  bound := hbound

theorem Deadline.setClient (hd : Deadline s) (hp : s.clients[p]? = some c) (c' : Client)
    (hc : c.pc.comparing = []) (hc' : c'.pc.comparing = []) :
    Deadline { s with clients := s.clients.set p c' } := by
  refine hd.update hp rfl rfl hd.bound le_rfl (fun j pos u hu => Or.inl hu) ?_ ?_
  · rw [hc]
    exact fun u hu => absurd hu List.not_mem_nil
  · intro u n hn
    rw [hn] at hc'
    cases hc'

theorem Deadline.acquire (hl : Ledger s) (hd : Deadline s) (o : Option ℕ) :
    Deadline { s with containers := (acquireContainer s.containers o).1 } := by
  rw [hl.acquireContainer_eq]
  cases o with
  | some i => exact hd
  | none =>
    refine { hd with announced := fun j pos u hu hz => ?_ }
    rw [taskAt_append_empty] at hu
    exact hd.announced j pos u hu hz

theorem Deadline.setAbandonTasks (hd : Deadline s) {i : ℕ} {container : TaskContainer}
    (hi : s.containers[i]? = some container) (ids : List ℕ) :
    Deadline { s with
      containers := s.containers.set i { container with abandonTasks := ids } } := by
  obtain ⟨hlt, hget⟩ := List.getElem?_eq_some_iff.mp hi
  refine { hd with announced := fun j pos u hu hz => ?_ }
  refine hd.announced j pos u ?_ hz
  rw [taskAt_set _ _ _ hlt] at hu
  split_ifs at hu with hj
  · rw [← hj, taskAt, hi]
    exact hu
  · exact hu

theorem Deadline.push (hl : Ledger s) (hd : Deadline s) {task : TimerTask} {i : ℕ}
    {container : TaskContainer} (hp : s.clients[p]? = some c) (hc : c.pc = .push task)
    (hi : s.containers[i]? = some container) :
    Deadline { s.setPc p c (.loadNearest task) with
      containers := s.containers.set i { container with tasks := container.tasks ++ [task] }
      accepted := s.accepted ++ [task] } := by
  obtain ⟨hlt, -⟩ := List.getElem?_eq_some_iff.mp hi
  have hplt := (List.getElem?_eq_some_iff.mp hp).1
  refine hd.update hp rfl rfl hd.bound le_rfl (fun j pos u hu => ?_) ?_ (by simp)
  · simp only [taskAt_set _ _ _ hlt] at hu
    split_ifs at hu with hj
    · rw [List.getElem?_append] at hu
      split_ifs at hu with hpos
      · left
        rw [← hj, taskAt, hi]
        exact hu
      · right
        obtain rfl : u = task := by
          rw [List.getElem?_singleton] at hu
          split_ifs at hu
          exact (Option.some.inj hu).symm
        refine ⟨fun hfree => ?_, fun k hk n hn => ?_⟩
        · exact absurd (List.mem_singleton_self u) (hfree _ (List.mem_set hplt _))
        · -- nobody else has this task
          rcases List.mem_or_eq_of_mem_set hk with hk | rfl
          · exact absurd (hl.accepted_of_posted hk (by simp [hn, ClientPc.posted]))
              (hl.not_accepted_of_push (mem_of_getElem? hp) hc)
          · cases hn
    · exact Or.inl hu
  · rw [hc]
    exact fun u hu => absurd hu List.not_mem_nil

theorem Deadline.clientStep (hl : Ledger s) (hd : Deadline s) (hp : s.clients[p]? = some c)
    (h : s.clientStep p c = some s') : Deadline s' := by
  obtain ⟨o, pc⟩ := c
  cases pc with
  | idle => cases h
  | returned result => cases h
  | abandoned result => cases h
  | loadExit absTime fn =>
    obtain rfl := Option.some.inj h
    split_ifs
    · exact { hd.setClient hp ⟨o, .returned 0⟩ rfl rfl with }
    · exact hd.setClient hp _ rfl rfl
  | getLocal absTime fn =>
    obtain rfl := Option.some.inj h
    split_ifs
    · exact { hd.setClient hp ⟨o, .returned 0⟩ rfl rfl with }
    · exact hd.setClient hp _ rfl rfl
  | acquire absTime fn =>
    obtain rfl := Option.some.inj h
    exact (hd.acquire hl o).setClient hp _ rfl rfl
  | fetchId absTime fn =>
    obtain rfl := Option.some.inj h
    exact { hd.setClient hp ⟨o, .push ⟨absTime, s.timerId, fn⟩⟩ rfl rfl with }
  | push task =>
    obtain ⟨⟨i, container⟩, hloc, h⟩ := Option.bind_eq_some_iff.mp h
    simp only at h
    split_ifs at h
    · exact Option.some.inj h ▸ hd.push hl hp rfl (localContainer_eq hloc)
    · exact Option.some.inj h ▸ { hd.setClient hp ⟨o, .returned 0⟩ rfl rfl with }
  | loadNearest task =>
    -- the value just loaded is the current one, so it bounds itself
    obtain rfl := Option.some.inj h
    refine hd.update hp rfl rfl hd.bound le_rfl (fun j pos u hu => Or.inl hu)
      (fun u hu _ => Or.inl hu) ?_
    rintro u n ⟨⟩
    exact le_rfl
  | compare task nearestTime =>
    simp only [TimeThread.clientStep] at h
    split_ifs at h with hle heq <;> obtain rfl := Option.some.inj h
    · -- nothing to lower: what was announced is at most the task's own time
      refine hd.update hp rfl rfl hd.bound le_rfl (fun j pos u hu => Or.inl hu) ?_ (by simp)
      intro u hu ha
      obtain rfl := List.mem_singleton.mp hu
      exact Or.inr ((ha.loaded _ (mem_of_getElem? hp) _ rfl).trans hle)
    · -- the exchange announces the task
      refine hd.update hp rfl rfl hd.bound (heq ▸ (Nat.lt_of_not_le hle).le)
        (fun j pos u hu => Or.inl hu) ?_ (by simp)
      intro u hu _
      obtain rfl := List.mem_singleton.mp hu
      exact Or.inr le_rfl
    · refine hd.update hp rfl rfl hd.bound le_rfl (fun j pos u hu => Or.inl hu)
        (fun u hu _ => Or.inl hu) ?_
      rintro u n ⟨⟩
      exact le_rfl
  | finish task =>
    obtain rfl := Option.some.inj h
    exact { hd.setClient hp ⟨o, .returned task.taskId⟩ rfl rfl with }
  | abandonGetLocal taskId =>
    simp only [TimeThread.clientStep] at h
    split_ifs at h
    exact Option.some.inj h ▸ hd.setClient hp _ rfl rfl
  | abandonAcquire taskId =>
    obtain rfl := Option.some.inj h
    exact (hd.acquire hl o).setClient hp _ rfl rfl
  | abandonPush taskId =>
    obtain ⟨⟨i, container⟩, hloc, h⟩ := Option.bind_eq_some_iff.mp h
    simp only at h
    split_ifs at h
    · obtain rfl := Option.some.inj h
      exact (hd.setAbandonTasks (localContainer_eq hloc) _).setClient hp ⟨o, .abandoned true⟩ rfl rfl
    · exact Option.some.inj h ▸ hd.setClient hp _ rfl rfl

/-- The timer thread moves on; what it was to collect it still is. -/
theorem Deadline.go (hd : Deadline s) (pc : TimeLoopPc)
    (hz : ∀ j pos u, taskAt s.containers j pos = some u → s.loop.Collects j pos →
      pc.Collects j pos) (hbound : LoopBound { s with loop := pc }) :
    Deadline { s with loop := pc } where
  announced j pos u hu hpc := hd.announced j pos u hu fun hc => hpc (hz j pos u hu hc)
  bound := hbound

theorem lt_of_taskAt {containers : List TaskContainer} {j pos : ℕ} {u : TimerTask}
    (h : taskAt containers j pos = some u) : j < containers.length := by
  obtain ⟨container, hj, -⟩ := Option.bind_eq_some_iff.mp h
  exact (List.getElem?_eq_some_iff.mp hj).1

theorem lt_of_taskAt_eq {containers : List TaskContainer} {j pos : ℕ} {u : TimerTask}
    {container : TaskContainer} (h : taskAt containers j pos = some u)
    (hj : containers[j]? = some container) : pos < container.tasks.length := by
  rw [taskAt, hj] at h
  exact (List.getElem?_eq_some_iff.mp h).1

/-- Outside of the collection every task that was returned is announced. -/
theorem Deadline.nearest_le (hl : Ledger s) (hd : Deadline s)
    (hz : ∀ j pos, ¬s.loop.Collects j pos) {u : TimerTask} (hret : u ∈ s.returned)
    (hq : u ∈ s.queued) : s.nearestRunTime ≤ u.absTime := by
  obtain ⟨j, pos, hu⟩ := exists_taskAt hq
  apply (hd.announced j pos u hu (hz j pos)).lowered
  intro k hk hc
  exact hl.not_posted_of_returned hret hk (k.pc.comparing_subset_posted hc)

theorem Deadline.collect (hd : Deadline s) {i size left : ℕ} {container : TaskContainer}
    {task : TimerTask} {rest : List TimerTask} (hpc : s.loop = .popTasks i size (left + 1))
    (hi : s.containers[i]? = some container) (htasks : container.tasks = task :: rest) :
    Deadline { s with
      containers := s.containers.set i { container with tasks := rest }
      activeIds := insert task.taskId s.activeIds
      tasks := s.tasks ++ [task]
      loop := .popTasks i size left } where
  announced j pos u hu hz := by
    obtain ⟨hlt, -⟩ := List.getElem?_eq_some_iff.mp hi
    simp only [taskAt_set _ _ _ hlt] at hu
    simp only [TimeLoopPc.Collects] at hz
    split_ifs at hu with hj
    · -- what stood at `pos + 1` has moved up
      refine hd.announced j (pos + 1) u ?_ ?_
      · rw [← hj, taskAt, hi, Option.bind_some, htasks]
        exact hu
      · rw [hpc]
        simp only [TimeLoopPc.Collects]
        omega
    · refine hd.announced j pos u hu ?_
      rw [hpc]
      simp only [TimeLoopPc.Collects]
      omega
  bound := trivial

theorem Deadline.loopStep (hl : Ledger s) (hd : Deadline s) {clock j : ℕ}
    (h : s.loopStep clock j = some s') : Deadline s' := by
  obtain ⟨pc, hpc, hm⟩ := loopMove_of_loopStep h
  have hb := hd.bound
  rw [LoopBound, hpc] at hb
  cases hm with
  | reset => exact ⟨fun _ _ _ _ hz => absurd trivial hz, trivial⟩
  | count =>
    refine hd.go _ (fun j pos u hu _ => ?_) trivial
    exact ⟨Nat.zero_le j, lt_of_taskAt hu⟩
  | available hi hstatus =>
    rw [hl.inUse _ (mem_of_getElem? hi)] at hstatus
    cases hstatus
  | container hi =>
    refine hd.go _ (fun j pos u hu hz => ?_) trivial
    rw [hpc] at hz
    obtain ⟨hle, hlt⟩ := hz
    rcases hle.eq_or_lt with rfl | hgt
    · exact Or.inl ⟨rfl, lt_of_taskAt_eq hu hi⟩
    · exact Or.inr ⟨hgt, hlt⟩
  | drained hsize =>
    refine hd.go _ (fun j pos u hu hz => ?_) trivial
    rw [hpc] at hz
    obtain ⟨hle, hlt⟩ := hz
    omega
  | collected hnone =>
    refine hd.go _ (fun j pos u hu hz => ?_) trivial
    rw [hpc] at hz
    rcases hz with ⟨rfl, hleft⟩ | hz
    · obtain ⟨container, hi, -⟩ := Option.bind_eq_some_iff.mp hu
      have hpos := lt_of_taskAt_eq hu hi
      rcases hnone container hi with rfl | hnil
      · omega
      · rw [hnil] at hpos
        cases hpos
    · exact hz
  | collect hi htasks => exact hd.collect hpc hi htasks
  | @countAbandon i ret left =>
    refine hd.go _ (fun j pos u hu hz => ?_) trivial
    rw [hpc] at hz
    cases ret with
    | drain size => exact hz
    | collect task clock size => exact hz
  | @abandoned i left ret _ =>
    cases ret with
    | drain size =>
      refine hd.go _ (fun j pos u hu hz => ?_) trivial
      rw [hpc] at hz
      exact ⟨hz.1, hz.2⟩
    | collect task clock size =>
      refine hd.go _ (fun j pos u hu hz => ?_) trivial
      rw [hpc] at hz
      exact hz
  | @abandon i left ret container taskId rest hi habandon =>
    refine { (hd.setAbandonTasks hi rest).go (.popAbandon i left ret)
      (fun j pos u hu hz => ?_) trivial with }
    change s.loop.Collects j pos at hz
    rw [hpc] at hz
    cases ret with
    | drain size => exact hz
    | collect task clock size => exact hz
  | again =>
    exact { hd.go .check (fun j pos u hu hz => by simp [hpc, TimeLoopPc.Collects] at hz)
      trivial with }
  | @load t x hx hle =>
    refine ⟨fun j pos u hu hz => hd.announced j pos u hu (by simp [hpc, TimeLoopPc.Collects]), ?_⟩
    intro u hret hpop
    rcases hl.placed_of_accepted (hl.accepted_of_returned hret) with hq | htask | hp
    · exact ⟨x, hx, hle.trans (hd.nearest_le hl (by simp [hpc, TimeLoopPc.Collects]) hret hq)⟩
    · exact ⟨u, htask, le_rfl⟩
    · exact absurd hp hpop
  | pop htask hle =>
    exact ⟨fun j pos u hu hz => hd.announced j pos u hu (by simp [hpc, TimeLoopPc.Collects]),
      trivial⟩
  | execute hid =>
    exact { hd.go .heap (fun j pos u hu hz => by simp [hpc, TimeLoopPc.Collects] at hz)
      trivial with }
  | nextNear hnext => exact hd.go _ (by simp [hpc, TimeLoopPc.Collects]) hnext
  | lower hlt =>
    exact ⟨fun j pos u hu hz => (hd.announced j pos u hu (by simp [hpc, TimeLoopPc.Collects])).mono
      hlt.le, hb⟩
  | reload => exact hd.go _ (by simp [hpc, TimeLoopPc.Collects]) hb
  | lowered hn => exact hd.go _ (by simp [hpc, TimeLoopPc.Collects]) fun x hx => hn.trans (hb x hx)
  | wait => exact hd.go _ (by simp [hpc, TimeLoopPc.Collects]) hb
  | _ => exact hd.go _ (by simp [hpc, TimeLoopPc.Collects]) trivial

theorem LoopBound.of_exited (h : s.loop = .exited) : LoopBound s := by
  rw [LoopBound, h]
  trivial

theorem Deadline.destroyStep (hl : Ledger s) (hd : Deadline s) (h : s.destroyStep = some s') :
    Deadline s' := by
  obtain ⟨pc, hpc, hm⟩ := destroyMove_of_destroyStep h
  cases hm with
  | drain hi =>
    refine ⟨fun j pos u hu hz => ?_, LoopBound.of_exited (hl.joined (by rw [hpc]; rfl))⟩
    simp only [taskAt_set _ _ _ (List.getElem?_eq_some_iff.mp hi).1] at hu
    split_ifs at hu
    · simp at hu
    · exact hd.announced j pos u hu hz
  | _ => exact { hd with }

theorem Deadline.step (hl : Ledger s) (hd : Deadline s) {a : TimeAct} (h : s.step a = some s') :
    Deadline s' := by
  cases a with
  | scheduleAbs p absTime =>
    obtain ⟨c, hp, h⟩ := Option.bind_eq_some_iff.mp h
    split_ifs at h with hc
    obtain rfl := Option.some.inj h
    exact { hd.setClient hp ⟨c.localTask, .loadExit absTime s.calls⟩
      (c.pc.comparing_of_isOutside hc) rfl with }
  | unschedule p taskId =>
    obtain ⟨c, hp, h⟩ := Option.bind_eq_some_iff.mp h
    split_ifs at h with hc
    obtain rfl := Option.some.inj h
    exact { hd.setClient hp ⟨c.localTask, .abandonGetLocal taskId⟩
      (c.pc.comparing_of_isOutside hc.1) rfl with }
  | client p =>
    obtain ⟨c, hp, h⟩ := Option.bind_eq_some_iff.mp h
    exact hd.clientStep hl hp h
  | loop clock j => exact hd.loopStep hl h
  | destroy =>
    simp only [TimeThread.step] at h
    split_ifs at h
    exact Option.some.inj h ▸ { hd with }
  | destroyStep => exact hd.destroyStep hl h

theorem deadline_run {n : ℕ} {as : List TimeAct} (h : run step (init n) as = some s) :
    Ledger s ∧ Deadline s :=
  run_invariant
    (fun s _ _ (hi : Ledger s ∧ Deadline s) hs => ⟨hi.1.step hs, hi.2.step hi.1 hs⟩)
    ⟨ledger_init n, deadline_init n⟩ h

/-- A pop takes a task that is due no later than any task whose call had returned
at the load before it; and a wait with bound `n` leaves out no task that is due
before `n`, unless the wait is over already. -/
theorem tasks_run_by_deadline {n : ℕ} {as : List TimeAct} (h : run step (init n) as = some s) :
    (∀ t clock j s', s.loop = .pop t → s.step (.loop clock j) = some s' →
      ∃ task, s'.popped = s.popped ++ [task] ∧
        ∀ u ∈ s.seen, u ∉ s'.popped → task.absTime ≤ u.absTime) ∧
      ∀ n, s.loop = .waiting n → ∀ u ∈ s.returned, u ∉ s.popped →
        n ≤ u.absTime ∨ s.nearestRunTime ≠ n := by
  obtain ⟨hl, hd⟩ := deadline_run h
  have hb := hd.bound
  constructor
  · intro t clock j s' hpc hstep
    obtain ⟨pc, hpc', hm⟩ := loopMove_of_loopStep hstep
    rw [hpc] at hpc'
    subst hpc'
    rw [LoopBound, hpc] at hb
    cases hm with
    | pop htask hle =>
      refine ⟨_, rfl, fun u hu hpop => ?_⟩
      obtain ⟨x, hx, hxu⟩ := hb u hu fun hmem => hpop (List.mem_append_left _ hmem)
      exact (hle x hx).trans hxu
  · intro n hpc u hret hpop
    rw [LoopBound, hpc] at hb
    by_cases hn : s.nearestRunTime = n
    · left
      rcases hl.placed_of_accepted (hl.accepted_of_returned hret) with hq | htask | hp
      · rw [← hn]
        exact hd.nearest_le hl (by simp [hpc, TimeLoopPc.Collects]) hret hq
      · exact hb u htask
      · exact absurd hp hpop
    · exact Or.inr hn

def twoCalls : List TimeAct :=
  .scheduleAbs 0 7 :: List.replicate 8 (.client 0) ++
    .scheduleAbs 1 3 :: List.replicate 8 (.client 1)

theorem tasks_run_by_deadline_two_calls :
    (∃ s s' task, run step (init 2) (twoCalls ++ List.replicate 17 (.loop 10 1)) = some s ∧
      s.loop = .pop 10 ∧ s.step (.loop 10 1) = some s' ∧ s'.popped = s.popped ++ [task] ∧
      ⟨7, 1, 0⟩ ∈ s.seen ∧ ⟨7, 1, 0⟩ ∉ s'.popped ∧ task.absTime ≤ 7) ∧
      ∃ s, run step (init 2) (twoCalls ++ List.replicate 20 (.loop 1 1)) = some s ∧
        s.loop = .waiting 3 ∧ ⟨3, 2, 1⟩ ∈ s.returned ∧ ⟨3, 2, 1⟩ ∉ s.popped ∧
        (3 ≤ 3 ∨ s.nearestRunTime ≠ 3) := by
  constructor
  · have hpop : ∃ s, run step (init 2) (twoCalls ++ List.replicate 17 (.loop 10 1)) = some s ∧
        s.loop = .pop 10 ∧ ⟨7, 1, 0⟩ ∈ s.seen ∧
        ∃ s', s.step (.loop 10 1) = some s' ∧ ⟨7, 1, 0⟩ ∉ s'.popped := by
      decide +kernel
    obtain ⟨s, hrun, hloop, hseen, s', hstep, hfree⟩ := hpop
    obtain ⟨task, htask, hle⟩ := (tasks_run_by_deadline hrun).1 10 10 1 s' hloop hstep
    exact ⟨s, s', task, hrun, hloop, hstep, htask, hseen, hfree, hle _ hseen hfree⟩
  · have hwait : ∃ s, run step (init 2) (twoCalls ++ List.replicate 20 (.loop 1 1)) = some s ∧
        s.loop = .waiting 3 ∧ ⟨3, 2, 1⟩ ∈ s.returned ∧ ⟨3, 2, 1⟩ ∉ s.popped := by
      decide +kernel
    obtain ⟨s, hrun, hloop, hret, hfree⟩ := hwait
    exact ⟨s, hrun, hloop, hret, hfree, (tasks_run_by_deadline hrun).2 3 hloop _ hret hfree⟩

end TimeThread

end SofaBolt
