import Mathlib.Data.Finset.Basic
import SofaBolt.Run

/- Every atomic operation, every reading of the clock and every operation on a queue is a step
of its own. The queues are FIFO lists, and `_tasks` is a list of which a pop takes any least
task, as the heap operations leave open which one it is. -/

namespace SofaBolt

open Run

/-- `std::numeric_limits<size_t>::max()`. -/
def maxTime : ℕ := 2 ^ 64 - 1

structure TimerTask where
  absTime : ℕ
  taskId : ℕ
  fn : ℕ
deriving DecidableEq, Repr

inductive ContainerStatus where
  | available
  | inUse
  | reclaimed
deriving DecidableEq, Repr

structure TaskContainer where
  status : ContainerStatus
  tasks : List TimerTask
  abandonTasks : List ℕ
deriving DecidableEq, Repr

def taskQueueSize : ℕ := 4096

/-- The next step of a thread in `scheduleAbs` or, from `abandonGetLocal` on, in
`unschedule`. -/
inductive ClientPc where
  | idle
  | loadExit (absTime fn : ℕ)
  | getLocal (absTime fn : ℕ)
  | acquire (absTime fn : ℕ)
  | fetchId (absTime fn : ℕ)
  | push (task : TimerTask)
  | loadNearest (task : TimerTask)
  | compare (task : TimerTask) (nearestTime : ℕ)
  | finish (task : TimerTask)
  | returned (result : ℕ)
  | abandonGetLocal (taskId : ℕ)
  | abandonAcquire (taskId : ℕ)
  | abandonPush (taskId : ℕ)
  | abandoned (result : Bool)
deriving DecidableEq, Repr

structure Client where
  localTask : Option ℕ
  pc : ClientPc
deriving DecidableEq, Repr

def ClientPc.isOutside : ClientPc → Bool
  | .idle | .returned _ | .abandoned _ => true
  | _ => false

/-- Where `collectUnschedule(container)` goes on: it is called when the containers
are drained, and for a task that has been popped. -/
inductive AbandonReturn where
  | drain (size : ℕ)
  | collect (task : TimerTask) (clock size : ℕ)
deriving DecidableEq, Repr

inductive TimeLoopPc where
  | check
  | start
  | reset (nearestRunTime : ℕ)
  | count
  | container (i size : ℕ)
  | popTasks (i size left : ℕ)
  | countAbandon (i : ℕ) (ret : AbandonReturn)
  | popAbandon (i left : ℕ) (ret : AbandonReturn)
  | heap
  | loadNearest (clock : ℕ)
  | pop (clock : ℕ)
  | collectStart (task : TimerTask) (clock : ℕ)
  | collect (task : TimerTask) (clock i size : ℕ)
  | execute (task : TimerTask) (clock : ℕ)
  | nextNear
  | lower (nextNearTime nearestRunTime : ℕ)
  | curTime (nearestRunTime : ℕ)
  | waiting (nearestRunTime : ℕ)
  | exited
deriving DecidableEq, Repr

def AbandonReturn.pc (i : ℕ) : AbandonReturn → TimeLoopPc
  | .drain size => .container (i + 1) size
  | .collect task clock size => .collect task clock (i + 1) size

/-- The next step of `destroy`.  `running` has the tasks it has been through and
those it has not. -/
inductive DestroyPc where
  | notStarted
  | joining
  | draining (i : ℕ)
  | running (done rest : List TimerTask)
  | returned
deriving DecidableEq, Repr

def DestroyPc.isJoined : DestroyPc → Bool
  | .notStarted | .joining => false
  | _ => true

structure Execution where
  task : TimerTask
  clock : Option ℕ
deriving DecidableEq, Repr

/-- Behind the timer and its threads stands what has happened: the calls of `scheduleAbs`, what was
queued, returned, refused, popped, run and passed to `unschedule`, and what had returned when
the timer thread last loaded `_nearest_run_time` before a pop. -/
structure TimeThread where
  exit : Bool
  nearestRunTime : ℕ
  timerId : ℕ
  activeIds : Finset ℕ
  tasks : List TimerTask
  containers : List TaskContainer
  clients : List Client
  loop : TimeLoopPc
  destroyPc : DestroyPc
  calls : ℕ
  accepted : List TimerTask
  returned : List TimerTask
  refused : List ℕ
  popped : List TimerTask
  executed : List Execution
  unscheduled : List ℕ
  seen : List TimerTask
deriving DecidableEq

/-- `loop` carries the reading of the clock and which of the least tasks a pop
takes, for the steps that need it. -/
inductive TimeAct where
  | scheduleAbs (p absTime : ℕ)
  | unschedule (p taskId : ℕ)
  | client (p : ℕ)
  | loop (clock j : ℕ)
  | destroy
  | destroyStep
deriving DecidableEq, Repr

namespace TimeThread

def init (n : ℕ) : TimeThread where
  exit := false
  nearestRunTime := maxTime
  timerId := 1
  activeIds := ∅
  tasks := []
  containers := []
  clients := List.replicate n ⟨none, .idle⟩
  loop := .check
  destroyPc := .notStarted
  calls := 0
  accepted := []
  returned := []
  refused := []
  popped := []
  executed := []
  unscheduled := []
  seen := []

def setPc (s : TimeThread) (p : ℕ) (c : Client) (pc : ClientPc) : TimeThread :=
  { s with clients := s.clients.set p { c with pc } }

def refuse (s : TimeThread) (p : ℕ) (c : Client) (fn : ℕ) : TimeThread :=
  { s.setPc p c (.returned 0) with refused := s.refused ++ [fn] }

def acquireContainer (containers : List TaskContainer) : Option ℕ → List TaskContainer × ℕ
  | some i => (containers, i)
  | none =>
    match containers.findIdx? (fun c => c.status = .available) with
    | some i => (containers.modify i fun c => { c with status := .inUse }, i)
    | none => (containers ++ [⟨.inUse, [], []⟩], containers.length)

def localContainer (s : TimeThread) (c : Client) : Option (ℕ × TaskContainer) := do
  let i ← c.localTask
  let container ← s.containers[i]?
  some (i, container)

def clientStep (s : TimeThread) (p : ℕ) (c : Client) : Option TimeThread :=
  match c.pc with
  | .loadExit absTime fn =>
    some (if s.exit then s.refuse p c fn else s.setPc p c (.getLocal absTime fn))
  | .getLocal absTime fn =>
    some (if s.exit then s.refuse p c fn else s.setPc p c (.acquire absTime fn))
  | .acquire absTime fn =>
    let (containers, i) := acquireContainer s.containers c.localTask
    some { s.setPc p { c with localTask := some i } (.fetchId absTime fn) with containers }
  | .fetchId absTime fn =>
    some { s.setPc p c (.push ⟨absTime, s.timerId, fn⟩) with timerId := s.timerId + 1 }
  | .push task => do
    let (i, container) ← s.localContainer c
    if container.tasks.length < taskQueueSize then
      some { s.setPc p c (.loadNearest task) with
        containers := s.containers.set i { container with tasks := container.tasks ++ [task] }
        accepted := s.accepted ++ [task] }
    else some (s.refuse p c task.fn)
  | .loadNearest task => some (s.setPc p c (.compare task s.nearestRunTime))
  | .compare task nearestTime =>
    if nearestTime ≤ task.absTime then some (s.setPc p c (.finish task))
    else if s.nearestRunTime = nearestTime then
      some { s.setPc p c (.finish task) with nearestRunTime := task.absTime }
    else some (s.setPc p c (.compare task s.nearestRunTime))
  | .finish task =>
    some { s.setPc p c (.returned task.taskId) with returned := s.returned ++ [task] }
  | .abandonGetLocal taskId =>
    -- the null pointer is not tested
    if s.exit then none else some (s.setPc p c (.abandonAcquire taskId))
  | .abandonAcquire taskId =>
    let (containers, i) := acquireContainer s.containers c.localTask
    some { s.setPc p { c with localTask := some i } (.abandonPush taskId) with containers }
  | .abandonPush taskId => do
    let (i, container) ← s.localContainer c
    if container.abandonTasks.length < taskQueueSize then
      some { s.setPc p c (.abandoned true) with
        containers := s.containers.set i
          { container with abandonTasks := container.abandonTasks ++ [taskId] } }
    else some (s.setPc p c (.abandoned false))
  | .idle | .returned _ | .abandoned _ => none

def heapTop (tasks : List TimerTask) : Option ℕ := (tasks.map TimerTask.absTime).min?

def abandonOne (s : TimeThread) (i : ℕ) : Option TimeThread := do
  let container ← s.containers[i]?
  match container.abandonTasks with
  | [] => none
  | taskId :: rest => some { s with
      containers := s.containers.set i { container with abandonTasks := rest }
      activeIds := s.activeIds.erase taskId }

def collectOne (s : TimeThread) (i : ℕ) : Option TimeThread := do
  let container ← s.containers[i]?
  match container.tasks with
  | [] => none
  | task :: rest => some { s with
      containers := s.containers.set i { container with tasks := rest }
      activeIds := insert task.taskId s.activeIds
      tasks := s.tasks ++ [task] }

def loopStep (s : TimeThread) (clock j : ℕ) : Option TimeThread :=
  match s.loop with
  | .check => some { s with loop := if s.exit then .exited else .start }
  | .start => some { s with loop := .reset s.nearestRunTime }
  | .reset nearestRunTime =>
    if s.nearestRunTime = nearestRunTime then
      some { s with nearestRunTime := maxTime, loop := .count }
    -- an earlier task was announced since the load: return and loop again
    else some { s with loop := .check }
  | .count => some { s with loop := .container 0 s.containers.length }
  | .container i size =>
    if i < size then do
      let container ← s.containers[i]?
      if container.status = .available then some { s with loop := .container (i + 1) size }
      else some { s with loop := .popTasks i size container.tasks.length }
    else some { s with loop := .heap }
  | .popTasks i size left =>
    -- `left` counts down from the size read before the loop; later pushes stay queued
    match left with
    | 0 => some { s with loop := .countAbandon i (.drain size) }
    | left + 1 =>
      match s.collectOne i with
      | none => some { s with loop := .countAbandon i (.drain size) }
      | some s => some { s with loop := .popTasks i size left }
  | .countAbandon i ret => do
    let container ← s.containers[i]?
    some { s with loop := .popAbandon i container.abandonTasks.length ret }
  | .popAbandon i left ret =>
    match left with
    | 0 => some { s with loop := ret.pc i }
    | left + 1 =>
      match s.abandonOne i with
      | none => some { s with loop := ret.pc i }
      | some s => some { s with loop := .popAbandon i left ret }
  | .heap =>
    match heapTop s.tasks with
    | none => some { s with loop := .nextNear }
    | some top => some { s with loop := if clock < top then .nextNear else .loadNearest clock }
  | .loadNearest clock =>
    match heapTop s.tasks with
    | none => none
    | some top => some { s with
        loop := if s.nearestRunTime < top then .check else .pop clock
        seen := s.returned }
  | .pop clock => do
    -- the heap leaves open which of several earliest tasks is on top: `j` is its choice
    let task ← s.tasks[j]?
    if ∀ x ∈ s.tasks, task.absTime ≤ x.absTime then
      some { s with
        tasks := s.tasks.eraseIdx j
        loop := .collectStart task clock
        popped := s.popped ++ [task] }
    else none
  | .collectStart task clock => some { s with loop := .collect task clock 0 s.containers.length }
  | .collect task clock i size =>
    if i < size then do
      let container ← s.containers[i]?
      if container.status = .available then some { s with loop := .collect task clock (i + 1) size }
      else some { s with loop := .countAbandon i (.collect task clock size) }
    else some { s with loop := .execute task clock }
  | .execute task clock =>
    if task.taskId ∈ s.activeIds then
      some { s with
        activeIds := s.activeIds.erase task.taskId
        loop := .heap
        executed := s.executed ++ [⟨task, some clock⟩] }
    -- the id was abandoned: the task is dropped without a call
    else some { s with loop := .heap }
  | .nextNear =>
    some { s with loop := .lower ((heapTop s.tasks).getD maxTime) s.nearestRunTime }
  | .lower nextNearTime nearestRunTime =>
    if nextNearTime < nearestRunTime then
      if s.nearestRunTime = nearestRunTime then
        some { s with nearestRunTime := nextNearTime, loop := .lower nextNearTime nextNearTime }
      else some { s with loop := .lower nextNearTime s.nearestRunTime }
    else some { s with loop := .curTime nearestRunTime }
  | .curTime nearestRunTime =>
    some { s with loop := if nearestRunTime ≤ clock then .check else .waiting nearestRunTime }
  | .waiting _ => some { s with loop := .check }
  | .exited => none

def destroyStep (s : TimeThread) : Option TimeThread :=
  match s.destroyPc with
  | .joining => if s.loop = .exited then some { s with destroyPc := .draining 0 } else none
  | .draining i =>
    match s.containers[i]? with
    | some container => some { s with
        activeIds := (s.activeIds ∪ (container.tasks.map TimerTask.taskId).toFinset) \
          container.abandonTasks.toFinset
        tasks := s.tasks ++ container.tasks
        containers := s.containers.set i { container with tasks := [], abandonTasks := [] }
        destroyPc := .draining (i + 1) }
    | none => some { s with destroyPc := .running [] s.tasks }
  | .running done (task :: rest) =>
    if task.taskId ∈ s.activeIds then
      some { s with
        activeIds := s.activeIds.erase task.taskId
        destroyPc := .running (done ++ [task]) rest
        executed := s.executed ++ [⟨task, none⟩] }
    else some { s with destroyPc := .running (done ++ [task]) rest }
  | .running _ [] => some { s with destroyPc := .returned }
  | .notStarted | .returned => none

/-- `unschedule` is not called once `destroy` has begun, and `destroy` begins when
no other call is in progress. -/
def step (s : TimeThread) : TimeAct → Option TimeThread
  | .scheduleAbs p absTime => do
    let c ← s.clients[p]?
    if c.pc.isOutside then
      some { s.setPc p c (.loadExit absTime s.calls) with calls := s.calls + 1 }
    else none
  | .unschedule p taskId => do
    let c ← s.clients[p]?
    if c.pc.isOutside ∧ s.exit = false then
      some { s.setPc p c (.abandonGetLocal taskId) with
        unscheduled := s.unscheduled ++ [taskId] }
    else none
  | .client p => (s.clients[p]?).bind (s.clientStep p)
  | .loop clock j => s.loopStep clock j
  | .destroy =>
    if s.exit = false ∧ ∀ c ∈ s.clients, c.pc.isOutside then
      some { s with exit := true, destroyPc := .joining }
    else none
  | .destroyStep => s.destroyStep

/-- A branch of `loopStep` from the given place; `clock` is what the thread reads
in this step. -/
inductive LoopMove (s : TimeThread) (clock : ℕ) : TimeLoopPc → TimeThread → Prop
  | exit : s.exit = true → LoopMove s clock .check { s with loop := .exited }
  | loopOnce : s.exit = false → LoopMove s clock .check { s with loop := .start }
  | start : LoopMove s clock .start { s with loop := .reset s.nearestRunTime }
  | reset : LoopMove s clock (.reset s.nearestRunTime)
      { s with nearestRunTime := maxTime, loop := .count }
  | earlier {n} : LoopMove s clock (.reset n) { s with loop := .check }
  | count : LoopMove s clock .count { s with loop := .container 0 s.containers.length }
  | available {i size container} : s.containers[i]? = some container →
      container.status = .available →
      LoopMove s clock (.container i size) { s with loop := .container (i + 1) size }
  | container {i size container} : s.containers[i]? = some container →
      LoopMove s clock (.container i size)
        { s with loop := .popTasks i size container.tasks.length }
  | drained {i size} : size ≤ i → LoopMove s clock (.container i size) { s with loop := .heap }
  | collected {i size left} :
      (∀ container, s.containers[i]? = some container → left = 0 ∨ container.tasks = []) →
      LoopMove s clock (.popTasks i size left) { s with loop := .countAbandon i (.drain size) }
  | collect {i size left container task rest} : s.containers[i]? = some container →
      container.tasks = task :: rest →
      LoopMove s clock (.popTasks i size (left + 1)) { s with
        containers := s.containers.set i { container with tasks := rest }
        activeIds := insert task.taskId s.activeIds
        tasks := s.tasks ++ [task]
        loop := .popTasks i size left }
  | countAbandon {i ret left} : LoopMove s clock (.countAbandon i ret)
      { s with loop := .popAbandon i left ret }
  | abandoned {i left ret} :
      (∀ container, s.containers[i]? = some container → left = 0 ∨ container.abandonTasks = []) →
      LoopMove s clock (.popAbandon i left ret) { s with loop := ret.pc i }
  | abandon {i left ret container taskId rest} : s.containers[i]? = some container →
      container.abandonTasks = taskId :: rest →
      LoopMove s clock (.popAbandon i (left + 1) ret) { s with
        containers := s.containers.set i { container with abandonTasks := rest }
        activeIds := s.activeIds.erase taskId
        loop := .popAbandon i left ret }
  | early : (∀ x ∈ s.tasks, clock < x.absTime) → LoopMove s clock .heap { s with loop := .nextNear }
  | due {x} : x ∈ s.tasks → x.absTime ≤ clock →
      LoopMove s clock .heap { s with loop := .loadNearest clock }
  | again {t} : LoopMove s clock (.loadNearest t) { s with loop := .check, seen := s.returned }
  | load {t x} : x ∈ s.tasks → x.absTime ≤ s.nearestRunTime →
      LoopMove s clock (.loadNearest t) { s with loop := .pop t, seen := s.returned }
  | pop {t j task} : s.tasks[j]? = some task → (∀ x ∈ s.tasks, task.absTime ≤ x.absTime) →
      LoopMove s clock (.pop t) { s with
        tasks := s.tasks.eraseIdx j
        loop := .collectStart task t
        popped := s.popped ++ [task] }
  | collectStart {task t} : LoopMove s clock (.collectStart task t)
      { s with loop := .collect task t 0 s.containers.length }
  | collectAvailable {task t i size} : LoopMove s clock (.collect task t i size)
      { s with loop := .collect task t (i + 1) size }
  | collectContainer {task t i size} : LoopMove s clock (.collect task t i size)
      { s with loop := .countAbandon i (.collect task t size) }
  | collectEnd {task t i size} : LoopMove s clock (.collect task t i size)
      { s with loop := .execute task t }
  | execute {task t} : task.taskId ∈ s.activeIds → LoopMove s clock (.execute task t) { s with
      activeIds := s.activeIds.erase task.taskId
      loop := .heap
      executed := s.executed ++ [⟨task, some t⟩] }
  | inactive {task t} : task.taskId ∉ s.activeIds →
      LoopMove s clock (.execute task t) { s with loop := .heap }
  | nextNear {next} : (∀ x ∈ s.tasks, next ≤ x.absTime) →
      LoopMove s clock .nextNear { s with loop := .lower next s.nearestRunTime }
  | lower {next} : next < s.nearestRunTime → LoopMove s clock (.lower next s.nearestRunTime)
      { s with nearestRunTime := next, loop := .lower next next }
  | reload {next n} : LoopMove s clock (.lower next n)
      { s with loop := .lower next s.nearestRunTime }
  | lowered {next n} : n ≤ next → LoopMove s clock (.lower next n) { s with loop := .curTime n }
  | curTime {n} : LoopMove s clock (.curTime n) { s with loop := .check }
  | wait {n} : LoopMove s clock (.curTime n) { s with loop := .waiting n }
  | wake {n} : LoopMove s clock (.waiting n) { s with loop := .check }

theorem heapTop_eq_none {tasks : List TimerTask} : heapTop tasks = none ↔ tasks = [] := by
  rw [heapTop, List.min?_eq_none_iff, List.map_eq_nil_iff]

theorem heapTop_eq_some {tasks : List TimerTask} {top : ℕ} (h : heapTop tasks = some top) :
    (∃ x ∈ tasks, x.absTime = top) ∧ ∀ x ∈ tasks, top ≤ x.absTime := by
  obtain ⟨hmem, hle⟩ := List.min?_eq_some_iff.mp h
  exact ⟨List.mem_map.mp hmem, fun x hx => hle _ (List.mem_map_of_mem hx)⟩

theorem loopMove_of_loopStep {s s' : TimeThread} {clock j : ℕ}
    (h : s.loopStep clock j = some s') : ∃ pc, s.loop = pc ∧ LoopMove s clock pc s' := by
  refine ⟨s.loop, rfl, ?_⟩
  cases hpc : s.loop with
  | check =>
    simp only [loopStep, hpc, Option.some.injEq] at h
    split_ifs at h with hexit <;> subst h
    · exact .exit hexit
    · exact .loopOnce (Bool.eq_false_iff.mpr hexit)
  | start =>
    simp only [loopStep, hpc, Option.some.injEq] at h
    exact h ▸ .start
  | reset n =>
    simp only [loopStep, hpc] at h
    -- the exchange succeeds only on the value loaded before
    split_ifs at h with hn <;> obtain rfl := Option.some.inj h
    · exact hn ▸ .reset
    · exact .earlier
  | count =>
    simp only [loopStep, hpc, Option.some.injEq] at h
    exact h ▸ .count
  | container i size =>
    simp only [loopStep, hpc] at h
    split_ifs at h with hi
    · obtain ⟨container, hc, h⟩ := Option.bind_eq_some_iff.mp h
      split_ifs at h with hs <;> obtain rfl := Option.some.inj h
      · exact .available hc hs
      · exact .container hc
    · exact Option.some.inj h ▸ .drained (Nat.le_of_not_lt hi)
  | popTasks i size left =>
    cases left with
    | zero =>
      simp only [loopStep, hpc, Option.some.injEq] at h
      exact h ▸ .collected fun _ _ => Or.inl rfl
    | succ left =>
      simp only [loopStep, hpc] at h
      cases hc : s.containers[i]? with
      | none =>
        rw [collectOne, hc] at h
        exact Option.some.inj h ▸ .collected fun _ hk => absurd (hc.symm.trans hk) (by cases ·)
      | some container =>
        cases hq : container.tasks with
        | nil =>
          simp only [collectOne, hc, Option.bind_eq_bind, Option.bind_some, hq] at h
          refine Option.some.inj h ▸ .collected fun k hk => Or.inr ?_
          rwa [← Option.some.inj (hc.symm.trans hk)]
        | cons task rest =>
          simp only [collectOne, hc, Option.bind_eq_bind, Option.bind_some, hq] at h
          exact Option.some.inj h ▸ .collect hc hq
  | countAbandon i ret =>
    simp only [loopStep, hpc] at h
    obtain ⟨container, -, h⟩ := Option.bind_eq_some_iff.mp h
    exact Option.some.inj h ▸ .countAbandon
  | popAbandon i left ret =>
    cases left with
    | zero =>
      simp only [loopStep, hpc, Option.some.injEq] at h
      exact h ▸ .abandoned fun _ _ => Or.inl rfl
    | succ left =>
      simp only [loopStep, hpc] at h
      cases hc : s.containers[i]? with
      | none =>
        rw [abandonOne, hc] at h
        exact Option.some.inj h ▸ .abandoned fun _ hk => absurd (hc.symm.trans hk) (by cases ·)
      | some container =>
        cases hq : container.abandonTasks with
        | nil =>
          simp only [abandonOne, hc, Option.bind_eq_bind, Option.bind_some, hq] at h
          refine Option.some.inj h ▸ .abandoned fun k hk => Or.inr ?_
          rwa [← Option.some.inj (hc.symm.trans hk)]
        | cons taskId rest =>
          simp only [abandonOne, hc, Option.bind_eq_bind, Option.bind_some, hq] at h
          exact Option.some.inj h ▸ .abandon hc hq
  | heap =>
    -- an empty heap and a top that is not due leave the loop in the same way
    simp only [loopStep, hpc] at h
    cases htop : heapTop s.tasks with
    | none =>
      simp only [htop, Option.some.injEq] at h
      exact h ▸ .early (by simp [heapTop_eq_none.mp htop])
    | some top =>
      obtain ⟨⟨x, hx, rfl⟩, hle⟩ := heapTop_eq_some htop
      simp only [htop, Option.some.injEq] at h
      split_ifs at h with hlt <;> subst h
      · exact .early fun y hy => hlt.trans_le (hle y hy)
      · exact .due hx (Nat.le_of_not_lt hlt)
  | loadNearest t =>
    simp only [loopStep, hpc] at h
    cases htop : heapTop s.tasks with
    | none => simp [htop] at h
    | some top =>
      obtain ⟨⟨x, hx, rfl⟩, hle⟩ := heapTop_eq_some htop
      simp only [htop, Option.some.injEq] at h
      split_ifs at h with hlt <;> subst h
      · exact .again
      · exact .load hx (Nat.le_of_not_lt hlt)
  | pop t =>
    simp only [loopStep, hpc] at h
    obtain ⟨task, htask, h⟩ := Option.bind_eq_some_iff.mp h
    split_ifs at h with hle
    exact Option.some.inj h ▸ .pop htask hle
  | collectStart task t =>
    simp only [loopStep, hpc, Option.some.injEq] at h
    exact h ▸ .collectStart
  | collect task t i size =>
    simp only [loopStep, hpc] at h
    split_ifs at h with hi
    · obtain ⟨container, hc, h⟩ := Option.bind_eq_some_iff.mp h
      split_ifs at h with hs <;> obtain rfl := Option.some.inj h
      · exact .collectAvailable
      · exact .collectContainer
    · exact Option.some.inj h ▸ .collectEnd
  | execute task t =>
    simp only [loopStep, hpc] at h
    split_ifs at h with hid <;> obtain rfl := Option.some.inj h
    · exact .execute hid
    · exact .inactive hid
  | nextNear =>
    simp only [loopStep, hpc, Option.some.injEq] at h
    subst h
    cases htop : heapTop s.tasks with
    | none => exact .nextNear (by simp [heapTop_eq_none.mp htop])
    | some top => exact .nextNear (heapTop_eq_some htop).2
  | lower next n =>
    simp only [loopStep, hpc] at h
    split_ifs at h with hlt hn <;> obtain rfl := Option.some.inj h
    · subst hn
      exact .lower hlt
    · exact .reload
    · exact .lowered (Nat.le_of_not_lt hlt)
  | curTime n =>
    simp only [loopStep, hpc, Option.some.injEq] at h
    split_ifs at h <;> subst h
    · exact .curTime
    · exact .wait
  | waiting n =>
    simp only [loopStep, hpc, Option.some.injEq] at h
    exact h ▸ .wake
  | exited => simp [loopStep, hpc] at h

inductive DestroyMove (s : TimeThread) : DestroyPc → TimeThread → Prop
  | join : s.loop = .exited → DestroyMove s .joining { s with destroyPc := .draining 0 }
  | drain {i container} : s.containers[i]? = some container →
      DestroyMove s (.draining i) { s with
        activeIds := (s.activeIds ∪ (container.tasks.map TimerTask.taskId).toFinset) \
          container.abandonTasks.toFinset
        tasks := s.tasks ++ container.tasks
        containers := s.containers.set i { container with tasks := [], abandonTasks := [] }
        destroyPc := .draining (i + 1) }
  | drained {i} : s.containers[i]? = none →
      DestroyMove s (.draining i) { s with destroyPc := .running [] s.tasks }
  | execute {done task rest} : task.taskId ∈ s.activeIds →
      DestroyMove s (.running done (task :: rest)) { s with
        activeIds := s.activeIds.erase task.taskId
        destroyPc := .running (done ++ [task]) rest
        executed := s.executed ++ [⟨task, none⟩] }
  | inactive {done task rest} : task.taskId ∉ s.activeIds →
      DestroyMove s (.running done (task :: rest))
        { s with destroyPc := .running (done ++ [task]) rest }
  | finish {done} : DestroyMove s (.running done []) { s with destroyPc := .returned }

theorem destroyMove_of_destroyStep {s s' : TimeThread} (h : s.destroyStep = some s') :
    ∃ pc, s.destroyPc = pc ∧ DestroyMove s pc s' := by
  refine ⟨s.destroyPc, rfl, ?_⟩
  cases hpc : s.destroyPc with
  | notStarted => simp [destroyStep, hpc] at h
  | joining =>
    simp only [destroyStep, hpc] at h
    split_ifs at h with hloop
    exact Option.some.inj h ▸ .join hloop
  | draining i =>
    simp only [destroyStep, hpc] at h
    split at h
    next container hi => exact Option.some.inj h ▸ .drain hi
    next hnone => exact Option.some.inj h ▸ .drained hnone
  | running done rest =>
    cases rest with
    | nil =>
      simp only [destroyStep, hpc, Option.some.injEq] at h
      exact h ▸ .finish
    | cons task rest =>
      simp only [destroyStep, hpc] at h
      split_ifs at h with hid <;> obtain rfl := Option.some.inj h
      · exact .execute hid
      · exact .inactive hid
  | returned => simp [destroyStep, hpc] at h

end TimeThread

end SofaBolt
