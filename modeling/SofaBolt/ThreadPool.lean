import SofaBolt.SPMCQueue

/- Each access to an atomic, a mutex, a queue or `_exit` is a step. A task is its number;
`executed` has the tasks that have been run, `returned` those whose `submit` has returned,
and `before` those of them for which that was before `~ThreadPool` began. -/

namespace SofaBolt.ThreadPool

open SPMC Run

inductive EThreadStatus where
  | active
  | standby
  | inactive
  | reclaimed
deriving DecidableEq, Repr

structure SingleThread where
  status : EThreadStatus
  tasks : Option (SPMCQueue ℕ)
  deleted : Bool
deriving DecidableEq, Repr

/-- Who tries to get a task: `tryConsume` in the loop, and behind it; `tryStealOne`, with its place
in `_tds`; the predicate of the wait, for the thread's own queue or for those in `_tds`. -/
inductive Caller where
  | consume (status : EThreadStatus)
  | drain
  | steal (status : EThreadStatus) (active i : ℕ)
  | getOwn (status : EThreadStatus)
  | getOne (status : EThreadStatus) (active i : ℕ)
deriving DecidableEq, Repr

/-- Where a worker is; `status` is what it has loaded in this round of its loop, and `task`
the variable that the predicate of the wait writes. -/
inductive WorkerPc where
  | loop
  | loadStatus
  | tryConsumeOne (w : ℕ) (k : Caller)
  | pop (w : ℕ) (k : Caller) (pc : SPMC.PopPc ℕ)
  | execute (x : ℕ) (again : Option (ℕ × Caller))
  | storeStandby
  | subActive
  | tryStealOne (status : EThreadStatus)
  | loadActive (status : EThreadStatus)
  | stealFrom (status : EThreadStatus) (active i : ℕ)
  | lockWakeup (status : EThreadStatus)
  | addWakeup (status : EThreadStatus)
  | predicate (status : EThreadStatus) (task : Option ℕ)
  | getActive (status : EThreadStatus) (task : Option ℕ)
  | getFrom (status : EThreadStatus) (task : Option ℕ) (active i : ℕ)
  | wait (status : EThreadStatus) (task : Option ℕ)
  | asleep (status : EThreadStatus) (task : Option ℕ)
  | awake (status : EThreadStatus) (task : Option ℕ)
  | subWakeup (task : Option ℕ)
  | unlockWakeup (task : Option ℕ)
  | exited
deriving DecidableEq, Repr

def Caller.failed (task : Option ℕ) : Caller → WorkerPc
  | .consume status => if status = .inactive then .storeStandby else .tryStealOne status
  | .drain => .exited
  | .steal status active i => .stealFrom status active (i + 1)
  | .getOwn status => .wait status task
  | .getOne status active i => .getFrom status task active (i + 1)

def Caller.got (w x : ℕ) : Caller → WorkerPc
  | .consume status => .execute x (some (w, .consume status))
  | .drain => .execute x (some (w, .drain))
  | .steal _ _ _ => .execute x none
  | .getOwn _ | .getOne _ _ _ => .subWakeup (some x)

/-- Where a submitting thread is in `submit`, or in `deleteThreadLocalPairThread` when it
ends; `again` is set once the compare-exchange of that one has succeeded. -/
inductive SubmitPc where
  | idle
  | testExit (x : ℕ)
  | loadActive (x : ℕ)
  | getSpecific (x : ℕ)
  | lockTd (x : ℕ)
  | scan (x i : ℕ)
  | makeQueue (x i : ℕ)
  | storeActive (x i : ℕ)
  | addActive (x i : ℕ)
  | setSpecific (x i : ℕ)
  | unlockTd (x : ℕ) (td : Option ℕ)
  | push (x w : ℕ) (pc : SPMC.PushPc ℕ)
  | runInline (x : ℕ)
  | loadWakeup (x : ℕ)
  | lockWakeup (x : ℕ)
  | notify (x : ℕ)
  | ret (x : ℕ)
  | deleteLoad
  | deleteCas (status : EThreadStatus) (again : Bool)
  | ended
deriving DecidableEq, Repr

structure Submitter where
  pc : SubmitPc
  paired : Option ℕ
deriving DecidableEq, Repr

inductive DestructorPc where
  | idle
  | lockWakeup
  | notify
  | join (i : ℕ)
  | loadStatus (i : ℕ)
  | returned
deriving DecidableEq, Repr

structure Pool where
  tdCapacity : ℕ
  queueSize : ℕ
  tds : List SingleThread
  workers : List WorkerPc
  submitters : List Submitter
  destructor : DestructorPc
  exit : Bool
  activeTdSize : ℕ
  needWakeup : ℕ
  tdMtx : Option ℕ
  wakeupMtx : Bool
  nextTask : ℕ
  executed : List ℕ
  returned : List ℕ
  before : List ℕ
deriving DecidableEq, Repr

namespace Pool

def init (capacity queueSize submitters : ℕ) : Pool where
  tdCapacity := capacity
  queueSize := queueSize
  tds := List.replicate capacity ⟨.standby, none, false⟩
  workers := List.replicate capacity .loop
  submitters := List.replicate submitters ⟨.idle, none⟩
  destructor := .idle
  exit := false
  activeTdSize := 0
  needWakeup := 0
  tdMtx := none
  wakeupMtx := false
  nextTask := 0
  executed := []
  returned := []
  before := []

def setWorker (s : Pool) (i : ℕ) (pc : WorkerPc) : Pool :=
  { s with workers := s.workers.set i pc }

/-- A step of the worker `i`.  One that has to wait for a mutex has none; neither has an
access beyond the end of `_tds` or through a null pointer. -/
def workerStep (s : Pool) (i : ℕ) : WorkerPc → Option Pool
  | .loop => some (s.setWorker i (if s.exit then .tryConsumeOne i .drain else .loadStatus))
  | .loadStatus => (s.tds[i]?).map fun td =>
    s.setWorker i (if td.status = .active ∨ td.status = .inactive then
      .tryConsumeOne i (.consume td.status) else .tryStealOne td.status)
  | .tryConsumeOne w k =>
    some (s.setWorker i (if s.exit then k.failed none else .pop w k (.loadRead none)))
  | .pop _ k (.returned false task) => some (s.setWorker i (k.failed task))
  | .pop w k (.returned true task) => task.map fun x => s.setWorker i (k.got w x)
  | .pop w k pc => (s.tds[w]?).bind fun td => td.tasks.bind fun q => (q.popStep pc).map fun r =>
    { s with
      tds := s.tds.set w { td with tasks := some r.1 }
      workers := s.workers.set i (.pop w k r.2) }
  | .execute x again =>
    some { s with
      executed := s.executed ++ [x]
      workers := s.workers.set i (again.elim .loop fun r => .tryConsumeOne r.1 r.2) }
  | .storeStandby => (s.tds[i]?).map fun td =>
    { s with
      tds := s.tds.set i { td with status := .standby }
      workers := s.workers.set i .subActive }
  | .subActive =>
    some { s with
      activeTdSize := (s.activeTdSize + (2 ^ 64 - 1)) % 2 ^ 64
      workers := s.workers.set i (.tryStealOne .inactive) }
  | .tryStealOne status =>
    some (s.setWorker i (if s.exit then .lockWakeup status else .loadActive status))
  | .loadActive status => some (s.setWorker i (.stealFrom status s.activeTdSize 0))
  | .stealFrom status active n =>
    if n < active then (s.tds[n]?).map fun td =>
      s.setWorker i (if td.status = .standby then .stealFrom status active (n + 1)
        else .tryConsumeOne n (.steal status active n))
    else some (s.setWorker i (.lockWakeup status))
  | .lockWakeup status =>
    if s.wakeupMtx then none
    else some { s with wakeupMtx := true, workers := s.workers.set i (.addWakeup status) }
  | .addWakeup status =>
    some { s with
      needWakeup := (s.needWakeup + 1) % 2 ^ 64
      workers := s.workers.set i (.predicate status none) }
  | .predicate status task =>
    some (s.setWorker i (if s.exit then .subWakeup task
      else if status = .standby then .getActive status task
      else .pop i (.getOwn status) (.loadRead task)))
  | .getActive status task => some (s.setWorker i (.getFrom status task s.activeTdSize 0))
  | .getFrom status task active n =>
    if n < active then (s.tds[n]?).map fun td =>
      s.setWorker i (if td.status = .standby then .getFrom status task active (n + 1)
        else .pop n (.getOne status active n) (.loadRead task))
    else some (s.setWorker i (.wait status task))
  | .wait status task =>
    some { s with wakeupMtx := false, workers := s.workers.set i (.asleep status task) }
  -- a wait may end without a notification
  | .asleep status task => some (s.setWorker i (.awake status task))
  | .awake status task =>
    if s.wakeupMtx then none
    else some { s with wakeupMtx := true, workers := s.workers.set i (.predicate status task) }
  | .subWakeup task =>
    some { s with
      needWakeup := (s.needWakeup + (2 ^ 64 - 1)) % 2 ^ 64
      workers := s.workers.set i (.unlockWakeup task) }
  | .unlockWakeup task =>
    some { s with
      wakeupMtx := false
      workers := s.workers.set i (task.elim .loop fun x => .execute x none) }
  | .exited => none

/-- `_td_wakeup.notify_all()`. -/
def wake : WorkerPc → WorkerPc
  | .asleep status task => .awake status task
  | pc => pc

def setSubmitter (s : Pool) (j : ℕ) (u : Submitter) : Pool :=
  { s with submitters := s.submitters.set j u }

def submitterStep (s : Pool) (j : ℕ) (paired : Option ℕ) : SubmitPc → Option Pool
  | .idle | .ended => none
  | .testExit x =>
    some (s.setSubmitter j ⟨if s.exit then .runInline x else .loadActive x, paired⟩)
  | .loadActive x =>
    some (s.setSubmitter j
      ⟨if s.activeTdSize = s.tdCapacity then .runInline x else .getSpecific x, paired⟩)
  | .getSpecific x =>
    some (s.setSubmitter j ⟨paired.elim (.lockTd x) fun w => .push x w (.loadWrite x), paired⟩)
  | .lockTd x =>
    if s.tdMtx = none then
      some { s with tdMtx := some j, submitters := s.submitters.set j ⟨.scan x 0, paired⟩ }
    else none
  | .scan x n =>
    if n < s.tdCapacity then (s.tds[n]?).map fun td =>
      s.setSubmitter j ⟨if td.status = .standby then .makeQueue x n else .scan x (n + 1), paired⟩
    else some (s.setSubmitter j ⟨.unlockTd x none, paired⟩)
  | .makeQueue x n => (s.tds[n]?).map fun td =>
    { s with
      tds := s.tds.set n
        { td with tasks := some (td.tasks.getD (SPMCQueue.init s.queueSize)) }
      submitters := s.submitters.set j ⟨.storeActive x n, paired⟩ }
  | .storeActive x n => (s.tds[n]?).map fun td =>
    { s with
      tds := s.tds.set n { td with status := .active }
      submitters := s.submitters.set j ⟨.addActive x n, paired⟩ }
  | .addActive x n =>
    some { s with
      activeTdSize := (s.activeTdSize + 1) % 2 ^ 64
      submitters := s.submitters.set j ⟨.setSpecific x n, paired⟩ }
  | .setSpecific x n => some (s.setSubmitter j ⟨.unlockTd x (some n), some n⟩)
  | .unlockTd x td =>
    some { s with
      tdMtx := none
      submitters := s.submitters.set j
        ⟨td.elim (.runInline x) fun w => .push x w (.loadWrite x), paired⟩ }
  | .push x _ (.returned result) =>
    some (s.setSubmitter j ⟨if result then .loadWakeup x else .runInline x, paired⟩)
  | .push x w pc => (s.tds[w]?).bind fun td => td.tasks.bind fun q => (q.pushStep pc).map fun r =>
    { s with
      tds := s.tds.set w { td with tasks := some r.1 }
      submitters := s.submitters.set j ⟨.push x w r.2, paired⟩ }
  | .runInline x =>
    some { s with
      executed := s.executed ++ [x]
      submitters := s.submitters.set j ⟨.loadWakeup x, paired⟩ }
  | .loadWakeup x =>
    some (s.setSubmitter j ⟨if 0 < s.needWakeup then .lockWakeup x else .ret x, paired⟩)
  | .lockWakeup x =>
    if s.wakeupMtx then none
    else some { s with wakeupMtx := true, submitters := s.submitters.set j ⟨.notify x, paired⟩ }
  | .notify x =>
    some { s with
      wakeupMtx := false
      workers := s.workers.map wake
      submitters := s.submitters.set j ⟨.ret x, paired⟩ }
  | .ret x =>
    some { s with
      returned := s.returned ++ [x]
      submitters := s.submitters.set j ⟨.idle, paired⟩ }
  | .deleteLoad => paired.bind fun w => (s.tds[w]?).map fun td =>
    s.setSubmitter j ⟨.deleteCas td.status false, paired⟩
  | .deleteCas status _ => paired.bind fun w => (s.tds[w]?).map fun td =>
    if status = .reclaimed then
      { s with
        tds := s.tds.set w { td with deleted := true }
        submitters := s.submitters.set j ⟨.ended, paired⟩ }
    else if td.status = status then
      { s with
        tds := s.tds.set w { td with status := .inactive }
        submitters := s.submitters.set j ⟨.deleteCas status true, paired⟩ }
    else s.setSubmitter j ⟨.ended, paired⟩

def destructorStep (s : Pool) : DestructorPc → Option Pool
  | .idle | .returned => none
  | .lockWakeup =>
    if s.wakeupMtx then none else some { s with wakeupMtx := true, destructor := .notify }
  | .notify =>
    some { s with wakeupMtx := false, workers := s.workers.map wake, destructor := .join 0 }
  | .join n =>
    if n < s.tdCapacity then
      if s.workers[n]? = some .exited then some { s with destructor := .loadStatus n } else none
    else some { s with destructor := .returned }
  | .loadStatus n => (s.tds[n]?).map fun td =>
    { s with
      tds := s.tds.set n { td with deleted := td.deleted || td.status = .standby }
      destructor := .join (n + 1) }

inductive Act where
  | submit (j : ℕ)
  | endThread (j : ℕ)
  | destroy
  | worker (i : ℕ)
  | submitter (j : ℕ)
  | destructor
deriving DecidableEq, Repr

def step (s : Pool) : Act → Option Pool
  | .submit j => (s.submitters[j]?).bind fun u =>
    if u.pc = .idle then
      some { s with
        nextTask := s.nextTask + 1
        submitters := s.submitters.set j ⟨.testExit s.nextTask, u.paired⟩ }
    else none
  | .endThread j => (s.submitters[j]?).bind fun u =>
    if u.pc = .idle then
      some (s.setSubmitter j ⟨if u.paired = none then .ended else .deleteLoad, u.paired⟩)
    else none
  | .destroy =>
    if s.destructor = .idle then
      some { s with exit := true, before := s.returned, destructor := .lockWakeup }
    else none
  | .worker i => (s.workers[i]?).bind (s.workerStep i)
  | .submitter j => (s.submitters[j]?).bind fun u => s.submitterStep j u.paired u.pc
  | .destructor => s.destructorStep s.destructor

end Pool

end SofaBolt.ThreadPool
