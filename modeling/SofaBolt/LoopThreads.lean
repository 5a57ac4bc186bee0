import SofaBolt.Run

/- Other threads add and remove descriptors while a loop thread works through its batch, which
a batch already taken does not notice. -/

namespace SofaBolt

open Run

inductive Handler where
  | onRead (socket : ℕ)
  | onReclaim (i : ℕ)
deriving DecidableEq, Repr

structure LoopEvent where
  fd : ℕ
  handler : Handler
  addedAt : ℕ
deriving DecidableEq, Repr

/-- Where a loop thread is in `loop_once`; `setting` and `removing` are inside `_on_reclaim[i]`,
after the word of its flag has been read, as the flags were, and after it has been written. -/
inductive HandlerPc where
  | polling
  | handling (e : LoopEvent)
  | setting (e : LoopEvent) (flags : List Bool)
  | removing (i : ℕ)
deriving DecidableEq, Repr

def HandlerPc.running : HandlerPc → Option LoopEvent
  | .handling e | .setting e _ => some e
  | .polling | .removing _ => none

/-- The flag that `_on_reclaim[i]` is about to write, in the word as it has read it. -/
def HandlerPc.writes : HandlerPc → Option (ℕ × List Bool)
  | .setting ⟨_, .onReclaim i, _⟩ flags => some (i, flags)
  | _ => none

/-- A loop thread: its epoll set, what is left of the batch it has taken, the time
it took it at, and when the events it has called the handlers of were added. -/
structure LoopThread where
  events : List LoopEvent
  batch : List LoopEvent
  pc : HandlerPc
  fetchedAt : ℕ
  executed : List ℕ
deriving DecidableEq, Repr

namespace LoopThread

def start : LoopThread where
  events := []
  batch := []
  pc := .polling
  fetchedAt := 0
  executed := []

/-- `EPOLL_CTL_ADD`, which fails for a descriptor that is in the set. -/
def addEvent (th : LoopThread) (e : LoopEvent) : LoopThread × Bool :=
  if e.fd ∈ th.events.map LoopEvent.fd then (th, false)
  else ({ th with events := th.events ++ [e] }, true)

def removeEvent (th : LoopThread) (fd : ℕ) : LoopThread :=
  { th with events := th.events.filter fun e => e.fd ≠ fd }

/-- `epoll_wait` returns the events of the descriptors that are ready, in the order
they have become ready in. -/
def fetch (th : LoopThread) (ready : List ℕ) (now : ℕ) : LoopThread :=
  { th with
    batch := ready.filterMap fun fd => th.events.find? fun e => e.fd = fd
    fetchedAt := now }

def call (th : LoopThread) (e : LoopEvent) : LoopThread :=
  { th with batch := th.batch.tail, pc := .handling e, executed := th.executed ++ [e.addedAt] }

def due (th : LoopThread) : List LoopEvent := th.pc.running.toList ++ th.batch

def pending (th : LoopThread) : List LoopEvent := th.events ++ th.due

end LoopThread

namespace Schedule

/-- The thread of a call: by the index if there is one, and by the descriptor
otherwise. -/
def scheduleIdx (size fd : ℕ) (idx : ℤ) : ℕ :=
  if 0 < idx then idx.toNat % size else fd % size

def addScheduleInternal (threads : List LoopThread) (e : LoopEvent) (idx : ℤ) :
    List LoopThread × Bool :=
  let i := scheduleIdx threads.length e.fd idx
  (threads.modify i fun th => (th.addEvent e).1, threads[i]?.any fun th => (th.addEvent e).2)

def removeSchedule (threads : List LoopThread) (fd : ℕ) (idx : ℤ) : List LoopThread :=
  threads.modify (scheduleIdx threads.length fd idx) fun th => th.removeEvent fd

end Schedule

end SofaBolt
