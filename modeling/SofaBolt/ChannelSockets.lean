import SofaBolt.ChannelLock

/- A channel owns a socket by holding the socket's `_sharers` lock exclusively; the socket
manager takes every socket of its list whose lock it can get. -/

namespace SofaBolt

open LifeCycleLock Run

inductive EConnectionType where
  | single
  | pooled
  | short
deriving DecidableEq, Repr

structure ManagedSocket where
  sharers : ℤ
  watched : Bool
deriving DecidableEq, Repr

/-- A `Channel`, or the one inside a `SubChannel`, which has a `parent`.  `live` tells
that its destructor has not run. -/
structure ChannelObject where
  core : Channel
  connectionType : EConnectionType
  parent : Option ℕ
  live : Bool
deriving DecidableEq, Repr

def ChannelObject.setCore (x : ChannelObject) (c : Channel) : ChannelObject := { x with core := c }

/-- Where a thread is: in `getSocketInternal` of a channel, or in `init` with some
sub channels still to connect. -/
inductive ChannelCall where
  | outside
  | getting (o : ℕ) (pc : GetSocketPc)
  | initPool (o left : ℕ)
deriving DecidableEq, Repr

structure ChannelSystem where
  sockets : List ManagedSocket
  objects : List ChannelObject
  threads : List ChannelCall
deriving DecidableEq, Repr

def socketTryExclusive (sharers : ℤ) : ℤ :=
  if (tryUpgrade sharers).1 then
    (LifeCycleLock.tryExclusive (tryUpgrade sharers).2).getD (tryUpgrade sharers).2
  else (tryUpgrade sharers).2

/-- `Channel::tryConnect`: the new socket is watched if `connect` succeeds, and is
given up otherwise. -/
def tryConnect (sockets : List ManagedSocket) (ok : Bool) : List ManagedSocket × Option ℕ :=
  if ok then (sockets ++ [⟨socketTryExclusive 0, true⟩], some sockets.length)
  else (sockets ++ [⟨LifeCycleLock.releaseExclusive (socketTryExclusive 0), false⟩], none)

def releaseSocket (sockets : List ManagedSocket) : Option ℕ → List ManagedSocket
  | some id =>
    match sockets[id]? with
    | some k => sockets.set id { k with sharers := LifeCycleLock.releaseExclusive k.sharers }
    | none => sockets
  | none => sockets

namespace ChannelCall

def object : ChannelCall → Option ℕ
  | .outside => none
  | .getting o _ => some o
  | .initPool o _ => some o

def next (o : ℕ) : GetSocketPc → ChannelCall
  | .outside _ => .outside
  | pc => .getting o pc

def initializes (o : ℕ) : ChannelCall → Bool
  | .initPool o' _ => o' == o
  | _ => false

end ChannelCall

def parentOf (objects : List ChannelObject) (o : ℕ) : Option ℕ := (objects[o]?).bind (·.parent)

/-- `init` and `destroy` of a channel, calls of `getSocket` by thread `p`, with the
outcomes of `active` and of `connect`; the two accesses of the manager to a lock. -/
inductive SystemAct where
  | init (p o : ℕ) (options : Option EConnectionType) (poolSize : ℤ) (ok : Bool)
  | destroy (o : ℕ)
  | getSocket (p o : ℕ)
  | getShort (o : ℕ) (ok : Bool)
  | step (p : ℕ) (active ok : Bool)
  | watchUpgrade (id : ℕ)
  | watchExclusive (id : ℕ)
deriving DecidableEq, Repr

namespace ChannelSystem

def init (channels n : ℕ) : ChannelSystem where
  sockets := []
  objects := List.replicate channels ⟨⟨0, none⟩, .single, none, true⟩
  threads := List.replicate n .outside

def inUse (s : ChannelSystem) (o : ℕ) : Bool :=
  s.threads.any fun t => match t.object with
    | some o' => o' == o || parentOf s.objects o' == some o
    | none => false

def initializing (s : ChannelSystem) (o : ℕ) : Bool :=
  s.threads.any fun t => t.initializes o ||
    match parentOf s.objects o with
    | some o' => t.initializes o'
    | none => false

def subSockets (s : ChannelSystem) (o : ℕ) : List (Option ℕ) :=
  (s.objects.filter fun x => x.parent == some o && x.live).map fun x => x.core.socket

/-- The destructors of the sub channels of `o`, which have the default options. -/
def destroySubs (s : ChannelSystem) (o : ℕ) : ChannelSystem :=
  { s with
    sockets := (s.subSockets o).foldl releaseSocket s.sockets
    objects := s.objects.map fun x => if x.parent = some o then { x with live := false } else x }

def setObject (s : ChannelSystem) (o : ℕ) (x : ChannelObject) : ChannelSystem :=
  { s with objects := s.objects.set o x }

/-- `init` of channel `o`, as far as it does not wait for a sub channel. The sub channels of an
earlier `init` go one by one while the new ones are set up; nobody uses the channel then, and
here they go at once. -/
def initChannel (s : ChannelSystem) (p o : ℕ) (x : ChannelObject) (type : EConnectionType)
    (poolSize : ℤ) (ok : Bool) : ChannelSystem :=
  match type with
  | .single =>
    { s with
      sockets := (tryConnect s.sockets ok).1
      objects := s.objects.set o
        { x with core := ⟨0, (tryConnect s.sockets ok).2⟩, connectionType := .single } }
  | .short => s.setObject o { x with core := ⟨0, x.core.socket⟩, connectionType := .short }
  | .pooled =>
    let s := s.setObject o { x with core := ⟨0, x.core.socket⟩, connectionType := .pooled }
    if poolSize ≤ 0 then s
    else { s.destroySubs o with threads := s.threads.set p (.initPool o poolSize.toNat) }

def connectSub (s : ChannelSystem) (p o left : ℕ) (ok : Bool) : ChannelSystem :=
  match tryConnect s.sockets ok with
  | (sockets, some id) =>
    { sockets
      objects := s.objects ++ [⟨⟨0, some id⟩, .single, some o, true⟩]
      threads := s.threads.set p (if left ≤ 1 then .outside else .initPool o (left - 1)) }
  | (sockets, none) =>
    { s with sockets, threads := s.threads.set p .outside }.destroySubs o

def socketsAfter (sockets : List ManagedSocket) (c : Channel) (ok : Bool) :
    GetSocketPc → List ManagedSocket
  | .surrender => releaseSocket sockets c.socket
  | .connect => (tryConnect sockets ok).1
  | _ => sockets

def getStep (s : ChannelSystem) (p o : ℕ) (x : ChannelObject) (pc : GetSocketPc)
    (active ok : Bool) : ChannelSystem :=
  let r := getSocketStep ⟨active, (tryConnect s.sockets ok).2⟩ x.core pc
  { sockets := socketsAfter s.sockets x.core ok pc
    objects := s.objects.set o (x.setCore r.1)
    threads := s.threads.set p (.next o r.2) }

def destroyChannel (s : ChannelSystem) (o : ℕ) (x : ChannelObject) : ChannelSystem :=
  let s := s.setObject o { x with live := false }
  if x.connectionType = .pooled then s.destroySubs o
  else { s with sockets := releaseSocket s.sockets x.core.socket }.destroySubs o

/-- Which channel `getSocketInternal` is called on: a single one, or a sub channel. -/
def callable (s : ChannelSystem) (x : ChannelObject) : Bool :=
  match x.parent with
  | none => x.connectionType == .single
  | some o => (s.objects[o]?).any fun y => y.connectionType == .pooled && y.live

/-- `init` and the destructor are not called while other calls use the channel. -/
def step (s : ChannelSystem) : SystemAct → Option ChannelSystem
  | .init p o options poolSize ok =>
    match s.threads[p]?, s.objects[o]? with
    | some .outside, some x =>
      if x.live && x.parent == none && !s.inUse o then
        some (s.initChannel p o x (options.getD x.connectionType) poolSize ok)
      else none
    | _, _ => none
  | .destroy o =>
    (s.objects[o]?).bind fun x =>
      if x.live && x.parent == none && !s.inUse o then some (s.destroyChannel o x) else none
  | .getSocket p o =>
    match s.threads[p]?, s.objects[o]? with
    | some .outside, some x =>
      if x.live && s.callable x && !s.initializing o then
        some { s with threads := s.threads.set p (.getting o .tryShared) }
      else none
    | _, _ => none
  | .getShort o ok =>
    (s.objects[o]?).bind fun x =>
      if x.live && x.parent == none && x.connectionType == .short && !s.initializing o then
        some { s with sockets := (tryConnect s.sockets ok).1 }
      else none
  | .step p active ok =>
    match s.threads[p]? with
    | some (.getting o pc) => (s.objects[o]?).map fun x => s.getStep p o x pc active ok
    | some (.initPool o left) => some (s.connectSub p o left ok)
    | _ => none
  | .watchUpgrade id =>
    (s.sockets[id]?).bind fun k =>
      if k.watched then
        some { s with sockets := s.sockets.set id { k with sharers := (tryUpgrade k.sharers).2 } }
      else none
  | .watchExclusive id =>
    (s.sockets[id]?).bind fun k =>
      if k.watched then
        match LifeCycleLock.tryExclusive k.sharers with
        | some sharers => some { s with sockets := s.sockets.set id ⟨sharers, false⟩ }
        | none => some s
      else none

end ChannelSystem

end SofaBolt
