import SofaBolt.BoltResponse
import SofaBolt.Framing
import SofaBolt.IOBufferRead

/- Only the loop thread runs these functions; what other threads do meanwhile is given from
outside, by an `Interference` for every point where they can act. -/

namespace SofaBolt

open IOBuffer Bolt

abbrev SessionId := ℕ

inductive EProtocolType where
  | protocolBolt
  | protocolHttp
deriving DecidableEq, Repr

/-- What the socket uses of a `Protocol`.  `parse_protocol_fn` gets the buffer
and the additional data and gives back the result, both of them, the size of
the message and its request id. -/
structure Protocol (D : Type) where
  type : EProtocolType
  parseProtocolFn : Heap → IOBuffer → Option D → EResParseResult × IOBuffer × Option D × ℕ × ℕ

def boltProtocol (D : Type) : Protocol D where
  type := .protocolBolt
  parseProtocolFn h buffer data :=
    let (ret, responseSize, requestId) := checkHeader h buffer 0 0
    (ret, buffer, data, responseSize, requestId)

structure ReadSession (D : Type) where
  requestId : ℕ
  requestTime : ℕ
  readBuf : IOBuffer
  data : Option D
deriving DecidableEq, Repr

structure Socket (D : Type) where
  active : Bool
  readBuf : IOBuffer
  sessionInfo : List SessionId
  sessionMap : ℕ → Option SessionId
  readAdditionalData : Option D
  session : SessionId → ReadSession D

namespace Socket

variable {D : Type}

/-- `while (_session_info.pop(session))`: sessions go to the map up to and
including the first one that is not older than this call. -/
def popSessionInfo (session : SessionId → ReadSession D) (onReadBeginTime : ℕ) :
    List SessionId → (ℕ → Option SessionId) → List SessionId × (ℕ → Option SessionId)
  | [], m => ([], m)
  | s :: q, m =>
    let m := emplace m (session s).requestId s
    if onReadBeginTime ≤ (session s).requestTime then (q, m)
    else popSessionInfo session onReadBeginTime q m

def prepareSessions (s : Socket D) (onReadBeginTime : ℕ) : Socket D :=
  let (sessionInfo, sessionMap) :=
    popSessionInfo s.session onReadBeginTime s.sessionInfo s.sessionMap
  { s with sessionInfo, sessionMap }

/-- The session a message goes to.  `first` is what `begin()` gives on the
unordered map. -/
def findSession (s : Socket D) (type : EProtocolType)
    (first : (ℕ → Option SessionId) → Option SessionId) (receiveRequestId : ℕ) :
    Option SessionId :=
  match type with
  | .protocolHttp => first s.sessionMap
  | .protocolBolt => s.sessionMap receiveRequestId

/-- The end of `cutIntoMessage`: the message is moved to its session or dropped.
`notify` is left to the other parties. -/
def handOut (s : Socket D) (session : Option SessionId) (responseSize : ℕ) : Socket D :=
  match session with
  | none => { s with readBuf := (s.readBuf.popFront responseSize).1 }
  | some sid =>
    let (readBuf, sessionBuf, _) := s.readBuf.cut (s.session sid).readBuf responseSize
    { s with
      readBuf
      readAdditionalData := none
      session := Function.update s.session sid
        { s.session sid with readBuf := sessionBuf, data := s.readAdditionalData } }

/-- The result is a `ssize_t`: 0 if there is not enough data, -1 on an error. -/
def cutIntoMessage (protocol : Protocol D) (first : (ℕ → Option SessionId) → Option SessionId)
    (onReadBeginTime : ℕ) (h : Heap) (s : Socket D) : Socket D × ℤ :=
  if s.readBuf.length = 0 then (s, 0)
  else
    let (ret, readBuf, readAdditionalData, responseSize, receiveRequestId) :=
      protocol.parseProtocolFn h s.readBuf s.readAdditionalData
    let s := { s with readBuf, readAdditionalData }
    match ret with
    | .parseNotEnoughData => (s, 0)
    | .parseError => ({ s with active := false }, -1)
    | .parseOk =>
      let s := s.prepareSessions onReadBeginTime
      let session := s.findSession protocol.type first receiveRequestId
      (s.handOut session responseSize, (BitVec.ofNat 64 receiveRequestId).toInt)

/-- `tryReclaimSessionMap`; `reclaimed` tells for which sessions `tryExclusive`
succeeds. -/
def tryReclaimSessionMap (s : Socket D) (reclaimed : SessionId → Bool) : Socket D :=
  { s with sessionMap := fun id => (s.sessionMap id).filter fun sid => !reclaimed sid }

structure WF (s : Socket D) (h : Heap) : Prop where
  readBuf : s.readBuf.WF h
  session : ∀ sid, (s.session sid).readBuf.WF h

end Socket

/-- What other threads may do between two steps of the loop thread: use buffers
of their own and those of the sessions, and queue sessions. -/
structure Interference (D : Type) where
  act : Heap × Socket D → Heap × Socket D
  active_eq (w : Heap × Socket D) : (act w).2.active = w.2.active
  readBuf_eq (w : Heap × Socket D) : (act w).2.readBuf = w.2.readBuf
  sessionMap_eq (w : Heap × Socket D) : (act w).2.sessionMap = w.2.sessionMap
  sessionInfo_le (w : Heap × Socket D) : w.2.sessionInfo <+: (act w).2.sessionInfo
  requestId_eq (w : Heap × Socket D) (sid : SessionId) :
    ((act w).2.session sid).requestId = (w.2.session sid).requestId
  heap_wf (w : Heap × Socket D) : w.1.WF → w.2.WF w.1 → (act w).1.WF
  grows (w : Heap × Socket D) : w.1.WF → w.2.WF w.1 → w.1.Grows (act w).1
  socket_wf (w : Heap × Socket D) : w.1.WF → w.2.WF w.1 → (act w).2.WF (act w).1

def Interference.prepareRead (D : Type) (sids : List SessionId) : Interference D where
  act w := (w.1, { w.2 with sessionInfo := w.2.sessionInfo ++ sids })
  active_eq _ := rfl
  readBuf_eq _ := rfl
  sessionMap_eq _ := rfl
  sessionInfo_le _ := List.prefix_append _ _
  requestId_eq _ _ := rfl
  heap_wf _ h _ := h
  grows _ _ _ := .refl _
  socket_wf _ _ h := ⟨h.readBuf, h.session⟩

def minOnceRead : ℕ := 4096

/-- What one `readv` of `MIN_ONCE_READ` bytes can deliver: some bytes, not more
than asked for. -/
structure Chunk where
  bytes : Bytes
  ne_nil : bytes ≠ []
  length_le : bytes.length ≤ minOnceRead

inductive Read where
  | chunk (c : Chunk)
  | eintr

inductive LastRead where
  | eagain
  | eof
  | error

structure OnReadCall where
  reads : List Read
  last : LastRead
  reclaimed : SessionId → Bool

def Read.bytes : Read → Bytes
  | .chunk c => c.bytes
  | .eintr => []

def OnReadCall.received (c : OnReadCall) : Bytes := c.reads.flatMap Read.bytes

structure HandedOut (D : Type) where
  heap : Heap
  onReadBeginTime : ℕ
  before : Socket D
  after : Socket D

/-- Everything the loop thread works on, the number of steps it has made and the
messages it has handed out. -/
structure LoopState (D : Type) where
  heap : Heap
  socket : Socket D
  tick : ℕ
  handed : List (HandedOut D)

structure LoopEnv (D : Type) where
  thread : ThreadId
  protocol : Protocol D
  first : (ℕ → Option SessionId) → Option SessionId
  clock : ℕ → ℕ
  interference : ℕ → Interference D

namespace LoopState

variable {D : Type}

def init (heap : Heap) (session : SessionId → ReadSession D) : LoopState D where
  heap := heap
  socket :=
    { active := true, readBuf := IOBuffer.empty, sessionInfo := [], sessionMap := fun _ => none
      readAdditionalData := none, session }
  tick := 0
  handed := []

def interfere (e : LoopEnv D) (w : LoopState D) : LoopState D :=
  let (heap, socket) := (e.interference w.tick).act (w.heap, w.socket)
  { w with heap, socket, tick := w.tick + 1 }

/-- The inner loop, `cutIntoMessage` until it returns a value that is not
positive. -/
def cutLoop (e : LoopEnv D) : ℕ → LoopState D → Option (LoopState D × ℤ)
  | 0, _ => none
  | fuel + 1, w =>
    let w := w.interfere e
    let now := e.clock w.tick
    let (socket, id) := w.socket.cutIntoMessage e.protocol e.first now w.heap
    if id ≤ 0 then some ({ w with socket }, id)
    else cutLoop e fuel
      { w with socket, handed := w.handed ++ [⟨w.heap, now, w.socket, socket⟩] }

/-- `append_from_file_descriptor(_fd.fd(), MIN_ONCE_READ)`. -/
def readOnce (e : LoopEnv D) (r : ReadOutcome) (w : LoopState D) : Option (LoopState D) := do
  let w := w.interfere e
  let (heap, readBuf, _) ←
    appendFromFileDescriptor w.heap e.thread w.socket.readBuf minOnceRead r
  some { w with heap, socket := { w.socket with readBuf } }

def setInactive (w : LoopState D) : LoopState D :=
  { w with socket := { w.socket with active := false } }

/-- One turn of the outer loop after a read: every frame takes a byte at least,
so the length of the buffer bounds the rounds of the inner loop. -/
def cutAll (e : LoopEnv D) (w : LoopState D) : Option (LoopState D × ℤ) :=
  cutLoop e (w.socket.readBuf.length + 1) w

def readLoop (e : LoopEnv D) (last : LastRead) : List Read → LoopState D → Option (LoopState D)
  | .eintr :: reads, w => do
    let w ← readOnce e (.error .eintr) w
    readLoop e last reads w
  | .chunk c :: reads, w => do
    let w ← readOnce e (.data c.bytes) w
    let (w, id) ← cutAll e w
    if id < 0 then some w else readLoop e last reads w
  | [], w =>
    match last with
    | .eagain => readOnce e (.error .eagain) w
    | .error => do
      let w ← readOnce e (.error .other) w
      some w.setInactive
    | .eof => do
      -- the rest of the buffer is still looked at
      let w ← readOnce e (.data []) w
      let (w, _) ← cutAll e w.setInactive
      some w

def onRead (e : LoopEnv D) (c : OnReadCall) (w : LoopState D) : Option (LoopState D) := do
  let w ← if w.socket.active then readLoop e c.last c.reads w else some w
  some { w with socket := w.socket.tryReclaimSessionMap c.reclaimed }

def onReads (e : LoopEnv D) : List OnReadCall → LoopState D → Option (LoopState D)
  | [], w => some w
  | c :: cs, w => do
    let w ← onRead e c w
    onReads e cs w

end LoopState

end SofaBolt
