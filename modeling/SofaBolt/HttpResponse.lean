import SofaBolt.Socket

/- The vendored `http_parser` is a parameter. What it does with a piece of data is to make
callbacks and to move to a new state of its own; the callbacks here change nothing the
parser looks at. -/

namespace SofaBolt.Http

open IOBuffer
open Bolt (EResParseResult emplace)

inductive HttpParserStage where
  | onMessageBegin
  | onUrl
  | onStatus
  | onHeaderField
  | onHeaderValue
  | onHeadersComplete
  | onBody
  | onMessageComplete
deriving DecidableEq, Repr

structure HttpMessageInfo where
  stage : HttpParserStage
  url : Bytes
  curHeader : Bytes
  body : Bytes
  header : Bytes → Option Bytes

/-- `new HttpMessageInfo`, which leaves `stage` as the memory had it. -/
def HttpMessageInfo.new (stage : HttpParserStage) : HttpMessageInfo :=
  ⟨stage, [], [], [], fun _ => none⟩

inductive HttpElement where
  | url
  | status
  | headerField
  | headerValue
  | body
deriving DecidableEq, Repr

inductive HttpEvent where
  | messageBegin
  | data (e : HttpElement) (bytes : Bytes)
  | headersComplete
  | messageComplete
deriving DecidableEq, Repr

def comma : UInt8 := 44

def appendValue : Option Bytes → Bytes → Bytes
  | none, value => value
  | some old, value => old ++ comma :: value

/-- `emplace`, and if the name is taken the value goes behind a comma. -/
def addHeader (m : Bytes → Option Bytes) (name value : Bytes) : Bytes → Option Bytes :=
  match m name with
  | none => emplace m name value
  | some old => Function.update m name (some (appendValue (some old) value))

namespace HttpMessageInfo

def onMessageBegin (msg : HttpMessageInfo) : HttpMessageInfo :=
  { msg with stage := .onMessageBegin }

def onUrl (msg : HttpMessageInfo) (data : Bytes) : HttpMessageInfo :=
  { msg with stage := .onUrl, url := msg.url ++ data }

def onStatus (msg : HttpMessageInfo) : HttpMessageInfo := { msg with stage := .onStatus }

def onHeaderField (msg : HttpMessageInfo) (data : Bytes) : HttpMessageInfo :=
  let curHeader := if msg.stage ≠ .onHeaderField then [] else msg.curHeader
  { msg with stage := .onHeaderField, curHeader := curHeader ++ data }

def storeValue (msg : HttpMessageInfo) (value : Bytes) : HttpMessageInfo :=
  { msg with stage := .onHeaderValue, header := addHeader msg.header msg.curHeader value }

def onHeaderValue (msg : HttpMessageInfo) (data : Bytes) : Option HttpMessageInfo :=
  if msg.stage ≠ .onHeaderValue ∧ msg.curHeader = [] then none
  else some (msg.storeValue data)

def onHeadersComplete (msg : HttpMessageInfo) : HttpMessageInfo :=
  { msg with stage := .onHeadersComplete }

def onBodyCb (msg : HttpMessageInfo) (data : Bytes) : HttpMessageInfo :=
  { msg with stage := .onBody, body := msg.body ++ data }

def onMessageCompleteCb (msg : HttpMessageInfo) : HttpMessageInfo :=
  { msg with stage := .onMessageComplete }

def callback (msg : HttpMessageInfo) : HttpEvent → Option HttpMessageInfo
  | .messageBegin => some msg.onMessageBegin
  | .data .url d => some (msg.onUrl d)
  | .data .status _ => some msg.onStatus
  | .data .headerField d => some (msg.onHeaderField d)
  | .data .headerValue d => msg.onHeaderValue d
  | .data .body d => some (msg.onBodyCb d)
  | .headersComplete => some msg.onHeadersComplete
  | .messageComplete => some msg.onMessageCompleteCb

def callbacks (msg : HttpMessageInfo) : List HttpEvent → Option HttpMessageInfo
  | [] => some msg
  | e :: es => (msg.callback e).bind fun msg => msg.callbacks es

def succeeding (msg : HttpMessageInfo) : List HttpEvent → ℕ
  | [] => 0
  | e :: es =>
    match msg.callback e with
    | none => 0
    | some msg => msg.succeeding es + 1

end HttpMessageInfo

structure Execution (σ : Type) where
  state : σ
  events : List HttpEvent
  nparsed : ℕ
  failed : Bool

/-- The vendored parser, with `σ` for the fields of `struct http_parser` that are
its own.  `stopped` is the value returned when a callback fails, by the number of
callbacks before it. -/
structure HttpParserLib (σ : Type) where
  init : σ
  execute : σ → Bytes → Execution σ
  stopped : σ → Bytes → ℕ → ℕ

structure HttpParser (σ : Type) where
  state : σ
  data : HttpMessageInfo

variable {σ : Type}

/-- `http_parser_execute` with the callbacks: the parser, unless `http_errno` is
set, and the number of bytes parsed. -/
def httpParserExecute (lib : HttpParserLib σ) (parser : HttpParser σ) (data : Bytes) :
    Option (HttpParser σ) × ℕ :=
  let run := lib.execute parser.state data
  match parser.data.callbacks run.events with
  | none => (none, lib.stopped parser.state data (parser.data.succeeding run.events))
  | some info => (if run.failed then none else some ⟨run.state, info⟩, run.nparsed)

def checkLoop (lib : HttpParserLib σ) :
    List Bytes → HttpParser σ → ℕ → EResParseResult × Option (HttpParser σ) × ℕ
  | [], parser, nr => (.parseNotEnoughData, some parser, nr)
  | data :: slices, parser, nr =>
    if 0 < data.length then
      match httpParserExecute lib parser data with
      | (none, n) => (.parseError, none, nr + n)
      | (some parser, n) =>
        if parser.data.stage = .onMessageComplete then (.parseOk, some parser, nr + n)
        else checkLoop lib slices parser (nr + n)
    else checkLoop lib slices parser nr

/-- The bytes of the slices `slice(0)` to `slice(slice_num() - 1)`. -/
def slices (h : Heap) (buffer : IOBuffer) : List Bytes := buffer.live.map (Slice.bytes h)

/-- `HttpResponse::checkHeader`: the result, the buffer and `*p`.  `stage` is the
stage a new `HttpMessageInfo` starts with. -/
def checkHeader (lib : HttpParserLib σ) (stage : HttpParserStage) (h : Heap) (buffer : IOBuffer)
    (p : Option (HttpParser σ)) : EResParseResult × IOBuffer × Option (HttpParser σ) :=
  let parser := p.getD ⟨lib.init, .new stage⟩
  let (ret, parser, nr) := checkLoop lib (slices h buffer) parser 0
  (ret, (buffer.popFront nr).1, parser)

/-- `parseHttpProtocol`: `data_size` is 0 and `request_id` is left as it was. -/
def httpProtocol (lib : HttpParserLib σ) (stage : HttpParserStage) : Protocol (HttpParser σ) where
  type := .protocolHttp
  parseProtocolFn h buffer p :=
    let (ret, buffer, p) := checkHeader lib stage h buffer p
    (ret, buffer, p, 0, 0)

structure HttpResponse where
  url : Bytes
  body : Bytes
  header : Bytes → Option Bytes

def HttpResponse.new : HttpResponse := ⟨[], [], fun _ => none⟩

def HttpResponse.deserialize (rsp : HttpResponse) (parser : Option (HttpParser σ)) :
    EResParseResult × HttpResponse :=
  match parser with
  | none => (.parseError, rsp)
  | some parser =>
    if parser.data.stage ≠ .onMessageComplete then (.parseError, rsp)
    else (.parseOk, ⟨parser.data.url, parser.data.body, parser.data.header⟩)

end SofaBolt.Http
