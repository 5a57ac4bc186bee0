import SofaBolt.OutputStream
import SofaBolt.Wire

/- The integers of the header have the widths of the packed structure, so a length that does
not fit is truncated here as there. -/

namespace SofaBolt.Bolt

open IOBuffer Wire

def literal (s : String) : Bytes := s.toList.map fun c => UInt8.ofNat c.toNat

def boltProtocolType : UInt8 := 1
def boltProtocolRequest : UInt8 := 1
def boltProtocolResponse : UInt8 := 0
def boltProtocolCmdHeartbeat : UInt16 := 0
def boltProtocolCmdRequest : UInt16 := 1
def boltProtocolCmdResponse : UInt16 := 2
def boltProtocolVer2 : UInt8 := 1
def boltProtocolCodecPB : UInt8 := 11

structure BoltRequestHeader where
  proto : UInt8
  type : UInt8
  cmdcode : UInt16
  ver2 : UInt8
  requestId : UInt32
  codec : UInt8
  timeout : UInt32
  classLen : UInt16
  headerLen : UInt16
  contentLen : UInt32
deriving DecidableEq, Repr

def BoltRequestHeader.fields (hd : BoltRequestHeader) : List (ℕ × ℕ) :=
  [(1, hd.proto.toNat), (1, hd.type.toNat), (2, hd.cmdcode.toNat), (1, hd.ver2.toNat),
    (4, hd.requestId.toNat), (1, hd.codec.toNat), (4, hd.timeout.toNat), (2, hd.classLen.toNat),
    (2, hd.headerLen.toNat), (4, hd.contentLen.toNat)]

def BoltRequestHeader.bytes (hd : BoltRequestHeader) : Bytes := encodeFields hd.fields

/-- A protobuf message as the stream sees it: its serialised bytes and the
numbers of bytes the library keeps in its first rounds. -/
structure Message where
  bytes : Bytes
  keeps : List ℕ
deriving DecidableEq, Repr

/-- `_data_type` and the member of the union `_data` it selects; `none` inside
is the null pointer. -/
inductive RequestData where
  | none
  | cString (data : Option Bytes)
  | string (data : Option Bytes)
  | protobuf (data : Option Message)
deriving DecidableEq, Repr

structure BoltRequest where
  service : Bytes
  method : Bytes
  traceId : Bytes
  data : RequestData
deriving DecidableEq, Repr

def initHeader (req : BoltRequest) (requestId : ℕ) : BoltRequestHeader where
  proto := boltProtocolType
  type := boltProtocolRequest
  cmdcode := if req.data = .none then boltProtocolCmdHeartbeat else boltProtocolCmdRequest
  ver2 := boltProtocolVer2
  requestId := UInt32.ofNat requestId
  codec := boltProtocolCodecPB
  timeout := -1
  classLen := 0
  headerLen := 0
  contentLen := 0

def appendBoltHeaderKV (h : Heap) (t : ThreadId) (buffer : IOBuffer) (key : Bytes)
    (keySize : UInt32) (value : Bytes) (valueSize : UInt32) :
    Option (Heap × IOBuffer × UInt32) := do
  let (h, buffer) ← append h t buffer (some (encodeBE 4 keySize.toNat))
  let (h, buffer) ← append h t buffer (some (key.take keySize.toNat))
  let (h, buffer) ← append h t buffer (some (encodeBE 4 valueSize.toNat))
  let (h, buffer) ← append h t buffer (some (value.take valueSize.toNat))
  some (h, buffer, 8 + keySize + valueSize)

def className : Bytes := literal "com.alipay.sofa.rpc.core.request.SofaRequest"

def headerEntries (req : BoltRequest) : List Entry :=
  [(literal "service", req.service),
    (literal "sofa_head_target_service", req.service),
    (literal "sofa_head_method_name", req.method),
    (literal "rpc_trace_context.sofaTraceId", req.traceId)]

/-- `_header.header_len += appendBoltHeaderKV(...)`, once for each entry. -/
def appendEntries (t : ThreadId) : List Entry → Heap → IOBuffer → UInt16 →
    Option (Heap × IOBuffer × UInt16)
  | [], h, body, headerLen => some (h, body, headerLen)
  | e :: es, h, body, headerLen => do
    let (h, body, n) ← appendBoltHeaderKV h t body e.1 (UInt32.ofNat e.1.length)
      e.2 (UInt32.ofNat e.2.length)
    appendEntries t es h body (UInt16.ofNat (headerLen.toNat + n.toNat))

def converseBoltRequest (requestId : ℕ) : ℕ := requestId % 2 ^ 32

/-- The content: heap, `content_len`, the caller's buffer and the body.  A C
string goes to the caller's buffer, the others to the body. -/
def appendContent (h : Heap) (t : ThreadId) (hd : BoltRequestHeader) (buffer body : IOBuffer) :
    RequestData → Option (Heap × UInt32 × IOBuffer × IOBuffer)
  | .protobuf (some msg) => do
    let (h, s) ← OutputStream.writeAll t msg.keeps h ⟨body, 0⟩ msg.bytes
    some (h, UInt32.ofNat (s.buf.length - hd.classLen.toNat - hd.headerLen.toNat), buffer, s.buf)
  | .string (some str) => do
    let (h, body) ← append h t body (some str)
    some (h, UInt32.ofNat str.length, buffer, body)
  | .cString (some str) => do
    let str := str.takeWhile (· ≠ 0)
    let (h, buffer) ← append h t buffer (some str)
    some (h, UInt32.ofNat str.length, buffer, body)
  | _ => some (h, hd.contentLen, buffer, body)

def serialize (h : Heap) (t : ThreadId) (hd : BoltRequestHeader) (req : BoltRequest)
    (buffer : IOBuffer) : Option (Heap × IOBuffer × Bool) :=
  if hd.cmdcode = boltProtocolCmdHeartbeat then do
    let (h, buffer) ← append h t buffer (some hd.bytes)
    some (h, buffer, true)
  else do
    let hd := { hd with classLen := UInt16.ofNat className.length }
    let (h, body) ← append h t IOBuffer.empty (some className)
    let (h, body, headerLen) ← appendEntries t (headerEntries req) h body hd.headerLen
    let hd := { hd with headerLen }
    let (h, contentLen, buffer, body) ← appendContent h t hd buffer body req.data
    let hd := { hd with contentLen }
    let (h, buffer) ← append h t buffer (some hd.bytes)
    some (h, (buffer.appendMove body).1, true)

def assembleBoltRequest (h : Heap) (t : ThreadId) (req : BoltRequest) (requestId : ℕ)
    (buffer : IOBuffer) : Option (Heap × IOBuffer × Bool) :=
  serialize h t (initHeader req requestId) req buffer

structure RequestFrame where
  proto : ℕ
  type : ℕ
  cmdcode : ℕ
  ver2 : ℕ
  requestId : ℕ
  codec : ℕ
  timeout : ℕ
  classLen : ℕ
  headerLen : ℕ
  contentLen : ℕ
  className : Bytes
  entries : List Entry
  content : Bytes
deriving DecidableEq, Repr

def decodeRequest (bs : Bytes) : Option RequestFrame := do
  let (fields, bs) ← decodeFields [1, 1, 2, 1, 4, 1, 4, 2, 2, 4] bs
  match fields with
  | [proto, type, cmdcode, ver2, requestId, codec, timeout, classLen, headerLen, contentLen] => do
    let (className, bs) ← readExact classLen bs
    let (header, bs) ← readExact headerLen bs
    let entries ← decodeSection 4 header
    if bs.length = contentLen then
      some { proto, type, cmdcode, ver2, requestId, codec, timeout, classLen, headerLen,
             contentLen, className, entries, content := bs }
    else none
  | _ => none

@[simp] theorem BoltRequestHeader.bytes_length (hd : BoltRequestHeader) :
    hd.bytes.length = 22 := encodeFields_length _

theorem BoltRequestHeader.fields_fit (hd : BoltRequestHeader) :
    ∀ f ∈ hd.fields, f.2 < 256 ^ f.1 := by
  simp only [fields, List.forall_mem_cons, List.not_mem_nil, false_imp_iff, implies_true, and_true]
  exact ⟨hd.proto.toNat_lt, hd.type.toNat_lt, hd.cmdcode.toNat_lt, hd.ver2.toNat_lt,
    hd.requestId.toNat_lt, hd.codec.toNat_lt, hd.timeout.toNat_lt, hd.classLen.toNat_lt,
    hd.headerLen.toNat_lt, hd.contentLen.toNat_lt⟩

theorem BoltRequestHeader.decodeFields_bytes (hd : BoltRequestHeader) (rest : Bytes) :
    decodeFields [1, 1, 2, 1, 4, 1, 4, 2, 2, 4] (hd.bytes ++ rest) =
      some ([hd.proto.toNat, hd.type.toNat, hd.cmdcode.toNat, hd.ver2.toNat, hd.requestId.toNat,
        hd.codec.toNat, hd.timeout.toNat, hd.classLen.toNat, hd.headerLen.toNat,
        hd.contentLen.toNat], rest) :=
  decodeFields_encodeFields hd.fields hd.fields_fit rest

/-- Decoding undoes the header followed by sections of the lengths it states. -/
theorem decodeRequest_bytes (hd : BoltRequestHeader) (cls content : Bytes) (es : List Entry)
    (hcls : cls.length = hd.classLen.toNat)
    (hes : (es.flatMap (encodeEntry 4)).length = hd.headerLen.toNat)
    (hfit : ∀ e ∈ es, e.Fits 4) (hcon : content.length = hd.contentLen.toNat) :
    decodeRequest (hd.bytes ++ (cls ++ (es.flatMap (encodeEntry 4) ++ content))) =
      some { proto := hd.proto.toNat, type := hd.type.toNat, cmdcode := hd.cmdcode.toNat,
             ver2 := hd.ver2.toNat, requestId := hd.requestId.toNat, codec := hd.codec.toNat,
             timeout := hd.timeout.toNat, classLen := hd.classLen.toNat,
             headerLen := hd.headerLen.toNat, contentLen := hd.contentLen.toNat,
             className := cls, entries := es, content } := by
  have hsec : decodeSection 4 (es.flatMap (encodeEntry 4)) = some es :=
    (decodeSection_eq_some_iff (by decide : 0 < 4)).mpr ⟨rfl, hfit⟩
  simp only [decodeRequest, hd.decodeFields_bytes, Option.bind_eq_bind, Option.bind_some,
    readExact_append hcls, readExact_append hes, hsec, hcon, if_true]

variable {h : Heap} {buffer body : IOBuffer}

def wireString (s : Bytes) : Bytes := encodeBE 4 (s.length % 2 ^ 32) ++ s.take (s.length % 2 ^ 32)

def wireEntry (e : Entry) : Bytes := wireString e.1 ++ wireString e.2

theorem wireString_length (s : Bytes) : (wireString s).length = 4 + s.length % 2 ^ 32 := by
  rw [wireString, List.length_append, encodeBE_length,
    List.length_take_of_le (Nat.mod_le _ _)]

theorem wireString_of_lt {s : Bytes} (h : s.length < 2 ^ 32) : wireString s = encodeString 4 s := by
  rw [wireString, Nat.mod_eq_of_lt h, List.take_length, encodeString]

theorem flatMap_wireEntry {es : List Entry} (hf : ∀ e ∈ es, e.Fits 4) :
    es.flatMap wireEntry = es.flatMap (encodeEntry 4) := by
  refine congrArg List.flatten (List.map_congr_left fun e he => ?_)
  rw [wireEntry, encodeEntry, wireString_of_lt (hf e he).1, wireString_of_lt (hf e he).2]

theorem appendBoltHeaderKV_spec (hw : h.WF) (hb : buffer.WF h) (t : ThreadId) (key value : Bytes) :
    ∃ h' buffer', appendBoltHeaderKV h t buffer key (UInt32.ofNat key.length)
        value (UInt32.ofNat value.length) =
        some (h', buffer', 8 + UInt32.ofNat key.length + UInt32.ofNat value.length) ∧
      Appended h buffer h' buffer' (wireEntry (key, value)) := by
  obtain ⟨h₁, b₁, e₁, a₁⟩ := append_spec hw hb t (some (encodeBE 4 (key.length % 2 ^ 32)))
  obtain ⟨h₂, b₂, e₂, a₂⟩ := append_spec a₁.heap a₁.wf t (some (key.take (key.length % 2 ^ 32)))
  obtain ⟨h₃, b₃, e₃, a₃⟩ := append_spec a₂.heap a₂.wf t
    (some (encodeBE 4 (value.length % 2 ^ 32)))
  obtain ⟨h₄, b₄, e₄, a₄⟩ := append_spec a₃.heap a₃.wf t
    (some (value.take (value.length % 2 ^ 32)))
  refine ⟨h₄, b₄, ?_, (a₁.trans a₂).trans (a₃.trans a₄)⟩
  simp only [appendBoltHeaderKV, UInt32.toNat_ofNat', e₁, e₂, e₃, e₄, Option.bind_eq_bind,
    Option.bind_some]

/-- The counter is the number of bytes appended, as 16 bits hold it. -/
theorem appendEntries_spec (t : ThreadId) (es : List Entry) (len : UInt16) (hw : h.WF)
    (hb : body.WF h) :
    ∃ h' body', appendEntries t es h body len =
        some (h', body', UInt16.ofNat (len.toNat + (es.flatMap wireEntry).length)) ∧
      Appended h body h' body' (es.flatMap wireEntry) := by
  induction es generalizing h body len with
  | nil => exact ⟨h, body, by simp [appendEntries], .nil hw hb⟩
  | cons e es ih =>
    obtain ⟨k, v⟩ := e
    obtain ⟨h₁, b₁, e₁, a₁⟩ := appendBoltHeaderKV_spec hw hb t k v
    obtain ⟨h₂, b₂, e₂, a₂⟩ := ih
      (UInt16.ofNat (len.toNat + (8 + UInt32.ofNat k.length + UInt32.ofNat v.length).toNat))
      a₁.heap a₁.wf
    refine ⟨h₂, b₂, ?_, ?_⟩
    · -- 32-bit sums agree with the lengths modulo 2^16
      have hacc : UInt16.ofNat ((UInt16.ofNat (len.toNat +
            (8 + UInt32.ofNat k.length + UInt32.ofNat v.length).toNat)).toNat +
            (es.flatMap wireEntry).length) =
          UInt16.ofNat (len.toNat + ((k, v) :: es |>.flatMap wireEntry).length) := by
        rw [← UInt16.toNat_inj]
        simp only [List.flatMap_cons, List.length_append, wireEntry, wireString_length,
          UInt16.toNat_ofNat', UInt32.toNat_add, UInt32.toNat_ofNat', UInt32.reduceToNat]
        omega
      simp only [appendEntries, e₁, Option.bind_eq_bind, Option.bind_some, e₂, hacc]
    · rw [List.flatMap_cons]
      exact a₁.trans a₂

def measuredHeader (req : BoltRequest) (requestId : ℕ) : BoltRequestHeader :=
  { initHeader req requestId with
    classLen := UInt16.ofNat className.length
    headerLen := UInt16.ofNat ((headerEntries req).flatMap wireEntry).length }

/-- A request that is no heartbeat: the body begins with class name and entries; content,
header and body follow. -/
theorem assembleBoltRequest_eq (hw : h.WF) (t : ThreadId) {req : BoltRequest}
    (hd : req.data ≠ .none) (requestId : ℕ) (buffer : IOBuffer) :
    ∃ h₁ body, Appended h IOBuffer.empty h₁ body
        (className ++ (headerEntries req).flatMap wireEntry) ∧
      assembleBoltRequest h t req requestId buffer =
        (appendContent h₁ t (measuredHeader req requestId) buffer body req.data).bind fun r =>
          (append r.1 t r.2.2.1
            (some { measuredHeader req requestId with contentLen := r.2.1 }.bytes)).bind fun x =>
              some (x.1, (x.2.appendMove r.2.2.2).1, true) := by
  have hcmd : (initHeader req requestId).cmdcode ≠ boltProtocolCmdHeartbeat := by
    rw [initHeader, if_neg hd]
    exact (by decide : boltProtocolCmdRequest ≠ boltProtocolCmdHeartbeat)
  obtain ⟨h₁, b₁, e₁, a₁⟩ := append_spec hw (wf_empty h) t (some className)
  obtain ⟨h₂, b₂, e₂, a₂⟩ := appendEntries_spec t (headerEntries req) 0 a₁.heap a₁.wf
  rw [UInt16.toNat_zero, Nat.zero_add] at e₂
  refine ⟨h₂, b₂, a₁.trans a₂, ?_⟩
  have h0 : (initHeader req requestId).headerLen = 0 := rfl
  rw [assembleBoltRequest, serialize, if_neg hcmd]
  simp only [e₁, h0, e₂, Option.bind_eq_bind, Option.bind_some]
  rfl

/-- The payload of the request is `p`: a string, or a message that serialises
to `p`. -/
def RequestData.Carries (d : RequestData) (p : Bytes) : Prop :=
  d = .string (some p) ∨ ∃ keeps, d = .protobuf (some ⟨p, keeps⟩)

theorem appendContent_spec {d : RequestData} {p : Bytes} (hd : d.Carries p) (hw : h.WF)
    (hb : body.WF h) (t : ThreadId) (header : BoltRequestHeader) (buffer : IOBuffer)
    (hlen : (body.toString h).length = header.classLen.toNat + header.headerLen.toNat) :
    ∃ h' body', appendContent h t header buffer body d =
        some (h', UInt32.ofNat p.length, buffer, body') ∧ Appended h body h' body' p := by
  rcases hd with rfl | ⟨keeps, rfl⟩
  · obtain ⟨h', body', e, a⟩ := append_spec hw hb t (some p)
    exact ⟨h', body', by simp only [appendContent, e]; rfl, a⟩
  · obtain ⟨h', s', e, a⟩ := OutputStream.writeAll_spec (s := ⟨body, 0⟩) t keeps p hw hb
    refine ⟨h', s'.buf, ?_, a⟩
    have hc : s'.buf.length - header.classLen.toNat - header.headerLen.toNat = p.length := by
      rw [length_eq s'.buf h', a.toString_eq, List.length_append, hlen]
      omega
    simp only [appendContent, e, Option.bind_eq_bind, Option.bind_some, hc]

def finalHeader (req : BoltRequest) (requestId : ℕ) (p : Bytes) : BoltRequestHeader :=
  { initHeader req requestId with
    classLen := UInt16.ofNat className.length
    headerLen := UInt16.ofNat ((headerEntries req).flatMap (encodeEntry 4)).length
    contentLen := UInt32.ofNat p.length }

theorem RequestData.Carries.ne_none {d : RequestData} {p : Bytes} (hd : d.Carries p) :
    d ≠ .none := by
  rcases hd with rfl | ⟨keeps, rfl⟩ <;> simp

theorem assembleBoltRequest_spec {req : BoltRequest} {p : Bytes} (hd : req.data.Carries p)
    (hlen : ((headerEntries req).flatMap (encodeEntry 4)).length ≤ 65535)
    (hw : h.WF) (hb : buffer.WF h) (t : ThreadId) (requestId : ℕ) :
    ∃ h' buffer', assembleBoltRequest h t req requestId buffer = some (h', buffer', true) ∧
      h'.WF ∧ h.Grows h' ∧ buffer'.WF h' ∧
      buffer'.toString h' = buffer.toString h ++ ((finalHeader req requestId p).bytes ++
        (className ++ ((headerEntries req).flatMap (encodeEntry 4) ++ p))) := by
  have hfit : ∀ e ∈ headerEntries req, e.Fits 4 := fits_of_flatMap_lt (by omega)
  have hkvs := flatMap_wireEntry hfit
  obtain ⟨h₁, b₁, a₁, he⟩ := assembleBoltRequest_eq hw t hd.ne_none requestId buffer
  rw [hkvs] at a₁
  set kvs := (headerEntries req).flatMap (encodeEntry 4)
  have hmeasured : (b₁.toString h₁).length = (measuredHeader req requestId).classLen.toNat +
      (measuredHeader req requestId).headerLen.toNat := by
    have hcl : (measuredHeader req requestId).classLen.toNat = className.length := rfl
    have hhl : (measuredHeader req requestId).headerLen.toNat = kvs.length := by
      rw [measuredHeader, hkvs, UInt16.toNat_ofNat']
      omega
    rw [a₁.toString_eq, toString_empty, List.nil_append, hcl, hhl, List.length_append]
  obtain ⟨h₂, b₂, e₂, a₂⟩ := appendContent_spec hd a₁.heap a₁.wf t (measuredHeader req requestId)
    buffer hmeasured
  have a₁₂ := a₁.trans a₂
  have hheader : { measuredHeader req requestId with contentLen := UInt32.ofNat p.length } =
      finalHeader req requestId p := by
    simp only [measuredHeader, finalHeader, hkvs]
    rfl
  -- then the header, and the body behind it
  obtain ⟨h₃, b₃, e₃, a₃⟩ := append_spec a₂.heap (hb.grows a₁₂.grows) t
    (some (finalHeader req requestId p).bytes)
  obtain ⟨hwf, htxt⟩ := appendBuffer_spec a₃.wf (a₂.wf.grows a₃.grows) a₁₂.refOffset_eq
  refine ⟨h₃, b₃.appendBuffer b₂, ?_, a₃.heap, a₁₂.grows.trans a₃.grows, hwf, ?_⟩
  · rw [he, e₂, Option.bind_some, hheader, e₃]
    rfl
  · rw [htxt, a₃.toString_eq, toString_grows hb a₁₂.grows, toString_grows a₂.wf a₃.grows,
      a₁₂.toString_eq]
    simp

/-- A request with a payload appends one frame, and decoding the frame gives
back the request. -/
theorem assembleBoltRequest_decodable (hw : h.WF) (hb : buffer.WF h) (t : ThreadId)
    (req : BoltRequest) (requestId : ℕ) (p : Bytes) (hd : req.data.Carries p)
    (hlen : ((headerEntries req).flatMap (encodeEntry 4)).length ≤ 65535)
    (hp : p.length < 2 ^ 32) :
    ∃ h' buffer' frame, assembleBoltRequest h t req requestId buffer = some (h', buffer', true) ∧
      buffer'.toString h' = buffer.toString h ++ frame ∧
      h'.WF ∧ h.Grows h' ∧ buffer'.WF h' ∧
      decodeRequest frame = some
        { proto := 1, type := 1, cmdcode := 1, ver2 := 1, requestId := requestId % 2 ^ 32,
          codec := 11, timeout := 2 ^ 32 - 1, classLen := 44,
          headerLen := ((headerEntries req).flatMap (encodeEntry 4)).length,
          contentLen := p.length,
          className := literal "com.alipay.sofa.rpc.core.request.SofaRequest",
          entries := [(literal "service", req.service),
            (literal "sofa_head_target_service", req.service),
            (literal "sofa_head_method_name", req.method),
            (literal "rpc_trace_context.sofaTraceId", req.traceId)],
          content := p } := by
  obtain ⟨h', buffer', he, hw', hg, hb', htxt⟩ := assembleBoltRequest_spec hd hlen hw hb t requestId
  refine ⟨h', buffer', _, he, htxt, hw', hg, hb', ?_⟩
  have hfit : ∀ e ∈ headerEntries req, e.Fits 4 := fits_of_flatMap_lt (by omega)
  have hcon : p.length = (finalHeader req requestId p).contentLen.toNat := by
    simp only [finalHeader, UInt32.toNat_ofNat']
    omega
  have hhl : ((headerEntries req).flatMap (encodeEntry 4)).length =
      (finalHeader req requestId p).headerLen.toNat := by
    simp only [finalHeader, UInt16.toNat_ofNat']
    omega
  have hcmd : (finalHeader req requestId p).cmdcode = 1 := by
    rcases hd with hd | ⟨keeps, hd⟩ <;> simp [finalHeader, initHeader, hd] <;> rfl
  have hid : (finalHeader req requestId p).requestId.toNat = requestId % 2 ^ 32 :=
    UInt32.toNat_ofNat'
  rw [decodeRequest_bytes _ className p (headerEntries req) rfl hhl hfit hcon, hcmd, hid, ← hhl,
    ← hcon]
  rfl

theorem assembleBoltRequest_decodable_binary :
    ∃ h' buffer' frame, assembleBoltRequest (Heap.init fun _ => ⟨none, 0, 0, fun _ => 0⟩) 0
        ⟨literal "s", [], [0, 255], .protobuf (some ⟨[8, 1], [0]⟩)⟩ (2 ^ 32 + 5) IOBuffer.empty =
          some (h', buffer', true) ∧
      buffer'.toString h' = IOBuffer.empty.toString (Heap.init fun _ => ⟨none, 0, 0, fun _ => 0⟩) ++
        frame ∧
      h'.WF ∧ (Heap.init fun _ => ⟨none, 0, 0, fun _ => 0⟩).Grows h' ∧ buffer'.WF h' ∧
      decodeRequest frame = some
        { proto := 1, type := 1, cmdcode := 1, ver2 := 1, requestId := 5,
          codec := 11, timeout := 2 ^ 32 - 1, classLen := 44, headerLen := 117, contentLen := 2,
          className := literal "com.alipay.sofa.rpc.core.request.SofaRequest",
          entries := [(literal "service", literal "s"),
            (literal "sofa_head_target_service", literal "s"),
            (literal "sofa_head_method_name", []),
            (literal "rpc_trace_context.sofaTraceId", [0, 255])],
          content := [8, 1] } :=
  assembleBoltRequest_decodable (Heap.wf_init _) (wf_empty _) 0 _ _ [8, 1] (.inr ⟨[0], rfl⟩)
    (by decide) (by decide)

end SofaBolt.Bolt
