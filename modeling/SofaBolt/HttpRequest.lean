import SofaBolt.BoltRequest
import SofaBolt.HttpMessage
import SofaBolt.Uri

namespace SofaBolt.Http

open IOBuffer HttpMessage
open Bolt (literal)

inductive EHttpMethod where
  | httpMethodGet
  | httpMethodPost
deriving DecidableEq, Repr

inductive EHttpHeaderKey where
  | logId
  | contentTypeJson
  | connection
deriving DecidableEq, Repr

def getMethod : EHttpMethod → Bytes
  | .httpMethodGet => literal "GET"
  | .httpMethodPost => literal "POST"

def getHeaderKey : EHttpHeaderKey → Bytes
  | .logId => literal "log-id"
  | .contentTypeJson => literal "application/json"
  | .connection => literal "connection"

abbrev AttachId := ℕ

structure HttpRequest where
  uri : URI
  method : EHttpMethod
  attchType : Bytes
  data : Option AttachId
deriving DecidableEq, Repr

namespace HttpRequest

def attach (h : Heap) (t : ThreadId) (attached : AttachId → IOBuffer) (req : HttpRequest)
    (a : AttachId) (data : Bytes) : Option (Heap × (AttachId → IOBuffer) × HttpRequest) := do
  let (h, buf) ← append h t IOBuffer.empty (some data)
  some (h, Function.update attached a buf, { req with data := some a })

def attachSize (attached : AttachId → IOBuffer) (req : HttpRequest) : ℕ :=
  match req.data with
  | some a => (attached a).length
  | none => 0

end HttpRequest

def printInt : ℤ → Bytes
  | .ofNat n => decimal n
  | .negSucc n => literal "-" ++ decimal (n + 1)

def headerMap (requestId : ℕ) : EHttpHeaderKey → Option Bytes :=
  let m := Function.update (fun _ => none) .logId (some (decimal requestId))
  Function.update m .connection (some (literal "keep-alive"))

def lineEnd : Bytes := literal "\r\n"

def headerLines (order : List EHttpHeaderKey) (requestId : ℕ) : Bytes :=
  order.flatMap fun key =>
    match headerMap requestId key with
    | some value => getHeaderKey key ++ literal ": " ++ value ++ lineEnd
    | none => []

def requestHead (req : HttpRequest) (attachSize : ℕ) : Bytes :=
  getMethod req.method ++ literal " " ++ req.uri.path ++ literal " HTTP/1.1" ++ lineEnd ++
    (if req.method ≠ .httpMethodGet then
      literal "Content-Length: " ++ decimal attachSize ++ lineEnd else []) ++
    (if req.attchType ≠ [] then literal "Content-Type: " ++ req.attchType ++ lineEnd else []) ++
    (literal "Host: " ++ req.uri.host ++ literal ":" ++ printInt req.uri.port ++ lineEnd) ++
    (literal "Accept: */*" ++ lineEnd) ++ (literal "User-Agent: curl/7.0" ++ lineEnd)

def requestText (order : List EHttpHeaderKey) (req : HttpRequest) (attachSize requestId : ℕ) :
    Bytes :=
  requestHead req attachSize ++ headerLines order requestId ++ lineEnd

def serialize (h : Heap) (t : ThreadId) (order : List EHttpHeaderKey)
    (attached : AttachId → IOBuffer) (req : HttpRequest) (requestId : ℕ) (buffer : IOBuffer) :
    Option (Heap × (AttachId → IOBuffer) × IOBuffer × Bool) := do
  let text := requestText order req (req.attachSize attached) requestId
  let (h, buffer) ← append h t buffer (some text)
  match req.data with
  | some a =>
    let (buffer, data) := buffer.appendMove (attached a)
    some (h, Function.update attached a data, buffer, true)
  | none => some (h, attached, buffer, true)

def assembleHttpRequest (h : Heap) (t : ThreadId) (order : List EHttpHeaderKey)
    (attached : AttachId → IOBuffer) (req : HttpRequest) (requestId : ℕ) (buffer : IOBuffer) :
    Option (Heap × (AttachId → IOBuffer) × IOBuffer × Bool) :=
  if ¬ req.uri.parseOk then some (h, attached, buffer, false)
  else serialize h t order attached req requestId buffer

variable {h h' : Heap} {buffer : IOBuffer} {attached : AttachId → IOBuffer} {req : HttpRequest}

def HttpRequest.slices (h : Heap) (attached : AttachId → IOBuffer) (req : HttpRequest) : Bytes :=
  (req.data.elim [] fun a => (attached a).ref).flatMap (Slice.bytes h)

def HttpRequest.body (h : Heap) (attached : AttachId → IOBuffer) (req : HttpRequest) : Bytes :=
  req.data.elim [] fun a => (attached a).toString h

theorem HttpRequest.attach_spec (hw : h.WF) (t : ThreadId) (attached : AttachId → IOBuffer)
    (req : HttpRequest) (a : AttachId) (data : Bytes) :
    ∃ h' buf, req.attach h t attached a data =
        some (h', Function.update attached a buf, { req with data := some a }) ∧
      h'.WF ∧ buf.WF h' ∧ buf.refOffset = 0 ∧ buf.toString h' = data := by
  obtain ⟨h', buf, happend, ha⟩ := append_spec hw (wf_empty h) t (some data)
  exact ⟨h', buf, by simp [attach, happend], ha.heap, ha.wf, ha.refOffset_eq, ha.toString_eq⟩

def HttpRequest.moved (attached : AttachId → IOBuffer) (req : HttpRequest) :
    AttachId → IOBuffer :=
  req.data.elim attached fun a => Function.update attached a IOBuffer.empty

theorem HttpRequest.attachSize_eq (h : Heap) :
    req.attachSize attached = (req.body h attached).length := by
  unfold attachSize body
  cases req.data with
  | none => rfl
  | some a => exact length_eq (attached a) h

theorem assembleHttpRequest_spec (hw : h.WF) (hb : buffer.WF h) (t : ThreadId)
    (order : List EHttpHeaderKey) (hok : req.uri.parseOk = true)
    (hbody : ∀ a ∈ req.data, (attached a).WF h) (requestId : ℕ) :
    ∃ h' buffer', assembleHttpRequest h t order attached req requestId buffer =
        some (h', req.moved attached, buffer', true) ∧
      h'.WF ∧ h.Grows h' ∧ buffer'.WF h' ∧
      buffer'.toString h' = buffer.toString h ++
        (requestText order req (req.attachSize attached) requestId ++ req.slices h attached) := by
  obtain ⟨h₁, buffer₁, happend, ha⟩ := append_spec hw hb t
    (some (requestText order req (req.attachSize attached) requestId))
  have hstart : assembleHttpRequest h t order attached req requestId buffer =
      serialize h t order attached req requestId buffer := if_neg (by simp [hok])
  unfold HttpRequest.moved HttpRequest.slices
  cases hdata : req.data with
  | none =>
    refine ⟨h₁, buffer₁, ?_, ha.heap, ha.grows, ha.wf, ?_⟩
    · simp [hstart, serialize, happend, hdata]
    · rw [ha.toString_eq]
      simp
  | some a =>
    have hin : ∀ s ∈ (attached a).ref, s.InBlock h := (hbody a hdata).inBlock
    refine ⟨h₁, (buffer₁.appendMove (attached a)).1, ?_, ha.heap, ha.grows, ?_, ?_⟩
    · simp [hstart, serialize, happend, hdata, appendMove, clear, IOBuffer.empty]
    · exact ha.wf.append (.refl h₁) fun s hs => (hin s hs).grows ha.grows
    · refine (toString_append ha.wf (.refl h₁) (attached a).ref).trans ?_
      rw [ha.toString_eq, flatMap_bytes_grows hin ha.grows]
      simp

theorem headerLines_congr {order : List EHttpHeaderKey} (h : .logId ∉ order) (i j : ℕ) :
    headerLines order i = headerLines order j := by
  refine List.flatMap_congr fun key hkey => ?_
  cases key with
  | logId => exact absurd hkey h
  | contentTypeJson => rfl
  | connection => rfl

theorem headerLines_eq {order : List EHttpHeaderKey}
    (horder : order.Perm [.logId, .contentTypeJson, .connection]) :
    ∃ before after, ∀ requestId, headerLines order requestId =
      before ++ (literal "log-id: " ++ decimal requestId ++ (lineEnd ++ after)) := by
  obtain ⟨o₁, o₂, rfl⟩ := List.append_of_mem (horder.mem_iff.mpr List.mem_cons_self)
  have hnodup := horder.nodup_iff.mpr (by decide)
  obtain ⟨-, h₂, hdisj⟩ := List.nodup_append.mp hnodup
  have h₁ : .logId ∉ o₁ := fun hmem => hdisj _ hmem _ List.mem_cons_self rfl
  refine ⟨headerLines o₁ 0, headerLines o₂ 0, fun requestId => ?_⟩
  have hsplit : headerLines (o₁ ++ .logId :: o₂) requestId = headerLines o₁ requestId ++
      ((literal "log-id: " ++ decimal requestId ++ lineEnd) ++ headerLines o₂ requestId) := by
    unfold headerLines
    rw [List.flatMap_append, List.flatMap_cons]
    rfl
  rw [hsplit, headerLines_congr h₁ requestId 0,
    headerLines_congr (List.nodup_cons.mp h₂).1 requestId 0]
  simp only [List.append_assoc]

theorem requestText_eq {order : List EHttpHeaderKey}
    (horder : order.Perm [.logId, .contentTypeJson, .connection]) (req : HttpRequest) (n : ℕ) :
    ∃ before after, ∀ requestId, requestText order req n requestId =
      before ++ literal "log-id: " ++ decimal requestId ++ (lineEnd ++ after) := by
  obtain ⟨before, after, heq⟩ := headerLines_eq horder
  refine ⟨requestHead req n ++ before, after ++ lineEnd, fun requestId => ?_⟩
  rw [requestText, heq]
  simp only [List.append_assoc]

theorem slices_eq_append (h : Heap) (attached : AttachId → IOBuffer) (req : HttpRequest) :
    ∃ consumed, req.slices h attached = consumed ++ req.body h attached := by
  unfold HttpRequest.slices HttpRequest.body
  cases req.data with
  | none => exact ⟨[], rfl⟩
  | some a =>
    refine ⟨((attached a).ref.take (attached a).refOffset).flatMap (Slice.bytes h), ?_⟩
    rw [Option.elim_some, Option.elim_some, IOBuffer.toString, live, ← List.flatMap_append,
      List.take_append_drop]

theorem moved_eq (attached : AttachId → IOBuffer) :
    ∀ a ∈ req.data, req.moved attached a = IOBuffer.empty := by
  intro a ha
  unfold HttpRequest.moved
  rw [Option.mem_def.mp ha, Option.elim_some, Function.update_self]

theorem slices_moved (h : Heap) (attached : AttachId → IOBuffer) :
    req.slices h (req.moved attached) = [] := by
  unfold HttpRequest.slices
  cases hdata : req.data with
  | none => rfl
  | some a =>
    rw [Option.elim_some, moved_eq attached a hdata]
    rfl

theorem attachSize_eq_zero (hslices : req.slices h attached = []) :
    req.attachSize attached = 0 := by
  obtain ⟨consumed, heq⟩ := slices_eq_append h attached req
  rw [heq, List.append_eq_nil_iff] at hslices
  rw [HttpRequest.attachSize_eq h, hslices.2, List.length_nil]

theorem attachSize_moved (attached : AttachId → IOBuffer) :
    req.attachSize (req.moved attached) = 0 :=
  attachSize_eq_zero (slices_moved (.init fun _ => ⟨none, 0, 0, fun _ => 0⟩) attached)

/-- A request can be assembled repeatedly, so that the bytes differ in the log id only and the size
of the body stays, exactly if the slices of its body hold no bytes. -/
theorem assembleHttpRequest_repeatable (hw : h.WF) (t : ThreadId) (order : List EHttpHeaderKey)
    (horder : order.Perm [.logId, .contentTypeJson, .connection]) (req : HttpRequest)
    (attached : AttachId → IOBuffer) (hok : req.uri.parseOk = true) (b₁ b₂ : IOBuffer)
    (hb₁ : b₁.WF h) (hb₂ : b₂.WF h) (hdata : ∀ a ∈ req.data, (attached a).WF h) :
    (∃ before after, ∀ i j, ∃ h₁ a₁ c₁ h₂ a₂ c₂,
      assembleHttpRequest h t order attached req i b₁ = some (h₁, a₁, c₁, true) ∧
      assembleHttpRequest h₁ t order a₁ req j b₂ = some (h₂, a₂, c₂, true) ∧
      c₁.toString h₁ = b₁.toString h ++
        (before ++ literal "log-id: " ++ decimal i ++ (lineEnd ++ after)) ∧
      c₂.toString h₂ = b₂.toString h ++
        (before ++ literal "log-id: " ++ decimal j ++ (lineEnd ++ after)) ∧
      req.attachSize a₁ = req.attachSize attached ∧
      req.attachSize a₂ = req.attachSize attached) ↔ req.slices h attached = [] := by
  -- the first assembly moves the body out, and the second one finds none
  have htwice : ∀ i j, ∃ h₁ c₁ h₂ c₂,
      assembleHttpRequest h t order attached req i b₁ = some (h₁, req.moved attached, c₁, true) ∧
      assembleHttpRequest h₁ t order (req.moved attached) req j b₂ =
        some (h₂, req.moved (req.moved attached), c₂, true) ∧
      c₁.toString h₁ = b₁.toString h ++
        (requestText order req (req.attachSize attached) i ++ req.slices h attached) ∧
      c₂.toString h₂ = b₂.toString h ++ requestText order req 0 j := by
    intro i j
    obtain ⟨h₁, c₁, he₁, hw₁, hg₁, -, hs₁⟩ :=
      assembleHttpRequest_spec hw hb₁ t order hok hdata i
    have hdata₁ : ∀ a ∈ req.data, (req.moved attached a).WF h₁ := by
      intro a ha
      rw [moved_eq attached a ha]
      exact wf_empty h₁
    obtain ⟨h₂, c₂, he₂, -, -, -, hs₂⟩ :=
      assembleHttpRequest_spec hw₁ (hb₂.grows hg₁) t order hok hdata₁ j
    refine ⟨h₁, c₁, h₂, c₂, he₁, he₂, hs₁, ?_⟩
    rw [hs₂, attachSize_moved, slices_moved, List.append_nil, toString_grows hb₂ hg₁]
  constructor
  · rintro ⟨before, after, hall⟩
    obtain ⟨h₁, a₁, c₁, h₂, a₂, c₂, he₁, he₂, ht₁, ht₂, hsize, -⟩ := hall 0 0
    obtain ⟨h₁', c₁', h₂', c₂', he₁', he₂', ht₁', ht₂'⟩ := htwice 0 0
    obtain ⟨rfl, rfl, rfl, -⟩ : h₁' = h₁ ∧ req.moved attached = a₁ ∧ c₁' = c₁ ∧ true = true := by
      simpa using he₁'.symm.trans he₁
    obtain ⟨rfl, -, rfl, -⟩ :
        h₂' = h₂ ∧ req.moved (req.moved attached) = a₂ ∧ c₂' = c₂ ∧ true = true := by
      simpa using he₂'.symm.trans he₂
    rw [attachSize_moved] at hsize
    have h₁ := List.append_cancel_left (ht₁.symm.trans ht₁')
    rw [← hsize, List.append_cancel_left (ht₂.symm.trans ht₂')] at h₁
    exact List.self_eq_append_right.mp h₁
  · intro hslices
    obtain ⟨before, after, htext⟩ := requestText_eq horder req 0
    refine ⟨before, after, fun i j => ?_⟩
    obtain ⟨h₁, c₁, h₂, c₂, he₁, he₂, ht₁, ht₂⟩ := htwice i j
    have hsize := attachSize_eq_zero hslices
    refine ⟨h₁, _, c₁, h₂, _, c₂, he₁, he₂, ?_, ht₂.trans (by rw [htext]), ?_, ?_⟩
    · rw [ht₁, hslices, hsize, List.append_nil, htext]
    · rw [attachSize_moved, hsize]
    · rw [attachSize_moved, hsize]

def samplePost (data : Option AttachId) : HttpRequest where
  uri := ⟨literal "http", literal "h", literal "/p", [], [], [], 80, true⟩
  method := .httpMethodPost
  attchType := []
  data := data

theorem assembleHttpRequest_repeatable_empty :
    ∃ before after, ∀ i j, ∃ h₁ a₁ c₁ h₂ a₂ c₂,
      assembleHttpRequest (Heap.init fun _ => ⟨none, 0, 0, fun _ => 0⟩) 0
        [.connection, .contentTypeJson, .logId] (fun _ => .empty) (samplePost (some 0)) i .empty =
          some (h₁, a₁, c₁, true) ∧
      assembleHttpRequest h₁ 0 [.connection, .contentTypeJson, .logId] a₁ (samplePost (some 0)) j
        .empty = some (h₂, a₂, c₂, true) ∧
      c₁.toString h₁ = IOBuffer.empty.toString (Heap.init fun _ => ⟨none, 0, 0, fun _ => 0⟩) ++
        (before ++ literal "log-id: " ++ decimal i ++ (lineEnd ++ after)) ∧
      c₂.toString h₂ = IOBuffer.empty.toString (Heap.init fun _ => ⟨none, 0, 0, fun _ => 0⟩) ++
        (before ++ literal "log-id: " ++ decimal j ++ (lineEnd ++ after)) ∧
      (samplePost (some 0)).attachSize a₁ = 0 ∧ (samplePost (some 0)).attachSize a₂ = 0 :=
  (assembleHttpRequest_repeatable (Heap.wf_init _) 0 _ (by decide) _ _ rfl _ _ (wf_empty _)
    (wf_empty _) fun _ _ => wf_empty _).mpr rfl

/-- A body of one byte: the second assembly has none. -/
theorem assembleHttpRequest_loses_body :
    ∃ r₀, (samplePost none).attach (Heap.init fun _ => ⟨none, 0, 0, fun _ => 0⟩) 0
        (fun _ => .empty) 0 (literal "x") = some r₀ ∧ r₀.2.2.attachSize r₀.2.1 = 1 ∧
      ∃ r₁, assembleHttpRequest r₀.1 0 [.connection, .contentTypeJson, .logId] r₀.2.1 r₀.2.2 7
        .empty = some r₁ ∧
      r₁.2.2.1.toString r₁.1 = literal ("POST /p HTTP/1.1\r\nContent-Length: 1\r\nHost: h:80\r\n" ++
        "Accept: */*\r\nUser-Agent: curl/7.0\r\nconnection: keep-alive\r\nlog-id: 7\r\n\r\nx") ∧
      r₀.2.2.attachSize r₁.2.1 = 0 ∧
      ∃ r₂, assembleHttpRequest r₁.1 0 [.connection, .contentTypeJson, .logId] r₁.2.1 r₀.2.2 8
        .empty = some r₂ ∧
      r₂.2.2.1.toString r₂.1 = literal ("POST /p HTTP/1.1\r\nContent-Length: 0\r\nHost: h:80\r\n" ++
        "Accept: */*\r\nUser-Agent: curl/7.0\r\nconnection: keep-alive\r\nlog-id: 8\r\n\r\n") := by
  decide +kernel

end SofaBolt.Http
