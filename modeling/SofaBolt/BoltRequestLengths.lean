import Mathlib.Data.List.TakeWhile
import SofaBolt.BoltRequest

namespace SofaBolt.Bolt

open IOBuffer Wire

variable {h h₁ h₂ : Heap} {buffer buffer₁ buffer₂ : IOBuffer} {p x : Bytes}

theorem headerEntries_length (req : BoltRequest) :
    ((headerEntries req).flatMap (encodeEntry 4)).length =
      113 + 2 * req.service.length + req.method.length + req.traceId.length := by
  simp only [headerEntries, List.flatMap_cons, List.flatMap_nil, List.length_append,
    encodeEntry_length, literal, List.length_map, String.length_toList, List.length_nil]
  have h₁ : "service".length = 7 := rfl
  have h₂ : "sofa_head_target_service".length = 24 := rfl
  have h₃ : "sofa_head_method_name".length = 21 := rfl
  have h₄ : "rpc_trace_context.sofaTraceId".length = 29 := rfl
  omega

/-- A request that its length fields can represent: 65535 bytes of entries and less than 2^32
bytes of payload. -/
def Representable (req : BoltRequest) (p : Bytes) : Prop :=
  ((headerEntries req).flatMap (encodeEntry 4)).length ≤ 65535 ∧ p.length < 2 ^ 32

instance (req : BoltRequest) (p : Bytes) : Decidable (Representable req p) :=
  inferInstanceAs (Decidable (_ ∧ _))

/-- The frame of a request states the lengths of its three sections exactly if the request is
representable. -/
theorem assembleBoltRequest_lengths (hw : h.WF) (hb : buffer.WF h) (t : ThreadId)
    (req : BoltRequest) (requestId : ℕ) (hd : req.data.Carries p) :
    (∃ h' buffer' frame fields cls kvs,
      assembleBoltRequest h t req requestId buffer = some (h', buffer', true) ∧
      buffer'.toString h' = buffer.toString h ++ frame ∧
      decodeFields [1, 1, 2, 1, 4, 1, 4, 2, 2, 4] frame = some (fields, cls ++ (kvs ++ p)) ∧
      kvs = (headerEntries req).flatMap (encodeEntry 4) ∧
      fields.drop 7 = [cls.length, kvs.length, p.length] ∧
      frame.length = 22 + cls.length + kvs.length + p.length) ↔ Representable req p := by
  constructor
  · rintro ⟨h', buffer', frame, fields, cls, kvs, -, -, hdec, rfl, hlengths, -⟩
    have hlt := List.forall₂_drop 7 (decodeFields_lt hdec)
    rw [hlengths] at hlt
    simp only [List.drop_succ_cons, List.drop_zero, List.forall₂_cons] at hlt
    obtain ⟨-, hkvs, hp, -⟩ := hlt
    exact ⟨Nat.le_of_lt_succ hkvs, by omega⟩
  · rintro ⟨hlen, hp⟩
    obtain ⟨h', buffer', he, -, -, -, htxt⟩ := assembleBoltRequest_spec hd hlen hw hb t requestId
    set kvs := (headerEntries req).flatMap (encodeEntry 4) with hkvs
    have hhl : (finalHeader req requestId p).headerLen.toNat = kvs.length := by
      simp only [finalHeader, UInt16.toNat_ofNat', ← hkvs]
      omega
    have hcl : (finalHeader req requestId p).contentLen.toNat = p.length := by
      simp only [finalHeader, UInt32.toNat_ofNat']
      omega
    refine ⟨h', buffer', _, _, className, kvs, he, htxt,
      (finalHeader req requestId p).decodeFields_bytes _, rfl, ?_, ?_⟩
    · simp only [List.drop_succ_cons, List.drop_zero, hhl, hcl]
      rfl
    · rw [List.length_append, List.length_append, List.length_append,
        BoltRequestHeader.bytes_length]
      omega

theorem assembleBoltRequest_lengths_message :
    ∃ h' buffer' frame fields cls kvs,
      assembleBoltRequest (Heap.init fun _ => ⟨none, 0, 0, fun _ => 0⟩) 0
        ⟨literal "s", literal "m", [0], .protobuf (some ⟨[8, 1], [1]⟩)⟩ 5 IOBuffer.empty =
          some (h', buffer', true) ∧
      buffer'.toString h' = IOBuffer.empty.toString (Heap.init fun _ => ⟨none, 0, 0, fun _ => 0⟩) ++
        frame ∧
      decodeFields [1, 1, 2, 1, 4, 1, 4, 2, 2, 4] frame =
        some (fields, cls ++ (kvs ++ ([8, 1] : Bytes))) ∧
      kvs = (headerEntries ⟨literal "s", literal "m", [0], .protobuf (some ⟨[8, 1], [1]⟩)⟩).flatMap
        (encodeEntry 4) ∧
      fields.drop 7 = [cls.length, kvs.length, ([8, 1] : Bytes).length] ∧
      frame.length = 22 + cls.length + kvs.length + ([8, 1] : Bytes).length :=
  (assembleBoltRequest_lengths (Heap.wf_init _) (wf_empty _) 0 _ _ (.inr ⟨[1], rfl⟩)).mpr
    ⟨by decide, by decide⟩

/-- The header `serialize` writes for a payload whose length is taken from the string. -/
def stringHeader (req : BoltRequest) (requestId : ℕ) (str : Bytes) : BoltRequestHeader :=
  { measuredHeader req requestId with contentLen := UInt32.ofNat str.length }

theorem assembleBoltRequest_string (hw : h.WF) (hb : buffer.WF h) (t : ThreadId)
    (req : BoltRequest) (requestId : ℕ) (hd : req.data = .string (some x)) :
    ∃ h' buffer', assembleBoltRequest h t req requestId buffer = some (h', buffer', true) ∧
      buffer'.toString h' = buffer.toString h ++ ((stringHeader req requestId x).bytes ++
        (className ++ ((headerEntries req).flatMap wireEntry ++ x))) := by
  obtain ⟨h₁, b₁, a₁, he⟩ := assembleBoltRequest_eq hw t (by rw [hd]; simp) requestId buffer
  obtain ⟨h₂, b₂, e₂, a₂⟩ := append_spec a₁.heap a₁.wf t (some x)
  have a₁₂ := a₁.trans a₂
  obtain ⟨h₃, b₃, e₃, a₃⟩ := append_spec a₂.heap (hb.grows a₁₂.grows) t
    (some (stringHeader req requestId x).bytes)
  obtain ⟨-, htxt⟩ := appendBuffer_spec a₃.wf (a₂.wf.grows a₃.grows) a₁₂.refOffset_eq
  refine ⟨h₃, b₃.appendBuffer b₂, ?_, ?_⟩
  · rw [he, hd, appendContent, e₂]
    exact congrArg (Option.bind · fun r => some (r.1, (r.2.appendMove b₂).1, true)) e₃
  · rw [htxt, a₃.toString_eq, toString_grows hb a₁₂.grows, toString_grows a₂.wf a₃.grows,
      a₁₂.toString_eq]
    simp

theorem assembleBoltRequest_cString (hw : h.WF) (hb : buffer.WF h) (t : ThreadId)
    (req : BoltRequest) (requestId : ℕ) (hd : req.data = .cString (some x)) (hx : 0 ∉ x) :
    ∃ h' buffer', assembleBoltRequest h t req requestId buffer = some (h', buffer', true) ∧
      buffer'.toString h' = buffer.toString h ++ (x ++ ((stringHeader req requestId x).bytes ++
        (className ++ (headerEntries req).flatMap wireEntry))) := by
  have hnul : x.takeWhile (fun c => decide (c ≠ 0)) = x :=
    List.takeWhile_eq_self_iff.mpr fun c hc => decide_eq_true fun h0 => hx (h0 ▸ hc)
  obtain ⟨h₁, b₁, a₁, he⟩ := assembleBoltRequest_eq hw t (by rw [hd]; simp) requestId buffer
  obtain ⟨h₂, b₂, e₂, a₂⟩ := append_spec a₁.heap (hb.grows a₁.grows) t (some x)
  obtain ⟨h₃, b₃, e₃, a₃⟩ := append_spec a₂.heap a₂.wf t
    (some (stringHeader req requestId x).bytes)
  have hg := a₂.grows.trans a₃.grows
  obtain ⟨-, htxt⟩ := appendBuffer_spec a₃.wf (a₁.wf.grows hg) a₁.refOffset_eq
  refine ⟨h₃, b₃.appendBuffer b₁, ?_, ?_⟩
  · rw [he, hd, appendContent, hnul, e₂]
    exact congrArg (Option.bind · fun r => some (r.1, (r.2.appendMove b₁).1, true)) e₃
  · rw [htxt, a₃.toString_eq, a₂.toString_eq, toString_grows hb a₁.grows,
      toString_grows a₁.wf hg, a₁.toString_eq]
    simp

def longTraceId : BoltRequest := ⟨[], [], List.replicate 65423 0, .string (some [])⟩

/-- The request is written under a `header_len` of 0. -/
theorem assembleBoltRequest_truncates :
    ∃ h' buffer' fields sections,
      assembleBoltRequest (Heap.init fun _ => ⟨none, 0, 0, fun _ => 0⟩) 0 longTraceId 5
        IOBuffer.empty = some (h', buffer', true) ∧
      decodeFields [1, 1, 2, 1, 4, 1, 4, 2, 2, 4] (buffer'.toString h') = some (fields, sections) ∧
      fields.drop 7 = [44, 0, 0] ∧ sections.length = 44 + 65536 ∧
      ¬ Representable longTraceId [] := by
  have hlen : ((headerEntries longTraceId).flatMap (encodeEntry 4)).length = 65536 := by
    have htrace : longTraceId.traceId.length = 65423 := List.length_replicate
    rw [headerEntries_length, htrace]
    rfl
  have hfit : ∀ e ∈ headerEntries longTraceId, e.Fits 4 := fits_of_flatMap_lt (by omega)
  have hwire := flatMap_wireEntry hfit
  obtain ⟨h', buffer', he, htxt⟩ := assembleBoltRequest_string
    (Heap.wf_init fun _ => ⟨none, 0, 0, fun _ => 0⟩) (wf_empty _) 0 longTraceId 5 rfl
  refine ⟨h', buffer', _, _, he, by rw [htxt]; exact BoltRequestHeader.decodeFields_bytes _ _, ?_,
    ?_, ?_⟩
  · simp only [stringHeader, measuredHeader, hwire, hlen]
    rfl
  · rw [List.length_append, List.length_append, hwire, hlen]
    rfl
  · rintro ⟨hle, -⟩
    omega

/-- The header begins with two bytes that are not zero and one that is. -/
theorem stringHeader_bytes (req : BoltRequest) (hd : req.data ≠ .none) (requestId : ℕ)
    (str : Bytes) : ∃ rest, (stringHeader req requestId str).bytes = 1 :: 1 :: 0 :: rest := by
  have hcmd : (stringHeader req requestId str).cmdcode = boltProtocolCmdRequest := if_neg hd
  refine ⟨((stringHeader req requestId str).bytes).drop 3, ?_⟩
  rw [BoltRequestHeader.bytes, BoltRequestHeader.fields, hcmd]
  rfl

/-- A C string and the same text as a `std::string` leave the same bytes only if the text is
empty. -/
theorem cString_encodes_like_string_iff (hw₁ : h₁.WF) (hb₁ : buffer₁.WF h₁) (hw₂ : h₂.WF)
    (hb₂ : buffer₂.WF h₂) (hsame : buffer₁.toString h₁ = buffer₂.toString h₂) (t₁ t₂ : ThreadId)
    (service method traceId : Bytes) (requestId : ℕ) (hx : 0 ∉ x) :
    ∃ h₁' h₂' buffer₁' buffer₂',
      assembleBoltRequest h₁ t₁ ⟨service, method, traceId, .cString (some x)⟩ requestId buffer₁ =
        some (h₁', buffer₁', true) ∧
      assembleBoltRequest h₂ t₂ ⟨service, method, traceId, .string (some x)⟩ requestId buffer₂ =
        some (h₂', buffer₂', true) ∧
      (buffer₁'.toString h₁' = buffer₂'.toString h₂' ↔ x = []) := by
  obtain ⟨h₁', b₁', he₁, ht₁⟩ := assembleBoltRequest_cString hw₁ hb₁ t₁
    ⟨service, method, traceId, .cString (some x)⟩ requestId rfl hx
  obtain ⟨h₂', b₂', he₂, ht₂⟩ := assembleBoltRequest_string hw₂ hb₂ t₂
    ⟨service, method, traceId, .string (some x)⟩ requestId rfl
  refine ⟨h₁', h₂', b₁', b₂', he₁, he₂, ?_⟩
  -- both write the same header and the same entries
  have hheader : stringHeader ⟨service, method, traceId, .cString (some x)⟩ requestId x =
      stringHeader ⟨service, method, traceId, .string (some x)⟩ requestId x := rfl
  obtain ⟨rest, hrest⟩ := stringHeader_bytes ⟨service, method, traceId, .string (some x)⟩
    (by simp) requestId x
  rw [ht₁, ht₂, hsame, List.append_cancel_left_eq, hheader, hrest]
  constructor
  · -- the first zero byte is at a different place, unless nothing is in front of it
    intro heq
    have hnul : ∀ c ∈ x, decide (c ≠ 0) = true := fun c hc => decide_eq_true fun h0 => hx (h0 ▸ hc)
    have htake := congrArg (List.takeWhile fun c => decide (c ≠ 0)) heq
    rw [List.takeWhile_append_of_pos hnul] at htake
    exact List.append_left_eq_self.mp htake
  · rintro rfl
    simp only [List.nil_append, List.append_nil]
    rfl

theorem cString_encodes_like_string_empty :
    ∃ h₁' h₂' buffer₁' buffer₂',
      assembleBoltRequest (Heap.init fun _ => ⟨none, 0, 0, fun _ => 0⟩) 0
        ⟨literal "s", literal "m", [], .cString (some [])⟩ 5 IOBuffer.empty =
          some (h₁', buffer₁', true) ∧
      assembleBoltRequest (Heap.init fun _ => ⟨none, 0, 0, fun _ => 0⟩) 1
        ⟨literal "s", literal "m", [], .string (some [])⟩ 5 IOBuffer.empty =
          some (h₂', buffer₂', true) ∧
      buffer₁'.toString h₁' = buffer₂'.toString h₂' := by
  obtain ⟨h₁', h₂', b₁', b₂', he₁, he₂, hiff⟩ := cString_encodes_like_string_iff
    (Heap.wf_init fun _ => ⟨none, 0, 0, fun _ => 0⟩) (wf_empty _)
    (Heap.wf_init fun _ => ⟨none, 0, 0, fun _ => 0⟩) (wf_empty _) rfl 0 1
    (literal "s") (literal "m") [] 5 (List.not_mem_nil (a := 0))
  exact ⟨h₁', h₂', b₁', b₂', he₁, he₂, hiff.mpr rfl⟩

/-- The text in front of the header. -/
theorem cString_precedes_header :
    ∃ h₁' h₂' buffer₁' buffer₂',
      assembleBoltRequest (Heap.init fun _ => ⟨none, 0, 0, fun _ => 0⟩) 0
        ⟨literal "s", literal "m", [], .cString (some (literal "x"))⟩ 5 IOBuffer.empty =
          some (h₁', buffer₁', true) ∧
      assembleBoltRequest (Heap.init fun _ => ⟨none, 0, 0, fun _ => 0⟩) 0
        ⟨literal "s", literal "m", [], .string (some (literal "x"))⟩ 5 IOBuffer.empty =
          some (h₂', buffer₂', true) ∧
      (buffer₁'.toString h₁').take 3 = [120, 1, 1] ∧ (buffer₂'.toString h₂').take 3 = [1, 1, 0] := by
  obtain ⟨h₁', b₁', he₁, ht₁⟩ := assembleBoltRequest_cString
    (Heap.wf_init fun _ => ⟨none, 0, 0, fun _ => 0⟩) (wf_empty _) 0
    ⟨literal "s", literal "m", [], .cString (some (literal "x"))⟩ 5 rfl (by decide)
  obtain ⟨h₂', b₂', he₂, ht₂⟩ := assembleBoltRequest_string
    (Heap.wf_init fun _ => ⟨none, 0, 0, fun _ => 0⟩) (wf_empty _) 0
    ⟨literal "s", literal "m", [], .string (some (literal "x"))⟩ 5 rfl
  exact ⟨h₁', h₂', b₁', b₂', he₁, he₂, by rw [ht₁]; decide, by rw [ht₂]; decide⟩

end SofaBolt.Bolt
