import SofaBolt.HttpRequest

namespace SofaBolt.Http

open IOBuffer HttpMessage
open Bolt (literal)

def queryOf (url : Bytes) : Bytes := ((URI.new (-1)).parseFromString url).elim [] URI.query

def requestTarget (path query : Bytes) : Bytes :=
  if path = [] ∧ query = [] then literal "/"
  else path ++ if query = [] then [] else literal "?" ++ query

def hostField (u : URI) : Bytes :=
  if u.port = -1 then u.host else u.host ++ literal ":" ++ printInt u.port

variable {h : Heap} {buffer : IOBuffer} {attached : AttachId → IOBuffer} {req : HttpRequest}

def spaced (name value : Bytes) : Field := (name, 32 :: value)

def hostPort (u : URI) : Bytes := u.host ++ literal ":" ++ printInt u.port

def lengthFields (req : HttpRequest) (attachSize : ℕ) : List Field :=
  if req.method ≠ .httpMethodGet then [spaced contentLengthName (decimal attachSize)] else []

def typeFields (req : HttpRequest) (value : Bytes) (more : List Field) : List Field :=
  if req.attchType ≠ [] then spaced (literal "Content-Type") value :: more else []

def headerFields (order : List EHttpHeaderKey) (requestId : ℕ) : List Field :=
  order.filterMap fun key => (headerMap requestId key).map fun value =>
    spaced (getHeaderKey key) value

def lastFields (order : List EHttpHeaderKey) (requestId : ℕ) : List Field :=
  [spaced (literal "Accept") (literal "*/*"), spaced (literal "User-Agent") (literal "curl/7.0")] ++
    headerFields order requestId

theorem headerLines_eq_flatMap (order : List EHttpHeaderKey) (requestId : ℕ) :
    headerLines order requestId = (headerFields order requestId).flatMap encodeLine := by
  induction order with
  | nil => rfl
  | cons key order ih =>
    unfold headerLines headerFields at *
    rw [List.flatMap_cons, ih]
    cases key with
    | logId => rfl
    | contentTypeJson => rfl
    | connection => rfl

theorem requestText_append (order : List EHttpHeaderKey) (req : HttpRequest)
    (attachSize requestId : ℕ) (slices : Bytes) :
    requestText order req attachSize requestId ++ slices =
      getMethod req.method ++ 32 :: (req.uri.path ++ 32 :: (version ++ crlf)) ++
        ((lengthFields req attachSize).flatMap encodeLine ++
          ((if req.attchType ≠ [] then
              literal "Content-Type" ++ 58 :: 32 :: (req.attchType ++ crlf) else []) ++
            (hostName ++ 58 :: 32 :: (hostPort req.uri ++ crlf) ++
              ((lastFields order requestId).flatMap encodeLine ++ (crlf ++ slices))))) := by
  have hlength : literal "Content-Length: " = contentLengthName ++ [58, 32] := by decide
  have htype : literal "Content-Type: " = literal "Content-Type" ++ [58, 32] := by decide
  have hhost : literal "Host: " = hostName ++ [58, 32] := by decide
  have haccept : literal "Accept: */*" = literal "Accept" ++ [58, 32] ++ literal "*/*" := by decide
  have hagent : literal "User-Agent: curl/7.0" =
      literal "User-Agent" ++ [58, 32] ++ literal "curl/7.0" := by decide
  have hversion : literal " HTTP/1.1" = [32] ++ version := by decide
  have hspace : literal " " = [32] := by decide
  have hend : lineEnd = crlf := by decide
  unfold requestText requestHead lengthFields lastFields hostPort
  rw [headerLines_eq_flatMap, hlength, htype, hhost, haccept, hagent, hversion, hspace, hend]
  split_ifs <;> simp [encodeLine, spaced]

theorem mem_headerFields {order : List EHttpHeaderKey} {requestId : ℕ} {f : Field}
    (hf : f ∈ headerFields order requestId) :
    f = spaced (literal "log-id") (decimal requestId) ∨
      f = spaced (literal "connection") (literal "keep-alive") := by
  obtain ⟨key, -, hkey⟩ := List.mem_filterMap.mp hf
  cases key with
  | logId => exact Or.inl (Option.some.inj hkey).symm
  | contentTypeJson => cases hkey
  | connection => exact Or.inr (Option.some.inj hkey).symm

theorem writable_spaced {name value : Bytes} (hname : name ≠ [] ∧ name.all isTokenChar)
    (hvalue : value.all isFieldChar) : Writable (spaced name value) :=
  writable_mk hname (by rw [List.all_cons, hvalue]; rfl)

theorem all_decimal (n : ℕ) : (decimal n).all isFieldChar :=
  List.all_eq_true.mpr fun _ hc => isFieldChar_of_isDigit (isDigit_of_mem_decimal hc)

theorem all_printInt (n : ℤ) : (printInt n).all isFieldChar := by
  cases n with
  | ofNat n => exact all_decimal n
  | negSucc n =>
    rw [printInt, List.all_append, all_decimal]
    rfl

theorem writable_lengthFields (req : HttpRequest) (attachSize : ℕ) :
    ∀ f ∈ lengthFields req attachSize, Writable f := by
  intro f hf
  unfold lengthFields at hf
  split_ifs at hf
  · exact List.mem_singleton.mp hf ▸ writable_spaced (by decide) (all_decimal attachSize)
  · cases hf

theorem writable_lastFields (order : List EHttpHeaderKey) (requestId : ℕ) :
    ∀ f ∈ lastFields order requestId, Writable f := by
  intro f hf
  rcases List.mem_append.mp hf with hf | hf
  · simp only [List.mem_cons, List.not_mem_nil, or_false] at hf
    rcases hf with rfl | rfl
    · exact writable_spaced (by decide) (by decide)
    · exact writable_spaced (by decide) (by decide)
  · rcases mem_headerFields hf with rfl | rfl
    · exact writable_spaced (by decide) (all_decimal requestId)
    · exact writable_spaced (by decide) (by decide)

structure Lines (text value : Bytes) (more : List Field) : Prop where
  text : text ++ crlf = value ++ (crlf ++ more.flatMap encodeLine)
  value : value.all isFieldChar
  more : ∀ f ∈ more, Writable f

theorem Lines.of_nil {value : Bytes} {more : List Field} (hl : Lines [] value more) :
    value = [] ∧ more = [] := by
  have hlen := congrArg List.length hl.text
  have hmore := length_le_flatMap_encodeLine more
  simp only [List.nil_append, List.length_append] at hlen
  exact ⟨List.length_eq_zero_iff.mp (by omega), List.length_eq_zero_iff.mp (by omega)⟩

theorem Lines.of_notMem {text value : Bytes} {more : List Field} (hl : Lines text value more)
    (hcr : (13 : UInt8) ∉ text) : value = text ∧ more = [] := by
  have hvalue : (13 : UInt8) ∉ value := fun hmem =>
    (isFieldChar_ne (List.all_eq_true.mp hl.value _ hmem)).1 rfl
  obtain ⟨hv, hm⟩ := append_cons_inj hcr hvalue
    (show text ++ 13 :: [10] = value ++ 13 :: (10 :: more.flatMap encodeLine) from hl.text)
  have hlen := length_le_flatMap_encodeLine more
  rw [← (List.cons.inj hm).2] at hlen
  exact ⟨hv.symm, List.length_eq_zero_iff.mp (Nat.le_zero.mp hlen)⟩

/-- The exact condition under which a request is read as it is meant. A `GET` has no body unless the
further fields of the attach type have its length. -/
structure Sendable (req : HttpRequest) (query slices body : Bytes) : Prop where
  path_ne : req.uri.path ≠ []
  path : req.uri.path.all isTargetChar
  query : query = []
  port : req.uri.port ≠ -1
  host : req.uri.host.all isFieldChar
  host_head : req.uri.host.head? ≠ some 9
  slices : slices = body
  attchType : ∃ value more, Lines req.attchType value more ∧
    fieldValues more hostName = [] ∧ fieldValues more transferEncodingName = [] ∧
    if req.method = .httpMethodGet then bodyLength (readFields more) = some body.length
    else fieldValues more contentLengthName = []

def otherNames : List Bytes :=
  [literal "log-id", literal "connection", literal "Content-Type", literal "Accept",
    literal "User-Agent"]

section Values

variable (order : List EHttpHeaderKey) (req : HttpRequest) (attachSize requestId : ℕ)
  (value : Bytes) {more : List Field}

theorem lastFields_names : ∀ f ∈ lastFields order requestId, f.1 ∈ otherNames := by
  intro f hf
  rcases List.mem_append.mp hf with hf | hf
  · simp only [List.mem_cons, List.not_mem_nil, or_false] at hf
    rcases hf with rfl | rfl <;> simp [otherNames, spaced]
  · rcases mem_headerFields hf with rfl | rfl <;> simp [otherNames, spaced]

def requestFields (more hosts : List Field) : List Field :=
  lengthFields req attachSize ++ (typeFields req value more ++
    (hosts ++ lastFields order requestId))

theorem fieldValues_requestFields (hl : Lines req.attchType value more) (hosts : List Field)
    {name : Bytes} (hname : ∀ other ∈ otherNames, other.map toLower ≠ name.map toLower) :
    fieldValues (readFields (requestFields order req attachSize requestId value more hosts)) name =
      (fieldValues (lengthFields req attachSize) name ++
        (fieldValues more name ++ fieldValues hosts name)).map trim := by
  have hlast : fieldValues (lastFields order requestId) name = [] :=
    fieldValues_eq_nil fun f hf => hname _ (lastFields_names order requestId f hf)
  have htype : fieldValues (typeFields req value more) name = fieldValues more name := by
    unfold typeFields
    split_ifs with hne
    · exact fieldValues_cons_of_ne (hname _ (by simp [otherNames])) more
    · rw [(not_not.mp hne ▸ hl : Lines [] value more).of_nil.2]
  rw [fieldValues_readFields, requestFields, fieldValues_append, fieldValues_append,
    fieldValues_append, hlast, htype, List.append_nil]

theorem fieldValues_lengthFields :
    fieldValues (lengthFields req attachSize) contentLengthName =
        (if req.method ≠ .httpMethodGet then [32 :: decimal attachSize] else []) ∧
      fieldValues (lengthFields req attachSize) hostName = [] ∧
      fieldValues (lengthFields req attachSize) transferEncodingName = [] := by
  unfold lengthFields
  split_ifs
  · exact ⟨fieldValues_cons_self rfl [], fieldValues_cons_of_ne (by decide) [],
      fieldValues_cons_of_ne (by decide) []⟩
  · exact ⟨rfl, rfl, rfl⟩

end Values

theorem trim_decimal (n : ℕ) : trim (32 :: decimal n) = decimal n := by
  rw [trim_cons_blank rfl]
  exact trim_of_forall_not_blank fun c hc => isBlank_of_isDigit (isDigit_of_mem_decimal hc)

theorem trim_hostPort (u : URI) :
    trim (32 :: hostPort u) = u.host.dropWhile isBlank ++ literal ":" ++ printInt u.port := by
  obtain ⟨init, d, hd, hdigit⟩ : ∃ init d, printInt u.port = init ++ [d] ∧ isDigit d = true := by
    have hlast (n : ℕ) : ∃ init d, decimal n = init ++ [d] ∧ isDigit d = true := by
      obtain ⟨init, d, h⟩ := (List.eq_nil_or_concat (decimal n)).resolve_left (decimal_ne_nil n)
      rw [List.concat_eq_append] at h
      exact ⟨init, d, h, isDigit_of_mem_decimal (n := n) (by simp [h])⟩
    cases u.port with
    | ofNat n => exact hlast n
    | negSucc n =>
      obtain ⟨init, d, h, hdigit⟩ := hlast (n + 1)
      exact ⟨literal "-" ++ init, d, by rw [printInt, h, List.append_assoc], hdigit⟩
  have htext : hostPort u = (u.host ++ (literal ":" ++ init)) ++ [d] := by
    rw [hostPort, hd]
    simp
  have hcolon : (literal ":" ++ init).dropWhile isBlank = literal ":" ++ init := rfl
  rw [trim_cons_blank rfl, htext, trim_concat (isBlank_of_isDigit hdigit), List.dropWhile_append,
    hcolon, hd]
  split_ifs with h
  · rw [List.isEmpty_iff.mp h]
    simp
  · simp

/-- The host field is read as it is meant exactly if the URL has a port and the host does not
begin with white space. -/
theorem trim_hostPort_eq_iff {u : URI} (hspace : URI.space ∉ u.host) :
    trim (32 :: hostPort u) = hostField u ↔ u.port ≠ -1 ∧ u.host.head? ≠ some 9 := by
  have hhead : u.host.dropWhile isBlank = u.host ↔ u.host.head? ≠ some 9 := by
    cases hh : u.host with
    | nil => simp
    | cons c host =>
      have hc : c ≠ 32 := by
        rintro rfl
        exact hspace (by simp [hh, URI.space])
      rw [List.dropWhile_eq_self_iff]
      simp [isBlank, hc]
  rw [trim_hostPort]
  unfold hostField
  split_ifs with hport
  · refine iff_of_false (fun h => ?_) fun h => h.1 hport
    -- what is left of the host begins where the host begins, so nothing was taken off
    generalize hd : u.host.dropWhile isBlank = rest at h
    rw [← h, hport] at hd
    cases rest with
    | nil => exact absurd hd (by decide)
    | cons c rest =>
      have hc := List.head?_dropWhile_not isBlank (c :: rest ++ literal ":" ++ printInt (-1))
      rw [hd] at hc
      rw [List.cons_append, List.cons_append, List.dropWhile_cons_of_neg (by simpa using hc)] at hd
      simpa [literal] using congrArg List.length hd
  · rw [List.append_left_inj, List.append_left_inj, hhead]
    exact (and_iff_right hport).symm

theorem getMethod_token (m : EHttpMethod) :
    getMethod m ≠ [] ∧ (getMethod m).all isTokenChar := by
  cases m <;> decide

theorem flatMap_typeFields {value : Bytes} {more : List Field} (hl : Lines req.attchType value more) :
    (typeFields req value more).flatMap encodeLine =
      if req.attchType ≠ [] then literal "Content-Type" ++ 58 :: 32 :: (req.attchType ++ crlf)
      else [] := by
  unfold typeFields
  split_ifs
  · rw [hl.text]
    simp [encodeLine, spaced]
  · rfl

theorem writable_requestFields {value : Bytes} {more : List Field}
    (hl : Lines req.attchType value more) (hhost : req.uri.host.all isFieldChar)
    (order : List EHttpHeaderKey) (attachSize requestId : ℕ) :
    ∀ f ∈ requestFields order req attachSize requestId value more
      [spaced hostName (hostPort req.uri)], Writable f := by
  simp only [requestFields, List.mem_append]
  rintro f (hf | hf | hf | hf)
  · exact writable_lengthFields req attachSize f hf
  · unfold typeFields at hf
    split_ifs at hf
    · rcases List.mem_cons.mp hf with rfl | hf
      · exact writable_spaced (by decide) hl.value
      · exact hl.more f hf
    · cases hf
  · rw [List.mem_singleton.mp hf]
    refine writable_spaced (by decide) ?_
    rw [hostPort, List.all_append, List.all_append, hhost, all_printInt]
    rfl
  · exact writable_lastFields order requestId f hf

theorem Sendable.decodeRequest {query body : Bytes} (hs : Sendable req query body body)
    (hspace : URI.space ∉ req.uri.host) (order : List EHttpHeaderKey) (requestId : ℕ) :
    ∃ m, decodeRequest (requestText order req body.length requestId ++ body) = some m ∧
      m.method = getMethod req.method ∧ m.target = req.uri.path ∧
      fieldValues m.fields hostName = [hostField req.uri] ∧
      (req.method ≠ .httpMethodGet →
        fieldValues m.fields contentLengthName = [decimal body.length]) ∧ m.body = body := by
  obtain ⟨value, more, hl, hhost, hcoding, hlength⟩ := hs.attchType
  set hosts : List Field := [spaced hostName (hostPort req.uri)]
  set fields := requestFields order req body.length requestId value more hosts with hfields
  have hvalues {name : Bytes} := @fieldValues_requestFields order req body.length requestId value
    more hl hosts name
  obtain ⟨hl₁, hl₂, hl₃⟩ := fieldValues_lengthFields req body.length
  have hhostValue : fieldValues (readFields fields) hostName = [hostField req.uri] := by
    rw [hvalues (by decide), hl₂, hhost, List.nil_append, List.nil_append]
    exact congrArg (· :: []) ((trim_hostPort_eq_iff hspace).mpr ⟨hs.port, hs.host_head⟩)
  have hcl : fieldValues (readFields fields) contentLengthName =
      if req.method ≠ .httpMethodGet then [decimal body.length]
      else fieldValues (readFields more) contentLengthName := by
    have hnone : fieldValues hosts contentLengthName = [] := fieldValues_cons_of_ne (by decide) []
    rw [hvalues (by decide), hl₁, hnone, List.append_nil]
    split_ifs with hm
    · rw [if_neg hm] at hlength
      rw [hlength, List.append_nil, List.map_singleton, trim_decimal]
    · rw [List.nil_append, fieldValues_readFields]
  refine ⟨⟨getMethod req.method, req.uri.path, readFields fields, body⟩,
    decodeRequest_eq_some_iff.mpr ⟨fields, ?_, rfl, ?_, ?_, ?_, ?_, ?_⟩, rfl, rfl, hhostValue,
    fun hm => hcl.trans (if_pos hm), rfl⟩
  · rw [requestText_append, encodeRequest, hfields, requestFields, ← flatMap_typeFields hl]
    simp [hosts, encodeLine, spaced]
  · obtain ⟨hmethod, htoken⟩ := getMethod_token req.method
    exact ⟨hmethod, htoken, hs.path_ne, hs.path⟩
  · exact writable_requestFields hl hs.host order body.length requestId
  · rw [hhostValue]
    rfl
  · have hnone : fieldValues hosts transferEncodingName = [] :=
      fieldValues_cons_of_ne (by decide) []
    rw [hvalues (by decide), hl₃, hcoding, hnone]
    rfl
  · rw [bodyLength, hcl]
    split_ifs with hm
    · exact decodeDecimal_decimal body.length
    · rw [if_pos (not_not.mp hm)] at hlength
      exact hlength

theorem lines_of_text {name text rest : Bytes} {fields : List Field} (hname : (58 : UInt8) ∉ name)
    (hf : ∀ f ∈ fields, Writable f)
    (h : name ++ 58 :: 32 :: (text ++ crlf) ++ rest = fields.flatMap encodeLine ++ crlf)
    (hrest : rest ≠ []) :
    ∃ value more gs, Lines text value more ∧ fields = (spaced name value :: more) ++ gs ∧
      rest = gs.flatMap encodeLine ++ crlf := by
  obtain ⟨fs, gs, rfl, hfs, hgs⟩ := flatMap_encodeLine_split hf hrest
    (show (name ++ 58 :: 32 :: text) ++ (crlf ++ rest) = _ by simpa using h)
  obtain ⟨hf, -⟩ := List.forall_mem_append.mp hf
  obtain ⟨value, more, rfl, htext⟩ := flatMap_encodeLine_name hf hname hfs
  obtain ⟨hfirst, hmore⟩ := List.forall_mem_cons.mp hf
  exact ⟨value, more, gs, ⟨htext, ((Bool.and_eq_true _ _).mp hfirst.value).2, hmore⟩, rfl, hgs⟩

theorem typeFields_of_text {rest : Bytes} {fields : List Field} (hf : ∀ f ∈ fields, Writable f)
    (h : (if req.attchType ≠ [] then literal "Content-Type" ++ 58 :: 32 :: (req.attchType ++ crlf)
      else []) ++ rest = fields.flatMap encodeLine ++ crlf) (hrest : rest ≠ []) :
    ∃ value more gs, Lines req.attchType value more ∧
      fields = typeFields req value more ++ gs ∧ rest = gs.flatMap encodeLine ++ crlf := by
  unfold typeFields
  split_ifs at h ⊢ with htype
  · exact lines_of_text (by decide) hf h hrest
  · refine ⟨[], [], fields, ?_, rfl, h⟩
    rw [not_not.mp htype]
    exact ⟨rfl, rfl, by simp⟩

theorem eq_nil_of_crlf_append {rest : Bytes} {fields : List Field}
    (hf : ∀ f ∈ fields, Writable f) (h : crlf ++ rest = fields.flatMap encodeLine ++ crlf) :
    fields = [] ∧ rest = [] := by
  cases fields with
  | nil => exact ⟨rfl, by simpa using h⟩
  | cons f fields =>
    obtain ⟨hf, -⟩ := List.forall_mem_cons.mp hf
    obtain ⟨_ | ⟨c, name⟩, value⟩ := f
    · exact absurd rfl hf.name_ne
    · -- no name begins with CR
      have hc := (isTokenChar_ne (List.all_eq_true.mp hf.name c (by simp))).1
      exact absurd (List.cons.inj h).1.symm hc

theorem requestFields_of_text {order : List EHttpHeaderKey} {attachSize requestId : ℕ}
    {consumed : Bytes} {fields : List Field} (hf : ∀ f ∈ fields, Writable f)
    (h : (lengthFields req attachSize).flatMap encodeLine ++
      ((if req.attchType ≠ [] then
          literal "Content-Type" ++ 58 :: 32 :: (req.attchType ++ crlf) else []) ++
        (hostName ++ 58 :: 32 :: (hostPort req.uri ++ crlf) ++
          ((lastFields order requestId).flatMap encodeLine ++ (crlf ++ consumed)))) =
      fields.flatMap encodeLine ++ crlf) :
    consumed = [] ∧ ∃ value more hostValue others, Lines req.attchType value more ∧
      Lines (hostPort req.uri) hostValue others ∧
      fields = requestFields order req attachSize requestId value more
        (spaced hostName hostValue :: others) := by
  obtain ⟨fs, rfl, h₁⟩ := flatMap_encodeLine_strip (writable_lengthFields req _) hf h
  rw [List.forall_mem_append] at hf
  obtain ⟨value, more, gs, hl, rfl, h₂⟩ := typeFields_of_text hf.2 h₁ (by simp)
  rw [List.forall_mem_append] at hf
  obtain ⟨hostValue, others, ks, hlhost, rfl, h₃⟩ :=
    lines_of_text (by decide) hf.2.2 h₂ (by simp [crlf])
  rw [List.forall_mem_append] at hf
  obtain ⟨js, rfl, h₄⟩ :=
    flatMap_encodeLine_strip (writable_lastFields order requestId) hf.2.2.2 h₃
  rw [List.forall_mem_append] at hf
  obtain ⟨rfl, rfl⟩ := eq_nil_of_crlf_append hf.2.2.2.2 h₄
  exact ⟨rfl, value, more, hostValue, others, hl, hlhost, by rw [requestFields, List.append_nil]⟩

/-- A host field that is read as meant takes no second line. -/
theorem Lines.of_trim_eq {u : URI} {value : Bytes} {others : List Field}
    (hl : Lines (hostPort u) value others) (htrim : trim (32 :: value) = hostField u) :
    value = hostPort u ∧ others = [] := by
  have hfield : ∀ c ∈ hostField u, c ≠ 13 := by
    rw [← htrim]
    intro c hc
    rcases List.mem_cons.mp ((trim_sublist _).subset hc) with rfl | hc
    · decide
    · exact (isFieldChar_ne (List.all_eq_true.mp hl.value c hc)).1
  have hport := List.all_eq_true.mp (all_printInt u.port)
  refine hl.of_notMem ?_
  simp only [hostPort, List.mem_append, not_or]
  refine ⟨⟨fun hc => hfield 13 ?_ rfl, by decide⟩, fun hc => (isFieldChar_ne (hport 13 hc)).1 rfl⟩
  unfold hostField
  split_ifs <;> simp [hc]

theorem sendable_of_decodeRequest {query consumed body : Bytes} {m : RequestMessage}
    {order : List EHttpHeaderKey} {requestId : ℕ} (hpath : URI.space ∉ req.uri.path)
    (hspace : URI.space ∉ req.uri.host)
    (h : decodeRequest (requestText order req body.length requestId ++ (consumed ++ body)) = some m)
    (hmethod : m.method = getMethod req.method)
    (htarget : m.target = requestTarget req.uri.path query)
    (hhost : fieldValues m.fields hostName = [hostField req.uri])
    (hlength : req.method ≠ .httpMethodGet →
      fieldValues m.fields contentLengthName = [decimal body.length])
    (hbody : m.body = body) : Sendable req query (consumed ++ body) body := by
  obtain ⟨fields, htext, hfields, hvalid, hf, -, hcoding, hbodyLength⟩ :=
    decodeRequest_eq_some_iff.mp h
  have htargetSpace : (32 : UInt8) ∉ m.target := fun hmem =>
    (isTargetChar_ne (List.all_eq_true.mp hvalid.2.2.2 _ hmem)).2.2 rfl
  rw [requestText_append, encodeRequest, hmethod, hbody] at htext
  obtain ⟨hline, hlines⟩ := requestLine_inj hpath htargetSpace htext
  have hquery : query = [] := by
    by_contra hne
    rw [← hline, requestTarget, if_neg (by simp [hne]), if_neg hne] at htarget
    simpa [literal] using congrArg List.length htarget
  -- the fields come with nothing behind them but the body
  obtain ⟨rfl, value, more, hostValue, others, hl, hlhost, rfl⟩ := requestFields_of_text hf
    (List.append_cancel_right (by simpa only [List.append_assoc] using hlines))
  have hvalues {name : Bytes} := @fieldValues_requestFields order req body.length requestId value
    more hl (spaced hostName hostValue :: others) name
  rw [← hfields] at hvalues
  obtain ⟨hl₁, hl₂, hl₃⟩ := fieldValues_lengthFields req body.length
  -- the only host is the one that stands behind the attach type
  rw [hvalues (by decide), hl₂, spaced, fieldValues_cons_self rfl, List.nil_append,
    List.map_append, List.map_cons] at hhost
  obtain ⟨hmoreHost, htrim⟩ : fieldValues more hostName = [] ∧
      trim (32 :: hostValue) = hostField req.uri := by
    cases hm : fieldValues more hostName with
    | nil =>
      rw [hm] at hhost
      exact ⟨rfl, (List.cons.inj hhost).1⟩
    | cons v vs => simp [hm] at hhost
  obtain ⟨rfl, rfl⟩ := hlhost.of_trim_eq htrim
  obtain ⟨hport, hhead⟩ := (trim_hostPort_eq_iff hspace).mp htrim
  have hnone {name : Bytes} (hne : hostName.map toLower ≠ name.map toLower) :
      fieldValues [spaced hostName (hostPort req.uri)] name = [] := fieldValues_cons_of_ne hne []
  refine ⟨hline ▸ hvalid.2.2.1, hline ▸ hvalid.2.2.2, hquery, hport, ?_, hhead, rfl, value, more, hl,
    hmoreHost, ?_, ?_⟩
  · have hhostChars := hlhost.value
    rw [hostPort, List.all_append, List.all_append, Bool.and_eq_true, Bool.and_eq_true] at hhostChars
    exact hhostChars.1.1
  · rw [hvalues (by decide), hl₃, hnone (by decide), List.nil_append, List.append_nil] at hcoding
    exact List.map_eq_nil_iff.mp hcoding
  · split_ifs with hm
    · rw [bodyLength, hvalues (by decide), hl₁, if_neg (not_not.mpr hm), hnone (by decide),
        List.nil_append, List.append_nil, ← fieldValues_readFields, hbody] at hbodyLength
      exact hbodyLength
    · have hcl := hlength hm
      rw [hvalues (by decide), hl₁, if_pos hm, hnone (by decide), List.append_nil,
        List.singleton_append, List.map_cons] at hcl
      exact List.map_eq_nil_iff.mp (List.cons.inj hcl).2

/-- A request whose URL was accepted is assembled to one HTTP/1.1 request with the target, the
host, the content length and the body that are meant exactly if it can be sent. -/
theorem assembleHttpRequest_decodable_iff (hw : h.WF) (hb : buffer.WF h) (t : ThreadId)
    (order : List EHttpHeaderKey) (old : URI) (url : Bytes) (req : HttpRequest)
    (attached : AttachId → IOBuffer) (requestId : ℕ)
    (hdata : ∀ a ∈ req.data, (attached a).WF h)
    (hparse : old.parseFromString url = some req.uri) (hok : req.uri.parseOk = true) :
    (∃ h' attached' buffer' frame m,
      assembleHttpRequest h t order attached req requestId buffer =
        some (h', attached', buffer', true) ∧
      buffer'.toString h' = buffer.toString h ++ frame ∧ decodeRequest frame = some m ∧
      m.method = getMethod req.method ∧
      m.target = requestTarget req.uri.path (queryOf url) ∧
      fieldValues m.fields hostName = [hostField req.uri] ∧
      (req.method ≠ .httpMethodGet →
        fieldValues m.fields contentLengthName = [decimal (req.body h attached).length]) ∧
      m.body = req.body h attached) ↔
    Sendable req (queryOf url) (req.slices h attached) (req.body h attached) := by
  obtain ⟨hhost, hpath, -⟩ := URI.parseFromString_spec hparse hok
  obtain ⟨h', buffer', he, -, -, -, htext⟩ :=
    assembleHttpRequest_spec hw hb t order hok hdata requestId
  rw [HttpRequest.attachSize_eq h] at htext
  constructor
  · rintro ⟨h'', attached'', buffer'', frame, m, he', hframe, hm, hmethod, htarget, hfield, hlength,
      hbody⟩
    obtain ⟨rfl, -, rfl⟩ : h' = h'' ∧ _ = attached'' ∧ buffer' = buffer'' := by
      simpa using he.symm.trans he'
    obtain ⟨consumed, hslices⟩ := slices_eq_append h attached req
    rw [List.append_cancel_left (hframe.symm.trans htext), hslices] at hm
    rw [hslices]
    exact sendable_of_decodeRequest hpath hhost hm hmethod htarget hfield hlength hbody
  · intro hs
    rw [hs.slices] at htext
    have hs := hs.slices ▸ hs
    obtain ⟨m, hm, hmethod, htarget, hfield, hlength, hbody⟩ :=
      hs.decodeRequest hhost order requestId
    refine ⟨h', _, buffer', _, m, he, htext, hm, hmethod, ?_, hfield, hlength, hbody⟩
    rw [htarget, requestTarget, if_neg (by simp [hs.path_ne]), if_pos hs.query, List.append_nil]

theorem assembleHttpRequest_decodable_iff_post :
    ∃ h attached, (samplePost none).attach (Heap.init fun _ => ⟨none, 0, 0, fun _ => 0⟩) 0
        (fun _ => .empty) 0 (literal "x") = some (h, attached, samplePost (some 0)) ∧
      ∃ h' attached' buffer' frame m,
        assembleHttpRequest h 0 [.connection, .contentTypeJson, .logId] attached
          (samplePost (some 0)) 7 .empty = some (h', attached', buffer', true) ∧
        buffer'.toString h' = IOBuffer.empty.toString h ++ frame ∧ decodeRequest frame = some m ∧
        m.method = literal "POST" ∧ m.target = literal "/p" ∧
        fieldValues m.fields hostName = [literal "h:80"] ∧
        fieldValues m.fields contentLengthName = [literal "1"] ∧ m.body = literal "x" := by
  obtain ⟨h, buf, hattach, hw, hbuf, hfresh, hbody⟩ :=
    HttpRequest.attach_spec (Heap.wf_init fun _ => ⟨none, 0, 0, fun _ => 0⟩) 0 (fun _ => .empty)
      (samplePost none) 0 (literal "x")
  have hupdate : Function.update (fun _ => IOBuffer.empty) 0 buf 0 = buf := Function.update_self ..
  have hbody' : (samplePost (some 0)).body h (Function.update (fun _ => .empty) 0 buf) =
      literal "x" := hbody
  have hslices : (samplePost (some 0)).slices h (Function.update (fun _ => .empty) 0 buf) =
      literal "x" := by
    rw [← hbody']
    simp [HttpRequest.slices, HttpRequest.body, samplePost, IOBuffer.toString, live, hfresh]
  obtain ⟨h', attached', buffer', frame, m, he, htext, hm, hmethod, htarget, hhost, hlength, hb⟩ :=
    (assembleHttpRequest_decodable_iff hw (wf_empty h) 0 [.connection, .contentTypeJson, .logId]
      (.new 0) (literal "http://h:80/p") (samplePost (some 0))
      (Function.update (fun _ => .empty) 0 buf) 7
      (by rintro a ⟨⟩; exact hupdate ▸ hbuf) (by decide +kernel) rfl).mpr
      ⟨by decide, by decide, by decide +kernel, by decide, by decide, by decide,
        by rw [hslices, hbody'], [], [], ⟨rfl, rfl, by simp⟩, rfl, rfl, rfl⟩
  rw [hbody'] at hlength hb
  refine ⟨h, _, hattach, h', attached', buffer', frame, m, he, htext, hm, hmethod, ?_, ?_,
    hlength (by decide), hb⟩
  · exact htarget.trans (by decide +kernel)
  · exact hhost.trans (by decide +kernel)

def requestTo (method : EHttpMethod) (url : String) : HttpRequest where
  uri := ((URI.new 0).parseFromString (literal url)).getD (.new 0)
  method := method
  attchType := []
  data := none

def sent (req : HttpRequest) (body : Bytes) (consumed : ℕ) : Option Bytes := do
  let (h, attached, req) ← req.attach (Heap.init fun _ => ⟨none, 0, 0, fun _ => 0⟩) 0
    (fun _ => .empty) 0 body
  let attached := Function.update attached 0 ((attached 0).popFront consumed).1
  let (h, _, buffer, _) ← assembleHttpRequest h 0 [.connection, .contentTypeJson, .logId]
    attached req 7 .empty
  some (buffer.toString h)

/-- A query is left out; without a path there is no request at all; without a port the host is
followed by `:-1`; a body may be sent without a length; and a path may end its line. -/
theorem assembleHttpRequest_misread :
    ((sent (requestTo .httpMethodGet "http://h:80/p?q=1") [] 0).bind decodeRequest).map
        RequestMessage.target = some (literal "/p") ∧
      requestTarget (literal "/p") (queryOf (literal "http://h:80/p?q=1")) = literal "/p?q=1" ∧
      (requestTo .httpMethodGet "http://h:80").uri.parseOk = true ∧
      (sent (requestTo .httpMethodGet "http://h:80") [] 0).map decodeRequest = some none ∧
      ((sent (requestTo .httpMethodGet "http://h/p") [] 0).bind decodeRequest).map
        (fun m => fieldValues m.fields hostName) = some [literal "h:-1"] ∧
      hostField (requestTo .httpMethodGet "http://h/p").uri = literal "h" ∧
      (sent (requestTo .httpMethodGet "http://h:80/p") (literal "x") 0).map decodeRequest =
        some none ∧
      (sent (requestTo .httpMethodPost "http://h:80/p") (literal "x") 1).map decodeRequest =
        some none ∧
      (requestTo .httpMethodPost "http://h:80/p\r\nX:y").uri.parseOk = true ∧
      (sent (requestTo .httpMethodPost "http://h:80/p\r\nX:y") [] 0).map decodeRequest =
        some none := by
  decide +kernel

end SofaBolt.Http
