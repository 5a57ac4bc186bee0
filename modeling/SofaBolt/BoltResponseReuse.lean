import SofaBolt.BoltResponse

namespace SofaBolt.Bolt

open IOBuffer Wire

variable {M : Type} {h h₁ h₂ : Heap} {buffer buffer' buffer₁ buffer₁' buffer₂ : IOBuffer}
  {r r' r₁ r₁' r₂ : BoltResponse M} {target target₁ target₂ : Bytes}

/-- What a frame does not overwrite agrees in the two objects: for each key the value that is there,
or else that of the frame, and if there is no content, the empty text.  A heartbeat overwrites
nothing. -/
def AgreeOutside (bs : Bytes) (r₁ r₂ : BoltResponse M) : Prop :=
  if (BoltHeader.ofBytes bs).cmdcode = boltProtocolCmdHeartbeat then
    r₂.className = r₁.className ∧ (∀ k, r₂.headerMap k = r₁.headerMap k) ∧
      r₁.data = .string (contentSection bs) ∧ r₂.data = .string (contentSection bs)
  else
    (∃ es : List Entry, headerSection bs = es.flatMap (encodeEntry 4) ∧
      ∀ k, (r₂.headerMap k).or (es.lookup k) = (r₁.headerMap k).or (es.lookup k)) ∧
    (contentSection bs = [] → r₁.data = .string [] ∧ r₂.data = .string [])

theorem written_eq_iff {target content : Bytes} :
    written target content = content ↔ (content = [] → target = []) := by
  unfold written
  split_ifs with h
  · simp [h]
  · simp [h]

/-- What the header of an accepted frame is: that of a heartbeat, or that of a response whose
entries tile the header section. -/
def Accepted (bs : Bytes) : Prop :=
  (BoltHeader.ofBytes bs).proto = boltProtocolType ∧
  (BoltHeader.ofBytes bs).type = boltProtocolResponse ∧
  ((BoltHeader.ofBytes bs).cmdcode = boltProtocolCmdHeartbeat ∨
    (BoltHeader.ofBytes bs).cmdcode = boltProtocolCmdResponse ∧
      ∃ es : List Entry, headerSection bs = es.flatMap (encodeEntry 4))

theorem deserialize_heartbeat (parse : Bytes → Option (M × ℕ)) (hb : buffer.WF h) {bs : Bytes}
    (hbs : buffer.toString h = bs) (hf : IsFrame bs)
    (hproto : (BoltHeader.ofBytes bs).proto = boltProtocolType)
    (htype : (BoltHeader.ofBytes bs).type = boltProtocolResponse)
    (hcmd : (BoltHeader.ofBytes bs).cmdcode = boltProtocolCmdHeartbeat) :
    ∃ buffer', deserialize h parse r buffer =
      some ({ r with header := BoltHeader.ofBytes bs }, buffer', .parseOk) := by
  obtain ⟨-, -, hraw⟩ := cutVoid_spec hb boltHeaderSize
  have hlen : (bs.take boltHeaderSize).length = boltHeaderSize := List.length_take_of_le hf.1
  refine ⟨(buffer.cutVoid h boltHeaderSize).1, ?_⟩
  simp only [deserialize, hraw, hbs, hlen, lt_irrefl, if_false, BoltHeader.ofBytes_take le_rfl,
    hproto, htype, hcmd, ne_eq, not_true_eq_false, if_true]

/-- A response frame whose section is tiled: everything is decoded from the frame. -/
theorem deserialize_tiled (parse : Bytes → Option (M × ℕ)) (hb : buffer.WF h) {bs : Bytes}
    (hbs : buffer.toString h = bs) (hf : IsFrame bs) (hacc : Accepted bs)
    (hcmd : (BoltHeader.ofBytes bs).cmdcode = boltProtocolCmdResponse)
    (hstatus : (BoltHeader.ofBytes bs).status = boltResponseSuccess) {es : List Entry}
    (hes : headerSection bs = es.flatMap (encodeEntry 4)) (hdata : r.data = .string target) :
    ∃ buffer', deserialize h parse r buffer =
      some (⟨BoltHeader.ofBytes bs, classSection bs,
        es.foldl (fun m e => emplace m e.1 e.2) r.headerMap,
        .string (written target (contentSection bs))⟩, buffer', .parseOk) := by
  subst hbs
  obtain ⟨buffer₁, hb₁, ht₁, he⟩ :=
    deserialize_eq_body (r := r) parse hb hf hacc.1 hacc.2.1 hcmd hstatus
  obtain ⟨-, hcls, hkvs, hcon⟩ := hf.sections
  have hlt := (BoltHeader.ofBytes (buffer.toString h)).headerLen.toNat_lt
  have ht := ht₁.trans hf.drop_header
  rw [hes] at ht hkvs
  obtain ⟨buffer₂, e₂, -⟩ := deserializeBody_tiled parse hb₁ es (fits_of_flatMap_lt (by omega)) ht
    (r := { r with header := BoltHeader.ofBytes (buffer.toString h) }) hcls hkvs hcon hdata
  exact ⟨buffer₂, he.trans e₂⟩

/-- A frame that is decoded with status SUCCESS is an accepted one. -/
theorem accepted_of_parseOk (parse : Bytes → Option (M × ℕ)) (hb : buffer.WF h) {bs : Bytes}
    (hbs : buffer.toString h = bs) (hf : IsFrame bs)
    (hstatus : (BoltHeader.ofBytes bs).status = boltResponseSuccess)
    (hdata : r.data = .string target)
    (hok : deserialize h parse r buffer = some (r', buffer', .parseOk)) : Accepted bs := by
  subst hbs
  obtain ⟨-, -, hraw⟩ := cutVoid_spec hb boltHeaderSize
  have hlen : ((buffer.toString h).take boltHeaderSize).length = boltHeaderSize :=
    List.length_take_of_le hf.1
  have hchecks := hok
  simp only [deserialize, hraw, hlen, lt_irrefl, if_false, BoltHeader.ofBytes_take le_rfl]
    at hchecks
  split_ifs at hchecks with hproto htype hbeat hcmd hst
  · simp at hchecks
  · simp at hchecks
  · exact ⟨not_not.mp hproto, not_not.mp htype, .inl hbeat⟩
  · simp at hchecks
  · exact absurd hstatus hst
  · -- the body has been decoded, so its entries tile the section
    refine ⟨not_not.mp hproto, not_not.mp htype, .inr ⟨not_not.mp hcmd, ?_⟩⟩
    obtain ⟨buffer₁, hb₁, ht₁, he⟩ := deserialize_eq_body (r := r) parse hb hf
      (not_not.mp hproto) (not_not.mp htype) (not_not.mp hcmd) hstatus
    obtain ⟨-, hcls, hkvs, hcon⟩ := hf.sections
    obtain ⟨r₂, buffer₂, res, e₂, hsound⟩ := deserializeBody_sound parse hb₁
      (ht₁.trans hf.drop_header)
      (r := { r with header := BoltHeader.ofBytes (buffer.toString h) }) hcls hkvs hcon hdata
    have hres := Option.some.inj (hok.symm.trans (he.trans e₂))
    exact hsound (congrArg (fun x => x.2.2) hres).symm

theorem heartbeat_ne_response : boltProtocolCmdResponse ≠ boltProtocolCmdHeartbeat := by decide

/-- A frame that is decoded into one object with status SUCCESS is decoded into any other, and the
two get the same result exactly if they agree in what it does not overwrite. -/
theorem deserialize_forgets (parse : Bytes → Option (M × ℕ)) (hb₁ : buffer₁.WF h₁)
    (hb₂ : buffer₂.WF h₂) {bs : Bytes} (hbs₁ : buffer₁.toString h₁ = bs)
    (hbs₂ : buffer₂.toString h₂ = bs) (hf : IsFrame bs) (hdata₁ : r₁.data = .string target₁)
    (hdata₂ : r₂.data = .string target₂)
    (hok : deserialize h₁ parse r₁ buffer₁ = some (r₁', buffer₁', .parseOk))
    (hstatus : (BoltHeader.ofBytes bs).status = boltResponseSuccess) :
    ∃ r₂' buffer₂', deserialize h₂ parse r₂ buffer₂ = some (r₂', buffer₂', .parseOk) ∧
      ((r₂'.className = r₁'.className ∧ r₂'.headerMap = r₁'.headerMap ∧
        r₁'.data = .string (contentSection bs) ∧ r₂'.data = .string (contentSection bs)) ↔
      AgreeOutside bs r₁ r₂) := by
  have hacc := accepted_of_parseOk parse hb₁ hbs₁ hf hstatus hdata₁ hok
  rcases hacc.2.2 with hbeat | ⟨hcmd, es, hes⟩
  · obtain ⟨b₁, e₁⟩ := deserialize_heartbeat (r := r₁) parse hb₁ hbs₁ hf hacc.1 hacc.2.1 hbeat
    obtain ⟨b₂, e₂⟩ := deserialize_heartbeat (r := r₂) parse hb₂ hbs₂ hf hacc.1 hacc.2.1 hbeat
    obtain rfl := (Prod.mk.inj (Option.some.inj (hok.symm.trans e₁))).1
    refine ⟨_, b₂, e₂, ?_⟩
    rw [AgreeOutside, if_pos hbeat, ← funext_iff]
  · have hbeat : (BoltHeader.ofBytes bs).cmdcode ≠ boltProtocolCmdHeartbeat := by
      rw [hcmd]
      exact heartbeat_ne_response
    obtain ⟨b₁, e₁⟩ := deserialize_tiled parse hb₁ hbs₁ hf hacc hcmd hstatus hes hdata₁
    obtain ⟨b₂, e₂⟩ := deserialize_tiled parse hb₂ hbs₂ hf hacc hcmd hstatus hes hdata₂
    obtain rfl := (Prod.mk.inj (Option.some.inj (hok.symm.trans e₁))).1
    refine ⟨_, b₂, e₂, ?_⟩
    simp only [AgreeOutside, if_neg hbeat, hdata₁, hdata₂, true_and, ResponseData.string.injEq,
      written_eq_iff, ← imp_and]
    refine and_congr_left' ⟨fun hmap => ⟨es, hes, fun k => ?_⟩, ?_⟩
    · simpa only [foldl_emplace_apply] using congrFun hmap k
    · rintro ⟨es', hes', hagree⟩
      -- the outcome is the same for any entries that tile the section
      obtain ⟨_, e₁'⟩ := deserialize_tiled parse hb₁ hbs₁ hf hacc hcmd hstatus hes' hdata₁
      obtain ⟨_, e₂'⟩ := deserialize_tiled parse hb₂ hbs₂ hf hacc hcmd hstatus hes' hdata₂
      have hmap₁ := congrArg BoltResponse.headerMap
        (Prod.mk.inj (Option.some.inj (e₁.symm.trans e₁'))).1
      have hmap₂ := congrArg BoltResponse.headerMap
        (Prod.mk.inj (Option.some.inj (e₂.symm.trans e₂'))).1
      refine hmap₂.trans (Eq.trans ?_ hmap₁.symm)
      funext k
      simpa only [foldl_emplace_apply] using hagree k

def fullFrame : Bytes :=
  [1, 0, 0, 2, 1, 0, 0, 0, 7, 11, 0, 0, 0, 1, 0, 10, 0, 0, 0, 2, 99,
    0, 0, 0, 1, 107, 0, 0, 0, 1, 118, 104, 105]

def bareFrame : Bytes := [1, 0, 0, 2, 1, 0, 0, 0, 7, 11, 0, 0, 0, 0, 0, 0, 0, 0, 0, 0]

/-- The object `new BoltResponse(message)`, over an empty string and over another text. -/
def freshResponse (message : Bytes) : BoltResponse Unit :=
  BoltResponse.ofString (BoltHeader.ofBytes []) message

theorem deserialize_forgets_target :
    ∃ r₁' b₁' r₂' b₂',
      deserialize (heapOf fullFrame) (fun _ => none) (freshResponse []) (bufferOf fullFrame) =
        some (r₁', b₁', .parseOk) ∧
      deserialize (heapOf fullFrame) (fun _ => none) (freshResponse [1, 2, 3]) (bufferOf fullFrame) =
        some (r₂', b₂', .parseOk) ∧
      r₂'.className = r₁'.className ∧ r₂'.headerMap = r₁'.headerMap ∧
      r₁'.data = .string [104, 105] ∧ r₂'.data = .string [104, 105] := by
  have hwf : (bufferOf fullFrame).WF (heapOf fullFrame) := ⟨by decide, by unfold Slice.InBlock; decide⟩
  have hget : (deserialize (heapOf fullFrame) (fun _ => none) (freshResponse [])
      (bufferOf fullFrame)).any (fun x => decide (x.2.2 = .parseOk)) = true := by decide
  obtain ⟨⟨r₁', b₁', res⟩, hok, hres⟩ := (Option.any_eq_true _ _).mp hget
  obtain rfl : res = .parseOk := of_decide_eq_true hres
  have hbs : (bufferOf fullFrame).toString (heapOf fullFrame) = fullFrame := by decide
  have hdata : (freshResponse [1, 2, 3]).data = .string [1, 2, 3] := rfl
  obtain ⟨r₂', b₂', hok₂, hiff⟩ := deserialize_forgets (fun _ => none) hwf hwf hbs hbs
    (by decide) rfl hdata hok (by decide)
  obtain ⟨hcls, hmap, hd₁, hd₂⟩ := hiff.mpr (by
    rw [AgreeOutside, if_neg (by decide)]
    exact ⟨⟨[([107], [118])], by decide, fun _ => rfl⟩, by decide⟩)
  exact ⟨r₁', b₁', r₂', b₂', hok, hok₂, hcls, hmap, hd₁, hd₂⟩

/-- An object that has decoded the first response keeps its entry and its text when it decodes
the second one. -/
theorem deserialize_remembers :
    ∃ r₁ b₁ r₂ b₂ r₃ b₃,
      deserialize (heapOf fullFrame) (fun _ => none) (freshResponse []) (bufferOf fullFrame) =
        some (r₁, b₁, .parseOk) ∧
      deserialize (heapOf bareFrame) (fun _ => none) r₁ (bufferOf bareFrame) =
        some (r₂, b₂, .parseOk) ∧
      deserialize (heapOf bareFrame) (fun _ => none) (freshResponse []) (bufferOf bareFrame) =
        some (r₃, b₃, .parseOk) ∧
      r₂.headerMap [107] = some [118] ∧ r₃.headerMap [107] = none ∧
      r₂.data = .string [104, 105] ∧ r₃.data = .string [] :=
  ⟨_, _, _, _, _, _, rfl, rfl, rfl, rfl, rfl, rfl, rfl⟩

end SofaBolt.Bolt
