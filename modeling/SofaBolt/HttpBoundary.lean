import SofaBolt.HttpCut

namespace SofaBolt.Http

open IOBuffer HttpMessageInfo
open Bolt (EResParseResult)

variable {σ : Type} {lib : HttpParserLib σ} {p : HttpParser σ} {h : Heap}

def stream (rs : List HttpMessage) : Bytes := rs.flatMap HttpMessage.bytes

/-- On a keep-alive connection the parser goes on with the next message in the
same data, from whichever response it starts. -/
def HttpParserLib.KeepsAlive (lib : HttpParserLib σ) (rs : List HttpMessage) : Prop :=
  ∀ rs', rs' <:+ rs → ∀ ds, [] ∉ ds → ds.flatten <+: stream rs' → lib.Clean lib.init ds

/-- Calls of `checkHeader` as long as they return `PARSE_OK`, with what each has taken off the
buffer and what its parser object holds. The pointer `*p` is null again for every call. -/
def checkAll (lib : HttpParserLib σ) (stage : ℕ → HttpParserStage) (h : Heap) :
    ℕ → IOBuffer → List (Bytes × HttpResponse)
  | 0, _ => []
  | fuel + 1, buffer =>
    match checkHeader lib (stage fuel) h buffer none with
    | (.parseOk, buffer', p) =>
      ((buffer.toString h).take (buffer.length - buffer'.length),
        (HttpResponse.new.deserialize p).2) :: checkAll lib stage h fuel buffer'
    | _ => []

theorem toString_eq_flatten (h : Heap) (buffer : IOBuffer) :
    buffer.toString h = (nonempty (slices h buffer)).flatten := by
  rw [nonempty_flatten, slices, ← List.flatMap_def]
  rfl

theorem take_eq_flatten {buffer buffer' : IOBuffer} {ds : List Bytes}
    (hb : nonempty (slices h buffer) = ds ++ nonempty (slices h buffer')) :
    (buffer.toString h).take (buffer.length - buffer'.length) = ds.flatten := by
  have hs : buffer.toString h = ds.flatten ++ buffer'.toString h := by
    rw [toString_eq_flatten, toString_eq_flatten, hb, List.flatten_append]
  rw [length_eq buffer h, length_eq buffer' h, hs, List.length_append, Nat.add_sub_cancel,
    List.take_left]

/-- The loop ends with `PARSE_OK` after some slice, and all slices up to there
have been parsed. -/
theorem checkLoop_parseOk {ds : List Bytes} (hds : [] ∉ ds) (hc : lib.Clean p.state ds) {nr nr' : ℕ}
    {o : Option (HttpParser σ)} (hl : checkLoop lib ds p nr = (.parseOk, o, nr')) :
    ∃ done more q, ds = done ++ more ∧ o = some q ∧ nr' = nr + done.flatten.length ∧
      p.data.callbacks (lib.events p.state done) = some q.data ∧
      q.data.stage = .onMessageComplete := by
  induction ds generalizing p nr with
  | nil => exact absurd (congrArg Prod.fst hl) (by cases ·)
  | cons d ds ih =>
    obtain ⟨hd, hds⟩ := not_or.mp (List.mem_cons.not.mp hds)
    have hpos : 0 < d.length := List.length_pos_iff.mpr (Ne.symm hd)
    cases hcb : p.data.callbacks (lib.execute p.state d).events with
    | none =>
      simp only [checkLoop, hpos, if_true, httpParserExecute, hcb] at hl
      exact absurd (congrArg Prod.fst hl) (by cases ·)
    | some info =>
      have hex := httpParserExecute_eq (show lib.Clean p.state [d] from ⟨hc.1, trivial⟩) hcb
      simp only [checkLoop, hpos, if_true, hex] at hl
      split_ifs at hl with hst
      · obtain ⟨ho, hnr⟩ := Prod.mk.inj (Prod.mk.inj hl).2
        refine ⟨[d], ds, _, rfl, ho.symm, ?_, ?_, hst⟩
        · rw [← hnr, List.flatten_singleton]
        · rw [HttpParserLib.events, HttpParserLib.events, List.append_nil]
          exact hcb
      · obtain ⟨done, more, q, rfl, ho, hnr, hdone, hq⟩ := ih hds hc.2 hl
        refine ⟨d :: done, more, q, rfl, ho, ?_, ?_, hq⟩
        · rw [hnr, List.flatten_cons, List.length_append, Nat.add_assoc]
        · rw [HttpParserLib.events, callbacks_append, hcb]
          exact hdone

theorem checkHeader_parseOk {stage : HttpParserStage} {buffer buffer' : IOBuffer}
    {o : Option (HttpParser σ)} (hoff : buffer.refOffset ≤ buffer.ref.length)
    (hc : lib.Clean lib.init (nonempty (slices h buffer)))
    (hcheck : checkHeader lib stage h buffer none = (.parseOk, buffer', o)) :
    ∃ done info, nonempty (slices h buffer) = done ++ nonempty (slices h buffer') ∧
      buffer'.refOffset ≤ buffer'.ref.length ∧
      (HttpMessageInfo.new stage).callbacks (lib.events lib.init done) = some info ∧
      (HttpResponse.new.deserialize o).2 = ⟨info.url, info.body, info.header⟩ := by
  simp only [checkHeader, Option.getD_none] at hcheck
  rw [checkLoop_nonempty] at hcheck
  generalize hl : checkLoop lib (nonempty (slices h buffer)) _ 0 = res at hcheck
  obtain ⟨ret, o', nr⟩ := res
  obtain ⟨rfl, hrest⟩ := Prod.mk.inj hcheck
  obtain ⟨rfl, rfl⟩ := Prod.mk.inj hrest
  obtain ⟨done, more, q, hds, rfl, rfl, hcb, hst⟩ :=
    checkLoop_parseOk (nil_notMem_nonempty _) hc hl
  rw [Nat.zero_add]
  obtain ⟨hmore, hoff'⟩ := popFront_nonempty h hoff hds
  refine ⟨done, q.data, hds.trans (by rw [hmore]), hoff', hcb, ?_⟩
  simp [HttpResponse.deserialize, hst]

/-- The slices are those of the responses one after the other, with no header
value cut. -/
def Aligned (lib : HttpParserLib σ) (ds : List Bytes) (rs : List HttpMessage) : Prop :=
  ∃ groups : List (List Bytes), groups.flatten = ds ∧
    List.Forall₂ (fun g r => g.flatten = r.bytes ∧
      valueEvents (lib.events lib.init g) = valueEvents r.events) groups rs

theorem aligned_cons {ds : List Bytes} {r : HttpMessage} {rs : List HttpMessage} :
    Aligned lib ds (r :: rs) ↔ ∃ g more, ds = g ++ more ∧ g.flatten = r.bytes ∧
      valueEvents (lib.events lib.init g) = valueEvents r.events ∧ Aligned lib more rs := by
  constructor
  · rintro ⟨groups, rfl, hall⟩
    cases hall with
    | cons hg hall => exact ⟨_, _, List.flatten_cons, hg.1, hg.2, _, rfl, hall⟩
  · rintro ⟨g, more, rfl, hb, hv, groups, rfl, hall⟩
    exact ⟨g :: groups, List.flatten_cons, .cons ⟨hb, hv⟩ hall⟩

/-- The calls deliver the responses one by one exactly if every response ends
where a slice ends and no header value is cut. -/
theorem http_responses_one_by_one (lib : HttpParserLib σ) (rs : List HttpMessage)
    (hr : ∀ r ∈ rs, lib.Reports r) (hk : lib.KeepsAlive rs) (stage : ℕ → HttpParserStage)
    (h : Heap) (buffer : IOBuffer) (hoff : buffer.refOffset ≤ buffer.ref.length)
    (hb : buffer.toString h = stream rs) (fuel : ℕ) (hfuel : rs.length < fuel) :
    checkAll lib stage h fuel buffer = rs.map (fun r => (r.bytes, r.response)) ↔
      Aligned lib (nonempty (slices h buffer)) rs := by
  induction rs generalizing buffer fuel with
  | nil =>
    obtain ⟨fuel, rfl⟩ := Nat.exists_eq_succ_of_ne_zero (Nat.ne_zero_of_lt hfuel)
    have hnil := nonempty_eq_nil ((toString_eq_flatten h buffer).symm.trans hb)
    obtain ⟨buffer', hcheck, -⟩ := checkHeader_pending
      (show (none : Option (HttpParser σ)).getD ⟨lib.init, .new (stage fuel)⟩ = _ from rfl)
      hoff hnil (.nil _)
    rw [checkAll, hcheck, hnil]
    exact iff_of_true rfl ⟨[], rfl, .nil⟩
  | cons r rs ih =>
    obtain ⟨fuel, rfl⟩ := Nat.exists_eq_succ_of_ne_zero (Nat.ne_zero_of_lt hfuel)
    have hflat := (toString_eq_flatten h buffer).symm.trans hb
    have hr' := hr r List.mem_cons_self
    have hne {g more : List Bytes} (hds : nonempty (slices h buffer) = g ++ more) : [] ∉ g :=
      fun hmem => nil_notMem_nonempty (slices h buffer) (by simp [hds, hmem])
    -- once the first response is off the buffer, the others are there
    have hnext {g : List Bytes} {buffer' : IOBuffer} (hg : g.flatten = r.bytes)
        (hds : nonempty (slices h buffer) = g ++ nonempty (slices h buffer'))
        (hoff' : buffer'.refOffset ≤ buffer'.ref.length) :=
      ih (fun r' hmem => hr r' (List.mem_cons_of_mem _ hmem))
        (fun rs' hsuf => hk rs' (hsuf.trans (List.suffix_cons r rs))) buffer' hoff'
        (by
          rw [hds, List.flatten_append, hg, ← toString_eq_flatten] at hflat
          exact List.append_cancel_left hflat)
        fuel (Nat.lt_of_succ_lt_succ hfuel)
    rw [aligned_cons, checkAll]
    constructor
    · intro hall
      generalize hcheck : checkHeader lib (stage fuel) h buffer none = res at hall
      obtain ⟨ret, buffer', o⟩ := res
      cases ret with
      | parseOk =>
        obtain ⟨hhead, htail⟩ := List.cons.inj hall
        obtain ⟨hbytes, hrsp⟩ := Prod.mk.inj hhead
        obtain ⟨g, info, hds, hoff', hcb, hinfo⟩ := checkHeader_parseOk hoff
          (hk _ List.suffix_rfl _ (nil_notMem_nonempty _) (by rw [hflat])) hcheck
        have hg : g.flatten = r.bytes := (take_eq_flatten hds).symm.trans hbytes
        refine ⟨g, _, hds, hg, ?_, (hnext hg hds hoff').mp htail⟩
        exact (hr'.response_iff (stage fuel) (hne hds) hg hcb).mp (hinfo.symm.trans hrsp)
      | _ => cases hall
    · rintro ⟨g, more, hds, hg, hv, hmore⟩
      obtain ⟨done, last, p, q, rfl, hlast, hf, hex, hst, -, hcb⟩ :=
        hr'.complete (.new (stage fuel)) (hne hds) hg
      have hiff := hr'.response_iff (stage fuel) (hne hds) hg hcb
      obtain ⟨buffer', hcheck, rfl, hoff'⟩ :=
        checkHeader_complete (o := none) rfl hoff hds hf hlast hex hst
      rw [hcheck]
      simp only [List.map_cons, (hnext hg hds hoff').mpr hmore, take_eq_flatten hds, hg]
      simp [HttpResponse.deserialize, hst, hiff.mpr hv]

theorem http_responses_one_by_one_two :
    checkAll noContentParser (fun _ => .onMessageComplete) (heapOf noContent.bytes) 3
        ⟨[⟨0, 0, 25⟩, ⟨0, 0, 7⟩, ⟨0, 7, 18⟩], 0⟩ =
      [(noContent.bytes, noContent.response), (noContent.bytes, noContent.response)] :=
  (http_responses_one_by_one noContentParser [noContent, noContent]
    (by simpa using noContentParser_reports) (fun _ _ ds _ _ => taggedParser_clean _ 0 0 ds)
    (fun _ => .onMessageComplete) (heapOf noContent.bytes) ⟨[⟨0, 0, 25⟩, ⟨0, 0, 7⟩, ⟨0, 7, 18⟩], 0⟩
    (by decide) (by decide +kernel) 3 (by decide)).mpr
    ⟨[[noContent.bytes], [noContent.bytes.take 7, noContent.bytes.drop 7]], by decide +kernel,
      .cons (by decide +kernel) (.cons (by decide +kernel) .nil)⟩

/-- Two responses in one slice are delivered as one. -/
theorem http_responses_merged :
    (∀ r ∈ [noContent, noContent], noContentParser.Reports r) ∧
      noContentParser.KeepsAlive [noContent, noContent] ∧
      (⟨[⟨0, 0, 50⟩], 0⟩ : IOBuffer).toString (heapOf (stream [noContent, noContent])) =
        stream [noContent, noContent] ∧
      (checkAll noContentParser (fun _ => .onMessageBegin) (heapOf (stream [noContent, noContent]))
          3 ⟨[⟨0, 0, 50⟩], 0⟩).map (fun x => (x.1, x.2.header [65])) =
        [(stream [noContent, noContent], some [120, 121, 44, 120, 121])] :=
  ⟨by simpa using noContentParser_reports, fun _ _ ds _ _ => taggedParser_clean _ 0 0 ds,
    by decide +kernel, by decide +kernel⟩

end SofaBolt.Http
