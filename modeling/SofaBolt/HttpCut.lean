import SofaBolt.HttpReports

namespace SofaBolt.Http

open IOBuffer HttpMessageInfo
open Bolt (EResParseResult)

variable {σ : Type} {lib : HttpParserLib σ} {p p' q : HttpParser σ}

theorem httpParserExecute_eq {d : Bytes} {info : HttpMessageInfo}
    (hc : lib.Clean p.state [d])
    (hcb : p.data.callbacks (lib.execute p.state d).events = some info) :
    httpParserExecute lib p d = (some ⟨(lib.execute p.state d).state, info⟩, d.length) := by
  unfold httpParserExecute
  simp [hcb, hc.1.1, hc.1.2]

inductive Feeds (lib : HttpParserLib σ) : HttpParser σ → List Bytes → HttpParser σ → Prop
  | nil (p : HttpParser σ) : Feeds lib p [] p
  | cons {p p' q : HttpParser σ} {d : Bytes} {ds : List Bytes} (hd : d ≠ [])
      (hex : httpParserExecute lib p d = (some p', d.length))
      (hst : p'.data.stage ≠ .onMessageComplete) (h : Feeds lib p' ds q) : Feeds lib p (d :: ds) q

theorem Feeds.append {ds ds' : List Bytes} (h : Feeds lib p ds p') (h' : Feeds lib p' ds' q) :
    Feeds lib p (ds ++ ds') q := by
  induction h with
  | nil => exact h'
  | cons hd hex hst _ ih => exact .cons hd hex hst (ih h')

theorem Feeds.of_append {ds ds' : List Bytes} (h : Feeds lib p (ds ++ ds') q) :
    ∃ p', Feeds lib p ds p' ∧ Feeds lib p' ds' q := by
  induction ds generalizing p with
  | nil => exact ⟨p, .nil p, h⟩
  | cons d ds ih =>
    cases h with
    | cons hd hex hst h =>
      obtain ⟨p', h₁, h₂⟩ := ih h
      exact ⟨p', .cons hd hex hst h₁, h₂⟩

theorem Feeds.unique {q' : HttpParser σ} {ds : List Bytes} (hq : Feeds lib p ds q)
    (hq' : Feeds lib p ds q') : q = q' := by
  induction hq with
  | nil =>
    cases hq'
    rfl
  | cons _ hex _ _ ih =>
    cases hq' with
    | cons _ hex' _ hq' =>
      obtain rfl := Option.some.inj (Prod.mk.inj (hex.symm.trans hex')).1
      exact ih hq'

theorem Feeds.nil_notMem {ds : List Bytes} (hq : Feeds lib p ds q) : [] ∉ ds := by
  induction hq with
  | nil => exact List.not_mem_nil
  | cons hd _ _ _ ih => exact fun hmem => (List.mem_cons.mp hmem).elim (fun h => hd h.symm) ih

theorem Feeds.state {ds : List Bytes} (hq : Feeds lib p ds q) :
    q.state = lib.exec p.state ds := by
  induction hq with
  | nil => rfl
  | @cons p p' q d ds _ hex _ _ ih =>
    rw [ih, HttpParserLib.exec]
    unfold httpParserExecute at hex
    cases hcb : p.data.callbacks (lib.execute p.state d).events with
    | none => simp [hcb] at hex
    | some info =>
      simp only [hcb, Prod.mk.injEq] at hex
      split_ifs at hex with hfail
      · cases hex.1
      · rw [← Option.some.inj hex.1]

def nonempty (ds : List Bytes) : List Bytes := ds.filter fun d => 0 < d.length

theorem nil_notMem_nonempty (ds : List Bytes) : [] ∉ nonempty ds := by
  simp [nonempty]

theorem nonempty_append (ds ds' : List Bytes) :
    nonempty (ds ++ ds') = nonempty ds ++ nonempty ds' := List.filter_append ..

theorem nonempty_flatten (ds : List Bytes) : (nonempty ds).flatten = ds.flatten := by
  induction ds with
  | nil => rfl
  | cons d ds ih =>
    cases d with
    | nil => simpa [nonempty] using ih
    | cons b d => simpa [nonempty] using ih

theorem nonempty_eq_nil {ds : List Bytes} (h : (nonempty ds).flatten = []) : nonempty ds = [] := by
  rw [List.eq_nil_iff_forall_not_mem]
  intro d hd
  rw [List.flatten_eq_nil_iff.mp h d hd] at hd
  exact nil_notMem_nonempty ds hd

theorem checkLoop_nonempty (ds : List Bytes) (p : HttpParser σ) (nr : ℕ) :
    checkLoop lib ds p nr = checkLoop lib (nonempty ds) p nr := by
  induction ds generalizing p nr with
  | nil => rfl
  | cons d ds ih =>
    by_cases hd : 0 < d.length
    · have hcons : nonempty (d :: ds) = d :: nonempty ds :=
        List.filter_cons_of_pos (by simpa using hd)
      simp only [hcons, checkLoop, hd, if_true, ih]
    · have hcons : nonempty (d :: ds) = nonempty ds :=
        List.filter_cons_of_neg (by simpa using hd)
      rw [hcons, checkLoop, if_neg hd, ih]

theorem checkLoop_of_feeds {ds : List Bytes} (h : Feeds lib p ds q) (more : List Bytes) (nr : ℕ) :
    checkLoop lib (ds ++ more) p nr = checkLoop lib more q (nr + ds.flatten.length) := by
  induction h generalizing nr with
  | nil => rfl
  | @cons p p' q d ds hd hex hst _ ih =>
    have hpos : 0 < d.length := List.length_pos_iff.mpr hd
    simp only [List.cons_append, checkLoop, hpos, if_true, hex, hst, if_false, ih]
    rw [List.flatten_cons, List.length_append, Nat.add_assoc]

theorem checkLoop_complete {d : Bytes} (hd : d ≠ [])
    (hex : httpParserExecute lib p d = (some q, d.length))
    (hst : q.data.stage = .onMessageComplete) (more : List Bytes) (nr : ℕ) :
    checkLoop lib (d :: more) p nr = (.parseOk, some q, nr + d.length) := by
  have hpos : 0 < d.length := List.length_pos_iff.mpr hd
  simp only [checkLoop, hpos, if_true, hex, hst]

/-- Walking over the first slices leaves the others; empty ones may go or stay. -/
theorem walk_rest_nonempty (h : Heap) {l : List Slice} {ds more : List Bytes} {n cur : ℕ}
    (hl : nonempty (l.map (Slice.bytes h)) = ds ++ more) (hn : n = cur + ds.flatten.length) :
    nonempty ((walk n cur l).rest.map (Slice.bytes h)) = more := by
  induction l generalizing ds cur with
  | nil =>
    have hnil : [] = ds ++ more := hl
    obtain ⟨-, rfl⟩ := List.append_eq_nil_iff.mp hnil.symm
    rfl
  | cons s l ih =>
    rw [walk]
    by_cases hs : 0 < s.length
    · rw [List.map_cons, nonempty, List.filter_cons_of_pos (by simpa using hs)] at hl
      cases ds with
      | nil =>
        -- everything to consume has been passed
        have hcur : ¬ cur < n := by simp [hn]
        rw [if_neg hcur, List.map_cons, nonempty, List.filter_cons_of_pos (by simpa using hs)]
        exact hl
      | cons d ds =>
        obtain ⟨hd, hl⟩ := List.cons.inj hl
        have hlen : s.length = d.length := by rw [← hd, Slice.bytes_length]
        rw [List.flatten_cons, List.length_append, ← hlen] at hn
        rw [if_pos (by omega), if_neg (by omega)]
        exact ih hl (by omega)
    · rw [List.map_cons, nonempty, List.filter_cons_of_neg (by simpa using hs)] at hl
      by_cases hcur : cur < n
      · rw [if_pos hcur, if_neg (by omega)]
        exact ih hl (by omega)
      · -- the walk stops at once, in front of the empty slice
        rw [if_neg hcur, List.map_cons, nonempty, List.filter_cons_of_neg (by simpa using hs)]
        have h0 : ds.flatten.length = 0 := by omega
        have hds : ds = [] := by
          cases ds with
          | nil => rfl
          | cons d ds =>
            have hmem : d ∈ nonempty (l.map (Slice.bytes h)) := by
              rw [nonempty, hl]
              exact List.mem_cons_self
            have hpos : 0 < d.length := by simpa using (List.mem_filter.mp hmem).2
            rw [List.flatten_cons, List.length_append] at h0
            omega
        rw [hl, hds, List.nil_append]

theorem popFront_nonempty (h : Heap) {buffer : IOBuffer}
    (ho : buffer.refOffset ≤ buffer.ref.length) {ds more : List Bytes}
    (hb : nonempty (slices h buffer) = ds ++ more) :
    nonempty (slices h (buffer.popFront ds.flatten.length).1) = more ∧
      (buffer.popFront ds.flatten.length).1.refOffset ≤
        (buffer.popFront ds.flatten.length).1.ref.length := by
  obtain ⟨hl, ho'⟩ := advance_live ho (walk_passed_le ds.flatten.length buffer.live 0)
  refine ⟨?_, ho'⟩
  rw [slices, popFront, hl]
  exact walk_rest_nonempty h hb (Nat.zero_add _).symm

namespace HttpParserLib.Reports

variable {r : HttpMessage} (hr : lib.Reports r) (msg : HttpMessageInfo) {ds : List Bytes}

include hr

theorem callbacks_prefix (hds : [] ∉ ds) (rest : Bytes) (hb : ds.flatten ++ rest = r.bytes) :
    ∃ info, msg.callbacks (lib.events lib.init ds) = some info := by
  obtain ⟨j, hj, -⟩ := r.callbacks_adds msg
  by_cases hrest : rest = []
  · subst hrest
    rw [List.append_nil] at hb
    obtain ⟨j', hj', -⟩ := (hr.cut ds hds hb).callbacks_longer (.refl _) hj
    exact ⟨j', hj'⟩
  · -- the rest may come as one more piece
    have hsplit := hr.cut (ds ++ [rest]) (by simp [hds, Ne.symm hrest]) (by simpa using hb)
    obtain ⟨j', hj', -⟩ := hsplit.callbacks_longer (.refl _) hj
    rw [events_append, callbacks_append] at hj'
    obtain ⟨info, hinfo, -⟩ := Option.bind_eq_some_iff.mp hj'
    exact ⟨info, hinfo⟩

theorem stage_eq (hds : [] ∉ ds) (hb : ds.flatten = r.bytes) {info : HttpMessageInfo}
    (hinfo : msg.callbacks (lib.events lib.init ds) = some info) :
    info.stage = .onMessageComplete := by
  obtain ⟨j, hj, ha⟩ := r.callbacks_adds msg
  obtain ⟨j', hj', hl, -⟩ := (hr.cut ds hds hb).callbacks_longer (.refl _) hj
  obtain rfl := Option.some.inj (hj'.symm.trans hinfo)
  exact hl.stage.trans ha.stage

/-- What the callbacks of the whole response leave is the response exactly if no
header value was reported in parts. -/
theorem response_iff (stage : HttpParserStage) (hds : [] ∉ ds) (hb : ds.flatten = r.bytes)
    {info : HttpMessageInfo}
    (hinfo : (HttpMessageInfo.new stage).callbacks (lib.events lib.init ds) = some info) :
    (⟨info.url, info.body, info.header⟩ : HttpResponse) = r.response ↔
      valueEvents (lib.events lib.init ds) = valueEvents r.events := by
  obtain ⟨j, hj, -, hjr⟩ := r.callbacks_new stage
  have hsplit := hr.cut ds hds hb
  obtain ⟨j', hj', -, hg⟩ := hsplit.callbacks_longer (.refl _) hj
  obtain rfl := Option.some.inj (hj'.symm.trans hinfo)
  constructor
  · intro heq
    by_contra hne
    obtain ⟨k, hk⟩ := hg (.inl (lt_of_le_of_ne hsplit.valueEvents_le (Ne.symm hne)))
    have hheader : j'.header = j.header := congrArg HttpResponse.header (heq.trans hjr.symm)
    rw [hheader] at hk
    exact lt_irrefl _ hk
  · intro hv
    rw [hsplit.callbacks_eq hv, hj] at hj'
    rw [← Option.some.inj hj']
    exact hjr

/-- Of a first part of the response the parser takes every slice. -/
theorem feeds (hds : [] ∉ ds) (rest : Bytes) (hrest : rest ≠ [])
    (hb : ds.flatten ++ rest = r.bytes) :
    ∃ p, Feeds lib ⟨lib.init, msg⟩ ds p ∧ p.state = lib.exec lib.init ds ∧
      msg.callbacks (lib.events lib.init ds) = some p.data := by
  induction ds using List.reverseRecOn generalizing rest with
  | nil => exact ⟨_, .nil _, rfl, rfl⟩
  | append_singleton ds d ih =>
    have hds' : [] ∉ ds := fun hmem => hds (by simp [hmem])
    have hd : d ≠ [] := fun hd => hds (by simp [hd])
    obtain ⟨p, hf, hst, hcb⟩ := ih hds' (d ++ rest) (by simp [hd]) (by simpa using hb)
    obtain ⟨info, hinfo⟩ := hr.callbacks_prefix msg hds rest hb
    have hclean := clean_append.mp (hr.clean _ hds ⟨rest, hb⟩)
    have hinfo' := hinfo
    rw [events_append, callbacks_append, hcb, ← hst] at hinfo'
    rw [← hst] at hclean
    simp only [Option.bind_some, events, List.append_nil] at hinfo'
    refine ⟨⟨_, info⟩, hf.append (.cons hd (httpParserExecute_eq hclean.2 hinfo') ?_ (.nil _)), ?_,
      hinfo⟩
    · exact callbacks_stage_ne (hr.begun _ (by simp) hds ⟨rest, hb⟩)
        (hr.unfinished _ _ hds hrest hb) hinfo
    · rw [exec_append, hst]
      rfl

theorem complete (hds : [] ∉ ds) (hb : ds.flatten = r.bytes) :
    ∃ done last p q, ds = done ++ [last] ∧ last ≠ [] ∧ Feeds lib ⟨lib.init, msg⟩ done p ∧
      httpParserExecute lib p last = (some q, last.length) ∧
      q.data.stage = .onMessageComplete ∧ q.state = lib.exec lib.init ds ∧
      msg.callbacks (lib.events lib.init ds) = some q.data := by
  have hne : ds ≠ [] := by
    rintro rfl
    exact r.bytes_ne hb.symm
  obtain ⟨info, hinfo⟩ := hr.callbacks_prefix msg hds [] (by simpa using hb)
  have hcomplete := hr.stage_eq msg hds hb hinfo
  have hclean := hr.clean ds hds (by rw [hb])
  obtain ⟨done, last, rfl⟩ := (List.eq_nil_or_concat ds).resolve_left hne
  rw [List.concat_eq_append] at *
  have hlast : last ≠ [] := fun hl => hds (by simp [hl])
  have hdone : [] ∉ done := fun hmem => hds (by simp [hmem])
  obtain ⟨p, hf, hst, hcb⟩ := hr.feeds msg hdone last hlast (by simpa using hb)
  have hinfo' := hinfo
  rw [clean_append, ← hst] at hclean
  rw [events_append, callbacks_append, hcb, ← hst] at hinfo'
  simp only [Option.bind_some, events, List.append_nil] at hinfo'
  refine ⟨done, last, p, ⟨_, info⟩, rfl, hlast, hf, httpParserExecute_eq hclean.2 hinfo', hcomplete,
    ?_, hinfo⟩
  rw [exec_append, hst]
  rfl

end HttpParserLib.Reports

section Calls

variable {h : Heap} {stage : HttpParserStage} {buffer : IOBuffer} {o : Option (HttpParser σ)}
  (ho : o.getD ⟨lib.init, .new stage⟩ = p) (hoff : buffer.refOffset ≤ buffer.ref.length)
  {ds : List Bytes}

include ho hoff

/-- A call that does not see the end of the response consumes all there is. -/
theorem checkHeader_pending (hb : nonempty (slices h buffer) = ds) (hf : Feeds lib p ds q) :
    ∃ buffer', checkHeader lib stage h buffer o = (.parseNotEnoughData, buffer', some q) ∧
      nonempty (slices h buffer') = [] ∧ buffer'.refOffset ≤ buffer'.ref.length := by
  have hloop := checkLoop_of_feeds hf [] 0
  rw [List.append_nil, Nat.zero_add] at hloop
  refine ⟨_, ?_, popFront_nonempty h hoff (hb.trans (List.append_nil ds).symm)⟩
  rw [checkHeader, ho, checkLoop_nonempty, hb, hloop]
  rfl

theorem checkHeader_complete {last : Bytes} {more : List Bytes} {q' : HttpParser σ}
    (hb : nonempty (slices h buffer) = (ds ++ [last]) ++ more) (hf : Feeds lib p ds q)
    (hlast : last ≠ []) (hex : httpParserExecute lib q last = (some q', last.length))
    (hst : q'.data.stage = .onMessageComplete) :
    ∃ buffer', checkHeader lib stage h buffer o = (.parseOk, buffer', some q') ∧
      nonempty (slices h buffer') = more ∧ buffer'.refOffset ≤ buffer'.ref.length := by
  have hloop := checkLoop_of_feeds hf (last :: more) 0
  rw [checkLoop_complete hlast hex hst] at hloop
  have hlen : 0 + ds.flatten.length + last.length = (ds ++ [last]).flatten.length := by simp
  refine ⟨_, ?_, popFront_nonempty h hoff hb⟩
  rw [checkHeader, ho, checkLoop_nonempty, hb, List.append_assoc, List.singleton_append, hloop,
    hlen]

end Calls

/-- Every read puts slices to the buffer, and `checkHeader` goes on with the
parser it has left.  Once the response is complete it is deserialized. -/
def receive (lib : HttpParserLib σ) (stage : HttpParserStage) (h : Heap) :
    List (List Slice) → IOBuffer → Option (HttpParser σ) →
      Option (EResParseResult × HttpResponse)
  | [], _, _ => none
  | read :: reads, buffer, o =>
    match checkHeader lib stage h { buffer with ref := buffer.ref ++ read } o with
    | (.parseOk, _, o) => some (HttpResponse.new.deserialize o)
    | (.parseError, _, _) => none
    | (.parseNotEnoughData, buffer, o) => receive lib stage h reads buffer o

def pieces (h : Heap) (reads : List (List Slice)) : List Bytes :=
  nonempty (reads.flatten.map (Slice.bytes h))

theorem pieces_flatten (h : Heap) (reads : List (List Slice)) :
    (pieces h reads).flatten = reads.flatten.flatMap (Slice.bytes h) := by
  rw [pieces, nonempty_flatten, List.flatMap_def]

theorem receive_eq {h : Heap} {stage : HttpParserStage} {last : Bytes} {q q' : HttpParser σ}
    (hlast : last ≠ []) (hex : httpParserExecute lib q last = (some q', last.length))
    (hst : q'.data.stage = .onMessageComplete) (reads : List (List Slice)) (buffer : IOBuffer)
    (o : Option (HttpParser σ)) (p : HttpParser σ) (ds : List Bytes)
    (ho : o.getD ⟨lib.init, .new stage⟩ = p) (hoff : buffer.refOffset ≤ buffer.ref.length)
    (hb : nonempty (slices h buffer) = []) (hreads : pieces h reads = ds ++ [last])
    (hf : Feeds lib p ds q) :
    receive lib stage h reads buffer o =
      some (.parseOk, ⟨q'.data.url, q'.data.body, q'.data.header⟩) := by
  induction reads generalizing buffer o p ds with
  | nil => exact absurd hreads.symm (by simp [pieces, nonempty])
  | cons read reads ih =>
    -- the buffer holds the slices of this read
    have hbuf : nonempty (slices h { buffer with ref := buffer.ref ++ read }) =
        nonempty (read.map (Slice.bytes h)) := by
      rw [slices, IOBuffer.live_append hoff, List.map_append, nonempty_append]
      exact (congrArg (· ++ _) hb).trans (List.nil_append _)
    have hoff' : buffer.refOffset ≤ (buffer.ref ++ read).length := by
      rw [List.length_append]
      omega
    have hsplit : nonempty (read.map (Slice.bytes h)) ++ pieces h reads = ds ++ [last] := by
      rw [← hreads, pieces, pieces, List.flatten_cons, List.map_append, nonempty_append]
    rcases List.eq_nil_or_concat (pieces h reads) with hnil | ⟨more, x, hmore⟩
    · -- the last slice is among them
      rw [hnil, List.append_nil] at hsplit
      obtain ⟨buffer', hcheck, -⟩ := checkHeader_complete ho hoff'
        (hbuf.trans (hsplit.trans (List.append_nil _).symm)) hf hlast hex hst
      rw [receive, hcheck]
      simp [HttpResponse.deserialize, hst]
    · -- the message ends in a later read: this one is consumed whole
      rw [List.concat_eq_append] at hmore
      rw [hmore, ← List.append_assoc] at hsplit
      obtain ⟨hds, hx⟩ := List.append_inj' hsplit rfl
      obtain rfl := List.singleton_inj.mp hx
      subst hds
      obtain ⟨p', hf₁, hf₂⟩ := hf.of_append
      obtain ⟨buffer', hcheck, hb', hoff''⟩ := checkHeader_pending ho hoff' hbuf hf₁
      rw [receive, hcheck]
      exact ih buffer' (some p') p' more rfl hoff'' hb' hmore hf₂

theorem receive_response {r : HttpMessage} (hr : lib.Reports r) (stage : HttpParserStage)
    {h : Heap} {reads : List (List Slice)}
    (hreads : reads.flatten.flatMap (Slice.bytes h) = r.bytes) :
    ∃ rsp, receive lib stage h reads IOBuffer.empty none = some (.parseOk, rsp) ∧
      (rsp = r.response ↔
        valueEvents (lib.events lib.init (pieces h reads)) = valueEvents r.events) := by
  have hb : (pieces h reads).flatten = r.bytes := (pieces_flatten h reads).trans hreads
  obtain ⟨done, last, p, q, hds, hlast, hf, hex, hst, -, hcb⟩ :=
    hr.complete (.new stage) (nil_notMem_nonempty _) hb
  exact ⟨_, receive_eq hlast hex hst reads IOBuffer.empty none _ done rfl le_rfl rfl hds hf,
    hr.response_iff stage (nil_notMem_nonempty _) hb hcb⟩

/-- However a response is cut into slices and reads, it is received, and what is received is the
response exactly if the parser reports no header value in more parts than without a cut. -/
theorem http_response_independent_of_cut (lib : HttpParserLib σ) (r : HttpMessage)
    (hr : lib.Reports r) (stage stage' : HttpParserStage) (h h' : Heap)
    (reads reads' : List (List Slice))
    (hreads : reads.flatten.flatMap (Slice.bytes h) = r.bytes)
    (hreads' : reads'.flatten.flatMap (Slice.bytes h') = r.bytes) :
    (∃ rsp, receive lib stage h reads IOBuffer.empty none = some (.parseOk, rsp) ∧
      (rsp = r.response ↔
        valueEvents (lib.events lib.init (pieces h reads)) = valueEvents r.events)) ∧
    (valueEvents (lib.events lib.init (pieces h reads)) = valueEvents r.events →
      valueEvents (lib.events lib.init (pieces h' reads')) = valueEvents r.events →
      receive lib stage h reads IOBuffer.empty none =
        receive lib stage' h' reads' IOBuffer.empty none) := by
  refine ⟨receive_response hr stage hreads, ?_⟩
  intro hv hv'
  obtain ⟨rsp, heq, hiff⟩ := receive_response hr stage hreads
  obtain ⟨rsp', heq', hiff'⟩ := receive_response hr stage' hreads'
  rw [heq, heq', hiff.mpr hv, hiff'.mpr hv']

theorem http_response_independent_of_cut_noContent :
    receive noContentParser .onBody (heapOf noContent.bytes)
        [[⟨0, 0, 10⟩], [⟨0, 10, 0⟩, ⟨0, 10, 15⟩]] IOBuffer.empty none =
      receive noContentParser .onUrl (heapOf noContent.bytes) [[⟨0, 0, 25⟩]] IOBuffer.empty none :=
  (http_response_independent_of_cut noContentParser noContent noContentParser_reports .onBody .onUrl
    (heapOf noContent.bytes) (heapOf noContent.bytes) [[⟨0, 0, 10⟩], [⟨0, 10, 0⟩, ⟨0, 10, 15⟩]]
    [[⟨0, 0, 25⟩]] (by decide +kernel) (by decide +kernel)).2 (by decide +kernel) (by decide +kernel)

/-- Cut between "x" and "y", the header "A: xy" is received as "x,y". -/
theorem header_value_cut_apart :
    noContentParser.Reports noContent ∧
      ([[⟨0, 0, 20⟩, ⟨0, 20, 5⟩]] : List (List Slice)).flatten.flatMap
        (Slice.bytes (heapOf noContent.bytes)) = noContent.bytes ∧
      ([[⟨0, 0, 25⟩]] : List (List Slice)).flatten.flatMap
        (Slice.bytes (heapOf noContent.bytes)) = noContent.bytes ∧
      receive noContentParser .onMessageBegin (heapOf noContent.bytes)
          [[⟨0, 0, 20⟩, ⟨0, 20, 5⟩]] IOBuffer.empty none ≠
        receive noContentParser .onMessageBegin (heapOf noContent.bytes)
          [[⟨0, 0, 25⟩]] IOBuffer.empty none := by
  refine ⟨noContentParser_reports, by decide +kernel, by decide +kernel, ?_⟩
  intro heq
  have hheader := congrArg (Option.map fun x => x.2.header [65]) heq
  exact absurd hheader (by decide +kernel)

end SofaBolt.Http
