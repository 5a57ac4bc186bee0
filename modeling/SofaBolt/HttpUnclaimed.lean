import SofaBolt.HttpCut
import SofaBolt.HttpOrder

namespace SofaBolt.Http

open IOBuffer Run HttpMessageInfo
open Bolt (EResParseResult)

variable {σ : Type} {lib : HttpParserLib σ} {stage : HttpParserStage}

theorem joinValues_some (old : Bytes) (vs : List Bytes) :
    joinValues (some old) vs = some (old ++ vs.flatMap (comma :: ·)) := by
  induction vs generalizing old with
  | nil => rw [List.flatMap_nil, List.append_nil]; rfl
  | cons v vs ih =>
    rw [List.flatMap_cons, ← List.append_assoc]
    exact ih (old ++ comma :: v)

theorem joinValues_eq_own_iff (old : Option Bytes) (vs : List Bytes) :
    joinValues old vs = joinValues none vs ↔ old = none := by
  refine ⟨fun h => ?_, fun h => by rw [h]⟩
  cases old with
  | none => rfl
  | some old =>
    cases vs with
    | nil => cases h
    | cons v vs =>
      -- behind the first value both go on alike
      have hlen := congrArg (Option.map List.length)
        ((joinValues_some (old ++ comma :: v) vs).symm.trans (h.trans (joinValues_some v vs)))
      simp only [Option.map_some, List.length_append, List.length_cons, Option.some.injEq] at hlen
      omega

theorem joinValues_eq_none_iff (old : Option Bytes) (vs : List Bytes) :
    joinValues old vs = none ↔ old = none ∧ joinValues none vs = none := by
  cases old with
  | none => exact ⟨fun h => ⟨rfl, h⟩, And.right⟩
  | some old =>
    rw [joinValues_some]
    exact iff_of_false (by cases ·) (fun h => by cases h.1)

def HttpMessageInfo.response (msg : HttpMessageInfo) : HttpResponse :=
  ⟨msg.url, msg.body, msg.header⟩

theorem HttpResponse.eq_iff {a b : HttpResponse} :
    a = b ↔ a.url = b.url ∧ a.body = b.body ∧ ∀ k, a.header k = b.header k := by
  obtain ⟨url, body, header⟩ := a
  obtain ⟨url', body', header'⟩ := b
  simp only [HttpResponse.mk.injEq, funext_iff]

/-- The object holds the message, and nothing else, exactly if it was empty before. -/
theorem HttpMessageInfo.Adds.own_iff {msg msg' : HttpMessageInfo} {r : HttpMessage}
    (h : msg.Adds msg' r) : msg'.response = r.response ↔ msg.response = .new := by
  rw [HttpResponse.eq_iff, HttpResponse.eq_iff]
  refine and_congr ?_ (and_congr ?_ (forall_congr' fun k => ?_))
  · exact (h.url ▸ List.append_left_eq_self : msg'.url = r.response.url ↔ msg.url = [])
  · exact (h.body ▸ List.append_left_eq_self : msg'.body = r.response.body ↔ msg.body = [])
  · exact (Eq.congr (h.header k) rfl).trans (joinValues_eq_own_iff _ _)

/-- It holds nothing exactly if it was empty and the message says nothing. -/
theorem HttpMessageInfo.Adds.empty_iff {msg msg' : HttpMessageInfo} {r : HttpMessage}
    (h : msg.Adds msg' r) :
    msg'.response = .new ↔ msg.response = .new ∧ r.response = .new := by
  rw [HttpResponse.eq_iff, HttpResponse.eq_iff, HttpResponse.eq_iff]
  have hurl : msg'.url = [] ↔ msg.url = [] ∧ r.response.url = [] :=
    h.url ▸ List.append_eq_nil_iff
  have hbody : msg'.body = [] ↔ msg.body = [] ∧ r.response.body = [] :=
    h.body ▸ List.append_eq_nil_iff
  have hheader : ∀ k, msg'.header k = none ↔ msg.header k = none ∧ r.response.header k = none :=
    fun k => (Eq.congr (h.header k) rfl).trans (joinValues_eq_none_iff _ _)
  constructor
  · rintro ⟨hu, hb, hh⟩
    exact ⟨⟨(hurl.mp hu).1, (hbody.mp hb).1, fun k => ((hheader k).mp (hh k)).1⟩,
      (hurl.mp hu).2, (hbody.mp hb).2, fun k => ((hheader k).mp (hh k)).2⟩
  · rintro ⟨⟨hu, hb, hh⟩, hu', hb', hh'⟩
    exact ⟨hurl.mpr ⟨hu, hu'⟩, hbody.mpr ⟨hb, hb'⟩, fun k => (hheader k).mpr ⟨hh k, hh' k⟩⟩

namespace HttpParserLib

def response (lib : HttpParserLib σ) (bytes : Bytes) : HttpResponse where
  url := dataOf .url (lib.events lib.init [bytes])
  body := dataOf .body (lib.events lib.init [bytes])
  header k := joinValues none (valuesOf k [] (lib.events lib.init [bytes]))

theorem Reports.response_eq {r : HttpMessage} (hr : lib.Reports r) :
    lib.response r.bytes = r.response := by
  rw [response, hr.whole]
  rfl

/-- The parser knows the responses of a connection from each of its states `idle`: it begins
in one, and every response leaves it in one. -/
structure Persists (lib : HttpParserLib σ) (idle : σ → Prop) (rs : ℕ → HttpMessage) : Prop where
  init : idle lib.init
  reports : ∀ s, idle s → ∀ k, (lib.startingAt s).Reports (rs k)
  left : ∀ s, idle s → ∀ k ds, [] ∉ ds → ds.flatten = (rs k).bytes → idle (lib.exec s ds)

end HttpParserLib

theorem Feeds.of_startingAt {s : σ} {p q : HttpParser σ} {ds : List Bytes}
    (h : Feeds (lib.startingAt s) p ds q) : Feeds lib p ds q := by
  induction h with
  | nil => exact .nil _
  | cons hd hex hst _ ih => exact .cons hd hex hst ih

/-- `start` is the state of the parser at the beginning of the response that is being
received, and `taken` are the slices of that response it has been given. -/
structure HttpReception (σ : Type) where
  exchange : HttpExchange σ
  start : σ
  taken : List Bytes

namespace HttpReception

def takenOff (h : Heap) (readBuf readBuf' : IOBuffer) : List Bytes :=
  (nonempty (slices h readBuf)).take
    ((nonempty (slices h readBuf)).length - (nonempty (slices h readBuf')).length)

def init (lib : HttpParserLib σ) : HttpReception σ := ⟨.init, lib.init, []⟩

def goOn (lib : HttpParserLib σ) (s : HttpReception σ) (e : HttpExchange σ) :
    HttpAct → HttpReception σ
  | .parse h readBuf => ⟨e, s.start, s.taken ++ takenOff h readBuf e.socket.readBuf⟩
  | .handOut _ => ⟨e, (e.socket.readAdditionalData.map HttpParser.state).getD lib.init, []⟩
  | _ => ⟨e, s.start, s.taken⟩

def step (lib : HttpParserLib σ) (stage : HttpParserStage) (s : HttpReception σ) (a : HttpAct) :
    Option (HttpReception σ) :=
  (s.exchange.step lib stage a).map fun e => s.goOn lib e a

theorem goOn_eq {s : HttpReception σ} {e : HttpExchange σ} {a : HttpAct}
    (hparse : ∀ h readBuf, a ≠ .parse h readBuf) (hhand : ∀ itr, a ≠ .handOut itr) :
    s.goOn lib e a = ⟨e, s.start, s.taken⟩ := by
  cases a with
  | parse h readBuf => exact absurd rfl (hparse h readBuf)
  | handOut itr => exact absurd rfl (hhand itr)
  | _ => rfl

/-- The slices are a first part of the response, or all of it and no header value is cut. -/
def Fits (lib : HttpParserLib σ) (r : HttpMessage) (start : σ) (taken ds : List Bytes) : Prop :=
  ((taken ++ ds).flatten <+: r.bytes ∧ (taken ++ ds).flatten ≠ r.bytes) ∨
    ∃ n ≤ ds.length, (taken ++ ds.take n).flatten = r.bytes ∧
      valueEvents (lib.events start (taken ++ ds.take n)) = valueEvents r.events

/-- The socket receives the responses `rs`, and each of them ends where a slice ends. -/
def Framed (lib : HttpParserLib σ) (rs : ℕ → HttpMessage) (s : HttpReception σ) : HttpAct → Prop
  | .parse h readBuf =>
    readBuf.refOffset ≤ readBuf.ref.length ∧
      Fits lib (rs s.exchange.handed.length) s.start s.taken (nonempty (slices h readBuf))
  | _ => True

instance (lib : HttpParserLib σ) (rs : ℕ → HttpMessage) (s : HttpReception σ) (a : HttpAct) :
    Decidable (Framed lib rs s a) := by
  cases a <;> unfold Framed <;> try unfold Fits
  all_goals infer_instance

def Leftover (handed : List (Option SessionId × Bool)) (i : ℕ) : Prop :=
  i < handed.length ∧ ∀ x ∈ handed.drop i, x.1 = none

theorem leftover_concat_none {handed : List (Option SessionId × Bool)} {b : Bool} {i : ℕ} :
    Leftover (handed ++ [(none, b)]) i ↔ Leftover handed i ∨ i = handed.length := by
  rcases lt_trichotomy i handed.length with hi | rfl | hi
  · rw [Leftover, List.drop_append_of_le_length hi.le, List.forall_mem_append,
      List.forall_mem_singleton]
    simp only [Leftover, hi, hi.ne, List.length_append, Nat.lt_add_right, true_and, and_true,
      or_false]
  · simp [Leftover]
  · simp only [Leftover, List.length_append, List.length_singleton]
    omega

theorem not_leftover_concat_some {handed : List (Option SessionId × Bool)} {sid : SessionId}
    {b : Bool} {i : ℕ} : ¬ Leftover (handed ++ [(some sid, b)]) i := by
  rintro ⟨hi, hall⟩
  rw [List.length_append, List.length_singleton] at hi
  rw [List.drop_append_of_le_length (Nat.le_of_lt_succ hi)] at hall
  cases hall (some sid, b) (List.mem_append_right _ List.mem_cons_self)

section Response

variable {r : HttpMessage} {start : σ} {msg : HttpMessageInfo} {p : HttpParser σ}
  {taken ds : List Bytes} (hr : (lib.startingAt start).Reports r)
  (hfeeds : Feeds lib ⟨start, msg⟩ taken p) (hds : [] ∉ ds)

include hr hfeeds hds

theorem takes_part (hpre : (taken ++ ds).flatten <+: r.bytes)
    (hne : (taken ++ ds).flatten ≠ r.bytes) :
    ∃ q, Feeds lib p ds q ∧ Feeds lib ⟨start, msg⟩ (taken ++ ds) q := by
  obtain ⟨rest, hrest⟩ := hpre
  have hrest_ne : rest ≠ [] := by
    rintro rfl
    exact hne (by rw [← hrest, List.append_nil])
  have hnil : [] ∉ taken ++ ds := by
    rw [List.mem_append]
    exact not_or.mpr ⟨hfeeds.nil_notMem, hds⟩
  obtain ⟨q, hq, -⟩ := hr.feeds msg hnil rest hrest_ne hrest
  obtain ⟨p', hp', hq'⟩ := hq.of_startingAt.of_append
  obtain rfl := hfeeds.unique hp'
  exact ⟨q, hq', hq.of_startingAt⟩

theorem takes_rest (hlt : taken.flatten.length < r.bytes.length)
    (hb : (taken ++ ds).flatten = r.bytes)
    (hv : valueEvents (lib.events start (taken ++ ds)) = valueEvents r.events) :
    ∃ done last p' q, ds = done ++ [last] ∧ last ≠ [] ∧ Feeds lib p done p' ∧
      httpParserExecute lib p' last = (some q, last.length) ∧
      q.state = lib.exec start (taken ++ ds) ∧ msg.Adds q.data r := by
  have hnil : [] ∉ taken ++ ds := by
    rw [List.mem_append]
    exact not_or.mpr ⟨hfeeds.nil_notMem, hds⟩
  have hne : ds ≠ [] := by
    rintro rfl
    rw [List.append_nil] at hb
    exact absurd (congrArg List.length hb) hlt.ne
  obtain ⟨done₀, last, p₀, q, hsplit, hlast, hf, hex, -, hst, hcb⟩ := hr.complete msg hnil hb
  obtain ⟨done, last', rfl⟩ := (List.eq_nil_or_concat ds).resolve_left hne
  rw [List.concat_eq_append] at *
  obtain ⟨rfl, hx⟩ := List.append_inj' ((List.append_assoc taken done [last']).trans hsplit) rfl
  obtain rfl := List.singleton_inj.mp hx
  obtain ⟨p', hp', hf'⟩ := hf.of_startingAt.of_append
  obtain rfl := hfeeds.unique hp'
  have hsplits := hr.cut _ hnil hb
  have hevents : (lib.startingAt start).events (lib.startingAt start).init
      (taken ++ (done ++ [last'])) = lib.events start (taken ++ (done ++ [last'])) :=
    HttpParserLib.startingAt_events _ _ _
  rw [hevents] at hcb hsplits
  rw [hsplits.callbacks_eq hv msg] at hcb
  obtain ⟨msg', hmsg', hadds⟩ := r.callbacks_adds msg
  obtain rfl := Option.some.inj (hmsg'.symm.trans hcb)
  refine ⟨done, last', p₀, q, rfl, hlast, hf', hex, hst.trans ?_, hadds⟩
  exact HttpParserLib.startingAt_exec _ _ _

end Response

def LeftEmpty (rs : ℕ → HttpMessage) (handed : List (Option SessionId × Bool)) : Prop :=
  ∀ i, Leftover handed i → (rs i).response = .new

def parser (lib : HttpParserLib σ) (stage : HttpParserStage) (s : HttpReception σ) :
    HttpParser σ :=
  s.exchange.socket.readAdditionalData.getD ⟨lib.init, .new stage⟩

inductive Inv (lib : HttpParserLib σ) (stage : HttpParserStage) (idle : σ → Prop)
    (rs : ℕ → HttpMessage) (s : HttpReception σ) : Prop where
  | receiving {msg : HttpMessageInfo} : s.exchange.pc = .idle → idle s.start →
    (msg.response = .new ↔ LeftEmpty rs s.exchange.handed) →
    Feeds lib ⟨s.start, msg⟩ s.taken (s.parser lib stage) →
    s.taken.flatten.length < (rs s.exchange.handed.length).bytes.length → Inv lib stage idle rs s
  | complete {msg : HttpMessageInfo} {p : HttpParser σ} : s.exchange.pc ≠ .idle →
    (msg.response = .new ↔ LeftEmpty rs s.exchange.handed) →
    s.exchange.socket.readAdditionalData = some p → idle p.state →
    msg.Adds p.data (rs s.exchange.handed.length) → Inv lib stage idle rs s

variable {idle : σ → Prop} {rs : ℕ → HttpMessage} {s s' : HttpReception σ}

theorem Inv.begins {e : HttpExchange σ} {start : σ} {msg : HttpMessageInfo} (hpc : e.pc = .idle)
    (hidle : idle start) (hmsg : msg.response = .new ↔ LeftEmpty rs e.handed)
    (hparser : e.socket.readAdditionalData.getD ⟨lib.init, .new stage⟩ = ⟨start, msg⟩) :
    Inv lib stage idle rs ⟨e, start, []⟩ := by
  refine .receiving hpc hidle hmsg ?_ (List.length_pos_iff.mpr (rs _).bytes_ne)
  rw [parser, hparser]
  exact .nil _

theorem inv_init (hp : lib.Persists idle rs) : Inv lib stage idle rs (init lib) := by
  refine .begins rfl hp.init (iff_of_true rfl ?_) rfl
  intro i hi
  exact absurd hi.1 (Nat.not_lt_zero i)

theorem Inv.handOut {itr : Option SessionId} (hp : lib.Persists idle rs)
    (hi : s.Inv lib stage idle rs) (h : s.step lib stage (.handOut itr) = some s') :
    s'.Inv lib stage idle rs := by
  obtain ⟨e, he, rfl⟩ := Option.map_eq_some_iff.mp h
  obtain ⟨size, id, hpc, -, rfl⟩ := HttpExchange.handOut_cases he
  cases hi with
  | receiving hidle => cases hidle.symm.trans hpc
  | @complete msg p _ hmsg hdata hidle hadds =>
    cases itr with
    | none =>
      -- the object stays, with what it holds
      have hkeep : (s.exchange.socket.handOut none size).readAdditionalData = some p := hdata
      have hempty : p.data.response = .new ↔
          LeftEmpty rs (s.exchange.handed ++ [(none, false)]) := by
        rw [hadds.empty_iff, hmsg]
        constructor
        · rintro ⟨hold, hnew⟩ i hi
          rcases leftover_concat_none.mp hi with hi | rfl
          · exact hold i hi
          · exact hnew
        · intro hall
          exact ⟨fun i hi => hall i (leftover_concat_none.mpr (Or.inl hi)),
            hall _ (leftover_concat_none.mpr (Or.inr rfl))⟩
      refine .begins rfl ?_ hempty ?_
      · simp only [hkeep, Option.map_some, Option.getD_some]
        exact hidle
      · simp only [hkeep, Option.map_some, Option.getD_some]
    | some sid =>
      refine .begins rfl hp.init (iff_of_true rfl ?_) rfl
      intro i hi
      exact absurd hi not_leftover_concat_some

theorem Inv.parse {h : Heap} {readBuf : IOBuffer} (hp : lib.Persists idle rs)
    (hi : s.Inv lib stage idle rs) (hf : Framed lib rs s (.parse h readBuf))
    (hs : s.step lib stage (.parse h readBuf) = some s') : s'.Inv lib stage idle rs := by
  obtain ⟨e, he, rfl⟩ := Option.map_eq_some_iff.mp hs
  simp only [HttpExchange.step, HttpExchange.parse] at he
  obtain ⟨hpc, he⟩ := Option.ite_none_right_eq_some.mp he
  cases hi with
  | complete hne => exact absurd hpc hne
  | @receiving msg _ hidle hmsg hfeeds hlt =>
    obtain ⟨hoff, hfits⟩ := hf
    have hr := hp.reports s.start hidle s.exchange.handed.length
    by_cases hlen : readBuf.length = 0
    · -- there is nothing to parse
      rw [if_pos hlen] at he
      cases he
      have hnone : takenOff h readBuf readBuf = [] := by rw [takenOff, Nat.sub_self, List.take_zero]
      rw [goOn, hnone, List.append_nil]
      exact .receiving hpc hidle hmsg hfeeds hlt
    · rw [if_neg hlen] at he
      rcases hfits with ⟨hpre, hne⟩ | ⟨n, hn, hb, hv⟩
      · obtain ⟨q, hq, hall⟩ := takes_part hr hfeeds (nil_notMem_nonempty _) hpre hne
        obtain ⟨buffer', hcheck, hrest, -⟩ := checkHeader_pending rfl hoff rfl hq
        have htaken : takenOff h readBuf buffer' = nonempty (slices h readBuf) := by
          rw [takenOff, hrest, List.length_nil, Nat.sub_zero, List.take_length]
        simp only [httpProtocol, hcheck] at he
        cases he
        rw [goOn, htaken]
        exact .receiving hpc hidle hmsg hall
          (lt_of_le_of_ne hpre.length_le fun hlen => hne (hpre.eq_of_length hlen))
      · have hnil : [] ∉ (nonempty (slices h readBuf)).take n := fun hmem =>
          nil_notMem_nonempty _ (List.mem_of_mem_take hmem)
        obtain ⟨done, last, p', q, hsplit, hlast, hdone, hex, hst, hadds⟩ :=
          takes_rest hr hfeeds hnil hlt hb hv
        have hslices : nonempty (slices h readBuf) =
            (done ++ [last]) ++ (nonempty (slices h readBuf)).drop n := by
          rw [← hsplit, List.take_append_drop]
        obtain ⟨buffer', hcheck, -⟩ :=
          checkHeader_complete rfl hoff hslices hdone hlast hex hadds.stage
        simp only [httpProtocol, hcheck] at he
        obtain ⟨-, he⟩ := Option.ite_none_right_eq_some.mp he
        cases he
        refine .complete CutPc.noConfusion hmsg rfl ?_ hadds
        rw [hst]
        exact hp.left s.start hidle _ _ (by simp [hfeeds.nil_notMem, hnil]) hb

theorem Inv.step {a : HttpAct} (hp : lib.Persists idle rs) (hi : s.Inv lib stage idle rs)
    (hf : Framed lib rs s a) (h : s.step lib stage a = some s') : s'.Inv lib stage idle rs := by
  by_cases hparse : ∃ heap readBuf, a = .parse heap readBuf
  · obtain ⟨heap, readBuf, rfl⟩ := hparse
    exact hi.parse hp hf h
  by_cases hhand : ∃ itr, a = .handOut itr
  · obtain ⟨itr, rfl⟩ := hhand
    exact hi.handOut hp h
  have hparse' : ∀ heap readBuf, a ≠ .parse heap readBuf := fun heap readBuf ha =>
    hparse ⟨heap, readBuf, ha⟩
  have hhand' : ∀ itr, a ≠ .handOut itr := fun itr ha => hhand ⟨itr, ha⟩
  obtain ⟨e, he, rfl⟩ := Option.map_eq_some_iff.mp h
  obtain ⟨hhanded, -, hdata, hidle⟩ := HttpExchange.step_kept hparse' hhand' he
  rw [goOn_eq hparse' hhand']
  cases hi with
  | receiving hpc hstart hmsg hfeeds hlt =>
    refine .receiving (hidle.mpr hpc) hstart (by rw [hhanded]; exact hmsg) ?_
      (by rw [hhanded]; exact hlt)
    rw [parser, hdata]
    exact hfeeds
  | complete hpc hmsg hp' hstate hadds =>
    exact .complete (fun hpc' => hpc (hidle.mp hpc')) (by rw [hhanded]; exact hmsg)
      (hdata.trans hp') hstate (by rw [hhanded]; exact hadds)

/-- What is delivered to a session is what the bytes of the response say exactly if the
responses that have found no session since the last delivery say nothing at all. -/
theorem delivered_own_iff (lib : HttpParserLib σ) (stage : HttpParserStage) (idle : σ → Prop)
    (rs : ℕ → HttpMessage) (hp : lib.Persists idle rs) (as : List HttpAct)
    (s s' : HttpReception σ) (sid : SessionId)
    (hm : Meets (step lib stage) (Framed lib rs) (init lib) as)
    (hr : run (step lib stage) (init lib) as = some s)
    (h : s.step lib stage (.handOut (some sid)) = some s') :
    ∃ rsp, HttpResponse.new.deserialize (s'.exchange.socket.session sid).data = (.parseOk, rsp) ∧
      (rsp = lib.response (rs s.exchange.handed.length).bytes ↔
        ∀ i, Leftover s.exchange.handed i → lib.response (rs i).bytes = .new) := by
  have hown : ∀ i, lib.response (rs i).bytes = (rs i).response := fun i =>
    (hp.reports lib.init hp.init i).response_eq
  have hi : s.Inv lib stage idle rs :=
    run_induction (fun _ _ _ hi hf h => Inv.step hp hi hf h) (inv_init hp) hm hr
  obtain ⟨e, he, rfl⟩ := Option.map_eq_some_iff.mp h
  obtain ⟨size, id, hpc, -⟩ := HttpExchange.handOut_cases he
  have hdata := (HttpExchange.handOut_session he sid).1 rfl
  cases hi with
  | receiving hidle => cases hidle.symm.trans hpc
  | @complete msg p _ hmsg hdata' _ hadds =>
    refine ⟨p.data.response, ?_, ?_⟩
    · rw [goOn, hdata, hdata', HttpResponse.deserialize, if_neg (not_not.mpr hadds.stage)]
      rfl
    · rw [hown, hadds.own_iff, hmsg]
      exact forall_congr' fun i => by rw [hown]

theorem noContentParser_persists :
    noContentParser.Persists (fun pos => pos % 25 = 0) fun _ => noContent where
  init := rfl
  reports _ h _ := noContentParser_reports_at h
  left pos h _ ds _ hb := by
    have hexec : noContentParser.exec pos ds = pos + ds.flatten.length := taggedParser_exec _ pos ds
    rw [hexec, hb, Nat.add_mod, h]
    rfl

open HttpExchange (request response)

def oneUnclaimed : List HttpAct :=
  request 0 1 5 ++ request 1 2 6 ++ response 2 7 (some 0) ++
    [.timeout 1, .reclaim fun _ => true] ++ response 0 8 none

theorem delivered_own_fourth :
    ∃ s, run (step noContentParser .onMessageBegin) (init noContentParser)
        (oneUnclaimed ++ request 2 3 9 ++ response 1 10 (some 2) ++ [.reclaim fun _ => true] ++
          request 3 4 11 ++ (response 1 12 none).dropLast) = some s ∧
      s.exchange.handed.map Prod.fst = [some 0, none, some 2] ∧
      ∃ s', s.step noContentParser .onMessageBegin (.handOut (some 3)) = some s' ∧
        HttpResponse.new.deserialize (s'.exchange.socket.session 3).data =
          (.parseOk, noContentParser.response noContent.bytes) := by
  have hrun : ∃ s, run (step noContentParser .onMessageBegin) (init noContentParser)
        (oneUnclaimed ++ request 2 3 9 ++ response 1 10 (some 2) ++ [.reclaim fun _ => true] ++
          request 3 4 11 ++ (response 1 12 none).dropLast) = some s ∧
      s.exchange.handed = [(some 0, false), (none, false)] ++ [(some 2, false)] ∧
      ∃ s', s.step noContentParser .onMessageBegin (.handOut (some 3)) = some s' ∧
        s'.taken = [] := by
    decide +kernel
  obtain ⟨s, hr, hhanded, s', h, -⟩ := hrun
  obtain ⟨rsp, hrsp, hiff⟩ := delivered_own_iff noContentParser .onMessageBegin
    (fun pos => pos % 25 = 0) (fun _ => noContent) noContentParser_persists _ s s' 3
    (by decide +kernel) hr h
  refine ⟨s, hr, by rw [hhanded]; rfl, s', h, ?_⟩
  rw [hrsp, hiff.mpr]
  intro i hi
  rw [hhanded] at hi
  exact absurd hi not_leftover_concat_some

/-- The next response is delivered to the session 2 with the header of the second one in front
of its own. -/
theorem unclaimed_response_leaks :
    (run (step noContentParser .onMessageBegin) (init noContentParser)
        (oneUnclaimed ++ request 2 3 9 ++ response 1 10 (some 2))).map
      (fun s => (s.exchange.handed.map Prod.fst,
        (HttpResponse.new.deserialize (s.exchange.socket.session 2).data).2.header [65])) =
      some ([some 0, none, some 2], some [120, 121, 44, 120, 121]) ∧
    (noContentParser.response noContent.bytes).header [65] = some [120, 121] := by
  decide +kernel

end HttpReception

end SofaBolt.Http
