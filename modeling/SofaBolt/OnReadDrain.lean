import SofaBolt.HttpBoundary
import SofaBolt.OnRead

namespace SofaBolt

open IOBuffer Bolt Framing LoopState

namespace Http

variable {σ : Type} {lib : HttpParserLib σ} {p : HttpParser σ} {h : Heap}

def EndsResponse (rs : List HttpMessage) (bytes : Bytes) : Prop :=
  ∃ i ≤ rs.length, bytes = stream (rs.take i)

instance (rs : List HttpMessage) (bytes : Bytes) : Decidable (EndsResponse rs bytes) :=
  inferInstanceAs (Decidable (∃ i ≤ rs.length, bytes = stream (rs.take i)))

/-- The last callback of the parser is the one for the end of a message exactly where a response
ends: the next byte begins a message again. -/
def HttpParserLib.Delimits (lib : HttpParserLib σ) (rs : List HttpMessage) : Prop :=
  ∀ ds, ds ≠ [] → [] ∉ ds → ds.flatten <+: stream rs →
    ∃ e, (lib.events lib.init ds).getLast? = some e ∧
      (e = .messageComplete ↔ EndsResponse rs ds.flatten)

theorem HttpEvent.stage_eq_iff {e : HttpEvent} :
    e.stage = .onMessageComplete ↔ e = .messageComplete := by
  refine ⟨fun h => ?_, fun h => by rw [h]; rfl⟩
  by_contra hne
  exact HttpEvent.stage_ne hne h

structure Given (lib : HttpParserLib σ) (p : HttpParser σ) (given : List Bytes) : Prop where
  nil_notMem : [] ∉ given
  state : p.state = lib.exec lib.init given
  data : ∃ info : HttpMessageInfo, info.callbacks (lib.events lib.init given) = some p.data

/-- One more slice, after which the stage tells whether a response has ended. -/
theorem Given.slice {rs : List HttpMessage} (hd : lib.Delimits rs) {given : List Bytes}
    (hg : Given lib p given) {d : Bytes} (hne : d ≠ []) (hpre : (given ++ [d]).flatten <+: stream rs)
    {info : HttpMessageInfo}
    (hcb : p.data.callbacks (lib.execute p.state d).events = some info) :
    Given lib ⟨(lib.execute p.state d).state, info⟩ (given ++ [d]) ∧
      (info.stage = .onMessageComplete ↔ EndsResponse rs (given ++ [d]).flatten) := by
  obtain ⟨info₀, h₀⟩ := hg.data
  have hmem : [] ∉ given ++ [d] := by simp [hg.nil_notMem, Ne.symm hne]
  have hevents : lib.events lib.init (given ++ [d]) =
      lib.events lib.init given ++ (lib.execute p.state d).events := by
    rw [HttpParserLib.events_append, ← hg.state, HttpParserLib.events, HttpParserLib.events,
      List.append_nil]
  have hall : info₀.callbacks (lib.events lib.init (given ++ [d])) = some info := by
    rw [hevents, callbacks_append, h₀]
    exact hcb
  refine ⟨⟨hmem, ?_, info₀, hall⟩, ?_⟩
  · rw [HttpParserLib.exec_append, ← hg.state]
    rfl
  · obtain ⟨e, hlast, he⟩ := hd _ (by simp) hmem hpre
    obtain ⟨init, hinit⟩ := List.getLast?_eq_some_iff.mp hlast
    rw [hinit] at hall
    rw [callbacks_concat_stage hall, HttpEvent.stage_eq_iff, he]

/-- Without an error the loop stops at the first slice with which a response ends, or behind the
last slice. -/
theorem checkLoop_stops {rs : List HttpMessage} (hd : lib.Delimits rs) {given ds : List Bytes}
    (hg : Given lib p given) (hds : [] ∉ ds) (hpre : (given ++ ds).flatten <+: stream rs)
    (hc : lib.Clean lib.init (given ++ ds)) (nr : ℕ)
    (hok : (checkLoop lib ds p nr).1 ≠ .parseError) :
    ∃ k ≤ ds.length, (checkLoop lib ds p nr).2.2 = nr + (ds.take k).flatten.length ∧
      (∀ j, 0 < j → j < k → ¬ EndsResponse rs (given ++ ds.take j).flatten) ∧
      (k = ds.length ∨ 0 < k ∧ EndsResponse rs (given ++ ds.take k).flatten) := by
  induction ds generalizing given p nr with
  | nil => exact ⟨0, le_rfl, rfl, fun j _ hj => absurd hj (Nat.not_lt_zero j), .inl rfl⟩
  | cons d ds ih =>
    obtain ⟨hd', hds⟩ := not_or.mp (List.mem_cons.not.mp hds)
    have hpos : 0 < d.length := List.length_pos_iff.mpr (Ne.symm hd')
    have happ : given ++ d :: ds = (given ++ [d]) ++ ds := by simp
    rw [happ] at hpre hc
    have hclean : lib.Clean p.state [d] := by
      rw [hg.state]
      exact (HttpParserLib.clean_append.mp (HttpParserLib.clean_append.mp hc).1).2
    cases hcb : p.data.callbacks (lib.execute p.state d).events with
    | none =>
      simp only [checkLoop, hpos, if_true, httpParserExecute, hcb] at hok
      exact absurd rfl hok
    | some info =>
      have hpre' : (given ++ [d]).flatten <+: stream rs := by
        rw [List.flatten_append] at hpre
        exact (List.prefix_append _ _).trans hpre
      obtain ⟨hg', hstage⟩ := hg.slice hd (Ne.symm hd') hpre' hcb
      simp only [checkLoop, hpos, if_true, httpParserExecute_eq hclean hcb] at hok ⊢
      by_cases hend : info.stage = .onMessageComplete
      · rw [if_pos hend]
        refine ⟨1, by simp, by simp, fun j hj hj' => by omega, .inr ⟨Nat.one_pos, ?_⟩⟩
        simpa using hstage.mp hend
      · rw [if_neg hend] at hok ⊢
        obtain ⟨k, hk, hnr, hfirst, hlast⟩ := ih hg' hds hpre hc _ hok
        have htake (j : ℕ) : given ++ (d :: ds).take (j + 1) = given ++ [d] ++ ds.take j := by simp
        refine ⟨k + 1, by simpa using hk, ?_, fun j hj hj' => ?_, ?_⟩
        · rw [hnr, List.take_succ_cons, List.flatten_cons, List.length_append, Nat.add_assoc]
        · obtain ⟨j, rfl⟩ := Nat.exists_eq_succ_of_ne_zero (Nat.ne_of_gt hj)
          rw [htake]
          rcases Nat.eq_zero_or_pos j with rfl | hj₀
          · rw [List.take_zero, List.append_nil]
            exact fun h => hend (hstage.mpr h)
          · exact hfirst j hj₀ (Nat.lt_of_succ_lt_succ hj')
        · rw [htake]
          exact hlast.imp (congrArg (· + 1)) fun h => ⟨Nat.succ_pos k, h.2⟩

/-- The parser has been given complete responses `before` and possibly a part of the next one; the
buffer holds the rest of that and of the responses `rs`, and the beginning `part` of one more. -/
structure Content (lib : HttpParserLib σ) (p : HttpParser σ) (h : Heap) (buffer : IOBuffer)
    (given : List Bytes) (before rs : List HttpMessage) (part : Bytes) : Prop where
  parser : Given lib p given
  reports : ∀ r ∈ rs, lib.Reports r
  next : ∃ r, lib.Reports r ∧ part <+: r.bytes ∧ part.length < r.bytes.length ∧
    lib.KeepsAlive (before ++ rs ++ [r]) ∧ lib.Delimits (before ++ rs ++ [r])
  bytes : given.flatten ++ buffer.toString h = stream (before ++ rs) ++ part
  le_given : (stream before).length ≤ given.flatten.length
  given_lt : ∀ r ∈ rs.head?, given.flatten.length < (stream before).length + r.bytes.length

def Unaligned (given ds : List Bytes) (before rs : List HttpMessage) : Prop :=
  ∀ i k, 0 < i → i < rs.length →
    given.flatten ++ (ds.take k).flatten ≠ stream (before ++ rs.take i)

theorem stream_append (rs rs' : List HttpMessage) : stream (rs ++ rs') = stream rs ++ stream rs' :=
  List.flatMap_append

theorem stream_length_lt {rs : List HttpMessage} {i j : ℕ} (hij : i < j) (hj : j ≤ rs.length) :
    (stream (rs.take i)).length < (stream (rs.take j)).length := by
  obtain ⟨m, rfl⟩ := Nat.exists_eq_add_of_lt hij
  have hi : i < rs.length := by omega
  have hne : 0 < (rs[i].bytes).length := List.length_pos_iff.mpr rs[i].bytes_ne
  have hsplit : rs.take (i + m + 1) = rs.take i ++ (rs[i] :: (rs.drop (i + 1)).take m) := by
    rw [Nat.add_assoc, List.take_add, List.drop_eq_getElem_cons hi, List.take_succ_cons]
  rw [hsplit, stream_append, stream, stream, List.flatMap_cons, List.length_append,
    List.length_append]
  omega

theorem length_head_le {rs : List HttpMessage} {r : HttpMessage} (hr : rs.head? = some r) {i : ℕ}
    (hi : 0 < i) : r.bytes.length ≤ (stream (rs.take i)).length := by
  obtain ⟨i, rfl⟩ := Nat.exists_eq_succ_of_ne_zero (Nat.ne_of_gt hi)
  obtain ⟨rs, rfl⟩ := List.head?_eq_some_iff.mp hr
  simp [stream]

theorem Content.given_ne {buffer : IOBuffer} {given : List Bytes} {before rs : List HttpMessage}
    {part : Bytes} (hcontent : Content lib p h buffer given before rs part) {i : ℕ} (hi₀ : 0 < i)
    (hi : i < rs.length) : given.flatten ≠ stream (before ++ rs.take i) := by
  intro he
  have hhead := List.head?_eq_some_head (List.ne_nil_of_length_pos (hi₀.trans hi))
  have hlt := hcontent.given_lt _ hhead
  have hle := length_head_le hhead hi₀
  have hlen := congrArg List.length he
  rw [stream_append, List.length_append] at hlen
  omega

theorem HttpParserLib.Reports.not_prefix {r r' : HttpMessage} (hr : lib.Reports r)
    (hr' : lib.Reports r') {part : Bytes} (hpart : part <+: r.bytes)
    (hlt : part.length < r.bytes.length) : ¬ r'.bytes <+: part := by
  intro hpre
  obtain ⟨rest, hrest⟩ := hpre.trans hpart
  have hne : rest ≠ [] := by
    rintro rfl
    have := congrArg List.length hrest
    have := hpre.length_le
    simp only [List.append_nil] at *
    omega
  obtain ⟨es, hes⟩ := r'.framed
  refine hr.unfinished [r'.bytes] rest (by simpa using r'.bytes_ne.symm) hne (by simpa using hrest) ?_
  rw [hr'.whole, hes]
  simp

theorem length_flatten_pos {ds : List Bytes} (hne : ds ≠ []) (hds : [] ∉ ds) :
    0 < ds.flatten.length := by
  obtain ⟨d, ds, rfl⟩ := List.exists_cons_of_ne_nil hne
  have hd : 0 < d.length := List.length_pos_iff.mpr fun hd => hds (by simp [hd])
  rw [List.flatten_cons, List.length_append]
  omega

section Front

variable {buffer : IOBuffer} {given ds : List Bytes} {before rs : List HttpMessage} {part : Bytes}
  (hcontent : Content lib p h buffer given before rs part) (hds : [] ∉ ds)
  (hbuf : buffer.toString h = ds.flatten)

include hcontent hbuf

theorem Content.split (j : ℕ) : (given ++ ds.take j).flatten ++ (ds.drop j).flatten =
    stream (before ++ rs) ++ part := by
  rw [← hcontent.bytes, hbuf, List.flatten_append, List.append_assoc, ← List.flatten_append,
    List.take_append_drop]

/-- Where the slices up to `j` end a response, the others begin with the next one. -/
theorem Content.rest {i j : ℕ}
    (he : (given ++ ds.take j).flatten = stream (before ++ rs.take i)) :
    (ds.drop j).flatten = stream (rs.drop i) ++ part := by
  have hs := hcontent.split hbuf j
  have hrs : stream (before ++ rs) = stream (before ++ rs.take i) ++ stream (rs.drop i) := by
    rw [← stream_append, List.append_assoc, List.take_append_drop]
  rw [he, hrs, List.append_assoc] at hs
  exact List.append_cancel_left hs

include hds

theorem Content.endsResponse_iff {next : HttpMessage} (hlt : part.length < next.bytes.length)
    {j : ℕ} (hj : 0 < j) (hj' : j ≤ ds.length) :
    EndsResponse (before ++ rs ++ [next]) (given ++ ds.take j).flatten ↔
      ∃ i, 0 < i ∧ i ≤ rs.length ∧
        (given ++ ds.take j).flatten = stream (before ++ rs.take i) := by
  have htake (i : ℕ) (hi : i ≤ rs.length) :
      (before ++ rs ++ [next]).take (before.length + i) = before ++ rs.take i := by
    rw [List.append_assoc, List.take_length_add_append, List.take_append_of_le_length hi]
  have hpos : 0 < (ds.take j).flatten.length := by
    refine length_flatten_pos (List.ne_nil_of_length_pos ?_) fun h => hds (List.mem_of_mem_take h)
    rw [List.length_take]
    omega
  have hle := hcontent.le_given
  have hlen := congrArg List.length (hcontent.split hbuf j)
  rw [List.flatten_append, List.length_append, List.length_append, List.length_append] at hlen
  constructor
  · rintro ⟨n, hn, he⟩
    have hnlen := congrArg List.length he
    rw [List.flatten_append, List.length_append] at hnlen
    have hbefore : before.length < n := by
      by_contra hge
      rw [List.append_assoc, List.take_append_of_le_length (by omega)] at hnlen
      have : (stream (before.take n)).length ≤ (stream before).length :=
        (List.Sublist.flatMap (List.take_sublist n before) _).length_le
      omega
    obtain ⟨i, rfl⟩ := Nat.exists_eq_add_of_lt hbefore
    have hi : i + 1 ≤ rs.length := by
      by_contra hgt
      have hall : before.length + i + 1 = (before ++ rs ++ [next]).length := by
        simp only [List.length_append, List.length_singleton] at hn ⊢
        omega
      rw [hall, List.take_length, stream_append, List.length_append] at hnlen
      simp only [stream, List.flatMap_singleton] at hnlen hlen
      omega
    exact ⟨i + 1, Nat.succ_pos i, hi, by rw [he, Nat.add_assoc, htake _ hi]⟩
  · rintro ⟨i, -, hi, he⟩
    exact ⟨before.length + i, by simp; omega, by rw [he, htake _ hi]⟩

/-- Where the loop stops, a complete response is at the front of the rest exactly if the end of a
response but the last one is the end of a slice. -/
theorem Content.front_iff {k : ℕ} (hk : k ≤ ds.length)
    {next : HttpMessage} (hnext : lib.Reports next) (hpart : part <+: next.bytes)
    (hlt : part.length < next.bytes.length)
    (hfirst : ∀ j, 0 < j → j < k →
      ¬ EndsResponse (before ++ rs ++ [next]) (given ++ ds.take j).flatten)
    (hlast : k = ds.length ∨ 0 < k ∧
      EndsResponse (before ++ rs ++ [next]) (given ++ ds.take k).flatten) :
    (∃ r, lib.Reports r ∧ r.bytes <+: (ds.drop k).flatten) ↔ ¬ Unaligned given ds before rs := by
  have hends := fun {j} => hcontent.endsResponse_iff hds hbuf hlt (j := j)
  constructor
  · rintro ⟨r, hr, hpre⟩ hun
    rcases hlast with rfl | ⟨hk₀, he⟩
    · rw [List.drop_length] at hpre
      exact r.bytes_ne (List.prefix_nil.mp hpre)
    · obtain ⟨i, hi₀, hi, he⟩ := (hends hk₀ hk).mp he
      rcases hi.lt_or_eq with hi | rfl
      · exact hun i k hi₀ hi (by rw [← he, List.flatten_append])
      · rw [hcontent.rest hbuf he, List.drop_length] at hpre
        exact hnext.not_prefix hr hpart hlt hpre
  · intro hal
    simp only [Unaligned, not_forall, not_not] at hal
    obtain ⟨i, j, hi₀, hi, he⟩ := hal
    rw [← List.flatten_append] at he
    have hdrop {i : ℕ} (hi : i < rs.length) : rs[i].bytes <+: stream (rs.drop i) ++ part := by
      rw [List.drop_eq_getElem_cons hi, stream, List.flatMap_cons, List.append_assoc]
      exact List.prefix_append _ _
    have hj : j < ds.length := by
      by_contra hge
      have hnil := hcontent.rest hbuf he
      rw [List.drop_eq_nil_of_le (not_lt.mp hge)] at hnil
      exact rs[i].bytes_ne (List.prefix_nil.mp (hnil ▸ hdrop hi))
    have hj₀ : 0 < j := by
      by_contra h₀
      obtain rfl : j = 0 := Nat.eq_zero_of_not_pos h₀
      exact hcontent.given_ne hi₀ hi (by simpa using he)
    have hkj : k ≤ j := by
      by_contra hlt'
      exact hfirst j hj₀ (not_le.mp hlt') ((hends hj₀ hj.le).mpr ⟨i, hi₀, hi.le, he⟩)
    obtain ⟨hk₀, hek⟩ := hlast.resolve_left (by omega)
    obtain ⟨i', -, hi', he'⟩ := (hends hk₀ hk).mp hek
    have hle : i' ≤ i := by
      by_contra hgt
      have hmono := stream_length_lt (not_le.mp hgt) hi'
      have hsub : (ds.take k).flatten.length ≤ (ds.take j).flatten.length :=
        ((List.take_prefix_take_left hkj).sublist.flatten).length_le
      have h₁ := congrArg List.length he
      have h₂ := congrArg List.length he'
      simp only [List.flatten_append, stream_append, List.length_append] at h₁ h₂
      omega
    have hlt' : i' < rs.length := hle.trans_lt hi
    exact ⟨rs[i'], hcontent.reports _ (List.getElem_mem hlt'), hcontent.rest hbuf he' ▸ hdrop hlt'⟩

end Front

theorem Content.checkHeader {stage : HttpParserStage} {o : Option (HttpParser σ)}
    {buffer : IOBuffer} {given : List Bytes} {before rs : List HttpMessage} {part : Bytes}
    (hcontent : Content lib (o.getD ⟨lib.init, .new stage⟩) h buffer given before rs part)
    (hoff : buffer.refOffset ≤ buffer.ref.length) {ret : EResParseResult} {buffer' : IOBuffer}
    {o' : Option (HttpParser σ)} (hcheck : checkHeader lib stage h buffer o = (ret, buffer', o'))
    (hret : ret ≠ .parseError) :
    (∃ r, lib.Reports r ∧ r.bytes <+: buffer'.toString h) ↔
      ¬ Unaligned given (nonempty (slices h buffer)) before rs := by
  obtain ⟨next, hnext, hpart, hlt, hkeep, hdel⟩ := hcontent.next
  have hds := nil_notMem_nonempty (slices h buffer)
  have hbuf := toString_eq_flatten h buffer
  have hpre : (given ++ nonempty (slices h buffer)).flatten <+: stream (before ++ rs ++ [next]) := by
    rw [List.flatten_append, ← hbuf, hcontent.bytes, stream_append _ [next]]
    exact (List.prefix_append_right_inj _).mpr (by simpa [stream] using hpart)
  have hmem : [] ∉ given ++ nonempty (slices h buffer) := by
    simp [hcontent.parser.nil_notMem, hds]
  have hclean := hkeep _ List.suffix_rfl _ hmem hpre
  obtain ⟨hl, hb, -⟩ : (checkLoop lib (nonempty (slices h buffer)) _ 0).1 = ret ∧ _ ∧ _ := by
    simpa [Http.checkHeader, checkLoop_nonempty (slices h buffer)] using hcheck
  obtain ⟨k, hk, hnr, hfirst, hlast⟩ := checkLoop_stops hdel hcontent.parser hds hpre hclean 0
    (by rw [hl]; exact hret)
  have hleft : buffer'.toString h = ((nonempty (slices h buffer)).drop k).flatten := by
    rw [Nat.zero_add] at hnr
    rw [toString_eq_flatten, ← hb, hnr,
      (popFront_nonempty h hoff (List.take_append_drop k _).symm).1]
  rw [hleft]
  exact hcontent.front_iff hds hbuf hk hnext hpart hlt hfirst hlast

end Http

namespace Socket

open Http

variable {σ : Type} {lib : HttpParserLib σ} {stage : HttpParserStage} {h : Heap}
  {s : Socket (HttpParser σ)}

theorem handOut_zero_readBuf {D : Type} {s : Socket D} (hw : s.WF h) (o : Option SessionId) :
    (s.handOut o 0).readBuf.toString h = s.readBuf.toString h := by
  cases o with
  | none => exact (handOut_none (f := []) hw rfl).2
  | some sid => exact (handOut_some (f := []) hw rfl sid).2.1

def httpParser (lib : HttpParserLib σ) (stage : HttpParserStage) (s : Socket (HttpParser σ)) :
    HttpParser σ :=
  s.readAdditionalData.getD ⟨lib.init, .new stage⟩

theorem cutIntoMessage_http {given : List Bytes} {before rs : List HttpMessage} {part : Bytes}
    (hw : s.WF h)
    (hcontent : Content lib (s.httpParser lib stage) h s.readBuf given before rs part)
    (first : (ℕ → Option SessionId) → Option SessionId) (now : ℕ) :
    ∃ s' id, cutIntoMessage (httpProtocol lib stage) first now h s = (s', id) ∧ id ≤ 0 ∧
      (0 ≤ id → ((∃ r, lib.Reports r ∧ r.bytes <+: s'.readBuf.toString h) ↔
        ¬ Unaligned given (nonempty (slices h s.readBuf)) before rs)) := by
  unfold cutIntoMessage
  split_ifs with h0
  · -- nothing is there to be left
    have hnil : s.readBuf.toString h = [] :=
      List.eq_nil_of_length_eq_zero ((length_eq s.readBuf h).symm.trans h0)
    have hds := nonempty_eq_nil ((toString_eq_flatten h s.readBuf).symm.trans hnil)
    refine ⟨s, 0, rfl, le_rfl, fun _ => iff_of_false ?_ (not_not.mpr ?_)⟩
    · rintro ⟨r, -, hr⟩
      rw [hnil] at hr
      exact r.bytes_ne (List.prefix_nil.mp hr)
    · intro i k hi₀ hi he
      rw [hds, List.take_nil, List.flatten_nil, List.append_nil] at he
      exact hcontent.given_ne hi₀ hi he
  · have hleft : ∀ ret buffer' o', Http.checkHeader lib stage h s.readBuf s.readAdditionalData =
        (ret, buffer', o') → ret ≠ .parseError →
        ((∃ r, lib.Reports r ∧ r.bytes <+: buffer'.toString h) ↔
          ¬ Unaligned given (nonempty (slices h s.readBuf)) before rs) :=
      fun _ _ _ => hcontent.checkHeader hw.readBuf.offset_le
    have hwf : (Http.checkHeader lib stage h s.readBuf s.readAdditionalData).2.1.WF h :=
      (popFront_spec hw.readBuf _).1
    simp only [httpProtocol]
    generalize Http.checkHeader lib stage h s.readBuf s.readAdditionalData = r at hleft hwf
    obtain ⟨ret, buffer', o'⟩ := r
    cases ret with
    | parseNotEnoughData => exact ⟨_, 0, rfl, le_rfl, fun _ => hleft _ _ _ rfl (by decide)⟩
    | parseError => exact ⟨_, -1, rfl, by decide, fun hneg => absurd hneg (by decide)⟩
    | parseOk =>
      refine ⟨_, 0, rfl, le_rfl, fun _ => ?_⟩
      rw [handOut_zero_readBuf]
      · exact hleft _ _ _ rfl (by decide)
      · exact ⟨hwf, hw.session⟩

end Socket

namespace LoopState

open Http

variable {σ : Type} {lib : HttpParserLib σ} {stage : HttpParserStage}
  {e : LoopEnv (HttpParser σ)} {w : LoopState (HttpParser σ)}

def KeepsParser {D : Type} (e : LoopEnv D) : Prop :=
  ∀ n w, ((e.interference n).act w).2.readAdditionalData = w.2.readAdditionalData

theorem cutAll_http (he : e.protocol = httpProtocol lib stage) (hk : KeepsParser e)
    (hh : w.heap.WF) (hs : w.socket.WF w.heap) {given : List Bytes} {before rs : List HttpMessage}
    {part : Bytes}
    (hcontent : Content lib (w.socket.httpParser lib stage) w.heap w.socket.readBuf given before rs
      part) :
    ∃ w' id, cutAll e w = some (w', id) ∧
      (0 ≤ id → ((∃ r, lib.Reports r ∧ r.bytes <+: w'.socket.readBuf.toString w'.heap) ↔
        ¬ Unaligned given (nonempty (slices w.heap w.socket.readBuf)) before rs)) := by
  set i := e.interference w.tick with hi
  have hw₁ : (w.interfere e).socket.WF (w.interfere e).heap := i.socket_wf _ hh hs
  have hbuf : (w.interfere e).socket.readBuf = w.socket.readBuf := i.readBuf_eq (w.heap, w.socket)
  have hdata : (w.interfere e).socket.readAdditionalData = w.socket.readAdditionalData :=
    hk w.tick (w.heap, w.socket)
  have hg : w.heap.Grows (w.interfere e).heap := i.grows (w.heap, w.socket) hh hs
  have hslices : slices (w.interfere e).heap w.socket.readBuf = slices w.heap w.socket.readBuf :=
    List.map_congr_left fun s hmem => Slice.bytes_grows (hs.readBuf.live s hmem) hg
  have hcontent₁ : Content lib ((w.interfere e).socket.httpParser lib stage) (w.interfere e).heap
      (w.interfere e).socket.readBuf given before rs part := by
    rw [Socket.httpParser, hdata, hbuf]
    refine { hcontent with bytes := ?_ }
    rw [toString_grows hs.readBuf hg]
    exact hcontent.bytes
  obtain ⟨s', id, hcut, hid, hleft⟩ := Socket.cutIntoMessage_http hw₁ hcontent₁ e.first
    (e.clock (w.interfere e).tick)
  rw [hbuf, hslices] at hleft
  refine ⟨{ w.interfere e with socket := s' }, id, ?_, hleft⟩
  simp only [cutAll, cutLoop, he, hcut, hid, if_true]

/-- When the inner loop stops, no complete response is left at the front of the buffer exactly if,
for BOLT, no response but the last one has id 0 and, for HTTP, no response but the last one ends
where a slice ends. -/
theorem inner_loop_drains_iff (part : Bytes) :
    (∀ (D : Type) (e : LoopEnv D) (w : LoopState D) (done frames : List Bytes),
      e.protocol = boltProtocol D → w.Progress done (frames.flatten ++ part) →
      (∀ f ∈ frames, IsResponse f) → IsPartial part →
      ∃ w', cutAll e w = some (w', 0) ∧
        ((¬ ∃ f, IsResponse f ∧ f <+: w'.socket.readBuf.toString w'.heap) ↔
          ∀ f ∈ frames.dropLast, replyId f ≠ 0) ∧
        ((∀ f ∈ frames.dropLast, replyId f ≠ 0) →
          w'.socket.readBuf.toString w'.heap = part)) ∧
    ∀ (σ : Type) (lib : HttpParserLib σ) (stage : HttpParserStage) (e : LoopEnv (HttpParser σ))
      (w : LoopState (HttpParser σ)) (given : List Bytes) (before rs : List HttpMessage),
      e.protocol = httpProtocol lib stage → KeepsParser e → w.heap.WF → w.socket.WF w.heap →
      Content lib (w.socket.httpParser lib stage) w.heap w.socket.readBuf given before rs part →
      ∃ w' id, cutAll e w = some (w', id) ∧
        (0 ≤ id → ((¬ ∃ r, lib.Reports r ∧ r.bytes <+: w'.socket.readBuf.toString w'.heap) ↔
          Unaligned given (nonempty (slices w.heap w.socket.readBuf)) before rs)) := by
  constructor
  · intro D e w done frames he hp hf hpart
    obtain ⟨w', hcut, hleft, -⟩ := cutLoop_spec he hf hpart (w.socket.readBuf.length + 1) hp
      (by rw [length_eq _ w.heap, hp.readBuf]; omega)
    refine ⟨w', hcut, ?_, fun hid => ?_⟩
    · rw [hleft, ← behindZero_eq_nil_iff]
      constructor
      · intro hno
        by_contra hne
        obtain ⟨f, fs, hfs⟩ := List.exists_cons_of_ne_nil hne
        refine hno ⟨f, hf f (mem_of_mem_behindZero (by simp [hfs])), ?_⟩
        rw [hfs, List.flatten_cons, List.append_assoc]
        exact List.prefix_append _ _
      · rintro hnil ⟨f, hf, hpre⟩
        rw [hnil] at hpre
        exact hpart.not_isResponse hf hpre
    · rw [hleft, behindZero_eq_nil_iff.mpr hid]
      rfl
  · intro σ lib stage e w given before rs he hk hh hs hcontent
    obtain ⟨w', id, hcut, hiff⟩ := cutAll_http he hk hh hs hcontent
    exact ⟨w', id, hcut, fun hid => not_iff_comm.mp (hiff hid).symm⟩

def heapOfPieces (ds : List Bytes) : Heap where
  block b := ⟨none, (ds.getD b []).length, bufferDefaultBlockSize - blockDataOffset,
    fun i => (ds.getD b []).getD i 0⟩
  fresh := ds.length
  tlsBlockChain _ := none

def holding (D : Type) (ds : List Bytes) : LoopState D where
  heap := heapOfPieces ds
  socket :=
    { active := true, readBuf := ⟨ds.mapIdx fun b d => ⟨b, 0, d.length⟩, 0⟩, sessionInfo := []
      sessionMap := fun _ => none, readAdditionalData := none
      session := fun _ => ⟨0, 0, IOBuffer.empty, none⟩ }
  tick := 0
  handed := []

def alone {D : Type} (protocol : Protocol D) : LoopEnv D where
  thread := 0
  protocol := protocol
  first _ := none
  clock := id
  interference _ := .prepareRead D []

theorem heapOfPieces_wf {ds : List Bytes}
    (hd : ∀ d ∈ ds, d.length ≤ bufferDefaultBlockSize - blockDataOffset) :
    (heapOfPieces ds).WF := by
  refine ⟨fun b _ => rfl, fun b hb => ?_, ?_, ?_, ?_⟩
  · have hmem : ds.getD b [] ∈ ds := by
      rw [List.getD_eq_getElem?_getD, List.getElem?_eq_getElem hb, Option.getD_some]
      exact List.getElem_mem hb
    exact hd _ hmem
  all_goals simp [heapOfPieces]

theorem holding_wf (D : Type) (ds : List Bytes) :
    (holding D ds).socket.WF (holding D ds).heap := by
  refine ⟨⟨Nat.zero_le _, fun s hs => ?_⟩, fun _ => wf_empty _⟩
  obtain ⟨b, hb, rfl⟩ := List.mem_mapIdx.mp hs
  exact ⟨hb, by simp [holding, heapOfPieces, hb]⟩

def emptyResponse (id : UInt8) : Bytes :=
  [1, 0, 0, 2, 1, 0, 0, 0, id, 11, 0, 0, 0, 0, 0, 0, 0, 0, 0, 0]

theorem taggedParser_delimits {tag : ℕ → Tag} (ht : Closing tag) (h₀ : (tag 0).closes = none)
    {rs : List HttpMessage}
    (h : ∀ n, 0 < n → n ≤ (stream rs).length →
      ∃ e ∈ (report (label tag 0 ((stream rs).take n))).getLast?,
        (e = .messageComplete ↔ EndsResponse rs ((stream rs).take n))) :
    (taggedParser tag).Delimits rs := by
  intro ds hne hds hpre
  have htake := List.prefix_iff_eq_take.mp hpre
  obtain ⟨e, he, hiff⟩ := h ds.flatten.length (length_flatten_pos hne hds) hpre.length_le
  rw [← htake] at he hiff
  have hresume : resume (label tag 0 ds.flatten) = [] := by
    cases ds.flatten with
    | nil => rfl
    | cons b bs => simp [label, resume, h₀]
  have hsplits := taggedParser_events ht 0 ds
  rw [hresume, List.nil_append] at hsplits
  obtain ⟨e', he', hiff'⟩ := hsplits.getLast? he
  exact ⟨e', he', hiff'.trans hiff⟩

theorem noContentParser_delimits :
    noContentParser.Delimits ([] ++ [noContent, noContent] ++ [noContent]) := by
  refine taggedParser_delimits noContentTag_closing rfl fun n hn hle => ?_
  have hall : ∀ n < 76, 0 < n →
      ∃ e ∈ (report (label noContentTag 0
          ((stream [noContent, noContent, noContent]).take n))).getLast?,
        (e = .messageComplete ↔ EndsResponse [noContent, noContent, noContent]
          ((stream [noContent, noContent, noContent]).take n)) := by
    decide +kernel
  exact hall n (Nat.lt_succ_of_le hle) hn

theorem inner_loop_drains_iff_both :
    (∃ w', cutAll (alone (boltProtocol Unit))
        (holding Unit [emptyResponse 7, emptyResponse 0, [1, 0, 0]]) = some (w', 0) ∧
      w'.socket.readBuf.toString w'.heap = [1, 0, 0]) ∧
    ∃ w', cutAll (alone (httpProtocol noContentParser .onMessageBegin))
        (holding (HttpParser ℕ) [stream [noContent, noContent], noContent.bytes.take 7]) =
          some (w', 0) ∧
      ¬ ∃ r, noContentParser.Reports r ∧ r.bytes <+: w'.socket.readBuf.toString w'.heap := by
  constructor
  · obtain ⟨w', hcut, -, hleft⟩ := (inner_loop_drains_iff [1, 0, 0]).1 Unit
      (alone (boltProtocol Unit)) (holding Unit [emptyResponse 7, emptyResponse 0, [1, 0, 0]]) []
      [emptyResponse 7, emptyResponse 0] rfl
      ⟨heapOfPieces_wf (by decide), holding_wf _ _, by simp [Socket.Keyed, holding], .nil,
        by decide +kernel⟩
      (by
        simp only [List.mem_cons, List.not_mem_nil, or_false, forall_eq_or_imp, forall_eq]
        exact ⟨⟨by decide, by decide⟩, by decide, by decide⟩)
      (.inr ⟨emptyResponse 7, ⟨by decide, by decide⟩, by decide, by decide⟩)
    exact ⟨w', hcut, hleft (by decide)⟩
  · obtain ⟨w', id, hcut, hiff⟩ := (inner_loop_drains_iff (noContent.bytes.take 7)).2 ℕ
      noContentParser .onMessageBegin (alone (httpProtocol noContentParser .onMessageBegin))
      (holding (HttpParser ℕ) [stream [noContent, noContent], noContent.bytes.take 7]) [] []
      [noContent, noContent] rfl (fun _ _ => rfl) (heapOfPieces_wf (by decide)) (holding_wf _ _)
      ⟨⟨List.not_mem_nil, rfl, _, rfl⟩, by simpa using noContentParser_reports,
        ⟨noContent, noContentParser_reports, by decide, by decide,
          fun _ _ ds _ _ => taggedParser_clean _ 0 0 ds, noContentParser_delimits⟩,
        by decide +kernel, le_rfl, by decide⟩
    have hret : (cutAll (alone (httpProtocol noContentParser .onMessageBegin)) (holding (HttpParser ℕ)
        [stream [noContent, noContent], noContent.bytes.take 7])).map Prod.snd = some 0 := by
      decide +kernel
    obtain rfl : id = 0 := by simpa [hcut] using hret
    refine ⟨w', hcut, (hiff le_rfl).mpr fun i k hi₀ hi he => ?_⟩
    obtain rfl : i = 1 := Nat.le_antisymm (Nat.le_of_lt_succ hi) hi₀
    set w := holding (HttpParser ℕ) [stream [noContent, noContent], noContent.bytes.take 7] with hw
    have hds : nonempty (slices w.heap w.socket.readBuf) =
        [stream [noContent, noContent], noContent.bytes.take 7] := by decide +kernel
    rw [hds] at he
    rcases k with _ | _ | k
    · exact absurd he (by decide)
    · exact absurd he (by decide)
    · exact absurd he (by rw [List.take_of_length_le (by simp)]; decide)

/-- Behind a response with id 0 another one is left, and behind an HTTP response the next one. -/
theorem inner_loop_leaves_response :
    (∃ r, cutAll (alone (boltProtocol Unit))
        (holding Unit [emptyResponse 0 ++ emptyResponse 7]) = some r ∧ r.2 = 0 ∧
      r.1.socket.readBuf.toString r.1.heap = emptyResponse 7) ∧
    ∃ r, cutAll (alone (httpProtocol noContentParser .onMessageBegin))
        (holding (HttpParser ℕ) [noContent.bytes, noContent.bytes]) = some r ∧ r.2 = 0 ∧
      r.1.socket.readBuf.toString r.1.heap = noContent.bytes := by
  decide +kernel

end LoopState

end SofaBolt
