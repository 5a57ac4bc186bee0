import SofaBolt.HttpResponse

namespace SofaBolt.Http

open HttpMessageInfo

theorem addHeader_apply (m : Bytes → Option Bytes) (name value k : Bytes) :
    addHeader m name value k = if k = name then some (appendValue (m name) value) else m k := by
  unfold addHeader
  split_ifs with hk
  · subst hk
    cases hm : m k <;> simp [Bolt.emplace, hm, appendValue]
  · cases hm : m name <;> simp [Bolt.emplace, hm, Function.update_of_ne hk]

def HttpEvent.stage : HttpEvent → HttpParserStage
  | .messageBegin => .onMessageBegin
  | .data .url _ => .onUrl
  | .data .status _ => .onStatus
  | .data .headerField _ => .onHeaderField
  | .data .headerValue _ => .onHeaderValue
  | .data .body _ => .onBody
  | .headersComplete => .onHeadersComplete
  | .messageComplete => .onMessageComplete

theorem onHeaderValue_eq_some {msg msg' : HttpMessageInfo} {d : Bytes}
    (h : msg.onHeaderValue d = some msg') :
    ¬ (msg.stage ≠ .onHeaderValue ∧ msg.curHeader = []) ∧ msg' = msg.storeValue d := by
  unfold onHeaderValue at h
  split_ifs at h with hc
  exact ⟨hc, (Option.some.inj h).symm⟩

theorem callback_stage {msg msg' : HttpMessageInfo} {e : HttpEvent}
    (h : msg.callback e = some msg') : msg'.stage = e.stage := by
  cases e with
  | data el d =>
    cases el with
    | headerValue =>
      rw [(onHeaderValue_eq_some h).2]
      rfl
    | _ =>
      obtain rfl := Option.some.inj h
      rfl
  | _ =>
    obtain rfl := Option.some.inj h
    rfl

theorem callbacks_append (msg : HttpMessageInfo) (es es' : List HttpEvent) :
    msg.callbacks (es ++ es') = (msg.callbacks es).bind fun m => m.callbacks es' := by
  induction es generalizing msg with
  | nil => rfl
  | cons e es ih =>
    simp only [List.cons_append, callbacks]
    cases msg.callback e with
    | none => rfl
    | some m => exact ih m

theorem callbacks_concat_stage {msg msg' : HttpMessageInfo} {es : List HttpEvent} {e : HttpEvent}
    (h : msg.callbacks (es ++ [e]) = some msg') : msg'.stage = e.stage := by
  rw [callbacks_append] at h
  obtain ⟨m, -, hm⟩ := Option.bind_eq_some_iff.mp h
  obtain ⟨m', hm', hlast⟩ := Option.bind_eq_some_iff.mp hm
  obtain rfl := Option.some.inj hlast
  exact callback_stage hm'

theorem HttpEvent.stage_ne {e : HttpEvent} (h : e ≠ .messageComplete) :
    e.stage ≠ .onMessageComplete := by
  cases e with
  | data el d => cases el <;> rintro ⟨⟩
  | messageComplete => exact absurd rfl h
  | _ => rintro ⟨⟩

/-- Without `messageComplete` among them, some callbacks leave another stage. -/
theorem callbacks_stage_ne {msg msg' : HttpMessageInfo} {es : List HttpEvent} (hne : es ≠ [])
    (hes : HttpEvent.messageComplete ∉ es) (h : msg.callbacks es = some msg') :
    msg'.stage ≠ .onMessageComplete := by
  obtain ⟨init, e, rfl⟩ := List.eq_nil_or_concat es |>.resolve_left hne
  rw [List.concat_eq_append] at h hes
  rw [callbacks_concat_stage h]
  apply HttpEvent.stage_ne
  rintro rfl
  exact hes (by simp)

def dataOf (el : HttpElement) (es : List HttpEvent) : Bytes :=
  es.flatMap fun
    | .data e d => if e = el then d else []
    | _ => []

/-- The values reported under the header name `k`, if the name is `name` at first. -/
def valuesOf (k : Bytes) : Bytes → List HttpEvent → List Bytes
  | _, [] => []
  | _, .data .headerField n :: es => valuesOf k n es
  | name, .data .headerValue v :: es =>
    if k = name then v :: valuesOf k name es else valuesOf k name es
  | name, _ :: es => valuesOf k name es

def joinValues (old : Option Bytes) (vs : List Bytes) : Option Bytes :=
  vs.foldl (fun o v => some (appendValue o v)) old

/-- Every header value comes after a name, and a name is reported as one.
`afterField` tells whether the callback before was for a name. -/
def FieldsNamed : Bytes → Bool → List HttpEvent → Prop
  | _, _, [] => True
  | _, afterField, .data .headerField n :: es =>
    afterField = false ∧ n ≠ [] ∧ FieldsNamed n true es
  | name, _, .data .headerValue _ :: es => name ≠ [] ∧ FieldsNamed name false es
  | name, _, _ :: es => FieldsNamed name false es

structure HttpMessage where
  bytes : Bytes
  events : List HttpEvent
  bytes_ne : bytes ≠ []
  framed : ∃ es, events = .messageBegin :: es ++ [.messageComplete]
  named : FieldsNamed [] false events

def HttpMessage.response (r : HttpMessage) : HttpResponse where
  url := dataOf .url r.events
  body := dataOf .body r.events
  header k := joinValues none (valuesOf k [] r.events)

structure HttpMessageInfo.Received (msg msg' : HttpMessageInfo) (es : List HttpEvent) : Prop where
  url : msg'.url = msg.url ++ dataOf .url es
  body : msg'.body = msg.body ++ dataOf .body es
  header : ∀ k, msg'.header k = joinValues (msg.header k) (valuesOf k msg.curHeader es)

theorem callbacks_received {es : List HttpEvent} {name : Bytes} {afterField : Bool}
    (hes : FieldsNamed name afterField es) (msg : HttpMessageInfo) (hname : msg.curHeader = name)
    (hstage : afterField = false → msg.stage ≠ .onHeaderField) :
    ∃ msg', msg.callbacks es = some msg' ∧ msg.Received msg' es := by
  induction es generalizing name afterField msg with
  | nil =>
    refine ⟨msg, rfl, ?_⟩
    constructor <;> simp [dataOf, joinValues, valuesOf]
  | cons e es ih =>
    cases e with
    | data el d =>
      cases el with
      | headerField =>
        obtain ⟨rfl, hd, hes⟩ := hes
        -- after a value, or at the start, a field begins a new name
        have hcur : (msg.onHeaderField d).curHeader = d := by
          simp [onHeaderField, hstage rfl]
        obtain ⟨msg', h, hr⟩ := ih hes _ hcur (by cases ·)
        refine ⟨msg', h, hr.url, hr.body, ?_⟩
        intro k
        rw [hr.header, hcur]
        rfl
      | headerValue =>
        obtain ⟨hname', hes⟩ := hes
        have hok : msg.onHeaderValue d = some (msg.storeValue d) := by
          simp [onHeaderValue, hname, hname']
        obtain ⟨msg', h, hr⟩ := ih hes (msg.storeValue d) hname fun _ => (by cases ·)
        refine ⟨msg', by simpa [callbacks, callback, hok] using h, hr.url, hr.body, ?_⟩
        intro k
        rw [hr.header, valuesOf]
        simp only [storeValue, addHeader_apply]
        by_cases hk : k = msg.curHeader
        · simp [hk, joinValues]
        · simp [hk]
      | url =>
        obtain ⟨msg', h, hr⟩ := ih hes (msg.onUrl d) hname fun _ => (by cases ·)
        refine ⟨msg', h, ?_, hr.body, hr.header⟩
        simp [hr.url, onUrl, dataOf]
      | status =>
        obtain ⟨msg', h, hr⟩ := ih hes msg.onStatus hname fun _ => (by cases ·)
        exact ⟨msg', h, hr.url, hr.body, hr.header⟩
      | body =>
        obtain ⟨msg', h, hr⟩ := ih hes (msg.onBodyCb d) hname fun _ => (by cases ·)
        refine ⟨msg', h, hr.url, ?_, hr.header⟩
        simp [hr.body, onBodyCb, dataOf]
    | messageBegin =>
      obtain ⟨msg', h, hr⟩ := ih hes msg.onMessageBegin hname fun _ => (by cases ·)
      exact ⟨msg', h, hr.url, hr.body, hr.header⟩
    | headersComplete =>
      obtain ⟨msg', h, hr⟩ := ih hes msg.onHeadersComplete hname fun _ => (by cases ·)
      exact ⟨msg', h, hr.url, hr.body, hr.header⟩
    | messageComplete =>
      obtain ⟨msg', h, hr⟩ := ih hes msg.onMessageCompleteCb hname fun _ => (by cases ·)
      exact ⟨msg', h, hr.url, hr.body, hr.header⟩

/-- The first header value of a message comes after a name, so what name there was before
makes no difference. -/
theorem FieldsNamed.of_nil {es : List HttpEvent} {afterField : Bool}
    (h : FieldsNamed [] afterField es) (name : Bytes) :
    FieldsNamed name afterField es ∧ ∀ k, valuesOf k name es = valuesOf k [] es := by
  induction es generalizing afterField with
  | nil => exact ⟨trivial, fun _ => rfl⟩
  | cons e es ih =>
    cases e with
    | data el d =>
      cases el with
      | headerField => exact ⟨h, fun _ => rfl⟩
      | headerValue => exact absurd rfl h.1
      | _ => exact ih h
    | _ => exact ih h

structure HttpMessageInfo.Adds (msg msg' : HttpMessageInfo) (r : HttpMessage) : Prop where
  stage : msg'.stage = .onMessageComplete
  url : msg'.url = msg.url ++ r.response.url
  body : msg'.body = msg.body ++ r.response.body
  header : ∀ k, msg'.header k = joinValues (msg.header k) (valuesOf k [] r.events)

/-- The callbacks of a whole message leave what it says, whatever the stage was
at the start, behind what was there before. -/
theorem HttpMessage.callbacks_adds (r : HttpMessage) (msg : HttpMessageInfo) :
    ∃ msg', msg.callbacks r.events = some msg' ∧ msg.Adds msg' r := by
  obtain ⟨es, hes⟩ := r.framed
  -- the first callback overwrites the stage
  have hbegin : msg.callbacks r.events =
      { msg with stage := .onMessageBegin }.callbacks r.events := by
    rw [hes]
    rfl
  obtain ⟨hnamed, hvalues⟩ := r.named.of_nil msg.curHeader
  obtain ⟨msg', h, hr⟩ := callbacks_received hnamed { msg with stage := .onMessageBegin } rfl
    fun _ => (by cases ·)
  refine ⟨msg', hbegin.trans h, ?_, hr.url, hr.body, fun k => (hr.header k).trans ?_⟩
  · rw [hes] at h
    exact callbacks_concat_stage h
  · rw [hvalues]

theorem HttpMessage.callbacks_new (r : HttpMessage) (stage : HttpParserStage) :
    ∃ msg, (HttpMessageInfo.new stage).callbacks r.events = some msg ∧
      msg.stage = .onMessageComplete ∧
      (⟨msg.url, msg.body, msg.header⟩ : HttpResponse) = r.response := by
  obtain ⟨msg, h, ha⟩ := r.callbacks_adds (.new stage)
  refine ⟨msg, h, ha.stage, ?_⟩
  rw [ha.url, ha.body, funext ha.header]
  rfl

inductive Splits : List HttpEvent → List HttpEvent → Prop
  | nil : Splits [] []
  | same (e : HttpEvent) {es es' : List HttpEvent} : Splits es es' → Splits (e :: es) (e :: es')
  | cut (el : HttpElement) (d d' : Bytes) {es es' : List HttpEvent} :
      Splits (.data el d' :: es) es' → Splits (.data el (d ++ d') :: es) (.data el d :: es')

def HttpEvent.isHeaderValue : HttpEvent → Bool
  | .data .headerValue _ => true
  | _ => false

def valueEvents (es : List HttpEvent) : ℕ := es.countP HttpEvent.isHeaderValue

theorem valueEvents_cons (e : HttpEvent) (es : List HttpEvent) :
    valueEvents (e :: es) = valueEvents es + if e.isHeaderValue then 1 else 0 :=
  List.countP_cons

theorem valueEvents_data (el : HttpElement) (d d' : Bytes) (es : List HttpEvent) :
    valueEvents (.data el d :: es) = valueEvents (.data el d' :: es) := by
  rw [valueEvents_cons, valueEvents_cons]
  cases el <;> rfl

theorem valueEvents_of_ne {el : HttpElement} (hel : el ≠ .headerValue) (d : Bytes)
    (es : List HttpEvent) : valueEvents (.data el d :: es) = valueEvents es := by
  rw [valueEvents_cons]
  cases el with
  | headerValue => exact absurd rfl hel
  | _ => rfl

theorem Splits.valueEvents_le {es es' : List HttpEvent} (h : Splits es es') :
    valueEvents es ≤ valueEvents es' := by
  induction h with
  | nil => exact le_rfl
  | same e _ ih =>
    rw [valueEvents_cons, valueEvents_cons]
    exact Nat.add_le_add_right ih _
  | @cut el d d' es es' _ ih =>
    rw [valueEvents_data el _ d', valueEvents_cons _ es']
    exact ih.trans (Nat.le_add_right _ _)

/-- A part of an element other than a header value is put to the part before. -/
theorem callback_append {el : HttpElement} (hel : el ≠ .headerValue) (msg : HttpMessageInfo)
    (d d' : Bytes) :
    msg.callback (.data el (d ++ d')) =
      (msg.callback (.data el d)).bind fun m => m.callback (.data el d') := by
  cases el with
  | headerValue => exact absurd rfl hel
  | _ => simp [callback, onUrl, onStatus, onHeaderField, onBodyCb]

theorem callbacks_data_append {el : HttpElement} (hel : el ≠ .headerValue) (msg : HttpMessageInfo)
    (d d' : Bytes) (es : List HttpEvent) :
    msg.callbacks (.data el (d ++ d') :: es) =
      (msg.callback (.data el d)).bind fun m => m.callbacks (.data el d' :: es) := by
  rw [callbacks, callback_append hel, Option.bind_assoc]
  rfl

theorem Splits.callbacks_eq {es es' : List HttpEvent} (h : Splits es es')
    (hv : valueEvents es' = valueEvents es) (msg : HttpMessageInfo) :
    msg.callbacks es' = msg.callbacks es := by
  induction h generalizing msg with
  | nil => rfl
  | same e _ ih =>
    rw [valueEvents_cons, valueEvents_cons] at hv
    rw [callbacks, callbacks]
    exact congrArg _ (funext (ih (Nat.add_right_cancel hv)))
  | @cut el d d' es es' hs ih =>
    have hle := hs.valueEvents_le
    by_cases hel : el = .headerValue
    · subst hel
      -- the part cut off counts, and the rest counts no less than the whole did
      rw [valueEvents_data _ _ d'] at hle
      rw [valueEvents_cons, valueEvents_data _ _ d'] at hv
      simp only [HttpEvent.isHeaderValue, if_true] at hv
      omega
    · rw [callbacks_data_append hel, callbacks]
      apply congrArg
      funext m
      apply ih
      simpa only [valueEvents_of_ne hel] using hv

def headerSize (m : Bytes → Option Bytes) (k : Bytes) : ℕ :=
  match m k with
  | none => 0
  | some v => v.length + 1

theorem headerSize_addHeader (m : Bytes → Option Bytes) (name value k : Bytes) :
    headerSize (addHeader m name value) k =
      headerSize m k + if k = name then value.length + 1 else 0 := by
  unfold headerSize
  rw [addHeader_apply]
  by_cases hk : k = name
  · subst hk
    cases hm : m k with
    | none => simp [appendValue]
    | some v =>
      simp [appendValue]
      omega
  · simp [hk]

structure Longer (a b : HttpMessageInfo) : Prop where
  stage : b.stage = a.stage
  url : b.url = a.url
  curHeader : b.curHeader = a.curHeader
  body : b.body = a.body
  header : ∀ k, headerSize a.header k ≤ headerSize b.header k

def Grown (a b : HttpMessageInfo) : Prop := ∃ k, headerSize a.header k < headerSize b.header k

theorem Longer.refl (a : HttpMessageInfo) : Longer a a := ⟨rfl, rfl, rfl, rfl, fun _ => le_rfl⟩

theorem Longer.trans {a b c : HttpMessageInfo} (h : Longer a b) (h' : Longer b c) : Longer a c where
  stage := h'.stage.trans h.stage
  url := h'.url.trans h.url
  curHeader := h'.curHeader.trans h.curHeader
  body := h'.body.trans h.body
  header k := (h.header k).trans (h'.header k)

theorem Grown.trans_longer {a b c : HttpMessageInfo} (h : Grown a b) (h' : Longer b c) :
    Grown a c := by
  obtain ⟨k, hk⟩ := h
  exact ⟨k, hk.trans_le (h'.header k)⟩

theorem callback_longer {a b a' : HttpMessageInfo} (h : Longer a b) {e : HttpEvent}
    (ha : a.callback e = some a') :
    ∃ b', b.callback e = some b' ∧ Longer a' b' ∧ (Grown a b → Grown a' b') := by
  cases e with
  | data el d =>
    cases el with
    | headerValue =>
      obtain ⟨hok, rfl⟩ := onHeaderValue_eq_some ha
      have hsize : ∀ k, headerSize (addHeader a.header a.curHeader d) k ≤
          headerSize (addHeader b.header b.curHeader d) k := by
        intro k
        rw [headerSize_addHeader, headerSize_addHeader, h.curHeader]
        exact Nat.add_le_add_right (h.header k) _
      refine ⟨b.storeValue d, ?_, ⟨rfl, h.url, h.curHeader, h.body, hsize⟩, ?_⟩
      · rw [← h.stage, ← h.curHeader] at hok
        exact if_neg hok
      · rintro ⟨k, hk⟩
        refine ⟨k, ?_⟩
        simp only [storeValue, headerSize_addHeader, h.curHeader]
        exact Nat.add_lt_add_right hk _
    | headerField =>
      obtain rfl := Option.some.inj ha
      refine ⟨_, rfl, ⟨rfl, h.url, ?_, h.body, h.header⟩, id⟩
      simp [onHeaderField, h.stage, h.curHeader]
    | url =>
      obtain rfl := Option.some.inj ha
      exact ⟨_, rfl, ⟨rfl, congrArg (· ++ d) h.url, h.curHeader, h.body, h.header⟩, id⟩
    | body =>
      obtain rfl := Option.some.inj ha
      exact ⟨_, rfl, ⟨rfl, h.url, h.curHeader, congrArg (· ++ d) h.body, h.header⟩, id⟩
    | status =>
      obtain rfl := Option.some.inj ha
      exact ⟨_, rfl, ⟨rfl, h.url, h.curHeader, h.body, h.header⟩, id⟩
  | _ =>
    obtain rfl := Option.some.inj ha
    exact ⟨_, rfl, ⟨rfl, h.url, h.curHeader, h.body, h.header⟩, id⟩

theorem callbacks_longer {a b j : HttpMessageInfo} (h : Longer a b) {es : List HttpEvent}
    (ha : a.callbacks es = some j) :
    ∃ j', b.callbacks es = some j' ∧ Longer j j' ∧ (Grown a b → Grown j j') := by
  induction es generalizing a b with
  | nil =>
    obtain rfl := Option.some.inj ha
    exact ⟨b, rfl, h, id⟩
  | cons e es ih =>
    obtain ⟨a', ha', ha⟩ := Option.bind_eq_some_iff.mp ha
    obtain ⟨b', hb', h', hg⟩ := callback_longer h ha'
    obtain ⟨j', hj', hl, hg'⟩ := ih h' ha
    exact ⟨j', by simpa [callbacks, hb'] using hj', hl, fun g => hg' (hg g)⟩

/-- A header value in two parts takes a comma more than in one. -/
theorem onHeaderValue_append {a a' : HttpMessageInfo} {d d' : Bytes}
    (ha : a.onHeaderValue (d ++ d') = some a') :
    ∃ a₁ a₂, a.onHeaderValue d = some a₁ ∧ a₁.onHeaderValue d' = some a₂ ∧ Longer a' a₂ ∧
      Grown a' a₂ := by
  obtain ⟨hok, rfl⟩ := onHeaderValue_eq_some ha
  have hsize : ∀ k, headerSize (addHeader (addHeader a.header a.curHeader d) a.curHeader d') k =
      headerSize (addHeader a.header a.curHeader (d ++ d')) k +
        if k = a.curHeader then 1 else 0 := by
    intro k
    simp only [headerSize_addHeader, List.length_append]
    split_ifs <;> omega
  refine ⟨a.storeValue d, (a.storeValue d).storeValue d', if_neg hok, if_neg (by simp [storeValue]),
    ⟨rfl, rfl, rfl, rfl, fun k => ?_⟩, a.curHeader, ?_⟩
  · exact Nat.le.intro (hsize k).symm
  · have hcur := hsize a.curHeader
    rw [if_pos rfl] at hcur
    exact Nat.lt_of_succ_le (Nat.le_of_eq hcur.symm)

/-- In parts the callbacks succeed as well, and if a header value was cut some
header is longer in the end. -/
theorem Splits.callbacks_longer {es es' : List HttpEvent} (h : Splits es es')
    {a b j : HttpMessageInfo} (hab : Longer a b) (ha : a.callbacks es = some j) :
    ∃ j', b.callbacks es' = some j' ∧ Longer j j' ∧
      (valueEvents es < valueEvents es' ∨ Grown a b → Grown j j') := by
  induction h generalizing a b j with
  | nil =>
    obtain rfl := Option.some.inj ha
    exact ⟨b, rfl, hab, fun g => g.resolve_left (lt_irrefl _)⟩
  | same e _ ih =>
    obtain ⟨a', ha', ha⟩ := Option.bind_eq_some_iff.mp ha
    obtain ⟨b', hb', hab', hg⟩ := callback_longer hab ha'
    obtain ⟨j', hj', hl, hg'⟩ := ih hab' ha
    refine ⟨j', by simpa [callbacks, hb'] using hj', hl, ?_⟩
    intro g
    apply hg'
    apply g.imp ?_ hg
    intro hlt
    rw [valueEvents_cons, valueEvents_cons] at hlt
    exact Nat.lt_of_add_lt_add_right hlt
  | @cut el d d' es es' _ ih =>
    by_cases hel : el = .headerValue
    · -- the parts are joined by a separator the whole value does not have
      subst hel
      obtain ⟨a', ha', ha⟩ := Option.bind_eq_some_iff.mp ha
      obtain ⟨a₁, a₂, h₁, h₂, hl, hg⟩ := onHeaderValue_append ha'
      obtain ⟨j₁, hj₁, hl₁, hg₁⟩ := Http.callbacks_longer hl ha
      obtain ⟨b₁, hb₁, hab₁, -⟩ := callback_longer (e := .data .headerValue d) hab h₁
      have ha₁ : a₁.callbacks (.data .headerValue d' :: es) = some j₁ := by
        simpa [callbacks, callback, h₂] using hj₁
      obtain ⟨j', hj', hl', -⟩ := ih hab₁ ha₁
      refine ⟨j', by simpa [callbacks, hb₁] using hj', hl₁.trans hl', fun _ => ?_⟩
      exact (hg₁ hg).trans_longer hl'
    · rw [callbacks_data_append hel] at ha
      obtain ⟨a₁, h₁, ha₁⟩ := Option.bind_eq_some_iff.mp ha
      obtain ⟨b₁, hb₁, hab₁, hg₁⟩ := callback_longer hab h₁
      obtain ⟨j', hj', hl, hg⟩ := ih hab₁ ha₁
      refine ⟨j', by simpa [callbacks, hb₁] using hj', hl, ?_⟩
      rw [valueEvents_of_ne hel] at hg
      rw [valueEvents_of_ne hel, valueEvents_of_ne hel]
      exact fun g => hg (g.imp id hg₁)

end SofaBolt.Http
