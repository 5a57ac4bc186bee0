import SofaBolt.HttpEvents

namespace SofaBolt.Http

variable {σ : Type} {lib : HttpParserLib σ}

namespace HttpParserLib

def exec (lib : HttpParserLib σ) : σ → List Bytes → σ
  | s, [] => s
  | s, d :: ds => lib.exec (lib.execute s d).state ds

def events (lib : HttpParserLib σ) : σ → List Bytes → List HttpEvent
  | _, [] => []
  | s, d :: ds => (lib.execute s d).events ++ lib.events (lib.execute s d).state ds

def Clean (lib : HttpParserLib σ) : σ → List Bytes → Prop
  | _, [] => True
  | s, d :: ds =>
    ((lib.execute s d).nparsed = d.length ∧ (lib.execute s d).failed = false) ∧
      lib.Clean (lib.execute s d).state ds

/-- The parser knows the response `r`: it makes the callbacks of `r.events` for
it, an element that spans a cut in parts.  It begins with the first byte and
reports the end with the last one. -/
structure Reports (lib : HttpParserLib σ) (r : HttpMessage) : Prop where
  whole : lib.events lib.init [r.bytes] = r.events
  clean : ∀ ds, [] ∉ ds → ds.flatten <+: r.bytes → lib.Clean lib.init ds
  cut : ∀ ds, [] ∉ ds → ds.flatten = r.bytes → Splits r.events (lib.events lib.init ds)
  begun : ∀ ds, ds ≠ [] → [] ∉ ds → ds.flatten <+: r.bytes → lib.events lib.init ds ≠ []
  unfinished : ∀ ds rest, [] ∉ ds → rest ≠ [] → ds.flatten ++ rest = r.bytes →
    HttpEvent.messageComplete ∉ lib.events lib.init ds

def startingAt (lib : HttpParserLib σ) (s : σ) : HttpParserLib σ := { lib with init := s }

theorem startingAt_exec (s s' : σ) (ds : List Bytes) :
    (lib.startingAt s).exec s' ds = lib.exec s' ds := by
  induction ds generalizing s' with
  | nil => rfl
  | cons d ds ih => exact ih _

theorem startingAt_events (s s' : σ) (ds : List Bytes) :
    (lib.startingAt s).events s' ds = lib.events s' ds := by
  induction ds generalizing s' with
  | nil => rfl
  | cons d ds ih => exact congrArg ((lib.execute s' d).events ++ ·) (ih _)

theorem exec_append (s : σ) (ds ds' : List Bytes) :
    lib.exec s (ds ++ ds') = lib.exec (lib.exec s ds) ds' := by
  induction ds generalizing s with
  | nil => rfl
  | cons d ds ih => exact ih _

theorem events_append (s : σ) (ds ds' : List Bytes) :
    lib.events s (ds ++ ds') = lib.events s ds ++ lib.events (lib.exec s ds) ds' := by
  induction ds generalizing s with
  | nil => rfl
  | cons d ds ih => rw [List.cons_append, events, ih, events, exec, List.append_assoc]

theorem clean_append {s : σ} {ds ds' : List Bytes} :
    lib.Clean s (ds ++ ds') ↔ lib.Clean s ds ∧ lib.Clean (lib.exec s ds) ds' := by
  induction ds generalizing s with
  | nil => simp [Clean, exec]
  | cons d ds ih => rw [List.cons_append, Clean, ih, Clean, exec, ← and_assoc]

end HttpParserLib

inductive Tag where
  /-- It belongs to no element, but may end the one before it; some notifications come with it. -/
  | silent (closes : Option HttpElement) (notes : List HttpEvent)
  | part (el : HttpElement) (first : Bool)
deriving DecidableEq, Repr

def Tag.ends : Tag → Bool
  | .silent _ notes => HttpEvent.messageComplete ∈ notes
  | .part _ _ => false

def Tag.closes : Tag → Option HttpElement
  | .silent el _ => el
  | .part _ _ => none

def continues (el : HttpElement) : List (UInt8 × Tag) → Bool
  | (_, .part el' false) :: _ => el' = el
  | _ => false

def attach (b : UInt8) : List HttpEvent → List HttpEvent
  | .data el d :: es => .data el (b :: d) :: es
  | es => es

def report : List (UInt8 × Tag) → List HttpEvent
  | [] => []
  | (_, .silent _ notes) :: ts => notes ++ report ts
  | (b, .part el _) :: ts =>
    if continues el ts then attach b (report ts) else .data el [b] :: report ts

def label (tag : ℕ → Tag) (pos : ℕ) : Bytes → List (UInt8 × Tag)
  | [] => []
  | b :: d => (b, tag pos) :: label tag (pos + 1) d

/-- The callback for an element that ends where a piece begins: its mark is set at the first byte
of the piece, and the element is reported without a byte. -/
def resume : List (UInt8 × Tag) → List HttpEvent
  | (_, tag) :: _ => tag.closes.toList.map fun el => .data el []
  | [] => []

def taggedParser (tag : ℕ → Tag) : HttpParserLib ℕ where
  init := 0
  execute pos d :=
    ⟨pos + d.length, resume (label tag pos d) ++ report (label tag pos d), d.length, false⟩
  stopped _ d _ := d.length

def Closing (tag : ℕ → Tag) : Prop :=
  ∀ pos, ∀ el ∈ (tag (pos + 1)).closes, ∃ first, tag pos = .part el first

theorem label_append (tag : ℕ → Tag) (pos : ℕ) (d d' : Bytes) :
    label tag pos (d ++ d') = label tag pos d ++ label tag (pos + d.length) d' := by
  induction d generalizing pos with
  | nil => rfl
  | cons b d ih =>
    rw [List.cons_append, label, ih, label, List.length_cons, Nat.add_right_comm]
    rfl

theorem label_add {tag : ℕ → Tag} {n : ℕ} (h : ∀ i, tag (n + i) = tag i) (pos : ℕ) (d : Bytes) :
    label tag (n + pos) d = label tag pos d := by
  induction d generalizing pos with
  | nil => rfl
  | cons b d ih => rw [label, label, h, Nat.add_assoc, ih]

theorem taggedParser_exec (tag : ℕ → Tag) (pos : ℕ) (ds : List Bytes) :
    (taggedParser tag).exec pos ds = pos + ds.flatten.length := by
  induction ds generalizing pos with
  | nil => rfl
  | cons d ds ih =>
    rw [HttpParserLib.exec, ih, List.flatten_cons, List.length_append, ← Nat.add_assoc]
    rfl

theorem Splits.append_left (es : List HttpEvent) {es₁ es₂ : List HttpEvent} (h : Splits es₁ es₂) :
    Splits (es ++ es₁) (es ++ es₂) := by
  induction es with
  | nil => exact h
  | cons e es ih => exact .same e ih

theorem Splits.attach (b : UInt8) {es es' : List HttpEvent} (h : Splits es es') :
    Splits (attach b es) (attach b es') := by
  cases h with
  | nil => exact .nil
  | same e h =>
    cases e with
    | data el d => exact .same _ h
    | _ => exact .same _ h
  | cut el d d' h => exact .cut el (b :: d) d' h

theorem continues_append (el : HttpElement) (t : UInt8 × Tag) (ts rest : List (UInt8 × Tag)) :
    continues el (t :: ts ++ rest) = continues el (t :: ts) := by
  obtain ⟨b, tag⟩ := t
  cases tag with
  | silent closes notes => rfl
  | part el' first => cases first <;> rfl

theorem report_of_continues {el : HttpElement} {ts : List (UInt8 × Tag)}
    (h : continues el ts = true) : ∃ d es, report ts = .data el d :: es := by
  induction ts generalizing el with
  | nil => cases h
  | cons t ts ih =>
    obtain ⟨b, tag⟩ := t
    cases tag with
    | silent closes notes => cases h
    | part el' first =>
      cases first with
      | true => cases h
      | false =>
        obtain rfl : el' = el := by simpa [continues] using h
        rw [report]
        split_ifs with hc
        · obtain ⟨d, es, hts⟩ := ih hc
          exact ⟨b :: d, es, by rw [hts]; rfl⟩
        · exact ⟨[b], report ts, rfl⟩

def Follows (t : UInt8 × Tag) (rest : List (UInt8 × Tag)) : Prop :=
  ∀ x ∈ rest.head?, ∀ el ∈ x.2.closes, ∃ first, t.2 = .part el first

theorem resume_cases (rest : List (UInt8 × Tag)) :
    resume rest = [] ∨ ∃ el, resume rest = [.data el []] ∧ ∃ x ∈ rest.head?, el ∈ x.2.closes := by
  cases rest with
  | nil => exact Or.inl rfl
  | cons x rest =>
    cases hx : x.2.closes with
    | none => exact Or.inl (by simp [resume, hx])
    | some el => exact Or.inr ⟨el, by simp [resume, hx], x, rfl, hx⟩

theorem report_cut {t : UInt8 × Tag} {rest : List (UInt8 × Tag)} {es : List HttpEvent}
    (hrest : Follows t rest) (h : Splits (resume rest ++ report rest) es) :
    Splits (report (t :: rest)) (report [t] ++ es) := by
  obtain ⟨b, tag⟩ := t
  rcases resume_cases rest with hr | ⟨el, hr, x, hx, hel⟩
  · rw [hr, List.nil_append] at h
    cases tag with
    | silent closes notes =>
      rw [report, report, report, List.append_nil]
      exact h.append_left notes
    | part el first =>
      rw [report, show report [(b, .part el first)] = [.data el [b]] from rfl]
      split_ifs with hc
      · obtain ⟨d, es', hreport⟩ := report_of_continues hc
        rw [hreport] at h ⊢
        exact .cut el [b] d h
      · exact .same _ h
  · -- the element ends at the cut and is continued with no byte
    obtain ⟨first, rfl⟩ : ∃ first, tag = .part el first := hrest x hx el hel
    have hc : continues el rest = false := by
      cases rest with
      | nil => rfl
      | cons y rest =>
        obtain rfl := Option.some.inj hx
        obtain ⟨c, tag⟩ := y
        cases tag with
        | silent closes notes => rfl
        | part el' first => cases hel
    rw [hr] at h
    rw [report, hc]
    exact .cut el [b] [] h

theorem report_splits {ts rest : List (UInt8 × Tag)} {es : List HttpEvent}
    (hrest : ∀ t ∈ ts.getLast?, Follows t rest) (hts : ts ≠ [])
    (h : Splits (resume rest ++ report rest) es) : Splits (report (ts ++ rest)) (report ts ++ es) := by
  induction ts with
  | nil => exact absurd rfl hts
  | cons t ts ih =>
    cases ts with
    | nil => exact report_cut (hrest t rfl) h
    | cons t' ts =>
      have ih := ih (by simpa using hrest) (by simp)
      obtain ⟨b, tag⟩ := t
      cases tag with
      | silent closes notes =>
        rw [List.cons_append, report, report, List.append_assoc]
        exact ih.append_left notes
      | part el first =>
        rw [List.cons_append, report, report, continues_append]
        split_ifs with hc
        · obtain ⟨d, es', hts⟩ := report_of_continues hc
          have hattach : attach b (report (t' :: ts)) ++ es = attach b (report (t' :: ts) ++ es) := by
            rw [hts]
            rfl
          rw [hattach]
          exact ih.attach b
        · exact .same _ ih

theorem label_getLast? {tag : ℕ → Tag} {pos : ℕ} {d : Bytes} {t : UInt8 × Tag}
    (h : t ∈ (label tag pos d).getLast?) : ∃ n, pos + d.length = n + 1 ∧ t.2 = tag n := by
  induction d generalizing pos with
  | nil => cases h
  | cons b d ih =>
    cases d with
    | nil =>
      obtain rfl := Option.some.inj h
      exact ⟨pos, rfl, rfl⟩
    | cons c d =>
      have hlast : t ∈ (label tag (pos + 1) (c :: d)).getLast? := by simpa [label] using h
      obtain ⟨n, hn, ht⟩ := ih hlast
      exact ⟨n, by simp only [List.length_cons] at *; omega, ht⟩

theorem taggedParser_events {tag : ℕ → Tag} (ht : Closing tag) (pos : ℕ) (ds : List Bytes) :
    Splits (resume (label tag pos ds.flatten) ++ report (label tag pos ds.flatten))
      ((taggedParser tag).events pos ds) := by
  induction ds generalizing pos with
  | nil => exact .nil
  | cons d ds ih =>
    cases d with
    | nil => exact ih pos
    | cons b d =>
      have hfirst : resume (label tag pos ((b :: d) ++ ds.flatten)) =
          resume (label tag pos (b :: d)) := rfl
      rw [List.flatten_cons, hfirst, label_append, HttpParserLib.events, taggedParser,
        List.append_assoc]
      refine (report_splits (fun t hlast => ?_) (by simp [label]) (ih _)).append_left _
      obtain ⟨n, hn, htag⟩ := label_getLast? hlast
      intro x hx el hel
      rw [hn] at hx
      cases hflat : ds.flatten with
      | nil =>
        rw [hflat] at hx
        cases hx
      | cons c cs =>
        rw [hflat] at hx
        obtain rfl := Option.some.inj hx
        rw [htag]
        exact ht n el hel

theorem Splits.messageComplete_mem {es es' : List HttpEvent} (h : Splits es es')
    (hm : HttpEvent.messageComplete ∈ es') : HttpEvent.messageComplete ∈ es := by
  induction h with
  | nil => exact hm
  | same e _ ih =>
    rcases List.mem_cons.mp hm with rfl | hm
    · exact List.mem_cons_self
    · exact List.mem_cons_of_mem _ (ih hm)
  | cut el d d' _ ih =>
    have hm' := ih ((List.mem_cons.mp hm).resolve_left (by cases ·))
    exact List.mem_cons_of_mem _ ((List.mem_cons.mp hm').resolve_left (by cases ·))

/-- Parts have the same end, as far as the end of the message is concerned. -/
theorem Splits.getLast? {es es' : List HttpEvent} (h : Splits es es') {e : HttpEvent}
    (he : es.getLast? = some e) :
    ∃ e', es'.getLast? = some e' ∧ (e' = .messageComplete ↔ e = .messageComplete) := by
  induction h generalizing e with
  | nil => cases he
  | @same x es es' h ih =>
    cases es with
    | nil =>
      cases h
      exact ⟨e, he, Iff.rfl⟩
    | cons y es =>
      obtain ⟨e', he', hiff⟩ := ih (e := e) (by simpa using he)
      exact ⟨e', by rw [List.getLast?_cons, he']; rfl, hiff⟩
  | @cut el d d' es es' h ih =>
    -- both elements are data
    obtain ⟨x, hx, hxe⟩ : ∃ x, (HttpEvent.data el d' :: es).getLast? = some x ∧
        (x = .messageComplete ↔ e = .messageComplete) := by
      cases es with
      | nil =>
        obtain rfl := Option.some.inj he
        exact ⟨_, rfl, by simp⟩
      | cons y es => exact ⟨e, by simpa using he, Iff.rfl⟩
    obtain ⟨e', he', hiff⟩ := ih hx
    exact ⟨e', by rw [List.getLast?_cons, he']; rfl, hiff.trans hxe⟩

theorem messageComplete_mem_attach {b : UInt8} {es : List HttpEvent}
    (hm : HttpEvent.messageComplete ∈ attach b es) : HttpEvent.messageComplete ∈ es := by
  cases es with
  | nil => exact hm
  | cons e es =>
    cases e with
    | data el d => exact List.mem_cons_of_mem _ ((List.mem_cons.mp hm).resolve_left (by cases ·))
    | _ => exact hm

theorem exists_ends_of_mem_report {ts : List (UInt8 × Tag)}
    (hm : HttpEvent.messageComplete ∈ report ts) : ∃ t ∈ ts, t.2.ends = true := by
  induction ts with
  | nil => exact absurd hm List.not_mem_nil
  | cons t ts ih =>
    obtain ⟨b, tag⟩ := t
    have htail (hm : HttpEvent.messageComplete ∈ report ts) :
        ∃ t ∈ (b, tag) :: ts, t.2.ends = true := by
      obtain ⟨t, ht, hends⟩ := ih hm
      exact ⟨t, List.mem_cons_of_mem _ ht, hends⟩
    cases tag with
    | silent closes notes =>
      rcases List.mem_append.mp hm with hm | hm
      · exact ⟨_, List.mem_cons_self, by simpa [Tag.ends] using hm⟩
      · exact htail hm
    | part el first =>
      rw [report] at hm
      split_ifs at hm
      · exact htail (messageComplete_mem_attach hm)
      · exact htail ((List.mem_cons.mp hm).resolve_left (by cases ·))

theorem tag_of_mem_label {tag : ℕ → Tag} {pos : ℕ} {d : Bytes} {x : UInt8 × Tag}
    (hx : x ∈ label tag pos d) : ∃ i < d.length, x.2 = tag (pos + i) := by
  induction d generalizing pos with
  | nil => exact absurd hx List.not_mem_nil
  | cons b d ih =>
    rcases List.mem_cons.mp hx with rfl | hx
    · exact ⟨0, Nat.succ_pos _, rfl⟩
    · obtain ⟨i, hi, he⟩ := ih hx
      exact ⟨i + 1, Nat.succ_lt_succ hi, by rw [he, Nat.add_right_comm, Nat.add_assoc]⟩

theorem taggedParser_clean (tag : ℕ → Tag) (start pos : ℕ) (ds : List Bytes) :
    ((taggedParser tag).startingAt start).Clean pos ds := by
  induction ds generalizing pos with
  | nil => trivial
  | cons d ds ih => exact ⟨⟨rfl, rfl⟩, ih _⟩

/-- The assumption about the vendored parser can be met, wherever it is in the stream. -/
theorem taggedParser_reports {tag : ℕ → Tag} (ht : Closing tag) {r : HttpMessage} (pos : ℕ)
    (hbegin : tag pos = .silent none [.messageBegin])
    (hend : ∀ i < r.bytes.length - 1, (tag (pos + i)).ends = false)
    (hevents : report (label tag pos r.bytes) = r.events) :
    ((taggedParser tag).startingAt pos).Reports r := by
  have hresume (d : Bytes) : resume (label tag pos d) = [] := by
    cases d with
    | nil => rfl
    | cons b d => simp [label, resume, hbegin, Tag.closes]
  have hsplits (ds : List Bytes) :
      Splits (report (label tag pos ds.flatten)) ((taggedParser tag).events pos ds) := by
    have h := taggedParser_events ht pos ds
    rwa [hresume, List.nil_append] at h
  refine ⟨?_, fun ds _ _ => taggedParser_clean tag pos pos ds, ?_, ?_, ?_⟩
  · simp [HttpParserLib.events, HttpParserLib.startingAt, taggedParser, hresume, hevents]
  · intro ds _ hb
    rw [← hevents, ← hb, HttpParserLib.startingAt_events]
    exact hsplits ds
  · intro ds hne hds _
    cases ds with
    | nil => exact absurd rfl hne
    | cons d ds =>
      cases d with
      | nil => exact absurd List.mem_cons_self hds
      | cons b d =>
        have hfirst : ((taggedParser tag).execute pos (b :: d)).events =
            .messageBegin :: report (label tag (pos + 1) d) := by
          simp [taggedParser, label, resume, report, hbegin, Tag.closes]
        rw [HttpParserLib.startingAt_events, HttpParserLib.events, HttpParserLib.startingAt, hfirst]
        exact List.cons_ne_nil _ _
  · intro ds rest _ hrest hb hm
    rw [HttpParserLib.startingAt_events] at hm
    obtain ⟨t, hmem, hends⟩ := exists_ends_of_mem_report ((hsplits ds).messageComplete_mem hm)
    obtain ⟨i, hi, ht⟩ := tag_of_mem_label hmem
    have hpos : 0 < rest.length := List.length_pos_iff.mpr hrest
    have hlast : i < r.bytes.length - 1 := by
      rw [← hb, List.length_append]
      omega
    rw [ht, hend i hlast] at hends
    cases hends

def noContent : HttpMessage where
  bytes := [72, 84, 84, 80, 47, 49, 46, 49, 32, 50, 48, 52, 32, 78, 13, 10,
    65, 58, 32, 120, 121, 13, 10, 13, 10]
  events := [.messageBegin, .data .status [78], .data .headerField [65],
    .data .headerValue [120, 121], .headersComplete, .messageComplete]
  bytes_ne := (by cases ·)
  framed := ⟨[.data .status [78], .data .headerField [65], .data .headerValue [120, 121],
    .headersComplete], rfl⟩
  named := by simp [FieldsNamed]

def noContentTag (pos : ℕ) : Tag :=
  match pos % 25 with
  | 0 => .silent none [.messageBegin]
  | 13 => .part .status true
  | 14 => .silent (some .status) []
  | 16 => .part .headerField true
  | 17 => .silent (some .headerField) []
  | 19 => .part .headerValue true
  | 20 => .part .headerValue false
  | 21 => .silent (some .headerValue) []
  | 24 => .silent none [.headersComplete, .messageComplete]
  | _ => .silent none []

def noContentParser : HttpParserLib ℕ := taggedParser noContentTag

theorem noContentTag_add {n : ℕ} (h : n % 25 = 0) (i : ℕ) :
    noContentTag (n + i) = noContentTag i := by
  rw [noContentTag, noContentTag, Nat.add_mod, h, Nat.zero_add, Nat.mod_mod]

theorem noContentTag_closing : Closing noContentTag := by
  have hall : ∀ k < 25, ∀ el ∈ (noContentTag (k + 1)).closes,
      ∃ first, noContentTag k = .part el first := by decide +kernel
  intro pos el hel
  have hpos := noContentTag_add (Nat.mul_mod_right 25 (pos / 25))
  have hdiv := Nat.div_add_mod pos 25
  rw [← hdiv, Nat.add_assoc, hpos] at hel
  rw [← hdiv, hpos]
  exact hall _ (Nat.mod_lt pos (by decide)) el hel

theorem noContentParser_reports_at {pos : ℕ} (h : pos % 25 = 0) :
    (noContentParser.startingAt pos).Reports noContent := by
  refine taggedParser_reports noContentTag_closing pos (noContentTag_add h 0) (fun i hi => ?_) ?_
  · rw [noContentTag_add h]
    revert i
    decide +kernel
  · rw [← Nat.add_zero pos, label_add (noContentTag_add h)]
    decide +kernel

theorem noContentParser_reports : noContentParser.Reports noContent :=
  noContentParser_reports_at (Nat.zero_mod 25)

def heapOf (bytes : Bytes) : Heap :=
  .init fun _ => ⟨none, bytes.length, bytes.length, fun i => bytes.getD i 0⟩

end SofaBolt.Http
