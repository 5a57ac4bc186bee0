import SofaBolt.UriLaws

namespace SofaBolt.URI

variable {u : URI} {needSchema needUserInfo : Bool} {begun a p w s : Bytes} {c : UInt8}

def hasMark (s : Bytes) : Prop := questionMark ∈ s ∨ hash ∈ s

instance (s : Bytes) : Decidable (hasMark s) := inferInstanceAs (Decidable (_ ∨ _))

theorem hasMark_cons : hasMark (c :: s) ↔ (c = questionMark ∨ c = hash) ∨ hasMark s := by
  simp only [hasMark, List.mem_cons, eq_comm]
  tauto

theorem isAllSpace_cons_space (s : Bytes) : isAllSpace (space :: s) = isAllSpace s := by
  rw [isAllSpace, List.dropWhile_cons_of_pos (by simp)]
  rfl

/-- What the first loop makes of text without spaces and then of spaces. -/
theorem scanAuthority_then_blank (ha : space ∉ a) (hw : ∀ c ∈ w.head?, c = space) :
    scanAuthority u needSchema needUserInfo begun (a ++ w) =
      (scanAuthority u needSchema needUserInfo begun a).bind fun r =>
        r.2.elim (some r) fun s =>
          if s.2 = [] then scanAuthority r.1 true true s.1 w
          else some (r.1, some (s.1, s.2 ++ w)) := by
  induction a using scan_induction generalizing u needSchema needUserInfo begun with
  | nil =>
    cases w with
    | nil => rfl
    | cons c w =>
      obtain rfl := hw c rfl
      simp [scanAuthority, scanAuthority_blank]
  | cons c a ih ihslash =>
    rw [List.mem_cons, not_or] at ha
    cases round needSchema needUserInfo c a with
    | outside h =>
      rw [List.cons_append, scanAuthority_outside h, scanAuthority_outside h]
      rfl
    | stop h =>
      rw [List.cons_append, scanAuthority_stop h, scanAuthority_stop h]
      rfl
    | schema hc p hp hs =>
      subst hc hp hs
      simp only [List.mem_cons, not_or] at ha
      rw [scanAuthority_schema, ← ihslash p rfl ha.2.2.2]
      exact scanAuthority_schema ..
    | user hc hu =>
      subst hc hu
      rw [scanAuthority_user, ← ih ha.2]
      exact scanAuthority_user ..
    | blank hc => exact absurd hc.symm ha.1
    | pass h128 hstop hspace hcolon hat =>
      have htake : (a ++ w).take 2 = [slash, slash] → a.take 2 = [slash, slash] := by
        intro h
        rcases a with _ | ⟨x, _ | ⟨y, a⟩⟩
        · cases w with
          | nil => cases h
          | cons d w =>
            obtain rfl := hw d rfl
            cases (List.cons.inj h).1
        · cases w with
          | nil => cases (List.cons.inj h).2
          | cons d w =>
            obtain rfl := hw d rfl
            cases (List.cons.inj (List.cons.inj h).2).1
        · exact h
      rw [List.cons_append,
        scanAuthority_pass h128 hstop hspace (fun h => hcolon ⟨h.1, htake h.2.1, h.2.2⟩) hat,
        scanAuthority_pass h128 hstop hspace hcolon hat, ih ha.2]

/-- Text without spaces is not refused, and a query or a fragment comes behind the
authority. -/
theorem scanAuthority_no_space {v : URI} {next : Option (Bytes × Bytes)} (ha : space ∉ a)
    (h : scanAuthority u needSchema needUserInfo begun a = some (v, next)) :
    ∃ x p, next = some (x, p) ∧ v.parseOk = u.parseOk ∧ IsTail p ∧ space ∉ p ∧
      (hasMark p ↔ hasMark a) := by
  induction a using scan_induction generalizing u needSchema needUserInfo begun with
  | nil =>
    obtain ⟨rfl, rfl⟩ := Prod.mk.inj (Option.some.inj h)
    exact ⟨begun, [], rfl, rfl, by simp [IsTail], ha, Iff.rfl⟩
  | cons c a ih ihslash =>
    have ha' := ha
    rw [List.mem_cons, not_or] at ha'
    cases round needSchema needUserInfo c a with
    | outside hc =>
      rw [scanAuthority_outside hc] at h
      cases h
    | stop hc =>
      rw [scanAuthority_stop hc] at h
      obtain ⟨rfl, rfl⟩ := Prod.mk.inj (Option.some.inj h)
      refine ⟨begun, c :: a, rfl, rfl, ?_, ha, Iff.rfl⟩
      intro d hd
      obtain rfl := Option.some.inj hd
      exact hc
    | schema hc p hp hs =>
      subst hc hp hs
      simp only [List.mem_cons, not_or] at ha'
      rw [scanAuthority_schema] at h
      obtain ⟨x, p', hnext, hok, htail, hspace, hmark⟩ := ihslash p rfl ha'.2.2.2 h
      refine ⟨x, p', hnext, hok, htail, hspace, ?_⟩
      simp [hmark, hasMark_cons, colon, slash, questionMark, hash]
    | user hc hu =>
      subst hc hu
      rw [scanAuthority_user] at h
      obtain ⟨x, p', hnext, hok, htail, hspace, hmark⟩ := ih ha'.2 h
      refine ⟨x, p', hnext, hok, htail, hspace, ?_⟩
      simp [hmark, hasMark_cons, atSign, questionMark, hash]
    | blank hc => exact absurd hc.symm ha'.1
    | pass h128 hstop hspace hcolon hat =>
      rw [scanAuthority_pass h128 hstop hspace hcolon hat] at h
      obtain ⟨x, p', hnext, hok, htail, hspace, hmark⟩ := ih ha'.2 h
      have hne : ¬ (c = questionMark ∨ c = hash) := fun h => hstop (h.elim (.inr ∘ .inr) .inl)
      refine ⟨x, p', hnext, hok, htail, hspace, ?_⟩
      rw [hmark, hasMark_cons, or_iff_right hne]

theorem while_blank (inPart : UInt8 → Bool) (hin : inPart space = false)
    (hw : ∀ c ∈ w.head?, c = space) (s : Bytes) :
    (s ++ w).takeWhile inPart = s.takeWhile inPart ∧
      (s ++ w).dropWhile inPart = s.dropWhile inPart ++ w := by
  induction s with
  | nil =>
    cases w with
    | nil => exact ⟨rfl, rfl⟩
    | cons c w =>
      obtain rfl := hw c rfl
      simp [hin]
  | cons c s ih =>
    cases hc : inPart c with
    | false => simp [hc]
    | true => simp [hc, ih.1, ih.2]

theorem space_notMem_dropWhile (hs : space ∉ s) (inPart : UInt8 → Bool) :
    space ∉ s.dropWhile inPart :=
  fun h => hs ((List.dropWhile_suffix inPart).subset h)

theorem scanPart_blank {mark : UInt8} {inPart : UInt8 → Bool} (hin : inPart space = false)
    (hw : ∀ c ∈ w.head?, c = space) (hs : space ∉ s) :
    scanPart mark inPart (mark :: (s ++ w)) =
      if s.dropWhile inPart = [] ∧ ¬ isAllSpace w then none
      else some (some (s.takeWhile inPart), s.dropWhile inPart ++ w) := by
  obtain ⟨htake, hdrop⟩ := while_blank inPart hin hw s
  rw [scanPart, if_pos rfl]
  simp only [htake, hdrop]
  refine if_congr ?_ rfl rfl
  cases hrest : s.dropWhile inPart with
  | nil =>
    cases w with
    | nil => simp [isAllSpace]
    | cons c w =>
      obtain rfl := hw c rfl
      simp [isAllSpace_cons_space]
  | cons c rest =>
    have hc : c ≠ space := by
      rintro rfl
      exact space_notMem_dropWhile hs inPart (hrest ▸ List.mem_cons_self)
    simp [hc]

theorem scanFragment_blank (hw : ∀ c ∈ w.head?, c = space) (hs : space ∉ s) :
    scanFragment (hash :: (s ++ w)) = if isAllSpace w then some (some s, w) else none := by
  have hall : ∀ c ∈ s, decide (c ≠ space) = true := by
    intro c hc
    refine decide_eq_true ?_
    rintro rfl
    exact hs hc
  rw [scanFragment, scanPart_blank (by simp) hw hs, List.takeWhile_eq_self_iff.mpr hall,
    List.dropWhile_eq_nil_iff.mpr hall]
  cases isAllSpace w <;> rfl

/-- From the mark of the query or the fragment on, spaces are accepted at the end only. -/
theorem restParts_blank (hc : c = questionMark ∨ c = hash) (hs : space ∉ s) :
    ∃ parts parts' : Option Bytes × Option Bytes, ∀ w : Bytes, (∀ c ∈ w.head?, c = space) →
      restParts (c :: (s ++ w)) = if isAllSpace w then (parts, true) else (parts', false) := by
  rcases hc with rfl | rfl
  · have hin : (fun c : UInt8 => decide (c ≠ hash ∧ c ≠ space)) space = false := rfl
    cases hrest : s.dropWhile fun c => c ≠ hash ∧ c ≠ space with
    | nil =>
      refine ⟨(some (s.takeWhile fun c => c ≠ hash ∧ c ≠ space), none), (none, none), ?_⟩
      intro w hw
      have hblank : scanFragment w = some (none, w) :=
        scanPart_none fun h => absurd (hw hash h) (by decide)
      rw [restParts, scanQuery, scanPart_blank hin hw hs, hrest]
      cases isAllSpace w <;> simp [hblank]
    | cons d f =>
      have hspace : space ≠ d ∧ space ∉ f := by
        have h := space_notMem_dropWhile hs fun c => c ≠ hash ∧ c ≠ space
        rwa [hrest, List.mem_cons, not_or] at h
      have hd : d = hash := by
        have hhead := List.head?_dropWhile_not (fun c : UInt8 => decide (c ≠ hash ∧ c ≠ space)) s
        rw [hrest] at hhead
        by_contra hne
        simp [hne, hspace.1.symm] at hhead
      refine ⟨(some (s.takeWhile fun c => c ≠ hash ∧ c ≠ space), some f),
        (some (s.takeWhile fun c => c ≠ hash ∧ c ≠ space), none), ?_⟩
      intro w hw
      rw [restParts, scanQuery, scanPart_blank hin hw hs, hrest, if_neg (by simp), hd,
        List.cons_append]
      simp only [scanFragment_blank hw hspace.2]
      cases isAllSpace w <;> rfl
  · refine ⟨(none, some s), (none, none), ?_⟩
    intro w hw
    have hquery : scanQuery (hash :: (s ++ w)) = some (none, hash :: (s ++ w)) :=
      scanPart_none (by simp [hash, questionMark])
    rw [restParts, hquery]
    simp only [scanFragment_blank hw hs]
    cases isAllSpace w <;> rfl

theorem head_pathRest (hp : space ∉ p) :
    ∀ c ∈ (p.dropWhile inPath).head?, c = questionMark ∨ c = hash := by
  intro c hc
  have hhead := List.head?_dropWhile_not inPath p
  rw [Option.mem_def.mp hc] at hhead
  have hspace : c ≠ space := by
    rintro rfl
    exact space_notMem_dropWhile hp inPath (List.mem_of_head? hc)
  by_contra hne
  rw [not_or] at hne
  simp [inPath, hne.1, hne.2, hspace] at hhead

theorem hasMark_slash_iff (hp : space ∉ p) : hasMark (slash :: p) ↔ p.dropWhile inPath ≠ [] := by
  rw [hasMark_cons, or_iff_right (by decide), ne_eq, List.dropWhile_eq_nil_iff]
  constructor
  · rintro (h | h) hall
    · exact absurd (hall _ h) (by decide)
    · exact absurd (hall _ h) (by decide)
  · intro hall
    by_contra hno
    refine hall fun c hc => decide_eq_true ⟨?_, ?_, ?_⟩
    · rintro rfl
      exact hno (.inl hc)
    · rintro rfl
      exact hno (.inr hc)
    · rintro rfl
      exact hp hc

theorem scanPath_slash_blank (u : URI) (hp : space ∉ p) (hw : ∀ c ∈ w.head?, c = space) :
    scanPath u (slash :: p ++ w) =
      if p.dropWhile inPath = [] ∧ w ≠ [] ∧ isAllSpace w then ({ u with parseOk := false }, none)
      else ({ u with path := slash :: p.takeWhile inPath }, some (p.dropWhile inPath ++ w)) := by
  have hrest := space_notMem_dropWhile hp inPath
  obtain ⟨htake, hdrop⟩ := while_blank inPath rfl hw p
  have hpath : (fun c => decide (c ≠ questionMark ∧ c ≠ hash ∧ c ≠ space)) = inPath := rfl
  rw [List.cons_append, scanPath, if_pos rfl]
  simp only [hpath, htake, hdrop]
  refine if_congr ?_ rfl rfl
  cases hdrop' : p.dropWhile inPath with
  | nil =>
    cases w with
    | nil => simp
    | cons d w =>
      obtain rfl := hw d rfl
      simp
  | cons d f =>
    rw [hdrop'] at hrest
    have hd : d ≠ space := fun h => hrest (h ▸ List.mem_cons_self)
    simp [hd]

theorem scanPath_blank (htail : IsTail p) (hp : space ∉ p) :
    ∃ (path : Option Bytes) (rest : Bytes), (p ≠ [] → path = none → rest ≠ []) ∧
      (∀ c ∈ rest.head?, c = questionMark ∨ c = hash) ∧ space ∉ rest ∧
      (hasMark p ↔ rest ≠ []) ∧ ∀ (u : URI) (w : Bytes), (∀ c ∈ w.head?, c = space) →
        scanPath u (p ++ w) =
          if path ≠ none ∧ rest = [] ∧ w ≠ [] ∧ isAllSpace w then
            ({ u with parseOk := false }, none)
          else ({ u with path := path.getD u.path }, some (rest ++ w)) := by
  cases p with
  | nil =>
    refine ⟨none, [], absurd rfl, by simp, hp, by simp [hasMark], fun u w hw => ?_⟩
    exact scanPath_none fun h => absurd (hw slash h) (by decide)
  | cons c p =>
    by_cases hc : c = slash
    · subst hc
      obtain ⟨-, hp⟩ := not_or.mp (mt List.mem_cons.mpr hp)
      refine ⟨some (slash :: p.takeWhile inPath), p.dropWhile inPath, by simp, head_pathRest hp,
        space_notMem_dropWhile hp inPath, hasMark_slash_iff hp, fun u w hw => ?_⟩
      rw [scanPath_slash_blank u hp hw]
      simp
    · have hmark : c = questionMark ∨ c = hash := by
        rcases htail c rfl with h | h | h
        · exact .inr h
        · exact absurd h hc
        · exact .inl h
      refine ⟨none, c :: p, by simp, ?_, hp, ?_, ?_⟩
      · intro d hd
        exact Option.some.inj hd ▸ hmark
      · simp [hasMark_cons, hmark]
      · intro u w hw
        rw [if_neg (by simp)]
        exact scanPath_none (by simpa using hc)

/-- What follows the authority, and then spaces: they are accepted at the end if there
is a query or a fragment, and before other characters if there is none. -/
theorem scanTail_blank (htail : IsTail p) (hp : space ∉ p) (hw : ∀ c ∈ w.head?, c = space)
    (hne : w ≠ []) :
    (hasMark p → isAllSpace w = true → scanTail u (p ++ w) = scanTail u p) ∧
      (p ≠ [] ∨ isAllSpace w = false → (scanTail u (p ++ w)).parseOk =
        (u.parseOk && (decide (hasMark p) == isAllSpace w))) := by
  obtain ⟨path, rest, hpath, hhead, hspace, hmark, hscan⟩ := scanPath_blank htail hp
  unfold scanTail
  rw [hscan u w hw]
  cases rest with
  | nil =>
    have hno : ¬ hasMark p := by simpa using hmark
    refine ⟨fun h => absurd h hno, fun hcase => ?_⟩
    split_ifs with hrefuse
    · simp [hno, hrefuse.2.2.2]
    · have hall : isAllSpace w = false := by
        rcases hcase with hcase | hcase
        · have hsome : path ≠ none := fun h => hpath hcase h rfl
          by_contra hall
          exact hrefuse ⟨hsome, rfl, hne, by simpa using hall⟩
        · exact hcase
      simp [scanRest_eq, restParts_of_blank hw, hno, hall]
  | cons c f =>
    have hyes : hasMark p := by simpa using hmark
    obtain ⟨-, hf⟩ := not_or.mp (mt List.mem_cons.mpr hspace)
    obtain ⟨parts, parts', hparts⟩ := restParts_blank (hhead c rfl) hf
    have hscan₀ := hscan u [] (by simp)
    have hparts₀ := hparts [] (by simp)
    rw [List.append_nil] at hscan₀ hparts₀
    rw [if_pos (by rfl)] at hparts₀
    rw [hscan₀, if_neg (by simp), if_neg (by simp)]
    simp only [List.cons_append, List.append_nil, scanRest_eq, hparts w hw, hparts₀]
    constructor
    · intro _ hall
      rw [if_pos hall]
    · intro _
      cases isAllSpace w <;> simp [hyes]

theorem parse_blank (u : URI) (n : ℕ) (ha : a ≠ []) (ha0 : 0 ∉ a) (hs : space ∉ a)
    (hw : ∀ c ∈ w.head?, c = space) (hne : w ≠ []) (hw0 : 0 ∉ w) :
    (hasMark a → isAllSpace w = true →
      u.parseFromString (List.replicate n space ++ (a ++ w)) = u.parseFromString a) ∧
    ∀ r, u.parseFromString (List.replicate n space ++ (a ++ w)) = some r →
      r.parseOk = (decide (hasMark a) == isAllSpace w) := by
  have hhead : a.head? ≠ some space := fun h => hs (List.mem_of_head? h)
  have hhead' : (a ++ w).head? ≠ some space := by rwa [List.head?_append_of_ne_nil a ha]
  have h0 : 0 ∉ a ++ w := fun h => (List.mem_append.mp h).elim ha0 hw0
  have hstart : start a = a := start_spaces 0 ha0 hhead
  rw [parseFromString_eq, parseFromString_eq, start_spaces n h0 hhead', hstart,
    scanAuthority_then_blank hs hw]
  cases hscan : scanAuthority u.clear true true [] a with
  | none => simp
  | some next =>
    obtain ⟨v, next⟩ := next
    obtain ⟨x, p, rfl, hok, htail, hp, hmark⟩ := scanAuthority_no_space hs hscan
    replace hok : v.parseOk = true := hok
    simp only [Option.bind_some, Option.elim_some, ← hmark]
    have htails := fun r : Bytes × ℤ =>
      scanTail_blank (u := { v with host := r.1, port := r.2 }) htail hp hw hne
    by_cases hnil : p = []
    · subst hnil
      have hno : ¬ hasMark [] := by simp [hasMark]
      refine ⟨fun h => absurd h hno, fun r hr => ?_⟩
      obtain ⟨c, w, rfl⟩ := List.exists_cons_of_ne_nil hne
      obtain rfl := hw c rfl
      rw [if_pos rfl, scanAuthority_blank] at hr
      split_ifs at hr with hall
      · obtain rfl := Option.some.inj hr
        simp [hno, hall]
      · obtain ⟨r', -, rfl⟩ := Option.map_eq_some_iff.mp hr
        exact ((htails r').2 (.inr (by simpa using hall))).trans (by rw [hok, Bool.true_and])
    · rw [if_neg hnil]
      constructor
      · intro hm hall
        exact congrArg (Option.map · _) (funext fun r => (htails r).1 hm hall)
      · intro r hr
        obtain ⟨r', -, rfl⟩ := Option.map_eq_some_iff.mp hr
        exact ((htails r').2 (.inl hnil)).trans (by rw [hok, Bool.true_and])

theorem isAllSpace_replicate (n : ℕ) : isAllSpace (List.replicate n space) = true := by
  refine decide_eq_true (List.dropWhile_eq_nil_iff.mpr fun c hc => ?_)
  exact decide_eq_true (List.eq_of_mem_replicate hc)

/-- Spaces behind a URL change nothing exactly if it has a query or a fragment (or is
empty), and a space before other characters refuses a URL exactly if it is in the query
or the fragment. -/
theorem parse_spaces_iff (u : URI) :
    (∀ (s : Bytes) (n : ℕ) (r : URI), 0 ∉ s → space ∉ s → u.parseFromString s = some r →
      r.parseOk = true →
        (u.parseFromString (s ++ List.replicate n space) = some r ↔
          n = 0 ∨ s = [] ∨ hasMark s)) ∧
    ∀ (n : ℕ) (a b : Bytes), a ≠ [] → 0 ∉ a → 0 ∉ b → space ∉ a → (∃ c ∈ b, c ≠ space) →
      InBounds (List.replicate n space ++ (a ++ space :: b)) →
        ∃ r, u.parseFromString (List.replicate n space ++ (a ++ space :: b)) = some r ∧
          (r.parseOk = false ↔ hasMark a) := by
  refine ⟨fun s n r h0 hs hr hok => ?_, fun n a b ha ha0 hb0 hs hb hin => ?_⟩
  · by_cases hn : n = 0
    · subst hn
      simpa using hr
    by_cases hnil : s = []
    · subst hnil
      have hstart : start (List.replicate n space ++ []) = start [] :=
        start_spaces n h0 (by simp)
      rw [parseFromString_eq, ← hstart, ← parseFromString_eq, List.append_nil] at hr
      simpa using hr
    have hhead : ∀ c ∈ (List.replicate n space).head?, c = space := fun c hc =>
      List.eq_of_mem_replicate (List.mem_of_head? hc)
    have hzero : 0 ∉ List.replicate n space := fun h =>
      absurd (List.eq_of_mem_replicate h) (by decide)
    obtain ⟨hsame, hbad⟩ := parse_blank u 0 hnil h0 hs hhead (by simpa using hn) hzero
    rw [List.replicate_zero, List.nil_append] at hsame hbad
    simp only [hn, hnil, false_or]
    constructor
    · intro heq
      have hparse := hbad r heq
      rw [hok, isAllSpace_replicate] at hparse
      simpa using hparse
    · intro hmark
      rw [hsame hmark (isAllSpace_replicate n), hr]
  · obtain ⟨r, hr⟩ := Option.isSome_iff_exists.mp ((parseFromString_isSome u _).mpr hin)
    have hall : isAllSpace (space :: b) = false := by
      obtain ⟨c, hc, hne⟩ := hb
      rw [isAllSpace_cons_space]
      refine decide_eq_false fun h => hne ?_
      simpa using List.dropWhile_eq_nil_iff.mp h c hc
    have hb0 : 0 ∉ space :: b := fun h => (List.mem_cons.mp h).elim (by decide) hb0
    have hparse := (parse_blank u n ha ha0 hs (by simp) (List.cons_ne_nil space b) hb0).2 r hr
    refine ⟨r, hr, ?_⟩
    rw [hparse, hall]
    simp

theorem parse_spaces_sample :
    (URI.new 0).parseFromString ([104, 63, 113] ++ List.replicate 2 space) =
        some ⟨[], [104], [], [], [113], [], -1, true⟩ ∧
      ∃ r, (URI.new 0).parseFromString (List.replicate 1 space ++ ([104, 35] ++ space :: [120])) =
        some r ∧ (r.parseOk = false ↔ hasMark [104, 35]) :=
  ⟨((parse_spaces_iff (.new 0)).1 [104, 63, 113] 2 _ (by decide) (by decide) (by decide +kernel)
      rfl).mpr (by decide),
    (parse_spaces_iff (.new 0)).2 1 [104, 35] [120] (by decide) (by decide) (by decide) (by decide)
      (by decide) (by decide +kernel)⟩

/-- In the authority and in the path it is the other way round: `h ` and `h/p ` are
refused, `h x` and `h/p x` are not. -/
theorem spaces_not_alike :
    ((URI.new 0).parseFromString [104]).map parseOk = some true ∧
      ((URI.new 0).parseFromString [104, 32]).map parseOk = some false ∧
      ((URI.new 0).parseFromString [104, 32, 120]).map parseOk = some true ∧
      ((URI.new 0).parseFromString [104, 47, 112]).map parseOk = some true ∧
      ((URI.new 0).parseFromString [104, 47, 112, 32]).map parseOk = some false ∧
      ((URI.new 0).parseFromString [104, 47, 112, 32, 120]).map parseOk = some true := by
  decide +kernel

end SofaBolt.URI
