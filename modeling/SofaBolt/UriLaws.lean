import Mathlib.Data.List.TakeWhile
import SofaBolt.HttpMessage
import SofaBolt.Uri

namespace SofaBolt.URI

open HttpMessage (decimal isDigit isDigit_of_mem_decimal)

variable {u u' : URI} {needSchema needUserInfo : Bool} {begun a p rest : Bytes} {c : UInt8}

def start (url : Bytes) : Bytes := (url.takeWhile (· ≠ 0)).dropWhile (· = space)

def scanTail (u : URI) (p : Bytes) : URI :=
  match scanPath u p with
  | (u, none) => u
  | (u, some p) => u.scanRest p

def scanHost (u : URI) (authority p : Bytes) : Option URI :=
  (splitHostAndPort authority).map fun r => scanTail { u with host := r.1, port := r.2 } p

theorem parseFromString_eq (u : URI) (url : Bytes) :
    u.parseFromString url = (scanAuthority u.clear true true [] (start url)).bind fun r =>
      r.2.elim (some r.1) fun s => scanHost r.1 s.1 s.2 := by
  change (scanAuthority u.clear true true [] (start url)).bind _ = _
  refine congrArg _ (funext fun r => ?_)
  obtain ⟨v, _ | ⟨authority, p⟩⟩ := r
  · rfl
  · change (splitHostAndPort authority).bind _ = (splitHostAndPort authority).map _
    cases splitHostAndPort authority with
    | none => rfl
    | some r =>
      simp only [Option.bind_some, Option.map_some, scanTail]
      generalize scanPath { v with host := r.1, port := r.2 } p = t
      obtain ⟨w, _ | p⟩ := t <;> rfl

theorem scanAuthority_cons (u : URI) (needSchema needUserInfo : Bool) (begun : Bytes) (c : UInt8)
    (p : Bytes) :
    scanAuthority u needSchema needUserInfo begun (c :: p) =
      if 128 ≤ c then none
      else if c = hash ∨ c = slash ∨ c = questionMark then some (u, some (begun, c :: p))
      else if c = colon then
        if p.take 2 = [slash, slash] ∧ needSchema then
          scanAuthority { u with schema := begun } false needUserInfo [] (p.drop 2)
        else scanAuthority u needSchema needUserInfo (begun ++ [c]) p
      else if c = atSign then
        if needUserInfo then scanAuthority { u with userInfo := begun } needSchema false [] p
        else scanAuthority u needSchema needUserInfo (begun ++ [c]) p
      else if c = space then
        if isAllSpace (c :: p) then some ({ u with parseOk := false }, none)
        else some (u, some (begun, c :: p))
      else scanAuthority u needSchema needUserInfo (begun ++ [c]) p := by
  rcases p with _ | ⟨a, _ | ⟨b, p⟩⟩
  · simp [scanAuthority]
  · simp [scanAuthority]
  · simp [scanAuthority, and_assoc]

inductive Round (needSchema needUserInfo : Bool) (c : UInt8) (p : Bytes) : Prop where
  | outside (h : 128 ≤ c)
  | stop (h : c = hash ∨ c = slash ∨ c = questionMark)
  | schema (hc : c = colon) (p' : Bytes) (hp : p = slash :: slash :: p') (hs : needSchema = true)
  | user (hc : c = atSign) (hu : needUserInfo = true)
  | blank (hc : c = space)
  | pass (h128 : c < 128) (hstop : ¬ (c = hash ∨ c = slash ∨ c = questionMark))
      (hspace : c ≠ space)
      (hcolon : ¬ (c = colon ∧ p.take 2 = [slash, slash] ∧ needSchema = true))
      (hat : ¬ (c = atSign ∧ needUserInfo = true))

theorem round (needSchema needUserInfo : Bool) (c : UInt8) (p : Bytes) :
    Round needSchema needUserInfo c p := by
  by_cases h128 : 128 ≤ c
  · exact .outside h128
  by_cases hstop : c = hash ∨ c = slash ∨ c = questionMark
  · exact .stop hstop
  by_cases hcolon : c = colon ∧ p.take 2 = [slash, slash] ∧ needSchema = true
  · refine .schema hcolon.1 (p.drop 2) ?_ hcolon.2.2
    conv_lhs => rw [← List.take_append_drop 2 p, hcolon.2.1]
    rfl
  by_cases hat : c = atSign ∧ needUserInfo = true
  · exact .user hat.1 hat.2
  by_cases hspace : c = space
  · exact .blank hspace
  exact .pass (UInt8.not_le.mp h128) hstop hspace hcolon hat

theorem scanAuthority_outside (h : 128 ≤ c) :
    scanAuthority u needSchema needUserInfo begun (c :: p) = none := by
  rw [scanAuthority_cons, if_pos h]

theorem scanAuthority_stop (h : c = hash ∨ c = slash ∨ c = questionMark) :
    scanAuthority u needSchema needUserInfo begun (c :: p) = some (u, some (begun, c :: p)) := by
  have h128 : ¬ 128 ≤ c := by
    rcases h with rfl | rfl | rfl <;> decide
  rw [scanAuthority_cons, if_neg h128, if_pos h]

theorem scanAuthority_schema (u : URI) (needUserInfo : Bool) (begun p : Bytes) :
    scanAuthority u true needUserInfo begun (colon :: slash :: slash :: p) =
      scanAuthority { u with schema := begun } false needUserInfo [] p := by
  rw [scanAuthority_cons]
  rfl

theorem scanAuthority_user (u : URI) (needSchema : Bool) (begun p : Bytes) :
    scanAuthority u needSchema true begun (atSign :: p) =
      scanAuthority { u with userInfo := begun } needSchema false [] p := by
  rw [scanAuthority_cons]
  rfl

theorem scanAuthority_blank (u : URI) (needSchema needUserInfo : Bool) (begun p : Bytes) :
    scanAuthority u needSchema needUserInfo begun (space :: p) =
      if isAllSpace (space :: p) then some ({ u with parseOk := false }, none)
      else some (u, some (begun, space :: p)) := by
  rw [scanAuthority_cons]
  rfl

theorem scanAuthority_pass (h128 : c < 128) (hstop : ¬ (c = hash ∨ c = slash ∨ c = questionMark))
    (hspace : c ≠ space) (hcolon : ¬ (c = colon ∧ p.take 2 = [slash, slash] ∧ needSchema = true))
    (hat : ¬ (c = atSign ∧ needUserInfo = true)) :
    scanAuthority u needSchema needUserInfo begun (c :: p) =
      scanAuthority u needSchema needUserInfo (begun ++ [c]) p := by
  rw [scanAuthority_cons, if_neg (UInt8.not_le.mpr h128), if_neg hstop, if_neg hspace]
  split_ifs with h₁ h₂ h₃ h₄
  · exact absurd ⟨h₁, h₂⟩ hcolon
  · rfl
  · exact absurd ⟨h₃, h₄⟩ hat
  · rfl
  · rfl

/-- The loop goes on with the next character or with the one after two slashes. -/
theorem scan_induction {motive : Bytes → Prop} (nil : motive [])
    (cons : ∀ c p, motive p → (∀ p', p = slash :: slash :: p' → motive p') → motive (c :: p))
    (p : Bytes) : motive p := by
  induction hn : p.length using Nat.strong_induction_on generalizing p with
  | _ n ih =>
    cases p with
    | nil => exact nil
    | cons c p =>
      rw [List.length_cons] at hn
      refine cons c p (ih p.length (by omega) p rfl) fun p' hp => ih p'.length ?_ p' rfl
      rw [hp, List.length_cons, List.length_cons] at hn
      omega

def IsTail (rest : Bytes) : Prop :=
  ∀ c ∈ rest.head?, c = hash ∨ c = slash ∨ c = questionMark

theorem scanAuthority_tail (hrest : IsTail rest) :
    scanAuthority u needSchema needUserInfo begun rest = some (u, some (begun, rest)) := by
  cases rest with
  | nil => rfl
  | cons c p => exact scanAuthority_stop (hrest c rfl)

/-- The characters the first loop looks up in `action_map`, but for the one it ends at. -/
def scanned (needSchema : Bool) : Bytes → Bytes
  | [] => []
  | c :: p =>
    if c = hash ∨ c = slash ∨ c = questionMark ∨ c = space then []
    else if c = colon then
      match p with
      | a :: b :: p' =>
        if a = slash ∧ b = slash ∧ needSchema then c :: scanned false p'
        else c :: scanned needSchema (a :: b :: p')
      | p => c :: scanned needSchema p
    else c :: scanned needSchema p

def digitsAtEnd (a : Bytes) : ℕ := (a.tail.reverse.takeWhile isDigit).length

def target (url : Bytes) : Option (Bytes × Bytes) :=
  (scanAuthority (.new 0) true true [] (start url)).bind Prod.snd

def authority (url : Bytes) : Bytes := (target url).elim [] Prod.fst

/-- The condition for the parser to stay within `action_map` and within `int`. -/
def InBounds (url : Bytes) : Prop :=
  (scanned true (start url)).all (· < 128) ∧ digitsAtEnd (authority url) ≤ 9

instance (url : Bytes) : Decidable (InBounds url) := inferInstanceAs (Decidable (_ ∧ _))

theorem scanned_stop (h : c = hash ∨ c = slash ∨ c = questionMark ∨ c = space) :
    scanned needSchema (c :: p) = [] := by
  rcases p with _ | ⟨a, _ | ⟨b, p⟩⟩ <;> simp [scanned, h]

theorem scanned_pass (hstop : ¬ (c = hash ∨ c = slash ∨ c = questionMark)) (hspace : c ≠ space)
    (hcolon : ¬ (c = colon ∧ p.take 2 = [slash, slash] ∧ needSchema = true)) :
    scanned needSchema (c :: p) = c :: scanned needSchema p := by
  have hnot : ¬ (c = hash ∨ c = slash ∨ c = questionMark ∨ c = space) := by
    simpa [hspace] using hstop
  rcases p with _ | ⟨a, _ | ⟨b, p⟩⟩
  · simp [scanned, hnot]
  · simp [scanned, hnot]
  · by_cases hc : c = colon
    · have hslash : ¬ (a = slash ∧ b = slash ∧ needSchema = true) := by
        simpa [hc, and_assoc] using hcolon
      rw [scanned, if_neg hnot, if_pos hc, if_neg hslash]
    · rw [scanned, if_neg hnot, if_neg hc]

theorem scanAuthority_isSome (u : URI) (needSchema needUserInfo : Bool) (begun p : Bytes) :
    (scanAuthority u needSchema needUserInfo begun p).isSome =
      (scanned needSchema p).all (· < 128) := by
  induction p using scan_induction generalizing u needSchema needUserInfo begun with
  | nil => rfl
  | cons c p ih ihslash =>
    cases round needSchema needUserInfo c p with
    | outside h =>
      have hne : ∀ d : UInt8, d < 128 → c ≠ d := fun d hd heq => UInt8.not_le.mpr hd (heq ▸ h)
      have hstop : ¬ (c = hash ∨ c = slash ∨ c = questionMark) := by
        simp [hne hash (by decide), hne slash (by decide), hne questionMark (by decide)]
      rw [scanAuthority_outside h, scanned_pass hstop (hne space (by decide))
        fun hc => hne colon (by decide) hc.1]
      simp [UInt8.not_lt.mpr h]
    | stop h =>
      rw [scanAuthority_stop h, scanned_stop (by tauto)]
      rfl
    | schema hc p' hp hs =>
      subst hc hp hs
      rw [scanAuthority_schema, ihslash p' rfl]
      rfl
    | user hc hu =>
      subst hc hu
      rw [scanAuthority_user, ih, scanned_pass (by decide) (by decide) fun hc => by cases hc.1]
      rfl
    | blank hc =>
      subst hc
      rw [scanAuthority_blank, apply_ite Option.isSome, scanned_stop (by tauto)]
      exact ite_self _
    | pass h128 hstop hspace hcolon hat =>
      rw [scanAuthority_pass h128 hstop hspace hcolon hat, ih, scanned_pass hstop hspace hcolon,
        List.all_cons, decide_eq_true h128, Bool.true_and]

theorem splitLoop_isSome {k port : ℕ} (hk : k ≤ 9) (hport : port < 10 ^ k) (r : Bytes) :
    (splitLoop port (10 ^ k) r).isSome ↔ k + (r.dropLast.takeWhile isDigit).length ≤ 9 := by
  induction r generalizing k port with
  | nil => simpa [splitLoop] using hk
  | cons c r ih =>
    cases r with
    | nil => simpa [splitLoop] using hk
    | cons d r =>
      rw [splitLoop, List.dropLast_cons_cons]
      by_cases hc : 48 ≤ c ∧ c ≤ 57
      · have hdigit : isDigit c = true := by simpa [isDigit] using hc
        have hval : c.toNat - 48 ≤ 9 := by
          have := UInt8.le_iff_toNat_le.mp hc.2
          simp at this
          omega
        have hport' : port + (c.toNat - 48) * 10 ^ k < 10 ^ (k + 1) := by
          rw [pow_succ]
          nlinarith
        rw [if_pos hc, List.takeWhile_cons_of_pos hdigit, List.length_cons]
        by_cases hk' : k + 1 ≤ 9
        · have hpow : 10 ^ (k + 1) ≤ 10 ^ 9 := Nat.pow_le_pow_right (by decide) hk'
          have hfits : port + (c.toNat - 48) * 10 ^ k < 2 ^ 31 ∧ 10 ^ (k + 1) < 2 ^ 31 :=
            ⟨by omega, by omega⟩
          simp only [← pow_succ]
          rw [if_pos hfits, ih hk' hport']
          omega
        · have hk9 : k = 9 := by omega
          subst hk9
          simp
      · have hdigit : isDigit c = false := by
          rw [Bool.eq_false_iff]
          intro h
          exact hc (by simpa [isDigit] using h)
        rw [if_neg hc, List.takeWhile_cons_of_neg (by simp [hdigit])]
        split_ifs <;> simpa using hk

theorem splitHostAndPort_isSome (a : Bytes) :
    (splitHostAndPort a).isSome ↔ digitsAtEnd a ≤ 9 := by
  have h : (splitLoop 0 (10 ^ 0) a.reverse).isSome ↔ _ :=
    splitLoop_isSome (by decide) (by decide) a.reverse
  rw [List.dropLast_reverse, Nat.zero_add, pow_zero] at h
  rw [splitHostAndPort, Option.isSome_map]
  exact h

theorem scanAuthority_rel {R : URI → URI → Prop}
    (hschema : ∀ u v s, R u v → R { u with schema := s } { v with schema := s })
    (huser : ∀ u v s, R u v → R { u with userInfo := s } { v with userInfo := s })
    (hok : ∀ u v, R u v → R { u with parseOk := false } { v with parseOk := false })
    {u v : URI} (h : R u v) (needSchema needUserInfo : Bool) (begun p : Bytes) :
    Option.Rel (fun x y => R x.1 y.1 ∧ x.2 = y.2) (scanAuthority u needSchema needUserInfo begun p)
      (scanAuthority v needSchema needUserInfo begun p) := by
  induction p using scan_induction generalizing u v needSchema needUserInfo begun with
  | nil => exact .some ⟨h, rfl⟩
  | cons c p ih ihslash =>
    cases round needSchema needUserInfo c p with
    | outside hc =>
      rw [scanAuthority_outside hc, scanAuthority_outside hc]
      exact .none
    | stop hc =>
      rw [scanAuthority_stop hc, scanAuthority_stop hc]
      exact .some ⟨h, rfl⟩
    | schema hc p' hp hs =>
      subst hc hp hs
      rw [scanAuthority_schema, scanAuthority_schema]
      exact ihslash p' rfl (hschema _ _ _ h) _ _ _
    | user hc hu =>
      subst hc hu
      rw [scanAuthority_user, scanAuthority_user]
      exact ih (huser _ _ _ h) _ _ _
    | blank hc =>
      subst hc
      rw [scanAuthority_blank, scanAuthority_blank]
      split_ifs
      · exact .some ⟨hok _ _ h, rfl⟩
      · exact .some ⟨h, rfl⟩
    | pass h128 hstop hspace hcolon hat =>
      rw [scanAuthority_pass h128 hstop hspace hcolon hat,
        scanAuthority_pass h128 hstop hspace hcolon hat]
      exact ih h _ _ _

theorem target_eq (u : URI) (url : Bytes) :
    target url = (scanAuthority u true true [] (start url)).bind Prod.snd := by
  have hrel := scanAuthority_rel (R := fun _ _ => True) (fun _ _ _ => id) (fun _ _ _ => id)
    (fun _ _ => id) (u := u) (v := .new 0) trivial true true [] (start url)
  unfold target
  generalize scanAuthority u true true [] (start url) = r at hrel ⊢
  generalize scanAuthority (.new 0) true true [] (start url) = r₀ at hrel ⊢
  cases hrel with
  | none => rfl
  | some h => simp only [Option.bind_some, h.2]

theorem parseFromString_isSome (u : URI) (url : Bytes) :
    (u.parseFromString url).isSome ↔ InBounds url := by
  rw [parseFromString_eq, InBounds, ← scanAuthority_isSome u.clear true true [], authority,
    target_eq u.clear]
  cases scanAuthority u.clear true true [] (start url) with
  | none => simp
  | some r =>
    obtain ⟨v, _ | ⟨a, p⟩⟩ := r
    · simp [digitsAtEnd]
    · simp [scanHost, splitHostAndPort_isSome]

theorem start_spaces (n : ℕ) {s : Bytes} (h0 : 0 ∉ s) (hspace : s.head? ≠ some space) :
    start (List.replicate n space ++ s) = s := by
  have htake : (List.replicate n space ++ s).takeWhile (· ≠ 0) = List.replicate n space ++ s := by
    refine List.takeWhile_eq_self_iff.mpr fun c hc => decide_eq_true ?_
    rintro rfl
    rcases List.mem_append.mp hc with hc | hc
    · exact absurd (List.eq_of_mem_replicate hc) (by decide)
    · exact h0 hc
  rw [start, htake, List.dropWhile_append_of_pos fun c hc =>
    decide_eq_true (List.eq_of_mem_replicate hc)]
  cases s with
  | nil => rfl
  | cons c s =>
    refine List.dropWhile_cons_of_neg ?_
    simpa using hspace

theorem scanPath_none (h : p.head? ≠ some slash) : scanPath u p = (u, some p) := by
  cases p with
  | nil => rfl
  | cons c p =>
    have hc : c ≠ slash := fun hc => h (congrArg some hc)
    rw [scanPath, if_neg hc]

theorem scanPart_none {mark : UInt8} {inPart : UInt8 → Bool} (h : p.head? ≠ some mark) :
    scanPart mark inPart p = some (none, p) := by
  cases p with
  | nil => rfl
  | cons c p =>
    have hc : c ≠ mark := fun hc => h (congrArg some hc)
    rw [scanPart, if_neg hc]

def restParts (p : Bytes) : (Option Bytes × Option Bytes) × Bool :=
  match scanQuery p with
  | none => ((none, none), false)
  | some (query, p) =>
    match scanFragment p with
    | none => ((query, none), false)
    | some (fragment, _) => ((query, fragment), true)

theorem scanRest_eq (u : URI) (p : Bytes) :
    u.scanRest p =
      { u with
        query := (restParts p).1.1.getD u.query
        fragment := (restParts p).1.2.getD u.fragment
        parseOk := u.parseOk && (restParts p).2 } := by
  unfold scanRest restParts
  cases scanQuery p with
  | none => simp
  | some r =>
    simp only
    cases scanFragment r.2 <;> simp

def tailParts (p : Bytes) : Option Bytes × Option Bytes :=
  (scanPath (.new 0) p).2.elim (none, none) fun p => (restParts p).1

def assigned (url : Bytes) : Option Bytes × Option Bytes :=
  (target url).elim (none, none) fun s => tailParts s.2

def inPath (c : UInt8) : Bool := c ≠ questionMark ∧ c ≠ hash ∧ c ≠ space

/-- The part behind the schema: what follows the first `://`, unless a `#`, a `/`, a `?` or a
space comes before it. -/
def behindSchema : Bytes → Option Bytes
  | [] => none
  | c :: p =>
    if c = hash ∨ c = slash ∨ c = questionMark ∨ c = space then none
    else if c = colon ∧ p.take 2 = [slash, slash] then some (p.drop 2)
    else behindSchema p

/-- The part behind authority and path: from the first `?`, `#` or space behind the schema on. -/
def behindPath (url : Bytes) : Bytes :=
  ((behindSchema (start url)).getD (start url)).dropWhile inPath

/-- Behind the path comes `?` and the query, up to a `#` or to spaces at the end. -/
def HasQuery (url query : Bytes) : Prop :=
  ∃ r, behindPath url = questionMark :: (query ++ r) ∧ (∀ c ∈ query, c ≠ hash ∧ c ≠ space) ∧
    (r.head? = some hash ∨ ∀ c ∈ r, c = space)

/-- Behind the path, and behind `?` and a query if there is one, comes `#` and the fragment,
up to spaces at the end. -/
def HasFragment (url fragment : Bytes) : Prop :=
  ∃ (query : Option Bytes) (r : Bytes),
    behindPath url = query.elim [] (questionMark :: ·) ++ hash :: (fragment ++ r) ∧
      (∀ c ∈ query.getD [], c ≠ hash ∧ c ≠ space) ∧ (∀ c ∈ fragment, c ≠ space) ∧
      ∀ c ∈ r, c = space

theorem takeWhile_dropWhile_append (inPart : UInt8 → Bool) {s : Bytes}
    (hs : ∀ c ∈ s, inPart c = true) (hrest : ∀ c ∈ rest.head?, inPart c = false) :
    (s ++ rest).takeWhile inPart = s ∧ (s ++ rest).dropWhile inPart = rest := by
  rw [List.takeWhile_append_of_pos hs, List.dropWhile_append_of_pos hs]
  cases rest with
  | nil => simp
  | cons c rest =>
    have hc := hrest c rfl
    rw [List.takeWhile_cons_of_neg (by simp [hc]), List.dropWhile_cons_of_neg (by simp [hc]),
      List.append_nil]
    exact ⟨rfl, rfl⟩

theorem isAllSpace_iff {s : Bytes} : isAllSpace s = true ↔ ∀ c ∈ s, c = space := by
  simp [isAllSpace, List.dropWhile_eq_nil_iff]

theorem scanPart_eq_some_iff {mark : UInt8} {inPart : UInt8 → Bool} {s : Bytes} :
    scanPart mark inPart p = some (some s, rest) ↔
      p = mark :: (s ++ rest) ∧ (∀ c ∈ s, inPart c = true) ∧
        (∀ c ∈ rest.head?, inPart c = false) ∧ (rest.head? = some space → ∀ c ∈ rest, c = space) := by
  have hblank : ∀ r : Bytes, ¬ (r.head? = some space ∧ ¬ isAllSpace r.tail = true) ↔
      (r.head? = some space → ∀ c ∈ r, c = space) := by
    intro r
    cases r with
    | nil => simp
    | cons c r =>
      have hhead : (c :: r).head? = some space ↔ c = space := by simp
      rw [hhead, not_and_not_right, List.tail_cons, isAllSpace_iff, List.forall_mem_cons]
      exact ⟨fun h hc => ⟨hc, h hc⟩, fun h hc => (h hc).2⟩
  constructor
  · intro h
    cases p with
    | nil => cases h
    | cons c p =>
      simp only [scanPart] at h
      split_ifs at h with hc hr
      · obtain ⟨hs, rfl⟩ := Prod.mk.inj (Option.some.inj h)
        obtain rfl := Option.some.inj hs
        refine ⟨by rw [hc, List.takeWhile_append_dropWhile], fun c hc => ?_, fun c hc => ?_,
          (hblank _).mp hr⟩
        · exact List.all_eq_true.mp List.all_takeWhile c hc
        · have hhead := List.head?_dropWhile_not inPart p
          rwa [Option.mem_def.mp hc] at hhead
      · cases (Prod.mk.inj (Option.some.inj h)).1
  · rintro ⟨rfl, hs, hrest, hr⟩
    obtain ⟨htake, hdrop⟩ := takeWhile_dropWhile_append inPart hs hrest
    rw [scanPart, if_pos rfl]
    simp only [htake, hdrop]
    rw [if_neg ((hblank rest).mpr hr)]

theorem eq_of_scanPart_none {mark : UInt8} {inPart : UInt8 → Bool}
    (h : scanPart mark inPart p = some (none, rest)) : rest = p := by
  cases p with
  | nil => exact (Prod.mk.inj (Option.some.inj h)).2.symm
  | cons c p =>
    simp only [scanPart] at h
    split_ifs at h
    · cases (Prod.mk.inj (Option.some.inj h)).1
    · exact (Prod.mk.inj (Option.some.inj h)).2.symm

theorem scanQuery_eq_some_iff {query : Bytes} :
    (∃ r, scanQuery p = some (some query, r)) ↔
      ∃ r, p = questionMark :: (query ++ r) ∧ (∀ c ∈ query, c ≠ hash ∧ c ≠ space) ∧
        (r.head? = some hash ∨ ∀ c ∈ r, c = space) := by
  refine exists_congr fun r => ?_
  rw [scanQuery, scanPart_eq_some_iff]
  refine and_congr_right fun _ => and_congr (by simp) ?_
  cases r with
  | nil => simp
  | cons c r =>
    by_cases hc : c = hash
    · simp [hc, hash, space]
    · by_cases hs : c = space
      · subst hs
        simp [hc]
      · simp [hc, hs]

theorem scanFragment_eq_some_iff {fragment : Bytes} :
    scanFragment p = some (some fragment, rest) ↔
      p = hash :: (fragment ++ rest) ∧ (∀ c ∈ fragment, c ≠ space) ∧ ∀ c ∈ rest, c = space := by
  rw [scanFragment, scanPart_eq_some_iff]
  refine and_congr_right fun _ => and_congr (by simp) ?_
  cases rest with
  | nil => simp
  | cons c r => by_cases hs : c = space <;> simp [hs]

theorem restParts_query {query : Bytes} :
    (restParts p).1.1 = some query ↔ ∃ r, scanQuery p = some (some query, r) := by
  unfold restParts
  cases scanQuery p with
  | none => simp
  | some r =>
    obtain ⟨o, r⟩ := r
    simp only
    cases scanFragment r <;> simp

theorem restParts_fragment {fragment : Bytes} :
    (restParts p).1.2 = some fragment ↔
      ∃ query r r', scanQuery p = some (query, r) ∧ scanFragment r = some (some fragment, r') := by
  unfold restParts
  cases scanQuery p with
  | none => simp
  | some r =>
    obtain ⟨o, r⟩ := r
    simp only
    cases hf : scanFragment r with
    | none => simp [hf]
    | some f => simp [hf, Prod.ext_iff]

theorem restParts_fragment_iff {fragment : Bytes} :
    (restParts p).1.2 = some fragment ↔
      ∃ (query : Option Bytes) (r : Bytes),
        p = query.elim [] (questionMark :: ·) ++ hash :: (fragment ++ r) ∧
          (∀ c ∈ query.getD [], c ≠ hash ∧ c ≠ space) ∧ (∀ c ∈ fragment, c ≠ space) ∧
          ∀ c ∈ r, c = space := by
  rw [restParts_fragment]
  constructor
  · rintro ⟨query, r, r', hq, hf⟩
    obtain ⟨rfl, hfree, hblank⟩ := scanFragment_eq_some_iff.mp hf
    cases query with
    | none => exact ⟨none, r', (eq_of_scanPart_none hq).symm, by simp, hfree, hblank⟩
    | some query =>
      obtain ⟨rfl, hin, -⟩ := scanPart_eq_some_iff.mp hq
      exact ⟨some query, r', rfl, by simpa using hin, hfree, hblank⟩
  · rintro ⟨query, r, rfl, hin, hfree, hblank⟩
    refine ⟨query, hash :: (fragment ++ r), r, ?_, scanFragment_eq_some_iff.mpr ⟨rfl, hfree, hblank⟩⟩
    cases query with
    | none => exact scanPart_none (by simp [hash, questionMark])
    | some query =>
      refine scanPart_eq_some_iff.mpr ⟨rfl, by simpa using hin, ?_, ?_⟩
      · simp [hash]
      · simp [hash, space]

theorem restParts_of_blank {w : Bytes} (hw : ∀ c ∈ w.head?, c = space) :
    restParts w = ((none, none), true) := by
  have hquery : scanQuery w = some (none, w) :=
    scanPart_none fun h => absurd (hw questionMark h) (by decide)
  have hfragment : scanFragment w = some (none, w) :=
    scanPart_none fun h => absurd (hw hash h) (by decide)
  rw [restParts, hquery]
  simp only
  rw [hfragment]

theorem tailParts_eq (hp : ∀ c ∈ p.head?, c = hash ∨ c = slash ∨ c = questionMark ∨ c = space) :
    tailParts p = (restParts (p.dropWhile inPath)).1 := by
  cases p with
  | nil => rfl
  | cons c p =>
    by_cases hc : c = slash
    · subst hc
      have hdrop : (slash :: p).dropWhile inPath = p.dropWhile inPath :=
        List.dropWhile_cons_of_pos (by decide)
      have hpath : (fun c => decide (c ≠ questionMark ∧ c ≠ hash ∧ c ≠ space)) = inPath := rfl
      rw [hdrop, tailParts, scanPath, if_pos rfl]
      simp only [hpath]
      split_ifs with hblank
      · -- spaces up to the end: the URL is refused, and there are no marks in it
        rw [restParts_of_blank fun c hc => (isAllSpace_iff.mp hblank.2) c (List.mem_of_mem_head? hc)]
        rfl
      · rfl
    · have hmark : inPath c = false := by
        rcases hp c rfl with rfl | rfl | rfl | rfl
        · rfl
        · exact absurd rfl hc
        · rfl
        · rfl
      rw [tailParts, scanPath_none (by simpa using hc), List.dropWhile_cons_of_neg (by simp [hmark])]
      rfl

def body (needSchema : Bool) (p : Bytes) : Bytes :=
  if needSchema then (behindSchema p).getD p else p

theorem body_pass (hin : inPath c = true) (hslash : c ≠ slash)
    (hcolon : ¬ (c = colon ∧ p.take 2 = [slash, slash] ∧ needSchema = true)) :
    (body needSchema (c :: p)).dropWhile inPath = (body needSchema p).dropWhile inPath := by
  have hdrop : (c :: p).dropWhile inPath = p.dropWhile inPath := List.dropWhile_cons_of_pos hin
  cases needSchema with
  | false => exact hdrop
  | true =>
    have hstop : ¬ (c = hash ∨ c = slash ∨ c = questionMark ∨ c = space) := by
      simp only [inPath, decide_eq_true_eq] at hin
      tauto
    have hschema : behindSchema (c :: p) = behindSchema p := by
      rw [behindSchema, if_neg hstop, if_neg fun h => hcolon ⟨h.1, h.2, rfl⟩]
    simp only [body, if_true, hschema]
    cases behindSchema p with
    | none => exact hdrop
    | some p' => rfl

theorem body_stop (hc : c = hash ∨ c = slash ∨ c = questionMark ∨ c = space) :
    body needSchema (c :: p) = c :: p := by
  cases needSchema with
  | false => rfl
  | true => rw [body, if_pos rfl, behindSchema, if_pos hc]; rfl

/-- The first loop ends in front of the path, or in spaces that reach to the end. -/
theorem scanAuthority_body {v : URI} {next : Option (Bytes × Bytes)}
    (h : scanAuthority u needSchema needUserInfo begun p = some (v, next)) :
    (∀ s, next = some s → (∀ c ∈ s.2.head?, c = hash ∨ c = slash ∨ c = questionMark ∨ c = space) ∧
        s.2.dropWhile inPath = (body needSchema p).dropWhile inPath) ∧
      (next = none → ∀ c ∈ ((body needSchema p).dropWhile inPath).head?, c = space) := by
  induction p using scan_induction generalizing u needSchema needUserInfo begun with
  | nil =>
    obtain ⟨rfl, rfl⟩ := Prod.mk.inj (Option.some.inj h)
    refine ⟨?_, by simp⟩
    rintro s ⟨⟩
    cases needSchema <;> simp [body, behindSchema]
  | cons c p ih ihslash =>
    cases round needSchema needUserInfo c p with
    | outside hc =>
      rw [scanAuthority_outside hc] at h
      cases h
    | stop hc =>
      rw [scanAuthority_stop hc] at h
      obtain ⟨rfl, rfl⟩ := Prod.mk.inj (Option.some.inj h)
      have hc' : c = hash ∨ c = slash ∨ c = questionMark ∨ c = space := by tauto
      refine ⟨?_, by simp⟩
      rintro s ⟨⟩
      exact ⟨by simpa using hc', by rw [body_stop hc']⟩
    | schema hc p' hp hs =>
      subst hc hp hs
      rw [scanAuthority_schema] at h
      exact ihslash p' rfl h
    | user hc hu =>
      subst hc hu
      rw [scanAuthority_user] at h
      rw [body_pass (by decide) (by decide) fun hc => absurd hc.1 (by decide)]
      exact ih h
    | blank hc =>
      subst hc
      have hc' : space = hash ∨ space = slash ∨ space = questionMark ∨ space = space := by tauto
      rw [scanAuthority_blank] at h
      rw [body_stop hc']
      split_ifs at h
      · obtain ⟨rfl, rfl⟩ := Prod.mk.inj (Option.some.inj h)
        exact ⟨by simp, by simp [inPath]⟩
      · obtain ⟨rfl, rfl⟩ := Prod.mk.inj (Option.some.inj h)
        refine ⟨?_, by simp⟩
        rintro s ⟨⟩
        exact ⟨by simp, rfl⟩
    | pass h128 hstop hspace hcolon hat =>
      rw [scanAuthority_pass h128 hstop hspace hcolon hat] at h
      rw [body_pass (decide_eq_true (by tauto)) (by tauto) hcolon]
      exact ih h

/-- Within bounds, the parts a URL assigns are those behind its path. -/
theorem assigned_eq {url : Bytes} (hb : InBounds url) :
    assigned url = (restParts (behindPath url)).1 := by
  rw [InBounds, ← scanAuthority_isSome (.new 0) true true []] at hb
  obtain ⟨⟨v, next⟩, hscan⟩ := Option.isSome_iff_exists.mp hb.1
  obtain ⟨hsome, hnone⟩ := scanAuthority_body hscan
  rw [assigned, target, hscan, Option.bind_some]
  cases next with
  | none =>
    have hblank := restParts_of_blank (hnone rfl)
    exact (congrArg Prod.fst hblank).symm
  | some s =>
    obtain ⟨hhead, hdrop⟩ := hsome s rfl
    rw [Option.elim_some, tailParts_eq hhead, hdrop]
    rfl

theorem assigned_query_iff {url query : Bytes} (hb : InBounds url) :
    (assigned url).1 = some query ↔ HasQuery url query := by
  rw [assigned_eq hb, restParts_query]
  exact scanQuery_eq_some_iff

theorem assigned_fragment_iff {url fragment : Bytes} (hb : InBounds url) :
    (assigned url).2 = some fragment ↔ HasFragment url fragment := by
  rw [assigned_eq hb]
  exact restParts_fragment_iff

def keep (u : URI) (parts : Option Bytes × Option Bytes) (r : URI) : URI :=
  { r with query := parts.1.getD u.query, fragment := parts.2.getD u.fragment }

theorem scanPath_cases (p : Bytes) :
    (∃ (path : Option Bytes) (rest : Bytes),
      ∀ u, scanPath u p = ({ u with path := path.getD u.path }, some rest)) ∨
        ∀ u, scanPath u p = ({ u with parseOk := false }, none) := by
  cases p with
  | nil => exact .inl ⟨none, [], fun u => rfl⟩
  | cons c p =>
    simp only [scanPath]
    split_ifs
    · exact .inr fun u => rfl
    · exact .inl ⟨some _, _, fun u => rfl⟩
    · exact .inl ⟨none, _, fun u => rfl⟩

theorem scanTail_keep (u v : URI) (p : Bytes) :
    scanTail (keep u (none, none) v) p = keep u (tailParts p) (scanTail v p) := by
  unfold scanTail tailParts
  rcases scanPath_cases p with ⟨path, rest, h⟩ | h
  · rw [h, h, h]
    simp only [scanRest_eq, keep, Option.getD_none, Option.elim_some]
  · rw [h, h, h]
    rfl

/-- Two URIs that parse the same URL differ only in the query and the fragment that it
does not assign. -/
theorem parseFromString_keep (u v : URI) (url : Bytes) :
    u.parseFromString url = (v.parseFromString url).map (keep u (assigned url)) := by
  have hrel := scanAuthority_rel (R := fun x y => x = keep u (none, none) y)
    (fun x y s h => by rw [h]; rfl) (fun x y s h => by rw [h]; rfl) (fun x y h => by rw [h]; rfl)
    (u := u.clear) (v := v.clear) rfl true true [] (start url)
  rw [parseFromString_eq, parseFromString_eq, assigned, target_eq v.clear]
  generalize scanAuthority u.clear true true [] (start url) = r at hrel ⊢
  generalize scanAuthority v.clear true true [] (start url) = r₀ at hrel ⊢
  cases hrel with
  | none => rfl
  | @some x y h =>
    obtain ⟨x, next⟩ := x
    obtain ⟨y, next'⟩ := y
    obtain ⟨rfl, rfl⟩ : x = keep u (none, none) y ∧ next = next' := h
    cases next with
    | none => rfl
    | some s =>
      simp only [Option.bind_some, Option.elim_some, scanHost, Option.map_map]
      exact congrArg (Option.map · _) (funext fun r =>
        scanTail_keep u { y with host := r.1, port := r.2 } s.2)

theorem parts_of_new {port : ℤ} {url : Bytes} (h : (URI.new port).parseFromString url = some u) :
    u.query = (assigned url).1.getD [] ∧ u.fragment = (assigned url).2.getD [] := by
  have hkeep := parseFromString_keep (.new port) (.new port) url
  rw [h, Option.map_some, Option.some_inj] at hkeep
  exact ⟨congrArg query hkeep, congrArg fragment hkeep⟩

theorem parse_again_iff_assigned (port port' : ℤ) {a : Bytes}
    (ha : (URI.new port).parseFromString a = some u) (b : Bytes) :
    u.parseFromString b = (URI.new port').parseFromString b ↔
      (InBounds b → ((assigned b).1 = none → (assigned a).1.getD [] = []) ∧
        ((assigned b).2 = none → (assigned a).2.getD [] = [])) := by
  obtain ⟨hquery, hfragment⟩ := parts_of_new ha
  rw [← hquery, ← hfragment, ← parseFromString_isSome (.new port'),
    parseFromString_keep u (.new port')]
  cases hb : (URI.new port').parseFromString b with
  | none => simp
  | some r =>
    obtain ⟨hq, hf⟩ := parts_of_new hb
    rw [Option.map_some, Option.some_inj]
    have hsame : keep u (assigned b) r = r ↔
        (assigned b).1.getD u.query = (assigned b).1.getD [] ∧
          (assigned b).2.getD u.fragment = (assigned b).2.getD [] := by
      rw [← hq, ← hf]
      exact ⟨fun h => ⟨congrArg query h, congrArg fragment h⟩,
        fun h => by rw [keep, h.1, h.2]⟩
    have hpart : ∀ (o : Option Bytes) (s : Bytes), o.getD s = o.getD [] ↔ (o = none → s = []) := by
      intro o s
      cases o <;> simp
    rw [hsame, hpart, hpart]
    simp

theorem none_and_nil_iff {o : Option Bytes} {P : Bytes → Prop} (h : ∀ s, o = some s ↔ P s) :
    (o = none ↔ ∀ s, ¬ P s) ∧ (o.getD [] = [] ↔ ∀ s, P s → s = []) := by
  simp only [← h]
  cases o <;> simp

/-- A URI that has parsed `a` parses `b` as a fresh one does exactly if every part that
`a` has left in it, of query and fragment, is there in `b` too. -/
theorem parse_again_iff (port port' : ℤ) {a : Bytes}
    (ha : (URI.new port).parseFromString a = some u) (b : Bytes) :
    u.parseFromString b = (URI.new port').parseFromString b ↔
      (InBounds b →
        ((∀ query, ¬ HasQuery b query) → ∀ query, HasQuery a query → query = []) ∧
        ((∀ fragment, ¬ HasFragment b fragment) →
          ∀ fragment, HasFragment a fragment → fragment = [])) := by
  have hin : InBounds a := (parseFromString_isSome (.new port) a).mp (by rw [ha]; rfl)
  rw [parse_again_iff_assigned port port' ha]
  refine forall_congr' fun hb => ?_
  rw [(none_and_nil_iff fun _ => assigned_query_iff hb).1,
    (none_and_nil_iff fun _ => assigned_query_iff hin).2,
    (none_and_nil_iff fun _ => assigned_fragment_iff hb).1,
    (none_and_nil_iff fun _ => assigned_fragment_iff hin).2]

def withParts : URI := ⟨[], [104], [], [], [113], [102], -1, true⟩

theorem parse_again_withParts :
    (URI.new 5).parseFromString [104, 63, 113, 35, 102] = some withParts ∧
      withParts.parseFromString [103, 47, 120, 63, 114, 35] =
        (URI.new 6).parseFromString [103, 47, 120, 63, 114, 35] := by
  have hparts : (URI.new 5).parseFromString [104, 63, 113, 35, 102] = some withParts := by
    decide +kernel
  have hquery : HasQuery [103, 47, 120, 63, 114, 35] [114] :=
    ⟨[35], by decide +kernel, by simp [hash, space], .inl rfl⟩
  have hfragment : HasFragment [103, 47, 120, 63, 114, 35] [] :=
    ⟨some [114], [], by decide +kernel, by simp [hash, space], by simp, by simp⟩
  exact ⟨hparts, (parse_again_iff 5 6 hparts _).mpr fun _ =>
    ⟨fun h => absurd hquery (h _), fun h => absurd hfragment (h _)⟩⟩

/-- `h?q#f` and then `h`: the query and the fragment stay. -/
theorem parts_not_forgotten :
    (URI.new 5).parseFromString [104, 63, 113, 35, 102] = some withParts ∧
      withParts.parseFromString [104] = some withParts ∧
      (URI.new 6).parseFromString [104] = some ⟨[], [104], [], [], [], [], -1, true⟩ := by
  decide +kernel

end SofaBolt.URI
