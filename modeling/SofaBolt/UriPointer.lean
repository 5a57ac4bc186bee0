import SofaBolt.CString
import SofaBolt.UriLaws

/- A pointer is an index into the buffer that ends with the null character; every read, every
index into `action_map` and every `int` is checked, and a loop may take as many rounds as
the buffer has characters. -/

namespace SofaBolt.UriPointer

open CString (Points)
open URI (space hash slash colon questionMark atSign)

inductive Fault where
  | pastEnd
  | actionMap
  | overflow
  | endless
deriving DecidableEq, Repr

def read (m : Bytes) (p : ℕ) : Except Fault UInt8 :=
  match m[p]? with
  | some c => .ok c
  | none => .error .pastEnd

/-- `assign(begin, end - begin)`. -/
def assign (m : Bytes) (b e : ℕ) : Except Fault Bytes :=
  if b ≤ e ∧ e ≤ m.length then .ok ((m.drop b).take (e - b)) else .error .pastEnd

/-- `while (*p == ' ') ++p`. -/
def skipSpaces (m : Bytes) : ℕ → ℕ → Except Fault ℕ
  | 0, _ => .error .endless
  | fuel + 1, p => do
    let c ← read m p
    if c = space then skipSpaces m fuel (p + 1) else .ok p

def isAllSpace (m : Bytes) (p : ℕ) : Except Fault Bool := do
  let p ← skipSpaces m m.length p
  let c ← read m p
  .ok (c = 0)

/-- `p[1] == '/' && p[2] == '/'`. -/
def twoSlashes (m : Bytes) (p : ℕ) : Except Fault Bool := do
  let a ← read m (p + 1)
  if a = slash then do
    let b ← read m (p + 2)
    .ok (b = slash)
  else .ok false

/-- The first loop, which ends with `begin` and `p`, unless the URL is refused. -/
def authorityLoop (m : Bytes) :
    ℕ → URI → Bool → Bool → ℕ → ℕ → Except Fault (URI × Option (ℕ × ℕ))
  | 0, _, _, _, _, _ => .error .endless
  | fuel + 1, u, needSchema, needUserInfo, b, p => do
    let c ← read m p
    if 128 ≤ c then .error .actionMap
    else if c = 0 ∨ c = hash ∨ c = slash ∨ c = questionMark then .ok (u, some (b, p))
    else if c = colon then do
      let isSchema ← twoSlashes m p
      if isSchema && needSchema then do
        let schema ← assign m b p
        authorityLoop m fuel { u with schema } false needUserInfo (p + 3) (p + 3)
      else authorityLoop m fuel u needSchema needUserInfo b (p + 1)
    else if c = atSign then
      if needUserInfo then do
        let userInfo ← assign m b p
        authorityLoop m fuel { u with userInfo } needSchema false (p + 1) (p + 1)
      else authorityLoop m fuel u needSchema needUserInfo b (p + 1)
    else if c = space then do
      let refused ← isAllSpace m p
      if refused then .ok ({ u with parseOk := false }, none) else .ok (u, some (b, p))
    else authorityLoop m fuel u needSchema needUserInfo b (p + 1)

def splitLoop (m : Bytes) (b port multiply : ℕ) : ℕ → Except Fault (Option (ℕ × ℕ))
  | 0 => .ok none
  | q + 1 =>
    if b < q + 1 then do
      let c ← read m (q + 1)
      if 48 ≤ c ∧ c ≤ 57 then
        let port' := port + (c.toNat - 48) * multiply
        if port' < 2 ^ 31 ∧ multiply * 10 < 2 ^ 31 then splitLoop m b port' (multiply * 10) q
        else .error .overflow
      else if c = colon then .ok (some (port, q + 1))
      else .ok none
    else .ok none

def splitHostAndPort (m : Bytes) (b e : ℕ) : Except Fault (ℕ × ℤ) := do
  let r ← splitLoop m b 0 1 (e - 1)
  match r with
  | some (port, q) => .ok (q, port)
  | none => .ok (e, -1)

/-- The loops over path, query and fragment: where one ends, unless it refuses the URL
at a space. -/
def partLoop (m : Bytes) (stop : UInt8 → Bool) (refuses : ℕ → Except Fault Bool) :
    ℕ → ℕ → Except Fault (Option ℕ)
  | 0, _ => .error .endless
  | fuel + 1, p => do
    let c ← read m p
    if c = 0 ∨ stop c then .ok (some p)
    else if c = space then do
      let refused ← refuses p
      .ok (if refused then none else some p)
    else partLoop m stop refuses fuel (p + 1)

def parsePath (m : Bytes) (u : URI) (p : ℕ) : Except Fault (URI × Option ℕ) := do
  let c ← read m p
  if c = slash then do
    let r ← partLoop m (fun c => c = questionMark ∨ c = hash) (isAllSpace m) m.length (p + 1)
    match r with
    | none => .ok ({ u with parseOk := false }, none)
    | some e => do
      let path ← assign m p e
      .ok ({ u with path }, some e)
  else .ok (u, some p)

def parsePart (m : Bytes) (mark : UInt8) (stop : UInt8 → Bool) (p : ℕ) :
    Except Fault (Option (Option Bytes × ℕ)) := do
  let c ← read m p
  if c = mark then do
    let r ← partLoop m stop (fun p => (isAllSpace m (p + 1)).map not) m.length (p + 1)
    match r with
    | none => .ok none
    | some e => do
      let part ← assign m (p + 1) e
      .ok (some (some part, e))
  else .ok (some (none, p))

def parseRest (m : Bytes) (u : URI) (p : ℕ) : Except Fault URI := do
  let r ← parsePart m questionMark (fun c => c = hash) p
  match r with
  | none => .ok { u with parseOk := false }
  | some (query, p) => do
    let u := { u with query := query.getD u.query }
    let r ← parsePart m hash (fun _ => false) p
    match r with
    | none => .ok { u with parseOk := false }
    | some (fragment, _) => .ok { u with fragment := fragment.getD u.fragment }

def parseFromString (m : Bytes) (u : URI) : Except Fault URI := do
  let p ← skipSpaces m m.length 0
  let r ← authorityLoop m m.length u.clear true true p p
  match r with
  | (u, none) => .ok u
  | (u, some (b, p)) => do
    let (e, port) ← splitHostAndPort m b p
    let host ← assign m b e
    let r ← parsePath m { u with host, port } p
    match r with
    | (u, none) => .ok u
    | (u, some p) => parseRest m u p

variable {m s t a begun : Bytes} {p b fuel : ℕ} {c : UInt8} {u : URI}

theorem read_nil (h : Points m p []) : read m p = .ok 0 := by
  rw [read, h.getElem?_nil]

theorem read_cons (h : Points m p (c :: s)) : read m p = .ok c := by
  rw [read, h.getElem?_cons]

theorem assign_append (h : Points m p (s ++ t)) : assign m p (p + s.length) = .ok s := by
  have hlen := h.length_eq
  rw [List.length_append] at hlen
  rw [assign, if_pos ⟨by omega, by omega⟩, Nat.add_sub_cancel_left, h.take_eq]

theorem skipSpaces_eq (h : Points m p s) (hfuel : s.length < fuel) :
    ∃ q, skipSpaces m fuel p = .ok q ∧ Points m q (s.dropWhile (· = space)) := by
  induction s generalizing p fuel with
  | nil =>
    obtain ⟨fuel, rfl⟩ := Nat.exists_eq_add_of_lt hfuel
    refine ⟨p, ?_, h⟩
    simp only [skipSpaces, read_nil h, bind, Except.bind]
    rfl
  | cons c s ih =>
    obtain ⟨fuel, rfl⟩ : ∃ n, fuel = n + 1 := Nat.exists_eq_succ_of_ne_zero (by omega)
    simp only [skipSpaces, read_cons h, bind, Except.bind]
    by_cases hc : c = space
    · obtain ⟨q, hq, hpoints⟩ := ih h.next (by simpa using hfuel)
      refine ⟨q, ?_, ?_⟩
      · rw [if_pos hc, hq]
      · rwa [List.dropWhile_cons_of_pos (by simpa using hc)]
    · refine ⟨p, if_neg hc, ?_⟩
      rwa [List.dropWhile_cons_of_neg (by simpa using hc)]

theorem isAllSpace_eq (h : Points m p s) : isAllSpace m p = .ok (URI.isAllSpace s) := by
  obtain ⟨q, hq, hpoints⟩ := skipSpaces_eq h h.length_lt
  simp only [isAllSpace, hq, bind, Except.bind]
  cases hrest : s.dropWhile (· = space) with
  | nil =>
    rw [hrest] at hpoints
    rw [read_nil hpoints]
    simp [URI.isAllSpace, hrest]
  | cons d r =>
    rw [hrest] at hpoints
    rw [read_cons hpoints]
    simp [URI.isAllSpace, hrest, hpoints.ne_zero]

theorem twoSlashes_eq (h : Points m (p + 1) s) :
    twoSlashes m p = .ok (s.take 2 = [slash, slash]) := by
  have h0 : (0 : UInt8) ≠ slash := by decide
  cases s with
  | nil =>
    simp only [twoSlashes, read_nil h, bind, Except.bind]
    rfl
  | cons c s =>
    simp only [twoSlashes, read_cons h, bind, Except.bind]
    by_cases hc : c = slash
    · rw [if_pos hc]
      cases s with
      | nil =>
        rw [read_nil h.next]
        simp [h0]
      | cons d s =>
        rw [read_cons h.next]
        simp [hc]
    · rw [if_neg hc]
      cases s <;> simp [hc]

inductive Scanned (m : Bytes) :
    Option (URI × Option (Bytes × Bytes)) → Except Fault (URI × Option (ℕ × ℕ)) → Prop
  | fault : Scanned m none (.error .actionMap)
  | refused (u : URI) : Scanned m (some (u, none)) (.ok (u, none))
  | ended (u : URI) {b : ℕ} {a s : Bytes} (h : Points m b (a ++ s)) :
      Scanned m (some (u, some (a, s))) (.ok (u, some (b, b + a.length)))

theorem authorityLoop_scanned (u : URI) (needSchema needUserInfo : Bool)
    (h : Points m b (begun ++ s)) (hfuel : s.length < fuel) :
    Scanned m (URI.scanAuthority u needSchema needUserInfo begun s)
      (authorityLoop m fuel u needSchema needUserInfo b (b + begun.length)) := by
  induction s using URI.scan_induction generalizing fuel u needSchema needUserInfo begun b with
  | nil =>
    obtain ⟨fuel, rfl⟩ : ∃ n, fuel = n + 1 := Nat.exists_eq_succ_of_ne_zero (by omega)
    have hread := read_nil h.advance
    have hend : authorityLoop m (fuel + 1) u needSchema needUserInfo b (b + begun.length) =
        .ok (u, some (b, b + begun.length)) := by
      simp only [authorityLoop, hread, bind, Except.bind]
      rfl
    rw [hend]
    exact .ended u h
  | cons c s ih ihslash =>
    obtain ⟨fuel, rfl⟩ : ∃ n, fuel = n + 1 := Nat.exists_eq_succ_of_ne_zero (by omega)
    rw [List.length_cons, Nat.succ_lt_succ_iff] at hfuel
    have hat := h.advance
    have hne := hat.ne_zero
    have hnext : Points m b ((begun ++ [c]) ++ s) := by rwa [List.append_assoc]
    have hpos : b + begun.length + 1 = b + (begun ++ [c]).length := by simp [Nat.add_assoc]
    rw [URI.scanAuthority_cons]
    simp only [authorityLoop, read_cons hat, bind, Except.bind, twoSlashes_eq hat.next,
      assign_append h, isAllSpace_eq hat, hne, false_or, Bool.and_eq_true, decide_eq_true_eq]
    rw [hpos]
    split_ifs with h128 hstop hcolon hschema hat' huser hspace hall
    · exact .fault
    · exact .ended u h
    · have htwo : s = slash :: slash :: s.drop 2 := by
        conv_lhs => rw [← List.take_append_drop 2 s, hschema.1]
        rfl
      rw [htwo] at hat
      rw [htwo, List.length_cons, List.length_cons] at hfuel
      have hpoints : Points m (b + begun.length + 3) ([] ++ s.drop 2) := hat.next.next.next
      exact ihslash _ htwo _ _ _ hpoints (by omega)
    · exact ih _ _ _ hnext hfuel
    · have hpoints : Points m (b + (begun ++ [c]).length) ([] ++ s) := hpos ▸ hat.next
      exact ih _ _ _ hpoints hfuel
    · exact ih _ _ _ hnext hfuel
    · exact .refused _
    · exact .ended u h
    · exact ih _ _ _ hnext hfuel

theorem splitLoop_of_le {port multiply q : ℕ} (hq : q ≤ b) :
    splitLoop m b port multiply q = .ok none := by
  cases q with
  | zero => rfl
  | succ q => rw [splitLoop, if_neg (by omega)]

theorem splitLoop_eq {port multiply : ℕ} (h : Points m b (a ++ t)) :
    splitLoop m b port multiply (b + a.length - 1) =
      (URI.splitLoop port multiply a.reverse).elim (.error .overflow) fun r =>
        .ok (r.map fun x => (x.1, b + x.2.length)) := by
  induction a using List.reverseRecOn generalizing port multiply t with
  | nil => exact splitLoop_of_le (by simp)
  | append_singleton a c ih =>
    rw [List.append_assoc] at h
    rw [List.length_append, List.length_singleton, ← Nat.add_assoc, Nat.add_sub_cancel,
      List.reverse_append, List.reverse_singleton, List.singleton_append]
    cases hrev : a.reverse with
    | nil =>
      rw [List.reverse_eq_nil_iff.mp hrev]
      exact splitLoop_of_le le_rfl
    | cons d r =>
      have hlen : 0 < a.length := by
        rw [← List.length_reverse, hrev]
        exact Nat.succ_pos _
      have hback : (d :: r).reverse = a := by rw [← hrev, List.reverse_reverse]
      have hq : b + a.length = b + a.length - 1 + 1 := by omega
      have hread := read_cons (s := t) h.advance
      rw [hq] at hread ⊢
      rw [URI.splitLoop, splitLoop, if_pos (by omega)]
      simp only [hread, bind, Except.bind, ih h, hrev, hback]
      split_ifs with hdigit hfits hcolon
      · rfl
      · rfl
      · rw [← hq]
        rfl
      · rfl

theorem splitHostAndPort_eq (h : Points m b (a ++ t)) :
    splitHostAndPort m b (b + a.length) =
      (URI.splitHostAndPort a).elim (.error .overflow) fun r => .ok (b + r.1.length, r.2) := by
  simp only [splitHostAndPort, URI.splitHostAndPort, splitLoop_eq h, bind, Except.bind]
  rcases URI.splitLoop 0 1 a.reverse with _ | _ | r <;> rfl

theorem isPrefix_of_splitLoop {port multiply n : ℕ} {r host : Bytes}
    (h : URI.splitLoop port multiply r = some (some (n, host))) : host <+: r.reverse := by
  fun_induction URI.splitLoop port multiply r
  case case1 => cases Option.some.inj h
  case case2 => cases Option.some.inj h
  case case3 ih =>
    rw [List.reverse_cons]
    exact (ih h).trans (List.prefix_append _ _)
  case case4 => cases h
  case case5 =>
    obtain ⟨-, rfl⟩ := Prod.mk.inj (Option.some.inj (Option.some.inj h))
    exact List.reverse_prefix.mpr (List.suffix_cons _ _)
  case case6 => cases Option.some.inj h

theorem isPrefix_of_splitHostAndPort {host : Bytes} {port : ℤ}
    (h : URI.splitHostAndPort a = some (host, port)) : host <+: a := by
  obtain ⟨r, hr, heq⟩ := Option.map_eq_some_iff.mp h
  cases r with
  | none =>
    obtain ⟨rfl, rfl⟩ := Prod.mk.inj heq
    exact List.prefix_refl _
  | some r =>
    obtain ⟨rfl, rfl⟩ := Prod.mk.inj heq
    simpa using isPrefix_of_splitLoop hr

/-- Where a loop over a part ends, and what it does at a space. -/
theorem partLoop_eq (stop : UInt8 → Bool) (refuses : ℕ → Except Fault Bool)
    (inPart : UInt8 → Bool) (hin : ∀ c, inPart c = (!stop c && decide (c ≠ space)))
    (h : Points m p s) (hfuel : s.length < fuel) (hstop : stop space = false) :
    partLoop m stop refuses fuel p =
      if (s.dropWhile inPart).head? = some space then
        (refuses (p + (s.takeWhile inPart).length)).map fun refused =>
          if refused then none else some (p + (s.takeWhile inPart).length)
      else .ok (some (p + (s.takeWhile inPart).length)) := by
  induction s generalizing p fuel with
  | nil =>
    obtain ⟨fuel, rfl⟩ : ∃ n, fuel = n + 1 := Nat.exists_eq_succ_of_ne_zero (by omega)
    simp only [partLoop, read_nil h, bind, Except.bind]
    rfl
  | cons c s ih =>
    obtain ⟨fuel, rfl⟩ : ∃ n, fuel = n + 1 := Nat.exists_eq_succ_of_ne_zero (by omega)
    rw [List.length_cons, Nat.succ_lt_succ_iff] at hfuel
    simp only [partLoop, read_cons h, bind, Except.bind, h.ne_zero, false_or]
    by_cases hc : c = space
    · subst hc
      have hno : inPart space = false := by simp [hin]
      rw [List.takeWhile_cons_of_neg (by simp [hno]), List.dropWhile_cons_of_neg (by simp [hno]),
        if_neg (by simp [hstop]), if_pos rfl, if_pos List.head?_cons]
      cases refuses p <;> rfl
    · by_cases hs : stop c = true
      · have hno : inPart c = false := by simp [hin, hs]
        rw [List.takeWhile_cons_of_neg (by simp [hno]), List.dropWhile_cons_of_neg (by simp [hno]),
          if_pos hs, if_neg (by simpa using hc)]
        rfl
      · have hyes : inPart c = true := by simp [hin, hs, hc]
        rw [List.takeWhile_cons_of_pos hyes, List.dropWhile_cons_of_pos hyes, if_neg hs,
          if_neg hc, ih h.next hfuel, List.length_cons]
        simp only [Nat.add_assoc, Nat.add_comm 1]

theorem points_dropWhile (h : Points m p s) (inPart : UInt8 → Bool) :
    Points m (p + (s.takeWhile inPart).length) (s.dropWhile inPart) := by
  rw [← List.takeWhile_append_dropWhile (p := inPart) (l := s)] at h
  exact h.advance

theorem assign_takeWhile (h : Points m p s) (inPart : UInt8 → Bool) :
    assign m p (p + (s.takeWhile inPart).length) = .ok (s.takeWhile inPart) := by
  rw [← List.takeWhile_append_dropWhile (p := inPart) (l := s)] at h
  exact assign_append h

theorem assign_cons_takeWhile (h : Points m p (c :: s)) (inPart : UInt8 → Bool) :
    assign m p (p + 1 + (s.takeWhile inPart).length) = .ok (c :: s.takeWhile inPart) := by
  rw [← List.takeWhile_append_dropWhile (p := inPart) (l := s), ← List.cons_append] at h
  rw [Nat.add_assoc, Nat.add_comm 1]
  exact assign_append h

inductive PathScanned (m : Bytes) : URI × Option Bytes → Except Fault (URI × Option ℕ) → Prop
  | refused (u : URI) : PathScanned m (u, none) (.ok (u, none))
  | ended (u : URI) {p : ℕ} {s : Bytes} (h : Points m p s) :
      PathScanned m (u, some s) (.ok (u, some p))

theorem parsePath_scanned (u : URI) (h : Points m p s) :
    PathScanned m (URI.scanPath u s) (parsePath m u p) := by
  cases s with
  | nil =>
    have hparse : parsePath m u p = .ok (u, some p) := by
      simp only [parsePath, read_nil h, bind, Except.bind]
      rfl
    rw [hparse]
    exact .ended u h
  | cons c s =>
    simp only [URI.scanPath, parsePath, read_cons h, bind, Except.bind]
    by_cases hc : c = slash
    · have hloop := partLoop_eq (fun c => c = questionMark ∨ c = hash) (isAllSpace m)
        (fun c => c ≠ questionMark ∧ c ≠ hash ∧ c ≠ space) (fun c => by simp [Bool.and_assoc])
        h.next h.next.length_lt rfl
      have hpart := points_dropWhile h.next fun c => c ≠ questionMark ∧ c ≠ hash ∧ c ≠ space
      rw [if_pos hc, if_pos hc, hloop, isAllSpace_eq hpart]
      by_cases hspace : (s.dropWhile fun c => c ≠ questionMark ∧ c ≠ hash ∧ c ≠ space).head? =
          some space
      · rw [if_pos hspace]
        cases hall : URI.isAllSpace (s.dropWhile fun c => c ≠ questionMark ∧ c ≠ hash ∧ c ≠ space)
        · rw [if_neg (by simp)]
          simp only [Except.map, Bool.false_eq_true, if_false, assign_cons_takeWhile h]
          exact .ended _ hpart
        · rw [if_pos ⟨hspace, rfl⟩]
          exact .refused _
      · rw [if_neg hspace, if_neg fun hboth => hspace hboth.1]
        simp only [assign_cons_takeWhile h]
        exact .ended _ hpart
    · rw [if_neg hc, if_neg hc]
      exact .ended u h

inductive PartScanned (m : Bytes) :
    Option (Option Bytes × Bytes) → Except Fault (Option (Option Bytes × ℕ)) → Prop
  | refused : PartScanned m none (.ok none)
  | ended (part : Option Bytes) {p : ℕ} {s : Bytes} (h : Points m p s) :
      PartScanned m (some (part, s)) (.ok (some (part, p)))

theorem parsePart_scanned {mark : UInt8} {stop inPart : UInt8 → Bool} (hmark : mark ≠ 0)
    (hin : ∀ c, inPart c = (!stop c && decide (c ≠ space))) (hstop : stop space = false)
    (h : Points m p s) : PartScanned m (URI.scanPart mark inPart s) (parsePart m mark stop p) := by
  cases s with
  | nil =>
    have hparse : parsePart m mark stop p = .ok (some (none, p)) := by
      simp only [parsePart, read_nil h, bind, Except.bind]
      exact if_neg hmark.symm
    rw [hparse]
    exact .ended none h
  | cons c s =>
    simp only [URI.scanPart, parsePart, read_cons h, bind, Except.bind]
    by_cases hc : c = mark
    · have hloop := partLoop_eq stop (fun p => (isAllSpace m (p + 1)).map not) inPart hin h.next
        h.next.length_lt hstop
      have hpart := points_dropWhile h.next inPart
      rw [if_pos hc, if_pos hc, hloop]
      by_cases hspace : (s.dropWhile inPart).head? = some space
      · obtain ⟨rest, hrest⟩ : ∃ rest, s.dropWhile inPart = space :: rest := by
          cases hdrop : s.dropWhile inPart with
          | nil =>
            rw [hdrop] at hspace
            cases hspace
          | cons d rest =>
            rw [hdrop] at hspace
            exact ⟨rest, by rw [Option.some.inj hspace]⟩
        rw [hrest] at hpart ⊢
        rw [isAllSpace_eq hpart.next, if_pos List.head?_cons]
        cases hall : URI.isAllSpace rest
        · rw [if_pos ⟨List.head?_cons, by simp [hall]⟩]
          exact .refused
        · rw [if_neg (by simp [hall])]
          simp only [Except.map, Bool.not_true, Bool.false_eq_true, if_false,
            assign_takeWhile h.next]
          exact .ended _ hpart
      · rw [if_neg hspace, if_neg fun hboth => hspace hboth.1]
        simp only [assign_takeWhile h.next]
        exact .ended _ hpart
    · rw [if_neg hc, if_neg hc]
      exact .ended none h

theorem parseRest_eq (h : Points m p s) : parseRest m u p = .ok (u.scanRest s) := by
  have hquery : PartScanned m (URI.scanQuery s) (parsePart m questionMark (fun c => c = hash) p) :=
    parsePart_scanned (by decide) (fun c => by simp) rfl h
  unfold parseRest URI.scanRest
  generalize URI.scanQuery s = r at hquery ⊢
  generalize parsePart m questionMark (fun c => c = hash) p = r' at hquery ⊢
  cases hquery with
  | refused => rfl
  | @ended query q s h =>
    have hfragment : PartScanned m (URI.scanFragment s) (parsePart m hash (fun _ => false) q) :=
      parsePart_scanned (by decide) (fun c => by simp) rfl h
    simp only [bind, Except.bind]
    generalize URI.scanFragment s = r at hfragment ⊢
    generalize parsePart m hash (fun _ => false) q = r' at hfragment ⊢
    cases hfragment with
    | refused => rfl
    | ended => rfl

theorem parseFromString_eq (u : URI) {url : Bytes} (h0 : 0 ∉ url) :
    parseFromString (url ++ [0]) u =
      (URI.scanAuthority u.clear true true [] (URI.start url)).elim (.error .actionMap) fun r =>
        r.2.elim (.ok r.1) fun x =>
          (URI.scanHost r.1 x.1 x.2).elim (.error .overflow) .ok := by
  have hpoints := Points.start h0
  have htake : url.takeWhile (· ≠ 0) = url := by
    refine List.takeWhile_eq_self_iff.mpr fun c hc => decide_eq_true ?_
    rintro rfl
    exact h0 hc
  obtain ⟨p, hskip, hp⟩ := skipSpaces_eq hpoints hpoints.length_lt
  have hstart : Points (url ++ [0]) p ([] ++ URI.start url) := by
    rwa [List.nil_append, URI.start, htake]
  have hscan := authorityLoop_scanned u.clear true true hstart hstart.length_lt
  rw [List.length_nil, Nat.add_zero] at hscan
  simp only [parseFromString, hskip, bind, Except.bind]
  generalize URI.scanAuthority u.clear true true [] (URI.start url) = r at hscan ⊢
  generalize authorityLoop (url ++ [0]) (url ++ [0]).length u.clear true true p p = r' at hscan ⊢
  cases hscan with
  | fault => rfl
  | refused => rfl
  | @ended v b a s h =>
    simp only [splitHostAndPort_eq h, Option.elim_some, URI.scanHost]
    cases hsplit : URI.splitHostAndPort a with
    | none => rfl
    | some x =>
      obtain ⟨host, port⟩ := x
      obtain ⟨a', rfl⟩ := isPrefix_of_splitHostAndPort hsplit
      have hassign : assign (url ++ [0]) b (b + host.length) = .ok host := by
        rw [List.append_assoc] at h
        exact assign_append h
      have hpath := parsePath_scanned { v with host := host, port := port } h.advance
      simp only [Option.elim_some, hassign, Option.map_some, URI.scanTail]
      generalize URI.scanPath { v with host := host, port := port } s = r at hpath ⊢
      generalize parsePath (url ++ [0]) { v with host := host, port := port }
        (b + (host ++ a').length) = r' at hpath ⊢
      cases hpath with
      | refused => rfl
      | ended w h => exact parseRest_eq h

/-- The parser on pointers does what the one on characters does, and where that one is
not defined it leaves `action_map` or `int`. -/
theorem parseFromString_refines (u : URI) {url : Bytes} (h0 : 0 ∉ url) :
    parseFromString (url ++ [0]) u =
      (u.parseFromString url).elim
        (.error (if (URI.scanned true (URI.start url)).all (· < 128) then .overflow else .actionMap))
        .ok := by
  rw [parseFromString_eq u h0, URI.parseFromString_eq,
    ← URI.scanAuthority_isSome u.clear true true []]
  rcases URI.scanAuthority u.clear true true [] (URI.start url) with _ | ⟨v, _ | ⟨a, s⟩⟩
  · rfl
  · rfl
  · rfl

/-- The parser reads no character behind the null character and ends. It stays in `action_map` and
in `int`, and returns what the parser on characters does, exactly for the URLs that are in
bounds. -/
theorem parse_in_bounds_iff (u : URI) {url : Bytes} (h0 : 0 ∉ url) :
    parseFromString (url ++ [0]) u ≠ .error .pastEnd ∧
      parseFromString (url ++ [0]) u ≠ .error .endless ∧
      ((∃ v, parseFromString (url ++ [0]) u = .ok v ∧ u.parseFromString url = some v) ↔
        URI.InBounds url) := by
  rw [parseFromString_refines u h0, ← URI.parseFromString_isSome u]
  cases u.parseFromString url with
  | none =>
    simp only [Option.elim_none]
    split_ifs <;> simp
  | some v => simp

theorem parse_in_bounds_sample :
    ∃ v, parseFromString ([104, 58, 47, 47, 64, 58, 56] ++ [0]) (.new 0) = .ok v ∧
      (URI.new 0).parseFromString [104, 58, 47, 47, 64, 58, 56] = some v :=
  (parse_in_bounds_iff (.new 0) (by decide)).2.2.mpr (by decide +kernel)

/-- A byte that is not ASCII, and eleven digits. -/
theorem parse_out_of_bounds :
    parseFromString ([200] ++ [0]) (.new 0) = .error .actionMap ∧
      parseFromString ([49, 50, 51, 52, 53, 54, 55, 56, 57, 48, 49] ++ [0]) (.new 0) =
        .error .overflow := by
  constructor <;> rfl

end SofaBolt.UriPointer
