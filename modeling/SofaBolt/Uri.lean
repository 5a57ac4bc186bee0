import SofaBolt.Block

namespace SofaBolt

structure URI where
  schema : Bytes
  host : Bytes
  path : Bytes
  userInfo : Bytes
  query : Bytes
  fragment : Bytes
  port : ℤ
  parseOk : Bool
deriving DecidableEq, Repr

namespace URI

/-- `URI()`, which leaves `_port` as the memory had it. -/
def new (port : ℤ) : URI := ⟨[], [], [], [], [], [], port, true⟩

def clear (u : URI) : URI :=
  { u with schema := [], host := [], path := [], userInfo := [], port := -1, parseOk := true }

def space : UInt8 := 32
def hash : UInt8 := 35
def slash : UInt8 := 47
def colon : UInt8 := 58
def questionMark : UInt8 := 63
def atSign : UInt8 := 64

def isAllSpace (p : Bytes) : Bool := p.dropWhile (· = space) = []

/-- The first loop, with the characters from `begin` on: `none` for a character
that `action_map` has no entry for.  It ends with the characters of the authority
and the rest, unless the URL is refused. -/
def scanAuthority (u : URI) (needSchema needUserInfo : Bool) (begun : Bytes) :
    Bytes → Option (URI × Option (Bytes × Bytes))
  | [] => some (u, some (begun, []))
  | c :: p =>
    if 128 ≤ c then none
    else if c = hash ∨ c = slash ∨ c = questionMark then some (u, some (begun, c :: p))
    else if c = colon then
      match p with
      | a :: b :: p' =>
        if a = slash ∧ b = slash ∧ needSchema then
          scanAuthority { u with schema := begun } false needUserInfo [] p'
        else scanAuthority u needSchema needUserInfo (begun ++ [c]) (a :: b :: p')
      | p => scanAuthority u needSchema needUserInfo (begun ++ [c]) p
    else if c = atSign then
      if needUserInfo then scanAuthority { u with userInfo := begun } needSchema false [] p
      else scanAuthority u needSchema needUserInfo (begun ++ [c]) p
    else if c = space then
      if isAllSpace (c :: p) then some ({ u with parseOk := false }, none)
      else some (u, some (begun, c :: p))
    else scanAuthority u needSchema needUserInfo (begun ++ [c]) p

/-- The loop of `splitHostAndPort` from the last character backwards, which never looks at the first
one. `none` is a sum or a product that does not fit an `int`. -/
def splitLoop (port multiply : ℕ) : Bytes → Option (Option (ℕ × Bytes))
  | [] => some none
  | [_] => some none
  | c :: d :: r =>
    if 48 ≤ c ∧ c ≤ 57 then
      let port' := port + (c.toNat - 48) * multiply
      if port' < 2 ^ 31 ∧ multiply * 10 < 2 ^ 31 then splitLoop port' (multiply * 10) (d :: r)
      else none
    else if c = colon then some (some (port, (d :: r).reverse))
    else some none

def splitHostAndPort (authority : Bytes) : Option (Bytes × ℤ) :=
  (splitLoop 0 1 authority.reverse).map fun r =>
    match r with
    | some (port, host) => (host, port)
    | none => (authority, -1)

def scanPath (u : URI) : Bytes → URI × Option Bytes
  | [] => (u, some [])
  | c :: p =>
    if c = slash then
      let isPath := fun c => c ≠ questionMark ∧ c ≠ hash ∧ c ≠ space
      let rest := p.dropWhile isPath
      if rest.head? = some space ∧ isAllSpace rest then ({ u with parseOk := false }, none)
      else ({ u with path := c :: p.takeWhile isPath }, some rest)
    else (u, some (c :: p))

/-- `if (*p == '?')` and `if (*p == '#')`: the part after the mark and the rest,
`none` if the URL is refused. -/
def scanPart (mark : UInt8) (inPart : UInt8 → Bool) : Bytes → Option (Option Bytes × Bytes)
  | [] => some (none, [])
  | c :: p =>
    if c = mark then
      let rest := p.dropWhile inPart
      if rest.head? = some space ∧ ¬ isAllSpace rest.tail then none
      else some (some (p.takeWhile inPart), rest)
    else some (none, c :: p)

def scanQuery : Bytes → Option (Option Bytes × Bytes) :=
  scanPart questionMark fun c => c ≠ hash ∧ c ≠ space

def scanFragment : Bytes → Option (Option Bytes × Bytes) := scanPart hash fun c => c ≠ space

def scanRest (u : URI) (p : Bytes) : URI :=
  match scanQuery p with
  | none => { u with parseOk := false }
  | some (query, p) =>
    let u := { u with query := query.getD u.query }
    match scanFragment p with
    | none => { u with parseOk := false }
    | some (fragment, _) => { u with fragment := fragment.getD u.fragment }

def parseFromString (u : URI) (url : Bytes) : Option URI := do
  let p := (url.takeWhile (· ≠ 0)).dropWhile (· = space)
  match ← scanAuthority u.clear true true [] p with
  | (u, none) => some u
  | (u, some (authority, p)) => do
    let (host, port) ← splitHostAndPort authority
    match scanPath { u with host, port } p with
    | (u, none) => some u
    | (u, some p) => some (u.scanRest p)

variable {u u' : URI} {a p rest : Bytes}

theorem space_notMem_concat {begun : Bytes} {c : UInt8} (hb : space ∉ begun) (hc : c ≠ space) :
    space ∉ begun ++ [c] := by
  intro hmem
  rcases List.mem_append.mp hmem with hmem | hmem
  · exact hb hmem
  · exact hc (List.mem_singleton.mp hmem).symm

theorem scanAuthority_spec {needSchema needUserInfo : Bool} {begun : Bytes}
    (h : scanAuthority u needSchema needUserInfo begun p = some (u', some (a, rest)))
    (hb : space ∉ begun) : space ∉ a ∧ u'.path = u.path := by
  fun_induction scanAuthority u needSchema needUserInfo begun p
  case case1 =>
    obtain ⟨rfl, hsome⟩ := Prod.mk.inj (Option.some.inj h)
    obtain ⟨rfl, -⟩ := Prod.mk.inj (Option.some.inj hsome)
    exact ⟨hb, rfl⟩
  case case2 => cases h
  case case3 =>
    obtain ⟨rfl, hsome⟩ := Prod.mk.inj (Option.some.inj h)
    obtain ⟨rfl, -⟩ := Prod.mk.inj (Option.some.inj hsome)
    exact ⟨hb, rfl⟩
  case case4 ih => exact ih h List.not_mem_nil
  case case5 ih => exact ih h (space_notMem_concat hb (by decide))
  case case6 ih => exact ih h (space_notMem_concat hb (by decide))
  case case7 ih => exact ih h List.not_mem_nil
  case case8 ih => exact ih h (space_notMem_concat hb (by decide))
  case case9 => cases (Prod.mk.inj (Option.some.inj h)).2
  case case10 =>
    obtain ⟨rfl, hsome⟩ := Prod.mk.inj (Option.some.inj h)
    obtain ⟨rfl, -⟩ := Prod.mk.inj (Option.some.inj hsome)
    exact ⟨hb, rfl⟩
  case case11 hne ih => exact ih h (space_notMem_concat hb hne)

theorem scanAuthority_refused {needSchema needUserInfo : Bool} {begun : Bytes}
    (h : scanAuthority u needSchema needUserInfo begun p = some (u', none)) :
    u'.parseOk = false := by
  fun_induction scanAuthority u needSchema needUserInfo begun p
  case case1 => cases (Prod.mk.inj (Option.some.inj h)).2
  case case2 => cases h
  case case3 => cases (Prod.mk.inj (Option.some.inj h)).2
  case case4 ih => exact ih h
  case case5 ih => exact ih h
  case case6 ih => exact ih h
  case case7 ih => exact ih h
  case case8 ih => exact ih h
  case case9 => exact (Prod.mk.inj (Option.some.inj h)).1 ▸ rfl
  case case10 => cases (Prod.mk.inj (Option.some.inj h)).2
  case case11 ih => exact ih h

theorem splitLoop_subset {port multiply n : ℕ} {r host : Bytes}
    (h : splitLoop port multiply r = some (some (n, host))) : host ⊆ r := by
  fun_induction splitLoop port multiply r
  case case1 => cases Option.some.inj h
  case case2 => cases Option.some.inj h
  case case3 ih => exact List.subset_cons_of_subset _ (ih h)
  case case4 => cases h
  case case5 c d r _ _ =>
    obtain ⟨-, rfl⟩ := Prod.mk.inj (Option.some.inj (Option.some.inj h))
    exact List.subset_cons_of_subset _ fun x hx => List.mem_reverse.mp hx
  case case6 => cases Option.some.inj h

theorem splitHostAndPort_spec {authority host : Bytes} {port : ℤ}
    (h : splitHostAndPort authority = some (host, port)) : host ⊆ authority ∧ -1 ≤ port := by
  obtain ⟨r, hr, heq⟩ := Option.map_eq_some_iff.mp h
  cases r with
  | none =>
    obtain ⟨rfl, rfl⟩ := Prod.mk.inj heq
    exact ⟨List.Subset.refl _, le_rfl⟩
  | some r =>
    obtain ⟨rfl, rfl⟩ := Prod.mk.inj heq
    refine ⟨fun c hc => List.mem_reverse.mp (splitLoop_subset hr hc), ?_⟩
    omega

theorem scanPath_spec (h : scanPath u p = (u', some rest)) :
    u'.host = u.host ∧ u'.port = u.port ∧ (u'.path = u.path ∨ space ∉ u'.path) := by
  cases p with
  | nil =>
    obtain ⟨rfl, -⟩ := Prod.mk.inj h
    exact ⟨rfl, rfl, Or.inl rfl⟩
  | cons c p =>
    simp only [scanPath] at h
    split_ifs at h with hc _
    · cases (Prod.mk.inj h).2
    · obtain ⟨rfl, -⟩ := Prod.mk.inj h
      refine ⟨rfl, rfl, Or.inr ?_⟩
      intro hmem
      rcases List.mem_cons.mp hmem with heq | hmem
      · rw [← heq] at hc
        exact absurd hc (by decide)
      · have hin := List.all_eq_true.mp List.all_takeWhile _ hmem
        simp at hin
    · obtain ⟨rfl, -⟩ := Prod.mk.inj h
      exact ⟨rfl, rfl, Or.inl rfl⟩

theorem scanPath_refused (h : scanPath u p = (u', none)) : u'.parseOk = false := by
  cases p with
  | nil => cases (Prod.mk.inj h).2
  | cons c p =>
    simp only [scanPath] at h
    split_ifs at h
    · exact (Prod.mk.inj h).1 ▸ rfl
    · cases (Prod.mk.inj h).2
    · cases (Prod.mk.inj h).2

theorem scanRest_frame (u : URI) (p : Bytes) :
    (u.scanRest p).host = u.host ∧ (u.scanRest p).path = u.path ∧
      (u.scanRest p).port = u.port := by
  unfold scanRest
  split
  · exact ⟨rfl, rfl, rfl⟩
  · simp only
    split
    · exact ⟨rfl, rfl, rfl⟩
    · exact ⟨rfl, rfl, rfl⟩

/-- Of a URL that is accepted, host and path hold no space, and the port is -1 or
a number. -/
theorem parseFromString_spec {url : Bytes} (h : parseFromString u url = some u')
    (hok : u'.parseOk = true) : space ∉ u'.host ∧ space ∉ u'.path ∧ -1 ≤ u'.port := by
  obtain ⟨⟨u₁, next⟩, hscan, h⟩ := Option.bind_eq_some_iff.mp h
  cases next with
  | none =>
    obtain rfl := Option.some.inj h
    rw [scanAuthority_refused hscan] at hok
    cases hok
  | some next =>
    obtain ⟨authority, p⟩ := next
    obtain ⟨hspace, hpath⟩ := scanAuthority_spec hscan List.not_mem_nil
    obtain ⟨⟨host, port⟩, hsplit, h⟩ := Option.bind_eq_some_iff.mp h
    obtain ⟨hhost, hport⟩ := splitHostAndPort_spec hsplit
    cases hp : scanPath { u₁ with host := host, port := port } p with
    | mk u₂ rest =>
      simp only [hp] at h
      cases rest with
      | none =>
        obtain rfl := Option.some.inj h
        rw [scanPath_refused hp] at hok
        cases hok
      | some rest =>
        obtain rfl := Option.some.inj h
        obtain ⟨h₁, h₂, h₃⟩ := scanPath_spec hp
        obtain ⟨e₁, e₂, e₃⟩ := scanRest_frame u₂ rest
        rw [e₁, e₂, e₃, h₁, h₂]
        refine ⟨fun hmem => hspace (hhost hmem), ?_, hport⟩
        rcases h₃ with heq | hno
        · rw [heq, hpath]
          exact List.not_mem_nil
        · exact hno

end URI

end SofaBolt
