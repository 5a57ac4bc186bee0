import SofaBolt.UriLaws

namespace SofaBolt.URI

open HttpMessage (decimal isDigit isDigit_of_mem_decimal decimal_ne_nil length_decimal_le)

variable {u : URI} {needSchema needUserInfo : Bool} {begun rest : Bytes}

def isFree (stops : List UInt8) (s : Bytes) : Bool :=
  s.all fun c => c != 0 && decide (c < 128) && !(stops.contains c)

structure Components where
  schema : Option Bytes
  userInfo : Option Bytes
  host : Bytes
  port : Option (Fin 65536)
  path : Option Bytes
  query : Option Bytes
  fragment : Option Bytes
  schema_free : ∀ s ∈ schema, isFree [space, hash, slash, questionMark, atSign, colon] s
  userInfo_free : ∀ s ∈ userInfo, isFree [space, hash, slash, questionMark, atSign] s
  host_ne : host ≠ []
  host_free : isFree [space, hash, slash, questionMark, atSign, colon] host
  path_slash : ∀ s ∈ path, s.head? = some slash
  path_free : ∀ s ∈ path, isFree [space, questionMark, hash] s
  query_free : ∀ s ∈ query, isFree [space, hash] s
  fragment_free : ∀ s ∈ fragment, isFree [space] s

namespace Components

variable (d : Components)

def hostPort : Bytes := d.host ++ d.port.elim [] fun n => colon :: decimal n

def queryFragment : Bytes :=
  (d.query.elim [] fun s => questionMark :: s) ++ d.fragment.elim [] fun s => hash :: s

def render : Bytes :=
  (d.schema.elim [] fun s => s ++ [colon, slash, slash]) ++
    ((d.userInfo.elim [] fun s => s ++ [atSign]) ++
      (d.hostPort ++ (d.path.getD [] ++ d.queryFragment)))

def toURI : URI where
  schema := d.schema.getD []
  host := d.host
  path := d.path.getD []
  userInfo := d.userInfo.getD []
  query := d.query.getD []
  fragment := d.fragment.getD []
  port := d.port.elim (-1) fun n => n.val
  parseOk := true

end Components

theorem isFree_iff {stops : List UInt8} {s : Bytes} :
    isFree stops s = true ↔ ∀ c ∈ s, c ≠ 0 ∧ c < 128 ∧ c ∉ stops := by
  simp [isFree, List.all_eq_true, and_assoc]

theorem isFree_mono {stops stops' : List UInt8} (hsub : stops ⊆ stops') {s : Bytes}
    (h : isFree stops' s = true) : isFree stops s = true := by
  rw [isFree_iff] at h ⊢
  intro c hc
  obtain ⟨h0, h128, hstops⟩ := h c hc
  exact ⟨h0, h128, fun hmem => hstops (hsub hmem)⟩

theorem isFree_append {stops : List UInt8} {s t : Bytes} (hs : isFree stops s = true)
    (ht : isFree stops t = true) : isFree stops (s ++ t) = true := by
  unfold isFree at *
  rw [List.all_append, hs, ht]
  rfl

theorem isFree_decimal {stops : List UInt8} (hstops : stops.all fun c => !isDigit c) (n : ℕ) :
    isFree stops (decimal n) = true := by
  rw [isFree_iff]
  intro c hc
  have hdigit := isDigit_of_mem_decimal hc
  have hrange : 48 ≤ c ∧ c ≤ 57 := by simpa [isDigit] using hdigit
  refine ⟨?_, UInt8.lt_of_le_of_lt hrange.2 (by decide), fun hmem => ?_⟩
  · rintro rfl
    exact absurd hdigit (by decide)
  · have hstop := List.all_eq_true.mp hstops c hmem
    rw [hdigit] at hstop
    cases hstop

theorem isFree_elim {stops : List UInt8} {o : Option Bytes} {f : Bytes → Bytes}
    (h : ∀ s ∈ o, isFree stops (f s) = true) : isFree stops (o.elim [] f) = true := by
  cases o with
  | none => rfl
  | some s => exact h s rfl

theorem scanAuthority_append {s : Bytes}
    (hs : isFree [space, hash, slash, questionMark, atSign] s = true)
    (hend : s.getLast? = some colon → rest.head? ≠ some slash) :
    scanAuthority u needSchema needUserInfo begun (s ++ rest) =
      scanAuthority u needSchema needUserInfo (begun ++ s) rest := by
  rw [isFree_iff] at hs
  induction s generalizing begun with
  | nil => rw [List.nil_append, List.append_nil]
  | cons c s ih =>
    obtain ⟨-, h128, hstops⟩ := hs c List.mem_cons_self
    simp only [List.mem_cons, List.not_mem_nil, or_false, not_or] at hstops
    obtain ⟨hspace, hhash, hslash, hquestion, hat⟩ := hstops
    have hnext : c = colon → (s ++ rest).head? ≠ some slash := by
      intro hc
      cases s with
      | nil => exact hend (by rw [hc]; rfl)
      | cons b s =>
        have hb := (hs b (by simp)).2.2
        simp only [List.mem_cons, List.not_mem_nil, or_false, not_or] at hb
        simpa using hb.2.2.1
    have hcolon : ¬ (c = colon ∧ (s ++ rest).take 2 = [slash, slash] ∧ needSchema = true) := by
      rintro ⟨hc, htake, -⟩
      refine hnext hc ?_
      have hhead : ((s ++ rest).take 2).head? = (s ++ rest).head? := by simp [List.head?_take]
      rw [← hhead, htake]
      rfl
    have hend' : s.getLast? = some colon → rest.head? ≠ some slash := by
      intro hl
      refine hend ?_
      rw [List.getLast?_cons, hl]
      rfl
    rw [List.cons_append, scanAuthority_pass h128 (by tauto) hspace hcolon (by tauto),
      ih (fun b hb => hs b (List.mem_cons_of_mem c hb)) hend', List.append_assoc]
    rfl

namespace Components

variable (d : Components)

theorem isFree_hostPort : isFree [space, hash, slash, questionMark, atSign] d.hostPort = true := by
  refine isFree_append (isFree_mono (by decide) d.host_free) ?_
  cases d.port with
  | none => rfl
  | some n =>
    exact isFree_append (s := [colon]) (by decide) (isFree_decimal (by decide) n)

theorem hostPort_getLast : d.hostPort.getLast? ≠ some colon := by
  intro hlast
  have hmem := List.mem_of_getLast? hlast
  unfold hostPort at hlast hmem
  cases hport : d.port with
  | none =>
    rw [hport] at hmem
    exact (isFree_iff.mp d.host_free colon (by simpa using hmem)).2.2 (by simp)
  | some n =>
    have hne := decimal_ne_nil n
    rw [hport, Option.elim_some, ← List.singleton_append, ← List.append_assoc,
      List.getLast?_append_of_ne_nil _ hne] at hlast
    exact absurd (isDigit_of_mem_decimal (List.mem_of_getLast? hlast)) (by decide)

theorem isTail_queryFragment : IsTail d.queryFragment := by
  unfold queryFragment IsTail
  cases d.query with
  | some s => simp
  | none =>
    cases d.fragment with
    | some s => simp
    | none => simp

theorem isTail_path : IsTail (d.path.getD [] ++ d.queryFragment) := by
  cases hpath : d.path with
  | none => exact d.isTail_queryFragment
  | some s =>
    have hslash := d.path_slash s hpath
    cases s with
    | nil => cases hslash
    | cons c s =>
      intro b hb
      rw [Option.getD_some, List.cons_append, List.head?_cons] at hb
      rw [List.head?_cons] at hslash
      exact .inr (.inl (Option.some.inj (hb.symm.trans hslash)))

/-- The first loop finds schema and user info and stops behind host and port. -/
theorem scanAuthority_render (u : URI) :
    scanAuthority u true true [] d.render =
      some ({ u with
        schema := d.schema.getD u.schema
        userInfo := d.userInfo.getD u.userInfo },
        some (d.hostPort, d.path.getD [] ++ d.queryFragment)) := by
  have hhost : ∀ (v : URI) (needSchema needUserInfo : Bool),
      scanAuthority v needSchema needUserInfo [] (d.hostPort ++
        (d.path.getD [] ++ d.queryFragment)) =
        some (v, some (d.hostPort, d.path.getD [] ++ d.queryFragment)) := by
    intro v needSchema needUserInfo
    rw [scanAuthority_append d.isFree_hostPort fun h => absurd h d.hostPort_getLast,
      scanAuthority_tail d.isTail_path]
    rfl
  have huser : ∀ (v : URI) (needSchema : Bool),
      scanAuthority v needSchema true [] ((d.userInfo.elim [] fun s => s ++ [atSign]) ++
        (d.hostPort ++ (d.path.getD [] ++ d.queryFragment))) =
        some ({ v with userInfo := d.userInfo.getD v.userInfo },
          some (d.hostPort, d.path.getD [] ++ d.queryFragment)) := by
    intro v needSchema
    cases huser : d.userInfo with
    | none => exact hhost v needSchema true
    | some s =>
      rw [Option.elim_some, List.append_assoc, List.singleton_append,
        scanAuthority_append (d.userInfo_free s huser) (fun _ => by simp [atSign, slash]),
        scanAuthority_user, hhost]
      rfl
  unfold render
  cases hschema : d.schema with
  | none => exact huser u true
  | some s =>
    have hfree : isFree [space, hash, slash, questionMark, atSign] s = true :=
      isFree_mono (by decide) (d.schema_free s hschema)
    have hlast : s.getLast? ≠ some colon := fun h =>
      (isFree_iff.mp (d.schema_free s hschema) colon (List.mem_of_getLast? h)).2.2 (by simp)
    rw [Option.elim_some, List.append_assoc, scanAuthority_append hfree fun h => absurd h hlast]
    exact (scanAuthority_schema ..).trans (huser _ _)

end Components

theorem splitLoop_digits {ds : Bytes} (hds : ∀ c ∈ ds, isDigit c = true) {k port : ℕ}
    (hport : port < 10 ^ k) (hk : k + ds.length ≤ 9) (c : UInt8) (r : Bytes) :
    splitLoop port (10 ^ k) (ds ++ c :: r) =
      splitLoop (port + 10 ^ k * Nat.ofDigits 10 (ds.map fun c => c.toNat - 48))
        (10 ^ (k + ds.length)) (c :: r) := by
  induction ds generalizing k port with
  | nil => simp
  | cons b ds ih =>
    have hb : 48 ≤ b ∧ b ≤ 57 := by simpa [isDigit] using hds b List.mem_cons_self
    have hval : b.toNat - 48 ≤ 9 := by
      have := UInt8.le_iff_toNat_le.mp hb.2
      simp at this
      omega
    have hport' : port + (b.toNat - 48) * 10 ^ k < 10 ^ (k + 1) := by
      rw [pow_succ]
      nlinarith
    rw [List.length_cons] at hk
    have hpow : 10 ^ (k + 1) ≤ 10 ^ 9 := Nat.pow_le_pow_right (by decide) (by omega)
    have hfits : port + (b.toNat - 48) * 10 ^ k < 2 ^ 31 ∧ 10 ^ (k + 1) < 2 ^ 31 :=
      ⟨by omega, by omega⟩
    have hround : splitLoop port (10 ^ k) (b :: ds ++ c :: r) =
        splitLoop (port + (b.toNat - 48) * 10 ^ k) (10 ^ (k + 1)) (ds ++ c :: r) := by
      cases ds with
      | nil =>
        simp only [List.cons_append, List.nil_append, splitLoop, ← pow_succ]
        rw [if_pos hb, if_pos hfits]
      | cons b' ds =>
        simp only [List.cons_append, splitLoop, ← pow_succ]
        rw [if_pos hb, if_pos hfits]
    rw [hround, ih (fun c hc => hds c (List.mem_cons_of_mem b hc)) hport' (by omega),
      List.map_cons, Nat.ofDigits_cons, List.length_cons]
    congr 1
    · rw [pow_succ]
      ring
    · congr 1
      omega

theorem colon_mem_of_splitLoop {port multiply n : ℕ} {r host : Bytes}
    (h : splitLoop port multiply r = some (some (n, host))) : colon ∈ r := by
  fun_induction splitLoop port multiply r
  case case1 => cases Option.some.inj h
  case case2 => cases Option.some.inj h
  case case3 ih => exact List.mem_cons_of_mem _ (ih h)
  case case4 => cases h
  case case5 => exact List.mem_cons_self
  case case6 => cases Option.some.inj h

theorem splitHostAndPort_host {host : Bytes} (hcolon : colon ∉ host)
    (hdigits : digitsAtEnd host ≤ 9) : splitHostAndPort host = some (host, -1) := by
  have hsome := (splitHostAndPort_isSome host).mpr hdigits
  rw [splitHostAndPort, Option.isSome_map] at hsome
  obtain ⟨r, hr⟩ := Option.isSome_iff_exists.mp hsome
  cases r with
  | none => rw [splitHostAndPort, hr, Option.map_some]
  | some r => exact absurd (List.mem_reverse.mp (colon_mem_of_splitLoop hr)) hcolon

theorem splitHostAndPort_port {host : Bytes} (hne : host ≠ []) {n : ℕ} (hn : n < 65536) :
    splitHostAndPort (host ++ colon :: decimal n) = some (host, (n : ℤ)) := by
  have hdigits : ∀ c ∈ (decimal n).reverse, isDigit c = true := fun c hc =>
    isDigit_of_mem_decimal (List.mem_reverse.mp hc)
  have hlength : (decimal n).reverse.length ≤ 5 := by
    rw [List.length_reverse]
    exact length_decimal_le (by omega) (by decide)
  have hvalue : Nat.ofDigits 10 ((decimal n).reverse.map fun c => c.toNat - 48) = n := by
    have h := HttpMessage.decodeDecimal_decimal n
    unfold HttpMessage.decodeDecimal at h
    split_ifs at h
    exact Option.some.inj h
  have hreverse : (host ++ colon :: decimal n).reverse =
      (decimal n).reverse ++ colon :: host.reverse := by simp
  have hcolon : ∀ m, splitLoop n m (colon :: host.reverse) = some (some (n, host)) := by
    intro m
    cases hrev : host.reverse with
    | nil => exact absurd (List.reverse_eq_nil_iff.mp hrev) hne
    | cons c r =>
      have hback : (c :: r).reverse = host := by rw [← hrev, List.reverse_reverse]
      rw [splitLoop, if_neg (by decide), if_pos rfl, hback]
  have hloop := splitLoop_digits hdigits (k := 0) Nat.one_pos (by omega) colon host.reverse
  rw [hvalue, Nat.zero_add, pow_zero, Nat.one_mul, hcolon] at hloop
  rw [splitHostAndPort, hreverse, hloop]
  rfl

theorem scanPart_append (mark : UInt8) {inPart : UInt8 → Bool} {s : Bytes}
    (hs : ∀ c ∈ s, inPart c = true) (hrest : ∀ c ∈ rest.head?, inPart c = false)
    (hspace : rest.head? ≠ some space) :
    scanPart mark inPart (mark :: (s ++ rest)) = some (some s, rest) := by
  obtain ⟨htake, hdrop⟩ := takeWhile_dropWhile_append inPart hs hrest
  rw [scanPart, if_pos rfl]
  simp only [htake, hdrop]
  rw [if_neg fun h => hspace h.1]

theorem scanPath_append {s : Bytes} (hs : ∀ c ∈ s, c ≠ questionMark ∧ c ≠ hash ∧ c ≠ space)
    (hrest : ∀ c ∈ rest.head?, c = questionMark ∨ c = hash) :
    scanPath u (slash :: (s ++ rest)) = ({ u with path := slash :: s }, some rest) := by
  obtain ⟨htake, hdrop⟩ := takeWhile_dropWhile_append
    (fun c => c ≠ questionMark ∧ c ≠ hash ∧ c ≠ space) (fun c hc => decide_eq_true (hs c hc))
    fun c hc => by rcases hrest c hc with rfl | rfl <;> rfl
  rw [scanPath, if_pos rfl]
  simp only [htake, hdrop]
  refine if_neg fun h => ?_
  rcases hrest space h.1 with hc | hc <;> exact absurd hc (by decide)

namespace Components

variable (d : Components)

theorem splitHostAndPort_hostPort (hdigits : d.port = none → digitsAtEnd d.host ≤ 9) :
    splitHostAndPort d.hostPort = some (d.host, d.toURI.port) := by
  unfold hostPort toURI
  cases hport : d.port with
  | none =>
    rw [Option.elim_none, List.append_nil]
    refine splitHostAndPort_host (fun hmem => ?_) (hdigits hport)
    exact (isFree_iff.mp d.host_free colon hmem).2.2 (by simp)
  | some n => exact splitHostAndPort_port d.host_ne n.isLt

theorem scanRest_queryFragment (u : URI) :
    u.scanRest d.queryFragment =
      { u with query := d.query.getD u.query, fragment := d.fragment.getD u.fragment } := by
  have hfragment :
      scanFragment (d.fragment.elim [] fun s => hash :: s) = some (d.fragment, []) := by
    cases hf : d.fragment with
    | none => rfl
    | some s =>
      have hs : ∀ c ∈ s, decide (c ≠ space) = true := by
        intro c hc
        simpa using (isFree_iff.mp (d.fragment_free s hf) c hc).2.2
      have h : scanFragment (hash :: (s ++ [])) = some (some s, []) :=
        scanPart_append hash hs (by simp) (by simp)
      rwa [List.append_nil] at h
  have hquery : scanQuery d.queryFragment =
      some (d.query, d.fragment.elim [] fun s => hash :: s) := by
    unfold queryFragment
    cases hq : d.query with
    | none =>
      refine scanPart_none ?_
      cases d.fragment <;> simp [hash, questionMark]
    | some s =>
      have hs : ∀ c ∈ s, decide (c ≠ hash ∧ c ≠ space) = true := by
        intro c hc
        have := (isFree_iff.mp (d.query_free s hq) c hc).2.2
        simp only [List.mem_cons, List.not_mem_nil, or_false, not_or] at this
        exact decide_eq_true ⟨this.2, this.1⟩
      refine scanPart_append _ hs ?_ ?_ <;> cases d.fragment <;> simp [hash, space]
  rw [scanRest, hquery]
  simp only
  rw [hfragment]

theorem scanTail_render (u : URI) :
    scanTail u (d.path.getD [] ++ d.queryFragment) =
      { u with
        path := d.path.getD u.path
        query := d.query.getD u.query
        fragment := d.fragment.getD u.fragment } := by
  have hhead : ∀ c ∈ d.queryFragment.head?, c = questionMark ∨ c = hash := by
    unfold queryFragment
    cases d.query <;> cases d.fragment <;> simp
  unfold scanTail
  cases hpath : d.path with
  | none =>
    have hslash : d.queryFragment.head? ≠ some slash := fun h => by
      rcases hhead slash h with hc | hc <;> exact absurd hc (by decide)
    rw [Option.getD_none, List.nil_append, scanPath_none hslash]
    exact d.scanRest_queryFragment u
  | some s =>
    obtain ⟨s, rfl⟩ : ∃ t, s = slash :: t := by
      cases s with
      | nil => cases d.path_slash [] hpath
      | cons c t => exact ⟨t, by rw [Option.some.inj (d.path_slash _ hpath)]⟩
    have hs : ∀ c ∈ s, c ≠ questionMark ∧ c ≠ hash ∧ c ≠ space := by
      intro c hc
      have := (isFree_iff.mp (d.path_free _ hpath) c (List.mem_cons_of_mem _ hc)).2.2
      simp only [List.mem_cons, List.not_mem_nil, or_false, not_or] at this
      exact ⟨this.2.1, this.2.2, this.1⟩
    rw [Option.getD_some, List.cons_append, scanPath_append hs hhead]
    exact d.scanRest_queryFragment _

end Components

namespace Components

variable (d : Components)

theorem isFree_render : isFree [space] d.render = true := by
  have hsub : [space] ⊆ [space, hash, slash, questionMark, atSign] := by decide
  have hcons : ∀ {c : UInt8} {s : Bytes}, isFree [space] [c] = true → isFree [space] s = true →
      isFree [space] (c :: s) = true := fun hc hs => isFree_append hc hs
  refine isFree_append (isFree_elim fun s hs => ?_) (isFree_append (isFree_elim fun s hs => ?_)
    (isFree_append (isFree_mono hsub d.isFree_hostPort) (isFree_append ?_
      (isFree_append (isFree_elim fun s hs => ?_) (isFree_elim fun s hs => ?_)))))
  · exact isFree_append (isFree_mono (by decide) (d.schema_free s hs)) (by decide)
  · exact isFree_append (isFree_mono hsub (d.userInfo_free s hs)) (by decide)
  · cases hpath : d.path with
    | none => rfl
    | some s => exact isFree_mono (by decide) (d.path_free s hpath)
  · exact hcons (by decide) (isFree_mono (by decide) (d.query_free s hs))
  · exact hcons (by decide) (d.fragment_free s hs)

/-- A fresh URI takes every URL put together from its components apart again, except that a host
written without a port must not end in ten digits behind its first character. -/
theorem parse_render (port : ℤ) (n : ℕ) :
    (URI.new port).parseFromString (List.replicate n space ++ d.render) = some d.toURI ↔
      (d.port = none → digitsAtEnd d.host ≤ 9) := by
  have hfree := isFree_iff.mp d.isFree_render
  have h0 : 0 ∉ d.render := fun hmem => (hfree 0 hmem).1 rfl
  have hhead : d.render.head? ≠ some space := fun h =>
    (hfree space (List.mem_of_head? h)).2.2 (by simp)
  rw [parseFromString_eq, start_spaces n h0 hhead, d.scanAuthority_render, Option.bind_some,
    Option.elim_some, scanHost]
  constructor
  · intro hparse hport
    have hsplit := congrArg Option.isSome hparse
    simp only [Option.isSome_map, Option.isSome_some] at hsplit
    rw [hostPort, hport, Option.elim_none, List.append_nil] at hsplit
    exact (splitHostAndPort_isSome d.host).mp hsplit
  · intro hdigits
    rw [d.splitHostAndPort_hostPort hdigits, Option.map_some, d.scanTail_render]
    rfl

def sample : Components where
  schema := some ([102, 116, 112])
  userInfo := some ([117, 58, 112])
  host := [49, 50, 51, 52, 53]
  port := some 80
  path := some ([47, 97])
  query := some ([98, 61, 49])
  fragment := some ([99, 63])
  schema_free := by decide
  userInfo_free := by decide
  host_ne := by decide
  host_free := by decide
  path_slash := by decide
  path_free := by decide
  query_free := by decide
  fragment_free := by decide

theorem parse_render_sample :
    (URI.new 7).parseFromString (List.replicate 2 space ++ sample.render) = some sample.toURI :=
  (sample.parse_render 7 2).mpr (by decide)

def elevenDigits : Components where
  schema := none
  userInfo := none
  host := [49, 50, 51, 52, 53, 54, 55, 56, 57, 48, 49]
  port := none
  path := none
  query := none
  fragment := none
  schema_free := by decide
  userInfo_free := by decide
  host_ne := by decide
  host_free := by decide
  path_slash := by decide
  path_free := by decide
  query_free := by decide
  fragment_free := by decide

/-- The multiplier of the port leaves `int` before the loop finds that there is no
port. -/
theorem not_parse_render :
    elevenDigits.render = [49, 50, 51, 52, 53, 54, 55, 56, 57, 48, 49] ∧
      (URI.new 0).parseFromString elevenDigits.render = none := by
  decide +kernel

end Components

end SofaBolt.URI
