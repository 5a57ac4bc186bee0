import Mathlib.Data.List.TakeWhile
import SofaBolt.Block
import SofaBolt.HttpMessage

namespace SofaBolt

open HttpMessage (decimal decodeDecimal isDigit isDigit_of_mem_decimal length_decimal_le
  decodeDecimal_decimal)

structure InAddr where
  a : UInt8
  b : UInt8
  c : UInt8
  d : UInt8
deriving DecidableEq, Repr

structure EndPoint where
  ip : InAddr
  port : ℤ
deriving DecidableEq, Repr

namespace EndPoint

structure Resolver where
  inetPton : Bytes → Option InAddr
  getHostByName : Bytes → Option InAddr

def inetNtop (ip : InAddr) : Bytes :=
  decimal ip.a.toNat ++ 46 :: (decimal ip.b.toNat ++ 46 ::
    (decimal ip.c.toNat ++ 46 :: decimal ip.d.toNat))

def strMaxSize : ℕ := 64

/-- The loop that copies the characters before the colon to `inner_str`, of which `i` are
there: they and the rest, `none` if it returns false. -/
def copyHost (i : ℕ) : Bytes → Option (Bytes × Bytes)
  | [] => none
  | c :: p =>
    if c = 58 then some ([], c :: p)
    else if strMaxSize ≤ i + 1 then none
    else (copyHost (i + 1) p).map fun r => (c :: r.1, r.2)

/-- `strtol` to the base 10: the `long` and the rest, `none` if there is no number. -/
def strtol (s : Bytes) : Option (ℤ × Bytes) :=
  let s := s.dropWhile fun c => c = 32 ∨ 9 ≤ c ∧ c ≤ 13
  let negative := s.head? = some 45
  let s := if negative ∨ s.head? = some 43 then s.tail else s
  (decodeDecimal (s.takeWhile isDigit)).map fun n : ℕ =>
    (if negative then max (-(n : ℤ)) (-2 ^ 63) else min (n : ℤ) (2 ^ 63 - 1), s.dropWhile isDigit)

def toInt (n : ℤ) : ℤ := n.bmod (2 ^ 32)

def parseFromString (net : Resolver) (ep : EndPoint) (str : Bytes) : Bool × EndPoint :=
  match copyHost 0 (str.takeWhile (· ≠ 0)) with
  | none => (false, ep)
  | some (innerStr, p) =>
    match (net.inetPton innerStr).or (net.getHostByName innerStr) with
    | none => (false, ep)
    | some ip =>
      match strtol p.tail with
      | none => (false, { ip, port := 0 })
      | some (n, rest) =>
        (rest = [] ∧ ¬ (toInt n < 0 ∨ toInt n > 65535), { ip, port := toInt n })

def ipToStr (ep : EndPoint) : Bytes :=
  inetNtop ep.ip ++ 58 ::
    (if ep.port < 0 then 45 :: decimal ep.port.natAbs else decimal ep.port.natAbs)

variable {s D : Bytes} {n i : ℕ} {net : Resolver} {ip : InAddr}

theorem copyHost_append (hs : 58 ∉ s) (hlen : i + s.length < 64) (rest : Bytes) :
    copyHost i (s ++ 58 :: rest) = some (s, 58 :: rest) := by
  induction s generalizing i with
  | nil => rfl
  | cons c s ih =>
    rw [List.length_cons] at hlen
    obtain ⟨hc, hs⟩ := not_or.mp (mt List.mem_cons.mpr hs)
    have hsize : ¬ strMaxSize ≤ i + 1 := by
      unfold strMaxSize
      omega
    rw [List.cons_append, copyHost, if_neg (Ne.symm hc), if_neg hsize, ih hs (by omega)]
    rfl

theorem isDigit_of_decodeDecimal (h : decodeDecimal D = some n) :
    D ≠ [] ∧ ∀ c ∈ D, isDigit c = true := by
  unfold decodeDecimal at h
  split_ifs at h with hD
  exact ⟨hD.1, List.all_eq_true.mp hD.2⟩

theorem not_isSpace_of_isDigit {c : UInt8} (h : isDigit c = true) :
    ¬ (c = 32 ∨ 9 ≤ c ∧ c ≤ 13) := by
  rintro (rfl | ⟨-, hle⟩)
  · exact absurd h (by decide)
  · have hge : 48 ≤ c := by
      simp only [isDigit, Bool.and_eq_true, decide_eq_true_eq] at h
      exact h.1
    exact absurd (UInt8.le_trans hge hle) (by decide)

theorem strtol_digits (h : decodeDecimal D = some n) :
    strtol D = some (min (n : ℤ) (2 ^ 63 - 1), []) := by
  obtain ⟨hne, hall⟩ := isDigit_of_decodeDecimal h
  have hhead : ∀ c ∈ D.head?, isDigit c = true := fun c hc => hall c (List.mem_of_head? hc)
  have hspace : D.dropWhile (fun c => c = 32 ∨ 9 ≤ c ∧ c ≤ 13) = D := by
    obtain ⟨c, D, rfl⟩ := List.exists_cons_of_ne_nil hne
    refine List.dropWhile_cons_of_neg ?_
    simpa using not_isSpace_of_isDigit (hhead c rfl)
  have hminus : D.head? ≠ some 45 := fun hc => absurd (hhead 45 hc) (by decide)
  have hplus : D.head? ≠ some 43 := fun hc => absurd (hhead 43 hc) (by decide)
  simp only [strtol, hspace, hminus, hplus, or_self, if_false, List.takeWhile_eq_self_iff.mpr hall,
    List.dropWhile_eq_nil_iff.mpr hall, h, Option.map_some]

theorem mem_inetNtop {c : UInt8} (h : c ∈ inetNtop ip) : isDigit c = true ∨ c = 46 := by
  simp only [inetNtop, List.mem_append, List.mem_cons] at h
  rcases h with h | h | h | h | h | h | h
  · exact .inl (isDigit_of_mem_decimal h)
  · exact .inr h
  · exact .inl (isDigit_of_mem_decimal h)
  · exact .inr h
  · exact .inl (isDigit_of_mem_decimal h)
  · exact .inr h
  · exact .inl (isDigit_of_mem_decimal h)

theorem length_inetNtop (ip : InAddr) : (inetNtop ip).length < 64 := by
  have hbyte : ∀ b : UInt8, (decimal b.toNat).length ≤ 3 := fun b =>
    length_decimal_le (lt_of_lt_of_le b.toNat_lt (by decide)) (by decide)
  have ha := hbyte ip.a
  have hb := hbyte ip.b
  have hc := hbyte ip.c
  have hd := hbyte ip.d
  simp only [inetNtop, List.length_append, List.length_cons]
  omega

/-- A dotted address with a port: the range check sees what is left of the number in an
`int`. -/
theorem parseFromString_dotted (ep : EndPoint) (hnet : net.inetPton (inetNtop ip) = some ip)
    (hD : decodeDecimal D = some n) :
    parseFromString net ep (inetNtop ip ++ 58 :: D) =
      (decide (0 ≤ toInt (min n (2 ^ 63 - 1)) ∧ toInt (min n (2 ^ 63 - 1)) ≤ 65535),
        { ip, port := toInt (min n (2 ^ 63 - 1)) }) := by
  have hcolon : 58 ∉ inetNtop ip := fun hmem => by
    rcases mem_inetNtop hmem with h | h <;> exact absurd h (by decide)
  have htake : (inetNtop ip ++ 58 :: D).takeWhile (· ≠ 0) = inetNtop ip ++ 58 :: D := by
    refine List.takeWhile_eq_self_iff.mpr fun c hc => decide_eq_true ?_
    rintro rfl
    rcases List.mem_append.mp hc with hc | hc
    · rcases mem_inetNtop hc with h | h <;> exact absurd h (by decide)
    · rcases List.mem_cons.mp hc with h | h
      · exact absurd h (by decide)
      · exact absurd ((isDigit_of_decodeDecimal hD).2 0 h) (by decide)
  have hcopy := copyHost_append hcolon (by have := length_inetNtop ip; omega : 0 + _ < 64) D
  simp only [parseFromString, htake, hcopy, hnet, Option.some_or, List.tail_cons, strtol_digits hD]
  congr 2
  simp [not_or]

/-- An endpoint that is written is read back. -/
theorem parse_ipToStr (ep ep' : EndPoint) (hnet : net.inetPton (inetNtop ep.ip) = some ep.ip)
    (h0 : 0 ≤ ep.port) (hport : ep.port ≤ 65535) :
    parseFromString net ep' ep.ipToStr = (true, ep) := by
  obtain ⟨ip, port⟩ := ep
  obtain ⟨n, rfl⟩ := Int.eq_ofNat_of_zero_le h0
  replace hport : (n : ℤ) ≤ 65535 := hport
  have hint : toInt (min (n : ℤ) (2 ^ 63 - 1)) = n := by
    simp only [toInt, Int.bmod_def]
    push_cast
    omega
  have hdotted := parseFromString_dotted ep' hnet (decodeDecimal_decimal n)
  rw [hint, decide_eq_true ⟨h0, hport⟩] at hdotted
  rw [ipToStr, if_neg (not_lt.mpr h0)]
  exact hdotted

theorem parse_ipToStr_port :
    parseFromString ⟨fun _ => some ⟨10, 0, 0, 1⟩, fun _ => none⟩ ⟨⟨0, 0, 0, 0⟩, 0⟩
      (ipToStr ⟨⟨10, 0, 0, 1⟩, 12200⟩) = (true, ⟨⟨10, 0, 0, 1⟩, 12200⟩) :=
  parse_ipToStr ⟨⟨10, 0, 0, 1⟩, 12200⟩ _ rfl (by decide) (by decide)

/-- A valid dotted address with a port is accepted exactly if the port is at most 65535, unless it
is a number of more than 32 bits, within `long`, whose lower 32 bits are at most 65535. -/
theorem parse_port_iff (ep : EndPoint) (hnet : net.inetPton (inetNtop ip) = some ip)
    (hD : decodeDecimal D = some n) :
    (((parseFromString net ep (inetNtop ip ++ 58 :: D)).1 = true ↔ n ≤ 65535) ∧
      ((parseFromString net ep (inetNtop ip ++ 58 :: D)).1 = true →
        (parseFromString net ep (inetNtop ip ++ 58 :: D)).2 = { ip, port := n })) ↔
      ¬ (2 ^ 32 ≤ n ∧ n < 2 ^ 63 ∧ n % 2 ^ 32 ≤ 65535) := by
  rw [parseFromString_dotted ep hnet hD, decide_eq_true_eq]
  simp only [EndPoint.mk.injEq, true_and, toInt, Int.bmod_def]
  push_cast
  omega

def loopback : InAddr := ⟨127, 0, 0, 1⟩

def onlyLoopback : Resolver where
  inetPton s := if s = inetNtop loopback then some loopback else none
  getHostByName _ := none

theorem parse_port_next :
    (((parseFromString onlyLoopback ⟨loopback, 0⟩
        (inetNtop loopback ++ 58 :: [54, 53, 53, 51, 54])).1 = true ↔ 65536 ≤ 65535) ∧
      ((parseFromString onlyLoopback ⟨loopback, 0⟩
          (inetNtop loopback ++ 58 :: [54, 53, 53, 51, 54])).1 = true →
        (parseFromString onlyLoopback ⟨loopback, 0⟩
          (inetNtop loopback ++ 58 :: [54, 53, 53, 51, 54])).2 = ⟨loopback, (65536 : ℕ)⟩)) :=
  (parse_port_iff ⟨loopback, 0⟩ (by decide +kernel) (by decide +kernel)).mpr (by decide)

/-- `127.0.0.1:4294967376` is accepted with port 80. -/
theorem wrapped_port_accepted :
    decodeDecimal [52, 50, 57, 52, 57, 54, 55, 51, 55, 54] = some 4294967376 ∧
      parseFromString onlyLoopback ⟨loopback, 0⟩
        (inetNtop loopback ++ 58 :: [52, 50, 57, 52, 57, 54, 55, 51, 55, 54]) =
          (true, ⟨loopback, 80⟩) := by
  decide +kernel

end EndPoint

end SofaBolt
