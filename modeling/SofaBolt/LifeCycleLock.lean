import Mathlib.Data.Int.Bitwise
import Mathlib.Tactic

/- The lock is one integer: four times the number of sharers, plus two if it is upgraded, plus
one if it is exclusive. It has 32 bits, which fewer than 2^29 sharers do not exhaust. -/

namespace SofaBolt.LifeCycleLock

def shared : ℤ := 4
def upgraded : ℤ := 2
def exclusive : ℤ := 1

def held (value : ℤ) : Bool := Int.land value (Int.lor upgraded exclusive) != 0

def addShared (bits : ℤ) : ℤ := bits + shared

/-- `releaseShared`, and the second access of a `tryShared` that is refused. -/
def releaseShared (bits : ℤ) : ℤ := bits + -shared

/-- `fetch_or(UPGRADED)`. -/
def orUpgraded (bits : ℤ) : ℤ := Int.lor bits upgraded

def tryUpgrade (bits : ℤ) : Bool × ℤ := (Int.land bits exclusive == 0, orUpgraded bits)

def tryUpgradeNonReEntrant (bits : ℤ) : Bool × ℤ := (!held bits, orUpgraded bits)

def tryExclusive (bits : ℤ) : Option ℤ := if bits = upgraded then some exclusive else none

def releaseExclusive (bits : ℤ) : ℤ := Int.land bits (Int.lnot (Int.lor exclusive upgraded))

theorem held_bit (a b : Bool) (k : ℤ) : held (Int.bit a (Int.bit b k)) = (a || b) := by
  have hthree : Int.lor upgraded exclusive = Int.bit true (Int.bit true 0) := rfl
  have hzero : Int.land k 0 = 0 := by
    cases k with
    | ofNat n => exact congrArg Int.ofNat (Nat.and_zero n)
    | negSucc n =>
      have hdiff : Nat.ldiff 0 n = 0 := Nat.eq_of_testBit_eq fun i => by simp [Nat.testBit_ldiff]
      exact congrArg Int.ofNat hdiff
  rw [held, hthree, Int.land_bit, Int.land_bit, Bool.and_true, Bool.and_true, hzero]
  cases a <;> cases b <;> rfl

theorem exists_bits (bits : ℤ) : ∃ a b k, bits = Int.bit a (Int.bit b k) :=
  ⟨_, _, _, by rw [Int.bit_decomp, Int.bit_decomp]⟩

theorem held_addShared (bits : ℤ) : held (addShared bits) = held bits := by
  obtain ⟨a, b, k, rfl⟩ := exists_bits bits
  have hadd : addShared (Int.bit a (Int.bit b k)) = Int.bit a (Int.bit b (k + 1)) := by
    simp only [addShared, shared, Int.bit_val]
    ring
  rw [hadd, held_bit, held_bit]

theorem held_releaseShared (bits : ℤ) : held (releaseShared bits) = held bits := by
  rw [← held_addShared (releaseShared bits)]
  simp [addShared, releaseShared]

theorem held_orUpgraded (bits : ℤ) : held (orUpgraded bits) = true := by
  obtain ⟨a, b, k, rfl⟩ := exists_bits bits
  have htwo : upgraded = Int.bit false (Int.bit true 0) := rfl
  rw [orUpgraded, htwo, Int.lor_bit, Int.lor_bit, held_bit]
  simp

theorem held_of_tryExclusive {bits value : ℤ} (h : tryExclusive bits = some value) :
    held bits = true ∧ held value = true := by
  unfold tryExclusive at h
  split_ifs at h with hb
  obtain rfl := Option.some.inj h
  subst hb
  exact ⟨rfl, rfl⟩

def lockWord (n : ℕ) (u x : Bool) : ℤ := ((4 * n + (2 * u.toNat + x.toNat) : ℕ) : ℤ)

def word (n : ℕ) (u : Bool) : ℤ := ((4 * n + 2 * u.toNat : ℕ) : ℤ)

theorem word_eq (n : ℕ) (u : Bool) : word n u = lockWord n u false := rfl

theorem addShared_lockWord (n : ℕ) (u x : Bool) :
    addShared (lockWord n u x) = lockWord (n + 1) u x := by
  simp only [addShared, lockWord, shared]
  omega

theorem releaseShared_lockWord (n : ℕ) (u x : Bool) :
    releaseShared (lockWord (n + 1) u x) = lockWord n u x := by
  simp only [releaseShared, lockWord, shared]
  omega

theorem four_mul_add_or {n r : ℕ} (hr : r < 4) (k : ℕ) (hk : r ||| k < 4) :
    (4 * n + r) ||| k = 4 * n + (r ||| k) := by
  have h₁ := Nat.two_pow_add_eq_or_of_lt (i := 2) hr n
  have h₂ := Nat.two_pow_add_eq_or_of_lt (i := 2) hk n
  norm_num at h₁ h₂
  rw [h₁, h₂, Nat.or_assoc]

theorem ldiff_three {n r : ℕ} (hr : r < 4) : Nat.ldiff (4 * n + r) 3 = 4 * n := by
  apply Nat.eq_of_testBit_eq
  intro i
  have h₁ := Nat.testBit_two_pow_mul_add n (i := 2) hr i
  have h₂ := Nat.testBit_two_pow_sub_one 2 i
  have h₃ := Nat.testBit_two_pow_mul (i := 2) (a := n) (j := i)
  norm_num at h₁ h₂ h₃
  rw [Nat.testBit_ldiff, h₁, h₂, h₃]
  by_cases hi : i ≤ 1
  · simp [hi, show ¬ 2 ≤ i by omega]
  · simp [hi, show 2 ≤ i by omega]

theorem low_lt (u x : Bool) : 2 * u.toNat + x.toNat < 4 := by
  cases u <;> cases x <;> decide

theorem orUpgraded_lockWord (n : ℕ) (u x : Bool) :
    orUpgraded (lockWord n u x) = lockWord n true x := by
  have hor : (4 * n + (2 * u.toNat + x.toNat)) ||| 2 = 4 * n + (2 * true.toNat + x.toNat) := by
    rw [four_mul_add_or (low_lt u x) 2 (by cases u <;> cases x <;> decide)]
    cases u <;> cases x <;> rfl
  exact congrArg Int.ofNat hor

theorem releaseExclusive_lockWord (n : ℕ) (u x : Bool) :
    releaseExclusive (lockWord n u x) = lockWord n false false :=
  congrArg Int.ofNat (ldiff_three (low_lt u x))

theorem held_lockWord (n : ℕ) (u x : Bool) : held (lockWord n u x) = (u || x) := by
  have hmod : (4 * n + (2 * u.toNat + x.toNat)) &&& 3 = 2 * u.toNat + x.toNat := by
    have h := Nat.and_two_pow_sub_one_eq_mod (4 * n + (2 * u.toNat + x.toNat)) 2
    norm_num at h
    rw [h]
    exact Nat.mod_eq_of_lt (low_lt u x)
  have hand : Int.land (lockWord n u x) (Int.lor upgraded exclusive) =
      Int.ofNat (2 * u.toNat + x.toNat) := congrArg Int.ofNat hmod
  rw [held, hand]
  cases u <;> cases x <;> decide

theorem land_exclusive_lockWord (n : ℕ) (u x : Bool) :
    Int.land (lockWord n u x) exclusive ≠ 0 ↔ x = true := by
  have hmod : (4 * n + (2 * u.toNat + x.toNat)) &&& 1 = x.toNat := by
    rw [Nat.and_one_is_mod]
    cases x
    · simp only [Bool.toNat_false]
      omega
    · simp only [Bool.toNat_true]
      omega
  have hand : Int.land (lockWord n u x) exclusive = Int.ofNat x.toNat := congrArg Int.ofNat hmod
  rw [hand]
  cases x <;> decide

theorem land_upgraded_lockWord (n : ℕ) (u x : Bool) :
    Int.land (lockWord n u x) upgraded ≠ 0 ↔ u = true := by
  have hmod : (4 * n + (2 * u.toNat + x.toNat)) &&& 2 = 2 * u.toNat := by
    have h := Nat.and_two_pow (4 * n + (2 * u.toNat + x.toNat)) 1
    have hlow := Bool.toNat_lt x
    have hbit : (4 * n + (2 * u.toNat + x.toNat)) / 2 % 2 = u.toNat := by
      cases u
      · simp only [Bool.toNat_false]
        omega
      · simp only [Bool.toNat_true]
        omega
    rw [Nat.testBit_eq_decide_div_mod_eq] at h
    norm_num only at h
    rw [h, hbit]
    cases u <;> rfl
  have hand : Int.land (lockWord n u x) upgraded = Int.ofNat (2 * u.toNat) :=
    congrArg Int.ofNat hmod
  rw [hand]
  cases u <;> decide

theorem lockWord_eq_upgraded (n : ℕ) (u x : Bool) :
    lockWord n u x = upgraded ↔ n = 0 ∧ u = true ∧ x = false := by
  cases u <;> cases x <;> simp [lockWord, upgraded] <;> omega

theorem addShared_word (n : ℕ) (u : Bool) : addShared (word n u) = word (n + 1) u :=
  addShared_lockWord n u false

theorem releaseShared_word (n : ℕ) (u : Bool) : releaseShared (word (n + 1) u) = word n u :=
  releaseShared_lockWord n u false

theorem orUpgraded_word (n : ℕ) (u : Bool) : orUpgraded (word n u) = word n true :=
  orUpgraded_lockWord n u false

theorem held_word (n : ℕ) (u : Bool) : held (word n u) = u := by
  rw [word_eq, held_lockWord, Bool.or_false]

theorem word_eq_upgraded (n : ℕ) (u : Bool) : word n u = upgraded ↔ n = 0 ∧ u = true := by
  rw [word_eq, lockWord_eq_upgraded]
  simp

end SofaBolt.LifeCycleLock
