import SofaBolt.SocketWrite
import SofaBolt.TimeThread

/- Arithmetic is that of the types; where `int` overflows, it wraps. -/

namespace SofaBolt

open SocketWrite

structure ChannelOptions where
  timeoutMs : Int32
  maxRetry : Int32
deriving DecidableEq, Repr

structure Session where
  timeout : Int32
  retry : Int32
deriving DecidableEq, Repr

namespace Session

def new : Session := ⟨-1, -1⟩

/-- `Session::to(Channel &)`. -/
def toChannel (s : Session) (options : ChannelOptions) : Session where
  timeout := if s.timeout < 0 then options.timeoutMs else s.timeout
  retry := if s.retry < 0 then options.maxRetry else s.retry

/-- `session_info->expire_time`. -/
def expireTime (s : Session) (requestTime : UInt64) : UInt64 :=
  if 0 < s.timeout then requestTime + (s.timeout * 1000).toInt64.toUInt64
  else UInt64.ofNat maxTime

def writeTimeout (s : Session) (elapsed : UInt64) : Int32 :=
  (s.timeout.toInt64.toUInt64 - elapsed).toUInt32.toInt32

theorem toUInt64_toNat (x : Int32) : (x.toInt64.toUInt64.toNat : ℤ) = x.toInt % 2 ^ 64 := by
  rw [← Int32.toInt_toInt64, ← Int64.toInt_toBitVec, BitVec.toInt_eq_toNat_cond]
  have hlt := x.toInt64.toBitVec.isLt
  change ((x.toInt64.toBitVec.toNat : ℕ) : ℤ) = _
  split <;> omega

theorem toInt32_toInt (x : UInt64) : x.toUInt32.toInt32.toInt = (x.toNat : ℤ).bmod (2 ^ 32) := by
  rw [← Int32.toInt_toBitVec, UInt32.toBitVec_toInt32, UInt64.toBitVec_toUInt32,
    BitVec.toInt_setWidth]
  rfl

variable {s : Session}

theorem expireTime_of_nonpos (ht : s.timeout.toInt ≤ 0) (requestTime : UInt64) :
    (s.expireTime requestTime).toNat = maxTime := by
  have hneg : ¬ 0 < s.timeout := by
    rw [Int32.lt_iff_toInt_lt]
    simpa using ht
  rw [expireTime, if_neg hneg]
  rfl

/-- The sum is right exactly if the product stays an `int` and the sum a `size_t`. -/
theorem expireTime_eq_iff (ht : 0 < s.timeout.toInt) (requestTime : UInt64) :
    ((s.expireTime requestTime).toNat : ℤ) = requestTime.toNat + 1000 * s.timeout.toInt ↔
      1000 * s.timeout.toInt < 2 ^ 31 ∧ requestTime.toNat + 1000 * s.timeout.toInt < 2 ^ 64 := by
  have hpos : 0 < s.timeout := by
    rw [Int32.lt_iff_toInt_lt]
    simpa using ht
  have hlt := s.timeout.toInt_lt
  have hprod : (s.timeout * 1000).toInt = (1000 * s.timeout.toInt).bmod (2 ^ 32) := by
    rw [Int32.toInt_mul, show (1000 : Int32).toInt = 1000 from rfl, Int.mul_comm]
  have hconv := toUInt64_toNat (s.timeout * 1000)
  have hwrap := Int.bdiv_add_bmod (1000 * s.timeout.toInt) (2 ^ 32)
  have hle := Int.le_bmod (x := 1000 * s.timeout.toInt) (m := 2 ^ 32) (by decide)
  have hlt' := Int.bmod_lt (x := 1000 * s.timeout.toInt) (m := 2 ^ 32) (by decide)
  rw [expireTime, if_pos hpos, UInt64.toNat_add]
  rw [hprod] at hconv
  -- a product that wraps is off by a multiple of 2^32 below 2^64
  generalize (1000 * s.timeout.toInt).bmod (2 ^ 32) = product at *
  generalize (1000 * s.timeout.toInt).bdiv (2 ^ 32) = turns at *
  have hturns : 0 ≤ turns ∧ turns < 2 ^ 32 := by omega
  by_cases hfit : 1000 * s.timeout.toInt < 2 ^ 31
  · obtain rfl : turns = 0 := by omega
    omega
  · omega

theorem writeTimeout_toInt (s : Session) (elapsed : UInt64) :
    (s.writeTimeout elapsed).toInt = (s.timeout.toInt - elapsed.toNat).bmod (2 ^ 32) := by
  have hlt := elapsed.toNat_lt
  have hconv := toUInt64_toNat s.timeout
  have hsub : ((s.timeout.toInt64.toUInt64 - elapsed).toNat : ℤ) =
      (s.timeout.toInt - elapsed.toNat) % 2 ^ 64 := by
    rw [UInt64.toNat_sub]
    omega
  rw [writeTimeout, toInt32_toInt, hsub, Int.bmod_eq_bmod_iff_bmod_sub_eq_zero, Int.bmod_def]
  omega

/-- `write` refuses a request at its first check exactly if the time left, as an `int32_t`, is
negative. -/
theorem begin_refuses_iff (s : Session) (elapsed : UInt64) {buffer : IOBuffer}
    (hb : buffer.length ≠ 0) (active : Bool) :
    (begin buffer (s.writeTimeout elapsed).toInt active).status = .returned false ↔
      2 ^ 31 ≤ (s.timeout.toInt - elapsed.toNat) % 2 ^ 32 := by
  have hneg : (begin buffer (s.writeTimeout elapsed).toInt active).status = .returned false ↔
      (s.writeTimeout elapsed).toInt < 0 := by
    simp [begin, hb]
  rw [hneg, writeTimeout_toInt, Int.bmod_def]
  split <;> omega

/-- Both deadlines are those of the timeout exactly if a positive timeout is small enough for the
arithmetic and, for one that is to wait permanently, the narrowed time left is not negative. -/
theorem deadlines_from_timeout_iff (s : Session) (requestTime elapsed : UInt64)
    (buffer : IOBuffer) (hb : buffer.length ≠ 0) (active : Bool) :
    (((s.expireTime requestTime).toNat : ℤ) =
        (if 0 < s.timeout.toInt then requestTime.toNat + 1000 * s.timeout.toInt else maxTime) ∧
      ((begin buffer (s.writeTimeout elapsed).toInt active).status = .returned false →
        0 < s.timeout.toInt ∧ s.timeout.toInt < elapsed.toNat)) ↔
    (0 < s.timeout.toInt → 1000 * s.timeout.toInt < 2 ^ 31 ∧
      requestTime.toNat + 1000 * s.timeout.toInt < 2 ^ 64) ∧
    (s.timeout.toInt ≤ 0 → (s.timeout.toInt - elapsed.toNat) % 2 ^ 32 < 2 ^ 31) := by
  rw [begin_refuses_iff s elapsed hb active]
  by_cases ht : 0 < s.timeout.toInt
  · -- a write that is refused before the timeout has passed would need a difference below 0
    have hlt := s.timeout.toInt_lt
    rw [if_pos ht, expireTime_eq_iff ht]
    refine ⟨fun h => ⟨fun _ => h.1, fun hle => absurd ht (not_lt.mpr hle)⟩,
      fun h => ⟨h.1 ht, fun hrefuse => ⟨ht, ?_⟩⟩⟩
    omega
  · rw [if_neg ht, expireTime_of_nonpos (not_lt.mp ht)]
    refine ⟨fun h => ⟨fun ht' => absurd ht' ht, fun _ => ?_⟩,
      fun h => ⟨rfl, fun hrefuse => absurd (h.2 (not_lt.mp ht)) (not_lt.mpr hrefuse)⟩⟩
    by_contra hrefuse
    exact ht (h.2 (not_lt.mp hrefuse)).1

theorem deadlines_from_timeout_iff_second :
    (((Session.mk 1000 3).expireTime 1700000000000000).toNat = 1700000001000000 ∧
      (begin ⟨[⟨0, 0, 1⟩], 0⟩ ((Session.mk 1000 3).writeTimeout 1000).toInt true).status ≠
        .returned false) ∧
    (begin ⟨[⟨0, 0, 1⟩], 0⟩ ((Session.mk 0 3).writeTimeout 2147483649).toInt true).status ≠
      .returned false := by
  obtain ⟨hexp, hwrite⟩ := (deadlines_from_timeout_iff ⟨1000, 3⟩ 1700000000000000 1000
    ⟨[⟨0, 0, 1⟩], 0⟩ (by decide) true).mpr ⟨by decide, by decide⟩
  obtain ⟨-, hwait⟩ := (deadlines_from_timeout_iff ⟨0, 3⟩ 0 2147483649
    ⟨[⟨0, 0, 1⟩], 0⟩ (by decide) true).mpr ⟨by decide, by decide⟩
  exact ⟨⟨Int.ofNat_inj.mp hexp, fun h => absurd (hwrite h).2 (by decide)⟩,
    fun h => absurd (hwait h).1 (by decide)⟩

/-- A channel that is to wait permanently refuses every request; a timeout of 0 does so after a
millisecond; a timeout of 2147484 ms has expired before it begins. -/
theorem deadlines_missed :
    (begin ⟨[⟨0, 0, 1⟩], 0⟩ ((new.toChannel ⟨-1, 3⟩).writeTimeout 0).toInt true).status =
        .returned false ∧
      (begin ⟨[⟨0, 0, 1⟩], 0⟩ ((Session.mk 0 3).writeTimeout 1).toInt true).status =
        .returned false ∧
      ((Session.mk 2147484 3).expireTime 1700000000000000).toNat < 1700000000000000 := by
  decide

end Session

end SofaBolt
