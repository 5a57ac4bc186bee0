import SofaBolt.LifeCycleLock
import SofaBolt.Run

namespace SofaBolt.LifeCycleLock

open Run

inductive UpgradePc where
  | outside
  | waiting
  | owning
deriving DecidableEq, Repr

structure UpgradeState where
  bits : ℤ
  threads : List UpgradePc
deriving DecidableEq, Repr

inductive UpgradeOp where
  | tryUpgrade
  | tryExclusive
  | releaseExclusive
deriving DecidableEq, Repr

def upgradeOp (bits : ℤ) : UpgradePc → UpgradeOp → Option (ℤ × UpgradePc)
  | .outside, .tryUpgrade =>
    some ((tryUpgrade bits).2, if (tryUpgrade bits).1 then .waiting else .outside)
  | .waiting, .tryExclusive =>
    match tryExclusive bits with
    | some bits => some (bits, .owning)
    | none => some (bits, .waiting)
  | .owning, .releaseExclusive => some (releaseExclusive bits, .outside)
  | _, _ => none

def upgradeStep (s : UpgradeState) (a : ℕ × UpgradeOp) : Option UpgradeState :=
  (s.threads[a.1]?).bind fun t =>
    (upgradeOp s.bits t a.2).map fun r => { bits := r.1, threads := s.threads.set a.1 r.2 }

namespace UpgradeState

variable {s s' : UpgradeState} {p : ℕ} {t t' : UpgradePc}

def init (n : ℕ) : UpgradeState where
  bits := 0
  threads := List.replicate n .outside

/-- No thread upgrades while another one has upgraded and is not exclusive yet. -/
def UpgradesAlone (s : UpgradeState) (a : ℕ × UpgradeOp) : Prop :=
  a.2 = .tryUpgrade → UpgradePc.waiting ∉ s.threads

instance (s : UpgradeState) (a : ℕ × UpgradeOp) : Decidable (UpgradesAlone s a) :=
  inferInstanceAs (Decidable (_ → _))

def at_ (s : UpgradeState) (pc : UpgradePc) : ℕ := s.threads.countP (· = pc)

/-- One thread at most has upgraded, and the word says how far it is; while a thread
is exclusive the other bit says nothing. -/
structure InvAt (s : UpgradeState) (u x : Bool) : Prop where
  bits : s.bits = lockWord 0 u x
  owning : s.at_ .owning = x.toNat
  waiting : s.at_ .waiting = (u && !x).toNat

def Inv (s : UpgradeState) : Prop := ∃ u x, InvAt s u x

theorem inv_init (n : ℕ) : InvAt (init n) false false where
  bits := rfl
  owning := by simp [init, at_]
  waiting := by simp [init, at_]

theorem at_set (ht : s.threads[p]? = some t) (t' : UpgradePc) (bits : ℤ) (pc : UpgradePc) :
    at_ ⟨bits, s.threads.set p t'⟩ pc + (decide (t = pc)).toNat =
      s.at_ pc + (decide (t' = pc)).toNat :=
  countP_set_add ht t' (· = pc)

theorem at_eq_zero {pc : UpgradePc} (h : pc ∉ s.threads) : s.at_ pc = 0 := by
  refine List.countP_eq_zero.mpr fun r hr hpc => h ?_
  rwa [← of_decide_eq_true hpc]

theorem at_pos {pc : UpgradePc} (h : s.threads[p]? = some pc) : 0 < s.at_ pc :=
  List.countP_pos_iff.mpr ⟨pc, mem_of_getElem? h, decide_eq_true rfl⟩

theorem tryUpgrade_lockWord (n : ℕ) (u x : Bool) :
    LifeCycleLock.tryUpgrade (lockWord n u x) = (!x, lockWord n true x) := by
  have hx := land_exclusive_lockWord n u x
  rw [LifeCycleLock.tryUpgrade, orUpgraded_lockWord]
  cases x <;> simp_all

theorem InvAt.tryUpgrade {u x : Bool} (hi : InvAt s u x) (ht : s.threads[p]? = some .outside)
    (hw : UpgradePc.waiting ∉ s.threads) :
    InvAt ⟨(LifeCycleLock.tryUpgrade s.bits).2, s.threads.set p
      (if (LifeCycleLock.tryUpgrade s.bits).1 then .waiting else .outside)⟩ true x := by
  rw [hi.bits, tryUpgrade_lockWord]
  have hwait := at_eq_zero hw
  have hown := hi.owning
  cases x with
  | false =>
    refine ⟨rfl, ?_, ?_⟩
    · simpa [hown] using at_set ht .waiting (lockWord 0 true false) .owning
    · simpa [hwait] using at_set ht .waiting (lockWord 0 true false) .waiting
  | true =>
    refine ⟨rfl, ?_, ?_⟩
    · simpa [hown] using at_set ht .outside (lockWord 0 true true) .owning
    · simpa [hwait] using at_set ht .outside (lockWord 0 true true) .waiting

theorem InvAt.tryExclusive {u x : Bool} (hi : InvAt s u x) (ht : s.threads[p]? = some .waiting)
    {bits : ℤ} (hx : LifeCycleLock.tryExclusive s.bits = some bits) :
    InvAt ⟨bits, s.threads.set p .owning⟩ false true := by
  rw [LifeCycleLock.tryExclusive, Option.ite_none_right_eq_some] at hx
  obtain ⟨hup, rfl⟩ := hx.imp_right Option.some.inj
  obtain ⟨-, rfl, rfl⟩ := (lockWord_eq_upgraded _ _ _).mp (hi.bits.symm.trans hup)
  refine ⟨rfl, ?_, ?_⟩
  · simpa [hi.owning] using at_set ht .owning LifeCycleLock.exclusive .owning
  · simpa [hi.waiting] using at_set ht .owning LifeCycleLock.exclusive .waiting

theorem InvAt.releaseExclusive {u x : Bool} (hi : InvAt s u x) (ht : s.threads[p]? = some .owning) :
    InvAt ⟨LifeCycleLock.releaseExclusive s.bits, s.threads.set p .outside⟩ false false := by
  have hpos := at_pos ht
  have hown := hi.owning
  have hwait := hi.waiting
  obtain rfl : x = true := by
    cases x with
    | false => exact absurd hown hpos.ne'
    | true => rfl
  rw [hi.bits, releaseExclusive_lockWord]
  refine ⟨rfl, ?_, ?_⟩
  · simpa [hown] using at_set ht .outside (lockWord 0 false false) .owning
  · simpa [hwait] using at_set ht .outside (lockWord 0 false false) .waiting

theorem Inv.step (hi : Inv s) {a : ℕ × UpgradeOp} (hc : UpgradesAlone s a)
    (h : upgradeStep s a = some s') : Inv s' := by
  obtain ⟨u, x, hi⟩ := hi
  obtain ⟨p, op⟩ := a
  obtain ⟨t, ht, h⟩ := Option.bind_eq_some_iff.mp h
  obtain ⟨r, hr, rfl⟩ := Option.map_eq_some_iff.mp h
  cases t <;> cases op <;> simp only [upgradeOp, reduceCtorEq] at hr
  case outside.tryUpgrade =>
    obtain rfl := Option.some.inj hr
    exact ⟨_, _, hi.tryUpgrade ht (hc rfl)⟩
  case waiting.tryExclusive =>
    cases hx : LifeCycleLock.tryExclusive s.bits with
    | some bits =>
      rw [hx] at hr
      obtain rfl := Option.some.inj hr
      exact ⟨_, _, hi.tryExclusive ht hx⟩
    | none =>
      -- the exchange fails and writes nothing
      rw [hx] at hr
      obtain rfl := Option.some.inj hr
      obtain ⟨hp, hpt⟩ := List.getElem?_eq_some_iff.mp ht
      refine ⟨u, x, ?_⟩
      simp only [← hpt, List.set_getElem_self]
      exact hi
  case owning.releaseExclusive =>
    obtain rfl := Option.some.inj hr
    exact ⟨_, _, hi.releaseExclusive ht⟩

theorem Inv.upgraded (hi : Inv s) (hp : s.threads[p]? = some .waiting) :
    Int.land s.bits LifeCycleLock.upgraded ≠ 0 := by
  obtain ⟨u, x, hi⟩ := hi
  have hpos := at_pos hp
  rw [hi.waiting] at hpos
  rw [hi.bits, land_upgraded_lockWord]
  cases u with
  | false => exact absurd hpos (by simp)
  | true => rfl

/-- While a thread waits in `exclusive()` one of the low bits is set, and it is the
upgraded one after a `releaseExclusive`, if no thread upgrades while another waits. -/
theorem upgrade_not_lost (n : ℕ) (as : List (ℕ × UpgradeOp)) (s : UpgradeState)
    (hm : Meets upgradeStep UpgradesAlone (init n) as)
    (h : run upgradeStep (init n) as = some s) :
    (∀ q : ℕ, s.threads[q]? = some .waiting →
        Int.land s.bits upgraded ≠ 0 ∨ Int.land s.bits LifeCycleLock.exclusive ≠ 0) ∧
      ∀ (p : ℕ) (s' : UpgradeState), upgradeStep s (p, .releaseExclusive) = some s' →
        ∀ q : ℕ, s'.threads[q]? = some .waiting → Int.land s'.bits upgraded ≠ 0 := by
  have hi : Inv s := run_induction (fun _ _ _ hi hc => hi.step hc) ⟨_, _, inv_init n⟩ hm h
  exact ⟨fun q hq => Or.inl (hi.upgraded hq), fun p s' hstep q hq =>
    (hi.step (by rintro ⟨⟩) hstep).upgraded hq⟩

theorem upgrade_not_lost_two :
    ∃ as s, Meets upgradeStep UpgradesAlone (init 2) as ∧
      run upgradeStep (init 2) as = some s ∧ s.threads[1]? = some .waiting ∧
      ((∀ q : ℕ, s.threads[q]? = some .waiting →
        Int.land s.bits upgraded ≠ 0 ∨ Int.land s.bits LifeCycleLock.exclusive ≠ 0) ∧
      ∀ (p : ℕ) (s' : UpgradeState), upgradeStep s (p, .releaseExclusive) = some s' →
        ∀ q : ℕ, s'.threads[q]? = some .waiting → Int.land s'.bits upgraded ≠ 0) := by
  have hm : Meets upgradeStep UpgradesAlone (init 2)
      [(0, UpgradeOp.tryUpgrade), (0, .tryExclusive), (1, .tryUpgrade), (0, .releaseExclusive),
        (1, .tryUpgrade)] := by decide +kernel
  have hr : run upgradeStep (init 2)
      [(0, UpgradeOp.tryUpgrade), (0, .tryExclusive), (1, .tryUpgrade), (0, .releaseExclusive),
        (1, .tryUpgrade)] = some ⟨2, [.outside, .waiting]⟩ := by decide +kernel
  exact ⟨_, _, hm, hr, rfl, upgrade_not_lost 2 _ _ hm hr⟩

/-- Two threads upgrade one after the other; the first is exclusive and releases, and
the second waits with both bits clear. -/
theorem upgrade_lost :
    ∃ as s s', run upgradeStep (init 2) as = some s ∧ s.threads[1]? = some .waiting ∧
      upgradeStep s (0, .releaseExclusive) = some s' ∧ s'.threads[1]? = some .waiting ∧
      Int.land s'.bits upgraded = 0 ∧ Int.land s'.bits LifeCycleLock.exclusive = 0 := by
  have hr : run upgradeStep (init 2)
      [(0, UpgradeOp.tryUpgrade), (1, .tryUpgrade), (0, .tryExclusive)] =
        some ⟨1, [.owning, .waiting]⟩ := by decide +kernel
  have hs : upgradeStep ⟨1, [.owning, .waiting]⟩ (0, .releaseExclusive) =
      some ⟨0, [.outside, .waiting]⟩ := by decide +kernel
  exact ⟨_, _, _, hr, rfl, hs, rfl, by decide, by decide⟩

end UpgradeState

end SofaBolt.LifeCycleLock
