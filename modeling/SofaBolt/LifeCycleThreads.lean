import SofaBolt.LifeCycleLock
import SofaBolt.Run

/- A thread that takes a second share before it has released the first counts as two here: the
lock does not know who holds a share. -/

namespace SofaBolt.LifeCycleLock

open Run

def fetchAdd (bits k : ℤ) : ℤ := Int.bmod (bits + k) (2 ^ 32)

structure LockThread where
  shared : Bool
  refused : Bool
  exclusive : Bool
deriving DecidableEq, Repr

def LockThread.counted (t : LockThread) : Bool := t.shared || t.refused

structure LockState where
  bits : ℤ
  threads : List LockThread
deriving DecidableEq, Repr

def LockState.init (n : ℕ) : LockState where
  bits := 0
  threads := List.replicate n ⟨false, false, false⟩

inductive LockOp where
  | addShared
  | backOut
  | tryUpgrade
  | tryUpgradeNonReEntrant
  | tryExclusive
  | releaseShared
  | releaseExclusive
deriving DecidableEq, Repr

def lockOp (bits : ℤ) (t : LockThread) : LockOp → Option (ℤ × LockThread)
  | .addShared =>
    if t.shared || t.refused then none
    else if held bits then some (fetchAdd bits LifeCycleLock.shared, { t with refused := true })
    else some (fetchAdd bits LifeCycleLock.shared, { t with shared := true })
  | .backOut =>
    if t.refused then some (fetchAdd bits (-LifeCycleLock.shared), { t with refused := false })
    else none
  | .tryUpgrade => if t.refused then none else some ((tryUpgrade bits).2, t)
  | .tryUpgradeNonReEntrant =>
    if t.refused then none else some ((tryUpgradeNonReEntrant bits).2, t)
  | .tryExclusive =>
    if t.refused then none
    else match LifeCycleLock.tryExclusive bits with
      | some bits => some (bits, { t with exclusive := true })
      | none => some (bits, t)
  | .releaseShared =>
    if t.shared then some (fetchAdd bits (-LifeCycleLock.shared), { t with shared := false })
    else none
  | .releaseExclusive =>
    if t.refused then none
    else if t.exclusive then
      some (LifeCycleLock.releaseExclusive bits, { t with exclusive := false })
    else none

def lockStep (s : LockState) (a : ℕ × LockOp) : Option LockState :=
  (s.threads[a.1]?).bind fun t =>
    (lockOp s.bits t a.2).map fun r => { bits := r.1, threads := s.threads.set a.1 r.2 }

theorem fetchAdd_shared {n : ℕ} (hn : n + 1 < 2 ^ 29) (u x : Bool) :
    fetchAdd (lockWord n u x) shared = lockWord (n + 1) u x := by
  have hlow := low_lt u x
  have hadd := addShared_lockWord n u x
  unfold addShared at hadd
  rw [fetchAdd, hadd]
  apply Int.bmod_eq_of_le_mul_two
  · simp only [lockWord]
    omega
  · simp only [lockWord]
    omega

theorem fetchAdd_neg_shared {n : ℕ} (hn : n + 1 < 2 ^ 29) (u x : Bool) :
    fetchAdd (lockWord (n + 1) u x) (-shared) = lockWord n u x := by
  have hlow := low_lt u x
  have hsub := releaseShared_lockWord n u x
  unfold releaseShared at hsub
  rw [fetchAdd, hsub]
  apply Int.bmod_eq_of_le_mul_two
  · simp only [lockWord]
    omega
  · simp only [lockWord]
    omega

theorem lockWord_ediv (n : ℕ) (u x : Bool) : lockWord n u x / shared = n := by
  have hlow := low_lt u x
  simp only [lockWord, shared]
  omega

namespace LockState

variable {s s' : LockState} {p n : ℕ} {t t' : LockThread}

def sharers (s : LockState) : ℕ := s.threads.countP LockThread.counted

def owners (s : LockState) : ℕ := s.threads.countP LockThread.exclusive

structure Counted (s : LockState) (u x : Bool) : Prop where
  bits : s.bits = lockWord s.sharers u x
  owners : s.owners = x.toNat
  alone : x = true → ∀ t ∈ s.threads, t.shared = false

structure Inv (n : ℕ) (s : LockState) : Prop where
  length : s.threads.length = n
  apart : ∀ t ∈ s.threads, (t.shared && t.refused) = false
  counted : ∃ u x, s.Counted u x

theorem inv_init (n : ℕ) : Inv n (init n) where
  length := List.length_replicate
  apart t ht := by rw [List.eq_of_mem_replicate ht]; rfl
  counted := by
    refine ⟨false, false, ?_, ?_, (by cases ·)⟩
    · simp [init, sharers, LockThread.counted, lockWord]
    · simp [init, owners]

def put (s : LockState) (p : ℕ) (bits : ℤ) (t' : LockThread) : LockState :=
  { bits, threads := s.threads.set p t' }

theorem sharers_put (ht : s.threads[p]? = some t) (bits : ℤ) (t' : LockThread) :
    (s.put p bits t').sharers + t.counted.toNat = s.sharers + t'.counted.toNat :=
  countP_set_add ht t' LockThread.counted

theorem owners_put (ht : s.threads[p]? = some t) (bits : ℤ) (t' : LockThread) :
    (s.put p bits t').owners + t.exclusive.toNat = s.owners + t'.exclusive.toNat :=
  countP_set_add ht t' LockThread.exclusive

theorem Inv.put (hi : Inv n s) (bits : ℤ) (hap : (t'.shared && t'.refused) = false)
    {u x : Bool} (hc : (s.put p bits t').Counted u x) : Inv n (s.put p bits t') where
  length := (List.length_set ..).trans hi.length
  apart r hr := by
    rcases List.mem_or_eq_of_mem_set hr with hr | rfl
    · exact hi.apart r hr
    · exact hap
  counted := ⟨u, x, hc⟩

theorem sharers_le (s : LockState) : s.sharers ≤ s.threads.length := List.countP_le_length

theorem alone_put {x : Bool} (h : x = true → ∀ t ∈ s.threads, t.shared = false)
    (ht' : x = true → t'.shared = false) (bits : ℤ) :
    x = true → ∀ t ∈ (s.put p bits t').threads, t.shared = false := by
  intro hx r hr
  rcases List.mem_or_eq_of_mem_set hr with hr | rfl
  · exact h hx r hr
  · exact ht' hx

/-- A thread that neither counts nor leaves the exclusive mode adds its share. -/
theorem Inv.add (hi : Inv n s) (hn : n < 2 ^ 29) (ht : s.threads[p]? = some t) {u x : Bool}
    (hc : s.Counted u x) (hfree : t.counted = false) (hcount : t'.counted = true)
    (hx : t'.exclusive = t.exclusive) (hap : (t'.shared && t'.refused) = false)
    (hal : x = true → t'.shared = false) :
    Inv n (s.put p (fetchAdd s.bits LifeCycleLock.shared) t') := by
  have hsh := sharers_put ht (fetchAdd s.bits LifeCycleLock.shared) t'
  have how := owners_put ht (fetchAdd s.bits LifeCycleLock.shared) t'
  have hle := sharers_le (s.put p (fetchAdd s.bits LifeCycleLock.shared) t')
  have hlen : (s.put p (fetchAdd s.bits LifeCycleLock.shared) t').threads.length = n :=
    (List.length_set ..).trans hi.length
  rw [hfree, hcount, Bool.toNat_false, Bool.toNat_true, Nat.add_zero] at hsh
  refine hi.put _ hap (u := u) (x := x) ⟨?_, ?_, alone_put hc.alone hal _⟩
  · rw [hsh]
    exact (congrArg (fetchAdd · LifeCycleLock.shared) hc.bits).trans (fetchAdd_shared (by omega) u x)
  · rw [hx] at how
    rw [← hc.owners]
    omega

theorem Inv.sub (hi : Inv n s) (hn : n < 2 ^ 29) (ht : s.threads[p]? = some t) {u x : Bool}
    (hc : s.Counted u x) (hcount : t.counted = true) (hfree : t'.counted = false)
    (hx : t'.exclusive = t.exclusive) :
    Inv n (s.put p (fetchAdd s.bits (-LifeCycleLock.shared)) t') := by
  have hsh := sharers_put ht (fetchAdd s.bits (-LifeCycleLock.shared)) t'
  have how := owners_put ht (fetchAdd s.bits (-LifeCycleLock.shared)) t'
  have hle := s.sharers_le
  rw [hi.length] at hle
  rw [hfree, hcount, Bool.toNat_false, Bool.toNat_true, Nat.add_zero s.sharers] at hsh
  obtain ⟨hshared, hrefused⟩ : t'.shared = false ∧ t'.refused = false := by
    simpa [LockThread.counted] using hfree
  refine hi.put _ (by simp [hshared]) (u := u) (x := x)
    ⟨?_, ?_, alone_put hc.alone (fun _ => hshared) _⟩
  · have hbits := hc.bits
    rw [← hsh] at hbits
    exact (congrArg (fetchAdd · (-LifeCycleLock.shared)) hbits).trans
      (fetchAdd_neg_shared (by omega) u x)
  · rw [hx] at how
    rw [← hc.owners]
    omega

theorem Inv.upgrade (hi : Inv n s) (ht : s.threads[p]? = some t) :
    Inv n (s.put p (orUpgraded s.bits) t) := by
  obtain ⟨u, x, hc⟩ := hi.counted
  have hmem := mem_of_getElem? ht
  have hsh := sharers_put ht (orUpgraded s.bits) t
  have how := owners_put ht (orUpgraded s.bits) t
  refine hi.put _ (hi.apart t hmem) (u := true) (x := x)
    ⟨?_, ?_, alone_put hc.alone (fun hx => hc.alone hx t hmem) _⟩
  · rw [Nat.add_right_cancel hsh]
    exact (congrArg orUpgraded hc.bits).trans (orUpgraded_lockWord s.sharers u x)
  · rw [Nat.add_right_cancel how]
    exact hc.owners

/-- The compare-exchange succeeds only when nobody counts or holds the exclusive mode. -/
theorem Inv.exclusive (hi : Inv n s) (ht : s.threads[p]? = some t) {bits : ℤ}
    (hx : LifeCycleLock.tryExclusive s.bits = some bits) :
    Inv n (s.put p bits { t with exclusive := true }) := by
  obtain ⟨u, x, hc⟩ := hi.counted
  have hmem := mem_of_getElem? ht
  rw [LifeCycleLock.tryExclusive, Option.ite_none_right_eq_some] at hx
  obtain ⟨hup, rfl⟩ := hx.imp_right Option.some.inj
  obtain ⟨hzero, rfl, rfl⟩ := (lockWord_eq_upgraded _ _ _).mp (hc.bits.symm.trans hup)
  have hnone : ∀ r ∈ s.threads, r.counted = false := by
    intro r hr
    by_contra hne
    exact absurd hzero (List.countP_pos_iff.mpr ⟨r, hr, by simpa using hne⟩).ne'
  have hshared : ∀ r ∈ s.threads, r.shared = false := by
    intro r hr
    have := hnone r hr
    simp_all [LockThread.counted]
  have hfree : t.exclusive = false := by
    by_contra hne
    have hpos := List.countP_pos_iff.mpr ⟨t, hmem, by simpa using hne⟩
    exact absurd hc.owners hpos.ne'
  have hsh := sharers_put ht LifeCycleLock.exclusive { t with exclusive := true }
  have how := owners_put ht LifeCycleLock.exclusive { t with exclusive := true }
  have ht' : ({ t with exclusive := true } : LockThread).shared = false := hshared t hmem
  refine hi.put _ (hi.apart t hmem) (u := false) (x := true)
    ⟨?_, ?_, alone_put (fun _ => hshared) (fun _ => ht') _⟩
  · rw [Nat.add_right_cancel hsh, hzero]
    rfl
  · rw [hfree, hc.owners] at how
    simpa using how

theorem Inv.releaseExclusive (hi : Inv n s) (ht : s.threads[p]? = some t)
    (hx : t.exclusive = true) :
    Inv n (s.put p (LifeCycleLock.releaseExclusive s.bits) { t with exclusive := false }) := by
  obtain ⟨u, x, hc⟩ := hi.counted
  have hmem := mem_of_getElem? ht
  have hsh := sharers_put ht (LifeCycleLock.releaseExclusive s.bits) { t with exclusive := false }
  have how := owners_put ht (LifeCycleLock.releaseExclusive s.bits) { t with exclusive := false }
  have hxle : x.toNat ≤ 1 := Bool.toNat_le x
  refine hi.put _ (hi.apart t hmem) (u := false) (x := false) ⟨?_, ?_, (by cases ·)⟩
  · rw [Nat.add_right_cancel hsh]
    exact (congrArg LifeCycleLock.releaseExclusive hc.bits).trans
      (releaseExclusive_lockWord s.sharers u x)
  · rw [hx, hc.owners] at how
    simp only [Bool.toNat_true, Bool.toNat_false] at how ⊢
    omega

theorem Inv.lockOp (hi : Inv n s) (hn : n < 2 ^ 29) (ht : s.threads[p]? = some t) {op : LockOp}
    {r : ℤ × LockThread} (h : LifeCycleLock.lockOp s.bits t op = some r) :
    Inv n (s.put p r.1 r.2) := by
  obtain ⟨u, x, hc⟩ := hi.counted
  have hmem := mem_of_getElem? ht
  unfold LifeCycleLock.lockOp at h
  cases op with
  | addShared =>
    simp only at h
    split_ifs at h with hfree hheld
    · -- refused: the thread counts, and does not share
      obtain rfl := Option.some.inj h
      obtain ⟨hs, hr⟩ : t.shared = false ∧ t.refused = false := by simpa using hfree
      exact hi.add hn ht hc (by simp [LockThread.counted, hs, hr]) (by simp [LockThread.counted])
        rfl (by simp [hs]) (fun _ => hs)
    · obtain rfl := Option.some.inj h
      obtain ⟨hs, hr⟩ : t.shared = false ∧ t.refused = false := by simpa using hfree
      -- neither bit was set in the word it has read
      have hlow : (u || x) = false := by
        rw [← held_lockWord s.sharers u x, ← hc.bits]
        simpa using hheld
      refine hi.add hn ht hc (by simp [LockThread.counted, hs, hr]) (by simp [LockThread.counted])
        rfl (by simp [hr]) fun hx => ?_
      simp [hx] at hlow
  | backOut =>
    simp only at h
    split_ifs at h with hr
    obtain rfl := Option.some.inj h
    have hs : t.shared = false := by simpa [hr] using hi.apart t hmem
    exact hi.sub hn ht hc (by simp [LockThread.counted, hr]) (by simp [LockThread.counted, hs]) rfl
  | tryUpgrade =>
    simp only at h
    split_ifs at h
    obtain rfl := Option.some.inj h
    exact hi.upgrade ht
  | tryUpgradeNonReEntrant =>
    simp only at h
    split_ifs at h
    obtain rfl := Option.some.inj h
    exact hi.upgrade ht
  | tryExclusive =>
    simp only at h
    split_ifs at h
    split at h
    · next bits hx =>
      obtain rfl := Option.some.inj h
      exact hi.exclusive ht hx
    · -- the exchange fails and writes nothing
      obtain rfl := Option.some.inj h
      have hput : s.put p s.bits t = s := by
        unfold LockState.put
        obtain ⟨hp, rfl⟩ := List.getElem?_eq_some_iff.mp ht
        rw [List.set_getElem_self]
      rw [hput]
      exact hi
  | releaseShared =>
    simp only at h
    split_ifs at h with hs
    obtain rfl := Option.some.inj h
    have hr : t.refused = false := by simpa [hs] using hi.apart t hmem
    exact hi.sub hn ht hc (by simp [LockThread.counted, hs]) (by simp [LockThread.counted, hr]) rfl
  | releaseExclusive =>
    simp only at h
    split_ifs at h with hr hx
    obtain rfl := Option.some.inj h
    exact hi.releaseExclusive ht hx

theorem Inv.step (hi : Inv n s) (hn : n < 2 ^ 29) {a : ℕ × LockOp}
    (h : lockStep s a = some s') : Inv n s' := by
  obtain ⟨t, ht, h⟩ := Option.bind_eq_some_iff.mp h
  obtain ⟨r, hr, rfl⟩ := Option.map_eq_some_iff.mp h
  exact hi.lockOp hn ht hr

/-- At most one of fewer than 2^29 threads holds the exclusive mode, nobody holds a share while one
does, and the share field is the number of sharers and of refused threads that have not backed
out. -/
theorem lifeCycleLock_modes (n : ℕ) (hn : n < 2 ^ 29) (as : List (ℕ × LockOp)) (s : LockState)
    (h : run lockStep (init n) as = some s) :
    (∀ (p q : ℕ) (t t' : LockThread), s.threads[p]? = some t → s.threads[q]? = some t' →
        t.exclusive = true → t'.exclusive = true → p = q) ∧
      (∀ t ∈ s.threads, t.exclusive = true → ∀ t' ∈ s.threads, t'.shared = false) ∧
      s.bits / LifeCycleLock.shared =
        (s.threads.countP LockThread.shared + s.threads.countP LockThread.refused : ℕ) ∧
      (Int.land s.bits LifeCycleLock.exclusive ≠ 0 ↔ ∃ t ∈ s.threads, t.exclusive = true) := by
  have hi : s.Inv n := run_invariant (fun _ _ _ hi h => Inv.step hi hn h) (inv_init n) h
  obtain ⟨u, x, hc⟩ := hi.counted
  have howner : (∃ t ∈ s.threads, t.exclusive = true) ↔ x = true := by
    have howners := hc.owners
    unfold owners at howners
    rw [← List.countP_pos_iff, howners]
    cases x <;> simp
  have hone : s.threads.countP LockThread.exclusive ≤ 1 := hc.owners.trans_le (Bool.toNat_le x)
  have hsharers : s.sharers =
      s.threads.countP LockThread.shared + s.threads.countP LockThread.refused :=
    countP_or hi.apart
  refine ⟨fun p q t t' hp hq ht ht' => eq_of_countP_le_one hone hp hq ht ht', ?_, ?_, ?_⟩
  · intro t hmem ht
    exact hc.alone (howner.mp ⟨t, hmem, ht⟩)
  · rw [hc.bits, lockWord_ediv, hsharers]
  · rw [hc.bits, land_exclusive_lockWord, howner]

theorem lifeCycleLock_modes_three :
    ∃ as s, run lockStep (init 3) as = some s ∧ s.bits = 7 ∧
      (∀ (p q : ℕ) (t t' : LockThread), s.threads[p]? = some t → s.threads[q]? = some t' →
        t.exclusive = true → t'.exclusive = true → p = q) ∧
      (∀ t ∈ s.threads, t.exclusive = true → ∀ t' ∈ s.threads, t'.shared = false) ∧
      s.bits / LifeCycleLock.shared =
        (s.threads.countP LockThread.shared + s.threads.countP LockThread.refused : ℕ) ∧
      (Int.land s.bits LifeCycleLock.exclusive ≠ 0 ↔ ∃ t ∈ s.threads, t.exclusive = true) := by
  have hr : run lockStep (init 3)
      [(0, .addShared), (1, .tryUpgradeNonReEntrant), (1, .tryExclusive), (0, .releaseShared),
        (1, .tryExclusive), (2, .tryUpgrade), (2, .addShared)] = some
      ⟨7, [⟨false, false, false⟩, ⟨false, false, true⟩, ⟨false, true, false⟩]⟩ := by
    decide +kernel
  exact ⟨_, _, hr, rfl, lifeCycleLock_modes 3 (by decide) _ _ hr⟩

end LockState

end SofaBolt.LifeCycleLock
