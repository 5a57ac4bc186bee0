import SofaBolt.ConcurrentHashMapThreads

namespace SofaBolt.MapThreads

open Chain Run ConcurrentHashMap LifeCycleLock

theorem held_fetchAdd (bits m : ℤ) : held (fetchAdd bits (4 * m)) = held bits := by
  obtain ⟨a, b, k, rfl⟩ := exists_bits bits
  have hsum := Int.bmod_add_bdiv (Int.bit a (Int.bit b k) + 4 * m) (2 ^ 32)
  have hbits : fetchAdd (Int.bit a (Int.bit b k)) (4 * m) = Int.bit a (Int.bit b
      (k + m - 2 ^ 30 * (Int.bit a (Int.bit b k) + 4 * m).bdiv (2 ^ 32))) := by
    rw [fetchAdd]
    cases a <;> cases b <;> simp only [Int.bit, cond_true, cond_false] at hsum ⊢ <;> omega
  rw [hbits, held_bit, held_bit]

section Asked

variable {K V : Type*} {hash : K → ℕ} {s s' : Threads K V} {n t : ℕ} {th th' : Thread K V}

def Pc.wants (lockOf : K → ℕ) (i : ℕ) : Pc K V → Bool
  | .idle => false
  | .locking c | .trying c | .walking c _ | .loading c _ | .storing c _ _ | .releasing c _ =>
    !reads c && lockOf (key c) = i

structure Threads.Asked (hash : K → ℕ) (n : ℕ) (s : Threads K V) : Prop where
  length : s.threads.length = n
  asked : ∀ i, held (s.locks i).bits = true →
    ∃ (t : ℕ) (th : Thread K V), s.threads[t]? = some th ∧ th.pc.wants (s.lockOf hash) i = true

theorem Threads.Asked.init (hash : K → ℕ) (bucketHint lockNum n : ℕ) :
    (init bucketHint lockNum n : Threads K V).Asked hash n where
  length := List.length_replicate
  asked i h := by
    have hfree : held 0 = false := by decide
    exact absurd (h.symm.trans hfree) (by decide)

theorem Threads.Asked.move (ha : s.Asked hash n) (ht : s.threads[t]? = some th)
    (hthreads : s'.threads = s.threads.set t th') (hlockOf : s'.lockOf hash = s.lockOf hash)
    (h : ∀ i, held (s'.locks i).bits = true → th'.pc.wants (s.lockOf hash) i = true ∨
      held (s.locks i).bits = true ∧ th.pc.wants (s.lockOf hash) i = false) :
    s'.Asked hash n where
  length := by rw [hthreads, List.length_set, ha.length]
  asked i hheld := by
    rw [hthreads, hlockOf]
    rcases h i hheld with hw | ⟨hold, hno⟩
    · exact ⟨t, th', List.getElem?_set_self (List.getElem?_eq_some_iff.mp ht).1, hw⟩
    · obtain ⟨t₁, th₁, ht₁, hw⟩ := ha.asked i hold
      have hne : t ≠ t₁ := by
        rintro rfl
        rw [Option.some.inj (ht.symm.trans ht₁), hw] at hno
        exact absurd hno (by decide)
      exact ⟨t₁, th₁, by rw [List.getElem?_set_ne hne, ht₁], hw⟩

theorem Threads.Asked.keep (ha : s.Asked hash n) (ht : s.threads[t]? = some th)
    (hthreads : s'.threads = s.threads.set t th') (hlockOf : s'.lockOf hash = s.lockOf hash)
    (hlocks : s'.locks = s.locks)
    (hw : ∀ i, th.pc.wants (s.lockOf hash) i = true → th'.pc.wants (s.lockOf hash) i = true) :
    s'.Asked hash n := by
  refine ha.move ht hthreads hlockOf fun i hheld => ?_
  rw [hlocks] at hheld
  cases h : th.pc.wants (s.lockOf hash) i with
  | true => exact .inl (hw i h)
  | false => exact .inr ⟨hheld, rfl⟩

theorem access_eq_some {c : Call K V} {op : LockOp} {next : LockThread → Thread K V}
    (hs : s.access hash t c op next = some s') :
    ∃ lt r, (s.locks (s.lockOf hash (key c))).threads[t]? = some lt ∧
      lockOp (s.locks (s.lockOf hash (key c))).bits lt op = some r ∧
      s' = { s with
        locks := Function.update s.locks (s.lockOf hash (key c))
          ((s.locks (s.lockOf hash (key c))).put t r.1 r.2)
        threads := s.threads.set t (next r.2) } := by
  obtain ⟨lt, hlt, hs⟩ := Option.bind_eq_some_iff.mp hs
  obtain ⟨r, hr, rfl⟩ := Option.map_eq_some_iff.mp hs
  exact ⟨lt, r, hlt, hr, rfl⟩

theorem Threads.Asked.access (ha : s.Asked hash n) (ht : s.threads[t]? = some th) {c : Call K V}
    {op : LockOp} {next : LockThread → Thread K V} (hs : s.access hash t c op next = some s')
    (hw : ∀ i, th.pc.wants (s.lockOf hash) i = (!reads c && s.lockOf hash (key c) = i))
    (hop : ∀ lt r, lockOp (s.locks (s.lockOf hash (key c))).bits lt op = some r →
      held r.1 = true → (next r.2).pc.wants (s.lockOf hash) (s.lockOf hash (key c)) = true ∨
        held (s.locks (s.lockOf hash (key c))).bits = true ∧ reads c = true) :
    s'.Asked hash n := by
  obtain ⟨lt, r, -, hr, rfl⟩ := access_eq_some hs
  refine ha.move ht rfl rfl fun i hheld => ?_
  dsimp only at hheld
  by_cases hi : i = s.lockOf hash (key c)
  · subst hi
    rw [Function.update_self] at hheld
    rcases hop lt r hr hheld with h | ⟨h, hc⟩
    · exact .inl h
    · exact .inr ⟨h, by simp [hw, hc]⟩
  · rw [Function.update_of_ne hi] at hheld
    exact .inr ⟨hheld, by simp [hw, Ne.symm hi]⟩

variable [DecidableEq K] {f : K → Option V} {chain : ℕ → List ℕ}

theorem Threads.Asked.stepThread (ha : s.Asked hash n) (hi : s.Inv hash n f chain)
    (ht : s.threads[t]? = some th) (hs : s.stepThread hash t th = some s') :
    s'.Asked hash n := by
  unfold Threads.stepThread at hs
  cases hpc : th.pc with
  | idle =>
    rw [hpc] at hs
    cases hs
  | locking c =>
    simp only [hpc] at hs
    by_cases hreads : reads c = true
    · rw [if_pos hreads] at hs
      refine ha.access ht hs (fun i => by rw [hpc]; rfl) fun lt r hr hheld => .inr ⟨?_, hreads⟩
      rw [← held_fetchAdd _ 1]
      simp only [lockOp] at hr
      split_ifs at hr <;> cases hr <;> exact hheld
    · rw [if_neg hreads] at hs
      refine ha.access ht hs (fun i => by rw [hpc]; rfl) fun lt r hr hheld => .inl ?_
      dsimp only
      split_ifs <;> simp [Pc.wants, hreads]
  | trying c =>
    simp only [hpc] at hs
    split_ifs at hs with hreads
    · refine ha.access ht hs (fun i => by rw [hpc]; rfl) fun lt r hr hheld => .inr ⟨?_, hreads⟩
      rw [← held_fetchAdd _ (-1)]
      simp only [lockOp] at hr
      split_ifs at hr
      cases hr
      exact hheld
    · refine ha.access ht hs (fun i => by rw [hpc]; rfl) fun lt r hr hheld => .inl ?_
      dsimp only
      split_ifs <;> simp [Pc.wants, hreads]
  | walking c l =>
    obtain ⟨m', pc', f', chain', hw, hwd⟩ := walk_spec hi.holds (hi.walks t th c l ht hpc)
    simp only [hpc, hw, Option.map_some] at hs
    cases hs
    refine ha.keep ht rfl (congrArg (lockIdx hash · s.lockSize) hwd.frame.bucketSize) rfl
      fun i h => ?_
    rw [hpc] at h
    rcases hwd.goes with ⟨l', rfl, -⟩ | ⟨a, rfl | rfl, -⟩ <;> exact h
  | loading c a =>
    simp only [hpc] at hs
    cases hs
    exact ha.keep ht rfl rfl rfl fun i h => by rw [hpc] at h; exact h
  | storing c a k =>
    simp only [hpc] at hs
    cases hs
    exact ha.keep ht rfl rfl rfl fun i h => by rw [hpc] at h; exact h
  | releasing c a =>
    simp only [hpc] at hs
    refine ha.access ht hs (fun i => by rw [hpc]; rfl) fun lt r hr hheld => ?_
    cases hreads : reads c with
    | true =>
      refine .inr ⟨?_, rfl⟩
      rw [← held_fetchAdd _ (-1)]
      simp only [hreads, if_true, lockOp] at hr
      split_ifs at hr
      cases hr
      exact hheld
    | false =>
      obtain ⟨u, x, hc⟩ := (hi.locks (s.lockOf hash (key c))).counted
      simp only [hreads, Bool.false_eq_true, if_false, lockOp, hc.bits] at hr
      split_ifs at hr
      cases hr
      rw [releaseExclusive_lockWord, held_lockWord] at hheld
      exact absurd hheld (by decide)

theorem Threads.Asked.step (ha : s.Asked hash n) (hi : s.Inv hash n f chain) {a : Act K V}
    (hs : s.step hash a = some s') : s'.Asked hash n := by
  cases a with
  | call t c =>
    obtain ⟨th, ht, hs⟩ := Option.bind_eq_some_iff.mp hs
    cases h : th.pc with
    | idle =>
      rw [h] at hs
      cases hs
      exact ha.keep ht rfl rfl rfl fun i hw => by rw [h] at hw; cases hw
    | _ =>
      rw [h] at hs
      cases hs
  | step t =>
    obtain ⟨th, ht, hs⟩ := Option.bind_eq_some_iff.mp hs
    exact ha.stepThread hi ht hs

/-- When all calls have returned, nobody counts in a lock and no lock is held. -/
theorem Threads.Asked.bits_eq_zero (ha : s.Asked hash n) (hi : s.Inv hash n f chain)
    (hidle : ∀ th ∈ s.threads, th.pc = .idle) (i : ℕ) :
    (s.locks i).bits = 0 := by
  obtain ⟨u, x, hc⟩ := (hi.locks i).counted
  have hnone : ∀ lt ∈ (s.locks i).threads, lt.counted = false := by
    intro lt hlt
    obtain ⟨p, hp⟩ := List.mem_iff_getElem?.mp hlt
    have hlen : p < s.threads.length := by
      rw [ha.length, ← (hi.locks i).length]
      exact (List.getElem?_eq_some_iff.mp hp).1
    have hmode := hi.modes i p _ (List.getElem?_eq_getElem hlen)
    rw [hidle _ (List.getElem_mem hlen)] at hmode
    rw [Option.some.inj (hp.symm.trans hmode)]
    rfl
  have hsharers : (s.locks i).sharers = 0 := List.countP_eq_zero.mpr (by simpa using hnone)
  have hfree : held (s.locks i).bits = false := by
    refine Bool.eq_false_iff.mpr fun hheld => ?_
    obtain ⟨t, th, ht, hw⟩ := ha.asked i hheld
    rw [hidle th (mem_of_getElem? ht)] at hw
    cases hw
  rw [hc.bits, held_lockWord, Bool.or_eq_false_iff] at hfree
  rw [hc.bits, hsharers, hfree.1, hfree.2]
  rfl

/-- A lock that refuses a `get` is held for a call that is under way and changes the map; when all
calls have returned, every lock is as it was in the beginning. -/
theorem locks_free_when_quiet (hash : K → ℕ) (bucketHint lockNum n : ℕ) (hn : n < 2 ^ 29)
    (as : List (Act K V)) (s : Threads K V)
    (hr : run (Threads.step hash) (.init bucketHint lockNum n) as = some s) :
    (∀ i, held (s.locks i).bits = true → ∃ (t : ℕ) (th : Thread K V),
        s.threads[t]? = some th ∧ th.pc.wants (s.lockOf hash) i = true) ∧
      ((∀ th ∈ s.threads, th.pc = .idle) → ∀ i, (s.locks i).bits = 0) := by
  have hstep : ∀ (s₁ : Threads K V) a s₂,
      (∃ f chain, s₁.Inv hash n f chain ∧ s₁.Asked hash n) → s₁.step hash a = some s₂ →
      ∃ f chain, s₂.Inv hash n f chain ∧ s₂.Asked hash n := by
    rintro s₁ a s₂ ⟨f₁, chain₁, hi₁, ha₁⟩ hs
    obtain ⟨f₂, chain₂, hi₂, -⟩ := hi₁.step hn hs
    exact ⟨f₂, chain₂, hi₂, ha₁.step hi₁ hs⟩
  obtain ⟨f, chain, hi, ha⟩ := run_invariant hstep
    ⟨_, _, Threads.Inv.init hash bucketHint lockNum n, Threads.Asked.init ..⟩ hr
  exact ⟨ha.asked, ha.bits_eq_zero hi⟩

instance Pc.decidableIdle : (pc : Pc K V) → Decidable (pc = .idle)
  | .idle => isTrue rfl
  | .locking _ | .trying _ | .walking .. | .loading .. | .storing .. | .releasing .. =>
    isFalse (by simp)

def refusedPut : List (Act ℕ ℕ) :=
  [.call 0 (.put 1 10), .call 1 (.put 1 20), .step 0, .step 0, .step 1]

theorem locks_free_when_quiet_puts :
    ∃ s₁ s, run (Threads.step id) (.init 4 5 2) refusedPut = some s₁ ∧ (s₁.locks 1).bits = 3 ∧
      run (Threads.step id) s₁ (List.replicate 4 (.step 0) ++ List.replicate 4 (.step 1)) = some s ∧
      ∀ i, (s.locks i).bits = 0 := by
  have hrun : ∃ s₁, run (Threads.step id) (.init 4 5 2) refusedPut = some s₁ ∧
      (s₁.locks 1).bits = 3 ∧ ∃ s, run (Threads.step id) s₁
        (List.replicate 4 (.step 0) ++ List.replicate 4 (.step 1)) = some s ∧
        ∀ th ∈ s.threads, th.pc = .idle := by
    decide +kernel
  obtain ⟨s₁, h₁, hbits, s, h, hidle⟩ := hrun
  have hall : run (Threads.step id) (.init 4 5 2)
      (refusedPut ++ (List.replicate 4 (.step 0) ++ List.replicate 4 (.step 1))) = some s := by
    rw [run_append, h₁, Option.bind_some, h]
  exact ⟨s₁, s, h₁, hbits, h, (locks_free_when_quiet id 4 5 2 (by norm_num) _ s hall).2 hidle⟩

end Asked

end SofaBolt.MapThreads
