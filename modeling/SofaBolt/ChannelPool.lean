import SofaBolt.Run

/- Every access to an atomic is a step of its own; the calls of `getSocketInternal` are steps
with any outcome. -/

namespace SofaBolt

open Run

structure SubChannel where
  sharedNum : ℤ
  isActive : Bool
deriving DecidableEq, Repr

/-- The next step in `getSubSocketInternal`.  `scan` and `loadShared` carry the loop
variable, `most_idle_sub_channel` and `minus_shared_num`. -/
inductive SubSocketPc where
  | outside
  | getLocal
  | storeLocalInactive
  | fetchSubLocal
  | scan (i mostIdle : ℕ) (minusSharedNum : ℤ)
  | loadShared (i mostIdle : ℕ) (minusSharedNum : ℤ)
  | pickRandom
  | compareExchange (mostIdle : ℕ) (minusSharedNum : ℤ)
  | getPooled
  | storeActive
  | storeInactive
  | fetchSub
  | exited
deriving DecidableEq, Repr

/-- A thread; `idx` is its thread-local index, `none` for -1 and for a thread that
has not made a call. -/
structure PoolThread where
  idx : Option ℕ
  pc : SubSocketPc
deriving DecidableEq, Repr

structure Pool where
  subChannels : List SubChannel
  threads : List PoolThread
deriving DecidableEq, Repr

/-- A step of thread `p` with the outcome of its call and its random number, or its
end, when `deleteThreadLocalSubChannel` runs. -/
inductive PoolAct where
  | step (p : ℕ) (ok : Bool) (random : ℕ)
  | exit (p : ℕ)
deriving DecidableEq, Repr

/-- `std::numeric_limits<size_t>::max()`. -/
def maxSharedNum : ℤ := 2 ^ 64 - 1

def subChannel (subs : List SubChannel) (i : ℕ) : SubChannel := (subs[i]?).getD ⟨0, false⟩

def modifyLocal (subs : List SubChannel) (t : PoolThread) (f : SubChannel → SubChannel) :
    List SubChannel :=
  match t.idx with
  | some i => subs.modify i f
  | none => subs

def SubChannel.setActive (active : Bool) (c : SubChannel) : SubChannel :=
  { c with isActive := active }

def SubChannel.fetchSub (c : SubChannel) : SubChannel := { c with sharedNum := c.sharedNum - 1 }

def subSocketStep (ok : Bool) (random : ℕ) (subs : List SubChannel) (t : PoolThread) :
    Option (List SubChannel × PoolThread) :=
  match t.pc with
  | .outside =>
    some (subs, { t with pc := if t.idx.isSome then .getLocal else .scan 0 0 maxSharedNum })
  | .getLocal => some (subs, { t with pc := if ok then .outside else .storeLocalInactive })
  | .storeLocalInactive =>
    some (modifyLocal subs t (.setActive false), { t with pc := .fetchSubLocal })
  | .fetchSubLocal =>
    some (modifyLocal subs t .fetchSub, { t with pc := .scan 0 0 maxSharedNum })
  | .scan i mostIdle minusSharedNum =>
    if i < subs.length then
      if t.idx = some i then some (subs, { t with pc := .scan (i + 1) mostIdle minusSharedNum })
      else if (subChannel subs i).isActive then
        some (subs, { t with pc := .loadShared i mostIdle minusSharedNum })
      else some (subs, { t with pc := .scan (i + 1) mostIdle minusSharedNum })
    else if minusSharedNum = maxSharedNum then some (subs, { t with pc := .pickRandom })
    else some (subs, { t with pc := .compareExchange mostIdle minusSharedNum })
  | .loadShared i mostIdle minusSharedNum =>
    if (subChannel subs i).sharedNum < minusSharedNum then
      some (subs, { t with pc := .scan (i + 1) i (subChannel subs i).sharedNum })
    else some (subs, { t with pc := .scan (i + 1) mostIdle minusSharedNum })
  | .pickRandom =>
    let i := random % subs.length
    some (subs, { t with pc := .compareExchange i (subChannel subs i).sharedNum })
  | .compareExchange mostIdle minusSharedNum =>
    -- the index is written whether or not the exchange succeeds
    if (subChannel subs mostIdle).sharedNum = minusSharedNum then
      some (subs.modify mostIdle fun c => { c with sharedNum := minusSharedNum + 1 },
        { idx := some mostIdle, pc := .getPooled })
    else some (subs, { idx := some mostIdle, pc := .scan 0 0 maxSharedNum })
  | .getPooled => some (subs, { t with pc := if ok then .storeActive else .storeInactive })
  | .storeActive => some (modifyLocal subs t (.setActive true), { t with pc := .outside })
  | .storeInactive => some (modifyLocal subs t (.setActive false), { t with pc := .fetchSub })
  | .fetchSub => some (modifyLocal subs t .fetchSub, { idx := none, pc := .outside })
  | .exited => none

def exitStep (subs : List SubChannel) (t : PoolThread) : Option (List SubChannel × PoolThread) :=
  if t.pc = .outside then some (modifyLocal subs t .fetchSub, { idx := none, pc := .exited })
  else none

namespace Pool

variable {s s' : Pool} {p k : ℕ} {t t' : PoolThread} {subs : List SubChannel}

def init (size n : ℕ) : Pool where
  subChannels := List.replicate size ⟨0, true⟩
  threads := List.replicate n ⟨none, .outside⟩

def put (s : Pool) (p : ℕ) (r : List SubChannel × PoolThread) : Pool :=
  { subChannels := r.1, threads := s.threads.set p r.2 }

def step (s : Pool) : PoolAct → Option Pool
  | .step p ok random =>
    (s.threads[p]?).bind fun t =>
      (subSocketStep ok random s.subChannels t).map fun r => s.put p r
  | .exit p => (s.threads[p]?).bind fun t => (exitStep s.subChannels t).map fun r => s.put p r

end Pool

/-- Between the exchange that counts the thread and the `fetch_sub` that takes it out. -/
def SubSocketPc.counts : SubSocketPc → Bool
  | .scan _ _ _ | .loadShared _ _ _ | .pickRandom | .compareExchange _ _ | .exited => false
  | _ => true

def PoolThread.countsAt (i : ℕ) (t : PoolThread) : Bool := t.idx == some i && t.pc.counts

def PoolThread.InRange (size : ℕ) (t : PoolThread) : Prop :=
  (∀ i, t.idx = some i → i < size) ∧
    match t.pc with
    | .scan _ mostIdle _ => mostIdle < size
    | .loadShared i mostIdle _ => i < size ∧ mostIdle < size
    | .compareExchange mostIdle _ => mostIdle < size
    | _ => True

namespace Pool

variable {s s' : Pool} {p size : ℕ} {t t' : PoolThread} {subs : List SubChannel}

structure Inv (size : ℕ) (s : Pool) : Prop where
  length : s.subChannels.length = size
  inRange : ∀ t ∈ s.threads, t.InRange size
  sharedNum : ∀ (i : ℕ) (c : SubChannel), s.subChannels[i]? = some c →
    c.sharedNum = ((s.threads.countP (PoolThread.countsAt i) : ℕ) : ℤ)

theorem inv_init (size n : ℕ) : Inv size (init size n) where
  length := List.length_replicate
  inRange t ht := by
    rw [List.eq_of_mem_replicate ht]
    exact ⟨fun _ h => (by cases h), trivial⟩
  sharedNum i c hc := by
    rw [List.eq_of_mem_replicate (List.mem_of_getElem? hc)]
    have hzero : (init size n).threads.countP (PoolThread.countsAt i) = 0 := by
      apply List.countP_eq_zero.mpr
      intro t ht
      simp [List.eq_of_mem_replicate ht, PoolThread.countsAt]
    rw [hzero]
    rfl

theorem Inv.put (hi : Inv size s) (ht : s.threads[p]? = some t) (hlen : subs.length = size)
    (hr : t'.InRange size)
    (hnum : ∀ (i : ℕ) (c' : SubChannel), subs[i]? = some c' → ∃ c, s.subChannels[i]? = some c ∧
      c'.sharedNum + (t.countsAt i).toNat = c.sharedNum + (t'.countsAt i).toNat) :
    Inv size (s.put p (subs, t')) where
  length := hlen
  inRange r hmem := by
    rcases List.mem_or_eq_of_mem_set hmem with hmem | rfl
    · exact hi.inRange r hmem
    · exact hr
  sharedNum i c' hc' := by
    obtain ⟨c, hc, hsum⟩ := hnum i c' hc'
    have hcount := countP_set_add ht t' (PoolThread.countsAt i)
    have hold := hi.sharedNum i c hc
    change c'.sharedNum = (((s.threads.set p t').countP (PoolThread.countsAt i) : ℕ) : ℤ)
    omega

/-- A move that leaves the counts of the sub channels and of the thread alone. -/
theorem Inv.move (hi : Inv size s) (ht : s.threads[p]? = some t) (hr : t'.InRange size)
    (hcount : ∀ i, t'.countsAt i = t.countsAt i) : Inv size (s.put p (s.subChannels, t')) :=
  hi.put ht hi.length hr fun i c hc => ⟨c, hc, by rw [hcount]⟩

theorem length_modifyLocal (subs : List SubChannel) (t : PoolThread)
    (f : SubChannel → SubChannel) : (modifyLocal subs t f).length = subs.length := by
  unfold modifyLocal
  split
  · exact List.length_modify ..
  · rfl

theorem getElem?_modifyLocal {f : SubChannel → SubChannel} {i : ℕ} {c' : SubChannel}
    (h : (modifyLocal subs t f)[i]? = some c') :
    ∃ c, subs[i]? = some c ∧ (t.idx = some i ∧ c' = f c ∨ t.idx ≠ some i ∧ c' = c) := by
  unfold modifyLocal at h
  cases hidx : t.idx with
  | none =>
    rw [hidx] at h
    exact ⟨c', h, Or.inr ⟨by simp, rfl⟩⟩
  | some j =>
    simp only [hidx, List.getElem?_modify] at h
    obtain ⟨c, hc, rfl⟩ := Option.map_eq_some_iff.mp h
    refine ⟨c, hc, ?_⟩
    by_cases hij : j = i
    · exact Or.inl ⟨congrArg some hij, if_pos hij⟩
    · exact Or.inr ⟨fun h => hij (Option.some.inj h), if_neg hij⟩

theorem Inv.setActive (hi : Inv size s) (ht : s.threads[p]? = some t) (active : Bool)
    (hr : t'.InRange size) (hcount : ∀ i, t'.countsAt i = t.countsAt i) :
    Inv size (s.put p (modifyLocal s.subChannels t (.setActive active), t')) := by
  refine hi.put ht ((length_modifyLocal ..).trans hi.length) hr fun i c' hc' => ?_
  obtain ⟨c, hc, heq⟩ := getElem?_modifyLocal hc'
  refine ⟨c, hc, ?_⟩
  rw [hcount]
  rcases heq with ⟨-, rfl⟩ | ⟨-, rfl⟩ <;> rfl

theorem Inv.fetchSub (hi : Inv size s) (ht : s.threads[p]? = some t) (hr : t'.InRange size)
    (hcounts : t.pc.counts = true) (hnot : ∀ i, t'.countsAt i = false) :
    Inv size (s.put p (modifyLocal s.subChannels t .fetchSub, t')) := by
  refine hi.put ht ((length_modifyLocal ..).trans hi.length) hr fun i c' hc' => ?_
  obtain ⟨c, hc, heq⟩ := getElem?_modifyLocal hc'
  refine ⟨c, hc, ?_⟩
  rw [hnot]
  rcases heq with ⟨hidx, rfl⟩ | ⟨hidx, rfl⟩
  · have hat : t.countsAt i = true := by simp [PoolThread.countsAt, hidx, hcounts]
    rw [hat]
    simp [SubChannel.fetchSub]
  · have hat : t.countsAt i = false := by simp [PoolThread.countsAt, hidx]
    rw [hat]

theorem Inv.compareExchange (hi : Inv size s) (ht : s.threads[p]? = some t)
    (hcounts : t.pc.counts = false) {j : ℕ} (hj : j < size) :
    Inv size (s.put p (s.subChannels.modify j fun c =>
      { c with sharedNum := (subChannel s.subChannels j).sharedNum + 1 },
      { idx := some j, pc := .getPooled })) := by
  have hr : PoolThread.InRange size { idx := some j, pc := .getPooled } :=
    ⟨fun i h => Option.some.inj h ▸ hj, trivial⟩
  refine hi.put ht ((List.length_modify ..).trans hi.length) hr fun i c' hc' => ?_
  rw [List.getElem?_modify] at hc'
  obtain ⟨c, hc, rfl⟩ := Option.map_eq_some_iff.mp hc'
  refine ⟨c, hc, ?_⟩
  have hat : t.countsAt i = false := by simp [PoolThread.countsAt, hcounts]
  rw [hat]
  by_cases hij : j = i
  · subst hij
    simp [subChannel, hc, PoolThread.countsAt, SubSocketPc.counts]
  · simp [hij, PoolThread.countsAt]

theorem Inv.search (hi : Inv size s) (ht : s.threads[p]? = some t) (hr : t'.InRange size)
    (hcounts : t.pc.counts = false) (hcounts' : t'.pc.counts = false) :
    Inv size (s.put p (s.subChannels, t')) :=
  hi.move ht hr fun i => by simp [PoolThread.countsAt, hcounts, hcounts']

theorem Inv.subSocketStep (hi : Inv size s) (hsize : 0 < size) (ht : s.threads[p]? = some t)
    {ok : Bool} {random : ℕ} {r : List SubChannel × PoolThread}
    (h : SofaBolt.subSocketStep ok random s.subChannels t = some r) : Inv size (s.put p r) := by
  obtain ⟨hidx, hpc⟩ := hi.inRange t (mem_of_getElem? ht)
  unfold SofaBolt.subSocketStep at h
  cases hp : t.pc with
  | outside =>
    rw [hp] at h
    obtain rfl := Option.some.inj h
    by_cases hx : t.idx.isSome = true
    · rw [if_pos hx]
      refine hi.move ht ⟨hidx, trivial⟩ fun i => ?_
      simp [PoolThread.countsAt, hp, SubSocketPc.counts]
    · rw [if_neg hx]
      refine hi.move ht ⟨hidx, hsize⟩ fun i => ?_
      simp [PoolThread.countsAt, Option.not_isSome_iff_eq_none.mp hx]
  | getLocal =>
    rw [hp] at h
    obtain rfl := Option.some.inj h
    cases ok
    · exact hi.move ht ⟨hidx, trivial⟩ fun i => by
        simp [PoolThread.countsAt, hp, SubSocketPc.counts]
    · exact hi.move ht ⟨hidx, trivial⟩ fun i => by
        simp [PoolThread.countsAt, hp, SubSocketPc.counts]
  | storeLocalInactive =>
    rw [hp] at h
    obtain rfl := Option.some.inj h
    refine hi.setActive ht false ⟨hidx, trivial⟩ fun i => ?_
    simp [PoolThread.countsAt, hp, SubSocketPc.counts]
  | fetchSubLocal =>
    rw [hp] at h
    obtain rfl := Option.some.inj h
    refine hi.fetchSub ht ⟨hidx, hsize⟩ (by rw [hp]; rfl) fun i => ?_
    simp [PoolThread.countsAt, SubSocketPc.counts]
  | scan i mostIdle minusSharedNum =>
    have hcounts : t.pc.counts = false := by rw [hp]; rfl
    rw [hp] at h hpc
    simp only at h
    split_ifs at h with hlt
    · obtain rfl := Option.some.inj h
      exact hi.search ht ⟨hidx, hpc⟩ hcounts rfl
    · obtain rfl := Option.some.inj h
      exact hi.search ht ⟨hidx, hlt.trans_eq hi.length, hpc⟩ hcounts rfl
    · obtain rfl := Option.some.inj h
      exact hi.search ht ⟨hidx, hpc⟩ hcounts rfl
    · obtain rfl := Option.some.inj h
      exact hi.search ht ⟨hidx, trivial⟩ hcounts rfl
    · obtain rfl := Option.some.inj h
      exact hi.search ht ⟨hidx, hpc⟩ hcounts rfl
  | loadShared i mostIdle minusSharedNum =>
    have hcounts : t.pc.counts = false := by rw [hp]; rfl
    rw [hp] at h hpc
    simp only at h
    split_ifs at h
    · obtain rfl := Option.some.inj h
      exact hi.search ht ⟨hidx, hpc.1⟩ hcounts rfl
    · obtain rfl := Option.some.inj h
      exact hi.search ht ⟨hidx, hpc.2⟩ hcounts rfl
  | pickRandom =>
    have hcounts : t.pc.counts = false := by rw [hp]; rfl
    rw [hp] at h
    obtain rfl := Option.some.inj h
    have hlt : random % s.subChannels.length < size := by
      rw [hi.length]
      exact Nat.mod_lt _ hsize
    exact hi.search ht ⟨hidx, hlt⟩ hcounts rfl
  | compareExchange mostIdle minusSharedNum =>
    have hcounts : t.pc.counts = false := by rw [hp]; rfl
    rw [hp] at h hpc
    simp only at h
    split_ifs at h with hx
    · obtain rfl := Option.some.inj h
      subst hx
      exact hi.compareExchange ht hcounts hpc
    · -- the index is kept although nothing was added to its counter
      obtain rfl := Option.some.inj h
      exact hi.search ht ⟨fun i h => Option.some.inj h ▸ hpc, hsize⟩ hcounts rfl
  | getPooled =>
    rw [hp] at h
    obtain rfl := Option.some.inj h
    cases ok
    · exact hi.move ht ⟨hidx, trivial⟩ fun i => by
        simp [PoolThread.countsAt, hp, SubSocketPc.counts]
    · exact hi.move ht ⟨hidx, trivial⟩ fun i => by
        simp [PoolThread.countsAt, hp, SubSocketPc.counts]
  | storeActive =>
    rw [hp] at h
    obtain rfl := Option.some.inj h
    refine hi.setActive ht true ⟨hidx, trivial⟩ fun i => ?_
    simp [PoolThread.countsAt, hp, SubSocketPc.counts]
  | storeInactive =>
    rw [hp] at h
    obtain rfl := Option.some.inj h
    refine hi.setActive ht false ⟨hidx, trivial⟩ fun i => ?_
    simp [PoolThread.countsAt, hp, SubSocketPc.counts]
  | fetchSub =>
    rw [hp] at h
    obtain rfl := Option.some.inj h
    exact hi.fetchSub ht ⟨fun _ h => (by cases h), trivial⟩ (by rw [hp]; rfl) fun i => rfl
  | exited => simp [hp] at h

theorem Inv.exitStep (hi : Inv size s) (ht : s.threads[p]? = some t)
    {r : List SubChannel × PoolThread} (h : SofaBolt.exitStep s.subChannels t = some r) :
    Inv size (s.put p r) := by
  unfold SofaBolt.exitStep at h
  split_ifs at h with hp
  obtain rfl := Option.some.inj h
  exact hi.fetchSub ht ⟨fun _ h => (by cases h), trivial⟩ (by rw [hp]; rfl) fun i => rfl

theorem Inv.step (hi : Inv size s) (hsize : 0 < size) {a : PoolAct} (h : s.step a = some s') :
    Inv size s' := by
  cases a with
  | step p ok random =>
    obtain ⟨t, ht, h⟩ := Option.bind_eq_some_iff.mp h
    obtain ⟨r, hr, rfl⟩ := Option.map_eq_some_iff.mp h
    exact hi.subSocketStep hsize ht hr
  | exit p =>
    obtain ⟨t, ht, h⟩ := Option.bind_eq_some_iff.mp h
    obtain ⟨r, hr, rfl⟩ := Option.map_eq_some_iff.mp h
    exact hi.exitStep ht hr

def Quiet (s : Pool) : Prop := ∀ t ∈ s.threads, t.pc = .outside ∨ t.pc = .exited

def usesLive (i : ℕ) (t : PoolThread) : Bool := t.idx == some i && t.pc != .exited

/-- No `shared_num` is ever below zero, and when no thread is inside `getSubSocketInternal`, each is
the number of live threads with that index. -/
theorem pool_accounting (size n : ℕ) (hsize : 1 ≤ size) (as : List PoolAct) (s : Pool)
    (h : run step (init size n) as = some s) :
    (∀ c ∈ s.subChannels, 0 ≤ c.sharedNum) ∧
      (∀ t ∈ s.threads, ∀ i, t.idx = some i → i < s.subChannels.length) ∧
      (s.Quiet → ∀ (i : ℕ) (c : SubChannel), s.subChannels[i]? = some c →
        c.sharedNum = ((s.threads.countP (usesLive i) : ℕ) : ℤ)) := by
  have hi : s.Inv size := run_invariant (fun _ _ _ hi h => Inv.step hi hsize h)
    (inv_init size n) h
  refine ⟨fun c hc => ?_, fun t ht i hidx => ?_, fun hq i c hc => ?_⟩
  · obtain ⟨i, hc⟩ := List.mem_iff_getElem?.mp hc
    rw [hi.sharedNum i c hc]
    exact Int.natCast_nonneg _
  · rw [hi.length]
    exact (hi.inRange t ht).1 i hidx
  · rw [hi.sharedNum i c hc]
    congr 1
    apply List.countP_congr
    intro t ht
    rcases hq t ht with hp | hp
    · simp [PoolThread.countsAt, usesLive, hp, SubSocketPc.counts]
    · simp [PoolThread.countsAt, usesLive, hp, SubSocketPc.counts]

def twoThreadsRun : List PoolAct :=
  List.replicate 10 (PoolAct.step 0 true 0) ++ [PoolAct.step 0 false 0] ++
    List.replicate 9 (PoolAct.step 0 true 0) ++ List.replicate 6 (PoolAct.step 1 true 0) ++
    [PoolAct.step 1 false 0] ++ List.replicate 2 (PoolAct.step 1 true 0)

theorem pool_accounting_two_threads :
    ∃ as s, run step (init 2 2) as = some s ∧
      s = ⟨[⟨0, false⟩, ⟨1, false⟩], [⟨some 1, .outside⟩, ⟨none, .outside⟩]⟩ ∧ s.Quiet ∧
      (∀ c ∈ s.subChannels, 0 ≤ c.sharedNum) ∧
      (∀ t ∈ s.threads, ∀ i, t.idx = some i → i < s.subChannels.length) ∧
      (s.Quiet → ∀ (i : ℕ) (c : SubChannel), s.subChannels[i]? = some c →
        c.sharedNum = ((s.threads.countP (usesLive i) : ℕ) : ℤ)) := by
  have hr : run step (init 2 2) twoThreadsRun =
      some ⟨[⟨0, false⟩, ⟨1, false⟩], [⟨some 1, .outside⟩, ⟨none, .outside⟩]⟩ := by
    decide +kernel
  have hq : Quiet ⟨[⟨0, false⟩, ⟨1, false⟩], [⟨some 1, .outside⟩, ⟨none, .outside⟩]⟩ := by
    simp [Quiet]
  exact ⟨_, _, hr, rfl, hq, pool_accounting 2 2 (by decide) _ _ hr⟩

end Pool

end SofaBolt
