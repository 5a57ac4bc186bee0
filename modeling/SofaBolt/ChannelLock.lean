import SofaBolt.LifeCycleLock
import SofaBolt.Run

namespace SofaBolt

open LifeCycleLock Run

structure Channel where
  bits : ℤ
  socket : Option ℕ
deriving DecidableEq, Repr

/-- The next step in `getSocketInternal`.  `outside` tells what the last call has
handed out, `releaseShared` what the call will, or that it goes on upgraded. -/
inductive GetSocketPc where
  | outside (result : Option ℕ)
  | tryShared
  | backOut
  | readSocket
  | upgrade
  | releaseShared (result : Option ℕ) (upgraded : Bool)
  | exclusive
  | surrender
  | connect
  | releaseExclusive (result : Option ℕ)
deriving DecidableEq, Repr

structure SocketOutcome where
  active : Bool
  connected : Option ℕ
deriving DecidableEq, Repr

/-- One step.  `surrender` is about the socket, which this channel does not see. -/
def getSocketStep (o : SocketOutcome) (c : Channel) : GetSocketPc → Channel × GetSocketPc
  | .outside _ => (c, .tryShared)
  | .tryShared =>
    ({ c with bits := addShared c.bits }, if held c.bits then .backOut else .readSocket)
  | .backOut => ({ c with bits := LifeCycleLock.releaseShared c.bits }, .outside none)
  | .readSocket =>
    match c.socket with
    | some socket => (c, if o.active then .releaseShared (some socket) false else .upgrade)
    | none => (c, .upgrade)
  | .upgrade =>
    ({ c with bits := orUpgraded c.bits }, .releaseShared none (!held c.bits))
  | .releaseShared result upgraded =>
    ({ c with bits := LifeCycleLock.releaseShared c.bits },
      if upgraded then .exclusive else .outside result)
  | .exclusive =>
    match tryExclusive c.bits with
    | some bits => ({ c with bits }, .surrender)
    | none => (c, .exclusive)
  | .surrender => (c, .connect)
  | .connect => ({ c with socket := o.connected }, .releaseExclusive o.connected)
  | .releaseExclusive result =>
    ({ c with bits := LifeCycleLock.releaseExclusive c.bits }, .outside result)

namespace GetSocketPc

def isOutside : GetSocketPc → Bool
  | .outside _ => true
  | _ => false

def isShared : GetSocketPc → Bool
  | .readSocket | .upgrade | .releaseShared _ _ => true
  | _ => false

def isCounted : GetSocketPc → Bool
  | .backOut | .readSocket | .upgrade | .releaseShared _ _ => true
  | _ => false

/-- Between a successful `tryUpgradeNonReEntrant` and its successful `tryExclusive`. -/
def isUpgraded : GetSocketPc → Bool
  | .releaseShared _ true | .exclusive => true
  | _ => false

def isExclusive : GetSocketPc → Bool
  | .surrender | .connect | .releaseExclusive _ => true
  | _ => false

theorem isCounted_of_isShared {pc : GetSocketPc} (h : pc.isShared = true) :
    pc.isCounted = true := by
  cases pc <;> first | rfl | cases h

theorem countP_eq_zero {ts : List GetSocketPc} (h : ∀ t ∈ ts, t.isOutside = true)
    {f : GetSocketPc → Bool} (hf : ∀ r, f (.outside r) = false) : ts.countP f = 0 := by
  rw [List.countP_eq_zero]
  intro t hmem
  have ht := h t hmem
  cases t with
  | outside r => simp [hf]
  | _ => cases ht

end GetSocketPc

structure ChannelThreads where
  channel : Channel
  threads : List GetSocketPc
deriving DecidableEq, Repr

namespace ChannelThreads

variable {s s' : ChannelThreads} {p : ℕ} {pc pc' : GetSocketPc} {u x : Bool}

def init (n : ℕ) (socket : Option ℕ) : ChannelThreads where
  channel := { bits := 0, socket }
  threads := List.replicate n (.outside none)

def step (s : ChannelThreads) (a : ℕ × SocketOutcome) : Option ChannelThreads :=
  (s.threads[a.1]?).map fun pc =>
    let r := getSocketStep a.2 s.channel pc
    { channel := r.1, threads := s.threads.set a.1 r.2 }

def count (s : ChannelThreads) (f : GetSocketPc → Bool) : ℕ := s.threads.countP f

structure Counted (s : ChannelThreads) (u x : Bool) : Prop where
  bits : s.channel.bits = lockWord (s.count GetSocketPc.isCounted) u x
  upgraded : s.count GetSocketPc.isUpgraded = u.toNat
  exclusive : s.count GetSocketPc.isExclusive = x.toNat
  alone : x = true → u = false ∧ s.count GetSocketPc.isShared = 0

def Inv (s : ChannelThreads) : Prop := ∃ u x, s.Counted u x

theorem inv_init (n : ℕ) (socket : Option ℕ) : Inv (init n socket) := by
  refine ⟨false, false, ?_, ?_, ?_, (by cases ·)⟩
  · simp [init, count, GetSocketPc.isCounted, lockWord]
  · simp [init, count, GetSocketPc.isUpgraded]
  · simp [init, count, GetSocketPc.isExclusive]

def put (s : ChannelThreads) (p : ℕ) (c : Channel) (pc' : GetSocketPc) : ChannelThreads :=
  { channel := c, threads := s.threads.set p pc' }

theorem count_put (h : s.threads[p]? = some pc) (c : Channel) (pc' : GetSocketPc)
    (f : GetSocketPc → Bool) :
    (s.put p c pc').count f + (f pc).toNat = s.count f + (f pc').toNat :=
  countP_set_add h pc' f

/-- A thread that shares the channel keeps it from being exclusive. -/
theorem Counted.not_exclusive (hc : s.Counted u x) (h : s.threads[p]? = some pc)
    (hs : pc.isShared = true) : x = false := by
  by_contra hx
  have hzero := (hc.alone (by simpa using hx)).2
  exact absurd hzero (List.countP_pos_iff.mpr ⟨pc, mem_of_getElem? h, hs⟩).ne'

theorem counted_put (h : s.threads[p]? = some pc) {c : Channel} {n : ℕ}
    (hbits : c.bits = lockWord n u x)
    (hn : n + pc.isCounted.toNat = s.count GetSocketPc.isCounted + pc'.isCounted.toNat)
    (hu : u.toNat + pc.isUpgraded.toNat = s.count GetSocketPc.isUpgraded + pc'.isUpgraded.toNat)
    (hx : x.toNat + pc.isExclusive.toNat =
      s.count GetSocketPc.isExclusive + pc'.isExclusive.toNat)
    (hal : x = true → u = false ∧
      s.count GetSocketPc.isShared + pc'.isShared.toNat = pc.isShared.toNat) :
    (s.put p c pc').Counted u x := by
  have hput := fun f => count_put h c pc' f
  refine ⟨?_, ?_, ?_, fun hx => ⟨(hal hx).1, ?_⟩⟩
  · rw [Nat.add_right_cancel ((hput _).trans hn.symm)]
    exact hbits
  · exact Nat.add_right_cancel ((hput _).trans hu.symm)
  · exact Nat.add_right_cancel ((hput _).trans hx.symm)
  · have h₁ := hput GetSocketPc.isShared
    have h₂ := (hal hx).2
    omega

/-- A step that leaves the lock alone, and the thread at a place of the same kind. -/
theorem Counted.move (hc : s.Counted u x) (h : s.threads[p]? = some pc) {c : Channel}
    (hbits : c.bits = s.channel.bits) (hcount : pc'.isCounted = pc.isCounted)
    (hup : pc'.isUpgraded = pc.isUpgraded) (hex : pc'.isExclusive = pc.isExclusive)
    (hsh : pc'.isShared = pc.isShared) : (s.put p c pc').Counted u x := by
  apply counted_put h (hbits.trans hc.bits)
  · rw [hcount]
  · rw [hup, hc.upgraded]
  · rw [hex, hc.exclusive]
  · intro hx
    rw [hsh, (hc.alone hx).2, Nat.zero_add]
    exact ⟨(hc.alone hx).1, rfl⟩

theorem Counted.tryShared (hc : s.Counted u x) (h : s.threads[p]? = some .tryShared) :
    (s.put p { s.channel with bits := addShared s.channel.bits }
      (if held s.channel.bits then .backOut else .readSocket)).Counted u x := by
  have hbits : addShared s.channel.bits =
      lockWord (s.count GetSocketPc.isCounted + 1) u x := by rw [hc.bits, addShared_lockWord]
  have hheld : held s.channel.bits = (u || x) := by rw [hc.bits, held_lockWord]
  by_cases hux : (u || x) = true
  · rw [hheld, if_pos hux]
    exact counted_put h hbits rfl hc.upgraded.symm hc.exclusive.symm hc.alone
  · rw [hheld, if_neg hux]
    refine counted_put h hbits rfl hc.upgraded.symm hc.exclusive.symm fun hx => ?_
    simp [hx] at hux

theorem Counted.release (hc : s.Counted u x) (h : s.threads[p]? = some pc)
    (hcount : pc.isCounted = true) (hfree : pc'.isCounted = false)
    (hup : pc'.isUpgraded = pc.isUpgraded) (hex : pc'.isExclusive = pc.isExclusive)
    (hsh : pc'.isShared = false) :
    (s.put p { s.channel with bits := LifeCycleLock.releaseShared s.channel.bits } pc').Counted
      u x := by
  obtain ⟨n, hn⟩ := Nat.exists_eq_succ_of_ne_zero
    (List.countP_pos_iff.mpr ⟨pc, mem_of_getElem? h, hcount⟩).ne'
  have hn : s.count GetSocketPc.isCounted = n + 1 := hn
  have hbits : LifeCycleLock.releaseShared s.channel.bits = lockWord n u x := by
    rw [hc.bits, hn, releaseShared_lockWord]
  apply counted_put h hbits
  · rw [hcount, hfree, hn]
    rfl
  · rw [hup, hc.upgraded]
  · rw [hex, hc.exclusive]
  · intro hx
    refine ⟨(hc.alone hx).1, ?_⟩
    have hnot : pc.isShared = false := by
      by_contra hs
      exact absurd hx (by simp [hc.not_exclusive h (by simpa using hs)])
    rw [hsh, hnot, (hc.alone hx).2, Nat.zero_add]

/-- Whoever finds the lock upgraded only writes what is there; otherwise the upgrade
is this thread's. -/
theorem Counted.upgrade (hc : s.Counted u x) (h : s.threads[p]? = some .upgrade) :
    (s.put p { s.channel with bits := orUpgraded s.channel.bits }
      (.releaseShared none (!held s.channel.bits))).Counted true x := by
  have hx : x = false := hc.not_exclusive h rfl
  have hbits : orUpgraded s.channel.bits = lockWord (s.count GetSocketPc.isCounted) true x := by
    rw [hc.bits, orUpgraded_lockWord]
  have hheld : held s.channel.bits = u := by rw [hc.bits, held_lockWord, hx, Bool.or_false]
  rw [hheld]
  refine counted_put h hbits rfl ?_ hc.exclusive.symm fun h => absurd (h.symm.trans hx) (by decide)
  rw [hc.upgraded]
  cases u <;> rfl

theorem Counted.exclusive_ok (hc : s.Counted u x) (h : s.threads[p]? = some .exclusive)
    {bits : ℤ} (hx : tryExclusive s.channel.bits = some bits) :
    (s.put p { s.channel with bits } .surrender).Counted false true := by
  rw [tryExclusive, Option.ite_none_right_eq_some] at hx
  obtain ⟨hup, rfl⟩ := hx.imp_right Option.some.inj
  obtain ⟨hzero, rfl, rfl⟩ := (lockWord_eq_upgraded _ _ _).mp (hc.bits.symm.trans hup)
  have hbits : LifeCycleLock.exclusive = lockWord 0 false true := rfl
  have hshared : s.count GetSocketPc.isShared = 0 := by
    apply Nat.le_zero.mp
    rw [← hzero]
    exact List.countP_mono_left fun _ _ => GetSocketPc.isCounted_of_isShared
  apply counted_put h hbits
  · rw [hzero]
    rfl
  · rw [hc.upgraded]
    rfl
  · rw [hc.exclusive]
    rfl
  · rw [hshared]
    exact fun _ => ⟨rfl, rfl⟩

theorem Counted.releaseExclusive (hc : s.Counted u x) {result : Option ℕ}
    (h : s.threads[p]? = some (.releaseExclusive result)) :
    (s.put p { s.channel with bits := LifeCycleLock.releaseExclusive s.channel.bits }
      (.outside result)).Counted false false := by
  have hpos : 0 < s.count GetSocketPc.isExclusive :=
    List.countP_pos_iff.mpr ⟨_, mem_of_getElem? h, rfl⟩
  have hx : x = true := by
    rw [hc.exclusive] at hpos
    cases x
    · exact absurd hpos (by decide)
    · rfl
  subst hx
  have hu : u = false := (hc.alone rfl).1
  have hbits : LifeCycleLock.releaseExclusive s.channel.bits =
      lockWord (s.count GetSocketPc.isCounted) false false := by
    rw [hc.bits, releaseExclusive_lockWord]
  refine counted_put h hbits rfl ?_ ?_ (by cases ·)
  · rw [hc.upgraded, hu]
    rfl
  · rw [hc.exclusive]
    rfl

theorem Inv.step (hi : s.Inv) {a : ℕ × SocketOutcome} (h : s.step a = some s') : s'.Inv := by
  obtain ⟨u, x, hc⟩ := hi
  obtain ⟨pc, hp, rfl⟩ := Option.map_eq_some_iff.mp h
  change (s.put a.1 (getSocketStep a.2 s.channel pc).1 (getSocketStep a.2 s.channel pc).2).Inv
  cases pc with
  | outside r => exact ⟨u, x, hc.move hp rfl rfl rfl rfl rfl⟩
  | tryShared => exact ⟨u, x, hc.tryShared hp⟩
  | backOut => exact ⟨u, x, hc.release hp rfl rfl rfl rfl rfl⟩
  | readSocket =>
    refine ⟨u, x, ?_⟩
    unfold getSocketStep
    cases hs : s.channel.socket with
    | none => exact hc.move hp rfl rfl rfl rfl rfl
    | some socket => cases a.2.active <;> exact hc.move hp rfl rfl rfl rfl rfl
  | upgrade => exact ⟨true, x, hc.upgrade hp⟩
  | releaseShared r up =>
    cases up
    · exact ⟨u, x, hc.release hp rfl rfl rfl rfl rfl⟩
    · exact ⟨u, x, hc.release hp rfl rfl rfl rfl rfl⟩
  | exclusive =>
    unfold getSocketStep
    cases hx : tryExclusive s.channel.bits with
    | none => exact ⟨u, x, hc.move hp rfl rfl rfl rfl rfl⟩
    | some bits => exact ⟨false, true, hc.exclusive_ok hp hx⟩
  | surrender => exact ⟨u, x, hc.move hp rfl rfl rfl rfl rfl⟩
  | connect => exact ⟨u, x, hc.move hp rfl rfl rfl rfl rfl⟩
  | releaseExclusive r => exact ⟨false, false, hc.releaseExclusive hp⟩

/-- Of fewer than 2^29 threads the lock is the `int32_t` of the source: no access wraps it. -/
theorem bits_bmod {n : ℕ} (hn : n < 2 ^ 29) {socket : Option ℕ} {as : List (ℕ × SocketOutcome)}
    (h : run step (init n socket) as = some s) :
    Int.bmod s.channel.bits (2 ^ 32) = s.channel.bits := by
  have hstep (s : ChannelThreads) (a : ℕ × SocketOutcome) (s' : ChannelThreads)
      (hs : s.threads.length = n) (h : s.step a = some s') : s'.threads.length = n := by
    obtain ⟨pc, -, rfl⟩ := Option.map_eq_some_iff.mp h
    exact List.length_set.trans hs
  have hlength : s.threads.length = n := run_invariant hstep List.length_replicate h
  obtain ⟨u, x, hc⟩ := run_invariant (fun _ _ _ hi h => Inv.step hi h) (inv_init n socket) h
  have hcount : s.count GetSocketPc.isCounted ≤ n := hlength ▸ List.countP_le_length
  have hlow := low_lt u x
  rw [hc.bits]
  apply Int.bmod_eq_of_le_mul_two
  · simp only [lockWord]
    omega
  · simp only [lockWord]
    omega

/-- At most one thread is between its `exclusive` and its `releaseExclusive`, and then nobody is in
the shared section; when nobody is inside, the lock is 0. -/
theorem reconnect_protocol (n : ℕ) (socket : Option ℕ) (as : List (ℕ × SocketOutcome))
    (s : ChannelThreads) (h : run step (init n socket) as = some s) :
    (∀ (p q : ℕ) (t t' : GetSocketPc), s.threads[p]? = some t → s.threads[q]? = some t' →
        t.isExclusive = true → t'.isExclusive = true → p = q) ∧
      ((∃ t ∈ s.threads, t.isExclusive = true) → ∀ t ∈ s.threads, t.isShared = false) ∧
      (Int.land s.channel.bits LifeCycleLock.upgraded ≠ 0 ↔
        s.threads.countP GetSocketPc.isUpgraded = 1) ∧
      s.threads.countP GetSocketPc.isUpgraded ≤ 1 ∧
      ((∀ t ∈ s.threads, t.isOutside = true) → s.channel.bits = 0) := by
  have hi : s.Inv := run_invariant (fun _ _ _ hi h => Inv.step hi h) (inv_init n socket) h
  obtain ⟨u, x, hc⟩ := hi
  have hone : s.threads.countP GetSocketPc.isExclusive ≤ 1 :=
    hc.exclusive.trans_le (Bool.toNat_le x)
  refine ⟨fun p q t t' hp hq ht ht' => eq_of_countP_le_one hone hp hq ht ht', ?_, ?_,
    hc.upgraded.trans_le (Bool.toNat_le u), ?_⟩
  · rintro ⟨t, hmem, ht⟩ t' hmem'
    by_contra hs
    obtain ⟨q, hq⟩ := List.mem_iff_getElem?.mp hmem'
    have hx := hc.not_exclusive hq (by simpa using hs)
    have hpos : 0 < s.count GetSocketPc.isExclusive := List.countP_pos_iff.mpr ⟨t, hmem, ht⟩
    rw [hc.exclusive, hx] at hpos
    exact absurd hpos (by decide)
  · rw [hc.bits, land_upgraded_lockWord]
    have hup : s.threads.countP GetSocketPc.isUpgraded = u.toNat := hc.upgraded
    rw [hup]
    cases u <;> simp
  · intro hout
    have hnone : ∀ f : GetSocketPc → Bool, (∀ r, f (.outside r) = false) → s.count f = 0 :=
      fun f hf => GetSocketPc.countP_eq_zero hout hf
    have hu := hc.upgraded
    have hx := hc.exclusive
    rw [hnone _ fun _ => rfl] at hu hx
    rw [hc.bits, hnone _ fun _ => rfl, lockWord, ← hu, ← hx]
    rfl

theorem reconnect_protocol_two_threads :
    ∃ as s, run step (init 2 (some 0)) as = some s ∧ s.channel.socket = some 1 ∧
      s.threads = [.outside (some 1), .outside none] ∧
      (∀ (p q : ℕ) (t t' : GetSocketPc), s.threads[p]? = some t → s.threads[q]? = some t' →
        t.isExclusive = true → t'.isExclusive = true → p = q) ∧
      ((∃ t ∈ s.threads, t.isExclusive = true) → ∀ t ∈ s.threads, t.isShared = false) ∧
      (Int.land s.channel.bits LifeCycleLock.upgraded ≠ 0 ↔
        s.threads.countP GetSocketPc.isUpgraded = 1) ∧
      s.threads.countP GetSocketPc.isUpgraded ≤ 1 ∧
      ((∀ t ∈ s.threads, t.isOutside = true) → s.channel.bits = 0) := by
  have hr : run step (init 2 (some 0))
      ([0, 1, 0, 1, 0, 1, 0, 1, 0, 0, 1, 0, 0, 0, 0].map fun p => (p, ⟨false, some 1⟩)) = some
      ⟨⟨0, some 1⟩, [.outside (some 1), .outside none]⟩ := by decide +kernel
  exact ⟨_, _, hr, rfl, rfl, reconnect_protocol 2 (some 0) _ _ hr⟩

end ChannelThreads

end SofaBolt
