import SofaBolt.ConcurrentHashMapSize
import SofaBolt.LifeCycleThreads

namespace SofaBolt.MapThreads

open Chain Run ConcurrentHashMap LifeCycleLock

section Step

variable {K V : Type*}

def key : Call K V → K
  | .put k _ | .exchange k _ | .get k | .erase k => k

def reads : Call K V → Bool
  | .get _ => true
  | _ => false

/-- Where a call is: at the first access to the lock (`tryUpgrade`, or that of `tryShared`) or the
second (`tryExclusive`, or backing out of a refused `tryShared`), at the link `l`, or with the
answer `a` before the load or the store of the counter or the release. -/
inductive Pc (K V : Type*) where
  | idle
  | locking (c : Call K V)
  | trying (c : Call K V)
  | walking (c : Call K V) (l : Link ℕ ℕ)
  | loading (c : Call K V) (a : Answer V)
  | storing (c : Call K V) (a : Answer V) (n : ℕ)
  | releasing (c : Call K V) (a : Answer V)

def Pc.pending : Pc K V → List (Call K V × Answer V)
  | .loading c a | .storing c a _ | .releasing c a => [(c, a)]
  | _ => []

structure Thread (K V : Type*) where
  pc : Pc K V
  returned : List (Call K V × Answer V)

structure Threads (K V : Type*) where
  map : ConcurrentHashMap K V
  lockSize : ℕ
  locks : ℕ → LockState
  threads : List (Thread K V)
  log : List (ℕ × Call K V × Answer V)

def Threads.init (bucketHint lockNum threads : ℕ) : Threads K V where
  map := ConcurrentHashMap.init bucketHint
  lockSize := lockNum
  locks _ := .init threads
  threads := List.replicate threads ⟨.idle, []⟩
  log := []

def atEnd (m : ConcurrentHashMap K V) (l : Link ℕ ℕ) : Call K V → ConcurrentHashMap K V × Pc K V
  | .put k val =>
    ({ m.newNode l k val with elementSize := m.elementSize }, .loading (.put k val) (.bool true))
  | .exchange k val =>
    ({ m.newNode l k val with elementSize := m.elementSize },
      .loading (.exchange k val) (.exchanged false val))
  | .get k => (m, .releasing (.get k) (.found none))
  | .erase k => (m, .releasing (.erase k) (.bool false))

def atNode (m : ConcurrentHashMap K V) (l : Link ℕ ℕ) (q : ℕ) (v : V) :
    Call K V → ConcurrentHashMap K V × Pc K V
  | .put k val => (m, .releasing (.put k val) (.bool false))
  | .exchange k val =>
    ({ m with cells := Function.update m.cells q (some (k, val)) },
      .releasing (.exchange k val) (.exchanged true v))
  | .get k => (m, .releasing (.get k) (.found (some v)))
  | .erase k => (m.unlink l q, .loading (.erase k) (.bool true))

variable [DecidableEq K] (hash : K → ℕ)

def walk (m : ConcurrentHashMap K V) (c : Call K V) (l : Link ℕ ℕ) :
    Option (ConcurrentHashMap K V × Pc K V) :=
  m.turn (key c) l (atEnd m l c) (fun q v => atNode m l q v c) fun q => (m, .walking c (.next q))

def count : Call K V → ℕ → ℕ
  | .erase _, n => (n + (2 ^ 64 - 1)) % 2 ^ 64
  | _, n => (n + 1) % 2 ^ 64

def Threads.access (s : Threads K V) (t : ℕ) (c : Call K V) (op : LockOp)
    (next : LockThread → Thread K V) : Option (Threads K V) :=
  let i := lockIdx hash s.map.bucketSize s.lockSize (key c)
  ((s.locks i).threads[t]?).bind fun lt => (lockOp (s.locks i).bits lt op).map fun r =>
    { s with
      locks := Function.update s.locks i ((s.locks i).put t r.1 r.2)
      threads := s.threads.set t (next r.2) }

inductive Act (K V : Type*) where
  | call (t : ℕ) (c : Call K V)
  | step (t : ℕ)

def Threads.stepThread (s : Threads K V) (t : ℕ) (th : Thread K V) : Option (Threads K V) :=
  let entry (c : Call K V) : Pc K V :=
    .walking c (.head (bucketIdx hash s.map.bucketSize (key c)))
  match th.pc with
  | .idle => none
  | .locking c =>
    if reads c then s.access hash t c .addShared fun lt =>
      { th with pc := if lt.refused then .trying c else entry c }
    else
      let bits := (s.locks (lockIdx hash s.map.bucketSize s.lockSize (key c))).bits
      s.access hash t c .tryUpgrade fun _ =>
        { th with pc := if (tryUpgrade bits).1 then .trying c else .locking c }
  | .trying c =>
    if reads c then s.access hash t c .backOut fun _ => { th with pc := .locking c }
    else s.access hash t c .tryExclusive fun lt =>
      { th with pc := if lt.exclusive then entry c else .locking c }
  | .walking c l => (walk s.map c l).map fun r =>
    { s with
      map := r.1
      threads := s.threads.set t { th with pc := r.2 }
      log := s.log ++ r.2.pending.map fun e => (t, e) }
  | .loading c a =>
    some { s with threads := s.threads.set t { th with pc := .storing c a s.map.elementSize } }
  | .storing c a n =>
    some { s with
      map := { s.map with elementSize := count c n }
      threads := s.threads.set t { th with pc := .releasing c a } }
  | .releasing c a =>
    s.access hash t c (if reads c then .releaseShared else .releaseExclusive) fun _ =>
      ⟨.idle, th.returned ++ [(c, a)]⟩

def Threads.step (s : Threads K V) : Act K V → Option (Threads K V)
  | .call t c => (s.threads[t]?).bind fun th =>
    match th.pc with
    | .idle => some { s with threads := s.threads.set t { th with pc := .locking c } }
    | _ => none
  | .step t => (s.threads[t]?).bind fun th => s.stepThread hash t th

end Step

section Walk

variable {K V : Type*} {hash : K → ℕ} {m m' : ConcurrentHashMap K V} {f f' : K → Option V}
  {ids ids' : Finset ℕ} {chain chain' : ℕ → List ℕ} {c : Call K V} {l : Link ℕ ℕ} {n n' : ℕ}

def Holds (hash : K → ℕ) (m : ConcurrentHashMap K V) (f : K → Option V) (chain : ℕ → List ℕ) :
    Prop :=
  ∃ n ids, Stores hash { m with elementSize := n } f ids chain

theorem holds_iff (h : Holds hash m f chain) (k : K) (v : V) :
    f k = some v ↔ ∃ ps, IsChain m.links (.head (bucketIdx hash m.bucketSize k)) ps ∧
      ∃ p ∈ ps, m.cells p = some (k, v) := by
  obtain ⟨n, ids, hs⟩ := h
  have hmem := hs.buckets.mem (bucketIdx hash m.bucketSize k)
  rw [hs.values]
  constructor
  · rintro ⟨p, hp, hcell⟩
    exact ⟨_, hs.buckets.chains _, p, (hmem p).mpr ⟨hp, k, Stores.key_eq hcell, rfl⟩, hcell⟩
  · rintro ⟨ps, hps, p, hp, hcell⟩
    rw [hps.unique (hs.buckets.chains _)] at hp
    exact ⟨p, ((hmem p).mp hp).1, hcell⟩

/-- What a turn of the loop does: the call goes on, or it ends with the answer of the map and
the change to it.  Only the bucket of the call is changed, and not by a `get`. -/
structure Walked [DecidableEq K] (hash : K → ℕ) (m : ConcurrentHashMap K V) (f : K → Option V)
    (chain : ℕ → List ℕ) (c : Call K V) (m' : ConcurrentHashMap K V) (pc' : Pc K V)
    (f' : K → Option V) (chain' : ℕ → List ℕ) : Prop where
  holds : Holds hash m' f' chain'
  frame : Frame m chain m' chain' (bucketIdx hash m.bucketSize (key c))
  reads : reads c = true → m' = m ∧ chain' = chain
  goes : (∃ l', pc' = .walking c l' ∧ At hash m' chain' (key c) l' ∧ f' = f) ∨
    ∃ a, (pc' = .loading c a ∨ pc' = .releasing c a) ∧ MapSpec.call f c = (a, f')

theorem Walked.same [DecidableEq K] {pc' : Pc K V} (hh : Holds hash m f chain)
    (hgoes : (∃ l', pc' = .walking c l' ∧ At hash m chain (key c) l') ∨
      ∃ a, pc' = .releasing c a ∧ MapSpec.call f c = (a, f)) :
    Walked hash m f chain c m pc' f chain where
  holds := hh
  frame := .refl ..
  reads _ := ⟨rfl, rfl⟩
  goes := hgoes.imp (fun ⟨l', hpc, hat⟩ => ⟨l', hpc, hat, rfl⟩)
    fun ⟨a, hpc, hcall⟩ => ⟨a, .inr hpc, hcall⟩

variable {k : K}

theorem frame_setValue {q : ℕ} {v val : V} (hcell : m.cells q = some (k, v)) (b : ℕ) :
    Frame m chain { m with cells := Function.update m.cells q (some (k, val)) } chain b where
  bucketSize := rfl
  chains _ _ := rfl
  keys _ _ p _ := by
    by_cases hp : p = q
    · subst hp
      rw [Stores.key_eq hcell]
      simp [ConcurrentHashMap.key]
    · exact congrArg (Option.map Prod.fst) (Function.update_of_ne hp _ _)

variable [DecidableEq K]

theorem holds_newNode (hs : Stores hash { m with elementSize := n } f ids chain) (hk : f k = none)
    (val : V) :
    ∃ chain', Holds hash { m.newNode (endLink (.head (bucketIdx hash m.bucketSize k))
          (chain (bucketIdx hash m.bucketSize k))) k val with elementSize := m.elementSize }
        (Function.update f k (some val)) chain' ∧
      Frame m chain { m.newNode (endLink (.head (bucketIdx hash m.bucketSize k))
          (chain (bucketIdx hash m.bucketSize k))) k val with elementSize := m.elementSize } chain'
        (bucketIdx hash m.bucketSize k) := by
  have hw := Shape.put (m := m) ⟨hs.buckets, hs.fresh⟩ val (hs.not_key hk)
  obtain ⟨ids', chain', hs'⟩ := hs.newNode val hk
  obtain rfl : chain' = _ := funext fun b =>
    (hs'.buckets.chains b).unique (hw.shape.buckets.chains b)
  exact ⟨_, ⟨n + 1, ids', hs'⟩, hw.frame⟩

theorem holds_eraseNode (hs : Stores hash { m with elementSize := n } f ids chain) {q : ℕ} {v : V}
    (hq : q ∈ ids) (hcell : m.cells q = some (k, v)) {as bs : List ℕ}
    (hsplit : chain (bucketIdx hash m.bucketSize k) = as ++ q :: bs) :
    ∃ chain', Holds hash (m.unlink (endLink (.head (bucketIdx hash m.bucketSize k)) as) q)
        (Function.update f k none) chain' ∧
      Frame m chain (m.unlink (endLink (.head (bucketIdx hash m.bucketSize k)) as) q) chain'
        (bucketIdx hash m.bucketSize k) := by
  have hw := Shape.erase (m := m) ⟨hs.buckets, hs.fresh⟩ (Stores.key_eq hcell) hsplit
  obtain ⟨ids', chain', hs'⟩ := hs.eraseNode hq hcell hsplit
  obtain rfl : chain' = _ := funext fun b =>
    (hs'.buckets.chains b).unique (hw.shape.buckets.chains b)
  exact ⟨_, ⟨n - 1, ids', hs'⟩, hw.frame⟩

theorem walk_spec (hh : Holds hash m f chain) (hat : At hash m chain (key c) l) :
    ∃ m' pc' f' chain', walk m c l = some (m', pc') ∧
      Walked hash m f chain c m' pc' f' chain' := by
  obtain ⟨n, ids, hs⟩ := id hh
  rw [walk]
  rcases turn_cases (m := m) hs.buckets hat (atEnd m l c) (fun q v => atNode m l q v c)
      fun q => (m, .walking c (.next q)) with
    ⟨hturn, hkey, rfl⟩ | ⟨q, v, as, bs, hturn, hq, hcell, hsplit, rfl⟩ | ⟨q, hturn, hat⟩
  · -- the end of the chain: the key is not there
    have hk : f (key c) = none := by
      refine Option.eq_none_iff_forall_ne_some.mpr fun v hv => ?_
      obtain ⟨p, hp, hcell⟩ := (hs.values _ v).mp hv
      exact hkey p hp (Stores.key_eq hcell)
    rw [hturn]
    cases c with
    | put k val =>
      obtain ⟨chain', hholds, hframe⟩ := holds_newNode (k := k) hs hk val
      exact ⟨_, _, _, chain', rfl, hholds, hframe, (by cases ·),
        .inr ⟨_, .inl rfl, by simp [MapSpec.call, show f k = none from hk]⟩⟩
    | exchange k val =>
      obtain ⟨chain', hholds, hframe⟩ := holds_newNode (k := k) hs hk val
      exact ⟨_, _, _, chain', rfl, hholds, hframe, (by cases ·),
        .inr ⟨_, .inl rfl, by simp [MapSpec.call, show f k = none from hk]⟩⟩
    | get k =>
      exact ⟨_, _, _, _, rfl, .same hh (.inr ⟨_, rfl, Prod.ext (congrArg Answer.found hk) rfl⟩)⟩
    | erase k =>
      refine ⟨_, _, _, _, rfl, .same hh (.inr ⟨_, rfl, ?_⟩)⟩
      rw [MapSpec.call, show f k = none from hk, Function.update_eq_self_iff.mpr hk.symm]
      rfl
  · have hv : f (key c) = some v := (hs.values _ v).mpr ⟨q, hq, hcell⟩
    rw [hturn]
    cases c with
    | put k val =>
      refine ⟨_, _, _, _, rfl, .same hh (.inr ⟨_, rfl, ?_⟩)⟩
      simp [MapSpec.call, show f k = some v from hv]
    | exchange k val =>
      exact ⟨_, _, _, chain, rfl, ⟨n, ids, hs.setValue (k := k) hq hcell⟩,
        frame_setValue hcell _,
        (by cases ·), .inr ⟨_, .inr rfl, by simp [MapSpec.call, show f k = some v from hv]⟩⟩
    | get k =>
      exact ⟨_, _, _, _, rfl, .same hh (.inr ⟨_, rfl, Prod.ext (congrArg Answer.found hv) rfl⟩)⟩
    | erase k =>
      obtain ⟨chain', hholds, hframe⟩ := holds_eraseNode (k := k) hs hq hcell hsplit
      exact ⟨_, _, _, chain', rfl, hholds, hframe, (by cases ·),
        .inr ⟨_, .inl rfl, by simp [MapSpec.call, show f k = some v from hv]⟩⟩
  · exact ⟨_, _, _, _, hturn, .same hh (.inl ⟨_, rfl, hat⟩)⟩

end Walk

section Runs

variable {K V : Type*} {hash : K → ℕ} {s s' : Threads K V} {f f' : K → Option V}
  {chain chain' : ℕ → List ℕ} {n t : ℕ} {th th' : Thread K V}

/-- What a thread holds of the lock `i`, where `lockOf` gives the locks of the keys. -/
def Pc.mode (lockOf : K → ℕ) (i : ℕ) : Pc K V → LockThread
  | .trying c => ⟨false, reads c && lockOf (key c) = i, false⟩
  | .walking c _ | .loading c _ | .storing c _ _ | .releasing c _ =>
    ⟨reads c && lockOf (key c) = i, false, !reads c && lockOf (key c) = i⟩
  | _ => ⟨false, false, false⟩

def Threads.lockOf (hash : K → ℕ) (s : Threads K V) : K → ℕ :=
  lockIdx hash s.map.bucketSize s.lockSize

variable [DecidableEq K]

/-- The calls that are in `log` have one after the other the answers that are in it, and leave
what the buckets hold; the threads have returned these answers or are about to. -/
structure Threads.Inv (hash : K → ℕ) (n : ℕ) (s : Threads K V) (f : K → Option V)
    (chain : ℕ → List ℕ) : Prop where
  holds : Holds hash s.map f chain
  locks : ∀ i, (s.locks i).Inv n
  modes : ∀ (i t : ℕ) (th : Thread K V), s.threads[t]? = some th →
    (s.locks i).threads[t]? = some (th.pc.mode (s.lockOf hash) i)
  walks : ∀ (t : ℕ) (th : Thread K V) (c : Call K V) (l : Link ℕ ℕ), s.threads[t]? = some th →
    th.pc = .walking c l → At hash s.map chain (key c) l
  log : MapSpec.calls (fun _ => none) (s.log.map fun e => e.2.1) = (s.log.map fun e => e.2.2, f)
  own : ∀ (t : ℕ) (th : Thread K V), s.threads[t]? = some th →
    (s.log.filter (·.1 = t)).map Prod.snd = th.returned ++ th.pc.pending

theorem calls_append (f : K → Option V) (cs cs' : List (Call K V)) :
    MapSpec.calls f (cs ++ cs') =
      ((MapSpec.calls f cs).1 ++ (MapSpec.calls (MapSpec.calls f cs).2 cs').1,
        (MapSpec.calls (MapSpec.calls f cs).2 cs').2) := by
  induction cs generalizing f with
  | nil => rfl
  | cons c cs ih => simp only [List.cons_append, MapSpec.calls, ih]

theorem Threads.Inv.init (hash : K → ℕ) (bucketHint lockNum n : ℕ) :
    (init bucketHint lockNum n : Threads K V).Inv hash n (fun _ => none) fun _ => [] where
  holds := ⟨0, ∅, Stores.init hash bucketHint⟩
  locks _ := LockState.inv_init n
  modes i t th ht := by
    have hlt : t < n := by simpa [Threads.init] using (List.getElem?_eq_some_iff.mp ht).1
    rw [List.eq_of_mem_replicate (mem_of_getElem? ht)]
    simp [Threads.init, LockState.init, Pc.mode, hlt]
  walks t th c l ht hpc := by
    rw [List.eq_of_mem_replicate (mem_of_getElem? ht)] at hpc
    cases hpc
  log := rfl
  own t th ht := by
    rw [List.eq_of_mem_replicate (mem_of_getElem? ht)]
    rfl

theorem Threads.Inv.move (hi : s.Inv hash n f chain) (es : List (Call K V × Answer V))
    (ht : s.threads[t]? = some th)
    (hthreads : s'.threads = s.threads.set t th') (hlockOf : s'.lockOf hash = s.lockOf hash)
    (hholds : Holds hash s'.map f' chain') (hlocks : ∀ i, (s'.locks i).Inv n)
    (hmine : ∀ i, (s'.locks i).threads[t]? = some (th'.pc.mode (s.lockOf hash) i))
    (hothers : ∀ i t', t' ≠ t → (s'.locks i).threads[t']? = (s.locks i).threads[t']?)
    (hwalk : ∀ c l, th'.pc = .walking c l → At hash s'.map chain' (key c) l)
    (hwalks : ∀ t' th₁ c l, t' ≠ t → s.threads[t']? = some th₁ → th₁.pc = .walking c l →
      At hash s.map chain (key c) l → At hash s'.map chain' (key c) l)
    (hlog : s'.log = s.log ++ es.map fun e => (t, e))
    (hcalls : MapSpec.calls f (es.map Prod.fst) = (es.map Prod.snd, f'))
    (hown : th'.returned ++ th'.pc.pending = th.returned ++ th.pc.pending ++ es) :
    s'.Inv hash n f' chain' where
  holds := hholds
  locks := hlocks
  modes i t' th₁ ht' := by
    rw [hthreads] at ht'
    rw [hlockOf]
    rcases getElem?_set_cases ht ht' with ⟨rfl, rfl⟩ | ⟨hne, ht'⟩
    · exact hmine i
    · rw [hothers i t' hne]
      exact hi.modes i t' th₁ ht'
  walks t' th₁ c l ht' hpc := by
    rw [hthreads] at ht'
    rcases getElem?_set_cases ht ht' with ⟨rfl, rfl⟩ | ⟨hne, ht'⟩
    · exact hwalk c l hpc
    · exact hwalks t' th₁ c l hne ht' hpc (hi.walks t' th₁ c l ht' hpc)
  log := by
    have hfst : (es.map fun e => (t, e)).map (fun e => e.2.1) = es.map Prod.fst := by simp
    have hsnd : (es.map fun e => (t, e)).map (fun e => e.2.2) = es.map Prod.snd := by simp
    rw [hlog, List.map_append, List.map_append, hfst, hsnd, calls_append, hi.log, hcalls]
  own t' th₁ ht' := by
    rw [hthreads] at ht'
    rw [hlog, List.filter_append, List.map_append]
    rcases getElem?_set_cases ht ht' with ⟨rfl, rfl⟩ | ⟨hne, ht'⟩
    · have hall : (es.map fun e => (t', e)).filter (·.1 = t') = es.map fun e => (t', e) := by
        refine List.filter_eq_self.mpr fun e he => ?_
        obtain ⟨e, -, rfl⟩ := List.mem_map.mp he
        exact decide_eq_true rfl
      rw [hi.own t' th ht, hown, hall, List.map_map]
      simp [Function.comp_def]
    · have hnone : (es.map fun e => (t, e)).filter (·.1 = t') = [] := by
        refine List.filter_eq_nil_iff.mpr fun e he => ?_
        obtain ⟨e, -, rfl⟩ := List.mem_map.mp he
        simpa using hne.symm
      rw [hi.own t' th₁ ht', hnone, List.map_nil, List.append_nil]

omit [DecidableEq K] in
theorem access_of_lockOp {c : Call K V} {op : LockOp} {lt : LockThread} {r : ℤ × LockThread}
    (hlt : (s.locks (s.lockOf hash (key c))).threads[t]? = some lt)
    (hr : lockOp (s.locks (s.lockOf hash (key c))).bits lt op = some r)
    (next : LockThread → Thread K V) :
    s.access hash t c op next = some { s with
      locks := Function.update s.locks (s.lockOf hash (key c))
        ((s.locks (s.lockOf hash (key c))).put t r.1 r.2)
      threads := s.threads.set t (next r.2) } := by
  unfold Threads.access
  dsimp only
  rw [show lockIdx hash s.map.bucketSize s.lockSize (key c) = s.lockOf hash (key c) from rfl, hlt,
    Option.bind_some, hr, Option.map_some]

/-- An access to the lock of the call that makes of what the thread holds of it `lt`. -/
theorem Threads.Inv.access (hi : s.Inv hash n f chain) (hn : n < 2 ^ 29)
    (ht : s.threads[t]? = some th) (c : Call K V) {op : LockOp} (lt : LockThread)
    (hop : (lockOp (s.locks (s.lockOf hash (key c))).bits
      (th.pc.mode (s.lockOf hash) (s.lockOf hash (key c))) op).map Prod.snd = some lt)
    {next : LockThread → Thread K V}
    (hmine : (next lt).pc.mode (s.lockOf hash) (s.lockOf hash (key c)) = lt)
    (hothers : ∀ i, i ≠ s.lockOf hash (key c) →
      (next lt).pc.mode (s.lockOf hash) i = th.pc.mode (s.lockOf hash) i)
    (hwalk : ∀ c' l, (next lt).pc = .walking c' l → At hash s.map chain (key c') l)
    (hown : (next lt).returned ++ (next lt).pc.pending = th.returned ++ th.pc.pending) :
    ∃ s', s.access hash t c op next = some s' ∧ s'.Inv hash n f chain ∧ s.log <+: s'.log := by
  obtain ⟨r, hr, rfl⟩ := Option.map_eq_some_iff.mp hop
  have hlt := hi.modes (s.lockOf hash (key c)) t th ht
  refine ⟨_, access_of_lockOp hlt hr next, ?_, List.prefix_rfl⟩
  refine hi.move [] ht rfl rfl hi.holds (fun i => ?_) (fun i => ?_) (fun i t' hne => ?_)
    hwalk (fun _ _ _ _ _ _ _ h => h) (List.append_nil _).symm rfl
    (hown.trans (List.append_nil _).symm)
  · dsimp only
    by_cases h : i = s.lockOf hash (key c)
    · subst h
      rw [Function.update_self]
      exact (hi.locks _).lockOp hn hlt hr
    · rw [Function.update_of_ne h]
      exact hi.locks i
  · dsimp only
    by_cases h : i = s.lockOf hash (key c)
    · subst h
      rw [Function.update_self, hmine]
      exact List.getElem?_set_self (List.getElem?_eq_some_iff.mp hlt).1
    · rw [Function.update_of_ne h, hothers i h]
      exact hi.modes i t th ht
  · dsimp only
    by_cases h : i = s.lockOf hash (key c)
    · subst h
      rw [Function.update_self]
      exact List.getElem?_set_ne hne.symm
    · rw [Function.update_of_ne h]

theorem Threads.Inv.locking (hi : s.Inv hash n f chain) (hn : n < 2 ^ 29) {c : Call K V}
    (ht : s.threads[t]? = some th) (hpc : th.pc = .locking c) :
    ∃ s', s.stepThread hash t th = some s' ∧ s'.Inv hash n f chain ∧ s.log <+: s'.log := by
  have hmode (i : ℕ) : th.pc.mode (s.lockOf hash) i = ⟨false, false, false⟩ := by
    rw [hpc]
    rfl
  unfold Threads.stepThread
  rw [hpc]
  by_cases hreads : reads c = true
  · -- refused, if the lock is held
    simp only [hreads, if_true]
    by_cases hheld : held (s.locks (s.lockOf hash (key c))).bits
    · exact hi.access hn ht c ⟨false, true, false⟩ (by rw [hmode]; simp [lockOp, hheld])
        (by simp [Pc.mode, hreads]) (fun i h => by simp [hpc, Pc.mode, Ne.symm h]) (by simp)
        (by simp [hpc, Pc.pending])
    · refine hi.access hn ht c ⟨true, false, false⟩ (by rw [hmode]; simp [lockOp, hheld])
        (by simp [Pc.mode, hreads]) (fun i h => by simp [hpc, Pc.mode, Ne.symm h])
        (fun c' l h => ?_) (by simp [hpc, Pc.pending])
      simp only [Bool.false_eq_true, if_false, Pc.walking.injEq] at h
      obtain ⟨rfl, rfl⟩ := h
      exact at_head ..
  · simp only [hreads, if_false, Bool.false_eq_true]
    refine hi.access hn ht c ⟨false, false, false⟩ (by rw [hmode]; simp [lockOp]) ?_
      (fun i _ => ?_) (fun c' l h => ?_) ?_
    · dsimp only
      split_ifs <;> simp [Pc.mode, hreads]
    · dsimp only
      split_ifs <;> simp [hpc, Pc.mode, hreads]
    · dsimp only at h
      split_ifs at h
    · dsimp only
      split_ifs <;> simp [hpc, Pc.pending]

theorem Threads.Inv.trying (hi : s.Inv hash n f chain) (hn : n < 2 ^ 29) {c : Call K V}
    (ht : s.threads[t]? = some th) (hpc : th.pc = .trying c) :
    ∃ s', s.stepThread hash t th = some s' ∧ s'.Inv hash n f chain ∧ s.log <+: s'.log := by
  have hmode (i : ℕ) : th.pc.mode (s.lockOf hash) i =
      ⟨false, reads c && s.lockOf hash (key c) = i, false⟩ := by
    rw [hpc]
    rfl
  unfold Threads.stepThread
  rw [hpc]
  by_cases hreads : reads c = true
  · simp only [hreads, if_true]
    exact hi.access hn ht c ⟨false, false, false⟩ (by rw [hmode]; simp [lockOp, hreads])
      (by simp [Pc.mode]) (fun i h => by simp [hpc, Pc.mode, Ne.symm h]) (by simp)
      (by simp [hpc, Pc.pending])
  · simp only [hreads, if_false, Bool.false_eq_true]
    cases hx : tryExclusive (s.locks (s.lockOf hash (key c))).bits with
    | none =>
      exact hi.access hn ht c ⟨false, false, false⟩ (by rw [hmode]; simp [lockOp, hreads, hx])
        (by simp [Pc.mode]) (fun i h => by simp [hpc, Pc.mode, Ne.symm h]) (by simp)
        (by simp [hpc, Pc.pending])
    | some bits =>
      refine hi.access hn ht c ⟨false, false, true⟩ (by rw [hmode]; simp [lockOp, hreads, hx])
        (by simp [Pc.mode, hreads]) (fun i h => by simp [hpc, Pc.mode, Ne.symm h])
        (fun c' l h => ?_) (by simp [hpc, Pc.pending])
      simp only [if_true, Pc.walking.injEq] at h
      obtain ⟨rfl, rfl⟩ := h
      exact at_head ..

theorem Threads.Inv.releasing (hi : s.Inv hash n f chain) (hn : n < 2 ^ 29) {c : Call K V}
    {a : Answer V} (ht : s.threads[t]? = some th) (hpc : th.pc = .releasing c a) :
    ∃ s', s.stepThread hash t th = some s' ∧ s'.Inv hash n f chain ∧ s.log <+: s'.log := by
  have hmode (i : ℕ) : th.pc.mode (s.lockOf hash) i =
      ⟨reads c && s.lockOf hash (key c) = i, false, !reads c && s.lockOf hash (key c) = i⟩ := by
    rw [hpc]
    rfl
  unfold Threads.stepThread
  rw [hpc]
  refine hi.access hn ht c ⟨false, false, false⟩ ?_ rfl
    (fun i h => by simp [hpc, Pc.mode, Ne.symm h]) (by simp) (by simp [hpc, Pc.pending])
  rw [hmode]
  cases reads c <;> simp [lockOp]

theorem not_held {ls : LockState} {p q : ℕ} {lt lt' : LockThread} (hi : ls.Inv n)
    (hp : ls.threads[p]? = some lt) (hx : lt.exclusive = true) (hq : ls.threads[q]? = some lt')
    (hne : q ≠ p) : lt'.shared = false ∧ lt'.exclusive = false := by
  obtain ⟨u, x, hc⟩ := hi.counted
  have howners : ls.threads.countP LockThread.exclusive = x.toNat := hc.owners
  have hpos : 0 < ls.threads.countP LockThread.exclusive :=
    List.countP_pos_iff.mpr ⟨lt, mem_of_getElem? hp, hx⟩
  have htrue : x = true := by
    cases x
    · simp [howners] at hpos
    · rfl
  refine ⟨hc.alone htrue lt' (mem_of_getElem? hq), Bool.eq_false_iff.mpr fun hx' => hne ?_⟩
  exact eq_of_countP_le_one (howners.trans_le (Bool.toNat_le x)) hq hp hx' hx

theorem Threads.Inv.bucket_ne (hi : s.Inv hash n f chain) {c c' : Call K V} {l l' : Link ℕ ℕ}
    {t' : ℕ} {th' : Thread K V} (ht : s.threads[t]? = some th) (hpc : th.pc = .walking c l)
    (hw : reads c = false) (ht' : s.threads[t']? = some th') (hpc' : th'.pc = .walking c' l')
    (hne : t' ≠ t) :
    bucketIdx hash s.map.bucketSize (key c') ≠ bucketIdx hash s.map.bucketSize (key c) := by
  intro hb
  have hlock : s.lockOf hash (key c') = s.lockOf hash (key c) := congrArg (· % s.lockSize) hb
  have hmine := hi.modes (s.lockOf hash (key c)) t th ht
  have hother := hi.modes (s.lockOf hash (key c)) t' th' ht'
  rw [hpc] at hmine
  rw [hpc'] at hother
  have hfree := not_held (hi.locks _) hmine (by simp [Pc.mode, hw]) hother hne
  cases hr : reads c' <;> simp [Pc.mode, hr, hlock] at hfree

theorem stepThread_of_walk {c : Call K V} {l : Link ℕ ℕ} {r : ConcurrentHashMap K V × Pc K V}
    (hpc : th.pc = .walking c l) (hw : walk s.map c l = some r) :
    s.stepThread hash t th = some { s with
      map := r.1
      threads := s.threads.set t { th with pc := r.2 }
      log := s.log ++ r.2.pending.map fun e => (t, e) } := by
  unfold Threads.stepThread
  rw [hpc]
  dsimp only
  rw [hw, Option.map_some]

theorem Threads.Inv.walking (hi : s.Inv hash n f chain) {c : Call K V} {l : Link ℕ ℕ}
    (ht : s.threads[t]? = some th) (hpc : th.pc = .walking c l) :
    ∃ s' f' chain', s.stepThread hash t th = some s' ∧ s'.Inv hash n f' chain' ∧
      s.log <+: s'.log := by
  obtain ⟨m', pc', f', chain', hw, hwd⟩ := walk_spec hi.holds (hi.walks t th c l ht hpc)
  refine ⟨_, f', chain', stepThread_of_walk hpc hw, hi.move pc'.pending ht rfl ?_ hwd.holds
    hi.locks (fun i => ?_) (fun _ _ _ => rfl) (fun c' l' h => ?_)
    (fun t' th₁ c' l' hne ht' hpc' hat => ?_) rfl ?_ ?_, List.prefix_append ..⟩
  · exact congrArg (lockIdx hash · s.lockSize) hwd.frame.bucketSize
  · rw [hi.modes i t th ht, hpc]
    rcases hwd.goes with ⟨l', rfl, -⟩ | ⟨a, rfl | rfl, -⟩ <;> rfl
  · rcases hwd.goes with ⟨l₁, rfl, hat, -⟩ | ⟨a, rfl | rfl, -⟩ <;> cases h
    exact hat
  · cases hr : reads c with
    | true =>
      obtain ⟨hm, hc⟩ := hwd.reads hr
      dsimp only
      rwa [hm, hc]
    | false => exact hat.frame hwd.frame (hi.bucket_ne ht hpc hr ht' hpc' hne)
  · rcases hwd.goes with ⟨l', rfl, -, rfl⟩ | ⟨a, hpc', hcall⟩
    · rfl
    · have hpend : pc'.pending = [(c, a)] := by rcases hpc' with rfl | rfl <;> rfl
      simp [hpend, MapSpec.calls, hcall]
  · rw [hpc]
    simp [Pc.pending]

theorem Threads.Inv.counting (hi : s.Inv hash n f chain) {pc' : Pc K V} {k : ℕ}
    (ht : s.threads[t]? = some th)
    (hmode : ∀ i, pc'.mode (s.lockOf hash) i = th.pc.mode (s.lockOf hash) i)
    (hwalk : ∀ c l, pc' ≠ .walking c l) (hpending : pc'.pending = th.pc.pending) :
    ({ s with
      map := { s.map with elementSize := k }
      threads := s.threads.set t { th with pc := pc' } } : Threads K V).Inv hash n f chain :=
  hi.move [] ht rfl rfl hi.holds hi.locks
    (fun i => (hi.modes i t th ht).trans (congrArg some (hmode i).symm)) (fun _ _ _ => rfl)
    (fun c l h => absurd h (hwalk c l)) (fun _ _ _ _ _ _ _ h => h)
    (List.append_nil _).symm rfl (by simp [hpending])

theorem Threads.Inv.stepThread (hi : s.Inv hash n f chain) (hn : n < 2 ^ 29)
    (ht : s.threads[t]? = some th) (hpc : th.pc ≠ .idle) :
    ∃ s' f' chain', s.stepThread hash t th = some s' ∧ s'.Inv hash n f' chain' ∧
      s.log <+: s'.log := by
  cases h : th.pc with
  | idle => exact absurd h hpc
  | locking c => exact (hi.locking hn ht h).imp fun s' h' => ⟨f, chain, h'⟩
  | trying c => exact (hi.trying hn ht h).imp fun s' h' => ⟨f, chain, h'⟩
  | walking c l => exact hi.walking ht h
  | loading c a =>
    have hs : s.stepThread hash t th = some { s with
        threads := s.threads.set t { th with pc := .storing c a s.map.elementSize } } := by
      unfold Threads.stepThread
      rw [h]
    exact ⟨_, f, chain, hs, hi.counting (k := s.map.elementSize) ht (fun _ => by rw [h]; rfl)
      (by simp) (by rw [h]; rfl), List.prefix_rfl⟩
  | storing c a k =>
    have hs : s.stepThread hash t th = some { s with
        map := { s.map with elementSize := count c k }
        threads := s.threads.set t { th with pc := .releasing c a } } := by
      unfold Threads.stepThread
      rw [h]
    exact ⟨_, f, chain, hs, hi.counting ht (fun _ => by rw [h]; rfl) (by simp) (by rw [h]; rfl),
      List.prefix_rfl⟩
  | releasing c a => exact (hi.releasing hn ht h).imp fun s' h' => ⟨f, chain, h'⟩

theorem Threads.Inv.step (hi : s.Inv hash n f chain) (hn : n < 2 ^ 29) {a : Act K V}
    (hs : s.step hash a = some s') :
    ∃ f' chain', s'.Inv hash n f' chain' ∧ s.log <+: s'.log := by
  cases a with
  | call t c =>
    obtain ⟨th, ht, hs⟩ := Option.bind_eq_some_iff.mp hs
    cases h : th.pc with
    | idle =>
      rw [h] at hs
      cases hs
      exact ⟨f, chain, hi.counting (k := s.map.elementSize) ht (fun _ => by rw [h]; rfl) (by simp)
        (by rw [h]; rfl), List.prefix_rfl⟩
    | _ =>
      rw [h] at hs
      cases hs
  | step t =>
    obtain ⟨th, ht, hs⟩ := Option.bind_eq_some_iff.mp hs
    have hpc : th.pc ≠ .idle := by
      intro h
      unfold Threads.stepThread at hs
      rw [h] at hs
      cases hs
    obtain ⟨s₁, f', chain', hs₁, hi', hlog⟩ := hi.stepThread hn ht hpc
    obtain rfl := Option.some.inj (hs₁.symm.trans hs)
    exact ⟨f', chain', hi', hlog⟩

theorem Threads.Inv.run (hi : s.Inv hash n f chain) (hn : n < 2 ^ 29) {as : List (Act K V)}
    (hr : Run.run (Threads.step hash) s as = some s') :
    ∃ f' chain', s'.Inv hash n f' chain' ∧ s.log <+: s'.log := by
  have hstep : ∀ (s₁ : Threads K V) a s₂,
      (∃ f₁ chain₁, s₁.Inv hash n f₁ chain₁ ∧ s.log <+: s₁.log) → s₁.step hash a = some s₂ →
      ∃ f₂ chain₂, s₂.Inv hash n f₂ chain₂ ∧ s.log <+: s₂.log := by
    rintro s₁ a s₂ ⟨f₁, chain₁, hi₁, hlog₁⟩ hs
    obtain ⟨f₂, chain₂, hi₂, hlog₂⟩ := hi₁.step hn hs
    exact ⟨f₂, chain₂, hi₂, hlog₁.trans hlog₂⟩
  exact run_invariant hstep ⟨f, chain, hi, List.prefix_rfl⟩ hr

/-- Any calls of fewer than 2^29 threads take effect one after the other in the order of `log`, with
the answers of a finite map, and none is ever stuck, as at a node that has been deleted. -/
theorem concurrentHashMap_linearizable (hash : K → ℕ) (bucketHint lockNum n : ℕ) (hn : n < 2 ^ 29)
    (as bs : List (Act K V)) (s₁ s : Threads K V)
    (h₁ : run (Threads.step hash) (.init bucketHint lockNum n) as = some s₁)
    (h : run (Threads.step hash) s₁ bs = some s) :
    s₁.log <+: s.log ∧
      ∃ f, MapSpec.calls (fun _ => none) (s.log.map fun e => e.2.1) =
          (s.log.map fun e => e.2.2, f) ∧
        (∀ k v, f k = some v ↔ ∃ ps, IsChain s.map.links
          (.head (bucketIdx hash s.map.bucketSize k)) ps ∧ ∃ p ∈ ps, s.map.cells p = some (k, v)) ∧
        ∀ (t : ℕ) (th : Thread K V), s.threads[t]? = some th →
          (s.log.filter (·.1 = t)).map Prod.snd = th.returned ++ th.pc.pending ∧
            (th.pc ≠ .idle → (s.step hash (.step t)).isSome) := by
  obtain ⟨f₁, chain₁, hi₁, -⟩ := (Threads.Inv.init hash bucketHint lockNum n).run hn h₁
  obtain ⟨f, chain, hi, hlog⟩ := hi₁.run hn h
  refine ⟨hlog, f, hi.log, holds_iff hi.holds, fun t th ht => ⟨hi.own t th ht, fun hpc => ?_⟩⟩
  obtain ⟨s', f', chain', hs, -⟩ := hi.stepThread hn ht hpc
  rw [Threads.step, ht, Option.bind_some, hs]
  rfl

theorem concurrentHashMap_linearizable_get_put :
    ∃ s₁ s : Threads ℕ ℕ,
      run (Threads.step id) (.init 4 5 2) ([.call 0 (.put 1 10), .call 1 (.get 1), .step 1,
        .step 0, .step 0, .step 1] : List (Act ℕ ℕ)) = some s₁ ∧
      run (Threads.step id) s₁ (.step 1 :: List.replicate 6 (.step 0)) = some s ∧
      s₁.log.map (fun e => (e.1, e.2.2)) = [(1, .found none)] ∧
      s.log.map (fun e => (e.1, e.2.2)) = [(1, .found none), (0, .bool true)] ∧
      s₁.log <+: s.log := by
  have hrun : ∃ s₁ : Threads ℕ ℕ,
      run (Threads.step id) (.init 4 5 2) ([.call 0 (.put 1 10), .call 1 (.get 1), .step 1,
        .step 0, .step 0, .step 1] : List (Act ℕ ℕ)) = some s₁ ∧
      s₁.log.map (fun e => (e.1, e.2.2)) = [(1, .found none)] ∧
      ∃ s, run (Threads.step id) s₁ (.step 1 :: List.replicate 6 (.step 0)) = some s ∧
        s.log.map (fun e => (e.1, e.2.2)) = [(1, .found none), (0, .bool true)] := by
    decide +kernel
  obtain ⟨s₁, h₁, hlog₁, s, h, hlog⟩ := hrun
  exact ⟨s₁, s, h₁, h, hlog₁, hlog,
    (concurrentHashMap_linearizable id 4 5 2 (by norm_num) _ _ s₁ s h₁ h).1⟩

end Runs

end SofaBolt.MapThreads
