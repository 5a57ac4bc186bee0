import SofaBolt.ConcurrentHashMap
import SofaBolt.Run

namespace SofaBolt.ConcurrentHashMap

open Chain Run

inductive Update (K V : Type*) where
  | put (k : K) (val : V)
  | erase (k : K)
deriving DecidableEq, Repr

/-- Where an operation is: at the link `l`, before the load of the counter, before the store
with the `n` that was loaded, before the release of the lock. -/
inductive Pc (K V : Type*) where
  | idle
  | locking (u : Update K V)
  | walking (u : Update K V) (l : Link ℕ ℕ)
  | loading (u : Update K V)
  | storing (u : Update K V) (n : ℕ)
  | releasing (u : Update K V)
deriving DecidableEq, Repr

section Step

variable {K V : Type*}

def Update.key : Update K V → K
  | .put k _ | .erase k => k

def Update.count : Update K V → ℕ → ℕ
  | .put _ _, n => (n + 1) % 2 ^ 64
  | .erase _, n => (n + (2 ^ 64 - 1)) % 2 ^ 64

def Pc.held : Pc K V → Option K
  | .idle | .locking _ => none
  | .walking u _ | .loading u | .storing u _ | .releasing u => some u.key

variable [DecidableEq K] (hash : K → ℕ)

def lockIdx (bucketSize lockSize : ℕ) (k : K) : ℕ := bucketIdx hash bucketSize k % lockSize

/-- One turn of the loop over a chain for the key `k`: at the end of the chain, at a node with
the key, or at another node.  A node that has been deleted cannot be read. -/
def turn {R : Type*} (m : ConcurrentHashMap K V) (k : K) (l : Link ℕ ℕ) (atEnd : R)
    (atNode : ℕ → V → R) (onward : ℕ → R) : Option R :=
  match m.links l with
  | none => some atEnd
  | some q => (m.cells q).map fun cell => if cell.1 = k then atNode q cell.2 else onward q

def unlink (m : ConcurrentHashMap K V) (l : Link ℕ ℕ) (q : ℕ) : ConcurrentHashMap K V :=
  { m with
    links := Function.update m.links l (m.links (.next q))
    cells := Function.update m.cells q none }

/-- What `put_nolock` and `erase_nolock` do at the end of the chain: the node is linked, the
counter comes after it. -/
def atEnd (m : ConcurrentHashMap K V) (l : Link ℕ ℕ) : Update K V → ConcurrentHashMap K V × Pc K V
  | .put k val => ({ m.newNode l k val with elementSize := m.elementSize }, .loading (.put k val))
  | .erase k => (m, .releasing (.erase k))

def atNode (m : ConcurrentHashMap K V) (l : Link ℕ ℕ) (q : ℕ) :
    Update K V → ConcurrentHashMap K V × Pc K V
  | .put k val => (m, .releasing (.put k val))
  | .erase k => (m.unlink l q, .loading (.erase k))

def walk (m : ConcurrentHashMap K V) (u : Update K V) (l : Link ℕ ℕ) :
    Option (ConcurrentHashMap K V × Pc K V) :=
  m.turn u.key l (m.atEnd l u) (fun q _ => m.atNode l q u) fun q => (m, .walking u (.next q))

/-- One step of the thread `t`.  A thread that spins for a lock that is held has none. -/
def opStep (lockSize t : ℕ) (m : ConcurrentHashMap K V) (locks : ℕ → Option ℕ) :
    Pc K V → Option (ConcurrentHashMap K V × (ℕ → Option ℕ) × Pc K V)
  | .idle => none
  | .locking u =>
    if locks (lockIdx hash m.bucketSize lockSize u.key) = none then
      some (m, Function.update locks (lockIdx hash m.bucketSize lockSize u.key) (some t),
        .walking u (.head (bucketIdx hash m.bucketSize u.key)))
    else none
  | .walking u l => (m.walk u l).map fun r => (r.1, locks, r.2)
  | .loading u => some (m, locks, .storing u m.elementSize)
  | .storing u n => some ({ m with elementSize := u.count n }, locks, .releasing u)
  | .releasing u =>
    some (m, Function.update locks (lockIdx hash m.bucketSize lockSize u.key) none, .idle)

structure Threads (K V : Type*) where
  map : ConcurrentHashMap K V
  lockSize : ℕ
  locks : ℕ → Option ℕ
  threads : List (Pc K V)

def Threads.init (bucketHint lockNum threads : ℕ) : Threads K V where
  map := ConcurrentHashMap.init bucketHint
  lockSize := lockNum
  locks _ := none
  threads := List.replicate threads .idle

inductive Act (K V : Type*) where
  | call (t : ℕ) (u : Update K V)
  | step (t : ℕ)
deriving DecidableEq, Repr

def Threads.step (s : Threads K V) : Act K V → Option (Threads K V)
  | .call t u => (s.threads[t]?).bind fun pc =>
    match pc with
    | .idle => some { s with threads := s.threads.set t (.locking u) }
    | _ => none
  | .step t => (s.threads[t]?).bind fun pc =>
    (opStep hash s.lockSize t s.map s.locks pc).map fun r =>
      { s with map := r.1, locks := r.2.1, threads := s.threads.set t r.2.2 }

/-- `size()`. -/
def size (m : ConcurrentHashMap K V) : ℕ := m.elementSize

def HasKey (m : ConcurrentHashMap K V) (k : K) : Prop :=
  ∃ ps, IsChain m.links (.head (bucketIdx hash m.bucketSize k)) ps ∧ ∃ p ∈ ps, m.key p = some k

end Step

section Spec

variable {K V : Type*} {hash : K → ℕ} {m m' : ConcurrentHashMap K V} {ids ids' : Finset ℕ}
  {chain chain' : ℕ → List ℕ} {u : Update K V} {l : Link ℕ ℕ} {pc pc' : Pc K V}

structure Shape (hash : K → ℕ) (m : ConcurrentHashMap K V) (ids : Finset ℕ)
    (chain : ℕ → List ℕ) : Prop where
  buckets : Buckets hash m.bucketSize m.links m.key ids chain
  fresh : ∀ p, m.nextId ≤ p → p ∉ ids

def At (hash : K → ℕ) (m : ConcurrentHashMap K V) (chain : ℕ → List ℕ) (k : K) (l : Link ℕ ℕ) :
    Prop :=
  ∃ as bs, chain (bucketIdx hash m.bucketSize k) = as ++ bs ∧
    l = endLink (.head (bucketIdx hash m.bucketSize k)) as ∧ ∀ a ∈ as, m.key a ≠ some k

theorem at_head (hash : K → ℕ) (m : ConcurrentHashMap K V) (chain : ℕ → List ℕ) (k : K) :
    At hash m chain k (.head (bucketIdx hash m.bucketSize k)) :=
  ⟨[], _, rfl, rfl, by simp⟩

structure Frame (m : ConcurrentHashMap K V) (chain : ℕ → List ℕ) (m' : ConcurrentHashMap K V)
    (chain' : ℕ → List ℕ) (b : ℕ) : Prop where
  bucketSize : m'.bucketSize = m.bucketSize
  chains : ∀ c, c ≠ b → chain' c = chain c
  keys : ∀ c, c ≠ b → ∀ p ∈ chain c, m'.key p = m.key p

theorem Frame.refl (m : ConcurrentHashMap K V) (chain : ℕ → List ℕ) (b : ℕ) :
    Frame m chain m chain b :=
  ⟨rfl, fun _ _ => rfl, fun _ _ _ _ => rfl⟩

theorem At.frame {b : ℕ} {k : K} (h : At hash m chain k l) (hf : Frame m chain m' chain' b)
    (hb : bucketIdx hash m.bucketSize k ≠ b) : At hash m' chain' k l := by
  obtain ⟨as, bs, hsplit, hl, hkey⟩ := h
  rw [At, hf.bucketSize, hf.chains _ hb]
  refine ⟨as, bs, hsplit, hl, fun a ha => ?_⟩
  rw [hf.keys _ hb a (by simp [hsplit, ha])]
  exact hkey a ha

/-- A turn of the loop is at the end of the chain, and the key is not there, or at the node
with the key, or it goes on.  It never comes to a node that has been deleted. -/
theorem turn_cases [DecidableEq K] {R : Type*} {k : K}
    (hb : Buckets hash m.bucketSize m.links m.key ids chain) (hat : At hash m chain k l)
    (atEnd : R) (atNode : ℕ → V → R) (onward : ℕ → R) :
    (m.turn k l atEnd atNode onward = some atEnd ∧ (∀ p ∈ ids, m.key p ≠ some k) ∧
        l = endLink (.head (bucketIdx hash m.bucketSize k))
          (chain (bucketIdx hash m.bucketSize k))) ∨
      (∃ q v as bs, m.turn k l atEnd atNode onward = some (atNode q v) ∧ q ∈ ids ∧
        m.cells q = some (k, v) ∧ chain (bucketIdx hash m.bucketSize k) = as ++ q :: bs ∧
        l = endLink (.head (bucketIdx hash m.bucketSize k)) as) ∨
      ∃ q, m.turn k l atEnd atNode onward = some (onward q) ∧ At hash m chain k (.next q) := by
  obtain ⟨as, bs, hsplit, rfl, hkey⟩ := hat
  have hend : IsChain m.links (endLink (.head (bucketIdx hash m.bucketSize k)) as) bs :=
    isChain_append (hsplit ▸ hb.chains _)
  unfold turn
  cases bs with
  | nil =>
    rw [List.append_nil] at hsplit
    refine .inl ⟨by rw [show m.links _ = none from hend], fun p hp hpk => ?_, by rw [hsplit]⟩
    exact hkey p (hsplit ▸ (hb.mem _ p).mpr ⟨hp, k, hpk, rfl⟩) hpk
  | cons q bs =>
    have hq : q ∈ ids := ((hb.mem _ q).mp (by rw [hsplit]; simp)).1
    obtain ⟨k', hk'⟩ := hb.keyed q hq
    obtain ⟨⟨k', v⟩, hcell, rfl⟩ := Option.map_eq_some_iff.mp hk'
    rw [hend.1]
    dsimp only
    rw [hcell, Option.map_some]
    by_cases hkk : k' = k
    · subst hkk
      exact .inr (.inl ⟨q, v, as, bs, by rw [if_pos rfl], hq, hcell, hsplit, rfl⟩)
    · refine .inr (.inr ⟨q, by rw [if_neg hkk], as ++ [q], bs, by simp [hsplit],
        (endLink_append ..).symm, fun a ha => ?_⟩)
      rcases List.mem_append.mp ha with ha | ha
      · exact hkey a ha
      · rw [List.mem_singleton.mp ha, hk']
        simpa using hkk

def Pc.puts : Pc K V → Bool
  | .loading (.put _ _) | .storing (.put _ _) _ => true
  | _ => false

def Pc.erases : Pc K V → Bool
  | .loading (.erase _) | .storing (.erase _) _ => true
  | _ => false

/-- What a turn of the loop does: the operation goes on or ends, and if a node is put in or
taken out, it is still to be counted. -/
structure Walked (hash : K → ℕ) (m : ConcurrentHashMap K V) (ids : Finset ℕ)
    (chain : ℕ → List ℕ) (u : Update K V) (m' : ConcurrentHashMap K V) (pc' : Pc K V)
    (ids' : Finset ℕ) (chain' : ℕ → List ℕ) : Prop where
  shape : Shape hash m' ids' chain'
  frame : Frame m chain m' chain' (bucketIdx hash m.bucketSize u.key)
  size : m'.elementSize = m.elementSize
  card : ids'.card + pc'.erases.toNat = ids.card + pc'.puts.toNat
  goes : pc' = .loading u ∨ pc' = .releasing u ∨
    ∃ l', pc' = .walking u l' ∧ At hash m' chain' u.key l'

theorem Shape.put (hs : Shape hash m ids chain) {k : K} (val : V)
    (hk : ∀ p ∈ ids, m.key p ≠ some k) :
    Walked hash m ids chain (.put k val)
      { m.newNode (endLink (.head (bucketIdx hash m.bucketSize k))
          (chain (bucketIdx hash m.bucketSize k))) k val with elementSize := m.elementSize }
      (.loading (.put k val)) (insert m.nextId ids)
      (Function.update chain (bucketIdx hash m.bucketSize k)
        (chain (bucketIdx hash m.bucketSize k) ++ [m.nextId])) where
  shape := by
    refine ⟨buckets_newNode hs.buckets (hs.fresh _ le_rfl) hk val, fun p hp => ?_⟩
    change m.nextId + 1 ≤ p at hp
    rw [Finset.mem_insert, not_or]
    exact ⟨by omega, hs.fresh p (by omega)⟩
  frame := by
    refine ⟨rfl, fun c hc => Function.update_of_ne hc _ _, fun c _ p hp => ?_⟩
    have hcell := cells_newNode (hs.fresh _ le_rfl)
      (endLink (.head (bucketIdx hash m.bucketSize k)) (chain (bucketIdx hash m.bucketSize k)))
      k val p ((hs.buckets.mem c p).mp hp).1
    exact congrArg (Option.map Prod.fst) hcell
  size := rfl
  card := Finset.card_insert_of_notMem (hs.fresh _ le_rfl)
  goes := Or.inl rfl

theorem Shape.erase (hs : Shape hash m ids chain) {k : K} {p : ℕ} (hk : m.key p = some k)
    {as bs : List ℕ} (hsplit : chain (bucketIdx hash m.bucketSize k) = as ++ p :: bs) :
    Walked hash m ids chain (.erase k)
      (m.unlink (endLink (.head (bucketIdx hash m.bucketSize k)) as) p) (.loading (.erase k))
      (ids.erase p)
      (Function.update chain (bucketIdx hash m.bucketSize k) (as ++ bs)) where
  shape := ⟨buckets_eraseNode hs.buckets hk hsplit, fun q hq hmem =>
    hs.fresh q hq (Finset.mem_of_mem_erase hmem)⟩
  frame := by
    refine ⟨rfl, fun c hc => Function.update_of_ne hc _ _, fun c hc q hq => ?_⟩
    have hqp : q ≠ p := by
      rintro rfl
      refine hs.buckets.disjoint hc q hq ?_
      change q ∈ chain (bucketIdx hash m.bucketSize k)
      simp [hsplit]
    exact congrArg (Option.map Prod.fst) (Function.update_of_ne hqp _ _)
  size := rfl
  card := by
    have hp : p ∈ chain (bucketIdx hash m.bucketSize k) := by simp [hsplit]
    exact Finset.card_erase_add_one ((hs.buckets.mem _ p).mp hp).1
  goes := Or.inl rfl

theorem Shape.stay (hs : Shape hash m ids chain) (u : Update K V) {pc' : Pc K V}
    (hpc : pc' = .releasing u ∨ ∃ l', pc' = .walking u l' ∧ At hash m chain u.key l') :
    Walked hash m ids chain u m pc' ids chain where
  shape := hs
  frame := .refl ..
  size := rfl
  card := by rcases hpc with rfl | ⟨l', rfl, -⟩ <;> rfl
  goes := Or.inr hpc

theorem walk_spec [DecidableEq K] (hs : Shape hash m ids chain) (hat : At hash m chain u.key l) :
    ∃ m' pc' ids' chain', m.walk u l = some (m', pc') ∧
      Walked hash m ids chain u m' pc' ids' chain' := by
  rw [walk]
  rcases turn_cases hs.buckets hat (m.atEnd l u) (fun q _ => m.atNode l q u)
      fun q => (m, .walking u (.next q)) with
    ⟨hturn, hk, rfl⟩ | ⟨q, v, as, bs, hturn, hq, hcell, hsplit, rfl⟩ | ⟨q, hturn, hat⟩
  · rw [hturn]
    cases u with
    | put k val => exact ⟨_, _, _, _, rfl, hs.put val hk⟩
    | erase k => exact ⟨m, _, ids, chain, rfl, hs.stay _ (Or.inl rfl)⟩
  · rw [hturn]
    cases u with
    | put k val => exact ⟨m, _, ids, chain, rfl, hs.stay _ (Or.inl rfl)⟩
    | erase k => exact ⟨_, _, _, _, rfl, hs.erase (Stores.key_eq hcell) hsplit⟩
  · exact ⟨m, _, ids, chain, hturn, hs.stay u (Or.inr ⟨_, rfl, hat⟩)⟩

/-- What a step of the thread `t` from `pc` to `pc'` does.  The counter and what is still to be
counted follow the number of nodes, if a store is of the value the counter has. -/
structure Moved (hash : K → ℕ) (lockSize t : ℕ) (m : ConcurrentHashMap K V)
    (locks : ℕ → Option ℕ) (ids : Finset ℕ) (chain : ℕ → List ℕ) (pc : Pc K V)
    (m' : ConcurrentHashMap K V) (locks' : ℕ → Option ℕ) (ids' : Finset ℕ)
    (chain' : ℕ → List ℕ) (pc' : Pc K V) : Prop where
  shape : Shape hash m' ids' chain'
  bucketSize : m'.bucketSize = m.bucketSize
  others : ∀ k l, (∀ k', pc.held = some k' →
    bucketIdx hash m.bucketSize k ≠ bucketIdx hash m.bucketSize k') →
      At hash m chain k l → At hash m' chain' k l
  walks : ∀ u l, pc' = .walking u l → At hash m' chain' u.key l
  locks : ∀ i t', t' ≠ t → locks i = some t' → locks' i = some t'
  held : ∀ k, pc'.held = some k → locks' (lockIdx hash m.bucketSize lockSize k) = some t
  keeps : (∀ u n, pc ≠ .storing u n) → m'.elementSize = m.elementSize
  loads : ∀ u n, pc' = .storing u n → pc = .loading u ∧ n = m'.elementSize
  lt : m.elementSize < 2 ^ 64 → m'.elementSize < 2 ^ 64
  count : (∀ u n, pc = .storing u n → n = m.elementSize) →
    (m'.elementSize + pc'.puts.toNat + (ids.card + pc.erases.toNat)) % 2 ^ 64 =
      (m.elementSize + pc.puts.toNat + (ids'.card + pc'.erases.toNat)) % 2 ^ 64

variable {lockSize t : ℕ} {locks locks' : ℕ → Option ℕ}

/-- The map is not changed, and nothing is put in, taken out or counted. -/
theorem Moved.same (hs : Shape hash m ids chain) (hputs : pc'.puts = pc.puts)
    (herases : pc'.erases = pc.erases)
    (hwalks : ∀ u l, pc' = .walking u l → At hash m chain u.key l)
    (hlocks : ∀ i t', t' ≠ t → locks i = some t' → locks' i = some t')
    (hheld : ∀ k, pc'.held = some k → locks' (lockIdx hash m.bucketSize lockSize k) = some t)
    (hloads : ∀ u n, pc' = .storing u n → pc = .loading u ∧ n = m.elementSize) :
    Moved hash lockSize t m locks ids chain pc m locks' ids chain pc' where
  shape := hs
  bucketSize := rfl
  others _ _ _ h := h
  walks := hwalks
  locks := hlocks
  held := hheld
  keeps _ := rfl
  loads := hloads
  lt := id
  count _ := by rw [hputs, herases]

theorem Walked.moved (hw : Walked hash m ids chain u m' pc' ids' chain')
    (hheld : locks (lockIdx hash m.bucketSize lockSize u.key) = some t) :
    Moved hash lockSize t m locks ids chain (.walking u l) m' locks ids' chain' pc' where
  shape := hw.shape
  bucketSize := hw.frame.bucketSize
  others _ _ hne hat := hat.frame hw.frame (hne _ rfl)
  walks := by
    rintro u' l' rfl
    rcases hw.goes with h | h | ⟨l₁, h, hat⟩
    · cases h
    · cases h
    · cases h
      exact hat
  locks _ _ _ h := h
  held := by
    intro k hk
    have hpc : pc'.held = some u.key := by
      rcases hw.goes with rfl | rfl | ⟨l₁, rfl, -⟩ <;> rfl
    obtain rfl := Option.some.inj (hpc.symm.trans hk)
    exact hheld
  keeps _ := hw.size
  loads := by
    rintro u' n rfl
    rcases hw.goes with h | h | ⟨l₁, h, -⟩ <;> cases h
  lt h := hw.size ▸ h
  count _ := by
    have hcard := hw.card
    rw [hw.size, show (Pc.walking u l).erases = false from rfl,
      show (Pc.walking u l).puts = false from rfl]
    simp only [Bool.toNat_false]
    omega

theorem Moved.store (hs : Shape hash m ids chain) (n : ℕ)
    (hheld : locks (lockIdx hash m.bucketSize lockSize u.key) = some t) :
    Moved hash lockSize t m locks ids chain (.storing u n) { m with elementSize := u.count n }
      locks ids chain (.releasing u) where
  shape := ⟨hs.buckets, hs.fresh⟩
  bucketSize := rfl
  others _ _ _ h := h
  walks := by rintro u l ⟨⟩
  locks _ _ _ h := h
  held := by
    rintro k ⟨⟩
    exact hheld
  keeps h := absurd rfl (h u n)
  loads := by rintro u n ⟨⟩
  lt _ := by cases u <;> exact Nat.mod_lt _ (by norm_num)
  count h := by
    obtain rfl := h u n rfl
    cases u with
    | put k val =>
      simp only [Update.count, Pc.puts, Pc.erases, Bool.toNat_true, Bool.toNat_false]
      omega
    | erase k =>
      simp only [Update.count, Pc.puts, Pc.erases, Bool.toNat_true, Bool.toNat_false]
      omega

theorem opStep_spec [DecidableEq K] (hs : Shape hash m ids chain)
    (hwalk : ∀ u l, pc = .walking u l → At hash m chain u.key l)
    (hheld : ∀ k, pc.held = some k → locks (lockIdx hash m.bucketSize lockSize k) = some t)
    (he : opStep hash lockSize t m locks pc = some (m', locks', pc')) :
    ∃ ids' chain', Moved hash lockSize t m locks ids chain pc m' locks' ids' chain' pc' := by
  -- the lock of the thread itself, or one that was free, is not another thread's
  have hlocks : ∀ {i : ℕ} {v : Option ℕ}, (∀ t', locks i = some t' → t' = t) →
      ∀ j t', t' ≠ t → locks j = some t' → Function.update locks i v j = some t' := by
    intro i v hi j t' ht' hj
    rw [Function.update_of_ne]
    · exact hj
    · rintro rfl
      exact ht' (hi t' hj)
  cases pc with
  | idle => cases he
  | locking u =>
    obtain ⟨hfree, he⟩ := Option.ite_none_right_eq_some.mp he
    cases he
    refine ⟨ids, chain, .same hs rfl rfl ?_ (hlocks fun t' ht' => ?_) ?_ (by rintro u n ⟨⟩)⟩
    · rintro u l ⟨⟩
      exact at_head hash m chain u.key
    · rw [hfree] at ht'
      cases ht'
    · rintro k ⟨⟩
      exact Function.update_self ..
  | walking u l =>
    obtain ⟨m₁, pc₁, ids', chain', hw, hwd⟩ := walk_spec hs (hwalk u l rfl)
    rw [opStep, hw] at he
    cases he
    exact ⟨ids', chain', hwd.moved (hheld _ rfl)⟩
  | loading u =>
    cases he
    refine ⟨ids, chain, .same hs ?_ ?_ (by rintro u l ⟨⟩) (fun _ _ _ h => h) hheld ?_⟩
    · cases u <;> rfl
    · cases u <;> rfl
    · rintro u n ⟨⟩
      exact ⟨rfl, rfl⟩
  | storing u n =>
    cases he
    exact ⟨ids, chain, .store hs n (hheld _ rfl)⟩
  | releasing u =>
    cases he
    refine ⟨ids, chain, .same hs rfl rfl (by rintro u l ⟨⟩) (hlocks fun t' ht' => ?_)
      (by rintro k ⟨⟩) (by rintro u n ⟨⟩)⟩
    exact Option.some.inj (ht'.symm.trans (hheld _ rfl))

end Spec

section Runs

variable {K V : Type*} {hash : K → ℕ} {s s' : Threads K V} {a : Act K V} {ids : Finset ℕ}
  {chain : ℕ → List ℕ}

structure Threads.Inv (hash : K → ℕ) (s : Threads K V) (ids : Finset ℕ) (chain : ℕ → List ℕ) :
    Prop where
  shape : Shape hash s.map ids chain
  held : ∀ (t : ℕ) (pc : Pc K V) (k : K), s.threads[t]? = some pc → pc.held = some k →
    s.locks (lockIdx hash s.map.bucketSize s.lockSize k) = some t
  walks : ∀ (t : ℕ) (u : Update K V) (l : Link ℕ ℕ), s.threads[t]? = some (.walking u l) →
    At hash s.map chain u.key l

theorem Threads.inv_init (hash : K → ℕ) (bucketHint lockNum threads : ℕ) :
    (init bucketHint lockNum threads : Threads K V).Inv hash ∅ fun _ => [] where
  shape := ⟨Buckets.empty .., fun _ _ => Finset.notMem_empty _⟩
  held t pc k ht hk := by
    obtain rfl := List.eq_of_mem_replicate (mem_of_getElem? ht)
    cases hk
  walks t u l ht := by cases List.eq_of_mem_replicate (mem_of_getElem? ht)

theorem Threads.Inv.moved [DecidableEq K] (hi : s.Inv hash ids chain)
    (hs : s.step hash a = some s') :
    ∃ t pc pc' ids' chain', s.threads[t]? = some pc ∧ s'.threads = s.threads.set t pc' ∧
      s'.lockSize = s.lockSize ∧ (pc ≠ .idle → a = .step t) ∧
      Moved hash s.lockSize t s.map s.locks ids chain pc s'.map s'.locks ids' chain' pc' := by
  cases a with
  | call t u =>
    obtain ⟨pc, ht, hs⟩ := Option.bind_eq_some_iff.mp hs
    cases pc with
    | idle =>
      cases hs
      exact ⟨t, _, .locking u, ids, chain, ht, rfl, rfl, fun h => absurd rfl h,
        .same hi.shape rfl rfl (by rintro u l ⟨⟩) (fun _ _ _ h => h) (by rintro k ⟨⟩)
          (by rintro u n ⟨⟩)⟩
    | _ => cases hs
  | step t =>
    obtain ⟨pc, ht, hs⟩ := Option.bind_eq_some_iff.mp hs
    obtain ⟨⟨m', locks', pc'⟩, hop, hs⟩ := Option.map_eq_some_iff.mp hs
    cases hs
    obtain ⟨ids', chain', hm⟩ := opStep_spec hi.shape (fun u l hpc => hi.walks t u l (hpc ▸ ht))
      (fun k hk => hi.held t pc k ht hk) hop
    exact ⟨t, pc, pc', ids', chain', ht, rfl, rfl, fun _ => rfl, hm⟩

/-- Two threads are never at work under one lock, so a walk is not disturbed by a change to its
bucket. -/
theorem Threads.Inv.move (hi : s.Inv hash ids chain) {t : ℕ} {pc pc' : Pc K V}
    {ids' : Finset ℕ} {chain' : ℕ → List ℕ} (ht : s.threads[t]? = some pc)
    (hthreads : s'.threads = s.threads.set t pc') (hlock : s'.lockSize = s.lockSize)
    (hm : Moved hash s.lockSize t s.map s.locks ids chain pc s'.map s'.locks ids' chain' pc') :
    s'.Inv hash ids' chain' where
  shape := hm.shape
  held t' pc₁ k ht' hk := by
    rw [hthreads] at ht'
    rw [hm.bucketSize, hlock]
    rcases getElem?_set_cases ht ht' with ⟨rfl, rfl⟩ | ⟨hne, ht'⟩
    · exact hm.held k hk
    · exact hm.locks _ t' hne (hi.held t' pc₁ k ht' hk)
  walks t' u l ht' := by
    rw [hthreads] at ht'
    rcases getElem?_set_cases ht ht' with ⟨rfl, hpc⟩ | ⟨hne, ht'⟩
    · exact hm.walks u l hpc.symm
    · refine hm.others u.key l (fun k hk hbucket => hne ?_) (hi.walks t' u l ht')
      have h₁ := hi.held t' _ u.key ht' rfl
      have h₂ := hi.held t pc k ht hk
      rw [lockIdx, hbucket] at h₁
      exact Option.some.inj (h₁.symm.trans h₂)

def Pc.isStoring : Pc K V → Bool
  | .storing _ _ => true
  | _ => false

def Pc.isLoading : Pc K V → Bool
  | .loading _ => true
  | _ => false

/-- The counter is loaded only when no other operation has loaded it and is to store it. -/
def LoadsAlone (s : Threads K V) : Act K V → Prop
  | .call _ _ => True
  | .step t => (s.threads[t]?).any Pc.isLoading = true → ∀ pc ∈ s.threads, pc.isStoring = false

instance (s : Threads K V) (a : Act K V) : Decidable (LoadsAlone s a) := by
  cases a <;> unfold LoadsAlone <;> infer_instance

/-- The counter and the puts to come are the nodes and the erases to come, and an operation
that is to store has loaded what the counter is. -/
structure Threads.Counted (s : Threads K V) (ids : Finset ℕ) : Prop where
  lt : s.map.elementSize < 2 ^ 64
  count : (s.map.elementSize + s.threads.countP Pc.puts) % 2 ^ 64 =
    (ids.card + s.threads.countP Pc.erases) % 2 ^ 64
  loaded : ∀ (t : ℕ) (u : Update K V) (n : ℕ), s.threads[t]? = some (.storing u n) →
    n = s.map.elementSize
  one : ∀ (t t' : ℕ) (u u' : Update K V) (n n' : ℕ), s.threads[t]? = some (.storing u n) →
    s.threads[t']? = some (.storing u' n') → t = t'

theorem Threads.counted_init (bucketHint lockNum threads : ℕ) :
    (init bucketHint lockNum threads : Threads K V).Counted ∅ where
  lt := by norm_num [init, ConcurrentHashMap.init]
  count := by
    simp [init, ConcurrentHashMap.init, List.countP_replicate, Pc.puts, Pc.erases]
  loaded t u n ht := by cases List.eq_of_mem_replicate (mem_of_getElem? ht)
  one t t' u u' n n' ht := by cases List.eq_of_mem_replicate (mem_of_getElem? ht)

theorem Threads.Counted.move (hc : s.Counted ids) {t : ℕ} {pc pc' : Pc K V}
    {ids' : Finset ℕ} {chain' : ℕ → List ℕ} (ht : s.threads[t]? = some pc)
    (halone : pc.isLoading = true → ∀ pc ∈ s.threads, pc.isStoring = false)
    (hthreads : s'.threads = s.threads.set t pc')
    (hm : Moved hash s.lockSize t s.map s.locks ids chain pc s'.map s'.locks ids' chain' pc') :
    s'.Counted ids' := by
  -- a thread that is to store after the step has loaded now, or another has not stored
  have hother : ∀ (t' : ℕ) (u : Update K V) (n : ℕ), t' ≠ t → s.threads[t']? = some (.storing u n) →
      s'.map.elementSize = s.map.elementSize ∧ ∀ u' n', pc' ≠ .storing u' n' := by
    intro t' u n hne ht'
    constructor
    · refine hm.keeps fun u' n' hpc => hne ?_
      exact hc.one t' t u u' n n' ht' (hpc ▸ ht)
    · intro u' n' hpc
      obtain ⟨rfl, -⟩ := hm.loads u' n' hpc
      have := halone rfl _ (mem_of_getElem? ht')
      cases this
  constructor
  case lt => exact hm.lt hc.lt
  case count =>
    have hcount := hm.count fun u n hpc => hc.loaded t u n (hpc ▸ ht)
    have hputs := countP_set_add ht pc' Pc.puts
    have herases := countP_set_add ht pc' Pc.erases
    have hbefore := hc.count
    rw [hthreads]
    omega
  case loaded =>
    intro t' u n ht'
    rw [hthreads] at ht'
    rcases getElem?_set_cases ht ht' with ⟨rfl, hpc⟩ | ⟨hne, ht'⟩
    · exact (hm.loads u n hpc.symm).2
    · rw [(hother t' u n hne ht').1]
      exact hc.loaded t' u n ht'
  case one =>
    intro t₁ t₂ u₁ u₂ n₁ n₂ h₁ h₂
    rw [hthreads] at h₁ h₂
    rcases getElem?_set_cases ht h₁ with ⟨rfl, hpc₁⟩ | ⟨hne₁, h₁'⟩
    · rcases getElem?_set_cases ht h₂ with ⟨rfl, -⟩ | ⟨hne₂, h₂'⟩
      · rfl
      · exact absurd hpc₁.symm ((hother t₂ u₂ n₂ hne₂ h₂').2 u₁ n₁)
    · rcases getElem?_set_cases ht h₂ with ⟨rfl, hpc₂⟩ | ⟨-, h₂'⟩
      · exact absurd hpc₂.symm ((hother t₁ u₁ n₁ hne₁ h₁').2 u₂ n₂)
      · exact hc.one t₁ t₂ u₁ u₂ n₁ n₂ h₁' h₂'

theorem Threads.step_counted [DecidableEq K] (hs : s.step hash a = some s') (ha : LoadsAlone s a)
    (h : ∃ ids chain, s.Inv hash ids chain ∧ s.Counted ids) :
    ∃ ids chain, s'.Inv hash ids chain ∧ s'.Counted ids := by
  obtain ⟨ids, chain, hi, hc⟩ := h
  obtain ⟨t, pc, pc', ids', chain', ht, hthreads, hlock, hact, hm⟩ := hi.moved hs
  refine ⟨ids', chain', hi.move ht hthreads hlock hm, hc.move ht (fun hload => ?_) hthreads hm⟩
  have hne : pc ≠ .idle := by
    rintro rfl
    cases hload
  obtain rfl := hact hne
  refine ha ?_
  rw [ht]
  exact hload

theorem Shape.keys [DecidableEq K] {m : ConcurrentHashMap K V} (hs : Shape hash m ids chain) :
    ∃ keys : Finset K, (∀ k, k ∈ keys ↔ m.HasKey hash k) ∧ keys.card = ids.card := by
  refine ⟨ids.biUnion fun p => (m.key p).toFinset, fun k => ?_, ?_⟩
  · rw [Finset.mem_biUnion]
    constructor
    · rintro ⟨p, hp, hk⟩
      rw [Option.mem_toFinset] at hk
      exact ⟨_, hs.buckets.chains _, p, (hs.buckets.mem _ p).mpr ⟨hp, k, hk, rfl⟩, hk⟩
    · rintro ⟨ps, hps, p, hp, hk⟩
      obtain rfl := hps.unique (hs.buckets.chains _)
      exact ⟨p, ((hs.buckets.mem _ p).mp hp).1, Option.mem_toFinset.mpr hk⟩
  · rw [Finset.card_biUnion, Finset.card_eq_sum_ones]
    · refine Finset.sum_congr rfl fun p hp => ?_
      obtain ⟨k, hk⟩ := hs.buckets.keyed p hp
      rw [hk]
      rfl
    · intro p hp q hq hne
      refine Finset.disjoint_left.mpr fun k hkp hkq => ?_
      rw [Option.mem_toFinset] at hkp hkq
      exact hne (hs.buckets.inj p hp q hq (hkp.trans hkq.symm))

/-- In a run in which the counter is never loaded between a load and the store that belongs to
it, `size()` is the number of keys in the map whenever no operation is at work, modulo what a
`size_t` can count. -/
theorem size_loses_no_update [DecidableEq K] (hash : K → ℕ) (bucketHint lockNum threads : ℕ)
    (as : List (Act K V)) (s : Threads K V)
    (hm : Meets (Threads.step hash) LoadsAlone (Threads.init bucketHint lockNum threads) as)
    (hr : run (Threads.step hash) (Threads.init bucketHint lockNum threads) as = some s)
    (hidle : ∀ pc ∈ s.threads, pc = .idle) :
    ∃ keys : Finset K, (∀ k, k ∈ keys ↔ s.map.HasKey hash k) ∧
      s.map.size = keys.card % 2 ^ 64 := by
  obtain ⟨ids, chain, hi, hc⟩ := run_induction (fun _ _ _ h ha hs => Threads.step_counted hs ha h)
    ⟨∅, _, Threads.inv_init hash bucketHint lockNum threads,
      Threads.counted_init bucketHint lockNum threads⟩ hm hr
  obtain ⟨keys, hkeys, hcard⟩ := hi.shape.keys
  refine ⟨keys, hkeys, ?_⟩
  have hnone : ∀ {at_ : Pc K V → Bool}, at_ .idle = false → s.threads.countP at_ = 0 := by
    intro at_ hat
    refine List.countP_eq_zero.mpr fun pc hpc => ?_
    rw [hidle pc hpc, hat]
    exact Bool.false_ne_true
  have hcount := hc.count
  rw [hnone rfl, hnone rfl, Nat.add_zero, Nat.add_zero, Nat.mod_eq_of_lt hc.lt] at hcount
  rw [size, hcard, hcount]

def besides : List (Act ℕ ℕ) :=
  [.call 0 (.put 1 10), .call 1 (.put 2 20), .step 0, .step 1, .step 0, .step 1,
    .step 0, .step 0, .step 1, .step 1, .step 0, .step 1]

theorem size_loses_no_update_erase :
    ∃ s, run (Threads.step id) (Threads.init 4 5 2)
        (besides ++ .call 1 (.erase 1) :: List.replicate 5 (.step 1)) = some s ∧ s.map.size = 1 ∧
      ∃ keys : Finset ℕ, (∀ k, k ∈ keys ↔ s.map.HasKey id k) ∧
        s.map.size = keys.card % 2 ^ 64 := by
  have hrun : ∃ s, run (Threads.step id) (Threads.init 4 5 2)
      (besides ++ .call 1 (.erase 1) :: List.replicate 5 (.step 1)) = some s ∧
        s.map.size = 1 ∧ ∀ pc ∈ s.threads, pc = .idle := by
    decide +kernel
  obtain ⟨s, hs, hsize, hidle⟩ := hrun
  exact ⟨s, hs, hsize, size_loses_no_update id 4 5 2 _ s (by decide +kernel) hs hidle⟩

def racing : List (Act ℕ ℕ) :=
  [.call 0 (.put 1 10), .call 1 (.put 2 20), .step 0, .step 1, .step 0, .step 1,
    .step 0, .step 1, .step 0, .step 1, .step 0, .step 1]

/-- Two keys are in the map, and `size()` is 1. -/
theorem size_loses_update :
    ∃ s, run (Threads.step id) (Threads.init 4 5 2) racing = some s ∧
      (∀ pc ∈ s.threads, pc = .idle) ∧ s.map.HasKey id 1 ∧ s.map.HasKey id 2 ∧
      s.map.size = 1 := by
  have hrun : ∃ s, run (Threads.step id) (Threads.init 4 5 2) racing = some s ∧
      (∀ pc ∈ s.threads, pc = .idle) ∧ s.map.size = 1 ∧
      (IsChain s.map.links (.head (bucketIdx id s.map.bucketSize 1)) [0] ∧ s.map.key 0 = some 1) ∧
      IsChain s.map.links (.head (bucketIdx id s.map.bucketSize 2)) [1] ∧ s.map.key 1 = some 2 := by
    decide +kernel
  obtain ⟨s, hs, hidle, hsize, ⟨hch₁, hk₁⟩, hch₂, hk₂⟩ := hrun
  exact ⟨s, hs, hidle, ⟨_, hch₁, 0, List.mem_singleton_self 0, hk₁⟩,
    ⟨_, hch₂, 1, List.mem_singleton_self 1, hk₂⟩, hsize⟩

end Runs

end SofaBolt.ConcurrentHashMap
