import SofaBolt.LRUCacheSpec
import Mathlib.Logic.Relation

namespace SofaBolt.LRULocks

open Chain IntrusiveList Run LRUCache

section Waiting

variable {T : Type*} {R R' : T → T → Prop}

theorem acyclic_of_new_edges (h : ∀ x, ¬ Relation.TransGen R x x)
    (hnew : ∀ x y, R' x y → R x y ∨ ∀ z, ¬ R' y z) (x : T) : ¬ Relation.TransGen R' x x := by
  have hold : ∀ {x y z}, Relation.TransGen R' x y → R' y z → Relation.TransGen R x y := by
    intro x y z hxy
    induction hxy generalizing z with
    | single hxy =>
      intro hyz
      exact .single ((hnew _ _ hxy).resolve_right fun hno => hno z hyz)
    | tail hxy hyz ih =>
      intro hzw
      exact (ih hyz).tail ((hnew _ _ hyz).resolve_right fun hno => hno _ hzw)
  intro hcycle
  obtain ⟨y, hxy, -⟩ := Relation.TransGen.head'_iff.mp hcycle
  exact h x (hold hcycle hxy)

end Waiting

/-- Where a put is: `q` is its node and `own` the bucket of its key, `mem` what
`release_nodes` has left to release and `p` the node it has popped, of the bucket `b`. -/
inductive PutPc where
  | idle
  | locking (q own : ℕ)
  | linking (q own : ℕ)
  | testing (q own : ℕ)
  | popping (q own mem : ℕ)
  | popped (q own mem p : ℕ)
  | evicting (q own mem p b : ℕ)
  | erasing (q own mem p b : ℕ)
  | removing (q own mem p : ℕ)
  | adding (q own : ℕ)
  | pushing (q : ℕ)
deriving DecidableEq, Repr

def PutPc.held : PutPc → List ℕ
  | .idle | .locking _ _ | .pushing _ => []
  | .linking _ own | .testing _ own | .popping _ own _ | .popped _ own _ _
  | .evicting _ own _ _ _ | .removing _ own _ _ | .adding _ own => [own]
  | .erasing _ own _ _ b => [b, own]

section Step

variable {K V : Type*} [DecidableEq K] (hash : K → ℕ) (freed : ℕ → ℕ)

/-- One step of the thread `t`.  A thread that spins for a lock that is held has none. -/
def putStep (t : ℕ) (c : LRUCache K V) (locks : ℕ → Option ℕ) :
    PutPc → Option (LRUCache K V × (ℕ → Option ℕ) × PutPc)
  | .idle => none
  | .locking q own =>
    if locks own = none then some (c, Function.update locks own (some t), .linking q own) else none
  -- the pre-process and `intrusive_put_nolock`
  | .linking q own => (c.cells q).bind fun n =>
    if c.memSize < n.usedMem then some (c.delete q, Function.update locks own none, .idle)
    else (c.findEntry hash n.key).bind fun l =>
      match c.buckets l with
      | some _ => some (c.delete q, Function.update locks own none, .idle)
      | none => some (c.linkEntry l q, locks, .testing q own)
  | .testing q own => (c.cells q).map fun n =>
    (c, locks, if c.memSize < wrapAdd n.usedMem c.memSizeUsed then .popping q own n.usedMem
      else .adding q own)
  -- the loop of `release_nodes`
  | .popping q own mem =>
    if mem = 0 then some (c, locks, .adding q own)
    else (c.listOp .popBack).map fun r =>
      match r.2 with
      | .popped (some (.node p)) => (r.1, locks, .popped q own mem p)
      | _ => (r.1, locks, .adding q own)
  | .popped q own mem p => (c.cells p).bind fun n =>
    if own = c.getBucketIdx hash n.key then (c.eraseNolock hash n.key).map fun c =>
      ((c.subMem n.usedMem).delete p, locks, .popping q own (wrapSub mem n.usedMem))
    else some (c, locks, .evicting q own mem p (c.getBucketIdx hash n.key))
  | .evicting q own mem p b =>
    if locks b = none then some (c, Function.update locks b (some t), .erasing q own mem p b)
    else none
  | .erasing q own mem p b => (c.cells p).bind fun n =>
    (c.intrusiveErase hash freed none n.key).map fun c =>
      (c, Function.update locks b none, .removing q own mem p)
  | .removing q own mem p => (c.cells p).bind fun n => (c.listRemove p).map fun r =>
    (r.1.delete p, locks, .popping q own (wrapSub mem n.usedMem))
  | .adding q own => (c.cells q).map fun n =>
    ({ c with memSizeUsed := wrapAdd c.memSizeUsed n.usedMem }, Function.update locks own none,
      .pushing q)
  | .pushing q => (c.pushFront q).map fun c => (c, locks, .idle)

structure State (K V : Type*) where
  cache : LRUCache K V
  locks : ℕ → Option ℕ
  threads : List PutPc

def init (bucketHint maxMemBytes threads : ℕ) : State K V where
  cache := LRUCache.init bucketHint maxMemBytes
  locks _ := none
  threads := List.replicate threads .idle

inductive Act (K V : Type*) where
  | put (t : ℕ) (k : K) (mem : ℕ) (val : V)
  | step (t : ℕ)

def step (s : State K V) : Act K V → Option (State K V)
  | .put t k mem val =>
    if s.threads[t]? = some .idle then
      some ⟨s.cache.newNode ⟨k, val, mem⟩, s.locks,
        s.threads.set t (.locking s.cache.nextId (s.cache.getBucketIdx hash k))⟩
    else none
  | .step t => (s.threads[t]?).bind fun pc =>
    (putStep hash freed t s.cache s.locks pc).map fun r => ⟨r.1, r.2.1, s.threads.set t r.2.2⟩

end Step

section Locks

variable {K V : Type*} {hash : K → ℕ} {freed : ℕ → ℕ} {c c' : LRUCache K V}
  {locks locks' : ℕ → Option ℕ} {t : ℕ} {pc pc' : PutPc} {s s' : State K V} {a : Act K V}

def PutPc.wanted : PutPc → Option ℕ
  | .evicting _ _ _ _ b => some b
  | _ => none

/-- The locks stay as they are, the thread begins to wait for one, takes one that is free, or
gives one back. -/
inductive LockMove (hash : K → ℕ) (t : ℕ) (c : LRUCache K V) (locks : ℕ → Option ℕ) (pc : PutPc) :
    (ℕ → Option ℕ) → PutPc → Prop where
  | keep {r : PutPc} : r.held = pc.held → r.wanted = none → LockMove hash t c locks pc locks r
  | want {q own mem p : ℕ} {n : LRUNode K V} : pc = .popped q own mem p → c.cells p = some n →
    own ≠ c.getBucketIdx hash n.key →
    LockMove hash t c locks pc locks (.evicting q own mem p (c.getBucketIdx hash n.key))
  | take {r : PutPc} {b : ℕ} : locks b = none → r.held = b :: pc.held → r.wanted = none →
    LockMove hash t c locks pc (Function.update locks b (some t)) r
  | give {r : PutPc} {b : ℕ} : pc.held = b :: r.held → r.wanted = none →
    LockMove hash t c locks pc (Function.update locks b none) r

theorem putStep_locks [DecidableEq K] (h : putStep hash freed t c locks pc = some (c', locks', pc')) :
    LockMove hash t c locks pc locks' pc' := by
  cases pc with
  | idle => cases h
  | locking q own =>
    obtain ⟨hfree, h⟩ := Option.ite_none_right_eq_some.mp h
    cases h
    exact .take hfree rfl rfl
  | linking q own =>
    obtain ⟨n, -, h⟩ := Option.bind_eq_some_iff.mp h
    split_ifs at h
    · cases h
      exact .give rfl rfl
    obtain ⟨l, -, h⟩ := Option.bind_eq_some_iff.mp h
    cases hl : c.buckets l with
    | some r =>
      rw [hl] at h
      cases h
      exact .give rfl rfl
    | none =>
      rw [hl] at h
      cases h
      exact .keep rfl rfl
  | testing q own =>
    obtain ⟨n, -, h⟩ := Option.map_eq_some_iff.mp h
    split_ifs at h
    · cases h
      exact .keep rfl rfl
    · cases h
      exact .keep rfl rfl
  | popping q own mem =>
    rw [putStep] at h
    split_ifs at h
    · cases h
      exact .keep rfl rfl
    obtain ⟨r, -, h⟩ := Option.map_eq_some_iff.mp h
    split at h
    · cases h
      exact .keep rfl rfl
    · cases h
      exact .keep rfl rfl
  | popped q own mem p =>
    obtain ⟨n, hn, h⟩ := Option.bind_eq_some_iff.mp h
    split_ifs at h with hb
    · obtain ⟨d, -, h⟩ := Option.map_eq_some_iff.mp h
      cases h
      exact .keep rfl rfl
    · cases h
      exact .want rfl hn hb
  | evicting q own mem p b =>
    obtain ⟨hfree, h⟩ := Option.ite_none_right_eq_some.mp h
    cases h
    exact .take hfree rfl rfl
  | erasing q own mem p b =>
    obtain ⟨n, -, h⟩ := Option.bind_eq_some_iff.mp h
    obtain ⟨d, -, h⟩ := Option.map_eq_some_iff.mp h
    cases h
    exact .give rfl rfl
  | removing q own mem p =>
    obtain ⟨n, -, h⟩ := Option.bind_eq_some_iff.mp h
    obtain ⟨d, -, h⟩ := Option.map_eq_some_iff.mp h
    cases h
    exact .keep rfl rfl
  | adding q own =>
    obtain ⟨n, -, h⟩ := Option.map_eq_some_iff.mp h
    cases h
    exact .give rfl rfl
  | pushing q =>
    obtain ⟨d, -, h⟩ := Option.map_eq_some_iff.mp h
    cases h
    exact .keep rfl rfl

/-- The thread that holds the lock for which `x` waits in `release_nodes`, while `x` holds
that of its own bucket. -/
def State.waitsFor (s : State K V) (x : ℕ) : Option ℕ :=
  match s.threads[x]? with
  | some (.evicting _ own _ _ b) => if s.locks own = some x then s.locks b else none
  | _ => none

def State.Waits (s : State K V) (x y : ℕ) : Prop := s.waitsFor x = some y

/-- No thread begins to wait for a lock whose holder is waiting for another one itself. -/
def Unblocked (hash : K → ℕ) (s : State K V) : Act K V → Prop
  | .put _ _ _ _ => True
  | .step t =>
    match s.threads[t]? with
    | some (.popped _ own _ p) => ∀ n ∈ s.cache.cells p, own ≠ s.cache.getBucketIdx hash n.key →
      ∀ u ∈ s.locks (s.cache.getBucketIdx hash n.key), s.waitsFor u = none
    | _ => True

instance (hash : K → ℕ) (s : State K V) (a : Act K V) : Decidable (Unblocked hash s a) := by
  cases a with
  | put t k mem val => exact isTrue trivial
  | step t =>
    unfold Unblocked
    dsimp only
    split <;> infer_instance

def State.Held (s : State K V) : Prop :=
  ∀ b t, s.locks b = some t → ∃ pc, s.threads[t]? = some pc ∧ b ∈ pc.held

theorem waits_iff {x y : ℕ} : s.Waits x y ↔ ∃ q own mem p b,
    s.threads[x]? = some (.evicting q own mem p b) ∧ s.locks own = some x ∧ s.locks b = some y := by
  rw [State.Waits, State.waitsFor]
  constructor
  · intro h
    split at h
    · rename_i q own mem p b hx
      obtain ⟨hown, h⟩ := Option.ite_none_right_eq_some.mp h
      exact ⟨q, own, mem, p, b, hx, hown, h⟩
    · cases h
  · rintro ⟨q, own, mem, p, b, hx, hown, h⟩
    rw [hx]
    simp only [hown, if_true, h]

theorem not_waits {x : ℕ} (hx : s.threads[x]? = some pc) (h : pc.wanted = none) (y : ℕ) :
    ¬ s.Waits x y := by
  rw [waits_iff]
  rintro ⟨q, own, mem, p, b, hx', -⟩
  obtain rfl := Option.some.inj (hx.symm.trans hx')
  cases h

theorem State.Held.move (h : s.Held) (ht : s.threads[t]? = some pc)
    (hm : LockMove hash t s.cache s.locks pc locks' pc') :
    State.Held ⟨c', locks', s.threads.set t pc'⟩ := by
  have hself : (s.threads.set t pc')[t]? = some pc' := 
    List.getElem?_set_self (List.getElem?_eq_some_iff.mp ht).1
  -- what the thread held it holds, but for a lock it gives back
  have hkeep : ∀ {b u}, s.locks b = some u → (u = t → b ∈ pc'.held) →
      ∃ pc, (s.threads.set t pc')[u]? = some pc ∧ b ∈ pc.held := by
    intro b u hb hmem
    by_cases hut : u = t
    · subst hut
      exact ⟨pc', hself, hmem rfl⟩
    · rw [List.getElem?_set_ne (Ne.symm hut)]
      exact h b u hb
  have hmine : ∀ {b}, s.locks b = some t → b ∈ pc.held := by
    intro b hb
    obtain ⟨pc₀, hpc₀, hmem⟩ := h b t hb
    obtain rfl := Option.some.inj (hpc₀.symm.trans ht)
    exact hmem
  intro b u hb
  replace hb : locks' b = some u := hb
  cases hm with
  | keep hheld _ =>
    refine hkeep hb ?_
    rintro rfl
    exact hheld ▸ hmine hb
  | want hpc _ _ =>
    refine hkeep hb ?_
    rintro rfl
    have := hmine hb
    rw [hpc] at this
    exact this
  | @take r b₀ hfree hheld _ =>
    by_cases hbb : b = b₀
    · subst hbb
      rw [Function.update_self] at hb
      obtain rfl := Option.some.inj hb
      exact ⟨pc', hself, by simp [hheld]⟩
    · rw [Function.update_of_ne hbb] at hb
      refine hkeep hb ?_
      rintro rfl
      rw [hheld]
      exact List.mem_cons_of_mem _ (hmine hb)
  | @give r b₀ hheld _ =>
    by_cases hbb : b = b₀
    · subst hbb
      rw [Function.update_self] at hb
      cases hb
    · rw [Function.update_of_ne hbb] at hb
      refine hkeep hb ?_
      rintro rfl
      have := hmine hb
      rw [hheld, List.mem_cons] at this
      exact this.resolve_left hbb

theorem waits_move (h : s.Held) (ht : s.threads[t]? = some pc)
    (hu : Unblocked hash s (.step t))
    (hm : LockMove hash t s.cache s.locks pc locks' pc') (x y : ℕ)
    (hw : State.Waits ⟨c', locks', s.threads.set t pc'⟩ x y) :
    s.Waits x y ∨ ∀ z, ¬ State.Waits ⟨c', locks', s.threads.set t pc'⟩ y z := by
  obtain ⟨q, own, mem, p, b, hx, hown, hb⟩ := waits_iff.mp hw
  replace hx : (s.threads.set t pc')[x]? = some (.evicting q own mem p b) := hx
  replace hown : locks' own = some x := hown
  replace hb : locks' b = some y := hb
  have hself : (s.threads.set t pc')[t]? = some pc' :=
    List.getElem?_set_self (List.getElem?_eq_some_iff.mp ht).1
  by_cases hxt : x = t
  · -- the thread has begun to wait
    subst hxt
    obtain rfl := Option.some.inj (hself.symm.trans hx)
    cases hm with
    | keep _ hno => cases hno
    | take _ _ hno => cases hno
    | give _ hno => cases hno
    | @want q' own' mem' p' n hpc hn hne =>
      refine Or.inr fun z hz => ?_
      have hyx : x ≠ y := by
        rintro rfl
        obtain ⟨pc₀, hpc₀, hmem⟩ := h _ _ hb
        obtain rfl := Option.some.inj (hpc₀.symm.trans ht)
        rw [hpc] at hmem
        exact hne (List.mem_singleton.mp hmem).symm
      have hfree : s.waitsFor y = none := by
        rw [Unblocked, ht, hpc] at hu
        exact hu n hn hne y hb
      obtain ⟨q₁, own₁, mem₁, p₁, b₁, hy, hown₁, hb₁⟩ := waits_iff.mp hz
      have hz' : s.Waits y z :=
        waits_iff.mpr ⟨q₁, own₁, mem₁, p₁, b₁, by rwa [List.getElem?_set_ne hyx] at hy, hown₁, hb₁⟩
      cases hfree.symm.trans hz'
  · rw [List.getElem?_set_ne (Ne.symm hxt)] at hx
    cases hm with
    | keep => exact Or.inl (waits_iff.mpr ⟨q, own, mem, p, b, hx, hown, hb⟩)
    | want => exact Or.inl (waits_iff.mpr ⟨q, own, mem, p, b, hx, hown, hb⟩)
    | @take r b₀ _ _ hno =>
      by_cases hbb : b = b₀
      · -- somebody waits for the lock that the thread has got
        rw [hbb, Function.update_self] at hb
        obtain rfl := Option.some.inj hb
        exact Or.inr (not_waits hself hno)
      · have hob : own ≠ b₀ := by
          rintro rfl
          rw [Function.update_self] at hown
          exact hxt (Option.some.inj hown).symm
        rw [Function.update_of_ne hbb] at hb
        rw [Function.update_of_ne hob] at hown
        exact Or.inl (waits_iff.mpr ⟨q, own, mem, p, b, hx, hown, hb⟩)
    | @give r b₀ _ _ =>
      have hne : ∀ {b' u}, Function.update s.locks b₀ none b' = some u → s.locks b' = some u := by
        intro b' u hu
        by_cases hbb : b' = b₀
        · rw [hbb, Function.update_self] at hu
          cases hu
        · rwa [Function.update_of_ne hbb] at hu
      exact Or.inl (waits_iff.mpr ⟨q, own, mem, p, b, hx, hne hown, hne hb⟩)

structure Inv (s : State K V) : Prop where
  held : s.Held
  acyclic : ∀ x, ¬ Relation.TransGen s.Waits x x

theorem inv_init (bucketHint maxMemBytes threads : ℕ) :
    Inv (init bucketHint maxMemBytes threads : State K V) := by
  refine ⟨fun b t hb => (by cases hb), fun x hx => ?_⟩
  obtain ⟨y, hxy, -⟩ := Relation.TransGen.head'_iff.mp hx
  obtain ⟨q, own, mem, p, b, -, hown, -⟩ := waits_iff.mp hxy
  cases hown

theorem Inv.step [DecidableEq K] (hi : Inv s) (hu : Unblocked hash s a)
    (hs : step hash freed s a = some s') : Inv s' := by
  cases a with
  | put t k mem val =>
    obtain ⟨ht, hs⟩ := Option.ite_none_right_eq_some.mp hs
    cases hs
    have hm : LockMove hash t s.cache s.locks .idle s.locks
        (.locking s.cache.nextId (s.cache.getBucketIdx hash k)) := .keep rfl rfl
    have hu' : Unblocked hash s (.step t) := by
      rw [Unblocked, ht]
      trivial
    exact ⟨hi.held.move ht hm, acyclic_of_new_edges hi.acyclic (waits_move hi.held ht hu' hm)⟩
  | step t =>
    obtain ⟨pc, ht, hs⟩ := Option.bind_eq_some_iff.mp hs
    obtain ⟨⟨c', locks', pc'⟩, hr, hs⟩ := Option.map_eq_some_iff.mp hs
    cases hs
    have hm := putStep_locks hr
    exact ⟨hi.held.move ht hm, acyclic_of_new_edges hi.acyclic (waits_move hi.held ht hu hm)⟩

/-- In a run in which no thread begins to wait for a lock whose holder is waiting itself,
no threads wait for each other in a circle. -/
theorem put_no_deadlock [DecidableEq K] (hash : K → ℕ) (freed : ℕ → ℕ)
    (bucketHint maxMemBytes threads : ℕ) (as : List (Act K V)) (s : State K V)
    (hm : Meets (step hash freed) (Unblocked hash) (init bucketHint maxMemBytes threads) as)
    (hr : run (step hash freed) (init bucketHint maxMemBytes threads) as = some s) (x : ℕ) :
    ¬ Relation.TransGen s.Waits x x :=
  (run_induction (fun _ _ _ hi hu hs => hi.step hu hs)
    (inv_init bucketHint maxMemBytes threads) hm hr).acyclic x

def alone (t k mem val : ℕ) (steps : ℕ) : List (Act ℕ ℕ) :=
  .put t k mem val :: List.replicate steps (.step t)

def crossing : List (Act ℕ ℕ) :=
  alone 0 0 5 100 5 ++ alone 0 1 5 101 5 ++
    [.put 0 3 5 103, .put 1 2 5 102, .step 0, .step 1, .step 0, .step 1, .step 0, .step 1,
      .step 0, .step 1, .step 0]

theorem put_no_deadlock_waiting :
    ((run (step id fun _ => 0) (init 0 10 2) crossing).map fun s => s.waitsFor 0) =
        some (some 1) ∧
      ∀ s ∈ run (step id fun _ => 0) (init 0 10 2) crossing, ∀ x, ¬ Relation.TransGen s.Waits x x :=
  ⟨by decide +kernel, fun s hs => put_no_deadlock id (fun _ => 0) 0 10 2 crossing s
    (by decide +kernel) hs⟩

/-- The second put goes on and waits for the first one. -/
theorem put_deadlock :
    ∃ s, run (step id fun _ => 0) (init 0 10 2) (crossing ++ [.step 1]) = some s ∧
      Relation.TransGen s.Waits 0 0 := by
  have h : ((run (step id fun _ => 0) (init 0 10 2) (crossing ++ [.step 1])).map fun s =>
      (s.waitsFor 0, s.waitsFor 1)) = some (some 1, some 0) := by
    decide +kernel
  obtain ⟨s, hs, hw⟩ := Option.map_eq_some_iff.mp h
  obtain ⟨h₀, h₁⟩ := Prod.mk.inj hw
  exact ⟨s, hs, .tail (.single h₀) h₁⟩

end Locks

end SofaBolt.LRULocks
