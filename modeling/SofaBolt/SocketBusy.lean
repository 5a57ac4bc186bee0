import SofaBolt.MPSCQueue
import SofaBolt.Socket

namespace SofaBolt

open RingIndex Run

def PushPc.pending {α : Type*} : PushPc α → List α
  | .loadRead val _ | .reserve val _ => [val]
  | _ => []

namespace MPSCQueue

variable {α : Type*} {k p : ℕ} {s s' : MPSCQueue α} {pc pc' : PushPc α}

def taken (s : MPSCQueue α) : List α := s.reserved.take s.readIdx

def waiting (s : MPSCQueue α) : List α := s.reserved.drop s.readIdx

structure Values (s : MPSCQueue α) : Prop where
  loading : ∀ val write, .loadRead val write ∈ s.producers → write ≤ s.writePrepareIdx
  storing : ∀ val write, .store val write ∈ s.producers → s.reserved[write]? = some val
  stored : ∀ i v, s.buffer[i]? = some (some v) →
    ∃ j, s.reserved[j]? = some v ∧ slot s.capacity j = i
  copied : ∀ read v, s.consumer = .storeRead read (some v) → v ∈ s.reserved.take (s.readIdx + 1)
  popped : ∀ v, some v ∈ s.popped → v ∈ s.taken

theorem values_init (capacity n : ℕ) : Values (init capacity n : MPSCQueue α) where
  loading val write h := by simp [init] at h
  storing val write h := by simp [init] at h
  stored i v h := by
    rw [init, List.getElem?_replicate] at h
    split_ifs at h
    cases Option.some.inj h
  copied read v h := by cases h
  popped v h := by cases h

namespace Values

theorem setProducer (hv : Values s)
    (hload : ∀ val write, pc' = .loadRead val write → write ≤ s.writePrepareIdx)
    (hstore : ∀ val write, pc' = .store val write → s.reserved[write]? = some val) :
    Values (s.setProducer p pc') where
  loading val write hmem := by
    rcases List.mem_or_eq_of_mem_set hmem with hmem | heq
    · exact hv.loading val write hmem
    · exact hload val write heq.symm
  storing val write hmem := by
    rcases List.mem_or_eq_of_mem_set hmem with hmem | heq
    · exact hv.storing val write hmem
    · exact hstore val write heq.symm
  stored := hv.stored
  copied := hv.copied
  popped := hv.popped

theorem reserve (hv : Values s) (val : α) :
    Values { s with
      writePrepareIdx := s.writePrepareIdx + 1
      reserved := s.reserved ++ [val] } := by
  have hold : ∀ (i : ℕ) (v : α), s.reserved[i]? = some v → (s.reserved ++ [val])[i]? = some v := by
    intro i v h
    rw [List.getElem?_append_left (List.getElem?_eq_some_iff.mp h).1, h]
  have htake : ∀ n v, v ∈ s.reserved.take n → v ∈ (s.reserved ++ [val]).take n := by
    intro n v h
    rw [List.take_append]
    exact List.mem_append_left _ h
  constructor
  case loading =>
    intro v write hmem
    exact Nat.le_succ_of_le (hv.loading v write hmem)
  case storing =>
    intro v write hmem
    exact hold _ _ (hv.storing v write hmem)
  case stored =>
    intro i v h
    obtain ⟨j, hj, hslot⟩ := hv.stored i v h
    exact ⟨j, hold _ _ hj, hslot⟩
  case copied =>
    intro read v h
    exact htake _ _ (hv.copied read v h)
  case popped =>
    intro v h
    exact htake _ _ (hv.popped v h)

theorem store (hv : Values s) {val : α} {write : ℕ} (hval : s.reserved[write]? = some val) :
    Values { s with buffer := s.buffer.set (slot s.capacity write) (some val) } := by
  refine { hv with stored := ?_ }
  intro i v h
  rw [List.getElem?_set] at h
  split_ifs at h with heq
  · obtain rfl := Option.some.inj (Option.some.inj h)
    exact ⟨write, hval, heq⟩
  · exact hv.stored i v h

theorem pushStep (hv : Values s) (hi : Indices k s) (hp : s.producers[p]? = some pc)
    (h : s.pushStep p pc = some s') : Values s' := by
  cases pc with
  | loadRead val write =>
    obtain rfl := Option.some.inj h
    split_ifs
    · exact hv.setProducer (by simp) (by simp)
    · exact hv.setProducer (by simp) (by simp)
  | reserve val write =>
    simp only [MPSCQueue.pushStep] at h
    split_ifs at h with hw
    · obtain rfl := hw
      rw [next_eq (hi.reserving val _ (mem_of_getElem? hp)).2] at h
      refine Option.some.inj h ▸ (hv.reserve val).setProducer (by simp) ?_
      intro v w heq
      obtain ⟨rfl, rfl⟩ := PushPc.store.inj heq
      simp [hi.reserved_length]
    · refine Option.some.inj h ▸ hv.setProducer ?_ (by simp)
      intro v w heq
      exact (PushPc.loadRead.inj heq).2.ge
  | store val write =>
    have hval := hv.storing val write (mem_of_getElem? hp)
    exact Option.some.inj h ▸ (hv.store hval).setProducer (by simp) (by simp)
  | commit writeCommit =>
    simp only [MPSCQueue.pushStep] at h
    split_ifs at h
    · have hset : Values (s.setProducer p (.returned true)) := hv.setProducer (by simp) (by simp)
      exact Option.some.inj h ▸ { hset with }
    · exact Option.some.inj h ▸ hv.setProducer (by simp) (by simp)
  | idle => cases h
  | returned result => cases h

/-- A slot holds what was reserved for it, or for an earlier one on its place. -/
theorem mem_take (hv : Values s) (hi : Indices k s) {v : α}
    (h : s.buffer[slot s.capacity s.readIdx]? = some (some v)) :
    v ∈ s.reserved.take (s.readIdx + 1) := by
  obtain ⟨j, hj, hslot⟩ := hv.stored _ v h
  have hlt := (List.getElem?_eq_some_iff.mp hj).1
  have hle : j ≤ s.readIdx := by
    by_contra hgt
    rw [hi.capacity] at hslot
    have hlen := hi.reserved_length
    have hprep := hi.prepare_le
    exact slot_ne_of_window s.readIdx (by omega) (by omega) le_rfl
      (Nat.lt_add_of_pos_right (Nat.two_pow_pos k)) (by omega) hslot
  exact mem_of_getElem? ((List.getElem?_take_of_lt (by omega)).trans hj)

theorem popStep (hv : Values s) (hi : Indices k s) (h : s.popStep = some s') : Values s' := by
  have hread := hi.reading
  unfold MPSCQueue.popStep at h
  cases hc : s.consumer with
  | idle => simp [hc] at h
  | returned result => simp [hc] at h
  | loadWrite read =>
    rw [hc] at h
    obtain rfl := Option.some.inj h
    refine { hv with copied := ?_ }
    intro r v heq
    simp only at heq
    split_ifs at heq
  | copy read =>
    rw [hc] at h hread
    obtain rfl := Option.some.inj h
    obtain ⟨rfl, -⟩ := hread
    refine { hv with copied := ?_ }
    intro r v heq
    obtain ⟨-, hval⟩ := PopPc.storeRead.inj heq
    cases hb : s.buffer[slot s.capacity s.readIdx]? with
    | none => simp [hb] at hval
    | some val =>
      rw [hb] at hval
      exact hv.mem_take hi (hb.trans (congrArg some hval))
  | storeRead read val =>
    rw [hc] at h hread
    obtain rfl := Option.some.inj h
    obtain ⟨rfl, hlt⟩ := hread
    rw [hi.readIdx_next hlt]
    refine { hv with copied := by simp, popped := ?_ }
    intro v hmem
    rcases List.mem_append.mp hmem with hold | hnew
    · exact (List.take_prefix_take_left (Nat.le_succ _)).subset (hv.popped v hold)
    · exact hv.copied s.readIdx v (by rw [hc, List.mem_singleton.mp hnew])

theorem step (hv : Values s) (hi : Indices k s) {a : MPSCAct α} (h : s.step a = some s') :
    Values s' := by
  cases a with
  | push p val =>
    simp only [MPSCQueue.step] at h
    have hset : Values (s.setProducer p (.loadRead val s.writePrepareIdx)) := by
      refine hv.setProducer ?_ (by simp)
      intro v w heq
      exact (PushPc.loadRead.inj heq).2.ge
    split at h
    case h_1 => exact Option.some.inj h ▸ hset
    case h_2 => exact Option.some.inj h ▸ hset
    case h_3 => cases h
  | producer p =>
    obtain ⟨pc, hp, hstep⟩ := Option.bind_eq_some_iff.mp h
    exact hv.pushStep hi hp hstep
  | pop =>
    simp only [MPSCQueue.step] at h
    split at h
    case h_1 => exact Option.some.inj h ▸ { hv with copied := by simp }
    case h_2 => exact Option.some.inj h ▸ { hv with copied := by simp }
    case h_3 => cases h
  | consumer => exact hv.popStep hi h

end Values

def occurrences [DecidableEq α] (s : MPSCQueue α) (x : α) : ℕ :=
  s.reserved.count x + (s.producers.flatMap PushPc.pending).count x

theorem occurrences_pushStep [DecidableEq α] (hp : s.producers[p]? = some pc)
    (h : s.pushStep p pc = some s') (x : α) : s'.occurrences x ≤ s.occurrences x := by
  obtain ⟨n, hold, hnew⟩ := exists_count_flatMap hp PushPc.pending x
  unfold occurrences
  cases pc with
  | loadRead val write =>
    obtain rfl := Option.some.inj h
    simp only [MPSCQueue.setProducer, hold, hnew]
    split_ifs <;> simp [PushPc.pending]
  | reserve val write =>
    simp only [MPSCQueue.pushStep] at h
    split_ifs at h
    all_goals
      obtain rfl := Option.some.inj h
      simp [MPSCQueue.setProducer, hold, hnew, PushPc.pending]
    omega
  | store val write =>
    obtain rfl := Option.some.inj h
    simp [MPSCQueue.setProducer, hold, hnew, PushPc.pending]
  | commit writeCommit =>
    simp only [MPSCQueue.pushStep] at h
    split_ifs at h
    all_goals
      obtain rfl := Option.some.inj h
      simp [MPSCQueue.setProducer, hold, hnew, PushPc.pending]
  | idle => cases h
  | returned result => cases h

theorem occurrences_push [DecidableEq α] {val : α} (h : s.step (.push p val) = some s') (x : α) :
    s'.occurrences x = s.occurrences x + [val].count x := by
  have hset : ∀ pc, s.producers[p]? = some pc → pc.pending = [] →
      (s.setProducer p (.loadRead val s.writePrepareIdx)).occurrences x =
        s.occurrences x + [val].count x := by
    intro pc hp hpc
    obtain ⟨n, hold, hnew⟩ := exists_count_flatMap hp PushPc.pending x
    have hnew' := hnew (.loadRead val s.writePrepareIdx)
    rw [hpc, List.count_nil, Nat.add_zero] at hold
    simp only [PushPc.pending] at hnew'
    simp only [occurrences, MPSCQueue.setProducer, hold, hnew']
    omega
  simp only [MPSCQueue.step] at h
  split at h
  case h_1 hp => exact Option.some.inj h ▸ hset _ hp rfl
  case h_2 r hp => exact Option.some.inj h ▸ hset _ hp rfl
  case h_3 => cases h

theorem pushStep_grows (h : s.pushStep p pc = some s') :
    s.reserved <+: s'.reserved ∧ s'.readIdx = s.readIdx := by
  cases pc with
  | reserve val write =>
    simp only [MPSCQueue.pushStep] at h
    split_ifs at h
    · exact Option.some.inj h ▸ ⟨List.prefix_append _ _, rfl⟩
    · exact Option.some.inj h ▸ ⟨List.prefix_rfl, rfl⟩
  | commit writeCommit =>
    simp only [MPSCQueue.pushStep] at h
    split_ifs at h
    all_goals exact Option.some.inj h ▸ ⟨List.prefix_rfl, rfl⟩
  | loadRead val write => exact Option.some.inj h ▸ ⟨List.prefix_rfl, rfl⟩
  | store val write => exact Option.some.inj h ▸ ⟨List.prefix_rfl, rfl⟩
  | idle => cases h
  | returned result => cases h

/-- The consumer touches neither the slots that are reserved nor the producers. -/
theorem popStep_grows (hi : Indices k s) (h : s.popStep = some s') :
    s'.reserved = s.reserved ∧ s'.producers = s.producers ∧ s.readIdx ≤ s'.readIdx := by
  have hread := hi.reading
  unfold MPSCQueue.popStep at h
  cases hc : s.consumer with
  | storeRead read val =>
    rw [hc] at h hread
    obtain ⟨rfl, hlt⟩ := hread
    exact Option.some.inj h ▸ ⟨rfl, rfl, (hi.readIdx_next hlt).symm ▸ Nat.le_succ _⟩
  | loadWrite read =>
    rw [hc] at h
    exact Option.some.inj h ▸ ⟨rfl, rfl, le_rfl⟩
  | copy read =>
    rw [hc] at h
    exact Option.some.inj h ▸ ⟨rfl, rfl, le_rfl⟩
  | idle => simp [hc] at h
  | returned result => simp [hc] at h

theorem step_pop (h : s.step .pop = some s') :
    s'.reserved = s.reserved ∧ s'.producers = s.producers ∧ s'.readIdx = s.readIdx := by
  simp only [MPSCQueue.step] at h
  split at h
  case h_1 => exact Option.some.inj h ▸ ⟨rfl, rfl, rfl⟩
  case h_2 => exact Option.some.inj h ▸ ⟨rfl, rfl, rfl⟩
  case h_3 => cases h

theorem step_push {val : α} (h : s.step (.push p val) = some s') :
    s'.reserved = s.reserved ∧ s'.readIdx = s.readIdx := by
  simp only [MPSCQueue.step] at h
  split at h
  case h_1 => exact Option.some.inj h ▸ ⟨rfl, rfl⟩
  case h_2 => exact Option.some.inj h ▸ ⟨rfl, rfl⟩
  case h_3 => cases h

theorem step_grows (hi : Indices k s) {a : MPSCAct α} (h : s.step a = some s') :
    s.reserved <+: s'.reserved ∧ s.readIdx ≤ s'.readIdx := by
  cases a with
  | push p val =>
    obtain ⟨h₁, h₂⟩ := step_push h
    exact ⟨h₁ ▸ List.prefix_rfl, h₂.ge⟩
  | producer p =>
    obtain ⟨pc, -, hstep⟩ := Option.bind_eq_some_iff.mp h
    obtain ⟨h₁, h₂⟩ := pushStep_grows hstep
    exact ⟨h₁, h₂.ge⟩
  | pop =>
    obtain ⟨h₁, -, h₂⟩ := step_pop h
    exact ⟨h₁ ▸ List.prefix_rfl, h₂.ge⟩
  | consumer =>
    obtain ⟨h₁, -, h₂⟩ := popStep_grows hi h
    exact ⟨h₁ ▸ List.prefix_rfl, h₂⟩

theorem taken_subset (hi : Indices k s) {a : MPSCAct α} (h : s.step a = some s') :
    s.taken ⊆ s'.taken := by
  obtain ⟨hres, hread⟩ := step_grows hi h
  exact ((hres.take _).trans (List.take_prefix_take_left hread)).subset

theorem occurrences_of_eq [DecidableEq α] (hres : s'.reserved = s.reserved)
    (hprod : s'.producers = s.producers) (x : α) : s'.occurrences x = s.occurrences x := by
  unfold occurrences
  rw [hres, hprod]

end MPSCQueue

def maxParallelSessionSizeOnSocket : ℕ := 1024

inductive CollectPc where
  | idle
  | collecting
  | matching
deriving DecidableEq, Repr

/-- `_session_info` with the threads that use it.  Sessions are numbered as they
are made; `replied` are those that a message has been handed to, and `timedOut`
those whose timer has fired. -/
structure SessionQueue where
  sessionInfo : MPSCQueue SessionId
  loop : CollectPc
  created : ℕ
  replied : List SessionId
  timedOut : List SessionId
deriving DecidableEq, Repr

inductive SessionQueueAct where
  /-- Thread `p` makes a session and calls `prepareRead` with it. -/
  | prepareRead (p : ℕ)
  | producer (p : ℕ)
  /-- A complete message has come. -/
  | receive
  | pop
  | consumer
  /-- The loop over `pop` ends: the queue is empty, or the session is newer than
  the message. -/
  | collected
  /-- The session the message is for, if there is one, is looked up and notified. -/
  | notify (found : Option SessionId)
  | timeOut (sid : SessionId)
deriving DecidableEq, Repr

namespace SessionQueue

def init (n : ℕ) : SessionQueue where
  sessionInfo := .init maxParallelSessionSizeOnSocket n
  loop := .idle
  created := 0
  replied := []
  timedOut := []

def queueStep (s : SessionQueue) (a : MPSCAct SessionId) : Option SessionQueue :=
  (s.sessionInfo.step a).map fun q => { s with sessionInfo := q }

/-- Only a session that has been popped is in `_session_map`, and only one that
has been registered has a timer. -/
def step (s : SessionQueue) : SessionQueueAct → Option SessionQueue
  | .prepareRead p => { s with created := s.created + 1 }.queueStep (.push p s.created)
  | .producer p => s.queueStep (.producer p)
  | .receive => if s.loop = .idle then some { s with loop := .collecting } else none
  | .pop => if s.loop = .collecting then s.queueStep .pop else none
  | .consumer => if s.loop = .collecting then s.queueStep .consumer else none
  | .collected =>
    if s.loop = .collecting ∧ (s.sessionInfo.consumer = .returned true ∨
      s.sessionInfo.consumer = .returned false) then some { s with loop := .matching } else none
  | .notify found =>
    if s.loop = .matching ∧ ∀ sid ∈ found, some sid ∈ s.sessionInfo.popped then
      some { s with loop := .idle, replied := s.replied ++ found.toList }
    else none
  | .timeOut sid =>
    if sid ∈ s.sessionInfo.reserved then some { s with timedOut := s.timedOut ++ [sid] } else none

def outstanding (s : SessionQueue) : Finset SessionId :=
  (s.sessionInfo.reserved.filter fun sid => sid ∉ s.replied ∧ sid ∉ s.timedOut).toFinset

structure Inv (s : SessionQueue) : Prop where
  indices : s.sessionInfo.Indices 10
  values : s.sessionInfo.Values
  once : ∀ x : ℕ, s.sessionInfo.occurrences x ≤ if x < s.created then 1 else 0
  replied : s.replied ⊆ s.sessionInfo.taken

theorem inv_init (n : ℕ) : Inv (init n) where
  indices := MPSCQueue.indices_init 10 n
  values := MPSCQueue.values_init _ n
  once x := by
    have hnil : (List.replicate n (.idle : PushPc SessionId)).flatMap PushPc.pending = [] := by
      refine List.flatMap_eq_nil_iff.mpr fun pc hmem => ?_
      rw [List.eq_of_mem_replicate hmem]
      rfl
    simp [init, MPSCQueue.init, MPSCQueue.occurrences, hnil]
  replied := List.nil_subset _

variable {s s' : SessionQueue}

theorem Inv.queueStep (hi : Inv s) {a : MPSCAct SessionId} {created : ℕ}
    (h : { s with created }.queueStep a = some s')
    (honce : ∀ q, s.sessionInfo.step a = some q →
      ∀ x : ℕ, q.occurrences x ≤ if x < created then 1 else 0) : Inv s' := by
  obtain ⟨q, hq, rfl⟩ := Option.map_eq_some_iff.mp h
  exact {
    indices := hi.indices.step hq
    values := hi.values.step hi.indices hq
    once := honce q hq
    replied := List.Subset.trans hi.replied (MPSCQueue.taken_subset hi.indices hq) }

theorem Inv.step (hi : Inv s) {a : SessionQueueAct} (h : s.step a = some s') : Inv s' := by
  cases a with
  | prepareRead p =>
    -- the new session has a number that no session had
    refine hi.queueStep h fun q hq x => ?_
    have hocc := hi.once x
    have hcount : [s.created].count x = if s.created = x then 1 else 0 := by
      simp [List.count_singleton]
    have hpush : q.occurrences x = s.sessionInfo.occurrences x + if s.created = x then 1 else 0 :=
      hcount ▸ MPSCQueue.occurrences_push hq x
    split_ifs at hocc hpush ⊢ <;> omega
  | producer p =>
    refine hi.queueStep h fun q hq x => ?_
    obtain ⟨pc, hp, hstep⟩ := Option.bind_eq_some_iff.mp hq
    exact (MPSCQueue.occurrences_pushStep hp hstep x).trans (hi.once x)
  | pop =>
    simp only [SessionQueue.step] at h
    split_ifs at h
    refine hi.queueStep h fun q hq x => ?_
    obtain ⟨hres, hprod, -⟩ := MPSCQueue.step_pop hq
    exact (MPSCQueue.occurrences_of_eq hres hprod x).le.trans (hi.once x)
  | consumer =>
    simp only [SessionQueue.step] at h
    split_ifs at h
    refine hi.queueStep h fun q hq x => ?_
    obtain ⟨hres, hprod, -⟩ := MPSCQueue.popStep_grows hi.indices hq
    exact (MPSCQueue.occurrences_of_eq hres hprod x).le.trans (hi.once x)
  | receive =>
    simp only [SessionQueue.step] at h
    split_ifs at h
    exact Option.some.inj h ▸ { hi with }
  | collected =>
    simp only [SessionQueue.step] at h
    split_ifs at h
    exact Option.some.inj h ▸ { hi with }
  | notify found =>
    simp only [SessionQueue.step] at h
    split_ifs at h with hfound
    refine Option.some.inj h ▸ { hi with replied := ?_ }
    refine List.append_subset.mpr ⟨hi.replied, fun sid hmem => ?_⟩
    exact hi.values.popped sid (hfound.2 sid (Option.mem_toList.mp hmem))
  | timeOut sid =>
    simp only [SessionQueue.step] at h
    split_ifs at h
    exact Option.some.inj h ▸ { hi with }

theorem Inv.nodup (hi : Inv s) : s.sessionInfo.reserved.Nodup := by
  refine List.nodup_iff_count_le_one.mpr fun x => ?_
  have hocc := hi.once x
  unfold MPSCQueue.occurrences at hocc
  split_ifs at hocc <;> omega

/-- A session that has got a response is not in the queue any more. -/
theorem Inv.notMem_replied (hi : Inv s) {sid : SessionId} (h : sid ∈ s.sessionInfo.waiting) :
    sid ∉ s.replied := by
  intro hrep
  have hnodup := hi.nodup
  rw [← List.take_append_drop s.sessionInfo.readIdx s.sessionInfo.reserved] at hnodup
  exact (List.nodup_append.mp hnodup).2.2 sid (hi.replied hrep) sid h rfl

/-- `push` returns false only when all slots are taken, as long as the sum in its
test does not wrap. -/
theorem Inv.waiting_length (hi : Inv s) {p : ℕ} {q : MPSCQueue SessionId}
    (h : s.sessionInfo.step (.producer p) = some q)
    (href : q.producers[p]? = some (.returned false))
    (hwrap : s.sessionInfo.readIdx + maxParallelSessionSizeOnSocket < 2 ^ 64) :
    maxParallelSessionSizeOnSocket ≤ s.sessionInfo.waiting.length := by
  obtain ⟨pc, hp, hstep⟩ := Option.bind_eq_some_iff.mp h
  have hself : ∀ pc', (s.sessionInfo.producers.set p pc')[p]? = some pc' := fun pc' =>
    List.getElem?_set_self (List.getElem?_eq_some_iff.mp hp).1
  cases pc with
  | loadRead val write =>
    obtain rfl := Option.some.inj hstep
    simp only [MPSCQueue.setProducer, hself] at href
    have hfull : isFull s.sessionInfo.capacity s.sessionInfo.readIdx write = true := by
      by_contra hroom
      rw [if_neg hroom] at href
      cases href
    have hle := hi.values.loading val write (mem_of_getElem? hp)
    have hlen := hi.indices.reserved_length
    simp only [isFull, decide_eq_true_eq, hi.indices.capacity] at hfull
    unfold MPSCQueue.waiting
    unfold maxParallelSessionSizeOnSocket at hwrap ⊢
    rw [List.length_drop]
    omega
  | reserve val write =>
    simp only [MPSCQueue.pushStep] at hstep
    split_ifs at hstep
    all_goals
      obtain rfl := Option.some.inj hstep
      simp [MPSCQueue.setProducer, hself] at href
  | store val write =>
    obtain rfl := Option.some.inj hstep
    simp [MPSCQueue.setProducer, hself] at href
  | commit writeCommit =>
    simp only [MPSCQueue.pushStep] at hstep
    split_ifs at hstep
    all_goals
      obtain rfl := Option.some.inj hstep
      simp [MPSCQueue.setProducer, hself] at href
  | idle => cases hstep
  | returned result => cases hstep

theorem waiting_subset_outstanding (hi : Inv s)
    (htimed : ∀ sid ∈ s.sessionInfo.waiting, sid ∉ s.timedOut) :
    s.sessionInfo.waiting.toFinset ⊆ s.outstanding := by
  intro sid hmem
  have hw := List.mem_toFinset.mp hmem
  refine List.mem_toFinset.mpr (List.mem_filter.mpr ⟨List.mem_of_mem_drop hw, ?_⟩)
  exact decide_eq_true ⟨hi.notMem_replied hw, htimed sid hw⟩

/-- In every run, `prepareRead` refuses a session only if 1024 registered sessions
have neither got a response nor timed out, provided that no session has timed out
while it waits in the queue. -/
theorem prepareRead_refuses_only_busy (n p : ℕ) (as : List SessionQueueAct) (s s' : SessionQueue)
    (h : run step (init n) as = some s) (hstep : s.step (.producer p) = some s')
    (href : s'.sessionInfo.producers[p]? = some (.returned false))
    (hwrap : s.sessionInfo.readIdx + maxParallelSessionSizeOnSocket < 2 ^ 64)
    (htimed : ∀ sid ∈ s.sessionInfo.waiting, sid ∉ s.timedOut) :
    maxParallelSessionSizeOnSocket ≤ s.outstanding.card := by
  have hi : Inv s := run_invariant (fun _ _ _ hi h => hi.step h) (inv_init n) h
  obtain ⟨q, hq, rfl⟩ := Option.map_eq_some_iff.mp hstep
  have hnodup : s.sessionInfo.waiting.Nodup := hi.nodup.sublist (List.drop_sublist _ _)
  calc maxParallelSessionSizeOnSocket
      ≤ s.sessionInfo.waiting.length := hi.waiting_length hq href hwrap
    _ = s.sessionInfo.waiting.toFinset.card := (List.toFinset_card_of_nodup hnodup).symm
    _ ≤ s.outstanding.card := Finset.card_le_card (waiting_subset_outstanding hi htimed)

def registered (m : ℕ) : SessionQueue where
  sessionInfo :=
    { capacity := maxParallelSessionSizeOnSocket
      buffer := (List.range m).map some ++
        List.replicate (maxParallelSessionSizeOnSocket - m) none
      readIdx := 0
      writePrepareIdx := m
      writeIdx := m
      producers := [if m = 0 then .idle else .returned true]
      consumer := .idle
      reserved := List.range m
      popped := [] }
  loop := .idle
  created := m
  replied := []
  timedOut := []

def registers : ℕ → List SessionQueueAct
  | 0 => []
  | m + 1 => registers m ++ [.prepareRead 0, .producer 0, .producer 0, .producer 0, .producer 0]

theorem registered_reserved (m : ℕ) : (registered m).sessionInfo.reserved = List.range m := rfl

theorem run_register {m : ℕ} (hm : m < maxParallelSessionSizeOnSocket) :
    run step (registered m) [.prepareRead 0, .producer 0, .producer 0, .producer 0, .producer 0] =
      some (registered (m + 1)) := by
  have hm' : m < 1024 := hm
  have hidle : (registered m).step (.prepareRead 0) = some
      { registered m with
        created := m + 1
        sessionInfo := (registered m).sessionInfo.setProducer 0 (.loadRead m m) } := by
    unfold step queueStep MPSCQueue.step registered
    by_cases h0 : m = 0 <;> simp [h0]
  have hroom : isFull 1024 0 m = false := by
    simp [isFull]
    omega
  have hnext : next m = m + 1 := next_eq (by omega)
  have hslot : slot 1024 m = m := by
    rw [show 1024 = 2 ^ 10 from rfl, slot_two_pow]
    exact Nat.mod_eq_of_lt hm
  simp only [run, hidle, Option.bind_some]
  simp [step, queueStep, MPSCQueue.step, MPSCQueue.pushStep, MPSCQueue.setProducer, registered,
    maxParallelSessionSizeOnSocket, hroom, hnext, hslot]
  rw [List.range_succ, show 1024 - m = 1023 - m + 1 by omega]
  simp [List.replicate_succ]

theorem run_registers {m : ℕ} (hm : m ≤ maxParallelSessionSizeOnSocket) :
    run step (init 1) (registers m) = some (registered m) := by
  induction m with
  | zero => rfl
  | succ m ih =>
    rw [registers, run_append, ih (Nat.le_of_succ_le hm)]
    exact run_register hm

theorem run_timeOut (sids : List SessionId) (s : SessionQueue)
    (h : sids ⊆ s.sessionInfo.reserved) :
    run step s (sids.map .timeOut) = some { s with timedOut := s.timedOut ++ sids } := by
  induction sids generalizing s with
  | nil => simp [run]
  | cons sid sids ih =>
    obtain ⟨hsid, hsids⟩ := List.cons_subset.mp h
    simp only [List.map_cons, run, step, if_pos hsid, Option.bind_some]
    rw [ih { s with timedOut := s.timedOut ++ [sid] } hsids]
    simp

def refusing (timedOut : List SessionId) : SessionQueue :=
  let s := registered maxParallelSessionSizeOnSocket
  { s with
    sessionInfo := s.sessionInfo.setProducer 0
      (.loadRead maxParallelSessionSizeOnSocket maxParallelSessionSizeOnSocket)
    created := maxParallelSessionSizeOnSocket + 1
    timedOut := timedOut }

theorem run_refusing (sids : List SessionId)
    (h : sids ⊆ List.range maxParallelSessionSizeOnSocket) :
    run step (init 1) (registers maxParallelSessionSizeOnSocket ++
      (sids.map .timeOut ++ [.prepareRead 0])) = some (refusing sids) := by
  rw [run_append, run_registers le_rfl]
  simp only [Option.bind_some]
  rw [run_append, run_timeOut sids _ (by rwa [registered_reserved])]
  rfl

theorem outstanding_refusing (sids : List SessionId) : (refusing sids).outstanding =
    ((List.range maxParallelSessionSizeOnSocket).filter (· ∉ sids)).toFinset := by
  simp [outstanding, refusing, registered, MPSCQueue.setProducer]

theorem prepareRead_refuses_only_busy_silent :
    ∃ s s', run step (init 1) (registers maxParallelSessionSizeOnSocket ++
        [.prepareRead 0]) = some s ∧
      s.step (.producer 0) = some s' ∧
      s'.sessionInfo.producers[0]? = some (.returned false) ∧
      maxParallelSessionSizeOnSocket ≤ s.outstanding.card := by
  have hrun := run_refusing [] (List.nil_subset _)
  refine ⟨refusing [], _, hrun, rfl, rfl, ?_⟩
  exact prepareRead_refuses_only_busy 1 0 _ _ _ hrun rfl rfl (by decide) fun _ _ => List.not_mem_nil

/-- The peer is silent, the 1024 sessions have all timed out, and the next one is
refused. -/
theorem prepareRead_refuses_idle :
    ∃ s s', run step (init 1) (registers maxParallelSessionSizeOnSocket ++
        ((List.range maxParallelSessionSizeOnSocket).map .timeOut ++ [.prepareRead 0])) = some s ∧
      s.step (.producer 0) = some s' ∧
      s'.sessionInfo.producers[0]? = some (.returned false) ∧ s.outstanding = ∅ := by
  have hrun := run_refusing _ (List.Subset.refl _)
  refine ⟨_, _, hrun, rfl, rfl, ?_⟩
  rw [outstanding_refusing, List.toFinset_eq_empty_iff, List.filter_eq_nil_iff]
  intro sid hmem
  simp only [hmem, not_true_eq_false, decide_false]
  exact Bool.false_ne_true

end SessionQueue

end SofaBolt
