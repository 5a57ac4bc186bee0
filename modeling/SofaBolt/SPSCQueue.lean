import SofaBolt.RingIndex
import SofaBolt.Run

/- The buffer is raw memory: `push` constructs an element in its slot, `pop` moves the element
out and destroys it. Every load, every store and everything done to a slot is a step of its
own. -/

namespace SofaBolt

open RingIndex Run

namespace SPSC

inductive Cell (α : Type*) where
  | raw
  | live (val : α)
  | moved
deriving DecidableEq, Repr

inductive Event (α : Type*) where
  | construct (val : α)
  | move
  | destroy
deriving DecidableEq, Repr

inductive PushPc (α : Type*) where
  | idle
  | loadWrite (val : α)
  | loadRead (val : α) (write : ℕ)
  | construct (val : α) (write : ℕ)
  | publish (val : α) (write : ℕ)
  | returned (result : Bool)
deriving DecidableEq, Repr

inductive PopPc (α : Type*) where
  | idle
  | loadRead
  | loadWrite (read : ℕ)
  | move (read : ℕ)
  | destroy (read : ℕ) (val : Option α)
  | storeRead (read : ℕ) (val : Option α)
  | returned (result : Option (Option α))
deriving DecidableEq, Repr

variable {α : Type*}

def Cell.value : Cell α → Option α
  | .live val => some val
  | .raw | .moved => none

def PushPc.isIdle : PushPc α → Bool
  | .idle | .returned _ => true
  | _ => false

def PopPc.isIdle : PopPc α → Bool
  | .idle | .returned _ => true
  | _ => false

/-- What has been done to a slot, and what it holds then: it is constructed, moved from
and destroyed in turn. -/
inductive Lifetime : List (Event α) → Cell α → Prop where
  | nil : Lifetime [] .raw
  | construct {l : List (Event α)} (val : α) (h : Lifetime l .raw) :
      Lifetime (l ++ [.construct val]) (.live val)
  | move {l : List (Event α)} {val : α} (h : Lifetime l (.live val)) :
      Lifetime (l ++ [.move]) .moved
  | destroy {l : List (Event α)} (h : Lifetime l .moved) : Lifetime (l ++ [.destroy]) .raw

end SPSC

open SPSC

/-- The queue and its two threads.  `pushed` has the values of the pushes that have
advanced `_write_idx`, `popped` those of the pops that have advanced `_read_idx`, and
`log` what has been done to which slot. -/
structure SPSCQueue (α : Type*) where
  capacity : ℕ
  buffer : List (Cell α)
  readIdx : ℕ
  writeIdx : ℕ
  producer : SPSC.PushPc α
  consumer : SPSC.PopPc α
  pushed : List α
  popped : List (Option α)
  log : List (ℕ × Event α)
deriving DecidableEq, Repr

inductive SPSCAct (α : Type*) where
  | push (val : α)
  | producer
  | pop
  | consumer
deriving DecidableEq, Repr

namespace SPSCQueue

variable {α : Type*}

def init (capacity : ℕ) : SPSCQueue α where
  capacity := capacity
  buffer := List.replicate capacity .raw
  readIdx := 0
  writeIdx := 0
  producer := .idle
  consumer := .idle
  pushed := []
  popped := []
  log := []

def cell (q : SPSCQueue α) (idx : ℕ) : Cell α := q.buffer[slot q.capacity idx]?.getD .raw

def touch (q : SPSCQueue α) (idx : ℕ) (c : Cell α) (e : Event α) : SPSCQueue α :=
  { q with
    buffer := q.buffer.set (slot q.capacity idx) c
    log := q.log ++ [(slot q.capacity idx, e)] }

def pushStep (q : SPSCQueue α) : Option (SPSCQueue α) :=
  match q.producer with
  | .loadWrite val => some { q with producer := .loadRead val q.writeIdx }
  | .loadRead val write =>
    if isFull q.capacity q.readIdx write then some { q with producer := .returned false }
    else some { q with producer := .construct val write }
  | .construct val write =>
    some ({ q with producer := .publish val write }.touch write (.live val) (.construct val))
  | .publish val write =>
    some { q with
      writeIdx := next write
      pushed := q.pushed ++ [val]
      producer := .returned true }
  | .idle | .returned _ => none

def popStep (q : SPSCQueue α) : Option (SPSCQueue α) :=
  match q.consumer with
  | .loadRead => some { q with consumer := .loadWrite q.readIdx }
  | .loadWrite read =>
    if read = q.writeIdx then some { q with consumer := .returned none }
    else some { q with consumer := .move read }
  | .move read =>
    some ({ q with consumer := .destroy read (q.cell read).value }.touch read .moved .move)
  | .destroy read val =>
    some ({ q with consumer := .storeRead read val }.touch read .raw .destroy)
  | .storeRead read val =>
    some { q with
      readIdx := next read
      popped := q.popped ++ [val]
      consumer := .returned (some val) }
  | .idle | .returned _ => none

def step (q : SPSCQueue α) : SPSCAct α → Option (SPSCQueue α)
  | .push val => if q.producer.isIdle then some { q with producer := .loadWrite val } else none
  | .producer => q.pushStep
  | .pop => if q.consumer.isIdle then some { q with consumer := .loadRead } else none
  | .consumer => q.popStep

def destroyLoop (write : ℕ) : ℕ → ℕ → SPSCQueue α → Option (SPSCQueue α)
  | 0, read, q => if read = write then some q else none
  | fuel + 1, read, q =>
    if read = write then some q
    else destroyLoop write fuel (next read) (q.touch read .raw .destroy)

def destruct (q : SPSCQueue α) : Option (SPSCQueue α) :=
  destroyLoop q.writeIdx q.capacity q.readIdx q

def slotLog (q : SPSCQueue α) (i : ℕ) : List (Event α) :=
  (q.log.filter fun e => e.1 = i).map Prod.snd

def consumerCell (val : α) : SPSC.PopPc α → Cell α
  | .destroy _ _ => .moved
  | .storeRead _ _ => .raw
  | _ => .live val

def producerCell : SPSC.PushPc α → Cell α
  | .publish val _ => .live val
  | _ => .raw

def holds (q : SPSCQueue α) (i : ℕ) : Cell α :=
  match q.pushed[i]? with
  | some val => if i = q.readIdx then consumerCell val q.consumer else .live val
  | none => if i = q.writeIdx then producerCell q.producer else .raw

def ProducerOk (q : SPSCQueue α) : SPSC.PushPc α → Prop
  | .loadRead _ write => write = q.writeIdx
  | .construct _ write | .publish _ write =>
    write = q.writeIdx ∧ write < q.readIdx + q.capacity ∧ write + 1 < 2 ^ 64
  | .idle | .loadWrite _ | .returned _ => True

def ConsumerOk (q : SPSCQueue α) : SPSC.PopPc α → Prop
  | .loadWrite read => read = q.readIdx
  | .move read => read = q.readIdx ∧ read < q.writeIdx
  | .destroy read val | .storeRead read val =>
    read = q.readIdx ∧ read < q.writeIdx ∧ val = q.pushed[read]?
  | .returned (some val) => q.popped.getLast? = some val
  | .idle | .loadRead | .returned none => True

theorem producerCell_of_idle {pc : SPSC.PushPc α} (h : pc.isIdle = true) :
    producerCell pc = .raw := by
  cases pc with
  | publish val write => cases h
  | _ => rfl

theorem consumerCell_of_idle {pc : SPSC.PopPc α} (h : pc.isIdle = true) (val : α) :
    consumerCell val pc = .live val := by
  cases pc with
  | destroy read val => cases h
  | storeRead read val => cases h
  | _ => rfl

structure Inv (k : ℕ) (q : SPSCQueue α) : Prop where
  capacity : q.capacity = 2 ^ k
  buffer_length : q.buffer.length = 2 ^ k
  pushed_length : q.pushed.length = q.writeIdx
  write_lt : q.writeIdx < 2 ^ 64
  read_le : q.readIdx ≤ q.writeIdx
  write_le : q.writeIdx ≤ q.readIdx + 2 ^ k
  cells : ∀ i, q.readIdx ≤ i → i < q.readIdx + 2 ^ k →
    q.buffer[slot q.capacity i]? = some (q.holds i)
  popped : q.popped = (q.pushed.take q.readIdx).map some
  lives : ∀ i c, q.buffer[i]? = some c → Lifetime (q.slotLog i) c
  producer : q.ProducerOk q.producer
  consumer : q.ConsumerOk q.consumer

variable {k : ℕ} {q q' : SPSCQueue α}

theorem inv_init (k : ℕ) : Inv k (init (2 ^ k) : SPSCQueue α) where
  capacity := rfl
  buffer_length := List.length_replicate
  pushed_length := rfl
  write_lt := Nat.two_pow_pos 64
  read_le := le_rfl
  write_le := Nat.zero_le _
  cells i _ _ := by
    have hholds : (init (2 ^ k) : SPSCQueue α).holds i = .raw := by
      unfold holds
      exact ite_self _
    rw [hholds]
    simp [init, slot_lt]
  popped := rfl
  lives i c hc := by
    have hraw := List.eq_of_mem_replicate (mem_of_getElem? hc)
    rw [hraw]
    exact .nil
  producer := trivial
  consumer := trivial

theorem getElem?_pushed (hq : Inv k q) {i : ℕ} : q.pushed[i]? = none ↔ q.writeIdx ≤ i := by
  rw [List.getElem?_eq_none_iff, hq.pushed_length]

theorem Inv.exists_pushed (hq : Inv k q) {i : ℕ} (hi : i < q.writeIdx) :
    ∃ val, q.pushed[i]? = some val :=
  Option.ne_none_iff_exists'.mp fun h => absurd ((getElem?_pushed hq).mp h) (not_le.mpr hi)

theorem Inv.setProducer {pc : SPSC.PushPc α} (hq : Inv k q)
    (hcell : producerCell pc = producerCell q.producer) (hok : q.ProducerOk pc) :
    Inv k { q with producer := pc } :=
  { hq with
    cells := fun i hi hi' => by
      have hholds : ({ q with producer := pc } : SPSCQueue α).holds i = q.holds i := by
        simp only [holds, hcell]
      rw [hholds]
      exact hq.cells i hi hi'
    producer := hok }

theorem Inv.setConsumer {pc : SPSC.PopPc α} (hq : Inv k q)
    (hcell : ∀ val, consumerCell val pc = consumerCell val q.consumer) (hok : q.ConsumerOk pc) :
    Inv k { q with consumer := pc } :=
  { hq with
    cells := fun i hi hi' => by
      have hholds : ({ q with consumer := pc } : SPSCQueue α).holds i = q.holds i := by
        simp only [holds, hcell]
      rw [hholds]
      exact hq.cells i hi hi'
    consumer := hok }

theorem Inv.getElem?_touch (hq : Inv k q) {idx i : ℕ} (c : Cell α) (e : Event α)
    (hidx : q.readIdx ≤ idx) (hidx' : idx < q.readIdx + 2 ^ k) (hi : q.readIdx ≤ i)
    (hi' : i < q.readIdx + 2 ^ k) :
    (q.touch idx c e).buffer[slot q.capacity i]? = some (if i = idx then c else q.holds i) := by
  have hlt : slot q.capacity idx < q.buffer.length := by
    rw [hq.capacity, hq.buffer_length]
    exact slot_lt k idx
  by_cases heq : i = idx
  · subst heq
    rw [if_pos rfl]
    exact List.getElem?_set_self hlt
  · have hne : slot q.capacity idx ≠ slot q.capacity i := by
      rw [hq.capacity]
      exact slot_ne_of_window q.readIdx hidx hidx' hi hi' (Ne.symm heq)
    rw [if_neg heq, ← hq.cells i hi hi']
    exact List.getElem?_set_ne hne

theorem slotLog_touch (q : SPSCQueue α) (idx : ℕ) (c : Cell α) (e : Event α) (i : ℕ) :
    (q.touch idx c e).slotLog i =
      q.slotLog i ++ if slot q.capacity idx = i then [e] else [] := by
  unfold slotLog touch
  rw [List.filter_append, List.map_append]
  split_ifs with h <;> simp [h]

theorem Inv.lives_touch (hq : Inv k q) {idx : ℕ} {c : Cell α} {e : Event α}
    (hidx : q.readIdx ≤ idx) (hidx' : idx < q.readIdx + 2 ^ k)
    (hext : ∀ l, Lifetime l (q.holds idx) → Lifetime (l ++ [e]) c) (i : ℕ) (c' : Cell α)
    (hc' : (q.touch idx c e).buffer[i]? = some c') :
    Lifetime ((q.touch idx c e).slotLog i) c' := by
  rw [slotLog_touch]
  by_cases heq : slot q.capacity idx = i
  · have hself := hq.getElem?_touch c e hidx hidx' hidx hidx'
    rw [heq, hc', if_pos rfl] at hself
    rw [if_pos heq, Option.some.inj hself]
    exact hext _ (hq.lives i _ (heq ▸ hq.cells idx hidx hidx'))
  · rw [if_neg heq, List.append_nil]
    refine hq.lives i c' ?_
    rw [← hc']
    exact (List.getElem?_set_ne heq).symm

theorem Inv.touch (hq : Inv k q) {idx : ℕ} {c : Cell α} {e : Event α} {pc : SPSC.PushPc α}
    {pc' : SPSC.PopPc α} (hidx : q.readIdx ≤ idx) (hidx' : idx < q.readIdx + 2 ^ k)
    (hext : ∀ l, Lifetime l (q.holds idx) → Lifetime (l ++ [e]) c)
    (hholds : ∀ i, ({ q with producer := pc, consumer := pc' } : SPSCQueue α).holds i =
      if i = idx then c else q.holds i)
    (hp : q.ProducerOk pc) (hc : q.ConsumerOk pc') :
    Inv k ({ q with producer := pc, consumer := pc' }.touch idx c e) :=
  { hq with
    buffer_length := List.length_set.trans hq.buffer_length
    cells := fun i hi hi' =>
      (hq.getElem?_touch c e hidx hidx' hi hi').trans (congrArg some (hholds i).symm)
    lives := hq.lives_touch hidx hidx' hext
    producer := hp
    consumer := hc }

/-- The producer finds raw memory and constructs its element there. -/
theorem Inv.construct {val : α} {write : ℕ} (hq : Inv k q)
    (hpc : q.producer = .construct val write) :
    Inv k ({ q with producer := .publish val write }.touch write (.live val)
      (.construct val)) := by
  obtain ⟨rfl, hlt, hmax⟩ : write = q.writeIdx ∧ write < q.readIdx + q.capacity ∧
      write + 1 < 2 ^ 64 := by
    have hok := hq.producer
    rwa [hpc] at hok
  have hnone : q.pushed[q.writeIdx]? = none := (getElem?_pushed hq).mpr le_rfl
  have hraw : q.holds q.writeIdx = .raw := by
    simp [holds, hnone, hpc, producerCell]
  refine hq.touch hq.read_le (hq.capacity ▸ hlt) (fun l h => ?_) (fun i => ?_) ⟨rfl, hlt, hmax⟩
    hq.consumer
  · rw [hraw] at h
    exact .construct val h
  · by_cases hi : i = q.writeIdx
    · subst hi
      simp [holds, hnone, producerCell]
    · simp [holds, hi]

theorem Inv.consumerCell_eq (hq : Inv k q) (hempty : q.writeIdx = q.readIdx) (val : α) :
    consumerCell val q.consumer = .live val := by
  have hok := hq.consumer
  cases hpc : q.consumer with
  | destroy read val' =>
    rw [hpc] at hok
    have := hok.1
    have := hok.2.1
    omega
  | storeRead read val' =>
    rw [hpc] at hok
    have := hok.1
    have := hok.2.1
    omega
  | _ => rfl

theorem Inv.consumerOk_push (hq : Inv k q) (val : α) (pc : SPSC.PushPc α) :
    ({ q with
      writeIdx := q.writeIdx + 1
      pushed := q.pushed ++ [val]
      producer := pc } : SPSCQueue α).ConsumerOk q.consumer := by
  have hok := hq.consumer
  have hlen := hq.pushed_length
  have hget : ∀ read, read < q.writeIdx → (q.pushed ++ [val])[read]? = q.pushed[read]? :=
    fun read h => List.getElem?_append_left (hlen ▸ h)
  cases hpc : q.consumer with
  | idle => trivial
  | loadRead => trivial
  | loadWrite read =>
    rw [hpc] at hok
    exact hok
  | move read =>
    rw [hpc] at hok
    exact ⟨hok.1, Nat.lt_succ_of_lt hok.2⟩
  | destroy read val' =>
    rw [hpc] at hok
    exact ⟨hok.1, Nat.lt_succ_of_lt hok.2.1, hok.2.2.trans (hget read hok.2.1).symm⟩
  | storeRead read val' =>
    rw [hpc] at hok
    exact ⟨hok.1, Nat.lt_succ_of_lt hok.2.1, hok.2.2.trans (hget read hok.2.1).symm⟩
  | returned result =>
    rw [hpc] at hok
    cases result <;> exact hok

theorem Inv.publish {val : α} {write : ℕ} (hq : Inv k q)
    (hpc : q.producer = .publish val write) :
    Inv k { q with
      writeIdx := next write
      pushed := q.pushed ++ [val]
      producer := .returned true } := by
  obtain ⟨rfl, hlt, hmax⟩ : write = q.writeIdx ∧ write < q.readIdx + q.capacity ∧
      write + 1 < 2 ^ 64 := by
    have hok := hq.producer
    rwa [hpc] at hok
  have hcap := hq.capacity
  have hread := hq.read_le
  have hlen := hq.pushed_length
  rw [next_eq hmax]
  refine { hq with
    pushed_length := by simp [hlen]
    write_lt := hmax
    read_le := hread.trans (Nat.le_succ _)
    write_le := hcap ▸ hlt
    cells := fun i hi hi' => (hq.cells i hi hi').trans (congrArg some ?_)
    popped := ?_
    producer := trivial
    consumer := hq.consumerOk_push val _ }
  · rcases lt_trichotomy i q.writeIdx with hlt | rfl | hgt
    · have hget : (q.pushed ++ [val])[i]? = q.pushed[i]? := List.getElem?_append_left (hlen ▸ hlt)
      obtain ⟨v, hv⟩ := hq.exists_pushed hlt
      simp [holds, hget, hv]
    · have hget : (q.pushed ++ [val])[q.writeIdx]? = some val := by simp [← hlen]
      have hnone : q.pushed[q.writeIdx]? = none := (getElem?_pushed hq).mpr le_rfl
      by_cases hempty : q.writeIdx = q.readIdx
      · simp [holds, hget, hnone, hpc, producerCell, hq.consumerCell_eq hempty]
      · simp [holds, hget, hnone, hpc, producerCell, hempty]
    · have hnone : q.pushed[i]? = none := (getElem?_pushed hq).mpr hgt.le
      have hnone' : (q.pushed ++ [val])[i]? = none := by
        rw [List.getElem?_eq_none_iff, List.length_append, List.length_singleton, hlen]
        exact hgt
      simp [holds, hnone, hnone', producerCell, hgt.ne']
  · refine hq.popped.trans ?_
    rw [List.take_append_of_le_length (hlen ▸ hread)]

/-- The consumer finds the element that is next and moves it out. -/
theorem Inv.move {read : ℕ} (hq : Inv k q) (hpc : q.consumer = .move read) :
    Inv k ({ q with consumer := .destroy read (q.cell read).value }.touch read .moved .move) := by
  obtain ⟨rfl, hlt⟩ : read = q.readIdx ∧ read < q.writeIdx := by
    have hok := hq.consumer
    rwa [hpc] at hok
  have hroom : q.readIdx < q.readIdx + 2 ^ k := Nat.lt_add_of_pos_right (Nat.two_pow_pos k)
  obtain ⟨val, hval⟩ := hq.exists_pushed hlt
  have hlive : q.holds q.readIdx = .live val := by
    simp [holds, hval, hpc, consumerCell]
  have hcell : (q.cell q.readIdx).value = some val := by
    rw [cell, hq.cells q.readIdx le_rfl hroom, hlive]
    rfl
  rw [hcell]
  refine hq.touch le_rfl hroom (fun l h => ?_) (fun i => ?_) hq.producer ⟨rfl, hlt, hval.symm⟩
  · rw [hlive] at h
    exact .move h
  · by_cases hi : i = q.readIdx
    · subst hi
      simp [holds, hval, consumerCell]
    · simp [holds, hi]

theorem Inv.destroy {read : ℕ} {val : Option α} (hq : Inv k q)
    (hpc : q.consumer = .destroy read val) :
    Inv k ({ q with consumer := .storeRead read val }.touch read .raw .destroy) := by
  obtain ⟨rfl, hlt, rfl⟩ : read = q.readIdx ∧ read < q.writeIdx ∧ val = q.pushed[read]? := by
    have hok := hq.consumer
    rwa [hpc] at hok
  have hroom : q.readIdx < q.readIdx + 2 ^ k := Nat.lt_add_of_pos_right (Nat.two_pow_pos k)
  obtain ⟨val, hval⟩ := hq.exists_pushed hlt
  have hmoved : q.holds q.readIdx = .moved := by
    simp [holds, hval, hpc, consumerCell]
  refine hq.touch le_rfl hroom (fun l h => ?_) (fun i => ?_) hq.producer ⟨rfl, hlt, rfl⟩
  · rw [hmoved] at h
    exact .destroy h
  · by_cases hi : i = q.readIdx
    · subst hi
      simp [holds, hval, consumerCell]
    · simp [holds, hi]

/-- The slot at `_write_idx` of a full queue is not the producer's. -/
theorem Inv.producerCell_eq (hq : Inv k q) (hfull : q.writeIdx = q.readIdx + 2 ^ k) :
    producerCell q.producer = .raw := by
  have hok := hq.producer
  have hcap := hq.capacity
  cases hpc : q.producer with
  | publish val write =>
    rw [hpc] at hok
    have := hok.1
    have := hok.2.1
    omega
  | _ => rfl

theorem Inv.producerOk_pop (hq : Inv k q) (popped : List (Option α)) (pc : SPSC.PopPc α) :
    ({ q with readIdx := q.readIdx + 1, popped := popped, consumer := pc } :
      SPSCQueue α).ProducerOk q.producer := by
  have hok := hq.producer
  have hroom : ∀ write, write < q.readIdx + q.capacity → write < q.readIdx + 1 + q.capacity :=
    fun write h => by omega
  cases hpc : q.producer with
  | loadRead val write =>
    rw [hpc] at hok
    exact hok
  | construct val write =>
    rw [hpc] at hok
    exact ⟨hok.1, hroom write hok.2.1, hok.2.2⟩
  | publish val write =>
    rw [hpc] at hok
    exact ⟨hok.1, hroom write hok.2.1, hok.2.2⟩
  | _ => trivial

theorem Inv.storeRead {read : ℕ} {val : Option α} (hq : Inv k q)
    (hpc : q.consumer = .storeRead read val) :
    Inv k { q with
      readIdx := next read
      popped := q.popped ++ [val]
      consumer := .returned (some val) } := by
  obtain ⟨rfl, hlt, rfl⟩ : read = q.readIdx ∧ read < q.writeIdx ∧ val = q.pushed[read]? := by
    have hok := hq.consumer
    rwa [hpc] at hok
  have hwrite := hq.write_lt
  have hwindow := hq.write_le
  have hwindow' : q.writeIdx ≤ q.readIdx + 1 + 2 ^ k := by omega
  have hroom : q.readIdx < q.readIdx + 2 ^ k := Nat.lt_add_of_pos_right (Nat.two_pow_pos k)
  obtain ⟨val, hval⟩ := hq.exists_pushed hlt
  rw [next_eq (by omega), hval]
  refine { hq with
    read_le := hlt
    write_le := hwindow'
    cells := fun i hi hi' => ?_
    popped := ?_
    producer := hq.producerOk_pop _ _
    consumer := List.getLast?_concat }
  · replace hi : q.readIdx + 1 ≤ i := hi
    replace hi' : i < q.readIdx + 1 + 2 ^ k := hi'
    -- The last slot of the window is the one that is handed back.
    by_cases hlast : i = q.readIdx + 2 ^ k
    · subst hlast
      have hslot : slot q.capacity (q.readIdx + 2 ^ k) = slot q.capacity q.readIdx := by
        rw [hq.capacity]
        exact slot_add_capacity k q.readIdx
      have hraw : q.holds q.readIdx = .raw := by
        simp [holds, hval, hpc, consumerCell]
      have hnone : q.pushed[q.readIdx + 2 ^ k]? = none := (getElem?_pushed hq).mpr hwindow
      rw [hslot]
      refine (hq.cells q.readIdx le_rfl hroom).trans (congrArg some ?_)
      rw [hraw]
      simp only [holds, hnone]
      split_ifs with hfull
      · exact (hq.producerCell_eq hfull.symm).symm
      · rfl
    · refine (hq.cells i (by omega) (by omega)).trans (congrArg some ?_)
      have hne : i ≠ q.readIdx := by omega
      cases hget : q.pushed[i]? with
      | none => simp [holds, hget]
      | some v => simp [holds, hget, hne, consumerCell]
  · rw [hq.popped, List.take_add_one, hval]
    simp

theorem Inv.pushStep (hq : Inv k q) (h : q.pushStep = some q') : Inv k q' := by
  unfold SPSCQueue.pushStep at h
  cases hpc : q.producer with
  | idle =>
    rw [hpc] at h
    cases h
  | returned result =>
    rw [hpc] at h
    cases h
  | loadWrite val =>
    rw [hpc] at h
    cases h
    exact hq.setProducer (by rw [hpc]; rfl) rfl
  | loadRead val write =>
    have hok := hq.producer
    rw [hpc] at h hok
    simp only at h
    split_ifs at h with hfull
    · cases h
      exact hq.setProducer (by rw [hpc]; rfl) trivial
    · cases h
      obtain ⟨hroom, hmax⟩ := lt_of_not_isFull (by simpa using hfull)
      exact hq.setProducer (by rw [hpc]; rfl) ⟨hok, hroom, hmax⟩
  | construct val write =>
    rw [hpc] at h
    cases h
    exact hq.construct hpc
  | publish val write =>
    rw [hpc] at h
    cases h
    exact hq.publish hpc

theorem Inv.popStep (hq : Inv k q) (h : q.popStep = some q') : Inv k q' := by
  unfold SPSCQueue.popStep at h
  cases hpc : q.consumer with
  | idle =>
    rw [hpc] at h
    cases h
  | returned result =>
    rw [hpc] at h
    cases h
  | loadRead =>
    rw [hpc] at h
    cases h
    exact hq.setConsumer (fun _ => by rw [hpc]; rfl) rfl
  | loadWrite read =>
    have hok := hq.consumer
    rw [hpc] at h hok
    simp only at h
    split_ifs at h with hempty
    · cases h
      exact hq.setConsumer (fun _ => by rw [hpc]; rfl) trivial
    · cases h
      have hread := hq.read_le
      replace hok : read = q.readIdx := hok
      exact hq.setConsumer (fun _ => by rw [hpc]; rfl) ⟨hok, by omega⟩
  | move read =>
    rw [hpc] at h
    cases h
    exact hq.move hpc
  | destroy read val =>
    rw [hpc] at h
    cases h
    exact hq.destroy hpc
  | storeRead read val =>
    rw [hpc] at h
    cases h
    exact hq.storeRead hpc

theorem Inv.step {a : SPSCAct α} (hq : Inv k q) (h : q.step a = some q') : Inv k q' := by
  cases a with
  | push val =>
    simp only [SPSCQueue.step] at h
    split_ifs at h with hidle
    cases h
    exact hq.setProducer (producerCell_of_idle hidle).symm trivial
  | producer => exact hq.pushStep h
  | pop =>
    simp only [SPSCQueue.step] at h
    split_ifs at h with hidle
    cases h
    exact hq.setConsumer (fun val => (consumerCell_of_idle hidle val).symm) trivial
  | consumer => exact hq.popStep h

def queuedSlots (q : SPSCQueue α) : List ℕ :=
  (List.range' q.readIdx (q.writeIdx - q.readIdx)).map (slot q.capacity)

def destroyed (q : SPSCQueue α) (is : List ℕ) : SPSCQueue α :=
  is.foldl (fun q i => q.touch i .raw .destroy) q

theorem destroyLoop_eq {read write fuel : ℕ} (hread : read ≤ write) (hwrite : write < 2 ^ 64)
    (hfuel : write - read ≤ fuel) (q : SPSCQueue α) :
    destroyLoop write fuel read q = some (q.destroyed (List.range' read (write - read))) := by
  induction fuel generalizing read q with
  | zero =>
    have heq : read = write := by omega
    rw [destroyLoop, if_pos heq, heq, Nat.sub_self]
    rfl
  | succ fuel ih =>
    rw [destroyLoop]
    split_ifs with heq
    · rw [heq, Nat.sub_self]
      rfl
    · have hsub : write - read = (write - (read + 1)) + 1 := by omega
      rw [next_eq (by omega), ih (by omega) (by omega), hsub, List.range'_succ]
      rfl

theorem length_destroyed (q : SPSCQueue α) (is : List ℕ) :
    (q.destroyed is).buffer.length = q.buffer.length := by
  induction is generalizing q with
  | nil => rfl
  | cons i is ih => exact (ih _).trans List.length_set

theorem log_destroyed (q : SPSCQueue α) (is : List ℕ) :
    (q.destroyed is).log = q.log ++ is.map fun i => (slot q.capacity i, .destroy) := by
  induction is generalizing q with
  | nil => exact (List.append_nil _).symm
  | cons i is ih =>
    refine (ih _).trans ?_
    rw [List.map_cons, ← List.singleton_append, ← List.append_assoc]
    rfl

theorem getElem?_destroyed {j : ℕ} {c : Cell α} (is : List ℕ) (h : q.buffer[j]? = some c) :
    (q.destroyed is).buffer[j]? = some (if ∃ i ∈ is, slot q.capacity i = j then .raw else c) := by
  induction is generalizing q c with
  | nil => simpa [destroyed] using h
  | cons i is ih =>
    by_cases hi : slot q.capacity i = j
    · have hset : (q.touch i .raw .destroy).buffer[j]? = some .raw := by
        rw [← hi] at h ⊢
        exact List.getElem?_set_self (List.getElem?_eq_some_iff.mp h).1
      refine (ih hset).trans ?_
      rw [ite_self, if_pos ⟨i, List.mem_cons_self, hi⟩]
    · have hset : (q.touch i .raw .destroy).buffer[j]? = some c := by
        rw [← h]
        exact List.getElem?_set_ne hi
      refine (ih hset).trans ?_
      simp only [List.mem_cons, exists_eq_or_imp, hi, false_or]
      rfl

theorem Inv.popped_length (hq : Inv k q) : q.popped.length = q.readIdx := by
  rw [hq.popped, List.length_map, List.length_take, hq.pushed_length]
  exact min_eq_left hq.read_le

/-- While no pop is going on, the queued elements are in their slots. -/
theorem Inv.queuedSlots_live (hq : Inv k q) (hidle : q.consumer.isIdle = true) :
    q.queuedSlots.map (fun j => q.buffer[j]?) =
      (q.pushed.drop q.popped.length).map fun val => some (.live val) := by
  have hread := hq.read_le
  have hwrite := hq.write_le
  have hlen := hq.pushed_length
  refine List.ext_getElem? fun n => ?_
  by_cases hn : n < q.writeIdx - q.readIdx
  · obtain ⟨val, hval⟩ := hq.exists_pushed (by omega : q.readIdx + n < q.writeIdx)
    have hcell : q.buffer[slot q.capacity (q.readIdx + n)]? = some (.live val) := by
      rw [hq.cells _ (by omega) (by omega)]
      simp [holds, hval, consumerCell_of_idle hidle]
    simp [queuedSlots, hq.popped_length, hn, hval, hcell]
  · rw [List.getElem?_eq_none, List.getElem?_eq_none]
    · rw [List.length_map, List.length_drop, hq.popped_length]
      omega
    · rw [List.length_map, queuedSlots, List.length_map, List.length_range']
      omega

theorem Inv.queuedSlots_nodup (hq : Inv k q) : q.queuedSlots.Nodup := by
  have hwrite := hq.write_le
  refine List.Nodup.map_on (fun i hi j hj heq => ?_) List.nodup_range'
  rw [List.mem_range'_1] at hi hj
  by_contra hne
  rw [hq.capacity] at heq
  exact slot_ne_of_window q.readIdx hi.1 (by omega) hj.1 (by omega) hne heq

/-- While no call is going on, the destructor leaves raw memory. -/
theorem Inv.destroyed_raw (hq : Inv k q) (hp : q.producer.isIdle = true) {c : Cell α}
    (hc : c ∈ (q.destroyed (List.range' q.readIdx (q.writeIdx - q.readIdx))).buffer) :
    c = .raw := by
  obtain ⟨j, hj⟩ := List.mem_iff_getElem?.mp hc
  have hlt : j < 2 ^ k := by
    rw [← hq.buffer_length, ← length_destroyed q]
    exact (List.getElem?_eq_some_iff.mp hj).1
  obtain ⟨i, hi, hi', rfl⟩ := exists_slot_eq q.readIdx hlt
  have hcell := hq.cells i hi hi'
  rw [hq.capacity] at hcell
  rw [getElem?_destroyed _ hcell] at hj
  split_ifs at hj with hmem
  · exact (Option.some.inj hj).symm
  · -- The slot has no element, and no push is going on.
    have hge : q.writeIdx ≤ i := by
      by_contra hlt
      refine hmem ⟨i, List.mem_range'_1.mpr ⟨hi, by omega⟩, by rw [hq.capacity]⟩
    rw [← Option.some.inj hj, holds, (getElem?_pushed hq).mpr hge]
    simp only [producerCell_of_idle hp, ite_self]

/-- The pops return the pushed elements in their order, and every slot is constructed, moved from
and destroyed in turn. While no call is going on, the destructor destroys the elements that are
still queued and nothing else. -/
theorem spscQueue_fifo (k : ℕ) {as : List (SPSCAct α)} (hr : run step (init (2 ^ k)) as = some q) :
    q.popped = (q.pushed.take q.popped.length).map some ∧
      (∀ val, q.consumer = .returned (some val) → q.popped.getLast? = some val) ∧
      (∀ i c, q.buffer[i]? = some c → Lifetime (q.slotLog i) c) ∧
      (q.producer.isIdle = true → q.consumer.isIdle = true →
        ∃ q', q.destruct = some q' ∧
          q'.log = q.log ++ q.queuedSlots.map (fun j => (j, .destroy)) ∧
          q.queuedSlots.map (fun j => q.buffer[j]?) =
            (q.pushed.drop q.popped.length).map (fun val => some (.live val)) ∧
          q.queuedSlots.Nodup ∧ ∀ c ∈ q'.buffer, c = .raw) := by
  have hq : Inv k q := run_invariant (fun _ _ _ hq h => hq.step h) (inv_init k) hr
  refine ⟨hq.popped_length ▸ hq.popped, fun val hval => ?_, hq.lives, fun hp hc => ?_⟩
  · have hok := hq.consumer
    rwa [hval] at hok
  · have hfuel : q.writeIdx - q.readIdx ≤ q.capacity := by
      rw [hq.capacity]
      exact Nat.sub_le_iff_le_add'.mpr hq.write_le
    have hloop := destroyLoop_eq hq.read_le hq.write_lt hfuel q
    refine ⟨_, hloop, ?_, hq.queuedSlots_live hc, hq.queuedSlots_nodup,
      fun c => hq.destroyed_raw hp⟩
    rw [log_destroyed, queuedSlots, List.map_map]
    rfl

def sampleRun : List (SPSCAct ℕ) :=
  [.push 7, .producer, .producer, .producer, .producer,
    .push 8, .producer, .producer, .producer, .producer,
    .push 9, .producer, .producer,
    .pop, .consumer, .consumer, .consumer, .consumer, .consumer,
    .push 9, .producer, .producer, .producer, .producer]

theorem spscQueue_fifo_sample :
    ∃ q, run step (init (2 ^ 1)) sampleRun = some q ∧ q.popped = [some 7] ∧
      q.queuedSlots = [1, 0] ∧ q.popped = (q.pushed.take q.popped.length).map some ∧
      ∃ q', q.destruct = some q' ∧ q'.log = q.log ++ [(1, .destroy), (0, .destroy)] := by
  obtain ⟨q, hr, hpopped, hslots, hp, hc⟩ : ∃ q, run step (init (2 ^ 1)) sampleRun = some q ∧
      q.popped = [some 7] ∧ q.queuedSlots = [1, 0] ∧ q.producer.isIdle = true ∧
      q.consumer.isIdle = true := by
    decide +kernel
  obtain ⟨hfifo, -, -, hdestruct⟩ := spscQueue_fifo 1 hr
  obtain ⟨q', hq', hlog, -⟩ := hdestruct hp hc
  exact ⟨q, hr, hpopped, hslots, hfifo, q', hq', by rw [hlog, hslots]; rfl⟩

end SPSCQueue

end SofaBolt
