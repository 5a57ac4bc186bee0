import SofaBolt.RingIndex
import SofaBolt.Run

/- Every load, store and compare-exchange is a step of its own. The compare-exchange a producer
waits with rewrites the expected index, so that it may publish the slot of another one who
has not stored yet. -/

namespace SofaBolt

open RingIndex Run

inductive PushPc (α : Type*) where
  | idle
  | loadRead (val : α) (write : ℕ)
  | reserve (val : α) (write : ℕ)
  | store (val : α) (write : ℕ)
  | commit (writeCommit : ℕ)
  | returned (result : Bool)
deriving DecidableEq, Repr

namespace PushPc

variable {α : Type*}

def storing : PushPc α → Option ℕ
  | .store _ write => some write
  | _ => none

def committing : PushPc α → Option ℕ
  | .commit writeCommit => some writeCommit
  | _ => none

def inFlight : PushPc α → Bool
  | .store _ _ | .commit _ => true
  | _ => false

end PushPc

inductive PopPc (α : Type*) where
  | idle
  | loadWrite (read : ℕ)
  | copy (read : ℕ)
  | storeRead (read : ℕ) (val : Option α)
  | returned (result : Bool)
deriving DecidableEq, Repr

/-- The queue and its threads.  A slot of `buffer` is `none` until it is first
stored to.  `reserved` has the value of every push that got a slot, in the order
of the slots, and `popped` what the pops have returned. -/
structure MPSCQueue (α : Type*) where
  capacity : ℕ
  buffer : List (Option α)
  readIdx : ℕ
  writePrepareIdx : ℕ
  writeIdx : ℕ
  producers : List (PushPc α)
  consumer : PopPc α
  reserved : List α
  popped : List (Option α)
deriving DecidableEq, Repr

inductive MPSCAct (α : Type*) where
  | push (p : ℕ) (val : α)
  | producer (p : ℕ)
  | pop
  | consumer
deriving DecidableEq, Repr

namespace MPSCQueue

variable {α : Type*}

def init (capacity n : ℕ) : MPSCQueue α where
  capacity := capacity
  buffer := List.replicate capacity none
  readIdx := 0
  writePrepareIdx := 0
  writeIdx := 0
  producers := List.replicate n .idle
  consumer := .idle
  reserved := []
  popped := []

def setProducer (s : MPSCQueue α) (p : ℕ) (pc : PushPc α) : MPSCQueue α :=
  { s with producers := s.producers.set p pc }

/-- A step of `push`; the count of failed tries only decides when to yield. -/
def pushStep (s : MPSCQueue α) (p : ℕ) : PushPc α → Option (MPSCQueue α)
  | .loadRead val write =>
    some (s.setProducer p
      (if isFull s.capacity s.readIdx write then .returned false else .reserve val write))
  | .reserve val write =>
    if s.writePrepareIdx = write then
      some { s.setProducer p (.store val write) with
        writePrepareIdx := next write
        reserved := s.reserved ++ [val] }
    else some (s.setProducer p (.loadRead val s.writePrepareIdx))
  | .store val write =>
    some { s.setProducer p (.commit write) with
      buffer := s.buffer.set (slot s.capacity write) (some val) }
  | .commit writeCommit =>
    if s.writeIdx = writeCommit then
      some { s.setProducer p (.returned true) with writeIdx := next writeCommit }
    else some (s.setProducer p (.commit s.writeIdx))
  | .idle | .returned _ => none

def popStep (s : MPSCQueue α) : Option (MPSCQueue α) :=
  match s.consumer with
  | .loadWrite read =>
    some { s with consumer := if read = s.writeIdx then .returned false else .copy read }
  | .copy read =>
    some { s with consumer := .storeRead read (s.buffer[slot s.capacity read]?.getD none) }
  | .storeRead read val =>
    some { s with
      readIdx := next read
      consumer := .returned true
      popped := s.popped ++ [val] }
  | .idle | .returned _ => none

def step (s : MPSCQueue α) : MPSCAct α → Option (MPSCQueue α)
  | .push p val =>
    match s.producers[p]? with
    | some .idle | some (.returned _) => some (s.setProducer p (.loadRead val s.writePrepareIdx))
    | _ => none
  | .producer p => (s.producers[p]?).bind (s.pushStep p)
  | .pop =>
    match s.consumer with
    | .idle | .returned _ => some { s with consumer := .loadWrite s.readIdx }
    | _ => none
  | .consumer => s.popStep

/-- The producer of slot `i` has reserved it and not yet stored to it. -/
def Unstored (s : MPSCQueue α) (i : ℕ) : Prop := ∃ pc ∈ s.producers, pc.storing = some i

instance (s : MPSCQueue α) (i : ℕ) : Decidable (s.Unstored i) :=
  inferInstanceAs (Decidable (∃ pc ∈ s.producers, pc.storing = some i))

/-- A producer that advances `_write_idx` publishes a slot that has been stored. -/
def PublishesStored (s : MPSCQueue α) : MPSCAct α → Prop
  | .producer p => ∀ pc ∈ s.producers[p]?, pc.committing = some s.writeIdx →
      ¬ s.Unstored s.writeIdx
  | _ => True

instance (s : MPSCQueue α) : DecidablePred s.PublishesStored
  | .producer p => inferInstanceAs (Decidable (∀ pc ∈ s.producers[p]?,
      pc.committing = some s.writeIdx → ¬ s.Unstored s.writeIdx))
  | .push _ _ | .pop | .consumer => isTrue trivial

def ReadOk (s : MPSCQueue α) : PopPc α → Prop
  | .loadWrite read => read = s.readIdx
  | .copy read | .storeRead read _ => read = s.readIdx ∧ s.readIdx < s.writeIdx
  | .idle | .returned _ => True

/-- From `_read_idx` to `_write_prepare_idx` there is at most one slot each, and
`_write_idx` is behind by the producers that have a slot and not yet returned. -/
structure Indices (k : ℕ) (s : MPSCQueue α) : Prop where
  capacity : s.capacity = 2 ^ k
  reserved_length : s.reserved.length = s.writePrepareIdx
  prepare_lt : s.writePrepareIdx < 2 ^ 64
  read_le : s.readIdx ≤ s.writeIdx
  count : s.writeIdx + s.producers.countP PushPc.inFlight = s.writePrepareIdx
  prepare_le : s.writePrepareIdx ≤ s.readIdx + 2 ^ k
  reserving : ∀ val write, .reserve val write ∈ s.producers →
    write < s.readIdx + 2 ^ k ∧ write + 1 < 2 ^ 64
  reading : s.ReadOk s.consumer

theorem indices_init (k n : ℕ) : Indices k (init (2 ^ k) n : MPSCQueue α) where
  capacity := rfl
  reserved_length := rfl
  prepare_lt := Nat.two_pow_pos 64
  read_le := le_rfl
  count := by simp [init, PushPc.inFlight]
  prepare_le := Nat.zero_le _
  reserving val write h := by simp [init] at h
  reading := trivial

variable {k p : ℕ} {s s' : MPSCQueue α} {pc pc' : PushPc α}

namespace Indices

theorem writeIdx_le (hi : Indices k s) : s.writeIdx ≤ s.writePrepareIdx := by
  have := hi.count
  omega

/-- A producer moves on without touching the indices, neither to a slot nor away
from one. -/
theorem setProducer (hi : Indices k s) (hp : s.producers[p]? = some pc)
    (hflight : pc'.inFlight = pc.inFlight)
    (hreserve : ∀ val write, pc' = .reserve val write →
      write < s.readIdx + 2 ^ k ∧ write + 1 < 2 ^ 64) : Indices k (s.setProducer p pc') where
  capacity := hi.capacity
  reserved_length := hi.reserved_length
  prepare_lt := hi.prepare_lt
  read_le := hi.read_le
  count := by
    have hcount := countP_set_add hp pc' PushPc.inFlight
    have hc := hi.count
    rw [hflight] at hcount
    unfold MPSCQueue.setProducer
    simp only
    omega
  prepare_le := hi.prepare_le
  reserving val write hmem := by
    by_cases heq : .reserve val write = pc'
    · exact hreserve val write heq.symm
    · exact hi.reserving val write (mem_of_mem_set heq hmem)
  reading := hi.reading

theorem writePrepareIdx_reserve (hi : Indices k s) {val : α}
    (hp : s.producers[p]? = some (.reserve val s.writePrepareIdx)) :
    Indices k { s.setProducer p (.store val s.writePrepareIdx) with
      writePrepareIdx := next s.writePrepareIdx
      reserved := s.reserved ++ [val] } := by
  obtain ⟨hlt, hwrap⟩ := hi.reserving val _ (mem_of_getElem? hp)
  have hcount := hi.count
  have hset := countP_set_add hp (.store val s.writePrepareIdx) PushPc.inFlight
  simp only [PushPc.inFlight, Bool.toNat_false, Bool.toNat_true] at hset
  rw [next_eq hwrap]
  constructor
  case capacity => exact hi.capacity
  case reserved_length => simp [hi.reserved_length]
  case prepare_lt => exact hwrap
  case read_le => exact hi.read_le
  case count =>
    simp only [MPSCQueue.setProducer]
    omega
  case prepare_le => exact hlt
  case reserving =>
    intro v w hmem
    exact hi.reserving v w (mem_of_mem_set (by simp) hmem)
  case reading => exact hi.reading

theorem commit (hi : Indices k s) (hp : s.producers[p]? = some (.commit s.writeIdx)) :
    Indices k { s.setProducer p (.returned true) with writeIdx := next s.writeIdx } := by
  have hcount := hi.count
  have hset := countP_set_add hp (.returned true) PushPc.inFlight
  simp only [PushPc.inFlight, Bool.toNat_true, Bool.toNat_false] at hset
  have hlt := hi.prepare_lt
  have hread := hi.read_le
  rw [next_eq (by omega)]
  constructor
  case capacity => exact hi.capacity
  case reserved_length => exact hi.reserved_length
  case prepare_lt => exact hi.prepare_lt
  case read_le =>
    simp only [MPSCQueue.setProducer]
    omega
  case count =>
    simp only [MPSCQueue.setProducer]
    omega
  case prepare_le => exact hi.prepare_le
  case reserving =>
    intro v w hmem
    exact hi.reserving v w (mem_of_mem_set (by simp) hmem)
  case reading =>
    have hcons := hi.reading
    cases hc : s.consumer with
    | copy read =>
      rw [hc] at hcons
      simp only [MPSCQueue.setProducer, hc]
      exact ⟨hcons.1, Nat.lt_succ_of_lt hcons.2⟩
    | storeRead read v =>
      rw [hc] at hcons
      simp only [MPSCQueue.setProducer, hc]
      exact ⟨hcons.1, Nat.lt_succ_of_lt hcons.2⟩
    | _ =>
      rw [hc] at hcons
      simp only [MPSCQueue.setProducer, hc]
      exact hcons

theorem pushStep (hi : Indices k s) (hp : s.producers[p]? = some pc)
    (h : s.pushStep p pc = some s') : Indices k s' := by
  cases pc with
  | loadRead val write =>
    obtain rfl := Option.some.inj h
    cases hfull : isFull s.capacity s.readIdx write with
    | true => exact hi.setProducer hp rfl (by simp)
    | false =>
      refine hi.setProducer hp rfl ?_
      intro v w heq
      obtain ⟨rfl, rfl⟩ := PushPc.reserve.inj heq
      exact hi.capacity ▸ lt_of_not_isFull hfull
  | reserve val write =>
    simp only [MPSCQueue.pushStep] at h
    split_ifs at h with hw
    · obtain rfl := hw
      exact Option.some.inj h ▸ hi.writePrepareIdx_reserve hp
    · exact Option.some.inj h ▸ hi.setProducer hp rfl (by simp)
  | store val write =>
    have hstored : Indices k (s.setProducer p (.commit write)) := hi.setProducer hp rfl (by simp)
    exact Option.some.inj h ▸ { hstored with }
  | commit writeCommit =>
    simp only [MPSCQueue.pushStep] at h
    split_ifs at h with hw
    · obtain rfl := hw
      exact Option.some.inj h ▸ hi.commit hp
    · exact Option.some.inj h ▸ hi.setProducer hp rfl (by simp)
  | idle => cases h
  | returned result => cases h

theorem readIdx_next (hi : Indices k s) (hlt : s.readIdx < s.writeIdx) :
    next s.readIdx = s.readIdx + 1 := by
  have hprep := hi.prepare_lt
  have hle := hi.writeIdx_le
  exact next_eq (by omega)

theorem popStep (hi : Indices k s) (h : s.popStep = some s') : Indices k s' := by
  have hcons := hi.reading
  unfold MPSCQueue.popStep at h
  cases hc : s.consumer with
  | idle => simp [hc] at h
  | returned result => simp [hc] at h
  | loadWrite read =>
    rw [hc] at h hcons
    obtain rfl := Option.some.inj h
    refine { hi with reading := ?_ }
    simp only
    split_ifs with hne
    · trivial
    · have hread := hi.read_le
      obtain rfl : read = s.readIdx := hcons
      exact ⟨rfl, lt_of_le_of_ne hread hne⟩
  | copy read =>
    rw [hc] at h hcons
    obtain rfl := Option.some.inj h
    exact { hi with reading := hcons }
  | storeRead read val =>
    rw [hc] at h hcons
    obtain rfl := Option.some.inj h
    obtain ⟨rfl, hlt⟩ := hcons
    rw [hi.readIdx_next hlt]
    refine { hi with read_le := hlt, prepare_le := ?_, reserving := ?_, reading := trivial }
    · have := hi.prepare_le
      simp only
      omega
    · intro v w hmem
      obtain ⟨h₁, h₂⟩ := hi.reserving v w hmem
      exact ⟨by simp only; omega, h₂⟩

theorem step (hi : Indices k s) {a : MPSCAct α} (h : s.step a = some s') : Indices k s' := by
  cases a with
  | push p val =>
    simp only [MPSCQueue.step] at h
    split at h
    case h_1 hp => exact Option.some.inj h ▸ hi.setProducer hp rfl (by simp)
    case h_2 r hp => exact Option.some.inj h ▸ hi.setProducer hp rfl (by simp)
    case h_3 => cases h
  | producer p =>
    obtain ⟨pc, hp, hstep⟩ := Option.bind_eq_some_iff.mp h
    exact hi.pushStep hp hstep
  | pop =>
    simp only [MPSCQueue.step] at h
    split at h
    case h_1 => exact Option.some.inj h ▸ { hi with reading := rfl }
    case h_2 => exact Option.some.inj h ▸ { hi with reading := rfl }
    case h_3 => cases h
  | consumer => exact hi.popStep h

end Indices

def ConsumerOk (s : MPSCQueue α) : PopPc α → Prop
  | .loadWrite read => read = s.readIdx
  | .copy read => read = s.readIdx ∧ s.readIdx < s.writeIdx
  | .storeRead read val => read = s.readIdx ∧ s.readIdx < s.writeIdx ∧ val = s.reserved[read]?
  | .idle | .returned _ => True

/-- The slots from `_read_idx` to `_write_prepare_idx` are reserved, those below
`_write_idx` have been stored, and a slot that has been stored keeps its value
until it is popped. -/
structure Inv (k : ℕ) (s : MPSCQueue α) : Prop where
  capacity : s.capacity = 2 ^ k
  buffer_length : s.buffer.length = 2 ^ k
  reserved_length : s.reserved.length = s.writePrepareIdx
  prepare_lt : s.writePrepareIdx < 2 ^ 64
  read_le : s.readIdx ≤ s.writeIdx
  count : s.writeIdx + s.producers.countP PushPc.inFlight = s.writePrepareIdx
  prepare_le : s.writePrepareIdx ≤ s.readIdx + 2 ^ k
  reserving : ∀ val write, .reserve val write ∈ s.producers →
    write < s.readIdx + 2 ^ k ∧ write + 1 < 2 ^ 64
  storing : ∀ val write, .store val write ∈ s.producers →
    s.writeIdx ≤ write ∧ s.reserved[write]? = some val
  stored : ∀ i, s.readIdx ≤ i → i < s.writePrepareIdx → ¬ s.Unstored i →
    s.buffer[slot s.capacity i]? = some s.reserved[i]?
  popped : s.popped = (s.reserved.take s.readIdx).map some
  consumer : s.ConsumerOk s.consumer

theorem inv_init (k n : ℕ) : Inv k (init (2 ^ k) n : MPSCQueue α) :=
  { indices_init k n with
    buffer_length := List.length_replicate
    storing := fun val write h => by simp [init] at h
    stored := fun i _ h => absurd h (Nat.not_lt_zero i)
    popped := rfl
    consumer := trivial }

theorem Inv.indices (hi : Inv k s) : Indices k s := by
  have hcons := hi.consumer
  refine { hi with reading := ?_ }
  cases hc : s.consumer with
  | storeRead read val =>
    rw [hc] at hcons
    exact ⟨hcons.1, hcons.2.1⟩
  | _ =>
    rw [hc] at hcons
    exact hcons

/-- Another producer that has not stored yet has not stored afterwards either. -/
theorem Unstored.setProducer {i : ℕ} (h : s.Unstored i) (hp : s.producers[p]? = some pc)
    (hne : pc.storing ≠ some i) : (s.setProducer p pc').Unstored i := by
  obtain ⟨pc₁, hmem, hstoring⟩ := h
  refine ⟨pc₁, mem_set_of_ne hp ?_ hmem, hstoring⟩
  rintro rfl
  exact hne hstoring

theorem unstored_iff {i : ℕ} : s.Unstored i ↔ ∃ val, .store val i ∈ s.producers := by
  constructor
  · rintro ⟨pc, hmem, hstoring⟩
    cases pc with
    | store val write =>
      obtain rfl := Option.some.inj hstoring
      exact ⟨val, hmem⟩
    | _ => cases hstoring
  · rintro ⟨val, hmem⟩
    exact ⟨_, hmem, rfl⟩

/-- A producer moves on without touching the queue, neither to a slot nor away
from one. -/
theorem Inv.setProducer (hi : Inv k s) (hp : s.producers[p]? = some pc)
    (hflight : pc'.inFlight = pc.inFlight) (hold : pc.storing = none)
    (hnew : pc'.storing = none)
    (hreserve : ∀ val write, pc' = .reserve val write →
      write < s.readIdx + 2 ^ k ∧ write + 1 < 2 ^ 64) : Inv k (s.setProducer p pc') := by
  refine { hi.indices.setProducer hp hflight hreserve with
    buffer_length := hi.buffer_length
    storing := ?_
    stored := ?_
    popped := hi.popped
    consumer := hi.consumer }
  · intro val write hmem
    refine hi.storing val write (mem_of_mem_set ?_ hmem)
    rintro rfl
    cases hnew
  · intro i hlo hhi hst
    refine hi.stored i hlo hhi fun hun => hst (hun.setProducer hp ?_)
    simp [hold]

theorem Inv.writePrepareIdx_reserve (hi : Inv k s) {val : α}
    (hp : s.producers[p]? = some (.reserve val s.writePrepareIdx)) :
    Inv k { s.setProducer p (.store val s.writePrepareIdx) with
      writePrepareIdx := next s.writePrepareIdx
      reserved := s.reserved ++ [val] } := by
  obtain ⟨hlt, hwrap⟩ := hi.reserving val _ (mem_of_getElem? hp)
  have hlen := hi.reserved_length
  have hread := hi.read_le
  have hle := hi.indices.writeIdx_le
  refine { hi.indices.writePrepareIdx_reserve hp with
    buffer_length := hi.buffer_length
    storing := ?storing
    stored := ?stored
    popped := ?popped
    consumer := ?consumer }
  case storing =>
    intro v w hmem
    rcases List.mem_or_eq_of_mem_set hmem with hmem | heq
    · obtain ⟨h₁, h₂⟩ := hi.storing v w hmem
      have hw := (List.getElem?_eq_some_iff.mp h₂).1
      exact ⟨h₁, by rw [List.getElem?_append_left hw, h₂]⟩
    · obtain ⟨rfl, rfl⟩ := PushPc.store.inj heq
      exact ⟨hle, by simp [hlen]⟩
  case stored =>
    intro i hlo hhi hst
    -- the slot just reserved is the one that is not stored yet
    have hne : i ≠ s.writePrepareIdx := by
      rintro rfl
      exact hst (unstored_iff.mpr ⟨val, List.mem_iff_getElem?.mpr
        ⟨p, List.getElem?_set_self (List.getElem?_eq_some_iff.mp hp).1⟩⟩)
    have hi' : i < s.writePrepareIdx := by
      simp only [next_eq hwrap] at hhi
      omega
    rw [List.getElem?_append_left (by omega)]
    exact hi.stored i hlo hi' fun hun => hst (hun.setProducer hp (by simp [PushPc.storing]))
  case popped =>
    simp only [MPSCQueue.setProducer]
    rw [List.take_append_of_le_length (by omega)]
    exact hi.popped
  case consumer =>
    have hcons := hi.consumer
    cases hc : s.consumer with
    | storeRead read v =>
      rw [hc] at hcons
      obtain ⟨h₁, h₂, h₃⟩ := hcons
      simp only [MPSCQueue.setProducer, hc]
      refine ⟨h₁, h₂, ?_⟩
      rw [h₃, List.getElem?_append_left (by omega)]
    | _ =>
      rw [hc] at hcons
      simp only [MPSCQueue.setProducer, hc]
      exact hcons

theorem Inv.store (hi : Inv k s) {val : α} {write : ℕ}
    (hp : s.producers[p]? = some (.store val write)) :
    Inv k { s.setProducer p (.commit write) with
      buffer := s.buffer.set (slot s.capacity write) (some val) } := by
  obtain ⟨hw, hval⟩ := hi.storing val write (mem_of_getElem? hp)
  have hlt := (List.getElem?_eq_some_iff.mp hval).1
  have hlen := hi.reserved_length
  have hread := hi.read_le
  have hprep := hi.prepare_le
  have hx : Indices k (s.setProducer p (.commit write)) :=
    hi.indices.setProducer hp rfl (by simp)
  refine { hx with
    buffer_length := List.length_set.trans hi.buffer_length
    storing := ?storing
    stored := ?stored
    popped := hi.popped
    consumer := hi.consumer }
  case storing =>
    intro v w hmem
    exact hi.storing v w (mem_of_mem_set (by simp) hmem)
  case stored =>
    intro i hlo hhi hst
    simp only [MPSCQueue.setProducer] at hlo hhi
    by_cases hiw : i = write
    · rw [hiw]
      have hslot : slot s.capacity write < s.buffer.length := by
        rw [hi.buffer_length, hi.capacity]
        exact slot_lt k write
      simp only [MPSCQueue.setProducer]
      rw [List.getElem?_set_self hslot, hval]
    · -- two indices of one window do not share a slot
      have hne : slot s.capacity write ≠ slot s.capacity i := by
        rw [hi.capacity]
        exact slot_ne_of_window s.readIdx (by omega) (by omega) (by omega) (by omega)
          (Ne.symm hiw)
      simp only [MPSCQueue.setProducer]
      rw [List.getElem?_set_ne hne]
      refine hi.stored i hlo hhi fun hun => hst (hun.setProducer hp ?_)
      simpa [PushPc.storing] using Ne.symm hiw

theorem Inv.commit (hi : Inv k s) (hp : s.producers[p]? = some (.commit s.writeIdx))
    (hst : ¬ s.Unstored s.writeIdx) :
    Inv k { s.setProducer p (.returned true) with writeIdx := next s.writeIdx } := by
  have hx := hi.indices.commit hp
  have hcount := hi.count
  have hset := countP_set_add hp (.returned true) PushPc.inFlight
  simp only [PushPc.inFlight, Bool.toNat_true, Bool.toNat_false] at hset
  have hlt := hi.prepare_lt
  have hnext : next s.writeIdx = s.writeIdx + 1 := next_eq (by omega)
  refine { hx with
    buffer_length := hi.buffer_length
    storing := ?storing
    stored := ?stored
    popped := hi.popped
    consumer := ?consumer }
  case storing =>
    intro v w hmem
    have hmem' := mem_of_mem_set (by simp) hmem
    obtain ⟨h₁, h₂⟩ := hi.storing v w hmem'
    -- a producer that still has to store is not passed
    have hne : w ≠ s.writeIdx := by
      rintro rfl
      exact hst (unstored_iff.mpr ⟨v, hmem'⟩)
    exact ⟨by simp only [hnext]; omega, h₂⟩
  case stored =>
    intro i hlo hhi hun
    exact hi.stored i hlo hhi fun h => hun (h.setProducer hp (by simp [PushPc.storing]))
  case consumer =>
    have hcons := hi.consumer
    have hread := hx.reading
    cases hc : s.consumer with
    | storeRead read v =>
      rw [hc] at hcons
      simp only [MPSCQueue.setProducer, hc] at hread ⊢
      exact ⟨hread.1, hread.2, hcons.2.2⟩
    | _ =>
      simp only [MPSCQueue.setProducer, hc] at hread ⊢
      exact hread

theorem Inv.pushStep (hi : Inv k s) (hp : s.producers[p]? = some pc)
    (hcond : pc.committing = some s.writeIdx → ¬ s.Unstored s.writeIdx)
    (h : s.pushStep p pc = some s') : Inv k s' := by
  cases pc with
  | loadRead val write =>
    obtain rfl := Option.some.inj h
    cases hfull : isFull s.capacity s.readIdx write with
    | true => exact hi.setProducer hp rfl rfl rfl (by simp)
    | false =>
      refine hi.setProducer hp rfl rfl rfl ?_
      intro v w heq
      obtain ⟨rfl, rfl⟩ := PushPc.reserve.inj heq
      exact hi.capacity ▸ lt_of_not_isFull hfull
  | reserve val write =>
    simp only [MPSCQueue.pushStep] at h
    split_ifs at h with hw
    · obtain rfl := hw
      exact Option.some.inj h ▸ hi.writePrepareIdx_reserve hp
    · exact Option.some.inj h ▸ hi.setProducer hp rfl rfl rfl (by simp)
  | store val write => exact Option.some.inj h ▸ hi.store hp
  | commit writeCommit =>
    simp only [MPSCQueue.pushStep] at h
    split_ifs at h with hw
    · obtain rfl := hw
      exact Option.some.inj h ▸ hi.commit hp (hcond rfl)
    · exact Option.some.inj h ▸ hi.setProducer hp rfl rfl rfl (by simp)
  | idle => cases h
  | returned result => cases h

theorem Inv.not_unstored (hi : Inv k s) {i : ℕ} (hlt : i < s.writeIdx) : ¬ s.Unstored i := by
  intro hun
  obtain ⟨val, hmem⟩ := unstored_iff.mp hun
  have := (hi.storing val i hmem).1
  omega

theorem Inv.popStep (hi : Inv k s) (h : s.popStep = some s') : Inv k s' := by
  have hx := hi.indices.popStep h
  have hcons := hi.consumer
  have hle := hi.indices.writeIdx_le
  unfold MPSCQueue.popStep at h
  cases hc : s.consumer with
  | idle => simp [hc] at h
  | returned result => simp [hc] at h
  | loadWrite read =>
    rw [hc] at h
    obtain rfl := Option.some.inj h
    have hread := hx.reading
    refine { hi with consumer := ?_ }
    simp only at hread ⊢
    split_ifs at hread ⊢
    · trivial
    · exact hread
  | copy read =>
    rw [hc] at h hcons
    obtain rfl := Option.some.inj h
    obtain ⟨rfl, hlt⟩ := hcons
    refine { hi with consumer := ⟨rfl, hlt, ?_⟩ }
    rw [hi.stored _ le_rfl (by omega) (hi.not_unstored hlt)]
    rfl
  | storeRead read val =>
    rw [hc] at h hcons
    obtain rfl := Option.some.inj h
    obtain ⟨rfl, hlt, rfl⟩ := hcons
    have hnext := hi.indices.readIdx_next hlt
    have hlen : s.readIdx < s.reserved.length := by rw [hi.reserved_length]; omega
    refine { hx with
      buffer_length := hi.buffer_length
      storing := hi.storing
      stored := ?_
      popped := ?_
      consumer := trivial }
    · intro i hlo
      simp only [hnext] at hlo
      exact hi.stored i (Nat.le_of_succ_le hlo)
    · simp only [hnext]
      rw [List.take_add_one, List.map_append, hi.popped, List.getElem?_eq_getElem hlen]
      rfl

theorem Inv.step (hi : Inv k s) {a : MPSCAct α} (hcond : s.PublishesStored a)
    (h : s.step a = some s') : Inv k s' := by
  cases a with
  | push p val =>
    simp only [MPSCQueue.step] at h
    split at h
    case h_1 hp => exact Option.some.inj h ▸ hi.setProducer hp rfl rfl rfl (by simp)
    case h_2 r hp => exact Option.some.inj h ▸ hi.setProducer hp rfl rfl rfl (by simp)
    case h_3 => cases h
  | producer p =>
    obtain ⟨pc, hp, hstep⟩ := Option.bind_eq_some_iff.mp h
    exact hi.pushStep hp (hcond pc hp) hstep
  | pop =>
    simp only [MPSCQueue.step] at h
    split at h
    case h_1 => exact Option.some.inj h ▸ { hi with consumer := rfl }
    case h_2 => exact Option.some.inj h ▸ { hi with consumer := rfl }
    case h_3 => cases h
  | consumer => exact hi.popStep h

/-- In every run in which only stored slots are published, the consumer copies
only slots that have been stored, and what it has popped are the first values in
the order of their slots. -/
theorem pops_in_reservation_order (k n : ℕ) (as : List (MPSCAct α))
    (s : MPSCQueue α) (hm : Meets step PublishesStored (init (2 ^ k) n) as)
    (h : run step (init (2 ^ k) n) as = some s) :
    (∀ read, s.consumer = .copy read → read < s.reserved.length ∧ ¬ s.Unstored read) ∧
      s.popped <+: s.reserved.map some := by
  have hi : Inv k s := run_induction (fun _ _ _ hi hc h => hi.step hc h) (inv_init k n) hm h
  refine ⟨?_, ?_⟩
  · intro read hread
    have hcons := hi.consumer
    rw [hread] at hcons
    obtain ⟨rfl, hlt⟩ := hcons
    have hle := hi.indices.writeIdx_le
    rw [hi.reserved_length]
    exact ⟨by omega, hi.not_unstored hlt⟩
  · rw [hi.popped, List.map_take]
    exact List.take_prefix _ _

/-- Two producers reserve a slot each, and the second one stores first and tries
to advance `_write_idx`: in vain, but now it expects the slot of the first. -/
def twoProducers : List (MPSCAct ℕ) :=
  [.push 0 10, .push 1 20, .producer 0, .producer 0, .producer 1, .producer 1, .producer 1,
    .producer 1, .producer 1, .producer 1]

def inTurn : List (MPSCAct ℕ) :=
  [.producer 0, .producer 1, .producer 0, .producer 0, .pop, .consumer, .consumer, .consumer,
    .pop, .consumer]

theorem pops_in_reservation_order_two_producers :
    ∃ s, run step (init 2 2) (twoProducers ++ inTurn) = some s ∧
      s.popped = [some 10] ∧ s.popped <+: s.reserved.map some ∧
      s.consumer = .copy 1 ∧ ¬ s.Unstored 1 := by
  have hrun : run step (init 2 2) (twoProducers ++ inTurn) = some
      { capacity := 2, buffer := [some 10, some 20], readIdx := 1, writePrepareIdx := 2
        writeIdx := 2, producers := [.returned true, .returned true], consumer := .copy 1
        reserved := [10, 20], popped := [some 10] } := by decide +kernel
  have hm : Meets step PublishesStored (init 2 2) (twoProducers ++ inTurn) := by decide +kernel
  obtain ⟨hcopy, hprefix⟩ := pops_in_reservation_order 1 2 _ _ hm hrun
  exact ⟨_, hrun, rfl, hprefix, rfl, (hcopy 1 rfl).2⟩

/-- The second producer publishes the slot of the first, which has not been
stored to, and the consumer pops it. -/
theorem pops_unstored_slot :
    ∃ s, run step (init 2 2) (twoProducers ++ [.producer 1, .pop, .consumer]) = some s ∧
      s.consumer = .copy 0 ∧ s.Unstored 0 ∧
      ∃ s', run step s [.consumer, .consumer] = some s' ∧ s'.popped = [none] ∧
        ¬ s'.popped <+: s'.reserved.map some := by
  have hrun : run step (init 2 2) (twoProducers ++ [.producer 1, .pop, .consumer]) = some
      { capacity := 2, buffer := [none, some 20], readIdx := 0, writePrepareIdx := 2
        writeIdx := 1, producers := [.store 10 0, .returned true], consumer := .copy 0
        reserved := [10, 20], popped := [] } := by decide +kernel
  refine ⟨_, hrun, rfl, by decide, _, rfl, rfl, by decide⟩

end MPSCQueue

end SofaBolt
