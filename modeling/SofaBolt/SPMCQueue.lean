import SofaBolt.RingIndex
import SofaBolt.Run

/- Every load, store and compare-exchange is a step of its own. A consumer copies the slot
before it claims it. -/

namespace SofaBolt.SPMC

open RingIndex Run

inductive PushPc (α : Type*) where
  | idle
  | loadWrite (val : α)
  | loadRead (val : α) (write : ℕ)
  | store (val : α) (write : ℕ)
  | publish (val : α) (write : ℕ)
  | returned (result : Bool)
deriving DecidableEq, Repr

def PushPc.val {α : Type*} : PushPc α → Option α
  | .loadWrite val | .loadRead val _ | .store val _ | .publish val _ => some val
  | .idle | .returned _ => none

inductive PopPc (α : Type*) where
  | idle
  | loadRead (val : Option α)
  | loadWrite (read : ℕ) (val : Option α)
  | copy (read : ℕ)
  | claim (read : ℕ) (val : Option α)
  | returned (result : Bool) (val : Option α)
deriving DecidableEq, Repr

end SPMC

open SPMC RingIndex Run

/-- A slot of `buffer` is `none` until it is first stored to.  `pushed` has the values
of the pushes that have advanced `_write_idx`, `popped` those of the pops that have
advanced `_read_idx`, each in that order. -/
structure SPMCQueue (α : Type*) where
  capacity : ℕ
  buffer : List (Option α)
  readIdx : ℕ
  writeIdx : ℕ
  pushed : List α
  popped : List (Option α)
deriving DecidableEq, Repr

namespace SPMCQueue

variable {α : Type*}

def init (capacity : ℕ) : SPMCQueue α where
  capacity := capacity
  buffer := List.replicate capacity none
  readIdx := 0
  writeIdx := 0
  pushed := []
  popped := []

def pushStep (q : SPMCQueue α) : SPMC.PushPc α → Option (SPMCQueue α × SPMC.PushPc α)
  | .loadWrite val => some (q, .loadRead val q.writeIdx)
  | .loadRead val write =>
    some (q, if isFull q.capacity q.readIdx write then .returned false else .store val write)
  | .store val write =>
    some ({ q with buffer := q.buffer.set (slot q.capacity write) (some val) },
      .publish val write)
  | .publish val write =>
    some ({ q with writeIdx := next write, pushed := q.pushed ++ [val] }, .returned true)
  | .idle | .returned _ => none

/-- A step of `pop`.  A failed compare-exchange loads `_read_idx` anew. -/
def popStep (q : SPMCQueue α) : SPMC.PopPc α → Option (SPMCQueue α × SPMC.PopPc α)
  | .loadRead val => some (q, .loadWrite q.readIdx val)
  | .loadWrite read val =>
    some (q, if read = q.writeIdx then .returned false val else .copy read)
  | .copy read => some (q, .claim read (q.buffer[slot q.capacity read]?.getD none))
  | .claim read val =>
    if q.readIdx = read then
      some ({ q with readIdx := next read, popped := q.popped ++ [val] }, .returned true val)
    else some (q, .loadWrite q.readIdx val)
  | .idle | .returned _ _ => none

def unread (q : SPMCQueue α) : ℕ := q.pushed.length - q.popped.length

/-- The indices count what has been pushed and popped, and a slot keeps its value until
it is popped. -/
structure WF (k : ℕ) (q : SPMCQueue α) : Prop where
  capacity : q.capacity = 2 ^ k
  buffer_length : q.buffer.length = 2 ^ k
  pushed_length : q.pushed.length = q.writeIdx
  write_lt : q.writeIdx < 2 ^ 64
  read_le : q.readIdx ≤ q.writeIdx
  write_le : q.writeIdx ≤ q.readIdx + 2 ^ k
  stored : ∀ i, q.readIdx ≤ i → i < q.writeIdx →
    q.buffer[slot q.capacity i]? = some q.pushed[i]?
  popped : q.popped = (q.pushed.take q.readIdx).map some

def ProducerOk (q : SPMCQueue α) : SPMC.PushPc α → Prop
  | .loadRead _ write => write = q.writeIdx
  | .store _ write => write = q.writeIdx ∧ write < q.readIdx + q.capacity ∧ write + 1 < 2 ^ 64
  | .publish val write => write = q.writeIdx ∧ write < q.readIdx + q.capacity ∧
    write + 1 < 2 ^ 64 ∧ q.buffer[slot q.capacity write]? = some (some val)
  | .idle | .loadWrite _ | .returned _ => True

/-- What a consumer knows: its index is not ahead of `_read_idx`, and if it is still
that one then what it has copied is the value of the slot. -/
def ConsumerOk (q : SPMCQueue α) : SPMC.PopPc α → Prop
  | .loadWrite read _ => read ≤ q.readIdx
  | .copy read => read ≤ q.readIdx ∧ read < q.writeIdx
  | .claim read val => read ≤ q.readIdx ∧ read < q.writeIdx ∧
    (read = q.readIdx → val = q.pushed[read]?)
  | .idle | .loadRead _ | .returned _ _ => True

structure Evolves (q q' : SPMCQueue α) : Prop where
  read_le : q.readIdx ≤ q'.readIdx
  write_le : q.writeIdx ≤ q'.writeIdx
  pushed : q.pushed <+: q'.pushed

variable {k : ℕ} {q q' : SPMCQueue α}

theorem wf_init (k : ℕ) : WF k (init (2 ^ k) : SPMCQueue α) where
  capacity := rfl
  buffer_length := List.length_replicate
  pushed_length := rfl
  write_lt := Nat.two_pow_pos 64
  read_le := le_rfl
  write_le := Nat.zero_le _
  stored i _ h := absurd h (Nat.not_lt_zero i)
  popped := rfl

theorem Evolves.refl (q : SPMCQueue α) : Evolves q q := ⟨le_rfl, le_rfl, List.prefix_refl _⟩

theorem WF.popped_length (hw : WF k q) : q.popped.length = q.readIdx := by
  rw [hw.popped, List.length_map, List.length_take, hw.pushed_length]
  exact min_eq_left hw.read_le

theorem WF.unread_eq (hw : WF k q) : q.unread = q.writeIdx - q.readIdx := by
  rw [unread, hw.pushed_length, hw.popped_length]

theorem ConsumerOk.evolves {pc : SPMC.PopPc α} (hw : WF k q) (hc : ConsumerOk q pc)
    (he : Evolves q q') : ConsumerOk q' pc := by
  have hread := he.read_le
  have hwrite := he.write_le
  cases pc with
  | loadWrite read val => exact le_trans hc hread
  | copy read => exact ⟨hc.1.trans hread, hc.2.trans_le hwrite⟩
  | claim read val =>
    obtain ⟨h₁, h₂, h₃⟩ := hc
    refine ⟨h₁.trans hread, h₂.trans_le hwrite, fun hr => ?_⟩
    have hlt : read < q.pushed.length := hw.pushed_length.symm ▸ h₂
    obtain ⟨rest, hrest⟩ := he.pushed
    rw [h₃ (by omega), ← hrest, List.getElem?_append_left hlt]
  | _ => trivial

theorem ProducerOk.popStep {pc : SPMC.PushPc α} {pop pop' : SPMC.PopPc α} (hp : ProducerOk q pc)
    (he : Evolves q q') (h : q.popStep pop = some (q', pop')) : ProducerOk q' pc := by
  have hsame : q'.writeIdx = q.writeIdx ∧ q'.buffer = q.buffer ∧ q'.capacity = q.capacity := by
    cases pop with
    | idle => cases h
    | returned result val => cases h
    | loadRead val => cases h; exact ⟨rfl, rfl, rfl⟩
    | loadWrite read val => cases h; exact ⟨rfl, rfl, rfl⟩
    | copy read => cases h; exact ⟨rfl, rfl, rfl⟩
    | claim read val =>
      simp only [SPMCQueue.popStep] at h
      split_ifs at h
      · cases h; exact ⟨rfl, rfl, rfl⟩
      · cases h; exact ⟨rfl, rfl, rfl⟩
  obtain ⟨hwrite, hbuffer, hcap⟩ := hsame
  have hread := he.read_le
  cases pc with
  | loadRead val write => exact hp.trans hwrite.symm
  | store val write =>
    obtain ⟨h₁, h₂, h₃⟩ := hp
    exact ⟨h₁.trans hwrite.symm, by omega, h₃⟩
  | publish val write =>
    obtain ⟨h₁, h₂, h₃, h₄⟩ := hp
    exact ⟨h₁.trans hwrite.symm, by omega, h₃, by rwa [hbuffer, hcap]⟩
  | _ => trivial

theorem WF.store (hw : WF k q) {val : α} (hlt : q.writeIdx < q.readIdx + q.capacity) :
    WF k { q with buffer := q.buffer.set (slot q.capacity q.writeIdx) (some val) } := by
  have hread := hw.read_le
  rw [hw.capacity] at hlt
  refine { hw with buffer_length := List.length_set.trans hw.buffer_length, stored := ?_ }
  intro i hlo hhi
  simp only at hlo hhi
  have hne : slot q.capacity q.writeIdx ≠ slot q.capacity i := by
    rw [hw.capacity]
    exact slot_ne_of_window q.readIdx hread hlt hlo (by omega) (by omega)
  rw [List.getElem?_set_ne hne]
  exact hw.stored i hlo hhi

/-- The producer advances `_write_idx` behind the value it has stored. -/
theorem WF.publish (hw : WF k q) {val : α} (hlt : q.writeIdx < q.readIdx + q.capacity)
    (hwrap : q.writeIdx + 1 < 2 ^ 64)
    (hst : q.buffer[slot q.capacity q.writeIdx]? = some (some val)) :
    WF k { q with writeIdx := next q.writeIdx, pushed := q.pushed ++ [val] } := by
  have hlen := hw.pushed_length
  have hread := hw.read_le
  rw [hw.capacity] at hlt
  rw [next_eq hwrap]
  constructor
  case capacity => exact hw.capacity
  case buffer_length => exact hw.buffer_length
  case pushed_length => simp [hlen]
  case write_lt => exact hwrap
  case read_le => exact hread.trans (Nat.le_succ _)
  case write_le => exact hlt
  case stored =>
    intro i hlo hhi
    simp only at hlo hhi
    by_cases hi : i = q.writeIdx
    · rw [hi]
      simpa [← hlen] using hst
    · rw [List.getElem?_append_left (by omega)]
      exact hw.stored i hlo (by omega)
  case popped =>
    simp only
    rw [List.take_append_of_le_length (by omega)]
    exact hw.popped

theorem WF.pushStep (hw : WF k q) {pc pc' : SPMC.PushPc α} (hp : ProducerOk q pc)
    (h : q.pushStep pc = some (q', pc')) : WF k q' ∧ ProducerOk q' pc' ∧ Evolves q q' := by
  cases pc with
  | idle => cases h
  | returned result => cases h
  | loadWrite val =>
    cases h
    exact ⟨hw, rfl, Evolves.refl _⟩
  | loadRead val write =>
    cases h
    refine ⟨hw, ?_, Evolves.refl _⟩
    cases hfull : isFull q.capacity q.readIdx write with
    | true => trivial
    | false => exact ⟨hp, lt_of_not_isFull hfull⟩
  | store val write =>
    cases h
    obtain ⟨rfl, hlt, hwrap⟩ := hp
    have hslot : slot q.capacity q.writeIdx < q.buffer.length := by
      rw [hw.buffer_length, hw.capacity]
      exact slot_lt k q.writeIdx
    exact ⟨hw.store hlt, ⟨rfl, hlt, hwrap, List.getElem?_set_self hslot⟩,
      le_rfl, le_rfl, List.prefix_refl _⟩
  | publish val write =>
    cases h
    obtain ⟨rfl, hlt, hwrap, hst⟩ := hp
    refine ⟨hw.publish hlt hwrap hst, trivial, le_rfl, ?_, List.prefix_append _ _⟩
    rw [next_eq hwrap]
    exact Nat.le_succ _

/-- A push is refused only if the queue is full, or if the indices are used up. -/
theorem WF.full (hw : WF k q) {val : α} {write : ℕ} (hp : ProducerOk q (.loadRead val write))
    (h : q.pushStep (.loadRead val write) = some (q', .returned false)) :
    q.unread = 2 ^ k ∨ 2 ^ 64 ≤ q.readIdx + 2 ^ k := by
  obtain rfl : write = q.writeIdx := hp
  have hfull : isFull q.capacity q.readIdx q.writeIdx = true := by
    by_contra hne
    simp [SPMCQueue.pushStep, hne] at h
  have hle := hw.write_le
  rw [isFull, hw.capacity, decide_eq_true_iff] at hfull
  rw [hw.unread_eq]
  by_cases hwrap : q.readIdx + 2 ^ k < 2 ^ 64
  · rw [Nat.mod_eq_of_lt hwrap] at hfull
    left
    rw [le_antisymm hle hfull, Nat.add_sub_cancel_left]
  · exact Or.inr (not_lt.mp hwrap)

theorem WF.claim (hw : WF k q) (hlt : q.readIdx < q.writeIdx) :
    WF k { q with readIdx := next q.readIdx, popped := q.popped ++ [q.pushed[q.readIdx]?] } := by
  have hwrap := hw.write_lt
  have hlen : q.readIdx < q.pushed.length := hw.pushed_length.symm ▸ hlt
  rw [next_eq (by omega)]
  refine { hw with read_le := hlt, write_le := ?_, stored := ?_, popped := ?_ }
  · have := hw.write_le
    simp only
    omega
  · intro i hlo
    exact hw.stored i (Nat.le_of_succ_le hlo)
  · simp only
    rw [List.take_add_one, List.map_append, hw.popped, List.getElem?_eq_getElem hlen]
    rfl

theorem WF.popStep (hw : WF k q) {pc pc' : SPMC.PopPc α} (hc : ConsumerOk q pc)
    (h : q.popStep pc = some (q', pc')) : WF k q' ∧ ConsumerOk q' pc' ∧ Evolves q q' := by
  have hread := hw.read_le
  cases pc with
  | idle => cases h
  | returned result val => cases h
  | loadRead val =>
    cases h
    exact ⟨hw, le_refl q.readIdx, Evolves.refl _⟩
  | loadWrite read val =>
    cases h
    refine ⟨hw, ?_, Evolves.refl _⟩
    have hle : read ≤ q.readIdx := hc
    by_cases hne : read = q.writeIdx
    · rw [if_pos hne]
      trivial
    · rw [if_neg hne]
      exact ⟨hle, lt_of_le_of_ne (hle.trans hread) hne⟩
  | copy read =>
    cases h
    obtain ⟨hle, hlt⟩ := hc
    refine ⟨hw, ⟨hle, hlt, ?_⟩, Evolves.refl _⟩
    rintro rfl
    rw [hw.stored _ le_rfl hlt]
    rfl
  | claim read val =>
    obtain ⟨hle, hlt, hval⟩ := hc
    simp only [SPMCQueue.popStep] at h
    by_cases hr : q.readIdx = read
    · subst hr
      rw [if_pos rfl] at h
      cases h
      obtain rfl := hval rfl
      have hwrap := hw.write_lt
      refine ⟨hw.claim hlt, trivial, ?_, le_rfl, List.prefix_refl _⟩
      rw [next_eq (by omega)]
      exact Nat.le_succ _
    · -- somebody else has claimed the element, and what was copied is dropped
      rw [if_neg hr] at h
      cases h
      exact ⟨hw, le_refl q.readIdx, Evolves.refl _⟩

end SPMCQueue

namespace SPMC

variable {α : Type*}

structure State (α : Type*) where
  queue : SPMCQueue α
  producer : PushPc α
  consumers : List (PopPc α)
deriving DecidableEq, Repr

inductive Act (α : Type*) where
  | push (val : α)
  | producer
  | pop (p : ℕ)
  | consumer (p : ℕ)
deriving DecidableEq, Repr

namespace State

def init (capacity n : ℕ) : State α where
  queue := SPMCQueue.init capacity
  producer := .idle
  consumers := List.replicate n .idle

def step (s : State α) : Act α → Option (State α)
  | .push val =>
    match s.producer with
    | .idle | .returned _ => some { s with producer := .loadWrite val }
    | _ => none
  | .producer =>
    (s.queue.pushStep s.producer).map fun r => { s with queue := r.1, producer := r.2 }
  | .pop p =>
    match s.consumers[p]? with
    | some .idle | some (.returned _ _) =>
      some { s with consumers := s.consumers.set p (.loadRead none) }
    | _ => none
  | .consumer p =>
    (s.consumers[p]?).bind fun pc => (s.queue.popStep pc).map fun r =>
      { s with queue := r.1, consumers := s.consumers.set p r.2 }

structure Inv (k : ℕ) (s : State α) : Prop where
  wf : s.queue.WF k
  producer : s.queue.ProducerOk s.producer
  consumers : ∀ pc ∈ s.consumers, s.queue.ConsumerOk pc

variable {k p : ℕ} {s s' : State α}

theorem inv_init (k n : ℕ) : Inv k (init (2 ^ k) n : State α) where
  wf := SPMCQueue.wf_init k
  producer := trivial
  consumers pc h := by rw [List.eq_of_mem_replicate h]; trivial

theorem Inv.pop (hi : Inv k s) : Inv k { s with consumers := s.consumers.set p (.loadRead none) } := by
  refine { hi with consumers := fun pc hpc => ?_ }
  rcases List.mem_or_eq_of_mem_set hpc with hpc | rfl
  · exact hi.consumers pc hpc
  · trivial

theorem Inv.step (hi : Inv k s) {a : Act α} (h : s.step a = some s') : Inv k s' := by
  cases a with
  | push val =>
    simp only [State.step] at h
    split at h
    case h_1 => exact Option.some.inj h ▸ { hi with producer := trivial }
    case h_2 => exact Option.some.inj h ▸ { hi with producer := trivial }
    case h_3 => cases h
  | producer =>
    obtain ⟨⟨q', pc'⟩, hpush, rfl⟩ := Option.map_eq_some_iff.mp h
    obtain ⟨hw, hp, he⟩ := hi.wf.pushStep hi.producer hpush
    exact ⟨hw, hp, fun pc hpc => (hi.consumers pc hpc).evolves hi.wf he⟩
  | pop p =>
    simp only [State.step] at h
    split at h
    case h_1 => exact Option.some.inj h ▸ hi.pop
    case h_2 => exact Option.some.inj h ▸ hi.pop
    case h_3 => cases h
  | consumer p =>
    obtain ⟨pc, hpc, h⟩ := Option.bind_eq_some_iff.mp h
    obtain ⟨⟨q', pc'⟩, hpop, rfl⟩ := Option.map_eq_some_iff.mp h
    obtain ⟨hw, hc, he⟩ := hi.wf.popStep (hi.consumers pc (mem_of_getElem? hpc)) hpop
    refine ⟨hw, hi.producer.popStep he hpop, fun r hr => ?_⟩
    rcases List.mem_or_eq_of_mem_set hr with hr | rfl
    · exact (hi.consumers r hr).evolves hi.wf he
    · exact hc

/-- What the pops have returned are the first of the pushed values; and a push is refused only when
`capacity` elements are unread as it loads `_read_idx`, or when the sum of that and the capacity
is beyond 64 bits. -/
theorem pops_pushed_order (k n : ℕ) (as : List (Act α)) (s : State α)
    (h : run step (init (2 ^ k) n) as = some s) :
    (s.queue.popped <+: s.queue.pushed.map some ∧
      ∀ (p : ℕ) (s' : State α) (val : Option α), s.step (.consumer p) = some s' →
        s'.consumers[p]? = some (.returned true val) →
          s'.queue.popped = s.queue.popped ++ [val]) ∧
      ∀ (val : α) (write : ℕ) (s' : State α), s.producer = .loadRead val write →
        s.step .producer = some s' → s'.producer = .returned false →
          s.queue.unread = 2 ^ k ∨ 2 ^ 64 ≤ s.queue.readIdx + 2 ^ k := by
  have hi : Inv k s := run_invariant (fun _ _ _ hi h => hi.step h) (inv_init k n) h
  refine ⟨⟨?_, ?_⟩, ?_⟩
  · rw [hi.wf.popped, List.map_take]
    exact List.take_prefix _ _
  · intro p s' val hstep hret
    obtain ⟨pc, hpc, hstep⟩ := Option.bind_eq_some_iff.mp hstep
    obtain ⟨⟨q', pc'⟩, hpop, rfl⟩ := Option.map_eq_some_iff.mp hstep
    simp only at hret
    rw [List.getElem?_set_self (List.getElem?_eq_some_iff.mp hpc).1] at hret
    obtain rfl := Option.some.inj hret
    cases pc with
    | claim read v =>
      simp only [SPMCQueue.popStep] at hpop
      split_ifs at hpop <;> cases hpop
      rfl
    | loadWrite read v =>
      simp only [SPMCQueue.popStep] at hpop
      split_ifs at hpop <;> cases hpop
    | _ => cases hpop
  · intro val write s' hp hstep hret
    have hprod := hi.producer
    rw [hp] at hprod
    obtain ⟨⟨q', pc'⟩, hpush, rfl⟩ := Option.map_eq_some_iff.mp hstep
    rw [hp] at hpush
    obtain rfl : pc' = .returned false := hret
    exact hi.wf.full hprod hpush

theorem pops_pushed_order_two :
    ∃ s, run step (init 2 2) [.push 10, .producer, .producer, .producer, .producer,
        .push 20, .producer, .producer, .producer, .producer, .pop 0, .pop 1,
        .consumer 0, .consumer 1, .consumer 0, .consumer 1, .consumer 0, .consumer 1,
        .consumer 0, .consumer 1, .consumer 1, .consumer 1, .consumer 1] = some s ∧
      s.queue.popped = [some 10, some 20] ∧ s.queue.popped <+: s.queue.pushed.map some := by
  have hr : run step (init 2 2) [Act.push 10, .producer, .producer, .producer, .producer,
        .push 20, .producer, .producer, .producer, .producer, .pop 0, .pop 1,
        .consumer 0, .consumer 1, .consumer 0, .consumer 1, .consumer 0, .consumer 1,
        .consumer 0, .consumer 1, .consumer 1, .consumer 1, .consumer 1] = some
      ⟨⟨2, [some 10, some 20], 2, 2, [10, 20], [some 10, some 20]⟩, .returned true,
        [.returned true (some 10), .returned true (some 20)]⟩ := by decide +kernel
  exact ⟨_, hr, rfl, (pops_pushed_order 1 2 _ _ hr).1.1⟩

def round : List (Act Unit) :=
  [.push (), .producer, .producer, .producer, .producer, .pop 0, .consumer 0, .consumer 0,
    .consumer 0, .consumer 0]

def afterRounds (r : ℕ) : State Unit where
  queue :=
    { capacity := 1, buffer := [some ()], readIdx := r, writeIdx := r
      pushed := List.replicate r (), popped := List.replicate r (some ()) }
  producer := .returned true
  consumers := [.returned true (some ())]

theorem run_round {r : ℕ} (hr : r + 1 < 2 ^ 64) :
    run step (afterRounds r) round = some (afterRounds (r + 1)) := by
  have hfull : isFull 1 r r = false := by
    rw [isFull, Nat.mod_eq_of_lt hr]
    simp
  have hslot : slot 1 r = 0 := Nat.and_zero r
  simp [run, round, step, afterRounds, SPMCQueue.pushStep, SPMCQueue.popStep, hfull, hslot,
    next_eq hr, List.replicate_succ']

theorem exists_run_afterRounds (r : ℕ) (hr : r + 1 < 2 ^ 64) :
    ∃ as, run step (init 1 1) as = some (afterRounds (r + 1)) := by
  induction r with
  | zero => exact ⟨round, by decide +kernel⟩
  | succ r ih =>
    obtain ⟨as, has⟩ := ih (by omega)
    exact ⟨as ++ round, by rw [run_append, has, Option.bind_some, run_round hr]⟩

/-- After 2^64 - 1 rounds through a queue of capacity one a push is refused although no
element is unread. -/
theorem push_refused_at_wrap :
    ∃ as s s' write, run step (init 1 1) as = some s ∧ s.producer = .loadRead () write ∧
      s.queue.unread = 0 ∧ s.step .producer = some s' ∧ s'.producer = .returned false := by
  obtain ⟨r, hr⟩ : ∃ r, r + 1 + 1 = 2 ^ 64 := ⟨2 ^ 64 - 2, by norm_num⟩
  obtain ⟨as, has⟩ := exists_run_afterRounds r (by omega)
  have hfull : isFull 1 (r + 1) (r + 1) = true := by
    rw [isFull, hr, Nat.mod_self]
    simp
  have hpush : run step (afterRounds (r + 1)) [.push (), .producer] =
      some { afterRounds (r + 1) with producer := .loadRead () (r + 1) } := rfl
  refine ⟨as ++ [.push (), .producer], { afterRounds (r + 1) with
      producer := .loadRead () (r + 1) }, { afterRounds (r + 1) with
      producer := .returned false }, r + 1, ?_, rfl, ?_, ?_, rfl⟩
  · rw [run_append, has, Option.bind_some, hpush]
  · simp only [SPMCQueue.unread, afterRounds, List.length_replicate, Nat.sub_self]
  · simp only [step, SPMCQueue.pushStep, afterRounds, hfull, if_true, Option.map_some]

end State

end SPMC

end SofaBolt
