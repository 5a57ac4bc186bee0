import SofaBolt.Memory

/- A `shared_ptr<Block>` is the number of the block; blocks are numbered in the order
`createBlock` makes them. A loop over a chain gets one round for every block there is and
one more, and `none` says that these were not enough, which happens on a cyclic chain only. -/

namespace SofaBolt

abbrev Bytes := List UInt8
abbrev BlockId := ℕ
abbrev ThreadId := ℕ

structure Block where
  next : Option BlockId
  size : ℕ
  capacity : ℕ
  data : ℕ → UInt8

def Block.freeSpace (b : Block) : ℕ := b.capacity - b.size

def bufferDefaultBlockSize : ℕ := 8192

def blockDataOffset : ℕ := 24

structure Heap where
  block : BlockId → Block
  fresh : BlockId
  tlsBlockChain : ThreadId → Option BlockId

namespace Heap

def init (memory : BlockId → Block) : Heap :=
  { block := memory, fresh := 0, tlsBlockChain := fun _ => none }

def setBlock (h : Heap) (b : BlockId) (blk : Block) : Heap :=
  { h with block := Function.update h.block b blk }

def setChain (h : Heap) (t : ThreadId) (c : Option BlockId) : Heap :=
  { h with tlsBlockChain := Function.update h.tlsBlockChain t c }

def createBlock (h : Heap) (size : ℕ) : Heap × BlockId :=
  ({ h with
      block := Function.update h.block h.fresh
        { h.block h.fresh with next := none, size := 0, capacity := size - blockDataOffset }
      fresh := h.fresh + 1 }, h.fresh)

/-- `while (s_tls_block_chain)`: heads without free space are dropped. -/
def dropFullBlocks (h : Heap) (t : ThreadId) : ℕ → Option Heap
  | 0 => none
  | fuel + 1 =>
    match h.tlsBlockChain t with
    | none => some h
    | some b =>
      if 0 < (h.block b).freeSpace then some h
      else (h.setChain t (h.block b).next).dropFullBlocks t fuel

def shareBlockFromTLSChain (h : Heap) (t : ThreadId) : Option (Heap × BlockId) := do
  let h ← h.dropFullBlocks t (h.fresh + 1)
  match h.tlsBlockChain t with
  | some b => some (h, b)
  | none =>
    let (h, b) := h.createBlock bufferDefaultBlockSize
    some (h.setChain t (some b), b)

def releaseBlockToTLSChain (h : Heap) (t : ThreadId) (b : BlockId) : Heap :=
  if (h.block b).freeSpace = 0 then h
  else (h.setBlock b { h.block b with next := h.tlsBlockChain t }).setChain t (some b)

def acquireBlockFromTLSChain (h : Heap) (t : ThreadId) : Option (Heap × BlockId) := do
  let h ← h.dropFullBlocks t (h.fresh + 1)
  match h.tlsBlockChain t with
  | some b =>
    let h := h.setChain t (h.block b).next
    some (h.setBlock b { h.block b with next := none }, b)
  | none => some (h.createBlock bufferDefaultBlockSize)

/-- What every operation of the buffer keeps: a block never outgrows its
memory, a chain is a single block without successor, and no block is in two
chains. -/
structure WF (h : Heap) : Prop where
  capacity_eq : ∀ b < h.fresh, (h.block b).capacity = bufferDefaultBlockSize - blockDataOffset
  size_le : ∀ b < h.fresh, (h.block b).size ≤ (h.block b).capacity
  chain_lt : ∀ t b, h.tlsBlockChain t = some b → b < h.fresh
  chain_next : ∀ t b, h.tlsBlockChain t = some b → (h.block b).next = none
  chain_inj : ∀ t t' b, h.tlsBlockChain t = some b → h.tlsBlockChain t' = some b → t = t'

theorem wf_init (memory : BlockId → Block) : (init memory).WF :=
  ⟨by simp [init], by simp [init], by simp [init], by simp [init], by simp [init]⟩

structure Grows (h h' : Heap) : Prop where
  fresh_le : h.fresh ≤ h'.fresh
  size_le : ∀ b < h.fresh, (h.block b).size ≤ (h'.block b).size
  data_eq : ∀ b < h.fresh, ∀ i < (h.block b).size, (h'.block b).data i = (h.block b).data i

theorem Grows.refl (h : Heap) : h.Grows h := ⟨le_rfl, fun _ _ => le_rfl, fun _ _ _ _ => rfl⟩

theorem Grows.trans {h₁ h₂ h₃ : Heap} (h : h₁.Grows h₂) (h' : h₂.Grows h₃) : h₁.Grows h₃ where
  fresh_le := h.fresh_le.trans h'.fresh_le
  size_le b hb := (h.size_le b hb).trans (h'.size_le b (hb.trans_le h.fresh_le))
  data_eq b hb i hi := by
    rw [h'.data_eq b (hb.trans_le h.fresh_le) i (hi.trans_le (h.size_le b hb)), h.data_eq b hb i hi]

def Detached (h : Heap) (b : BlockId) : Prop := b < h.fresh ∧ ∀ t, h.tlsBlockChain t ≠ some b

@[simp] theorem setBlock_block_self (h : Heap) (b : BlockId) (blk : Block) :
    (h.setBlock b blk).block b = blk := Function.update_self ..

theorem setBlock_block_of_ne (h : Heap) {b c : BlockId} (blk : Block) (hc : c ≠ b) :
    (h.setBlock b blk).block c = h.block c := Function.update_of_ne hc ..

@[simp] theorem setBlock_fresh (h : Heap) (b : BlockId) (blk : Block) :
    (h.setBlock b blk).fresh = h.fresh := rfl

@[simp] theorem setBlock_chain (h : Heap) (b : BlockId) (blk : Block) :
    (h.setBlock b blk).tlsBlockChain = h.tlsBlockChain := rfl

@[simp] theorem setChain_block (h : Heap) (t : ThreadId) (c : Option BlockId) :
    (h.setChain t c).block = h.block := rfl

@[simp] theorem setChain_fresh (h : Heap) (t : ThreadId) (c : Option BlockId) :
    (h.setChain t c).fresh = h.fresh := rfl

@[simp] theorem setChain_chain_self (h : Heap) (t : ThreadId) (c : Option BlockId) :
    (h.setChain t c).tlsBlockChain t = c := Function.update_self ..

theorem setChain_chain_of_ne (h : Heap) {t t' : ThreadId} (c : Option BlockId) (ht : t' ≠ t) :
    (h.setChain t c).tlsBlockChain t' = h.tlsBlockChain t' := Function.update_of_ne ht ..

theorem grows_setBlock (h : Heap) (b : BlockId) (blk : Block) (hs : (h.block b).size ≤ blk.size)
    (hd : ∀ i < (h.block b).size, blk.data i = (h.block b).data i) : h.Grows (h.setBlock b blk) where
  fresh_le := le_rfl
  size_le c _ := by
    by_cases hc : c = b
    · subst hc; simpa using hs
    · rw [setBlock_block_of_ne _ _ hc]
  data_eq c _ i hi := by
    by_cases hc : c = b
    · subst hc; simpa using hd i hi
    · rw [setBlock_block_of_ne _ _ hc]

/-- Replacing a block by one that fits its memory; a chained block stays last. -/
theorem WF.setBlock {h : Heap} (hw : h.WF) {b : BlockId} {blk : Block}
    (hcap : blk.capacity = (h.block b).capacity) (hs : blk.size ≤ blk.capacity)
    (hn : ∀ t, h.tlsBlockChain t = some b → blk.next = none) : (h.setBlock b blk).WF where
  capacity_eq c hc := by
    by_cases e : c = b
    · subst e; simpa [hcap] using hw.capacity_eq c hc
    · simpa [setBlock_block_of_ne _ _ e] using hw.capacity_eq c hc
  size_le c hc := by
    by_cases e : c = b
    · subst e; simpa using hs
    · simpa [setBlock_block_of_ne _ _ e] using hw.size_le c hc
  chain_lt := hw.chain_lt
  chain_next t c hc := by
    by_cases e : c = b
    · subst e; simpa using hn t hc
    · simpa [setBlock_block_of_ne _ _ e] using hw.chain_next t c hc
  chain_inj := hw.chain_inj

theorem WF.shrink {h : Heap} (hw : h.WF) (b : BlockId) {n : ℕ} (hn : n ≤ (h.block b).size) :
    (h.setBlock b { h.block b with size := n }).WF where
  capacity_eq c hc := by
    by_cases e : c = b
    · subst e; simpa using hw.capacity_eq c hc
    · simpa [setBlock_block_of_ne _ _ e] using hw.capacity_eq c hc
  size_le c hc := by
    by_cases e : c = b
    · subst e; simpa using hn.trans (hw.size_le c hc)
    · simpa [setBlock_block_of_ne _ _ e] using hw.size_le c hc
  chain_lt := hw.chain_lt
  chain_next t c hc := by
    by_cases e : c = b
    · subst e; simpa using hw.chain_next t c hc
    · simpa [setBlock_block_of_ne _ _ e] using hw.chain_next t c hc
  chain_inj := hw.chain_inj

/-- Emptying a chain, or making it one block that no other chain has. -/
theorem WF.setChain {h : Heap} (hw : h.WF) (t : ThreadId) {c : Option BlockId}
    (hc : ∀ b, c = some b → b < h.fresh ∧ (h.block b).next = none ∧
      ∀ t', t' ≠ t → h.tlsBlockChain t' ≠ some b) : (h.setChain t c).WF where
  capacity_eq := hw.capacity_eq
  size_le := hw.size_le
  chain_lt t' b hb := by
    by_cases e : t' = t
    · subst e; exact (hc b (by simpa using hb)).1
    · exact hw.chain_lt t' b (by rwa [setChain_chain_of_ne _ _ e] at hb)
  chain_next t' b hb := by
    by_cases e : t' = t
    · subst e; exact (hc b (by simpa using hb)).2.1
    · exact hw.chain_next t' b (by rwa [setChain_chain_of_ne _ _ e] at hb)
  chain_inj t₁ t₂ b h₁ h₂ := by
    by_cases e₁ : t₁ = t <;> by_cases e₂ : t₂ = t
    · rw [e₁, e₂]
    · subst e₁
      rw [setChain_chain_of_ne _ _ e₂] at h₂
      exact absurd h₂ ((hc b (by simpa using h₁)).2.2 t₂ e₂)
    · subst e₂
      rw [setChain_chain_of_ne _ _ e₁] at h₁
      exact absurd h₁ ((hc b (by simpa using h₂)).2.2 t₁ e₁)
    · rw [setChain_chain_of_ne _ _ e₁] at h₁
      rw [setChain_chain_of_ne _ _ e₂] at h₂
      exact hw.chain_inj t₁ t₂ b h₁ h₂

theorem grows_setChain (h : Heap) (t : ThreadId) (c : Option BlockId) :
    h.Grows (h.setChain t c) := ⟨le_rfl, fun _ _ => le_rfl, fun _ _ _ _ => rfl⟩

/-- A block created with the default size is empty and in no chain. -/
theorem createBlock_spec {h : Heap} (hw : h.WF) :
    let r := h.createBlock bufferDefaultBlockSize
    r.1.WF ∧ h.Grows r.1 ∧ r.1.tlsBlockChain = h.tlsBlockChain ∧ r.1.Detached r.2 ∧
      (r.1.block r.2).next = none ∧
      (r.1.block r.2).freeSpace = bufferDefaultBlockSize - blockDataOffset ∧
      ∀ b < h.fresh, b ≠ r.2 ∧ b < r.1.fresh ∧ r.1.block b = h.block b := by
  have hold : ∀ b < h.fresh, (h.createBlock bufferDefaultBlockSize).1.block b = h.block b := by
    intro b hb
    exact Function.update_of_ne (Nat.ne_of_lt hb) ..
  have hnew : (h.createBlock bufferDefaultBlockSize).1.block h.fresh =
      { h.block h.fresh with
        next := none, size := 0, capacity := bufferDefaultBlockSize - blockDataOffset } :=
    Function.update_self ..
  have hlt : ∀ b, b < (h.createBlock bufferDefaultBlockSize).1.fresh → b < h.fresh ∨ b = h.fresh := by
    intro b hb
    exact Nat.lt_succ_iff_lt_or_eq.mp hb
  refine ⟨⟨?_, ?_, ?_, ?_, hw.chain_inj⟩, ⟨Nat.le_succ _, ?_, ?_⟩, rfl, ⟨Nat.lt_succ_self _, ?_⟩,
    ?_, ?_, ?_⟩
  · intro b hb
    rcases hlt b hb with hb | rfl
    · rw [hold b hb]; exact hw.capacity_eq b hb
    · rw [hnew]
  · intro b hb
    rcases hlt b hb with hb | rfl
    · rw [hold b hb]; exact hw.size_le b hb
    · rw [hnew]; exact Nat.zero_le _
  · intro t b hb
    exact (hw.chain_lt t b hb).trans (Nat.lt_succ_self _)
  · intro t b hb
    rw [hold b (hw.chain_lt t b hb)]
    exact hw.chain_next t b hb
  · intro b hb; rw [hold b hb]
  · intro b hb i _; rw [hold b hb]
  · intro t ht
    exact (lt_irrefl _ (hw.chain_lt t _ ht))
  · exact congrArg Block.next hnew
  · change ((h.createBlock bufferDefaultBlockSize).1.block h.fresh).freeSpace = _
    rw [hnew]
    rfl
  · intro b hb
    exact ⟨Nat.ne_of_lt hb, Nat.lt_succ_of_lt hb, hold b hb⟩

/-- The loop over the chain ends: at most its only block is dropped. -/
theorem dropFullBlocks_spec {h : Heap} (hw : h.WF) (t : ThreadId) :
    ∃ c, h.dropFullBlocks t (h.fresh + 1) = some (h.setChain t c) ∧
      ∀ b, c = some b → h.tlsBlockChain t = some b ∧ 0 < (h.block b).freeSpace := by
  cases hc : h.tlsBlockChain t with
  | none =>
    refine ⟨none, ?_, by simp⟩
    have he : h.setChain t none = h := by
      simp only [setChain, ← hc, Function.update_eq_self]
    rw [dropFullBlocks, hc, he]
  | some b =>
    by_cases hf : 0 < (h.block b).freeSpace
    · refine ⟨some b, ?_, by rintro b' ⟨⟩; exact ⟨rfl, hf⟩⟩
      have he : h.setChain t (some b) = h := by
        simp only [setChain, ← hc, Function.update_eq_self]
      rw [dropFullBlocks, hc, he]
      exact if_pos hf
    · refine ⟨none, ?_, by simp⟩
      obtain ⟨k, hk⟩ : ∃ k, h.fresh = k + 1 :=
        Nat.exists_eq_succ_of_ne_zero (Nat.ne_of_gt (Nat.zero_lt_of_lt (hw.chain_lt t b hc)))
      rw [dropFullBlocks, hc, hk]
      simp only [if_neg hf, hw.chain_next t b hc]
      rw [dropFullBlocks, setChain_chain_self]

theorem shareBlockFromTLSChain_of_free {h : Heap} {t : ThreadId} {b : BlockId}
    (hc : h.tlsBlockChain t = some b) (hf : 0 < (h.block b).freeSpace) :
    h.shareBlockFromTLSChain t = some (h, b) := by
  simp [shareBlockFromTLSChain, dropFullBlocks, hc, hf]

theorem shareBlockFromTLSChain_spec {h : Heap} (hw : h.WF) (t : ThreadId) :
    ∃ h' b, h.shareBlockFromTLSChain t = some (h', b) ∧ h'.WF ∧ h.Grows h' ∧
      h'.tlsBlockChain t = some b ∧ b < h'.fresh ∧ 0 < (h'.block b).freeSpace := by
  obtain ⟨c, hd, hc⟩ := dropFullBlocks_spec hw t
  cases c with
  | some b =>
    obtain ⟨hb, hf⟩ := hc b rfl
    refine ⟨h.setChain t (some b), b, ?_, ?_, grows_setChain .., by simp, hw.chain_lt t b hb, hf⟩
    · simp [shareBlockFromTLSChain, hd]
    · refine hw.setChain t ?_
      rintro b' ⟨⟩
      exact ⟨hw.chain_lt t b hb, hw.chain_next t b hb,
        fun t' ht' h' => ht' (hw.chain_inj t' t b h' hb)⟩
  | none =>
    have hw₁ : (h.setChain t none).WF := hw.setChain t (by simp)
    obtain ⟨hw₂, hg, hch, hdet, hnext, hfree, -⟩ := createBlock_spec hw₁
    refine ⟨_, _, ?_, hw₂.setChain t (c := some _) ?_, ((grows_setChain ..).trans hg).trans
      (grows_setChain ..), setChain_chain_self .., hdet.1, ?_⟩
    · simp [shareBlockFromTLSChain, hd]
    · rintro b' ⟨⟩
      exact ⟨hdet.1, hnext, fun t' _ => hdet.2 t'⟩
    · rw [setChain_block, hfree]
      decide

theorem acquireBlockFromTLSChain_spec {h : Heap} (hw : h.WF) (t : ThreadId) :
    ∃ h' b, h.acquireBlockFromTLSChain t = some (h', b) ∧ h'.WF ∧ h.Grows h' ∧
      h'.tlsBlockChain t = none ∧ h'.Detached b ∧ (h'.block b).next = none ∧
      0 < (h'.block b).freeSpace ∧
      (h.tlsBlockChain t = none →
        (h'.block b).freeSpace = bufferDefaultBlockSize - blockDataOffset) ∧
      ∀ x, h.Detached x → x ≠ b ∧ h'.Detached x ∧ h'.block x = h.block x := by
  obtain ⟨c, hd, hc⟩ := dropFullBlocks_spec hw t
  have hw₁ : (h.setChain t none).WF := hw.setChain t (by simp)
  have hdet₁ : ∀ x, h.Detached x → (h.setChain t none).Detached x := by
    intro x hx
    refine ⟨hx.1, fun t' => ?_⟩
    by_cases e : t' = t
    · subst e; simp
    · rw [setChain_chain_of_ne _ _ e]; exact hx.2 t'
  cases c with
  | some b =>
    obtain ⟨hb, hf⟩ := hc b rfl
    have hnext := hw.chain_next t b hb
    have he : (h.setChain t none).setBlock b { h.block b with next := none } =
        h.setChain t none := by
      have : { h.block b with next := none } = h.block b := by rw [← hnext]
      rw [this]
      simp only [setBlock, setChain_block, Function.update_eq_self]
      rfl
    refine ⟨h.setChain t none, b, ?_, hw₁, grows_setChain .., setChain_chain_self ..,
      ⟨hw.chain_lt t b hb, fun t' => ?_⟩, hnext, hf, by simp [hb], fun x hx => ?_⟩
    · simp only [acquireBlockFromTLSChain, hd, Option.bind_eq_bind, Option.bind_some,
        setChain_chain_self, setChain_block, hnext]
      have hs : (h.setChain t (some b)).setChain t none = h.setChain t none := by
        simp [setChain]
      rw [hs, he]
    · by_cases e : t' = t
      · subst e; simp
      · rw [setChain_chain_of_ne _ _ e]
        exact fun h' => e (hw.chain_inj t' t b h' hb)
    · exact ⟨fun e => hx.2 t (e ▸ hb), hdet₁ x hx, rfl⟩
  | none =>
    obtain ⟨hw₂, hg, hch, hdet, hnext, hfree, hold⟩ := createBlock_spec hw₁
    refine ⟨_, _, ?_, hw₂, (grows_setChain ..).trans hg, ?_, hdet, hnext, ?_, fun _ => hfree,
      fun x hx => ?_⟩
    · simp [acquireBlockFromTLSChain, hd]
    · rw [hch, setChain_chain_self]
    · rw [hfree]; decide
    · obtain ⟨hne, hlt, heq⟩ := hold x hx.1
      refine ⟨hne, ⟨hlt, fun t' => ?_⟩, heq⟩
      rw [hch]
      exact (hdet₁ x hx).2 t'

end Heap

end SofaBolt
