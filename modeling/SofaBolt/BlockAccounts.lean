import SofaBolt.BlockChains

namespace SofaBolt

open IOBuffer Run

def weight (b : BlockId) (l : List Slice) : ℕ :=
  (l.map fun s => if s.block = b then s.length else 0).sum

@[simp] theorem weight_nil (b : BlockId) : weight b [] = 0 := rfl

@[simp] theorem weight_cons (b : BlockId) (s : Slice) (l : List Slice) :
    weight b (s :: l) = (if s.block = b then s.length else 0) + weight b l := rfl

@[simp] theorem weight_append (b : BlockId) (l l' : List Slice) :
    weight b (l ++ l') = weight b l + weight b l' := by
  simp [weight]

@[simp] theorem weight_reverse (b : BlockId) (l : List Slice) :
    weight b l.reverse = weight b l := by
  rw [weight, weight, List.map_reverse, List.sum_reverse]

def Heap.used (h : Heap) (b : BlockId) : ℕ := if b < h.fresh then (h.block b).size else 0

def Balanced (h : Heap) (ref : List Slice) (h' : Heap) (ref' : List Slice) : Prop :=
  ∀ b, weight b ref' + h.used b = weight b ref + h'.used b

namespace Balanced

variable {h h₁ h₂ : Heap} {ref ref₁ ref₂ : List Slice}

theorem trans (h₁₂ : Balanced h ref h₁ ref₁) (h₂₃ : Balanced h₁ ref₁ h₂ ref₂) :
    Balanced h ref h₂ ref₂ := by
  intro b
  have e₁ := h₁₂ b
  have e₂ := h₂₃ b
  omega

theorem refl (h : Heap) (ref : List Slice) : Balanced h ref h ref := fun _ => rfl

theorem of_used (hu : h₁.used = h.used) (ref : List Slice) : Balanced h ref h₁ ref := by
  intro b
  rw [hu]

end Balanced

namespace Heap

variable {h : Heap}

theorem used_setBlock {b : BlockId} (hlt : b < h.fresh) (blk : Block) (c : BlockId) :
    (h.setBlock b blk).used c = if c = b then blk.size else h.used c := by
  unfold used
  by_cases hc : c = b
  · subst hc
    simp [hlt]
  · simp [hc, setBlock_block_of_ne]

theorem used_shrink {b : BlockId} {k : ℕ} (hk : k ≤ h.used b) (c : BlockId) :
    (h.setBlock b { h.block b with size := (h.block b).size - k }).used c =
      if c = b then h.used b - k else h.used c := by
  unfold used at hk ⊢
  by_cases hc : c = b
  · subst hc
    simp only [setBlock_block_self, setBlock_fresh, if_pos]
    split_ifs <;> omega
  · simp [hc, setBlock_block_of_ne]

theorem used_setBlock_same (h : Heap) (b : BlockId) (blk : Block)
    (hs : blk.size = (h.block b).size) : (h.setBlock b blk).used = h.used := by
  funext c
  unfold used
  by_cases hc : c = b
  · subst hc
    simp [hs]
  · simp [setBlock_block_of_ne _ _ hc]

theorem used_createBlock (h : Heap) (n : ℕ) : (h.createBlock n).1.used = h.used := by
  funext c
  unfold used createBlock
  by_cases hc : c = h.fresh
  · subst hc
    simp
  · have hlt : c < h.fresh + 1 ↔ c < h.fresh :=
      ⟨fun hlt => lt_of_le_of_ne (Nat.lt_succ_iff.mp hlt) hc, Nat.lt_succ_of_lt⟩
    simp [Function.update_of_ne hc, hlt]

theorem used_dropFullBlocks {h' : Heap} {t : ThreadId} {fuel : ℕ}
    (hd : h.dropFullBlocks t fuel = some h') : h'.used = h.used := by
  induction fuel generalizing h with
  | zero => simp [dropFullBlocks] at hd
  | succ fuel ih =>
    unfold dropFullBlocks at hd
    split at hd
    · exact Option.some.inj hd ▸ rfl
    · split_ifs at hd
      · exact Option.some.inj hd ▸ rfl
      · have hrec := ih hd
        exact hrec

theorem used_shareBlockFromTLSChain {h' : Heap} {t : ThreadId} {b : BlockId}
    (hs : h.shareBlockFromTLSChain t = some (h', b)) : h'.used = h.used := by
  obtain ⟨h₁, hd, hs⟩ := Option.bind_eq_some_iff.mp hs
  rw [← used_dropFullBlocks hd]
  split at hs
  · exact (Prod.mk.inj (Option.some.inj hs)).1 ▸ rfl
  · obtain ⟨rfl, -⟩ := Prod.mk.inj (Option.some.inj hs)
    exact h₁.used_createBlock _

theorem used_acquireBlockFromTLSChain {h' : Heap} {t : ThreadId} {b : BlockId}
    (ha : h.acquireBlockFromTLSChain t = some (h', b)) : h'.used = h.used := by
  obtain ⟨h₁, hd, ha⟩ := Option.bind_eq_some_iff.mp ha
  rw [← used_dropFullBlocks hd]
  split at ha
  · obtain ⟨rfl, -⟩ := Prod.mk.inj (Option.some.inj ha)
    exact used_setBlock_same _ _ _ rfl
  · obtain ⟨rfl, -⟩ := Prod.mk.inj (Option.some.inj ha)
    exact h₁.used_createBlock _

end Heap

namespace Balanced

variable {h : Heap} {b : BlockId} {ref ref' : List Slice} {k : ℕ}

theorem grow {blk : Block} (hlt : b < h.fresh) (hsize : blk.size = (h.block b).size + k)
    (hw : ∀ c, weight c ref' = weight c ref + if b = c then k else 0) :
    Balanced h ref (h.setBlock b blk) ref' := by
  intro c
  rw [Heap.used_setBlock hlt, hw]
  by_cases hc : c = b
  · subst hc
    simp only [if_pos, Heap.used, hlt, hsize]
    omega
  · simp [hc, Ne.symm hc]

theorem shrink (hk : k ≤ h.used b)
    (hw : ∀ c, weight c ref = weight c ref' + if b = c then k else 0) :
    Balanced h ref (h.setBlock b { h.block b with size := (h.block b).size - k }) ref' := by
  intro c
  rw [Heap.used_shrink hk, hw]
  by_cases hc : c = b
  · subst hc
    simp only [if_pos]
    omega
  · simp [hc, Ne.symm hc]

end Balanced

namespace IOBuffer

variable {h h' : Heap} {t : ThreadId}

theorem used_linkTail (tail : Option BlockId) (b : BlockId) : (linkTail h tail b).used = h.used := by
  cases tail with
  | none => rfl
  | some k => exact h.used_setBlock_same k _ rfl

theorem used_acquireVectors {maxSize left space : ℕ} {tail : Option BlockId} {vec : List Iovec}
    (ha : acquireVectors t maxSize left h space tail = some (h', vec)) : h'.used = h.used := by
  induction left generalizing h space tail vec with
  | zero => exact (Prod.mk.inj (Option.some.inj ha)).1 ▸ rfl
  | succ left ih =>
    obtain ⟨⟨h₁, b⟩, hacq, ha⟩ := Option.bind_eq_some_iff.mp ha
    have hlink : (linkTail h₁ tail b).used = h.used :=
      (used_linkTail tail b).trans (Heap.used_acquireBlockFromTLSChain hacq)
    dsimp only at ha
    split_ifs at ha
    · exact (Prod.mk.inj (Option.some.inj ha)).1 ▸ hlink
    · obtain ⟨⟨h₂, vec'⟩, hrec, ha⟩ := Option.bind_eq_some_iff.mp ha
      obtain ⟨rfl, -⟩ := Prod.mk.inj (Option.some.inj ha)
      exact (ih hrec).trans hlink

theorem used_scatter (vec : List Iovec) (h : Heap) (bs : Bytes) :
    (scatter vec h bs).used = h.used := by
  induction vec generalizing h bs with
  | nil => rfl
  | cons v vec ih =>
    rw [scatter, ih]
    exact h.used_setBlock_same _ _ rfl

theorem used_releaseBlocks {fuel : ℕ} {head : Option BlockId}
    (hr : releaseBlocks t fuel h head = some h') : h'.used = h.used := by
  induction fuel generalizing h head with
  | zero =>
    cases head with
    | none => exact Option.some.inj hr ▸ rfl
    | some b => simp [releaseBlocks] at hr
  | succ fuel ih =>
    cases head with
    | none => exact Option.some.inj hr ▸ rfl
    | some b =>
      rw [ih hr, Heap.releaseBlockToTLSChain]
      split_ifs
      · rfl
      · exact h.used_setBlock_same b _ rfl

theorem weight_extend (buf : IOBuffer) (b : BlockId) (size n : ℕ) (c : BlockId) :
    weight c (buf.extend b size n).ref = weight c buf.ref + if b = c then n else 0 := by
  have hadd : weight c (buf.ref ++ [⟨b, size, n⟩]) = weight c buf.ref + if b = c then n else 0 := by
    simp
  unfold extend
  split
  · next back hback =>
    by_cases hcond : back.block = b ∧ back.offset + back.length = size
    · -- the last slice grows
      rw [if_pos hcond]
      have hlast : buf.ref.getLast? = some back := by
        rw [live, List.getLast?_drop] at hback
        split_ifs at hback
        exact hback
      have hsplit := List.dropLast_append_getLast? back hlast
      obtain ⟨rfl, -⟩ := hcond
      conv_rhs => rw [← hsplit]
      simp only [weight_append, weight_cons, weight_nil]
      split_ifs <;> omega
    · rw [if_neg hcond]
      exact hadd
  · exact hadd

theorem fill_extend_balanced {b : BlockId} (hlt : b < h.fresh) (buf : IOBuffer) (size : ℕ)
    (bs : Bytes) :
    Balanced h buf.ref (fill h b bs) (buf.extend b size bs.length).ref :=
  .grow hlt rfl (weight_extend buf b size bs.length)

theorem appendChar_balanced (hw : h.WF) {buf buf' : IOBuffer} {c : UInt8}
    (he : appendChar h t buf c = some (h', buf')) : Balanced h buf.ref h' buf'.ref := by
  obtain ⟨h₁, b, hs, -, -, -, hlt, -⟩ := h.shareBlockFromTLSChain_spec hw t
  rw [appendChar, hs] at he
  obtain ⟨rfl, rfl⟩ := Prod.mk.inj (Option.some.inj he)
  exact (Balanced.of_used (Heap.used_shareBlockFromTLSChain hs) _).trans
    (fill_extend_balanced hlt buf _ [c])

theorem appendLoop_balanced (hw : h.WF) {fuel : ℕ} {buf buf' : IOBuffer} {bs : Bytes}
    (he : appendLoop t fuel h buf bs = some (h', buf')) : Balanced h buf.ref h' buf'.ref := by
  induction fuel generalizing h buf bs with
  | zero =>
    cases bs with
    | nil =>
      obtain ⟨rfl, rfl⟩ := Prod.mk.inj (Option.some.inj he)
      exact .refl _ _
    | cons x xs => simp [appendLoop] at he
  | succ fuel ih =>
    cases bs with
    | nil =>
      obtain ⟨rfl, rfl⟩ := Prod.mk.inj (Option.some.inj he)
      exact .refl _ _
    | cons x xs =>
      obtain ⟨h₁, b, hs, hw₁, -, -, hlt, -⟩ := h.shareBlockFromTLSChain_spec hw t
      rw [appendLoop, hs] at he
      set k := min (x :: xs).length (h₁.block b).freeSpace
      have hklen : ((x :: xs).take k).length = k := List.length_take_of_le (min_le_left _ _)
      have hfill := fill_extend_balanced hlt buf (h₁.block b).size ((x :: xs).take k)
      rw [hklen] at hfill
      have hw₂ : (fill h₁ b ((x :: xs).take k)).WF :=
        fill_wf hw₁ hlt (by rw [hklen]; exact min_le_right _ _)
      exact ((Balanced.of_used (Heap.used_shareBlockFromTLSChain hs) _).trans
        hfill).trans (ih hw₂ he)

theorem append_balanced (hw : h.WF) {buf buf' : IOBuffer} {data : Option Bytes}
    (he : append h t buf data = some (h', buf')) : Balanced h buf.ref h' buf'.ref := by
  cases data with
  | none =>
    obtain ⟨rfl, rfl⟩ := Prod.mk.inj (Option.some.inj he)
    exact .refl _ _
  | some bs => exact appendLoop_balanced hw he

theorem takeSlices_balanced {fuel n : ℕ} {vec : List Iovec} (hl : Linked h vec)
    {buf buf' : IOBuffer} {head : Option BlockId}
    (he : takeSlices fuel h buf (vec.head?.map Iovec.block) n = some (h', buf', head)) :
    Balanced h buf.ref h' buf'.ref := by
  induction fuel generalizing h buf vec n with
  | zero => simp [takeSlices] at he
  | succ fuel ih =>
    cases vec with
    | nil => simp [takeSlices] at he
    | cons v vec =>
      obtain ⟨⟨hd, -, -, -, hnext, hne, -⟩, htl⟩ := hl
      set len := min n (h.block v.block).freeSpace with hlen
      set blk : Block := { h.block v.block with size := (h.block v.block).size + len } with hblk
      have hfirst : Balanced h buf.ref (h.setBlock v.block blk)
          (buf.ref ++ [⟨v.block, (h.block v.block).size, len⟩]) :=
        .grow hd.1 rfl fun c => by simp
      rw [List.head?_cons, Option.map_some, takeSlices] at he
      simp only [← hlen, ← hblk, Heap.setBlock_block_self] at he
      by_cases hmore : 0 < n - len
      · -- the block is full, and the next one is the next of the list
        rw [if_pos hmore] at he
        have hfull : blk.freeSpace = 0 := by
          simp only [hblk, Block.freeSpace] at hlen ⊢
          omega
        rw [if_pos hfull, show blk.next = vec.head?.map Iovec.block from hnext] at he
        have hl₁ : Linked (h.setBlock v.block blk) vec := htl.congr rfl rfl fun w hw => by
          rw [Heap.setBlock_block_of_ne _ _ (hne w hw)]
          exact ⟨rfl, rfl, rfl⟩
        exact hfirst.trans (ih hl₁ he)
      · rw [if_neg hmore] at he
        obtain ⟨rfl, hrest⟩ := Prod.mk.inj (Option.some.inj he)
        obtain ⟨rfl, -⟩ := Prod.mk.inj hrest
        exact hfirst

theorem takeRead_balanced {n : ℕ} {vec : List Iovec} (hl : Linked h vec) {buf buf' : IOBuffer}
    {head : Option BlockId}
    (he : takeRead h buf (vec.head?.map Iovec.block) n = some (h', buf', head)) :
    Balanced h buf.ref h' buf'.ref := by
  unfold takeRead at he
  split_ifs at he
  · exact takeSlices_balanced hl he
  · obtain ⟨rfl, hrest⟩ := Prod.mk.inj (Option.some.inj he)
    obtain ⟨rfl, -⟩ := Prod.mk.inj hrest
    exact .refl _ _

theorem appendFromFileDescriptor_balanced (hw : h.WF) {buf buf' : IOBuffer} {maxSize : ℕ}
    {r : ReadOutcome} {nr : ℤ}
    (he : appendFromFileDescriptor h t buf maxSize r = some (h', buf', nr)) :
    Balanced h buf.ref h' buf'.ref := by
  obtain ⟨h₁, vec, hacq, hw₁, -, hl₁, -⟩ :=
    acquireVectors_spec t maxSize maxAppendIovec 0 none hw (by simp)
  have hu := used_acquireVectors hacq
  simp only [appendFromFileDescriptor, hacq, Option.bind_eq_bind, Option.bind_some] at he
  cases r with
  | error e =>
    obtain ⟨h₂, hrel, hres⟩ := Option.bind_eq_some_iff.mp he
    obtain ⟨rfl, hrest⟩ := Prod.mk.inj (Option.some.inj hres)
    obtain ⟨rfl, -⟩ := Prod.mk.inj hrest
    exact .of_used ((used_releaseBlocks hrel).trans hu) _
  | data bs =>
    obtain ⟨⟨h₂, buf₂, head⟩, htake, hmap⟩ := Option.bind_eq_some_iff.mp he
    obtain ⟨h₃, hrel, hres⟩ := Option.bind_eq_some_iff.mp hmap
    obtain ⟨rfl, hrest⟩ := Prod.mk.inj (Option.some.inj hres)
    obtain ⟨rfl, -⟩ := Prod.mk.inj hrest
    obtain ⟨-, -, hch₂, hfr₂, hsh₂, -⟩ := scatter_spec vec hw₁ hl₁ bs
    have hl₂ : Linked (scatter vec h₁ bs) vec := hl₁.congr hch₂ hfr₂ fun w _ => hsh₂ w.block
    exact ((Balanced.of_used ((used_scatter vec h₁ bs).trans hu) _).trans
      (takeRead_balanced hl₂ htake)).trans (.of_used (used_releaseBlocks hrel) _)

end IOBuffer

namespace OutputStream

variable {h h' : Heap} {t : ThreadId} {s s' : OutputStream} {popped : Slice → ℕ}

theorem next_balanced (hw : h.WF) {b o size : ℕ} (he : s.next h t = some (h', s', b, o, size)) :
    Balanced h s.buf.ref h' s'.buf.ref := by
  obtain ⟨h₁, k, hs, hw₁, -, -, hlt, -⟩ := h.shareBlockFromTLSChain_spec hw t
  rw [next, hs] at he
  obtain ⟨rfl, hrest⟩ := Prod.mk.inj (Option.some.inj he)
  obtain ⟨rfl, -⟩ := Prod.mk.inj hrest
  have hsize := hw₁.size_le k hlt
  refine (Balanced.of_used (Heap.used_shareBlockFromTLSChain hs) _).trans
    (.grow hlt (?_ : _ = _ + (h₁.block k).freeSpace) fun c => by simp)
  exact (Nat.add_sub_of_le hsize).symm

/-- Slices that add up to no more than their blocks have are taken off exactly. -/
theorem backUpLoop_balanced (hp : LeavesLength popped) (count : ℕ) (h : Heap) (n : ℕ)
    (l : List Slice) (hle : ∀ b, weight b l ≤ h.used b) :
    Balanced h l (backUpLoop popped count h n l).1 (backUpLoop popped count h n l).2.2 := by
  induction l generalizing count h n with
  | nil => exact .refl _ _
  | cons s l ih =>
    have hs : s.length ≤ h.used s.block := by
      have := hle s.block
      rw [weight_cons, if_pos rfl] at this
      omega
    rw [backUpLoop_cons hp]
    split_ifs with h0 hlt
    · exact .refl _ _
    · refine .shrink (hlt.le.trans hs) fun c => ?_
      rw [weight_cons, weight_cons]
      dsimp only
      split_ifs <;> omega
    · have hone : Balanced h (s :: l) (h.setBlock s.block
          { h.block s.block with size := (h.block s.block).size - s.length }) l :=
        .shrink hs fun c => by rw [weight_cons, Nat.add_comm]
      refine hone.trans (ih _ _ _ fun b => ?_)
      have hb := hone b
      have hleb := hle b
      omega

theorem backUp_balanced (hp : LeavesLength popped) (h : Heap) (s : OutputStream) (count : ℕ)
    (hle : ∀ b, weight b s.buf.ref ≤ h.used b) :
    Balanced h s.buf.ref (s.backUp popped h count).1 (s.backUp popped h count).2.buf.ref := by
  intro b
  have hb := backUpLoop_balanced hp count h s.byteCount s.buf.ref.reverse
    (fun b => (weight_reverse b _).le.trans (hle b)) b
  rw [weight_reverse] at hb
  simpa [backUp] using hb

end OutputStream

namespace Buffers

variable {w w' : Buffers} {popped : Slice → ℕ}

theorem setStream_balanced {h : Heap} {i : BufId} {s : OutputStream}
    (hb : Balanced w.heap (w.stream i).buf.ref h s.buf.ref) :
    ∃ i', (∀ j, j ≠ i' → (w.setStream h i s).stream j = w.stream j) ∧
      Balanced w.heap (w.stream i').buf.ref (w.setStream h i s).heap
        ((w.setStream h i s).stream i').buf.ref := by
  refine ⟨i, fun j hj => Function.update_of_ne hj _ _, ?_⟩
  rw [show (w.setStream h i s).stream i = s from Function.update_self ..]
  exact hb

/-- An operation is on one buffer, and its slices grow or shrink as the blocks do. -/
theorem step_balanced (hp : OutputStream.LeavesLength popped) {op : BlockOp} (hw : w.heap.WF)
    (he : w.step popped op = some w')
    (hle : ∀ i b, weight b (w.stream i).buf.ref ≤ w.heap.used b) :
    ∃ i, (∀ j, j ≠ i → w'.stream j = w.stream j) ∧
      Balanced w.heap (w.stream i).buf.ref w'.heap (w'.stream i).buf.ref := by
  cases op with
  | appendChar t i c =>
    obtain ⟨⟨h, buf⟩, happ, hres⟩ := Option.bind_eq_some_iff.mp he
    obtain rfl := Option.some.inj hres
    exact setStream_balanced (appendChar_balanced hw happ)
  | append t i data =>
    obtain ⟨⟨h, buf⟩, happ, hres⟩ := Option.bind_eq_some_iff.mp he
    obtain rfl := Option.some.inj hres
    exact setStream_balanced (append_balanced hw happ)
  | appendFromFileDescriptor t i maxSize r =>
    obtain ⟨⟨h, buf, nr⟩, hread, hres⟩ := Option.bind_eq_some_iff.mp he
    obtain rfl := Option.some.inj hres
    exact setStream_balanced (appendFromFileDescriptor_balanced hw hread)
  | next t i =>
    obtain ⟨⟨h, s, area⟩, hnext, hres⟩ := Option.bind_eq_some_iff.mp he
    obtain rfl := Option.some.inj hres
    exact setStream_balanced (OutputStream.next_balanced hw hnext)
  | backUp i count =>
    obtain rfl := Option.some.inj he
    exact setStream_balanced (OutputStream.backUp_balanced hp _ _ count (hle i))

def Accounted (w : Buffers) : Prop :=
  ∀ (F : Finset BufId) (b : BlockId), ∑ i ∈ F, weight b (w.stream i).buf.ref ≤ w.heap.used b

theorem Accounted.step (hp : OutputStream.LeavesLength popped) {op : BlockOp} (hw : w.heap.WF)
    (ha : w.Accounted) (he : w.step popped op = some w') : w'.Accounted := by
  obtain ⟨i, hother, hbal⟩ := step_balanced hp hw he fun i b => by simpa using ha {i} b
  intro F b
  have hsplit : ∀ v : Buffers, ∑ j ∈ insert i F, weight b (v.stream j).buf.ref =
      weight b (v.stream i).buf.ref + ∑ j ∈ F.erase i, weight b (v.stream j).buf.ref := by
    intro v
    rw [← Finset.add_sum_erase _ _ (Finset.mem_insert_self i F), Finset.erase_insert_eq_erase]
  have hrest : ∑ j ∈ F.erase i, weight b (w'.stream j).buf.ref =
      ∑ j ∈ F.erase i, weight b (w.stream j).buf.ref :=
    Finset.sum_congr rfl fun j hj => by rw [hother j (Finset.ne_of_mem_erase hj)]
  calc ∑ j ∈ F, weight b (w'.stream j).buf.ref
      ≤ ∑ j ∈ insert i F, weight b (w'.stream j).buf.ref :=
        Finset.sum_le_sum_of_subset (Finset.subset_insert i F)
    _ = weight b (w'.stream i).buf.ref + ∑ j ∈ F.erase i, weight b (w.stream j).buf.ref := by
        rw [hsplit, hrest]
    _ ≤ w'.heap.used b := by
        have h₁ := ha (insert i F) b
        rw [hsplit] at h₁
        have h₂ := hbal b
        omega

/-- After any operations the slices of any buffers on a block are together no more than its
size; so is what `BackUp` takes off a block. -/
theorem slices_fit_blocks (hp : OutputStream.LeavesLength popped) {memory : BlockId → Block}
    {ops : List BlockOp} (hr : run (step popped) (init memory) ops = some w) (F : Finset BufId)
    (b : BlockId) :
    ∑ i ∈ F, weight b (w.stream i).buf.ref ≤ (w.heap.block b).size := by
  have hstep : ∀ (w : Buffers) (op : BlockOp) (w' : Buffers), w.heap.WF ∧ w.Accounted →
      w.step popped op = some w' → w'.heap.WF ∧ w'.Accounted := by
    rintro w op w' ⟨hw, ha⟩ he
    obtain ⟨w₁, he₁, hw₁⟩ := step_wf hp w op hw
    obtain rfl := Option.some.inj (he₁.symm.trans he)
    exact ⟨hw₁, ha.step hp hw he⟩
  have hinit : (init memory).Accounted := fun F b => by simp [init, IOBuffer.empty]
  have hinv := run_invariant hstep ⟨Heap.wf_init memory, hinit⟩ hr
  calc ∑ i ∈ F, weight b (w.stream i).buf.ref
      ≤ w.heap.used b := hinv.2 F b
    _ ≤ (w.heap.block b).size := by
        unfold Heap.used
        split_ifs <;> omega

theorem slices_fit_blocks_shared :
    ∃ w, run (step Slice.length) (init fun _ => ⟨none, 0, 0, fun _ => 0⟩)
        [.append 0 0 (some [1, 2]), .append 0 1 (some [3]), .append 0 0 (some [4])] = some w ∧
      ∑ i ∈ {0, 1}, weight 0 (w.stream i).buf.ref = 4 ∧ 4 ≤ (w.heap.block 0).size := by
  have hrun : ∃ w, run (step Slice.length) (init fun _ => ⟨none, 0, 0, fun _ => 0⟩)
        [.append 0 0 (some [1, 2]), .append 0 1 (some [3]), .append 0 0 (some [4])] = some w ∧
      ∑ i ∈ {0, 1}, weight 0 (w.stream i).buf.ref = 4 := by
    decide +kernel
  obtain ⟨w, hw, hsum⟩ := hrun
  exact ⟨w, hw, hsum, hsum ▸ slices_fit_blocks (fun _ => rfl) hw {0, 1} 0⟩

end Buffers

end SofaBolt
