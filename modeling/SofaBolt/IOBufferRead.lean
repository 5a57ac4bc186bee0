import SofaBolt.IOBufferAppend

namespace SofaBolt.IOBuffer

open Memory

variable {h h' : Heap} {buf : IOBuffer}

/-- The acquired blocks: outside every chain, linked in the order of the
vectors, each vector starting at the `size` of its block; only the last one may
leave free space uncovered. -/
def Linked (h : Heap) : List Iovec → Prop
  | [] => True
  | v :: vec =>
    (h.Detached v.block ∧ v.base = (h.block v.block).size ∧ v.len ≤ (h.block v.block).freeSpace ∧
      0 < (h.block v.block).freeSpace ∧ (h.block v.block).next = vec.head?.map Iovec.block ∧
      (∀ w ∈ vec, w.block ≠ v.block) ∧ (vec ≠ [] → v.len = (h.block v.block).freeSpace)) ∧
    Linked h vec

def Scattered (h : Heap) : List Iovec → Bytes → Prop
  | [], _ => True
  | v :: vec, bs =>
    readAt (h.block v.block).data v.base (min v.len bs.length) = bs.take v.len ∧
      Scattered h vec (bs.drop v.len)

theorem Linked.congr {vec : List Iovec} (hl : Linked h vec)
    (hch : h'.tlsBlockChain = h.tlsBlockChain) (hfr : h'.fresh = h.fresh)
    (hb : ∀ v ∈ vec, (h'.block v.block).next = (h.block v.block).next ∧
      (h'.block v.block).size = (h.block v.block).size ∧
      (h'.block v.block).capacity = (h.block v.block).capacity) : Linked h' vec := by
  induction vec with
  | nil => trivial
  | cons v vec ih =>
    obtain ⟨⟨hd, hbase, hlen, hpos, hnext, hne, hfull⟩, htl⟩ := hl
    obtain ⟨e₁, e₂, e₃⟩ := hb v (by simp)
    have ef : (h'.block v.block).freeSpace = (h.block v.block).freeSpace := by
      simp only [Block.freeSpace, e₂, e₃]
    refine ⟨⟨?_, ?_, ?_, ?_, ?_, hne, ?_⟩, ih htl fun w hw => hb w (by simp [hw])⟩
    · exact ⟨hfr ▸ hd.1, hch ▸ hd.2⟩
    · rw [e₂]; exact hbase
    · rw [ef]; exact hlen
    · rw [ef]; exact hpos
    · rw [e₁]; exact hnext
    · rw [ef]; exact hfull

theorem Scattered.congr {vec : List Iovec} {bs : Bytes} (hs : Scattered h vec bs)
    (hb : ∀ v ∈ vec, (h'.block v.block).data = (h.block v.block).data) :
    Scattered h' vec bs := by
  induction vec generalizing bs with
  | nil => trivial
  | cons v vec ih =>
    refine ⟨?_, ih hs.2 fun w hw => hb w (by simp [hw])⟩
    rw [hb v (by simp)]
    exact hs.1

theorem linkTail_spec {tail : Option BlockId} (hw : h.WF)
    (ht : ∀ x, tail = some x → h.Detached x) (b : BlockId) :
    (linkTail h tail b).WF ∧ h.Grows (linkTail h tail b) ∧
      (linkTail h tail b).tlsBlockChain = h.tlsBlockChain ∧
      (∀ x, h.Detached x → (linkTail h tail b).Detached x) ∧
      (∀ x, tail ≠ some x → (linkTail h tail b).block x = h.block x) ∧
      ∀ x, tail = some x → (linkTail h tail b).block x = { h.block x with next := some b } := by
  cases tail with
  | none => exact ⟨hw, .refl h, rfl, fun _ hx => hx, fun _ _ => rfl, by simp⟩
  | some y =>
    have hy := ht y rfl
    refine ⟨hw.setBlock rfl (hw.size_le y hy.1) fun t' ht' => absurd ht' (hy.2 t'),
      h.grows_setBlock y _ le_rfl fun _ _ => rfl, rfl, fun _ hx => hx, fun x hx => ?_, ?_⟩
    · exact Heap.setBlock_block_of_ne _ _ fun e => hx (e ▸ rfl)
    · rintro x ⟨⟩
      exact Heap.setBlock_block_self ..

theorem acquireVectors_spec (t : ThreadId) (maxSize left space : ℕ) (tail : Option BlockId)
    (hw : h.WF) (ht : ∀ x, tail = some x → h.Detached x ∧ (h.block x).next = none) :
    ∃ h' vec, acquireVectors t maxSize left h space tail = some (h', vec) ∧ h'.WF ∧ h.Grows h' ∧
      Linked h' vec ∧ (left ≠ 0 → vec ≠ []) ∧
      (left ≠ 0 ∨ h.tlsBlockChain t = none → h'.tlsBlockChain t = none) ∧
      (∀ x, h.Detached x → (∀ v ∈ vec, v.block ≠ x) ∧ h'.Detached x ∧
        (tail ≠ some x → h'.block x = h.block x)) ∧
      (∀ x, tail = some x →
        h'.block x = { h.block x with next := vec.head?.map Iovec.block }) ∧
      (vec.map Iovec.len).sum ≤ maxSize - space ∧
      min (maxSize - space) ((left - 1) * 8168) ≤ (vec.map Iovec.len).sum ∧
      (h.tlsBlockChain t = none →
        min (maxSize - space) (left * 8168) ≤ (vec.map Iovec.len).sum) := by
  induction left generalizing h space tail with
  | zero =>
    refine ⟨h, [], rfl, hw, .refl h, trivial, by simp, by simp, fun x hx => ⟨by simp, hx, by simp⟩,
      fun x hx => ?_, by simp, by simp, by simp⟩
    rw [List.head?_nil, Option.map_none, ← (ht x hx).2]
  | succ left ih =>
    obtain ⟨h₁, b, hacq, hw₁, hg₁, hch₁, hdet₁, hnext₁, hpos₁, hnew₁, hold₁⟩ :=
      h.acquireBlockFromTLSChain_spec hw t
    -- the previous block is linked to the new one
    have htd : ∀ x, tail = some x → h₁.Detached x := fun x hx => (hold₁ x (ht x hx).1).2.1
    have hneb : tail ≠ some b := fun e => (hold₁ b (ht b e).1).1 rfl
    obtain ⟨hw₂, hg₂, hch₂, hdet₂, hblk₂, htail₂⟩ := linkTail_spec hw₁ htd b
    set h₂ := linkTail h₁ tail b
    have hb₂ : h₂.block b = h₁.block b := hblk₂ b hneb
    set len := min (h₂.block b).freeSpace (maxSize - space) with hlen
    have hcap : h.tlsBlockChain t = none → (h₂.block b).freeSpace = 8168 := fun e => by
      rw [hb₂, hnew₁ e]; rfl
    have hunfold : acquireVectors t maxSize (left + 1) h space tail =
        if maxSize ≤ space + len then some (h₂, [⟨b, (h₂.block b).size, len⟩])
        else (acquireVectors t maxSize left h₂ (space + len) (some b)).bind fun r =>
          some (r.1, ⟨b, (h₂.block b).size, len⟩ :: r.2) := by
      rw [acquireVectors, hacq]
      rfl
    by_cases hstop : maxSize ≤ space + len
    · refine ⟨h₂, [⟨b, (h₂.block b).size, len⟩], ?_, hw₂, hg₁.trans hg₂, ?_, by simp, ?_, ?_, ?_,
        ?_, ?_, ?_⟩
      · rw [hunfold, if_pos hstop]
      · refine ⟨⟨hdet₂ b hdet₁, rfl, min_le_left _ _, ?_, ?_, by simp, by simp⟩, trivial⟩
        · rw [hb₂]; exact hpos₁
        · rw [hb₂]; exact hnext₁
      · intro _
        rw [hch₂]; exact hch₁
      · intro x hx
        obtain ⟨hne, hd, he⟩ := hold₁ x hx
        exact ⟨by simpa using hne.symm, hdet₂ x hd, fun hx' => (hblk₂ x hx').trans he⟩
      · intro x hx
        rw [htail₂ x hx, (hold₁ x (ht x hx).1).2.2]
        rfl
      · simp only [List.map_cons, List.map_nil, List.sum_cons, List.sum_nil]
        omega
      · simp only [List.map_cons, List.map_nil, List.sum_cons, List.sum_nil]
        omega
      · intro _
        simp only [List.map_cons, List.map_nil, List.sum_cons, List.sum_nil]
        omega
    · obtain ⟨h₃, vec, hrec, hw₃, hg₃, hl₃, -, hch₃, hold₃, htail₃, hle₃, -, hge₃⟩ :=
        ih (space + len) (some b) hw₂ (by
          rintro x ⟨⟩
          exact ⟨hdet₂ b hdet₁, by rw [hb₂]; exact hnext₁⟩)
      have hb₃ := htail₃ b rfl
      have hfree : (h₃.block b).freeSpace = (h₂.block b).freeSpace := by rw [hb₃]; rfl
      have hnone : h₂.tlsBlockChain t = none := by rw [hch₂]; exact hch₁
      have hge := hge₃ hnone
      refine ⟨h₃, ⟨b, (h₂.block b).size, len⟩ :: vec, ?_, hw₃, (hg₁.trans hg₂).trans hg₃, ?_, by simp,
        ?_, ?_, ?_, ?_, ?_, ?_⟩
      · rw [hunfold, if_neg hstop, hrec]
        rfl
      · refine ⟨⟨(hold₃ b (hdet₂ b hdet₁)).2.1, ?_, ?_, ?_, ?_, (hold₃ b (hdet₂ b hdet₁)).1, ?_⟩, hl₃⟩
        · rw [hb₃]
        · rw [hfree]; exact min_le_left _ _
        · rw [hfree, hb₂]; exact hpos₁
        · rw [hb₃]
        · intro _
          rw [hfree]
          dsimp only
          omega
      · intro _
        exact hch₃ (Or.inr hnone)
      · intro x hx
        obtain ⟨hne, hd, he⟩ := hold₁ x hx
        obtain ⟨hne₃, hd₃, he₃⟩ := hold₃ x (hdet₂ x hd)
        refine ⟨?_, hd₃, fun hx' => ?_⟩
        · intro v hv
          rcases List.mem_cons.mp hv with rfl | hv
          · exact hne.symm
          · exact hne₃ v hv
        · rw [he₃ (by simpa using hne.symm), hblk₂ x hx', he]
      · intro x hx
        obtain ⟨hne, hd, he⟩ := hold₁ x (ht x hx).1
        rw [(hold₃ x (hdet₂ x hd)).2.2 (by simpa using hne.symm), htail₂ x hx, he]
        rfl
      · simp only [List.map_cons, List.sum_cons]
        omega
      · simp only [List.map_cons, List.sum_cons]
        omega
      · intro e
        have := hcap e
        simp only [List.map_cons, List.sum_cons]
        omega

/-- Laying bytes down along the vectors changes memory above `size` only. -/
theorem scatter_spec (vec : List Iovec) (hw : h.WF) (hl : Linked h vec) (bs : Bytes) :
    (scatter vec h bs).WF ∧ h.Grows (scatter vec h bs) ∧
      (scatter vec h bs).tlsBlockChain = h.tlsBlockChain ∧ (scatter vec h bs).fresh = h.fresh ∧
      (∀ x, ((scatter vec h bs).block x).next = (h.block x).next ∧
        ((scatter vec h bs).block x).size = (h.block x).size ∧
        ((scatter vec h bs).block x).capacity = (h.block x).capacity) ∧
      (∀ x, (∀ v ∈ vec, v.block ≠ x) → (scatter vec h bs).block x = h.block x) ∧
      Scattered (scatter vec h bs) vec bs := by
  induction vec generalizing h bs with
  | nil => exact ⟨hw, .refl h, rfl, rfl, fun _ => ⟨rfl, rfl, rfl⟩, fun _ _ => rfl, trivial⟩
  | cons v vec ih =>
    obtain ⟨⟨hd, hbase, hlen, -, -, hne, -⟩, htl⟩ := hl
    rw [scatter]
    set blk : Block :=
      { h.block v.block with data := writeAt (h.block v.block).data v.base (bs.take v.len) }
    have hw₁ : (h.setBlock v.block blk).WF :=
      hw.setBlock rfl (hw.size_le _ hd.1) fun t ht => absurd ht (hd.2 t)
    have hg₁ : h.Grows (h.setBlock v.block blk) :=
      h.grows_setBlock _ _ le_rfl fun i hi => writeAt_of_lt _ _ (hbase ▸ hi)
    have hshape : ∀ x, ((h.setBlock v.block blk).block x).next = (h.block x).next ∧
        ((h.setBlock v.block blk).block x).size = (h.block x).size ∧
        ((h.setBlock v.block blk).block x).capacity = (h.block x).capacity := by
      intro x
      by_cases e : x = v.block
      · subst e; simp [blk]
      · rw [Heap.setBlock_block_of_ne _ _ e]; exact ⟨rfl, rfl, rfl⟩
    obtain ⟨hw₂, hg₂, hch, hfr, hsh, hother, hsc⟩ :=
      ih hw₁ (htl.congr rfl rfl fun w _ => hshape w.block) (bs.drop v.len)
    refine ⟨hw₂, hg₁.trans hg₂, hch, hfr, fun x => ?_, fun x hx => ?_, ?_, hsc⟩
    · obtain ⟨a₁, a₂, a₃⟩ := hsh x
      obtain ⟨b₁, b₂, b₃⟩ := hshape x
      exact ⟨a₁.trans b₁, a₂.trans b₂, a₃.trans b₃⟩
    · rw [hother x fun w hw => hx w (by simp [hw])]
      exact Heap.setBlock_block_of_ne _ _ (hx v (by simp)).symm
    · rw [hother v.block hne, Heap.setBlock_block_self]
      have hl' : (bs.take v.len).length = min v.len bs.length := List.length_take ..
      rw [← hl', readAt_writeAt]

@[simp] theorem delivered_cons (v : Iovec) (vec : List Iovec) (bs : Bytes) :
    delivered (v :: vec) bs = bs.take v.len ++ delivered vec (bs.drop v.len) := by
  simp [delivered, List.take_add]

/-- The slices made of what was read are exactly the bytes delivered. -/
theorem takeSlices_spec (vec : List Iovec) (fuel : ℕ) (bs : Bytes) (hw : h.WF) (hb : buf.WF h)
    (hl : Linked h vec) (hs : Scattered h vec bs) (hpos : 0 < (delivered vec bs).length)
    (hfuel : (delivered vec bs).length ≤ fuel) :
    ∃ h' buf' head, takeSlices fuel h buf (vec.head?.map Iovec.block) (delivered vec bs).length =
        some (h', buf', head) ∧ h'.WF ∧ h.Grows h' ∧ h'.tlsBlockChain = h.tlsBlockChain ∧
      buf'.WF h' ∧ buf'.toString h' = buf.toString h ++ delivered vec bs ∧
      (buf.Solid → buf'.Solid) ∧ ∀ b, head = some b → h'.Detached b ∧ 0 < (h'.block b).freeSpace := by
  induction vec generalizing h buf bs fuel with
  | nil => simp [delivered] at hpos
  | cons v vec ih =>
    obtain ⟨⟨hd, hbase, hlen, hfree, hnext, hne, hfull⟩, htl⟩ := hl
    obtain ⟨hread, hsc⟩ := hs
    obtain ⟨fuel, rfl⟩ : ∃ k, fuel = k + 1 := ⟨fuel - 1, by omega⟩
    -- the first round takes what was read into the first block
    have htot : (delivered (v :: vec) bs).length =
        min v.len bs.length + (delivered vec (bs.drop v.len)).length := by simp
    have hrest : vec = [] → (delivered vec (bs.drop v.len)).length = 0 := by
      rintro rfl; simp [delivered]
    have hrest' : (delivered vec (bs.drop v.len)).length ≤ bs.length - v.len := by
      simp only [delivered, List.length_take, List.length_drop]
      exact min_le_right _ _
    have hk : min (delivered (v :: vec) bs).length (h.block v.block).freeSpace =
        min v.len bs.length := by
      by_cases hv : vec = []
      · have := hrest hv; omega
      · have := hfull hv; omega
    set k := min v.len bs.length
    have hkf : k ≤ (h.block v.block).freeSpace := (min_le_left _ _).trans hlen
    set blk : Block := { h.block v.block with size := (h.block v.block).size + k } with hblk
    have hcap := hw.size_le _ hd.1
    have hw₁ : (h.setBlock v.block blk).WF := by
      refine hw.setBlock rfl ?_ fun t ht => absurd ht (hd.2 t)
      simp only [Block.freeSpace] at hkf
      simp only [hblk]
      omega
    have hg₁ : h.Grows (h.setBlock v.block blk) :=
      h.grows_setBlock _ _ (Nat.le_add_right _ _) fun _ _ => rfl
    have hfree₁ : blk.freeSpace = (h.block v.block).freeSpace - k := by
      simp only [hblk, Block.freeSpace]
      omega
    set buf₁ : IOBuffer := { buf with ref := buf.ref ++ [⟨v.block, (h.block v.block).size, k⟩] }
    have hb₁ : buf₁.WF (h.setBlock v.block blk) := by
      apply hb.append hg₁
      intro s hs
      obtain rfl := List.mem_singleton.mp hs
      exact ⟨hd.1, by simp [hblk]⟩
    have htxt₁ : buf₁.toString (h.setBlock v.block blk) = buf.toString h ++ bs.take v.len := by
      rw [toString_append hb hg₁]
      simp only [List.flatMap_cons, List.flatMap_nil, List.append_nil, Slice.bytes,
        Heap.setBlock_block_self]
      rw [← hbase]
      exact congrArg _ hread
    have hunfold : takeSlices (fuel + 1) h buf ((v :: vec).head?.map Iovec.block)
          (delivered (v :: vec) bs).length =
        if 0 < (delivered vec (bs.drop v.len)).length then
          takeSlices fuel (h.setBlock v.block blk) buf₁
            (if blk.freeSpace = 0 then blk.next else some v.block)
            (delivered vec (bs.drop v.len)).length
        else some (h.setBlock v.block blk, buf₁,
          if blk.freeSpace = 0 then blk.next else some v.block) := by
      have hsub : (delivered (v :: vec) bs).length - k = (delivered vec (bs.drop v.len)).length := by
        omega
      simp only [List.head?_cons, Option.map_some, takeSlices, hk, hsub, Heap.setBlock_block_self]
      rfl
    have hframe : ∀ w ∈ vec, (h.setBlock v.block blk).block w.block = h.block w.block :=
      fun w hw => Heap.setBlock_block_of_ne _ _ (hne w hw)
    have hl₁ : Linked (h.setBlock v.block blk) vec :=
      htl.congr rfl rfl fun w hw => by rw [hframe w hw]; exact ⟨rfl, rfl, rfl⟩
    -- the block has room, so the slice of this round is not empty
    have hs₁ : buf.Solid → buf₁.Solid := fun hsolid => hsolid.append (by simp; omega)
    rw [hunfold]
    by_cases hmore : 0 < (delivered vec (bs.drop v.len)).length
    · -- the block is full, the loop goes on with the next one
      rw [if_pos hmore]
      have hv : vec ≠ [] := fun e => by have := hrest e; omega
      have h0 : blk.freeSpace = 0 := by have := hfull hv; omega
      rw [if_pos h0, show blk.next = vec.head?.map Iovec.block from hnext]
      obtain ⟨h₂, buf₂, head, hr, hw₂, hg₂, hch₂, hb₂, htxt₂, hs₂, hhead⟩ :=
        ih fuel (bs.drop v.len) hw₁ hb₁ hl₁ (hsc.congr fun w hw => by rw [hframe w hw]) hmore
          (by have : 0 < k := by have := hfull hv; omega
              omega)
      refine ⟨h₂, buf₂, head, hr, hw₂, hg₁.trans hg₂, hch₂, hb₂, ?_, hs₂ ∘ hs₁, hhead⟩
      rw [htxt₂, htxt₁, delivered_cons, List.append_assoc]
    · rw [if_neg hmore]
      refine ⟨_, _, _, rfl, hw₁, hg₁, rfl, hb₁, ?_, hs₁, ?_⟩
      · have : delivered vec (bs.drop v.len) = [] := List.length_eq_zero_iff.mp (by omega)
        rw [htxt₁, delivered_cons, this, List.append_nil]
      · intro b hhead
        split_ifs at hhead with h0
        · -- the next block, if any, is one of those acquired
          rw [show blk.next = vec.head?.map Iovec.block from hnext] at hhead
          cases vec with
          | nil => simp at hhead
          | cons w vec =>
            obtain rfl : w.block = b := by simpa using hhead
            exact ⟨hl₁.1.1, hl₁.1.2.2.2.1⟩
        · obtain rfl := Option.some.inj hhead
          refine ⟨hd, ?_⟩
          rw [Heap.setBlock_block_self]
          omega

theorem takeRead_spec (vec : List Iovec) (bs : Bytes) (hw : h.WF) (hb : buf.WF h)
    (hl : Linked h vec) (hs : Scattered h vec bs) :
    ∃ h' buf' head, takeRead h buf (vec.head?.map Iovec.block) (delivered vec bs).length =
        some (h', buf', head) ∧ h'.WF ∧ h.Grows h' ∧ h'.tlsBlockChain = h.tlsBlockChain ∧
      buf'.WF h' ∧ buf'.toString h' = buf.toString h ++ delivered vec bs ∧
      (buf.Solid → buf'.Solid) ∧ ∀ b, head = some b → h'.Detached b ∧ 0 < (h'.block b).freeSpace := by
  by_cases hpos : 0 < (delivered vec bs).length
  · rw [takeRead, if_pos hpos]
    exact takeSlices_spec vec _ bs hw hb hl hs hpos le_rfl
  · have hnil : delivered vec bs = [] := List.length_eq_zero_iff.mp (by omega)
    refine ⟨_, _, _, if_neg hpos, hw, .refl _, rfl, hb, by simp [hnil], id, fun b hhead => ?_⟩
    cases vec with
    | nil => simp at hhead
    | cons v vec =>
      obtain rfl : v.block = b := by simpa using hhead
      exact ⟨hl.1.1, hl.1.2.2.2.1⟩

/-- The last loop hands one block back, which is not full, and ends. -/
theorem releaseBlocks_spec (t : ThreadId) (hw : h.WF) (ht : h.tlsBlockChain t = none)
    {head : Option BlockId}
    (hd : ∀ b, head = some b → h.Detached b ∧ 0 < (h.block b).freeSpace) :
    ∃ h', releaseBlocks t (h.fresh + 1) h head = some h' ∧ h'.WF ∧ h.Grows h' ∧
      ∀ b, h'.tlsBlockChain t = some b → 0 < (h'.block b).freeSpace := by
  cases head with
  | none => exact ⟨h, rfl, hw, .refl h, by simp [ht]⟩
  | some b =>
    obtain ⟨hdet, hfree⟩ := hd b rfl
    have hrel : h.releaseBlockToTLSChain t b =
        (h.setBlock b { h.block b with next := none }).setChain t (some b) := by
      rw [Heap.releaseBlockToTLSChain, if_neg (by omega), ht]
    have hw₁ : (h.setBlock b { h.block b with next := none }).WF :=
      hw.setBlock rfl (hw.size_le b hdet.1) fun _ _ => rfl
    refine ⟨h.releaseBlockToTLSChain t b, ?_, ?_, ?_, ?_⟩
    · rw [releaseBlocks, hrel]
      simp [releaseBlocks]
    · rw [hrel]
      refine hw₁.setChain t ?_
      rintro c ⟨⟩
      exact ⟨hdet.1, by simp, fun t' _ => hdet.2 t'⟩
    · rw [hrel]
      exact Heap.Grows.trans (h.grows_setBlock b { h.block b with next := none } le_rfl
        fun _ _ => rfl) (Heap.grows_setChain ..)
    · rw [hrel]
      intro c hc
      obtain rfl : b = c := by simpa using hc
      rw [Heap.setChain_block, Heap.setBlock_block_self]
      exact hfree

/-- The bytes read are appended and nothing else changes.  Up to 63 fresh blocks
stand ready besides the current one, so a read is cut short only beyond them. -/
theorem appendFromFileDescriptor_spec (hw : h.WF) (hb : buf.WF h) (t : ThreadId) (maxSize : ℕ)
    (r : ReadOutcome) :
    ∃ h' buf' nr, appendFromFileDescriptor h t buf maxSize r = some (h', buf', nr) ∧ h'.WF ∧
      h.Grows h' ∧ buf'.WF h' ∧ (buf.Solid → buf'.Solid) ∧
      (∀ b, h'.tlsBlockChain t = some b → 0 < (h'.block b).freeSpace) ∧
      match r with
      | .error _ => nr = -1 ∧ buf'.toString h' = buf.toString h
      | .data bs => ∃ k : ℕ, nr = k ∧ k ≤ bs.length ∧ k ≤ maxSize ∧
          min bs.length (min maxSize (63 * 8168)) ≤ k ∧
          buf'.toString h' = buf.toString h ++ bs.take k := by
  obtain ⟨h₁, vec, hacq, hw₁, hg₁, hl₁, hne, hch₁, -, -, hle, hge, -⟩ :=
    acquireVectors_spec t maxSize maxAppendIovec 0 none hw (by simp)
  have hnone : h₁.tlsBlockChain t = none := hch₁ (Or.inl (by decide))
  have hhead : ∀ b, vec.head?.map Iovec.block = some b →
      h₁.Detached b ∧ 0 < (h₁.block b).freeSpace := by
    intro b hb
    cases vec with
    | nil => simp at hb
    | cons v vec =>
      obtain rfl : v.block = b := by simpa using hb
      exact ⟨hl₁.1.1, hl₁.1.2.2.2.1⟩
  cases r with
  | error e =>
    obtain ⟨h₂, hr, hw₂, hg₂, hfree⟩ := releaseBlocks_spec t hw₁ hnone hhead
    refine ⟨h₂, buf, -1, ?_, hw₂, hg₁.trans hg₂, hb.grows (hg₁.trans hg₂), id, hfree, rfl,
      toString_grows hb (hg₁.trans hg₂)⟩
    simp [appendFromFileDescriptor, hacq, hr]
  | data bs =>
    obtain ⟨hw₂, hg₂, hch₂, hfr₂, hsh₂, -, hsc₂⟩ := scatter_spec vec hw₁ hl₁ bs
    have hl₂ : Linked (scatter vec h₁ bs) vec := hl₁.congr hch₂ hfr₂ fun w _ => hsh₂ w.block
    obtain ⟨h₃, buf₃, head, hr₃, hw₃, hg₃, hch₃, hb₃, htxt₃, hs₃, hhead₃⟩ :=
      takeRead_spec vec bs hw₂ (hb.grows (hg₁.trans hg₂)) hl₂ hsc₂
    obtain ⟨h₄, hr₄, hw₄, hg₄, hfree⟩ :=
      releaseBlocks_spec t hw₃ (by rw [hch₃, hch₂]; exact hnone) hhead₃
    refine ⟨h₄, buf₃, (delivered vec bs).length, ?_, hw₄, ((hg₁.trans hg₂).trans hg₃).trans hg₄,
      hb₃.grows hg₄, hs₃, hfree, (delivered vec bs).length, rfl, ?_, ?_, ?_, ?_⟩
    · simp [appendFromFileDescriptor, hacq, hr₃, hr₄]
    · simp [delivered]
    · simp only [delivered, List.length_take]
      omega
    · simp only [delivered, List.length_take, maxAppendIovec] at hge ⊢
      omega
    · rw [toString_grows hb₃ hg₄, htxt₃, toString_grows hb (hg₁.trans hg₂)]
      congr 1
      rw [delivered, List.length_take, ← List.take_eq_take_min]

end SofaBolt.IOBuffer
