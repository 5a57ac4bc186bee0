import SofaBolt.IOBufferSpec

namespace SofaBolt.IOBuffer

open Memory

variable {h h' : Heap} {buf : IOBuffer}

@[simp] theorem fill_size (h : Heap) (b : BlockId) (bs : Bytes) :
    ((fill h b bs).block b).size = (h.block b).size + bs.length := by simp [fill]

@[simp] theorem fill_data (h : Heap) (b : BlockId) (bs : Bytes) :
    ((fill h b bs).block b).data = writeAt (h.block b).data (h.block b).size bs := by simp [fill]

theorem fill_grows (h : Heap) (b : BlockId) (bs : Bytes) : h.Grows (fill h b bs) :=
  h.grows_setBlock b _ (Nat.le_add_right _ _) fun _ hi => writeAt_of_lt _ _ hi

theorem fill_wf (hw : h.WF) {b : BlockId} {bs : Bytes} (hb : b < h.fresh)
    (hf : bs.length ≤ (h.block b).freeSpace) : (fill h b bs).WF := by
  refine hw.setBlock rfl ?_ fun t ht => hw.chain_next t b ht
  have := hw.size_le b hb
  simp only [Block.freeSpace] at hf
  dsimp only
  omega

theorem fill_bytes (h : Heap) (b : BlockId) (bs : Bytes) :
    Slice.bytes (fill h b bs) ⟨b, (h.block b).size, bs.length⟩ = bs := by
  simp [Slice.bytes, readAt_writeAt]

/-- A slice that ended at `size` now goes on with what was filled in. -/
theorem fill_bytes_back {b : BlockId} {back : Slice} (hs : back.InBlock h) (hb : back.block = b)
    (he : back.offset + back.length = (h.block b).size) (bs : Bytes) :
    Slice.bytes (fill h b bs) { back with length := back.length + bs.length } =
      back.bytes h ++ bs := by
  subst hb
  have h₁ : readAt ((fill h back.block bs).block back.block).data back.offset back.length =
      back.bytes h := Slice.bytes_grows hs (fill_grows h back.block bs)
  have h₂ : readAt ((fill h back.block bs).block back.block).data
      (back.offset + back.length) bs.length = bs := by
    rw [he, fill_data, readAt_writeAt]
  rw [Slice.bytes, readAt_add, h₁, h₂]

/-- Either way `extend` refers to the bytes just filled in, after the others. -/
theorem extend_spec (hw : buf.WF h) {b : BlockId} (hb : b < h.fresh) (bs : Bytes) :
    (buf.extend b (h.block b).size bs.length).WF (fill h b bs) ∧
      (buf.extend b (h.block b).size bs.length).toString (fill h b bs) = buf.toString h ++ bs := by
  have hg := fill_grows h b bs
  -- a slice added at the end
  have hpush : (⟨buf.ref ++ [⟨b, (h.block b).size, bs.length⟩], buf.refOffset⟩ : IOBuffer).WF
        (fill h b bs) ∧
      (⟨buf.ref ++ [⟨b, (h.block b).size, bs.length⟩], buf.refOffset⟩ : IOBuffer).toString
        (fill h b bs) = buf.toString h ++ bs := by
    refine ⟨hw.append hg ?_, (toString_append hw hg _).trans (by simp [fill_bytes])⟩
    intro s hs
    obtain rfl := List.mem_singleton.mp hs
    exact ⟨hb, by simp⟩
  unfold extend
  split
  · next back hback =>
    split_ifs with hcond
    · -- the last slice lengthened
      obtain ⟨ys, hys⟩ := List.getLast?_eq_some_iff.mp hback
      have href : buf.ref = (buf.ref.take buf.refOffset ++ ys) ++ [back] := by
        rw [List.append_assoc, ← hys]
        exact (List.take_append_drop _ _).symm
      have hmem : back ∈ buf.ref := by rw [href]; simp
      have htake : (buf.ref.take buf.refOffset).length = buf.refOffset :=
        List.length_take_of_le hw.offset_le
      have hdl : buf.ref.dropLast = buf.ref.take buf.refOffset ++ ys := by
        conv_lhs => rw [href]
        exact List.dropLast_concat
      rw [hdl]
      refine ⟨⟨?_, ?_⟩, ?_⟩
      · simp only [List.length_append, htake]
        omega
      · intro s hs
        rcases List.mem_append.mp hs with hs | hs
        · exact (hw.inBlock s (by rw [href]; exact List.mem_append_left _ hs)).grows hg
        · obtain rfl := List.mem_singleton.mp hs
          refine ⟨(hw.inBlock back hmem).1, ?_⟩
          rw [hcond.1, fill_size]
          dsimp only
          omega
      · have hl : (⟨buf.ref.take buf.refOffset ++ ys ++
            [{ back with length := back.length + bs.length }], buf.refOffset⟩ : IOBuffer).live =
            ys ++ [{ back with length := back.length + bs.length }] := by
          rw [live, List.append_assoc]
          exact List.drop_left' htake
        have hys' : ∀ s ∈ ys, s.InBlock h := fun s hs =>
          hw.live s (by rw [hys]; exact List.mem_append_left _ hs)
        rw [toString, hl, List.flatMap_append, flatMap_bytes_grows hys' hg, toString, hys,
          List.flatMap_append, List.append_assoc]
        simp only [List.flatMap_cons, List.flatMap_nil, List.append_nil]
        rw [fill_bytes_back (hw.inBlock back hmem) hcond.1 hcond.2]
    · exact hpush
  · exact hpush

@[simp] theorem extend_refOffset (buf : IOBuffer) (b : BlockId) (o n : ℕ) :
    (buf.extend b o n).refOffset = buf.refOffset := by
  unfold extend
  split
  · split_ifs <;> rfl
  · rfl

structure Appended (h : Heap) (buf : IOBuffer) (h' : Heap) (buf' : IOBuffer) (bs : Bytes) :
    Prop where
  heap : h'.WF
  grows : h.Grows h'
  wf : buf'.WF h'
  toString_eq : buf'.toString h' = buf.toString h ++ bs
  refOffset_eq : buf'.refOffset = buf.refOffset

theorem Appended.nil (hw : h.WF) (hb : buf.WF h) : Appended h buf h buf [] :=
  ⟨hw, .refl h, hb, (List.append_nil _).symm, rfl⟩

theorem Appended.trans {h₁ h₂ : Heap} {buf₁ buf₂ : IOBuffer} {bs₁ bs₂ : Bytes}
    (a₁ : Appended h buf h₁ buf₁ bs₁) (a₂ : Appended h₁ buf₁ h₂ buf₂ bs₂) :
    Appended h buf h₂ buf₂ (bs₁ ++ bs₂) where
  heap := a₂.heap
  grows := a₁.grows.trans a₂.grows
  wf := a₂.wf
  toString_eq := by rw [a₂.toString_eq, a₁.toString_eq, List.append_assoc]
  refOffset_eq := a₂.refOffset_eq.trans a₁.refOffset_eq

theorem Appended.later {h₁ h₂ : Heap} {buf₁ : IOBuffer} {bs : Bytes}
    (a : Appended h buf h₁ buf₁ bs) (hw : h₂.WF) (hg : h₁.Grows h₂) :
    Appended h buf h₂ buf₁ bs where
  heap := hw
  grows := a.grows.trans hg
  wf := a.wf.grows hg
  toString_eq := (toString_grows a.wf hg).trans a.toString_eq
  refOffset_eq := a.refOffset_eq

/-- One round of either append: a block from the chain, filled with as much as
its free space allows. -/
theorem Appended.fill_extend {h₁ : Heap} {b : BlockId} {bs : Bytes} (hb : buf.WF h)
    (hw₁ : h₁.WF) (hg₁ : h.Grows h₁) (hlt : b < h₁.fresh)
    (hf : bs.length ≤ (h₁.block b).freeSpace) :
    Appended h buf (fill h₁ b bs) (buf.extend b (h₁.block b).size bs.length) bs where
  heap := fill_wf hw₁ hlt hf
  grows := hg₁.trans (fill_grows h₁ b bs)
  wf := (extend_spec (hb.grows hg₁) hlt bs).1
  toString_eq := by rw [(extend_spec (hb.grows hg₁) hlt bs).2, toString_grows hb hg₁]
  refOffset_eq := extend_refOffset _ _ _ _

theorem appendChar_spec (hw : h.WF) (hb : buf.WF h) (t : ThreadId) (c : UInt8) :
    ∃ h' buf', appendChar h t buf c = some (h', buf') ∧ Appended h buf h' buf' [c] := by
  obtain ⟨h₁, b, hs, hw₁, hg₁, -, hlt, hf⟩ := h.shareBlockFromTLSChain_spec hw t
  have ha : Appended h buf (fill h₁ b [c]) (buf.extend b (h₁.block b).size 1) [c] :=
    .fill_extend hb hw₁ hg₁ hlt hf
  exact ⟨_, _, by rw [appendChar, hs]; rfl, ha⟩

theorem appendLoop_spec (t : ThreadId) (fuel : ℕ) (bs : Bytes) (hfuel : bs.length ≤ fuel)
    (hw : h.WF) (hb : buf.WF h) :
    ∃ h' buf', appendLoop t fuel h buf bs = some (h', buf') ∧ Appended h buf h' buf' bs := by
  induction fuel generalizing h buf bs with
  | zero =>
    obtain rfl : bs = [] := List.length_eq_zero_iff.mp (Nat.le_zero.mp hfuel)
    exact ⟨h, buf, rfl, .nil hw hb⟩
  | succ fuel ih =>
    cases bs with
    | nil => exact ⟨h, buf, rfl, .nil hw hb⟩
    | cons x xs =>
      obtain ⟨h₁, b, hs, hw₁, hg₁, -, hlt, hf⟩ := h.shareBlockFromTLSChain_spec hw t
      -- one round moves `k` bytes, at least one
      set k := min (x :: xs).length (h₁.block b).freeSpace with hk
      have hkpos : 0 < k := by simp [hk, hf]
      have hklen : ((x :: xs).take k).length = k := List.length_take_of_le (min_le_left _ _)
      have ha : Appended h buf _ _ ((x :: xs).take k) :=
        .fill_extend hb hw₁ hg₁ hlt (by rw [hklen]; exact min_le_right _ _)
      rw [hklen] at ha
      obtain ⟨h₃, buf₃, hr, ha₃⟩ := ih ((x :: xs).drop k)
        (by rw [List.length_drop]; omega) ha.heap ha.wf
      refine ⟨h₃, buf₃, ?_, ?_⟩
      · rw [appendLoop, hs]
        exact hr
      · rw [← List.take_append_drop k (x :: xs)]
        exact ha.trans ha₃

theorem append_spec (hw : h.WF) (hb : buf.WF h) (t : ThreadId) (data : Option Bytes) :
    ∃ h' buf', append h t buf data = some (h', buf') ∧ Appended h buf h' buf' (data.getD []) := by
  cases data with
  | none => exact ⟨h, buf, rfl, .nil hw hb⟩
  | some bs => exact appendLoop_spec t bs.length bs le_rfl hw hb

theorem Solid.extend (hs : buf.Solid) (b : BlockId) (o : ℕ) {n : ℕ} (hn : 0 < n) :
    (buf.extend b o n).Solid := by
  have hpush : ({ buf with ref := buf.ref ++ [⟨b, o, n⟩] } : IOBuffer).Solid :=
    hs.append (by simpa using hn)
  unfold IOBuffer.extend
  split
  · split_ifs
    · refine List.forall_mem_append.mpr ⟨fun s hm => hs s (List.mem_of_mem_dropLast hm), ?_⟩
      simp
      omega
    · exact hpush
  · exact hpush

theorem Solid.appendChar (hs : buf.Solid) {t : ThreadId} {c : UInt8} {buf' : IOBuffer}
    (he : appendChar h t buf c = some (h', buf')) : buf'.Solid := by
  obtain ⟨⟨h₁, b⟩, -, he⟩ := Option.bind_eq_some_iff.mp he
  obtain ⟨-, rfl⟩ := Prod.mk.inj (Option.some.inj he)
  exact hs.extend _ _ Nat.one_pos

theorem Solid.appendLoop {t : ThreadId} {fuel : ℕ} {bs : Bytes} {buf' : IOBuffer} (hs : buf.Solid)
    (hw : h.WF) (he : appendLoop t fuel h buf bs = some (h', buf')) : buf'.Solid := by
  induction fuel generalizing h buf bs with
  | zero =>
    cases bs with
    | nil => obtain ⟨rfl, rfl⟩ := Prod.mk.inj (Option.some.inj he); exact hs
    | cons x xs => cases he
  | succ fuel ih =>
    cases bs with
    | nil => obtain ⟨rfl, rfl⟩ := Prod.mk.inj (Option.some.inj he); exact hs
    | cons x xs =>
      obtain ⟨h₁, b, hb, hw₁, -, -, hlt, hf⟩ := h.shareBlockFromTLSChain_spec hw t
      rw [IOBuffer.appendLoop, hb] at he
      -- the block has room, so the slice of this round is not empty
      exact ih (hs.extend _ _ (lt_min (by simp) hf)) (fill_wf hw₁ hlt (by simp)) he

theorem Solid.appendBytes {t : ThreadId} {data : Option Bytes} {buf' : IOBuffer} (hs : buf.Solid)
    (hw : h.WF) (he : IOBuffer.append h t buf data = some (h', buf')) : buf'.Solid := by
  cases data with
  | none => obtain ⟨rfl, rfl⟩ := Prod.mk.inj (Option.some.inj he); exact hs
  | some bs => exact hs.appendLoop hw he

/-- The first bytes appended are where the free space of the thread's block began. -/
theorem append_starts_at (hw : h.WF) (hb : buf.WF h) {t : ThreadId} {b : BlockId}
    (hc : h.tlsBlockChain t = some b) (hf : 0 < (h.block b).freeSpace) (bs : Bytes) :
    ∃ h' buf', append h t buf (some bs) = some (h', buf') ∧
      readAt (h'.block b).data (h.block b).size (min bs.length (h.block b).freeSpace) =
        bs.take (h.block b).freeSpace := by
  cases bs with
  | nil => exact ⟨h, buf, rfl, by simp [readAt]⟩
  | cons x xs =>
    have hlt := hw.chain_lt t b hc
    set k := min (x :: xs).length (h.block b).freeSpace with hk
    have hklen : ((x :: xs).take k).length = k := List.length_take_of_le (min_le_left _ _)
    have ha : Appended h buf _ _ ((x :: xs).take k) :=
      .fill_extend hb hw (.refl h) hlt (by rw [hklen]; exact min_le_right _ _)
    rw [hklen] at ha
    have hkpos : 0 < k := by simp [hk, hf]
    obtain ⟨h', buf', hr, ha'⟩ := appendLoop_spec t xs.length ((x :: xs).drop k)
      (by rw [List.length_drop, List.length_cons]; omega) ha.heap ha.wf
    refine ⟨h', buf', ?_, ?_⟩
    · rw [append, List.length_cons, appendLoop, h.shareBlockFromTLSChain_of_free hc hf]
      exact hr
    · -- later rounds leave them alone
      have hkeep : readAt (h'.block b).data (h.block b).size k =
          readAt ((fill h b ((x :: xs).take k)).block b).data (h.block b).size k :=
        readAt_congr fun i _ hi => ha'.grows.data_eq b hlt i (by rw [fill_size, hklen]; exact hi)
      have htake : (x :: xs).take (h.block b).freeSpace = (x :: xs).take k := by
        rw [hk, min_comm, ← List.take_eq_take_min]
      have hfill := fill_bytes h b ((x :: xs).take k)
      rw [hklen] at hfill
      rw [hkeep, htake]
      exact hfill

end SofaBolt.IOBuffer
