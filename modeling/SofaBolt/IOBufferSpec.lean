import SofaBolt.IOBuffer

/- Growth of the heap is what protects the other buffers: an operation writes only above
`size`, and every slice lies below it. -/

namespace SofaBolt

open Memory

def Slice.InBlock (h : Heap) (s : Slice) : Prop :=
  s.block < h.fresh ∧ s.offset + s.length ≤ (h.block s.block).size

structure IOBuffer.WF (buf : IOBuffer) (h : Heap) : Prop where
  offset_le : buf.refOffset ≤ buf.ref.length
  inBlock : ∀ s ∈ buf.ref, s.InBlock h

def IOBuffer.Solid (buf : IOBuffer) : Prop := ∀ s ∈ buf.ref, 0 < s.length

structure Slice.Within (x s : Slice) : Prop where
  block_eq : x.block = s.block
  end_le : x.offset + x.length ≤ s.offset + s.length
  pos : 0 < x.length

theorem Slice.InBlock.within {h : Heap} {s x : Slice} (hs : s.InBlock h) (hx : x.Within s) :
    x.InBlock h :=
  ⟨hx.block_eq ▸ hs.1, hx.end_le.trans (hx.block_eq ▸ hs.2)⟩

@[simp] theorem Slice.bytes_length (h : Heap) (s : Slice) : (s.bytes h).length = s.length := by
  simp [Slice.bytes]

theorem Slice.InBlock.grows {h h' : Heap} {s : Slice} (hs : s.InBlock h) (hg : h.Grows h') :
    s.InBlock h' :=
  ⟨hs.1.trans_le hg.fresh_le, hs.2.trans (hg.size_le _ hs.1)⟩

theorem Slice.bytes_grows {h h' : Heap} {s : Slice} (hs : s.InBlock h) (hg : h.Grows h') :
    s.bytes h' = s.bytes h :=
  readAt_congr fun i _ hi => hg.data_eq _ hs.1 i (hi.trans_le hs.2)

theorem flatMap_bytes_grows {h h' : Heap} {l : List Slice} (hl : ∀ s ∈ l, s.InBlock h)
    (hg : h.Grows h') : l.flatMap (Slice.bytes h') = l.flatMap (Slice.bytes h) := by
  refine congrArg List.flatten (List.map_congr_left ?_)
  intro s hs
  exact Slice.bytes_grows (hl s hs) hg

@[simp] theorem flatMap_bytes_length (h : Heap) (l : List Slice) :
    (l.flatMap (Slice.bytes h)).length = (l.map Slice.length).sum := by
  simp [List.length_flatMap]

/-- A walk covers the first `n - cur` bytes and leaves the others. -/
theorem walk_bytes (h : Heap) (n : ℕ) (l : List Slice) (cur : ℕ) :
    (walk n cur l).covered.flatMap (Slice.bytes h) = (l.flatMap (Slice.bytes h)).take (n - cur) ∧
      (walk n cur l).rest.flatMap (Slice.bytes h) = (l.flatMap (Slice.bytes h)).drop (n - cur) ∧
      (walk n cur l).curSize = cur + min (n - cur) (l.map Slice.length).sum := by
  induction l generalizing cur with
  | nil => simp [walk]
  | cons s l ih =>
    rw [walk]
    by_cases hc : cur < n
    · by_cases hs : n - cur < s.length
      · -- the loop ends inside the first slice
        rw [if_pos hc, if_pos hs]
        refine ⟨?_, ?_, ?_⟩
        · simp only [List.flatMap_cons, List.flatMap_nil, List.append_nil]
          rw [List.take_append_of_le_length (by simp; omega)]
          exact (readAt_take _ _ hs.le).symm
        · simp only [List.flatMap_cons]
          rw [List.drop_append_of_le_length (by simp; omega)]
          exact congrArg (· ++ _) (readAt_drop _ _ hs.le).symm
        · simp only [List.map_cons, List.sum_cons]
          omega
      · rw [if_pos hc, if_neg hs]
        obtain ⟨h₁, h₂, h₃⟩ := ih (cur + s.length)
        have hsub : n - (cur + s.length) = n - cur - s.length := by omega
        have hle : (s.bytes h).length ≤ n - cur := by rw [Slice.bytes_length]; omega
        refine ⟨?_, ?_, ?_⟩
        · rw [List.flatMap_cons, List.flatMap_cons, h₁, List.take_append,
            List.take_of_length_le hle, Slice.bytes_length, hsub]
        · rw [List.flatMap_cons, h₂, List.drop_append, List.drop_eq_nil_of_le hle,
            Slice.bytes_length, hsub, List.nil_append]
        · rw [h₃, List.map_cons, List.sum_cons]
          omega
    · rw [if_neg hc]
      have h0 : n - cur = 0 := by omega
      simp [h0]

theorem walk_passed_le (n : ℕ) (l : List Slice) (cur : ℕ) :
    (walk n cur l).passed ≤ l.length := by
  induction l generalizing cur with
  | nil => simp [walk]
  | cons s l ih =>
    rw [walk]
    split_ifs
    · simp
    · simpa using ih (cur + s.length)
    · simp

/-- What holds of the slices and of every stretch of them holds of what a walk hands on and
of what it leaves. -/
theorem walk_forall {P : Slice → Prop} (hP : ∀ s x, P s → x.Within s → P x) {l : List Slice}
    (hl : ∀ s ∈ l, P s) (n cur : ℕ) :
    (∀ s ∈ (walk n cur l).covered, P s) ∧ ∀ s ∈ (walk n cur l).rest, P s := by
  induction l generalizing cur with
  | nil => simp [walk]
  | cons s l ih =>
    have hs : P s := hl s (by simp)
    have hl' : ∀ x ∈ l, P x := fun x hx => hl x (by simp [hx])
    rw [walk]
    split_ifs with hc hlt
    · refine ⟨?_, ?_⟩
      · intro x hx
        obtain rfl := List.mem_singleton.mp hx
        exact hP s _ hs ⟨rfl, Nat.add_le_add_left hlt.le _, by dsimp only; omega⟩
      · intro x hx
        rcases List.mem_cons.mp hx with rfl | hx
        · exact hP s _ hs ⟨rfl, by dsimp only; omega, by dsimp only; omega⟩
        · exact hl' x hx
    · obtain ⟨h₁, h₂⟩ := ih hl' (cur + s.length)
      refine ⟨?_, h₂⟩
      intro x hx
      rcases List.mem_cons.mp hx with rfl | hx
      · exact hs
      · exact h₁ x hx
    · exact ⟨by simp, hl⟩

theorem walkBack_bytes (h : Heap) (n : ℕ) (l : List Slice) (cur : ℕ) :
    (walkBack n cur l).2.reverse.flatMap (Slice.bytes h) =
        (l.reverse.flatMap (Slice.bytes h)).take ((l.map Slice.length).sum - (n - cur)) ∧
      (walkBack n cur l).1 = cur + min (n - cur) (l.map Slice.length).sum := by
  induction l generalizing cur with
  | nil => simp [walkBack]
  | cons s l ih =>
    have hlen : (l.reverse.flatMap (Slice.bytes h)).length = (l.map Slice.length).sum := by simp
    rw [walkBack, List.map_cons, List.sum_cons, List.reverse_cons, List.flatMap_append]
    by_cases hc : cur < n
    · by_cases hs : n - cur < s.length
      · rw [if_pos hc, if_pos hs]
        refine ⟨?_, by dsimp only; omega⟩
        have hk : s.length + (l.map Slice.length).sum - (n - cur) =
            (l.map Slice.length).sum + (s.length - (n - cur)) := by omega
        rw [hk, List.reverse_cons, List.flatMap_append, ← hlen, List.take_length_add_append]
        congr 1
        simpa [Slice.bytes] using
          (readAt_take _ s.offset (by omega : s.length - (n - cur) ≤ s.length)).symm
      · rw [if_pos hc, if_neg hs]
        obtain ⟨h₁, h₂⟩ := ih (cur + s.length)
        have hk : s.length + (l.map Slice.length).sum - (n - cur) =
            (l.map Slice.length).sum - (n - (cur + s.length)) := by omega
        refine ⟨?_, by rw [h₂]; omega⟩
        rw [h₁, hk, List.take_append_of_le_length (by rw [hlen]; omega)]
    · rw [if_neg hc]
      have h0 : n - cur = 0 := by omega
      refine ⟨?_, by simp [h0]⟩
      rw [h0, Nat.sub_zero, List.take_of_length_le (by simp [Nat.add_comm]), List.reverse_cons,
        List.flatMap_append]

theorem walkBack_forall {P : Slice → Prop} (hP : ∀ s x, P s → x.Within s → P x) {l : List Slice}
    (hl : ∀ s ∈ l, P s) (n cur : ℕ) : ∀ s ∈ (walkBack n cur l).2, P s := by
  induction l generalizing cur with
  | nil => simp [walkBack]
  | cons s l ih =>
    have hs : P s := hl s (by simp)
    have hl' : ∀ x ∈ l, P x := fun x hx => hl x (by simp [hx])
    rw [walkBack]
    split_ifs with hc hlt
    · intro x hx
      rcases List.mem_cons.mp hx with rfl | hx
      · exact hP s _ hs ⟨rfl, Nat.add_le_add_left (Nat.sub_le _ _) _, by dsimp only; omega⟩
      · exact hl' x hx
    · exact ih hl' (cur + s.length)
    · exact hl

namespace IOBuffer

variable {h h' : Heap} {buf out : IOBuffer}

theorem mem_of_mem_live {s : Slice} (hs : s ∈ buf.live) : s ∈ buf.ref := List.mem_of_mem_drop hs

theorem WF.live (hw : buf.WF h) : ∀ s ∈ buf.live, s.InBlock h :=
  fun s hs => hw.inBlock s (mem_of_mem_live hs)

theorem WF.walk (hw : buf.WF h) (n : ℕ) :
    (∀ s ∈ (walk n 0 buf.live).covered, s.InBlock h) ∧
      ∀ s ∈ (walk n 0 buf.live).rest, s.InBlock h :=
  walk_forall (fun _ _ => Slice.InBlock.within) hw.live n 0

theorem WF.grows (hw : buf.WF h) (hg : h.Grows h') : buf.WF h' :=
  ⟨hw.offset_le, fun s hs => (hw.inBlock s hs).grows hg⟩

theorem toString_grows (hw : buf.WF h) (hg : h.Grows h') : buf.toString h' = buf.toString h :=
  flatMap_bytes_grows hw.live hg

theorem live_append (ho : buf.refOffset ≤ buf.ref.length) (slices : List Slice) :
    ({ buf with ref := buf.ref ++ slices } : IOBuffer).live = buf.live ++ slices :=
  List.drop_append_of_le_length ho

/-- Slices added at the end, in a heap that may have grown for them. -/
theorem WF.append (hw : buf.WF h) (hg : h.Grows h') {slices : List Slice}
    (hs : ∀ s ∈ slices, s.InBlock h') :
    ({ buf with ref := buf.ref ++ slices } : IOBuffer).WF h' where
  offset_le := hw.offset_le.trans (by simp)
  inBlock s hmem := by
    rcases List.mem_append.mp hmem with hmem | hmem
    · exact (hw.inBlock s hmem).grows hg
    · exact hs s hmem

theorem toString_append (hw : buf.WF h) (hg : h.Grows h') (slices : List Slice) :
    ({ buf with ref := buf.ref ++ slices } : IOBuffer).toString h' =
      buf.toString h ++ slices.flatMap (Slice.bytes h') := by
  rw [toString, live_append hw.offset_le, List.flatMap_append, flatMap_bytes_grows hw.live hg]
  rfl

theorem length_eq (buf : IOBuffer) (h : Heap) : buf.length = (buf.toString h).length := by
  simp [length, toString]

theorem wf_empty (h : Heap) : empty.WF h := ⟨le_rfl, by simp [empty]⟩

@[simp] theorem toString_empty (h : Heap) : empty.toString h = [] := rfl

theorem tryReleaseBlock_live (buf : IOBuffer) : buf.tryReleaseBlock.live = buf.live := by
  unfold tryReleaseBlock
  split_ifs with h₁ h₂
  · have : buf.ref.length ≤ buf.refOffset := by omega
    simp [live, List.drop_eq_nil_of_le this]
  · simp [live]
  · rfl

theorem tryReleaseBlock_offset_le (ho : buf.refOffset ≤ buf.ref.length) :
    buf.tryReleaseBlock.refOffset ≤ buf.tryReleaseBlock.ref.length := by
  unfold IOBuffer.tryReleaseBlock
  split_ifs
  · exact le_rfl
  · exact Nat.zero_le _
  · exact ho

theorem mem_of_mem_tryReleaseBlock {s : Slice} (hs : s ∈ buf.tryReleaseBlock.ref) :
    s ∈ buf.ref := by
  unfold IOBuffer.tryReleaseBlock at hs
  split_ifs at hs
  · exact absurd hs List.not_mem_nil
  · exact List.mem_of_mem_drop hs
  · exact hs

theorem advance_live (ho : buf.refOffset ≤ buf.ref.length) {r : Walk}
    (hp : r.passed ≤ buf.live.length) :
    (buf.advance r).live = r.rest ∧ (buf.advance r).refOffset ≤ (buf.advance r).ref.length := by
  have hlen : (buf.ref.take (buf.refOffset + r.passed)).length = buf.refOffset + r.passed := by
    simp only [live, List.length_drop] at hp
    rw [List.length_take]
    omega
  refine ⟨?_, ?_⟩
  · rw [advance, tryReleaseBlock_live]
    exact List.drop_left' hlen
  · apply tryReleaseBlock_offset_le
    simp [hlen]

theorem mem_of_mem_advance {r : Walk} {s : Slice} (hs : s ∈ (buf.advance r).ref) :
    s ∈ buf.ref ∨ s ∈ r.rest :=
  (List.mem_append.mp (mem_of_mem_tryReleaseBlock hs)).imp_left List.mem_of_mem_take

theorem advance_spec (hw : buf.WF h) {r : Walk} (hp : r.passed ≤ buf.live.length)
    (hr : ∀ s ∈ r.rest, s.InBlock h) :
    (buf.advance r).WF h ∧ (buf.advance r).live = r.rest := by
  obtain ⟨hl, ho⟩ := advance_live hw.offset_le hp
  refine ⟨⟨ho, ?_⟩, hl⟩
  intro s hs
  rcases mem_of_mem_advance hs with hs | hs
  · exact hw.inBlock s hs
  · exact hr s hs

theorem advance_walk_spec (hw : buf.WF h) (n : ℕ) :
    (buf.advance (walk n 0 buf.live)).WF h ∧
      (buf.advance (walk n 0 buf.live)).toString h = (buf.toString h).drop n := by
  obtain ⟨hwf, hl⟩ := advance_spec hw (walk_passed_le n buf.live 0) (hw.walk n).2
  refine ⟨hwf, ?_⟩
  rw [toString, hl, (walk_bytes h n buf.live 0).2.1]
  rfl

theorem walk_curSize (buf : IOBuffer) (h : Heap) (n : ℕ) :
    (walk n 0 buf.live).curSize = min n (buf.toString h).length := by
  rw [(walk_bytes h n buf.live 0).2.2, toString, flatMap_bytes_length]
  simp

theorem popFront_spec (hw : buf.WF h) (n : ℕ) :
    (buf.popFront n).1.WF h ∧ (buf.popFront n).1.toString h = (buf.toString h).drop n ∧
      (buf.popFront n).2 = min n (buf.toString h).length :=
  ⟨(advance_walk_spec hw n).1, (advance_walk_spec hw n).2, walk_curSize buf h n⟩

theorem popBack_spec (hw : buf.WF h) (n : ℕ) :
    (buf.popBack n).1.WF h ∧
      (buf.popBack n).1.toString h =
        (buf.toString h).take ((buf.toString h).length - n) ∧
      (buf.popBack n).2 = min n (buf.toString h).length := by
  have hrev : ∀ s ∈ buf.live.reverse, s.InBlock h := fun s hs => hw.live s (List.mem_reverse.mp hs)
  obtain ⟨h₁, h₂⟩ := walkBack_bytes h n buf.live.reverse 0
  have hsum : (buf.live.reverse.map Slice.length).sum = (buf.toString h).length := by
    rw [← length_eq, List.map_reverse, List.sum_reverse]
    rfl
  have htake : (buf.ref.take buf.refOffset).length = buf.refOffset :=
    List.length_take_of_le hw.offset_le
  refine ⟨⟨?_, ?_⟩, ?_, ?_⟩
  · simp only [popBack, List.length_append, htake]
    omega
  · intro s hs
    rcases List.mem_append.mp hs with hs | hs
    · exact hw.inBlock s (List.mem_of_mem_take hs)
    · exact walkBack_forall (fun _ _ => Slice.InBlock.within) hrev n 0 s (List.mem_reverse.mp hs)
  · have hl : (buf.popBack n).1.live = (walkBack n 0 buf.live.reverse).2.reverse :=
      List.drop_left' htake
    rw [toString, hl, h₁, hsum, List.reverse_reverse]
    rfl
  · rw [popBack, h₂, hsum]
    simp

theorem solid_empty : empty.Solid := by simp [Solid, empty]

theorem Solid.append (hs : buf.Solid) {slices : List Slice} (hn : ∀ s ∈ slices, 0 < s.length) :
    ({ buf with ref := buf.ref ++ slices } : IOBuffer).Solid :=
  List.forall_mem_append.mpr ⟨hs, hn⟩

theorem Solid.walk (hs : buf.Solid) (n : ℕ) :
    (∀ s ∈ (walk n 0 buf.live).covered, 0 < s.length) ∧
      (buf.advance (walk n 0 buf.live)).Solid := by
  obtain ⟨h₁, h₂⟩ := walk_forall (P := fun s => 0 < s.length) (fun _ _ _ hx => hx.pos)
    (fun s hm => hs s (mem_of_mem_live hm)) n 0
  exact ⟨h₁, fun s hm => (mem_of_mem_advance hm).elim (hs s) (h₂ s)⟩

theorem Solid.popBack (hs : buf.Solid) (n : ℕ) : (buf.popBack n).1.Solid := by
  refine List.forall_mem_append.mpr ⟨fun s hm => hs s (List.mem_of_mem_take hm), fun s hm => ?_⟩
  exact walkBack_forall (P := fun s => 0 < s.length) (fun _ _ _ hx => hx.pos)
    (fun s hm => hs s (mem_of_mem_live (List.mem_reverse.mp hm))) n 0 s (List.mem_reverse.mp hm)

theorem Solid.cutString (hs : buf.Solid) (h : Heap) (out : Bytes) (n : ℕ) :
    (buf.cutString h out n).1.Solid := by
  unfold IOBuffer.cutString
  split_ifs
  · exact hs
  · exact (hs.walk _).2

theorem copyTo_eq (buf : IOBuffer) (h : Heap) (n : ℕ) :
    buf.copyTo h n = (buf.toString h).take n := (walk_bytes h n buf.live 0).1

theorem cutVoid_spec (hw : buf.WF h) (n : ℕ) :
    (buf.cutVoid h n).1.WF h ∧ (buf.cutVoid h n).1.toString h = (buf.toString h).drop n ∧
      (buf.cutVoid h n).2 = (buf.toString h).take n :=
  ⟨(advance_walk_spec hw n).1, (advance_walk_spec hw n).2, (walk_bytes h n buf.live 0).1⟩

theorem cutString_spec (hw : buf.WF h) (s : Bytes) (n : ℕ) :
    (buf.cutString h s n).1.WF h ∧ (buf.cutString h s n).1.toString h = (buf.toString h).drop n ∧
      (buf.cutString h s n).2.1 = s ++ (buf.toString h).take n ∧
      (buf.cutString h s n).2.2 = min n (buf.toString h).length := by
  unfold cutString
  split_ifs with h0
  · subst h0
    simpa using hw
  · obtain ⟨h₁, h₂, h₃⟩ := cutVoid_spec hw (min n buf.length)
    rw [length_eq buf h] at h₁ h₂ h₃ ⊢
    refine ⟨h₁, ?_, ?_, ?_⟩
    · rw [h₂]
      rcases le_total n (buf.toString h).length with hle | hle
      · rw [min_eq_left hle]
      · rw [min_eq_right hle, List.drop_length, List.drop_eq_nil_of_le hle]
    · dsimp only
      rw [h₃, ← List.take_eq_take_min]
    · dsimp only
      rw [h₃, List.length_take]
      omega

/-- `cut` into another buffer: both keep their invariant, the bytes move over. -/
theorem cut_spec (hw : buf.WF h) (ho : out.WF h) (n : ℕ) :
    (buf.cut out n).1.WF h ∧ (buf.cut out n).1.toString h = (buf.toString h).drop n ∧
      (buf.cut out n).2.1.WF h ∧
      (buf.cut out n).2.1.toString h = out.toString h ++ (buf.toString h).take n ∧
      (buf.cut out n).2.2 = min n (buf.toString h).length := by
  refine ⟨(advance_walk_spec hw n).1, (advance_walk_spec hw n).2,
    ho.append (.refl h) (hw.walk n).1, ?_, walk_curSize buf h n⟩
  have htxt := toString_append ho (.refl h) (walk n 0 buf.live).covered
  rw [(walk_bytes h n buf.live 0).1] at htxt
  exact htxt

/-- Appending the slices of a buffer none of whose slices has been consumed. -/
theorem appendBuffer_spec (hw : buf.WF h) (ho : out.WF h) (h0 : out.refOffset = 0) :
    (buf.appendBuffer out).WF h ∧
      (buf.appendBuffer out).toString h = buf.toString h ++ out.toString h := by
  have hlive : out.live = out.ref := by rw [live, h0, List.drop_zero]
  refine ⟨hw.append (.refl h) ho.inBlock, (toString_append hw (.refl h) out.ref).trans ?_⟩
  rw [← hlive]
  rfl

end IOBuffer

end SofaBolt
