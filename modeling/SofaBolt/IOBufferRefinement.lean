import SofaBolt.IOBufferRead

namespace SofaBolt

abbrev BufId := ℕ

namespace IOBuffer

variable {h : Heap} {buf : IOBuffer}

/-- The vectors handed to `writev` are the first live slices, up to `nref` of them or until
`sizeHint` bytes are reached. -/
theorem writeVectors_spec (sizeHint nref curLen : ℕ) (l : List Slice) (hne : l ≠ [])
    (hn : nref ≤ l.length) :
    ∃ vec, writeVectors sizeHint nref curLen l = some vec ∧ vec <+: l ∧ vec ≠ [] ∧
      (vec.length = max 1 nref ∨ sizeHint ≤ curLen + (vec.map Slice.length).sum) := by
  induction l generalizing nref curLen with
  | nil => exact absurd rfl hne
  | cons s l ih =>
    cases nref with
    | zero => exact ⟨[s], rfl, by simp, by simp, .inl rfl⟩
    | succ nref =>
      by_cases hc : nref ≠ 0 ∧ curLen + s.length < sizeHint
      · have hl : l ≠ [] := by rintro rfl; simp at hn; omega
        obtain ⟨vec, hv, hp, -, hstop⟩ := ih nref (curLen + s.length) hl (by simpa using hn)
        refine ⟨s :: vec, ?_, by simpa using hp, by simp, ?_⟩
        · rw [writeVectors, if_pos hc, hv]
          rfl
        · rw [List.length_cons, List.map_cons, List.sum_cons]
          omega
      · refine ⟨[s], by rw [writeVectors, if_neg hc], by simp, by simp, ?_⟩
        simp
        omega

/-- If no slice is empty, the vectors have all the bytes, or `sizeHint` of them, or 256. -/
theorem writeVectors_sum {sizeHint nref : ℕ} {l vec : List Slice} (hl : ∀ s ∈ l, 0 < s.length)
    (hnref : nref = min l.length iobufIovMax) (hp : vec <+: l) (hne : vec ≠ [])
    (hstop : vec.length = max 1 nref ∨ sizeHint ≤ (vec.map Slice.length).sum) :
    min (l.map Slice.length).sum (max 1 (min sizeHint 256)) ≤ (vec.map Slice.length).sum := by
  have hcount : vec.length ≤ (vec.map Slice.length).sum := by
    simpa using List.length_le_sum_of_one_le (vec.map Slice.length)
      (List.forall_mem_map.mpr fun s hs => hl s (hp.subset hs))
  have hpos : 0 < vec.length := List.length_pos_iff.mpr hne
  have hle := hp.length_le
  rw [iobufIovMax] at hnref
  rcases hstop with hstop | hstop
  · rcases Nat.lt_or_ge 256 l.length with hlong | hshort
    · omega
    · rw [hp.eq_of_length (by omega)]
      exact min_le_left _ _
  · omega

/-- The descriptor gets the first bytes, and these are what is removed. -/
theorem cutIntoFileDescriptor_spec (hw : buf.WF h) (hne : buf.toString h ≠ []) (sizeHint : ℕ)
    (r : WriteOutcome) :
    ∃ buf' sent nw, buf.cutIntoFileDescriptor h sizeHint r = some (buf', sent, nw) ∧ buf'.WF h ∧
      match r with
      | .error _ => nw = -1 ∧ sent = [] ∧ buf' = buf
      | .accepted n => ∃ k : ℕ, nw = k ∧ k ≤ n ∧
          (buf.Solid → buf'.Solid ∧
            min n (min (buf.toString h).length (max 1 (min sizeHint 256))) ≤ k) ∧
          k ≤ (buf.toString h).length ∧
          sent = (buf.toString h).take k ∧ buf'.toString h = (buf.toString h).drop k := by
  have hlive : buf.live ≠ [] := by
    intro e
    exact hne (by rw [toString, e]; rfl)
  obtain ⟨vec, hv, hp, hvne, hstop⟩ := writeVectors_spec sizeHint
    (min (buf.ref.length - buf.refOffset) iobufIovMax) 0 buf.live hlive (by simp [live])
  cases r with
  | error e => exact ⟨buf, [], -1, by simp [cutIntoFileDescriptor, hv], hw, rfl, rfl, rfl⟩
  | accepted n =>
    set sent := (vec.flatMap (Slice.bytes h)).take n with hsent
    have hpre : sent <+: buf.toString h := by
      obtain ⟨rest, hrest⟩ := hp
      refine (List.take_prefix _ _).trans ⟨rest.flatMap (Slice.bytes h), ?_⟩
      rw [← List.flatMap_append, hrest]
      rfl
    have htake : sent = (buf.toString h).take sent.length := List.prefix_iff_eq_take.mp hpre
    refine ⟨if 0 < sent.length then (buf.popFront sent.length).1 else buf, sent, sent.length, ?_, ?_,
      sent.length, rfl, by simp [hsent], fun hs => ⟨?_, ?_⟩, hpre.length_le, htake, ?_⟩
    · rw [cutIntoFileDescriptor, hv]
      rfl
    · split_ifs
      · exact (popFront_spec hw _).1
      · exact hw
    · split_ifs
      · exact (hs.walk _).2
      · exact hs
    · have hsum := writeVectors_sum (fun s hm => hs s (mem_of_mem_live hm))
        (by rw [live, List.length_drop]) hp hvne (by simpa using hstop)
      rw [hsent, List.length_take, flatMap_bytes_length, ← length_eq]
      exact min_le_min_left n hsum
    · split_ifs with hpos
      · exact (popFront_spec hw _).2.1
      · rw [Nat.eq_zero_of_not_pos hpos, List.drop_zero]

end IOBuffer

structure World where
  heap : Heap
  buf : BufId → IOBuffer

inductive Op where
  | appendChar (t : ThreadId) (b : BufId) (c : UInt8)
  | append (t : ThreadId) (b : BufId) (data : Option Bytes)
  | appendFromFileDescriptor (t : ThreadId) (b : BufId) (maxSize : ℕ) (r : ReadOutcome)
  | cut (b out : BufId) (n : ℕ)
  | cutString (b : BufId) (out : Bytes) (n : ℕ)
  | cutVoid (b : BufId) (n : ℕ)
  | copyTo (b : BufId) (n : ℕ)
  | popFront (b : BufId) (n : ℕ)
  | popBack (b : BufId) (n : ℕ)
  | cutIntoFileDescriptor (b : BufId) (sizeHint : ℕ) (r : WriteOutcome)
  | clear (b : BufId)
  | copyConstruct (b right : BufId)
  | copyAssign (b right : BufId)
  | moveConstruct (b right : BufId)
  | swap (b right : BufId)
deriving DecidableEq, Repr

inductive Out where
  | unit
  | size (n : ℕ)
  | ret (n : ℤ)
  | bytes (bs : Bytes)
  | string (out : Bytes) (n : ℕ)
  | sent (bs : Bytes) (n : ℤ)
deriving DecidableEq, Repr

namespace World

def setBuf (w : World) (b : BufId) (buf : IOBuffer) : World :=
  { w with buf := Function.update w.buf b buf }

def init (memory : BlockId → Block) : World :=
  { heap := Heap.init memory, buf := fun _ => IOBuffer.empty }

def content (w : World) (b : BufId) : Bytes := (w.buf b).toString w.heap

def step (w : World) : Op → Option (World × Out)
  | .appendChar t b c => do
    let (h, buf) ← IOBuffer.appendChar w.heap t (w.buf b) c
    some ({ w with heap := h }.setBuf b buf, .unit)
  | .append t b data => do
    let (h, buf) ← IOBuffer.append w.heap t (w.buf b) data
    some ({ w with heap := h }.setBuf b buf, .unit)
  | .appendFromFileDescriptor t b maxSize r => do
    let (h, buf, nr) ← IOBuffer.appendFromFileDescriptor w.heap t (w.buf b) maxSize r
    some ({ w with heap := h }.setBuf b buf, .ret nr)
  | .cut b out n =>
    let (buf, buf', k) := (w.buf b).cut (w.buf out) n
    some ((w.setBuf b buf).setBuf out buf', .size k)
  | .cutString b out n =>
    let (buf, out, k) := (w.buf b).cutString w.heap out n
    some (w.setBuf b buf, .string out k)
  | .cutVoid b n =>
    let (buf, bs) := (w.buf b).cutVoid w.heap n
    some (w.setBuf b buf, .bytes bs)
  | .copyTo b n => some (w, .bytes ((w.buf b).copyTo w.heap n))
  | .popFront b n =>
    let (buf, k) := (w.buf b).popFront n
    some (w.setBuf b buf, .size k)
  | .popBack b n =>
    let (buf, k) := (w.buf b).popBack n
    some (w.setBuf b buf, .size k)
  | .cutIntoFileDescriptor b sizeHint r => do
    let (buf, sent, nw) ← (w.buf b).cutIntoFileDescriptor w.heap sizeHint r
    some (w.setBuf b buf, .sent sent nw)
  | .clear b => some (w.setBuf b (w.buf b).clear, .unit)
  | .copyConstruct b right => some (w.setBuf b (w.buf right), .unit)
  | .copyAssign b right =>
    some (if b ≠ right then w.setBuf b (w.buf right) else w, .unit)
  | .moveConstruct b right =>
    some ((w.setBuf b (w.buf right)).setBuf right (w.buf right).clear, .unit)
  | .swap b right =>
    some (if b ≠ right then (w.setBuf b (w.buf right)).setBuf right (w.buf b) else w, .unit)

def run (w : World) : List Op → Option (World × List Out)
  | [] => some (w, [])
  | op :: ops => do
    let (w, o) ← w.step op
    let (w, os) ← w.run ops
    some (w, o :: os)

end World

/-- What the caller has to see to: `cut` goes into another buffer, nothing is
constructed from itself, and only a non-empty buffer is written out. -/
def Op.Allowed (m : BufId → Bytes) : Op → Prop
  | .cut b out _ => out ≠ b
  | .copyConstruct b right => b ≠ right
  | .moveConstruct b right => b ≠ right
  | .cutIntoFileDescriptor b _ _ => m b ≠ []
  | _ => True

/-- One operation on byte strings, with what it returns.  A descriptor decides
itself how many of the bytes it is offered it passes on. -/
def ByteStep (m : BufId → Bytes) : Op → Out → (BufId → Bytes) → Prop
  | .appendChar _ b c, o, m' => o = .unit ∧ m' = Function.update m b (m b ++ [c])
  | .append _ b data, o, m' => o = .unit ∧ m' = Function.update m b (m b ++ data.getD [])
  | .appendFromFileDescriptor _ _ _ (.error _), o, m' => o = .ret (-1) ∧ m' = m
  | .appendFromFileDescriptor _ b maxSize (.data bs), o, m' =>
    ∃ k : ℕ, o = .ret k ∧ k ≤ maxSize ∧ k ≤ bs.length ∧
      min bs.length (min maxSize (63 * 8168)) ≤ k ∧ m' = Function.update m b (m b ++ bs.take k)
  | .cut b out n, o, m' => o = .size (min n (m b).length) ∧
      m' = Function.update (Function.update m b ((m b).drop n)) out (m out ++ (m b).take n)
  | .cutString b out n, o, m' => o = .string (out ++ (m b).take n) (min n (m b).length) ∧
      m' = Function.update m b ((m b).drop n)
  | .cutVoid b n, o, m' => o = .bytes ((m b).take n) ∧ m' = Function.update m b ((m b).drop n)
  | .copyTo b n, o, m' => o = .bytes ((m b).take n) ∧ m' = m
  | .popFront b n, o, m' => o = .size (min n (m b).length) ∧
      m' = Function.update m b ((m b).drop n)
  | .popBack b n, o, m' => o = .size (min n (m b).length) ∧
      m' = Function.update m b ((m b).take ((m b).length - n))
  | .cutIntoFileDescriptor _ _ (.error _), o, m' => o = .sent [] (-1) ∧ m' = m
  | .cutIntoFileDescriptor b sizeHint (.accepted n), o, m' =>
    ∃ k : ℕ, k ≤ n ∧ k ≤ (m b).length ∧
      min n (min (m b).length (max 1 (min sizeHint 256))) ≤ k ∧
      o = .sent ((m b).take k) k ∧ m' = Function.update m b ((m b).drop k)
  | .clear b, o, m' => o = .unit ∧ m' = Function.update m b []
  | .copyConstruct b right, o, m' => o = .unit ∧ m' = Function.update m b (m right)
  | .copyAssign b right, o, m' => o = .unit ∧ m' = Function.update m b (m right)
  | .moveConstruct b right, o, m' => o = .unit ∧
      m' = Function.update (Function.update m b (m right)) right []
  | .swap b right, o, m' => o = .unit ∧
      m' = Function.update (Function.update m b (m right)) right (m b)

def ByteRun (m : BufId → Bytes) : List Op → List Out → (BufId → Bytes) → Prop
  | [], os, m' => os = [] ∧ m' = m
  | op :: ops, os, m' =>
    ∃ o os' m₁, os = o :: os' ∧ ByteStep m op o m₁ ∧ ByteRun m₁ ops os' m'

namespace World

structure WF (w : World) : Prop where
  heap : w.heap.WF
  buf : ∀ b, (w.buf b).WF w.heap

variable {w : World}

theorem wf_init (memory : BlockId → Block) : (init memory).WF where
  heap := Heap.wf_init memory
  buf _ := IOBuffer.wf_empty _

/-- An operation that replaces one buffer and lets the heap grow changes the
content of that buffer only. -/
theorem setBuf_spec (hw : w.WF) {h' : Heap} (hh : h'.WF) (hg : w.heap.Grows h') (b : BufId)
    {buf : IOBuffer} (hb : buf.WF h') :
    ({ w with heap := h' }.setBuf b buf).WF ∧
      ({ w with heap := h' }.setBuf b buf).content =
        Function.update w.content b (buf.toString h') := by
  refine ⟨⟨hh, fun c => ?_⟩, funext fun c => ?_⟩
  · by_cases e : c = b
    · subst e; simpa [setBuf] using hb
    · simpa [setBuf, Function.update_of_ne e] using (hw.buf c).grows hg
  · by_cases e : c = b
    · subst e; simp [content, setBuf]
    · simpa [content, setBuf, Function.update_of_ne e] using
        IOBuffer.toString_grows (hw.buf c) hg

theorem setBuf_spec_same (hw : w.WF) (b : BufId) {buf : IOBuffer} (hb : buf.WF w.heap) :
    (w.setBuf b buf).WF ∧
      (w.setBuf b buf).content = Function.update w.content b (buf.toString w.heap) :=
  setBuf_spec hw hw.heap (.refl _) b hb

theorem setBuf_spec_two (hw : w.WF) (b c : BufId) {buf buf' : IOBuffer} (hb : buf.WF w.heap)
    (hc : buf'.WF w.heap) :
    ((w.setBuf b buf).setBuf c buf').WF ∧
      ((w.setBuf b buf).setBuf c buf').content =
        Function.update (Function.update w.content b (buf.toString w.heap)) c
          (buf'.toString w.heap) := by
  obtain ⟨h₁, h₂⟩ := setBuf_spec_same hw b hb
  obtain ⟨h₃, h₄⟩ := setBuf_spec_same h₁ c (show buf'.WF (w.setBuf b buf).heap from hc)
  exact ⟨h₃, by rw [h₄, h₂]; rfl⟩

def Solid (w : World) : Prop := ∀ b, (w.buf b).Solid

theorem Solid.setBuf (hs : w.Solid) (h : Heap) (b : BufId) {buf : IOBuffer} (hb : buf.Solid) :
    ({ w with heap := h }.setBuf b buf).Solid := by
  intro c
  by_cases e : c = b
  · subst e; simpa [World.setBuf] using hb
  · simpa [World.setBuf, Function.update_of_ne e] using hs c

/-- One operation on the buffers is one operation on the byte strings. -/
theorem step_spec (hw : w.WF) (op : Op) (ha : op.Allowed w.content) :
    ∃ w' o, w.step op = some (w', o) ∧ w'.WF ∧
      (w.Solid → w'.Solid ∧ ByteStep w.content op o w'.content) := by
  cases op with
  | appendChar t b c =>
    obtain ⟨h', buf', he, hh, hg, hb, ht, -⟩ := IOBuffer.appendChar_spec hw.heap (hw.buf b) t c
    obtain ⟨hw', hc⟩ := setBuf_spec hw hh hg b hb
    exact ⟨_, _, by simp only [step, he]; rfl, hw', fun hs =>
      ⟨hs.setBuf _ _ ((hs b).appendChar he), rfl, by rw [hc, ht]; rfl⟩⟩
  | append t b data =>
    obtain ⟨h', buf', he, hh, hg, hb, ht, -⟩ := IOBuffer.append_spec hw.heap (hw.buf b) t data
    obtain ⟨hw', hc⟩ := setBuf_spec hw hh hg b hb
    exact ⟨_, _, by simp only [step, he]; rfl, hw', fun hs =>
      ⟨hs.setBuf _ _ ((hs b).appendBytes hw.heap he), rfl, by rw [hc, ht]; rfl⟩⟩
  | appendFromFileDescriptor t b maxSize r =>
    obtain ⟨h', buf', nr, he, hh, hg, hb, hsolid, -, ht⟩ :=
      IOBuffer.appendFromFileDescriptor_spec hw.heap (hw.buf b) t maxSize r
    obtain ⟨hw', hc⟩ := setBuf_spec hw hh hg b hb
    refine ⟨_, _, by simp only [step, he]; rfl, hw', fun hs =>
      ⟨hs.setBuf _ _ (hsolid (hs b)), ?_⟩⟩
    cases r with
    | error e =>
      refine ⟨by rw [ht.1], ?_⟩
      rw [hc, ht.2]
      exact Function.update_eq_self _ _
    | data bs =>
      obtain ⟨k, hk, hk₁, hk₂, hk₃, ht⟩ := ht
      exact ⟨k, by rw [hk], hk₂, hk₁, hk₃, by rw [hc, ht]; rfl⟩
  | cut b out n =>
    obtain ⟨hb, ht, ho, hto, hn⟩ := IOBuffer.cut_spec (hw.buf b) (hw.buf out) n
    obtain ⟨hw', hc⟩ := setBuf_spec_two hw b out hb ho
    exact ⟨_, _, rfl, hw', fun hs =>
      ⟨(hs.setBuf _ _ ((hs b).walk n).2).setBuf _ _ ((hs out).append ((hs b).walk n).1),
        congrArg Out.size hn, hc.trans (by rw [ht, hto]; rfl)⟩⟩
  | cutString b out n =>
    obtain ⟨hb, ht, ho, hn⟩ := IOBuffer.cutString_spec (hw.buf b) out n
    obtain ⟨hw', hc⟩ := setBuf_spec_same hw b hb
    exact ⟨_, _, rfl, hw', fun hs => ⟨hs.setBuf _ _ ((hs b).cutString w.heap out n),
      congrArg₂ Out.string ho hn, hc.trans (by rw [ht]; rfl)⟩⟩
  | cutVoid b n =>
    obtain ⟨hb, ht, ho⟩ := IOBuffer.cutVoid_spec (hw.buf b) n
    obtain ⟨hw', hc⟩ := setBuf_spec_same hw b hb
    exact ⟨_, _, rfl, hw', fun hs => ⟨hs.setBuf _ _ ((hs b).walk n).2,
      congrArg Out.bytes ho, hc.trans (by rw [ht]; rfl)⟩⟩
  | copyTo b n =>
    exact ⟨w, _, rfl, hw, fun hs => ⟨hs, congrArg Out.bytes (IOBuffer.copyTo_eq _ _ n), rfl⟩⟩
  | popFront b n =>
    obtain ⟨hb, ht, hn⟩ := IOBuffer.popFront_spec (hw.buf b) n
    obtain ⟨hw', hc⟩ := setBuf_spec_same hw b hb
    exact ⟨_, _, rfl, hw', fun hs => ⟨hs.setBuf _ _ ((hs b).walk n).2,
      congrArg Out.size hn, hc.trans (by rw [ht]; rfl)⟩⟩
  | popBack b n =>
    obtain ⟨hb, ht, hn⟩ := IOBuffer.popBack_spec (hw.buf b) n
    obtain ⟨hw', hc⟩ := setBuf_spec_same hw b hb
    exact ⟨_, _, rfl, hw', fun hs => ⟨hs.setBuf _ _ ((hs b).popBack n),
      congrArg Out.size hn, hc.trans (by rw [ht]; rfl)⟩⟩
  | cutIntoFileDescriptor b sizeHint r =>
    obtain ⟨buf', sent, nw, he, hb, ht⟩ :=
      IOBuffer.cutIntoFileDescriptor_spec (hw.buf b) ha sizeHint r
    obtain ⟨hw', hc⟩ := setBuf_spec_same hw b hb
    refine ⟨_, _, by simp only [step, he]; rfl, hw', fun hs => ?_⟩
    cases r with
    | error e =>
      obtain ⟨rfl, rfl, rfl⟩ := ht
      exact ⟨hs.setBuf _ _ (hs b), rfl, hc.trans (Function.update_eq_self _ _)⟩
    | accepted n =>
      obtain ⟨k, hk, hk₁, hsolid, hk₂, hsent, ht⟩ := ht
      obtain ⟨hs', hk₃⟩ := hsolid (hs b)
      exact ⟨hs.setBuf _ _ hs', k, hk₁, hk₂, hk₃, by rw [hk, hsent]; rfl, by rw [hc, ht]; rfl⟩
  | clear b =>
    obtain ⟨hw', hc⟩ := setBuf_spec_same hw b (IOBuffer.wf_empty w.heap)
    exact ⟨_, _, rfl, hw', fun hs => ⟨hs.setBuf _ _ IOBuffer.solid_empty, rfl, hc⟩⟩
  | copyConstruct b right =>
    obtain ⟨hw', hc⟩ := setBuf_spec_same hw b (hw.buf right)
    exact ⟨_, _, rfl, hw', fun hs => ⟨hs.setBuf _ _ (hs right), rfl, hc⟩⟩
  | copyAssign b right =>
    by_cases e : b = right
    · subst e
      exact ⟨w, .unit, by simp [step], hw, fun hs =>
        ⟨hs, rfl, (Function.update_eq_self _ _).symm⟩⟩
    · obtain ⟨hw', hc⟩ := setBuf_spec_same hw b (hw.buf right)
      exact ⟨_, _, by simp only [step, if_pos e], hw', fun hs =>
        ⟨hs.setBuf _ _ (hs right), rfl, hc⟩⟩
  | moveConstruct b right =>
    obtain ⟨hw', hc⟩ := setBuf_spec_two hw b right (hw.buf right) (IOBuffer.wf_empty w.heap)
    exact ⟨_, _, rfl, hw', fun hs =>
      ⟨(hs.setBuf _ _ (hs right)).setBuf _ _ IOBuffer.solid_empty, rfl, hc⟩⟩
  | swap b right =>
    by_cases e : b = right
    · subst e
      exact ⟨w, .unit, by simp [step], hw, fun hs => ⟨hs, rfl, by simp⟩⟩
    · obtain ⟨hw', hc⟩ := setBuf_spec_two hw b right (hw.buf right) (hw.buf b)
      exact ⟨_, _, by simp only [step, if_pos e], hw', fun hs =>
        ⟨(hs.setBuf _ _ (hs right)).setBuf _ _ (hs b), rfl, hc⟩⟩

def Legal (w : World) : List Op → Prop
  | [] => True
  | op :: ops => op.Allowed w.content ∧ ∀ w' o, w.step op = some (w', o) → w'.Legal ops

theorem run_spec (hw : w.WF) (hs : w.Solid) (ops : List Op) (hl : w.Legal ops) :
    ∃ w' os, w.run ops = some (w', os) ∧ w'.WF ∧ ByteRun w.content ops os w'.content := by
  induction ops generalizing w with
  | nil => exact ⟨w, [], rfl, hw, rfl, rfl⟩
  | cons op ops ih =>
    obtain ⟨w₁, o, he, hw₁, hstep⟩ := step_spec hw op hl.1
    obtain ⟨w₂, os, hr, hw₂, hrun⟩ := ih hw₁ (hstep hs).1 (hl.2 w₁ o he)
    exact ⟨w₂, o :: os, by rw [run, he]; simp [hr], hw₂, o, os, w₁.content, rfl, (hstep hs).2, hrun⟩

/-- From empty buffers on, any sequence of operations runs to its end, returns
what the byte strings return and leaves in every buffer, also in those that
share its blocks, the string of the model. -/
theorem ioBuffer_refines_byteStrings (memory : BlockId → Block) (ops : List Op)
    (hl : (init memory).Legal ops) :
    ∃ w os, (init memory).run ops = some (w, os) ∧ ByteRun (fun _ => []) ops os w.content ∧
      ∀ b, (w.buf b).length = (w.content b).length := by
  obtain ⟨w, os, hr, -, hrun⟩ := run_spec (wf_init memory) (fun _ => IOBuffer.solid_empty) ops hl
  exact ⟨w, os, hr, hrun, fun b => IOBuffer.length_eq _ _⟩

theorem ioBuffer_refines_byteStrings_shared :
    ∃ w os, (init fun _ => ⟨none, 0, 0, fun _ => 0⟩).run
        [.append 0 0 (some [1, 2, 3]), .copyConstruct 1 0, .cut 1 2 2, .appendChar 0 1 7,
          .appendChar 1 0 9, .popBack 0 2] = some (w, os) ∧
      ByteRun (fun _ => []) [.append 0 0 (some [1, 2, 3]), .copyConstruct 1 0, .cut 1 2 2,
          .appendChar 0 1 7, .appendChar 1 0 9, .popBack 0 2] os w.content ∧
      ∀ b, (w.buf b).length = (w.content b).length :=
  ioBuffer_refines_byteStrings _ _
    ⟨trivial, fun _ _ _ => ⟨Nat.one_ne_zero, fun _ _ _ => ⟨(by decide : 2 ≠ 1), fun _ _ _ =>
      ⟨trivial, fun _ _ _ => ⟨trivial, fun _ _ _ => ⟨trivial, fun _ _ _ => trivial⟩⟩⟩⟩⟩⟩

end World

end SofaBolt
