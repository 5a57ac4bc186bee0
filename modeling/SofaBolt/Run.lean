import Mathlib.Tactic

namespace SofaBolt.Run

variable {S A : Type*} (step : S → A → Option S)

def run : S → List A → Option S
  | s, [] => some s
  | s, a :: as => (step s a).bind fun s' => run s' as

/-- Every action of the run meets `cond` in the state in which it is taken. -/
def Meets (cond : S → A → Prop) : S → List A → Prop
  | _, [] => True
  | s, a :: as => cond s a ∧ ∀ s' ∈ step s a, Meets cond s' as

instance decidableMeets (cond : S → A → Prop) [∀ s a, Decidable (cond s a)] :
    (s : S) → (as : List A) → Decidable (Meets step cond s as)
  | _, [] => isTrue trivial
  | s, a :: as =>
    have := fun s' => decidableMeets cond s' as
    inferInstanceAs (Decidable (cond s a ∧ ∀ s' ∈ step s a, Meets step cond s' as))

instance decidableExistsAfter {x : Option S} {P : S → Prop} [DecidablePred P] :
    Decidable (∃ s, x = some s ∧ P s) :=
  inferInstanceAs (Decidable (∃ s ∈ x, P s))

variable {step}

theorem run_cons {s s' : S} {a : A} {as : List A} (h : run step s (a :: as) = some s') :
    ∃ s₁, step s a = some s₁ ∧ run step s₁ as = some s' := Option.bind_eq_some_iff.mp h

theorem run_append (s : S) (as bs : List A) :
    run step s (as ++ bs) = (run step s as).bind fun s' => run step s' bs := by
  induction as generalizing s with
  | nil => rfl
  | cons a as ih =>
    rw [List.cons_append, run, run, Option.bind_assoc]
    congr 1
    funext s'
    exact ih s'

/-- What every step under `cond` preserves holds after a run under `cond`. -/
theorem run_induction {cond : S → A → Prop} {inv : S → Prop}
    (hstep : ∀ s a s', inv s → cond s a → step s a = some s' → inv s') {s s' : S} {as : List A}
    (hs : inv s) (hm : Meets step cond s as) (hr : run step s as = some s') : inv s' := by
  induction as generalizing s with
  | nil => exact Option.some.inj hr ▸ hs
  | cons a as ih =>
    obtain ⟨s₁, h₁, h₂⟩ := run_cons hr
    exact ih (hstep s a s₁ hs hm.1 h₁) (hm.2 s₁ h₁) h₂

/-- If every step under `cond` can be taken, so can a run under `cond`. -/
theorem run_total {cond : S → A → Prop} {inv : S → Prop}
    (hstep : ∀ s a, inv s → cond s a → ∃ s', step s a = some s' ∧ inv s') {s : S} {as : List A}
    (hs : inv s) (hm : Meets step cond s as) : ∃ s', run step s as = some s' ∧ inv s' := by
  induction as generalizing s with
  | nil => exact ⟨s, rfl, hs⟩
  | cons a as ih =>
    obtain ⟨s₁, h₁, hs₁⟩ := hstep s a hs hm.1
    obtain ⟨s', hr, hs'⟩ := ih hs₁ (hm.2 s₁ h₁)
    exact ⟨s', by rw [run, h₁]; exact hr, hs'⟩

theorem meets_of_append {cond : S → A → Prop} {s s' : S} {as bs : List A}
    (hm : Meets step cond s (as ++ bs)) (hr : run step s as = some s') :
    Meets step cond s' bs := by
  induction as generalizing s with
  | nil => exact Option.some.inj hr ▸ hm
  | cons a as ih =>
    obtain ⟨s₁, h₁, h₂⟩ := run_cons hr
    exact ih (hm.2 s₁ h₁) h₂

theorem meets_append_left {cond : S → A → Prop} {s : S} {as bs : List A}
    (hm : Meets step cond s (as ++ bs)) : Meets step cond s as := by
  induction as generalizing s with
  | nil => trivial
  | cons a as ih => exact ⟨hm.1, fun s' hs' => ih (hm.2 s' hs')⟩

theorem meets_of_forall {P : A → Prop} {as : List A} (h : ∀ a ∈ as, P a) (s : S) :
    Meets step (fun _ => P) s as := by
  induction as generalizing s with
  | nil => trivial
  | cons a as ih =>
    exact ⟨h a List.mem_cons_self, fun s' _ => ih (fun b hb => h b (List.mem_cons_of_mem a hb)) s'⟩

theorem run_history {cond : S → A → Prop} {s s' : S} {as : List A} (inv : List A → S → Prop)
    (hstep : ∀ bs s₁ a s₂, run step s bs = some s₁ → inv bs s₁ → cond s₁ a → step s₁ a = some s₂ →
      inv (bs ++ [a]) s₂)
    (hs : inv [] s) (hm : Meets step cond s as) (hr : run step s as = some s') : inv as s' := by
  induction as using List.reverseRecOn generalizing s' with
  | nil => exact Option.some.inj hr ▸ hs
  | append_singleton bs a ih =>
    rw [run_append] at hr
    obtain ⟨s₁, h₁, h₂⟩ := Option.bind_eq_some_iff.mp hr
    obtain ⟨s₂, hstep₂, h₂⟩ := run_cons h₂
    cases h₂
    exact hstep bs s₁ a _ h₁ (ih (meets_append_left hm) h₁) (meets_of_append hm h₁).1 hstep₂

theorem run_invariant {inv : S → Prop} (hstep : ∀ s a s', inv s → step s a = some s' → inv s')
    {s s' : S} {as : List A} (hs : inv s) (hr : run step s as = some s') : inv s' :=
  run_induction (fun s a s' hs _ h => hstep s a s' hs h) hs
    (meets_of_forall (fun _ _ => trivial) s : Meets step (fun _ _ => True) s as) hr

section Threads

variable {T : Type*} {ts : List T} {p : ℕ} {t t' u : T}

theorem mem_of_getElem? (h : ts[p]? = some t) : t ∈ ts := List.mem_iff_getElem?.mpr ⟨p, h⟩

theorem mem_set_of_ne (h : ts[p]? = some t) (hne : u ≠ t) (hmem : u ∈ ts) : u ∈ ts.set p t' := by
  obtain ⟨q, hq⟩ := List.mem_iff_getElem?.mp hmem
  have hpq : p ≠ q := by
    rintro rfl
    exact hne (Option.some.inj (hq.symm.trans h))
  exact mem_of_getElem? (by rw [List.getElem?_set_ne hpq, hq])

theorem mem_of_mem_set (hne : u ≠ t') (hmem : u ∈ ts.set p t') : u ∈ ts :=
  (List.mem_or_eq_of_mem_set hmem).resolve_right hne

theorem getElem?_set_cases {q : ℕ} (h : ts[p]? = some t) (hq : (ts.set p t')[q]? = some u) :
    q = p ∧ u = t' ∨ q ≠ p ∧ ts[q]? = some u := by
  by_cases hpq : p = q
  · subst hpq
    rw [List.getElem?_set_self (List.getElem?_eq_some_iff.mp h).1] at hq
    exact Or.inl ⟨rfl, (Option.some.inj hq).symm⟩
  · rw [List.getElem?_set_ne hpq] at hq
    exact Or.inr ⟨fun h => hpq h.symm, hq⟩

theorem forall_getElem?_modify {P Q : ℕ → T → Prop} {f : T → T}
    (h : ∀ q u, ts[q]? = some u → P q u) (hother : ∀ q u, q ≠ p → P q u → Q q u)
    (hself : ∀ u, ts[p]? = some u → P p u → Q p (f u)) :
    ∀ q u, (ts.modify p f)[q]? = some u → Q q u := by
  intro q u hq
  rw [List.getElem?_modify] at hq
  obtain ⟨t, ht, rfl⟩ := Option.map_eq_some_iff.mp hq
  split_ifs with hpq
  · subst hpq
    exact hself t ht (h _ t ht)
  · exact hother q t (Ne.symm hpq) (h q t ht)

theorem countP_set_add (h : ts[p]? = some t) (t' : T) (at_ : T → Bool) :
    (ts.set p t').countP at_ + (at_ t).toNat = ts.countP at_ + (at_ t').toNat := by
  obtain ⟨hp, rfl⟩ := List.getElem?_eq_some_iff.mp h
  have hpos : at_ ts[p] = true → 0 < ts.countP at_ := fun hat =>
    List.countP_pos_iff.mpr ⟨ts[p], List.getElem_mem hp, hat⟩
  rw [List.countP_set hp]
  cases h₁ : at_ ts[p] <;> cases h₂ : at_ t' <;> simp
  all_goals
    have := hpos h₁
    omega

theorem countP_or {a b : T → Bool} (h : ∀ t ∈ ts, (a t && b t) = false) :
    ts.countP (fun t => a t || b t) = ts.countP a + ts.countP b := by
  induction ts with
  | nil => rfl
  | cons t ts ih =>
    have ht := h t (List.mem_cons_self ..)
    rw [List.countP_cons, List.countP_cons, List.countP_cons,
      ih fun r hr => h r (List.mem_cons_of_mem _ hr)]
    cases ha : a t <;> cases hb : b t <;> simp_all <;> omega

theorem eq_of_countP_le_one {q : ℕ} {at_ : T → Bool} (h : ts.countP at_ ≤ 1)
    (hp : ts[p]? = some t) (hq : ts[q]? = some u) (ht : at_ t = true) (hu : at_ u = true) :
    p = q := by
  have hpos : ∀ {l : List T} {i : ℕ} {r : T}, l[i]? = some r → at_ r = true → 0 < l.countP at_ :=
    fun hi hr => List.countP_pos_iff.mpr ⟨_, mem_of_getElem? hi, hr⟩
  induction ts generalizing p q with
  | nil => simp at hp
  | cons r ts ih =>
    rw [List.countP_cons] at h
    match p, q with
    | 0, 0 => rfl
    | 0, q + 1 =>
      obtain rfl := Option.some.inj hp
      have := hpos (l := ts) hq hu
      rw [if_pos ht] at h
      omega
    | p + 1, 0 =>
      obtain rfl := Option.some.inj hq
      have := hpos (l := ts) hp ht
      rw [if_pos hu] at h
      omega
    | p + 1, q + 1 => exact congrArg (· + 1) (ih (by omega) hp hq)

/-- What the threads hold together: `n` is the part of those that do not move. -/
theorem exists_count_flatMap {K : Type*} [BEq K] (h : ts[p]? = some t) (f : T → List K) (x : K) :
    ∃ n, (ts.flatMap f).count x = n + (f t).count x ∧
      ∀ t', ((ts.set p t').flatMap f).count x = n + (f t').count x := by
  obtain ⟨hp, rfl⟩ := List.getElem?_eq_some_iff.mp h
  refine ⟨((ts.eraseIdx p).flatMap f).count x, ?_, fun t' => ?_⟩
  · rw [← ((List.getElem_cons_eraseIdx_perm hp).flatMap_right f).count_eq x, List.flatMap_cons,
      List.count_append, Nat.add_comm]
  · rw [((List.set_perm_cons_eraseIdx hp t').flatMap_right f).count_eq x, List.flatMap_cons,
      List.count_append, Nat.add_comm]

section Has

variable {K κ : Type*} {f : T → Option K} {key : K → κ} {k₀ : K}

def Has (f : T → Option K) (ts : List T) (k : K) : Prop := ∃ t ∈ ts, f t = some k

def Unique (f : T → Option K) (key : K → κ) (ts : List T) : Prop :=
  ∀ (i j : ℕ) (t u : T) (k k' : K), ts[i]? = some t → ts[j]? = some u → f t = some k →
    f u = some k' → key k = key k' → i = j

theorem not_has (h : ∀ t ∈ ts, f t = none) (k : K) : ¬ Has f ts k := by
  rintro ⟨t, ht, hk⟩
  rw [h t ht] at hk
  cases hk

theorem unique_of_none (h : ∀ t ∈ ts, f t = none) : Unique f key ts := by
  intro i j t u k k' hi _ ht
  rw [h t (mem_of_getElem? hi)] at ht
  cases ht

theorem has_set_same (h : ts[p]? = some t) (hf : f t' = f t) : Has f (ts.set p t') = Has f ts := by
  have hp : p < ts.length := (List.getElem?_eq_some_iff.mp h).1
  funext k
  refine propext ⟨?_, ?_⟩
  · rintro ⟨u, hu, hk⟩
    rcases List.mem_or_eq_of_mem_set hu with hu | rfl
    · exact ⟨u, hu, hk⟩
    · exact ⟨t, mem_of_getElem? h, hf ▸ hk⟩
  · rintro ⟨u, hu, hk⟩
    by_cases hut : u = t
    · subst hut
      exact ⟨t', List.mem_set hp t', hf.trans hk⟩
    · exact ⟨u, mem_set_of_ne h hut hu, hk⟩

theorem has_set_gain (h : ts[p]? = some t) (ht : f t = none) (ht' : f t' = some k₀) (k : K) :
    Has f (ts.set p t') k ↔ k = k₀ ∨ Has f ts k := by
  have hp : p < ts.length := (List.getElem?_eq_some_iff.mp h).1
  constructor
  · rintro ⟨u, hu, hk⟩
    rcases List.mem_or_eq_of_mem_set hu with hu | rfl
    · exact Or.inr ⟨u, hu, hk⟩
    · exact Or.inl (Option.some.inj (hk.symm.trans ht'))
  · rintro (rfl | ⟨u, hu, hk⟩)
    · exact ⟨t', List.mem_set hp t', ht'⟩
    · refine ⟨u, mem_set_of_ne h ?_ hu, hk⟩
      rintro rfl
      rw [ht] at hk
      cases hk

theorem has_set (hu : Unique f key ts) (h : ts[p]? = some t) (ht : f t = some k₀) (k : K) :
    Has f (ts.set p t') k ↔ f t' = some k ∨ Has f ts k ∧ key k ≠ key k₀ := by
  have hp : p < ts.length := (List.getElem?_eq_some_iff.mp h).1
  constructor
  · rintro ⟨u, hmem, hk⟩
    obtain ⟨q, hq⟩ := List.mem_iff_getElem?.mp hmem
    rcases getElem?_set_cases h hq with ⟨rfl, rfl⟩ | ⟨hqp, hq⟩
    · exact Or.inl hk
    · exact Or.inr ⟨⟨u, mem_of_getElem? hq, hk⟩,
        fun hkey => hqp (hu q p u t k k₀ hq h hk ht hkey)⟩
  · rintro (hk | ⟨⟨u, hmem, hk⟩, hkey⟩)
    · exact ⟨t', List.mem_set hp t', hk⟩
    · refine ⟨u, mem_set_of_ne h ?_ hmem, hk⟩
      rintro rfl
      exact hkey (congrArg key (Option.some.inj (hk.symm.trans ht)))

theorem has_set_lose (hu : Unique f key ts) (h : ts[p]? = some t) (ht : f t = some k₀)
    (ht' : f t' = none) (k : K) : Has f (ts.set p t') k ↔ Has f ts k ∧ key k ≠ key k₀ := by
  rw [has_set hu h ht, ht']
  simp only [reduceCtorEq, false_or]

theorem Unique.set (hu : Unique f key ts) (h : ts[p]? = some t)
    (hnew : ∀ k, f t' = some k → f t = some k ∨ ∀ k', Has f ts k' → key k' ≠ key k) :
    Unique f key (ts.set p t') := by
  -- against another thread, the one that has moved is where it was or at a new key
  have hmoved : ∀ {q u k k'}, q ≠ p → ts[q]? = some u → f t' = some k → f u = some k' →
      key k ≠ key k' := by
    intro q u k k' hqp hq hk hk' hkey
    rcases hnew k hk with hold | hfree
    · exact hqp (hu q p u t k' k hq h hk' hold hkey.symm)
    · exact hfree k' ⟨u, mem_of_getElem? hq, hk'⟩ hkey.symm
  intro i j r r' k k' hi hj hk hk' hkey
  rcases getElem?_set_cases h hi with ⟨rfl, rfl⟩ | ⟨hip, hi₀⟩
  · rcases getElem?_set_cases h hj with ⟨rfl, rfl⟩ | ⟨hjp, hj₀⟩
    · rfl
    · exact absurd hkey (hmoved hjp hj₀ hk hk')
  · rcases getElem?_set_cases h hj with ⟨rfl, rfl⟩ | ⟨-, hj₀⟩
    · exact absurd hkey.symm (hmoved hip hi₀ hk' hk)
    · exact hu i j r r' k k' hi₀ hj₀ hk hk' hkey

theorem Unique.set_same (hu : Unique f key ts) (h : ts[p]? = some t) (hf : f t' = f t) :
    Unique f key (ts.set p t') := hu.set h fun _ hk => Or.inl (hf ▸ hk)

theorem Unique.set_gain (hu : Unique f key ts) (h : ts[p]? = some t) (ht' : f t' = some k₀)
    (hnew : ∀ k, Has f ts k → key k ≠ key k₀) : Unique f key (ts.set p t') := by
  refine hu.set h fun k hk => Or.inr ?_
  rw [← Option.some.inj (ht'.symm.trans hk)]
  exact hnew

theorem Unique.set_lose (hu : Unique f key ts) (h : ts[p]? = some t) (ht' : f t' = none) :
    Unique f key (ts.set p t') := by
  refine hu.set h fun k hk => ?_
  rw [ht'] at hk
  cases hk

end Has

end Threads

end SofaBolt.Run
