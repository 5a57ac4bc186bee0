import SofaBolt.IntrusiveListThreads

/- Between IS2 and RS5 a node is in the list, whatever the links of its neighbours say at that
moment. The list of these nodes, and for each node the trail along which its `prev` is still
to be moved, is what the accesses of all threads keep up. -/

namespace SofaBolt.IntrusiveList

open Adjacent LaggingLinks Run

variable {prev prev' next next' : NodePtr → Option NodePtr} {ts : List Pc} {xs ys : List ℕ}
  {trail : NodePtr → List NodePtr} {a b c n p v x y : NodePtr} {i : ℕ} {pc pc' : Pc}

structure NextOrder (next : NodePtr → Option NodePtr) (ts : List Pc) (xs : List ℕ) : Prop where
  forward : Forward (Adj (frame xs)) next (Has Pc.cutNext ts)
  owner : Unique Pc.cutNext Prod.fst ts

namespace NextOrder

theorem same (h : NextOrder next ts xs) (hi : ts[i]? = some pc) (hpc : pc'.cutNext = pc.cutNext)
    (hnext : ∀ a b, Adj (frame xs) a b → next' a = next a) :
    NextOrder next' (ts.set i pc') xs where
  forward := by
    rw [has_set_same hi hpc]
    exact h.forward.congr hnext
  owner := h.owner.set_same hi hpc

theorem cut (h : NextOrder next ts xs) (hi : ts[i]? = some pc) (hpc : pc.cutNext = none)
    (hpc' : pc'.cutNext = some (c, n)) (hcn : Adj (frame xs) c n) (hc : next c = some n) :
    NextOrder (Function.update next c none) (ts.set i pc') xs where
  forward := h.forward.takeOff hcn hc (has_set_gain hi hpc hpc')
  owner := by
    refine h.owner.set_gain hi hpc' ?_
    rintro ⟨a, b⟩ hk rfl
    rw [(h.forward.off _ _ hk).1] at hc
    cases hc

theorem mend (h : NextOrder next ts xs) (hxs : xs.Nodup) (hi : ts[i]? = some pc)
    (hpc : pc.cutNext = some (c, n)) (hpc' : pc'.cutNext = none) :
    NextOrder (Function.update next c (some n)) (ts.set i pc') xs where
  forward := by
    obtain ⟨-, hcn⟩ := h.forward.off c n ⟨pc, mem_of_getElem? hi, hpc⟩
    exact h.forward.putBack (fun b hb => hb.unique_right (frame_nodup hxs) hcn)
      (has_set_lose h.owner hi hpc hpc')
  owner := h.owner.set_lose hi hpc'

theorem insert (h : NextOrder next ts xs) (hi : ts[i]? = some pc) (hpc : pc'.cutNext = pc.cutNext)
    (hp : next p = some n) (hx : next x = some n) (hxp : x ≠ p)
    (hadj : ∀ a b, Adj (frame ys) a b ↔
      (a = p ∧ b = x) ∨ (a = x ∧ b = n) ∨ (a ≠ p ∧ Adj (frame xs) a b)) :
    NextOrder (Function.update next p (some x)) (ts.set i pc') ys where
  forward := by
    rw [has_set_same hi hpc]
    exact h.forward.insert hp hx hxp hadj
  owner := h.owner.set_same hi hpc

theorem erase (h : NextOrder next ts xs) (hi : ts[i]? = some pc) (hpc : pc.cutNext = some (c, n))
    (hpc' : pc'.cutNext = none) (hp : next p = some c)
    (hadj : ∀ a b, Adj (frame ys) a b ↔
      (a = p ∧ b = n) ∨ (a ≠ p ∧ a ≠ c ∧ Adj (frame xs) a b)) :
    NextOrder (Function.update next p (some n)) (ts.set i pc') ys where
  forward := h.forward.erase hp hadj (has_set_lose h.owner hi hpc hpc')
  owner := h.owner.set_lose hi hpc'

end NextOrder

def pendingKey (k : NodePtr × NodePtr × NodePtr) : NodePtr × NodePtr := (k.1, k.2.1)

structure PrevOrder (prev : NodePtr → Option NodePtr) (ts : List Pc) (xs : List ℕ)
    (trail : NodePtr → List NodePtr) : Prop where
  backward : Backward (Adj (frame xs)) prev (Has Pc.cutPrev ts) (Has Pc.pending ts) trail
  owner : Unique Pc.cutPrev Prod.fst ts
  pendingOwner : Unique Pc.pending pendingKey ts

namespace PrevOrder

theorem same (h : PrevOrder prev ts xs trail) (hi : ts[i]? = some pc)
    (hpc : pc'.cutPrev = pc.cutPrev) (hpend : pc'.pending = pc.pending)
    (hprev : ∀ a b, Adj (frame xs) a b → prev' b = prev b) :
    PrevOrder prev' (ts.set i pc') xs trail where
  backward := by
    rw [has_set_same hi hpc, has_set_same hi hpend]
    exact h.backward.congr hprev
  owner := h.owner.set_same hi hpc
  pendingOwner := h.pendingOwner.set_same hi hpend

theorem cut (h : PrevOrder prev ts xs trail) (hi : ts[i]? = some pc) (hpc : pc.cutPrev = none)
    (hpc' : pc'.cutPrev = some (c, v)) (hpend : pc'.pending = pc.pending)
    (hac : Adj (frame xs) a c) (hc : prev c = some v) :
    PrevOrder (Function.update prev c none) (ts.set i pc') xs trail where
  backward := by
    rw [has_set_same hi hpend]
    exact h.backward.takeOff hac hc (has_set_gain hi hpc hpc')
  owner := by
    refine h.owner.set_gain hi hpc' ?_
    rintro ⟨b, u⟩ hk rfl
    rw [(h.backward.off _ _ hk).2.1] at hc
    cases hc
  pendingOwner := h.pendingOwner.set_same hi hpend

theorem mend (h : PrevOrder prev ts xs trail) (hi : ts[i]? = some pc)
    (hpc : pc.cutPrev = some (c, v)) (hpc' : pc'.cutPrev = none)
    (hpend : pc'.pending = pc.pending) :
    PrevOrder (Function.update prev c (some v)) (ts.set i pc') xs trail where
  backward := by
    rw [has_set_same hi hpend]
    exact h.backward.putBack ⟨pc, mem_of_getElem? hi, hpc⟩ (has_set_lose h.owner hi hpc hpc')
  owner := h.owner.set_lose hi hpc'
  pendingOwner := h.pendingOwner.set_same hi hpend

theorem settle (h : PrevOrder prev ts xs trail) (hi : ts[i]? = some pc)
    (hpc : pc'.cutPrev = pc.cutPrev) (hpend : pc.pending = some (y, a, b))
    (hpend' : pc'.pending = none) (hy : prev y = some a) :
    PrevOrder (Function.update prev y (some b)) (ts.set i pc') xs
      (Function.update trail y (trail y).tail) where
  backward := by
    rw [has_set_same hi hpc]
    exact h.backward.settle ⟨pc, mem_of_getElem? hi, hpend⟩ hy
      (has_set_lose h.pendingOwner hi hpend hpend')
  owner := h.owner.set_same hi hpc
  pendingOwner := h.pendingOwner.set_lose hi hpend'

theorem not_pending (h : PrevOrder prev ts xs trail) (hpn : Adj (frame xs) p n)
    (k : NodePtr × NodePtr × NodePtr) (hk : Has Pc.pending ts k) : pendingKey k ≠ (n, p) := by
  obtain ⟨y, a, b⟩ := k
  intro hkey
  obtain ⟨rfl, rfl⟩ := Prod.mk.inj hkey
  exact not_adj_last (h.backward.nodup _ _ hpn) (h.backward.last _ _ hpn)
    ((h.backward.steps _ _ _).mp hk).2

theorem insert (h : PrevOrder prev ts xs trail) (hxs : xs.Nodup) (hi : ts[i]? = some pc)
    (hpc : pc'.cutPrev = pc.cutPrev) (hpend : pc.pending = none)
    (hpend' : pc'.pending = some (n, p, x)) (hpn : Adj (frame xs) p n) (hx : x ∉ frame xs)
    (hxp : prev x = some p) (htrail : x ∉ trail n)
    (hadj : ∀ a b, Adj (frame ys) a b ↔
      (a = p ∧ b = x) ∨ (a = x ∧ b = n) ∨ (a ≠ p ∧ Adj (frame xs) a b)) :
    PrevOrder prev (ts.set i pc') ys
      (Function.update (Function.update trail x [p]) n (trail n ++ [x])) where
  backward := by
    have hnx : n ≠ x := by
      rintro rfl
      exact hx hpn.mem_right
    have hadd := h.backward.add (fun a ha => hx ha.mem_right) hxp
    have htrail' : Function.update trail x [p] n = trail n := Function.update_of_ne hnx _ _
    rw [has_set_same hi hpc, ← htrail']
    refine hadd.retarget (Or.inr hpn) (htrail'.symm ▸ htrail) (fun a b => ?_)
      (has_set_gain hi hpend hpend')
    rw [hadj]
    have hleft : Adj (frame xs) a b → (a = p ↔ b = n) := by
      intro hab
      constructor
      · rintro rfl
        exact hab.unique_right (frame_nodup hxs) hpn
      · rintro rfl
        exact hab.unique_left (frame_nodup hxs) hpn
    have hbx : b = x → b ≠ n := by
      rintro rfl
      exact hnx.symm
    tauto
  owner := h.owner.set_same hi hpc
  pendingOwner := h.pendingOwner.set_gain hi hpend' (h.not_pending hpn)

theorem erase (h : PrevOrder prev ts xs trail) (hxs : xs.Nodup) (hi : ts[i]? = some pc)
    (hpc : pc.cutPrev = some (c, p)) (hpc' : pc'.cutPrev = none) (hpend : pc.pending = none)
    (hpend' : pc'.pending = some (n, c, p)) (hpx : Adj (frame xs) p c) (hcn : Adj (frame xs) c n)
    (htrail : p ∉ trail n)
    (hadj : ∀ a b, Adj (frame ys) a b ↔
      (a = p ∧ b = n) ∨ (a ≠ p ∧ a ≠ c ∧ Adj (frame xs) a b)) :
    PrevOrder prev (ts.set i pc') ys (Function.update trail n (trail n ++ [p])) where
  backward := by
    -- the thread has taken off the link to the present neighbour, so none is to follow
    have htc : trail c = [p] :=
      eq_singleton (h.backward.nodup p c hpx)
        (h.backward.off c p ⟨pc, mem_of_getElem? hi, hpc⟩).2.2 (h.backward.last p c hpx)
    have hnc : n ≠ c := (hcn.ne (frame_nodup hxs)).symm
    have hdrop := h.backward.drop htc (has_set_lose h.owner hi hpc hpc')
    refine hdrop.retarget ⟨hnc, hcn⟩ htrail (fun a b => ?_) (has_set_gain hi hpend hpend')
    rw [hadj]
    have hleft : Adj (frame xs) a b → (a = p ↔ b = c) ∧ (a = c ↔ b = n) := by
      intro hab
      refine ⟨⟨?_, ?_⟩, ?_, ?_⟩ <;> rintro rfl
      · exact hab.unique_right (frame_nodup hxs) hpx
      · exact hab.unique_left (frame_nodup hxs) hpx
      · exact hab.unique_right (frame_nodup hxs) hcn
      · exact hab.unique_left (frame_nodup hxs) hcn
    tauto
  owner := h.owner.set_lose hi hpc'
  pendingOwner := h.pendingOwner.set_gain hi hpend' (h.not_pending hcn)

end PrevOrder

end SofaBolt.IntrusiveList
