import Mathlib.Data.List.FinRange

/-! Interleavings of a family of lists, and machines that are fed with one.  What each list does is
stated by a condition that the elements of the other lists keep. -/

namespace XsServer.Lib

variable {ι α β σ : Type*} [DecidableEq ι]

/-- The elements of all lists of the family, those of each list in their order. -/
inductive Interleaving : (ι → List α) → List α → Prop
  | nil {ls : ι → List α} : (∀ i, ls i = []) → Interleaving ls []
  | cons {ls : ι → List α} {i : ι} {a : α} {l as : List α} : ls i = a :: l →
      Interleaving (Function.update ls i l) as → Interleaving ls (a :: as)

theorem Interleaving.append {ls : ι → List α} {i : ι} {front l as : List α}
    (h : Interleaving (Function.update ls i l) as) (hi : ls i = front ++ l) :
    Interleaving ls (front ++ as) := by
  induction front generalizing ls with
  | nil =>
    rw [List.nil_append] at hi
    rwa [← hi, Function.update_eq_self] at h
  | cons a front ih =>
    refine .cons hi (ih ?_ (Function.update_self ..))
    rwa [Function.update_idem]

/-- An interleaving has the elements of the lists. -/
theorem Interleaving.perm {ls : ι → List α} {as : List α} (h : Interleaving ls as) {is : List ι}
    (hnodup : is.Nodup) (hall : ∀ i, i ∈ is) : as.Perm (is.flatMap ls) := by
  induction h with
  | nil hnil =>
    rw [List.flatMap_eq_nil_iff.mpr fun i _ => hnil i]
  | @cons ls i a l as hi _ ih =>
    obtain ⟨before, after, rfl⟩ := List.append_of_mem (hall i)
    have hne : ∀ j ∈ before ++ after, j ≠ i := by
      intro j hj heq
      rw [List.nodup_middle] at hnodup
      rw [heq] at hj
      exact (List.nodup_cons.mp hnodup).1 hj
    have hbefore : before.flatMap (Function.update ls i l) = before.flatMap ls :=
      List.flatMap_congr fun j hj =>
        Function.update_of_ne (hne j (List.mem_append_left _ hj)) _ _
    have hafter : after.flatMap (Function.update ls i l) = after.flatMap ls :=
      List.flatMap_congr fun j hj =>
        Function.update_of_ne (hne j (List.mem_append_right _ hj)) _ _
    rw [List.flatMap_append, List.flatMap_cons, hbefore, hafter, Function.update_self] at ih
    rw [List.flatMap_append, List.flatMap_cons, hi, List.cons_append]
    exact (ih.cons a).trans List.perm_middle.symm

/-- One element for each element of a list. -/
theorem Interleaving.perm_map {γ : Type*} {rs : List γ} {f : γ → α} {as : List α}
    (h : Interleaving (fun i : Fin rs.length => [f (rs.get i)]) as) : as.Perm (rs.map f) := by
  have hperm := h.perm (List.nodup_finRange rs.length) List.mem_finRange
  rw [← List.map_eq_flatMap] at hperm
  have hmap : (List.finRange rs.length).map (fun i => f (rs.get i)) = rs.map f := by
    apply List.ext_getElem
    · rw [List.length_map, List.length_map, List.length_finRange]
    · intro k hk hk'
      rw [List.getElem_map, List.getElem_map, List.getElem_finRange]
      rfl
  rwa [hmap] at hperm

theorem eq_of_nodup_map {γ : Type*} {rs : List γ} {f : γ → α} (h : (rs.map f).Nodup)
    {i j : Fin rs.length} (heq : f (rs.get i) = f (rs.get j)) : i = j := by
  apply List.nodup_iff_injective_get.mp (List.Nodup.of_map f h)
  exact List.inj_on_of_nodup_map h (List.get_mem rs i) (List.get_mem rs j) heq

/-- The machine goes over the list, and gives what its steps give. -/
def feed (step : σ → α → Option (σ × List β)) : σ → List α → Option (σ × List β)
  | s, [] => some (s, [])
  | s, a :: as => do
    let r ← step s a
    let r' ← feed step r.1 as
    some (r'.1, r.2 ++ r'.2)

/-- `Ready i s l out`: from the state on, the elements `l` that are left of the list `i` give `out`.
A step of a list takes its own condition on, and keeps those of the others. -/
def Advances (step : σ → α → Option (σ × List β)) (Ready : ι → σ → List α → List β → Prop)
    (i : ι) (s : σ) (a : α) (l : List α) (out : List β) : Prop :=
  ∃ s' now later, step s a = some (s', now) ∧ out = now ++ later ∧ Ready i s' l later ∧
    ∀ j ≠ i, ∀ l' out', Ready j s l' out' → Ready j s' l' out'

theorem Interleaving.feed {ls : ι → List α} {as : List α} (h : Interleaving ls as)
    (step : σ → α → Option (σ × List β)) (Ready : ι → σ → List α → List β → Prop) (s : σ)
    (outs : ι → List β) (hready : ∀ i, Ready i s (ls i) (outs i))
    (hend : ∀ i s out, Ready i s [] out → out = [])
    (hstep : ∀ i s a l out, Ready i s (a :: l) out → Advances step Ready i s a l out) :
    ∃ s' out, Lib.feed step s as = some (s', out) ∧ Interleaving outs out ∧
    ∀ i, Ready i s' [] [] := by
  induction h generalizing s outs with
  | nil hnil =>
    have houts : ∀ i, outs i = [] := by
      intro i
      apply hend i s
      have := hready i
      rwa [hnil i] at this
    refine ⟨s, [], rfl, .nil houts, fun i => ?_⟩
    have := hready i
    rwa [hnil i, houts i] at this
  | @cons ls i a l as hi _ ih =>
    have hhead := hready i
    rw [hi] at hhead
    obtain ⟨s', now, later, hs, hout, hlater, hothers⟩ := hstep i s a l _ hhead
    have hready' : ∀ j, Ready j s' (Function.update ls i l j) (Function.update outs i later j) := by
      intro j
      by_cases hj : j = i
      · rw [hj, Function.update_self, Function.update_self]
        exact hlater
      · rw [Function.update_of_ne hj, Function.update_of_ne hj]
        exact hothers j hj _ _ (hready j)
    obtain ⟨s'', out, hfeed, hinter, hfinal⟩ := ih s' _ hready'
    refine ⟨s'', now ++ out, ?_, hinter.append hout, hfinal⟩
    rw [Lib.feed, hs, Option.bind_eq_bind, Option.bind_some, hfeed]
    rfl

end XsServer.Lib
