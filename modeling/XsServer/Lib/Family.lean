import Mathlib.Algebra.BigOperators.Fin
import Mathlib.Algebra.Order.BigOperators.Group.Multiset
import Mathlib.Tactic.Abel

/-! Families of lists, such as the slots of a table, as one multiset: moving an element from a list
to another one keeps the total, and an element of a total without duplicates is in one list. -/

namespace XsServer.Lib.Family

variable {ι β : Type*} [Fintype ι]

/-- The elements of all lists. -/
@[irreducible] def total (f : ι → List β) : Multiset β := ∑ i, (f i : Multiset β)

theorem mem_total {f : ι → List β} {x : β} : x ∈ total f ↔ ∃ i, x ∈ f i := by
  simp [total, Multiset.mem_sum]

theorem total_empty : total (fun _ : ι => ([] : List β)) = 0 := by
  simp [total]

variable [DecidableEq ι]

theorem le_total (f : ι → List β) (i : ι) : (f i : Multiset β) ≤ total f := by
  rw [total, ← Finset.add_sum_erase _ _ (Finset.mem_univ i)]
  exact Multiset.le_add_right _ _

theorem eq_of_mem {f : ι → List β} (h : (total f).Nodup) {x : β} {i j : ι} (hi : x ∈ f i)
    (hj : x ∈ f j) : j = i := by
  by_contra hne
  rw [total, ← Finset.add_sum_erase _ _ (Finset.mem_univ i), Multiset.nodup_add] at h
  refine Multiset.disjoint_left.mp h.2.2 (Multiset.mem_coe.mpr hi) ?_
  exact Multiset.mem_sum.mpr ⟨j, Finset.mem_erase.mpr ⟨hne, Finset.mem_univ _⟩, hj⟩

/-- Replacing a list replaces its elements in the total. -/
theorem total_update (f : ι → List β) (i : ι) (l : List β) :
    total (Function.update f i l) + (f i : Multiset β) = total f + (l : Multiset β) := by
  rw [total, total, ← Finset.add_sum_erase _ _ (Finset.mem_univ i),
    ← Finset.add_sum_erase _ (fun j => (f j : Multiset β)) (Finset.mem_univ i),
    Function.update_self, Finset.sum_congr rfl fun j hj => by
      rw [Function.update_of_ne (Finset.ne_of_mem_erase hj)]]
  abel

theorem total_append (f : ι → List β) (i : ι) (x : β) :
    total (Function.update f i (f i ++ [x])) = total f + {x} := by
  refine add_right_cancel ((total_update f i _).trans ?_)
  rw [← Multiset.coe_add, Multiset.coe_singleton]
  abel

theorem total_clear (f : ι → List β) (i : ι) :
    total (Function.update f i []) + (f i : Multiset β) = total f :=
  (total_update f i []).trans (add_zero _)

end XsServer.Lib.Family
