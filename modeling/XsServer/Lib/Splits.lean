import Mathlib.Data.Multiset.Bind
import Mathlib.Data.Finset.Insert

/-! Multisets that split into groups, such as the melds of a hand. -/

namespace XsServer.Lib

variable {α β ι : Type*}

/-- `s` is the union of a multiset of groups. -/
def Splits (G : Multiset α → Prop) (s : Multiset α) : Prop :=
  ∃ P : Multiset (Multiset α), (∀ g ∈ P, G g) ∧ P.join = s

namespace Splits

variable {G : Multiset α → Prop} {g s t : Multiset α}

theorem zero : Splits G 0 := ⟨0, by simp, rfl⟩

theorem add : Splits G s → Splits G t → Splits G (s + t) := by
  rintro ⟨P, hP, rfl⟩ ⟨Q, hQ, rfl⟩
  refine ⟨P + Q, fun g hg => ?_, Multiset.join_add P Q⟩
  exact (Multiset.mem_add.mp hg).elim (hP g) (hQ g)

theorem of (hg : G g) : Splits G g := by
  refine ⟨{g}, fun h hh => ?_, by simp⟩
  rwa [Multiset.mem_singleton.mp hh]

/-- Adding the groups one by one. -/
@[elab_as_elim]
theorem induct {motive : Multiset α → Prop} (h : Splits G s) (zero : motive 0)
    (add : ∀ g t, G g → motive t → motive (g + t)) : motive s := by
  obtain ⟨P, hP, rfl⟩ := h
  induction P using Multiset.induction_on with
  | empty => exact zero
  | cons g P ih =>
    rw [Multiset.join_cons]
    apply add g _ (hP g (Multiset.mem_cons_self g P))
    exact ih fun h hh => hP h (Multiset.mem_cons_of_mem hh)

/-- The groups of `s` have no elements but those of `s`. -/
theorem map (h : Splits G s) {H : Multiset β → Prop} (f : α → β)
    (hf : ∀ g, (∀ x ∈ g, x ∈ s) → G g → H (g.map f)) : Splits H (s.map f) := by
  obtain ⟨P, hP, rfl⟩ := h
  refine ⟨P.map (Multiset.map f), fun g hg => ?_, (Multiset.map_join f P).symm⟩
  obtain ⟨g, hgP, rfl⟩ := Multiset.mem_map.mp hg
  exact hf g (fun x hx => Multiset.mem_join.mpr ⟨g, hgP, hx⟩) (hP g hgP)

/-- What divides a measure of every group divides that of their union. -/
theorem dvd (h : Splits G s) {n : ℕ} {f : Multiset α → ℕ} (hzero : f 0 = 0)
    (hadd : ∀ g t, f (g + t) = f g + f t) (hG : ∀ g, G g → n ∣ f g) : n ∣ f s := by
  refine h.induct ?_ fun g t hg ht => ?_
  · rw [hzero]
    exact Nat.dvd_zero n
  · rw [hadd]
    exact Nat.dvd_add (hG g hg) ht

theorem card_join {P : Multiset (Multiset α)} {n : ℕ} (h : ∀ g ∈ P, g.card = n) :
    P.join.card = n * P.card := by
  induction P using Multiset.induction_on with
  | empty => rfl
  | cons g P ih =>
    have hP := ih fun g' hg' => h g' (Multiset.mem_cons_of_mem hg')
    rw [Multiset.join_cons, Multiset.card_add, Multiset.card_cons, hP,
      h g (Multiset.mem_cons_self g P), Nat.mul_succ, Nat.add_comm]

section Fibres

variable [DecidableEq ι] (cls : α → ι)

theorem filter (h : Splits G s) (hG : ∀ g, G g → ∃ i, ∀ x ∈ g, cls x = i) (i : ι) :
    Splits G (s.filter fun x => cls x = i) := by
  refine h.induct zero fun g t hg ht => ?_
  rw [Multiset.filter_add]
  refine add ?_ ht
  obtain ⟨j, hj⟩ := hG g hg
  by_cases hij : j = i
  · rw [Multiset.filter_eq_self.mpr fun x hx => (hj x hx).trans hij]
    exact of hg
  · rw [Multiset.filter_eq_nil.mpr fun x hx hxi => hij ((hj x hx).symm.trans hxi)]
    exact zero

theorem of_filter (h : ∀ i, Splits G (s.filter fun x => cls x = i)) : Splits G s := by
  -- over any finite set of classes, one class at a time
  have hT (T : Finset ι) : Splits G (s.filter fun x => cls x ∈ T) := by
    induction T using Finset.induction_on with
    | empty => simpa using zero
    | insert i T hi ih =>
      have hsplit := Multiset.filter_add_filter (fun x => cls x = i) (fun x => cls x ∈ T) s
      have hboth : s.filter (fun x => cls x = i ∧ cls x ∈ T) = 0 :=
        Multiset.filter_eq_nil.mpr fun x _ hx => hi (hx.1 ▸ hx.2)
      rw [hboth, add_zero] at hsplit
      simp only [Finset.mem_insert]
      rw [← hsplit]
      exact (h i).add ih
  have hs := hT (s.map cls).toFinset
  rwa [Multiset.filter_eq_self.mpr fun x hx => by
    simpa using ⟨x, hx, rfl⟩] at hs

/-- Where every group lies in one class, each class splits on its own. -/
theorem iff_filter (hG : ∀ g, G g → ∃ i, ∀ x ∈ g, cls x = i) :
    Splits G s ↔ ∀ i, Splits G (s.filter fun x => cls x = i) :=
  ⟨fun h => h.filter cls hG, of_filter cls⟩

end Fibres

end Splits

end XsServer.Lib
