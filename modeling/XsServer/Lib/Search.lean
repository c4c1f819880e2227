import Mathlib.Order.Lattice
import Mathlib.Data.List.Basic

/-! Binary search by a key in a list whose keys grow. -/

namespace XsServer.Lib

variable {α β : Type*} [LinearOrder β]

/-- The search between two positions. -/
def bsearchFrom (key : α → β) (xs : List α) (k : β) (lo hi : Nat) : Option α :=
  if lo < hi then
    let mid := (lo + hi) / 2
    match xs[mid]? with
    | none => none
    | some x =>
      if key x = k then some x
      else if key x < k then bsearchFrom key xs k (mid + 1) hi
      else bsearchFrom key xs k lo mid
  else none
  termination_by hi - lo
  decreasing_by all_goals omega

def bsearch (key : α → β) (xs : List α) (k : β) : Option α := bsearchFrom key xs k 0 xs.length

variable {key : α → β} {xs : List α} {k : β} {x : α} {lo hi : Nat}

theorem bsearchFrom_some (h : bsearchFrom key xs k lo hi = some x) : x ∈ xs ∧ key x = k := by
  fun_induction bsearchFrom key xs k lo hi with
  | case1 => cases h
  | case2 lo hi hlt mid y hy hkey =>
    obtain rfl := Option.some.inj h
    exact ⟨List.mem_of_getElem? hy, hkey⟩
  | case3 lo hi hlt mid y hy hkey hless ih | case4 lo hi hlt mid y hy hkey hless ih => exact ih h
  | case5 => cases h

/-- The position of an element stays between the bounds. -/
theorem bsearchFrom_of_mem (hxs : xs.Pairwise fun x y => key x < key y) {i : Nat}
    (hi' : i < xs.length) (hkey : key xs[i] = k) (hlo : lo ≤ i) (hhi : i < hi)
    (hlen : hi ≤ xs.length) : bsearchFrom key xs k lo hi = some xs[i] := by
  have hlt := List.pairwise_iff_getElem.mp hxs
  fun_induction bsearchFrom key xs k lo hi with
  | case1 lo hi hless mid hnone =>
    have hmid : mid < xs.length := by omega
    rw [List.getElem?_eq_getElem hmid] at hnone
    cases hnone
  | case2 lo hi hless mid y hy heq =>
    obtain ⟨hmid, rfl⟩ := List.getElem?_eq_some_iff.mp hy
    rcases Nat.lt_trichotomy mid i with h | rfl | h
    · exact absurd (heq.trans hkey.symm) (ne_of_lt (hlt mid i hmid hi' h))
    · rfl
    · exact absurd (heq.trans hkey.symm) (ne_of_gt (hlt i mid hi' hmid h))
  | case3 lo hi hless mid y hy hne hbelow ih =>
    obtain ⟨hmid, rfl⟩ := List.getElem?_eq_some_iff.mp hy
    refine ih ?_ hhi hlen
    by_contra hge
    rcases Nat.lt_or_eq_of_le (Nat.le_of_lt_succ (Nat.lt_of_not_le hge)) with h | rfl
    · exact lt_asymm hbelow (hkey ▸ hlt i mid hi' hmid h)
    · exact hne hkey
  | case4 lo hi hless mid y hy hne hbelow ih =>
    obtain ⟨hmid, rfl⟩ := List.getElem?_eq_some_iff.mp hy
    refine ih hlo ?_ (by omega)
    by_contra hge
    rcases Nat.lt_or_eq_of_le (Nat.le_of_not_lt hge) with h | rfl
    · exact hbelow (hkey ▸ hlt mid i hmid hi' h)
    · exact hne hkey
  | case5 lo hi hge => omega

/-- The search finds exactly the element with the key. -/
theorem bsearch_eq_some (hxs : xs.Pairwise fun x y => key x < key y) :
    bsearch key xs k = some x ↔ x ∈ xs ∧ key x = k := by
  constructor
  · exact bsearchFrom_some
  · rintro ⟨hx, hkey⟩
    obtain ⟨i, hi, rfl⟩ := List.getElem_of_mem hx
    exact bsearchFrom_of_mem hxs hi hkey (Nat.zero_le i) hi (Nat.le_refl _)

end XsServer.Lib
