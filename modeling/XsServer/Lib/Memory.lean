import Mathlib.Data.List.Basic

/-! A memory of cells, and lists that are written to it and read back. -/

namespace XsServer.Lib

variable {α : Type*}

/-- The memory after a list was written from a cell on. -/
def write (m : Nat → α) (i : Nat) (l : List α) : Nat → α :=
  fun j => if i ≤ j then l.getD (j - i) (m j) else m j

/-- The memory has the list from a cell on. -/
def Holds (m : Nat → α) (i : Nat) (l : List α) : Prop := ∀ k a, l[k]? = some a → m (i + k) = a

/-- The `n` cells from a cell on. -/
def cells (m : Nat → α) (i n : Nat) : List α := (List.range n).map fun k => m (i + k)

variable {m : Nat → α} {i j : Nat} {l l' : List α}

theorem write_before (h : j < i) : write m i l j = m j := if_neg (Nat.not_le.mpr h)

theorem write_after (h : i + l.length ≤ j) : write m i l j = m j := by
  rw [write, if_pos (by omega), List.getD_eq_getElem?_getD, List.getElem?_eq_none (by omega)]
  rfl

theorem holds_nil (m : Nat → α) (i : Nat) : Holds m i [] := fun _ _ h => by cases h

theorem holds_write (m : Nat → α) (i : Nat) (l : List α) : Holds (write m i l) i l := by
  intro k a hk
  rw [write, if_pos (Nat.le_add_right i k), Nat.add_sub_cancel_left, List.getD_eq_getElem?_getD, hk]
  rfl

/-- What is written elsewhere leaves the list. -/
theorem Holds.write (h : Holds m i l) (hdisj : i + l.length ≤ j ∨ j + l'.length ≤ i) :
    Holds (write m j l') i l := by
  intro k a hk
  have hlt := (List.getElem?_eq_some_iff.mp hk).1
  rcases hdisj with hdisj | hdisj
  · rw [write_before (by omega)]
    exact h k a hk
  · rw [write_after (by omega)]
    exact h k a hk

theorem Holds.append (h : Holds m i l) (h' : Holds m (i + l.length) l') : Holds m i (l ++ l') := by
  intro k a hk
  by_cases hlt : k < l.length
  · rw [List.getElem?_append_left hlt] at hk
    exact h k a hk
  · rw [List.getElem?_append_right (by omega)] at hk
    have hcell := h' _ a hk
    rwa [show i + l.length + (k - l.length) = i + k by omega] at hcell

theorem Holds.left (h : Holds m i (l ++ l')) : Holds m i l := by
  intro k a hk
  apply h
  rw [List.getElem?_append_left (List.getElem?_eq_some_iff.mp hk).1]
  exact hk

theorem Holds.right (h : Holds m i (l ++ l')) : Holds m (i + l.length) l' := by
  intro k a hk
  rw [Nat.add_assoc]
  apply h
  rw [List.getElem?_append_right (Nat.le_add_right ..), Nat.add_sub_cancel_left]
  exact hk

/-- Cells that agree hold the same lists. -/
theorem Holds.congr {m' : Nat → α} (h : Holds m i l)
    (heq : ∀ j, i ≤ j → j < i + l.length → m' j = m j) :
    Holds m' i l := by
  intro k a hk
  have hlt := (List.getElem?_eq_some_iff.mp hk).1
  rw [heq _ (by omega) (by omega)]
  exact h k a hk

theorem Holds.cells (h : Holds m i l) : cells m i l.length = l := by
  apply List.ext_getElem
  · rw [Lib.cells, List.length_map, List.length_range]
  · intro k hk hk'
    simp only [Lib.cells, List.getElem_map, List.getElem_range]
    exact h k _ (List.getElem?_eq_getElem hk')

theorem holds_cells (m : Nat → α) (i n : Nat) : Holds m i (cells m i n) := by
  intro k a hk
  obtain ⟨hlt, rfl⟩ := List.getElem?_eq_some_iff.mp hk
  simp only [Lib.cells, List.getElem_map, List.getElem_range]

theorem Holds.head {a : α} (h : Holds m i (a :: l)) : m i = a := h 0 a rfl

theorem Holds.tail {a : α} (h : Holds m i (a :: l)) : Holds m (i + 1) l :=
  Holds.right (l := [a]) h

end XsServer.Lib
