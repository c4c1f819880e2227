import Mathlib.Data.List.Basic
import Mathlib.Data.Nat.ModEq
import Mathlib.Tactic.Ring

/-! Circular buffers: an array of `cap` cells read from `head` on, wrapping from the last cell to
the first.  `window` lists the cells in order and `fill` counts the cells between two indices.  The
lemmas say how the window changes when its first cell is dropped, when a cell is written after its
last, and when it is copied to the front of another array. -/

namespace XsServer.Lib.Ring

variable {α : Type*}

/-- The `n` cells of the circular buffer `cell` of `cap` cells from `head` on. -/
def window (cell : Nat → α) (cap head n : Nat) : List α :=
  (List.range n).map fun i => cell ((head + i) % cap)

/-- The number of cells from `head` up to `tail`. -/
def fill (cap head tail : Nat) : Nat :=
  if head ≤ tail then tail - head else tail + cap - head

/-- The index after `i`. -/
def next (cap i : Nat) : Nat := if cap ≤ i + 1 then 0 else i + 1

@[simp] theorem window_length (cell : Nat → α) (cap head n : Nat) :
    (window cell cap head n).length = n := by
  simp [window]

theorem next_lt {cap i : Nat} (h : 0 < cap) : next cap i < cap := by
  unfold next; split <;> omega

theorem next_eq_mod {cap i : Nat} (h : i < cap) : next cap i = (i + 1) % cap := by
  unfold next
  split
  · rw [show i + 1 = cap by omega, Nat.mod_self]
  · rw [Nat.mod_eq_of_lt (by omega)]

/-- The window starts with the cell at `head`. -/
theorem window_cons (cell : Nat → α) {cap head : Nat} (n : Nat) (h : head < cap) :
    window cell cap head (n + 1) = cell head :: window cell cap (next cap head) n := by
  simp only [window, List.range_succ_eq_map, List.map_cons, List.map_map, Nat.add_zero,
    Nat.mod_eq_of_lt h, next_eq_mod h]
  congr 1
  refine List.map_congr_left fun i _ => ?_
  simp [Nat.add_assoc, Nat.add_comm 1 i]

/-- The window ends with the cell `n` past `head`. -/
theorem window_concat (cell : Nat → α) (cap head n : Nat) :
    window cell cap head (n + 1) = window cell cap head n ++ [cell ((head + n) % cap)] := by
  simp [window, List.range_succ]

/-- A write to the cell after the last one leaves the window unchanged. -/
theorem window_congr {cell cell' : Nat → α} {cap head n : Nat}
    (h : ∀ i < n, cell' ((head + i) % cap) = cell ((head + i) % cap)) :
    window cell' cap head n = window cell cap head n :=
  List.map_congr_left fun i hi => h i (List.mem_range.mp hi)

/-- Distinct offsets below `cap` are distinct cells. -/
theorem offset_ne {cap head i n : Nat} (hi : i < n) (hn : n < cap) :
    (head + i) % cap ≠ (head + n) % cap := by
  intro h
  have := Nat.ModEq.add_left_cancel' head h
  rw [Nat.ModEq, Nat.mod_eq_of_lt (by omega), Nat.mod_eq_of_lt hn] at this
  omega

/-- Copying a window to the front of an array that is large enough keeps its contents. -/
theorem window_copy {cell cell' : Nat → α} {cap cap' head n : Nat} (hn : n ≤ cap')
    (h : ∀ i < n, cell' i = cell ((head + i) % cap)) :
    window cell' cap' 0 n = window cell cap head n := by
  refine List.map_congr_left fun i hi => ?_
  rw [List.mem_range] at hi
  rw [Nat.zero_add, Nat.mod_eq_of_lt (by omega), h i hi]

variable {cap head tail : Nat}

theorem fill_lt (hh : head < cap) (ht : tail < cap) :
    fill cap head tail < cap := by
  unfold fill; split <;> omega

theorem fill_eq_zero (hh : head < cap) :
    fill cap head tail = 0 ↔ head = tail := by
  unfold fill; split <;> omega

/-- The cell after the last one of the window is the one at `tail`. -/
theorem add_fill_mod (hh : head < cap) (ht : tail < cap) :
    (head + fill cap head tail) % cap = tail := by
  unfold fill
  split
  · rw [Nat.add_sub_cancel' ‹_›, Nat.mod_eq_of_lt ht]
  · rw [show head + (tail + cap - head) = tail + cap by omega, Nat.add_mod_right,
      Nat.mod_eq_of_lt ht]

/-- Advancing `tail` adds a cell, except that a full buffer looks empty. -/
theorem fill_next_tail (hh : head < cap) (ht : tail < cap)
    (hne : head ≠ next cap tail) : fill cap head (next cap tail) = fill cap head tail + 1 := by
  unfold fill next at *; split at hne <;> grind

/-- `tail` runs into `head` exactly when the window takes all cells but one. -/
theorem next_tail_eq (hh : head < cap) (ht : tail < cap) :
    head = next cap tail ↔ fill cap head tail + 1 = cap := by
  unfold fill next; split <;> split <;> omega

/-- Advancing `head` drops a cell. -/
theorem fill_next_head (hh : head < cap) (ht : tail < cap)
    (hne : head ≠ tail) : fill cap (next cap head) tail + 1 = fill cap head tail := by
  unfold fill next; grind

variable [Inhabited α]

theorem get_set {cells : Array α} {k : Nat} (hk : k < cells.size) (x : α) (i : Nat) :
    (cells.set! k x)[i]! = if i = k then x else cells[i]! := by
  by_cases h : i = k
  · subst h; simp [hk]
  · simp [h, Ne.symm h, getElem!_def]

/-- A write to the cell at `tail` adds it to the window. -/
theorem window_set {cells : Array α} (hsize : cells.size = cap)
    (hh : head < cap) (ht : tail < cap) (x : α) :
    window (fun i => (cells.set! tail x)[i]!) cap head (fill cap head tail + 1) =
      window (fun i => cells[i]!) cap head (fill cap head tail) ++ [x] := by
  have hlast := add_fill_mod hh ht
  have ht' : tail < cells.size := by rwa [hsize]
  rw [window_concat, hlast]
  congr 1
  · refine window_congr fun i hi => ?_
    have hne : (head + i) % cap ≠ tail := by
      rw [← hlast]
      exact offset_ne hi (fill_lt hh ht)
    exact (get_set ht' x _).trans (if_neg hne)
  · exact congrArg (fun m => [m]) ((get_set ht' x _).trans (if_pos rfl))

/-- The cells of a full ring in order, at the front of a larger array. -/
theorem window_ofFn (cells : Array α) {cap cap' head : Nat} (hle : cap ≤ cap') :
    window (fun i => (Array.ofFn fun i : Fin cap' =>
        if i < cap then cells[(head + i) % cap]! else default)[i]!) cap' 0 cap =
      window (fun i => cells[i]!) cap head cap := by
  refine window_copy hle fun i hi => ?_
  rw [getElem!_pos _ i (by rw [Array.size_ofFn]; omega)]
  simp [hi]

end XsServer.Lib.Ring
