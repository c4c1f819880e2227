import Mathlib.Data.List.Infix

/-! A list at one of its positions, and the first occurrence of a pattern in a list. -/

namespace XsServer.Lib

variable {α : Type*}

/-- A position splits the list; it can be replaced or erased there. -/
theorem getElem?_split {l : List α} {i : Nat} {a : α} (h : l[i]? = some a) :
    ∃ before after, l = before ++ a :: after ∧ (∀ b, l.set i b = before ++ b :: after) ∧
      l.eraseIdx i = before ++ after := by
  obtain ⟨hi, rfl⟩ := List.getElem?_eq_some_iff.mp h
  refine ⟨l.take i, l.drop (i + 1), ?_, fun b => ?_, List.eraseIdx_eq_take_drop_succ ..⟩
  · rw [List.getElem_cons_drop, List.take_append_drop]
  · rw [List.set_eq_take_append_cons_drop, if_pos hi]

variable {pat xs : List α} {i : Nat}

/-- The pattern stands at position `i`, and at none before. -/
def FirstAt (pat xs : List α) (i : Nat) : Prop :=
  pat <+: xs.drop i ∧ ∀ j < i, ¬ pat <+: xs.drop j

theorem isInfix_of_isPrefix_drop (h : pat <+: xs.drop i) : pat <:+: xs :=
  h.isInfix.trans (List.drop_suffix i xs).isInfix

theorem exists_drop_of_isInfix (h : pat <:+: xs) : ∃ i, pat <+: xs.drop i := by
  obtain ⟨before, after, rfl⟩ := h
  refine ⟨before.length, after, ?_⟩
  rw [List.append_assoc, List.drop_left]

theorem add_length_le_of_isPrefix_drop (hpat : pat ≠ []) (h : pat <+: xs.drop i) :
    i + pat.length ≤ xs.length := by
  have hle := h.length_le
  have hpos := List.length_pos_iff.mpr hpat
  rw [List.length_drop] at hle
  omega

theorem FirstAt.isInfix (h : FirstAt pat xs i) : pat <:+: xs := isInfix_of_isPrefix_drop h.1

theorem FirstAt.add_length_le (hpat : pat ≠ []) (h : FirstAt pat xs i) :
    i + pat.length ≤ xs.length :=
  add_length_le_of_isPrefix_drop hpat h.1

theorem FirstAt.zero (h : pat <+: xs) : FirstAt pat xs 0 :=
  ⟨h, fun _ hj => absurd hj (Nat.not_lt_zero _)⟩

/-- A pattern that is not at the head is first where it is first in the tail. -/
theorem FirstAt.succ (h0 : ¬ pat <+: xs) (h : FirstAt pat (xs.drop 1) i) :
    FirstAt pat xs (i + 1) := by
  constructor
  · have := h.1
    rwa [List.drop_drop, Nat.add_comm] at this
  · intro j hj hpre
    cases j with
    | zero => exact h0 hpre
    | succ j =>
      apply h.2 j (by omega)
      rwa [List.drop_drop, Nat.add_comm]

theorem not_isInfix_of_drop (h0 : ¬ pat <+: xs) (h : ¬ pat <:+: xs.drop 1) : ¬ pat <:+: xs := by
  intro hin
  obtain ⟨i, hi⟩ := exists_drop_of_isInfix hin
  cases i with
  | zero => exact h0 hi
  | succ i =>
    apply h
    rw [Nat.add_comm, ← List.drop_drop] at hi
    exact isInfix_of_isPrefix_drop hi

theorem FirstAt.not_isInfix_take (hpat : pat ≠ []) (h : FirstAt pat xs i) :
    ¬ pat <:+: xs.take i := by
  intro hin
  obtain ⟨j, hj⟩ := exists_drop_of_isInfix hin
  have hle := add_length_le_of_isPrefix_drop hpat hj
  have hpos := List.length_pos_iff.mpr hpat
  rw [List.length_take] at hle
  apply h.2 j (by omega)
  rw [List.drop_take] at hj
  exact hj.trans (List.take_prefix ..)

/-- What stands before a pattern, the pattern, and what comes behind it. -/
theorem take_append_of_isPrefix_drop (h : pat <+: xs.drop i) :
    xs.take i ++ pat ++ xs.drop (i + pat.length) = xs := by
  have hpat : (xs.drop i).take pat.length = pat := (List.prefix_iff_eq_take.mp h).symm
  calc xs.take i ++ pat ++ xs.drop (i + pat.length)
      = xs.take i ++ ((xs.drop i).take pat.length ++ (xs.drop i).drop pat.length) := by
        rw [hpat, List.drop_drop, List.append_assoc]
    _ = xs := by rw [List.take_append_drop, List.take_append_drop]

/-! ### Finding the first occurrence -/

theorem FirstAt.unique {j : Nat} (hi : FirstAt pat xs i) (hj : FirstAt pat xs j) : i = j := by
  rcases Nat.lt_trichotomy i j with h | h | h
  · exact absurd hi.1 (hj.2 i h)
  · exact h
  · exact absurd hj.1 (hi.2 j h)

/-- A pattern that ends in the front of a list stands there in the list, and the other way round. -/
theorem isPrefix_drop_append {ys : List α} (hle : i + pat.length ≤ xs.length) :
    pat <+: (xs ++ ys).drop i ↔ pat <+: xs.drop i := by
  have hlen : pat.length ≤ (xs.drop i).length := by
    rw [List.length_drop]
    omega
  rw [List.drop_append_of_le_length (by omega), List.prefix_iff_eq_take,
    List.take_append_of_le_length hlen, ← List.prefix_iff_eq_take]

theorem FirstAt.append_iff {ys : List α} (hle : i + pat.length ≤ xs.length) :
    FirstAt pat (xs ++ ys) i ↔ FirstAt pat xs i := by
  have hfront : ∀ j < i, pat <+: (xs ++ ys).drop j ↔ pat <+: xs.drop j := fun j hj =>
    isPrefix_drop_append (by omega)
  constructor
  · rintro ⟨h, hno⟩
    exact ⟨(isPrefix_drop_append hle).mp h, fun j hj => mt (hfront j hj).mpr (hno j hj)⟩
  · rintro ⟨h, hno⟩
    exact ⟨(isPrefix_drop_append hle).mpr h, fun j hj => mt (hfront j hj).mp (hno j hj)⟩

/-- A pattern whose head is not in its tail stands first behind a list that it is not in. -/
theorem FirstAt.of_not_isInfix {a : α} {tail ys : List α} (ha : a ∉ tail)
    (h : ¬ a :: tail <:+: xs) : FirstAt (a :: tail) (xs ++ (a :: tail ++ ys)) xs.length := by
  refine ⟨⟨ys, by rw [List.drop_left]⟩, fun j hj hpre => ?_⟩
  by_cases hle : j + (a :: tail).length ≤ xs.length
  · exact h (isInfix_of_isPrefix_drop ((isPrefix_drop_append hle).mp hpre))
  -- the head of the pattern behind the list would be in the tail
  · obtain ⟨k, hk⟩ : ∃ k, xs.length - j = k + 1 := ⟨xs.length - j - 1, by omega⟩
    rw [List.length_cons] at hle
    have hlt : k + 1 < (a :: tail).length := by
      rw [List.length_cons]
      omega
    have hget := hpre.getElem hlt
    rw [List.getElem_drop, List.getElem_append_right (by omega)] at hget
    simp only [show j + (k + 1) - xs.length = 0 by omega, List.cons_append,
      List.getElem_cons_zero, List.getElem_cons_succ] at hget
    exact ha (hget ▸ List.getElem_mem _)

section Find

variable [DecidableEq α]

/-- The place of the first occurrence. -/
def findFirst (pat : List α) : List α → Option Nat
  | [] => if pat = [] then some 0 else none
  | x :: xs => if pat <+: x :: xs then some 0 else (findFirst pat xs).map (· + 1)

theorem findFirst_some (h : findFirst pat xs = some i) : FirstAt pat xs i := by
  induction xs generalizing i with
  | nil =>
    rw [findFirst] at h
    split at h
    · cases h
      apply FirstAt.zero
      rw [‹pat = []›]
    · cases h
  | cons x xs ih =>
    rw [findFirst] at h
    split at h
    · cases h
      exact FirstAt.zero ‹_›
    · obtain ⟨j, hj, rfl⟩ := Option.map_eq_some_iff.mp h
      exact FirstAt.succ ‹_› (ih hj)

theorem findFirst_none (h : findFirst pat xs = none) : ¬ pat <:+: xs := by
  induction xs with
  | nil =>
    rw [findFirst] at h
    split at h
    · cases h
    · rw [List.infix_nil]
      assumption
  | cons x xs ih =>
    rw [findFirst] at h
    split at h
    · cases h
    · exact not_isInfix_of_drop ‹_› (ih (Option.map_eq_none_iff.mp h))

theorem findFirst_eq_some_iff : findFirst pat xs = some i ↔ FirstAt pat xs i := by
  refine ⟨findFirst_some, fun h => ?_⟩
  cases hfind : findFirst pat xs with
  | none => exact absurd h.isInfix (findFirst_none hfind)
  | some j => rw [(findFirst_some hfind).unique h]

theorem findFirst_eq_none_iff : findFirst pat xs = none ↔ ¬ pat <:+: xs := by
  refine ⟨findFirst_none, fun h => ?_⟩
  cases hfind : findFirst pat xs with
  | none => rfl
  | some j => exact absurd (findFirst_some hfind).isInfix h

/-- A search may leave out the places where the pattern is known not to be. -/
theorem findFirst_drop {k : Nat} (hk : k ≤ xs.length) (h : ∀ j < k, ¬ pat <+: xs.drop j) :
    findFirst pat xs = (findFirst pat (xs.drop k)).map (· + k) := by
  induction k generalizing xs with
  | zero => exact (congrFun Option.map_id _).symm
  | succ k ih =>
    cases xs with
    | nil => cases hk
    | cons x xs =>
      have hhead : ¬ pat <+: x :: xs := h 0 (by omega)
      have htail : ∀ j < k, ¬ pat <+: xs.drop j := fun j hj => h (j + 1) (by omega)
      rw [findFirst, if_neg hhead, ih (Nat.le_of_succ_le_succ hk) htail,
        Option.map_map]
      rfl

end Find

end XsServer.Lib
