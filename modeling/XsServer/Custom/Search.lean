import XsServer.Custom.Sort
import Mathlib.Algebra.Ring.Nat

/-! `binart` of `search.lua`, which never changes the end of the part that it looks at. -/

namespace XsServer.Custom

open Lib

variable {α γ : Type}

/-- The loop from a `start` on. -/
def binartFrom (arr : List α) (comp : α → γ → Int) (val : γ) :
    Nat → Nat → Except Stop (Option Nat)
  | 0, _ => .error .running
  | fuel + 1, start =>
    let close := arr.length
    if start < close then do
      let half := (start + close) / 2
      let a ← elem arr half
      if 1 = comp a val then binartFrom arr comp val fuel (half + 1)
      else if -1 = comp a val then binartFrom arr comp val fuel (half - 1)
      else return some half
    else return none

def binart (fuel : Nat) (arr : List α) (comp : α → γ → Int) (val : γ) :
    Except Stop (Option Nat) :=
  binartFrom arr comp val fuel 1

/-- An array whose elements are before the value, then at it, then behind it. -/
structure Sorted (comp : α → γ → Int) (val : γ) (pre mid rest : List α) : Prop where
  pre : ∀ x ∈ pre, comp x val = 1
  mid : ∀ x ∈ mid, comp x val = 0
  rest : ∀ x ∈ rest, comp x val = -1

/-- A position in the middle part, or `nil` when that is empty. -/
def Right (a m : Nat) : Option Nat → Prop
  | some i => a < i ∧ i ≤ a + m
  | none => m = 0

def Finds (arr : List α) (comp : α → γ → Int) (val : γ) (a m start : Nat) : Prop :=
  ∃ fuel r, binartFrom arr comp val fuel start = .ok r ∧ Right a m r

/-- One of the positions that halve what is left of `n` after `e` is the first behind the `a`
elements before the value, and is one of the `m` at it. -/
def Hits (n a m e : Nat) : Prop :=
  ∃ k, 2 ^ (k + 1) ≤ e ∧ n - e / 2 ^ k ≤ a ∧ a < n - e / 2 ^ (k + 1) ∧
    n - e / 2 ^ (k + 1) ≤ a + m

theorem Hits.two_le {n a m e : Nat} (h : Hits n a m e) : 2 ≤ e := by
  obtain ⟨k, hk, -⟩ := h
  have hpow : 2 ^ 1 ≤ 2 ^ (k + 1) := Nat.pow_le_pow_right (by omega) (by omega)
  omega

theorem hits_half {n a m e : Nat} (hhalf : n - e / 2 ≤ a) : Hits n a m e ↔ Hits n a m (e / 2) := by
  have hdiv : ∀ k, e / 2 / 2 ^ k = e / 2 ^ (k + 1) := fun k => by
    rw [Nat.div_div_eq_div_mul, Nat.pow_succ']
  have hle : ∀ k, 2 ^ (k + 1) ≤ e / 2 ↔ 2 ^ (k + 1 + 1) ≤ e := fun k => by
    rw [Nat.le_div_iff_mul_le (by omega), ← Nat.pow_succ]
  constructor
  · rintro ⟨k, hk, hbefore, hbehind, hmid⟩
    cases k with
    | zero =>
      rw [Nat.pow_one] at hbehind
      omega
    | succ k => exact ⟨k, (hle k).mpr hk, by rwa [hdiv], by rwa [hdiv], by rwa [hdiv]⟩
  · rintro ⟨k, hk, hbefore, hbehind, hmid⟩
    rw [hdiv] at hbefore hbehind hmid
    exact ⟨k + 1, (hle k).mp hk, hbefore, hbehind, hmid⟩

theorem not_hits {n a m e : Nat} (hhalf : a + m < n - e / 2) : ¬ Hits n a m e := by
  rintro ⟨k, -, -, -, hmid⟩
  have hle : e / 2 ^ (k + 1) ≤ e / 2 := by
    rw [Nat.pow_succ', ← Nat.div_div_eq_div_mul]
    exact Nat.div_le_self _ _
  omega

/-! ### The loop -/

section

variable {comp : α → γ → Int} {val : γ} {pre mid rest : List α}
  (h : Sorted comp val pre mid rest)

include h

omit h in
theorem binartFrom_step {arr : List α} {start half : Nat} {x : α} (hlt : start < arr.length)
    (hhalf : (start + arr.length) / 2 = half) (hx : elem arr half = .ok x) (fuel : Nat) :
    binartFrom arr comp val (fuel + 1) start =
      if 1 = comp x val then binartFrom arr comp val fuel (half + 1)
      else if -1 = comp x val then binartFrom arr comp val fuel (half - 1)
      else .ok (some half) := by
  rw [binartFrom, if_pos hlt]
  simp only [hhalf, hx, ok_bind]
  rfl

omit h in
theorem finds_end {arr : List α} {a m start : Nat} (hend : arr.length ≤ start) :
    Finds arr comp val a m start ↔ m = 0 := by
  have hnone : ∀ fuel, binartFrom arr comp val (fuel + 1) start = .ok none := fun fuel => by
    rw [binartFrom, if_neg (by omega)]
    rfl
  constructor
  · rintro ⟨fuel, r, hrun, hright⟩
    cases fuel with
    | zero => cases hrun
    | succ fuel =>
      rw [hnone] at hrun
      cases hrun
      exact hright
  · intro hm
    exact ⟨1, none, hnone 0, hm⟩

omit h in
theorem finds_next {arr : List α} {a m start half : Nat} {x : α} (hlt : start < arr.length)
    (hhalf : (start + arr.length) / 2 = half) (hx : elem arr half = .ok x)
    (hcomp : comp x val = 1) :
    Finds arr comp val a m start ↔ Finds arr comp val a m (half + 1) := by
  have hstep : ∀ fuel, binartFrom arr comp val (fuel + 1) start =
      binartFrom arr comp val fuel (half + 1) := fun fuel => by
    rw [binartFrom_step hlt hhalf hx, if_pos hcomp.symm]
  constructor
  · rintro ⟨fuel, r, hrun, hright⟩
    cases fuel with
    | zero => cases hrun
    | succ fuel => exact ⟨fuel, r, (hstep fuel).symm.trans hrun, hright⟩
  · rintro ⟨fuel, r, hrun, hright⟩
    exact ⟨fuel + 1, r, (hstep fuel).trans hrun, hright⟩

theorem Sorted.elem {i : Nat} (hpos : 0 < i) (hle : i ≤ (pre ++ mid ++ rest).length) :
    ∃ x, elem (pre ++ mid ++ rest) i = .ok x ∧ (i ≤ pre.length → comp x val = 1) ∧
      (pre.length < i → i ≤ pre.length + mid.length → comp x val = 0) ∧
      (pre.length + mid.length < i → comp x val = -1) := by
  obtain ⟨i, rfl⟩ := Nat.exists_eq_succ_of_ne_zero (Nat.pos_iff_ne_zero.mp hpos)
  have hlen : (pre ++ mid ++ rest).length = pre.length + mid.length + rest.length := by
    rw [List.length_append, List.length_append]
  simp only [Custom.elem]
  obtain hi | hi := Nat.lt_or_ge i pre.length
  · refine ⟨pre[i], ?_, fun _ => h.pre _ (List.getElem_mem hi), by omega, by omega⟩
    rw [List.append_assoc, List.getElem?_append_left hi, List.getElem?_eq_getElem hi]
  · obtain hi' | hi' := Nat.lt_or_ge i (pre.length + mid.length)
    · have hmid : i - pre.length < mid.length := by omega
      refine ⟨mid[i - pre.length], ?_, by omega, fun _ _ => h.mid _ (List.getElem_mem hmid),
        by omega⟩
      rw [List.append_assoc, List.getElem?_append_right hi, List.getElem?_append_left hmid,
        List.getElem?_eq_getElem hmid]
    · have hrest : i - pre.length - mid.length < rest.length := by omega
      refine ⟨rest[i - pre.length - mid.length], ?_, by omega, by omega,
        fun _ => h.rest _ (List.getElem_mem hrest)⟩
      rw [List.append_assoc, List.getElem?_append_right hi,
        List.getElem?_append_right (by omega), List.getElem?_eq_getElem hrest]

theorem binartFrom_running (fuel : Nat) {start : Nat} (hstart : pre.length + mid.length ≤ start)
    (hlt : start + 2 ≤ (pre ++ mid ++ rest).length) :
    binartFrom (pre ++ mid ++ rest) comp val fuel start = .error .running := by
  induction fuel generalizing start with
  | zero => rfl
  | succ fuel ih =>
    obtain ⟨x, hx, -, -, hrest⟩ := h.elem
      (i := (start + (pre ++ mid ++ rest).length) / 2) (by omega) (by omega)
    rw [binartFrom_step (by omega) rfl hx, hrest (by omega), if_neg (by decide), if_pos rfl]
    exact ih (by omega) (by omega)

theorem finds_iff (e : Nat) (he : e ≤ (pre ++ mid ++ rest).length)
    (hbefore : (pre ++ mid ++ rest).length - e ≤ pre.length) :
    Finds (pre ++ mid ++ rest) comp val pre.length mid.length
        ((pre ++ mid ++ rest).length - e + 1) ↔
      (mid.length = 0 ∧ (pre ++ mid ++ rest).length ≤ pre.length + 1) ∨
        Hits (pre ++ mid ++ rest).length pre.length mid.length e := by
  induction e using Nat.strongRecOn with
  | ind e ih =>
    have hlen : (pre ++ mid ++ rest).length = pre.length + mid.length + rest.length := by
      rw [List.length_append, List.length_append]
    generalize hn : (pre ++ mid ++ rest).length = n at *
    by_cases htwo : 2 ≤ e
    · have hstart : n - e + 1 < (pre ++ mid ++ rest).length := by omega
      have hhalf : (n - e + 1 + (pre ++ mid ++ rest).length) / 2 = n - e / 2 := by omega
      obtain ⟨x, hx, hpre, hmid, hrest⟩ := h.elem (i := n - e / 2) (by omega) (by omega)
      obtain hin | hbehind := Nat.lt_or_ge pre.length (n - e / 2)
      · obtain hle | hgt := Nat.lt_or_ge (pre.length + mid.length) (n - e / 2)
        · -- behind the value: neither side holds
          refine iff_of_false ?_ ?_
          · rintro ⟨fuel, r, hrun, -⟩
            cases fuel with
            | zero => cases hrun
            | succ fuel =>
              rw [binartFrom_step hstart hhalf hx, hrest hle, if_neg (by decide), if_pos rfl,
                binartFrom_running h fuel (by omega) (by omega)] at hrun
              cases hrun
          · rintro (⟨-, hend⟩ | hhits)
            · omega
            · exact not_hits hle hhits
        · refine iff_of_true ⟨1, some (n - e / 2), ?_, hin, hgt⟩ (.inr ⟨0, htwo, ?_, ?_, ?_⟩)
          · rw [binartFrom_step hstart hhalf hx, hmid hin hgt]
            rfl
          · simpa using hbefore
          · simpa using hin
          · simpa using hgt
      · rw [hits_half hbehind, ← ih (e / 2) (by omega) (by omega) hbehind]
        exact finds_next hstart hhalf hx (hpre hbehind)
    · rw [finds_end (by omega)]
      constructor
      · intro hmid
        exact .inl ⟨hmid, by omega⟩
      · rintro (⟨hmid, -⟩ | hhits)
        · exact hmid
        · exact absurd hhits.two_le htwo

/-- `start` goes back where `close` should, so the search looks at `n - n / 2`, `n - n / 4`, ...
as long as these are before the value, never at the last element, and does not end once one of
them is behind it. -/
theorem binart_finds_iff : (∃ fuel r, binart fuel (pre ++ mid ++ rest) comp val = .ok r ∧
      Right pre.length mid.length r) ↔
    (mid.length = 0 ∧ (pre ++ mid ++ rest).length ≤ pre.length + 1) ∨
      Hits (pre ++ mid ++ rest).length pre.length mid.length (pre ++ mid ++ rest).length := by
  have hiff := finds_iff h (pre ++ mid ++ rest).length (Nat.le_refl _) (by omega)
  rw [Nat.sub_self] at hiff
  exact hiff

omit h

def compareTo (x val : Int) : Int := if x < val then 1 else if x = val then 0 else -1

theorem binart_finds_iff_four : Sorted compareTo 4 [1, 3] [4] [7] ∧
    ((∃ fuel r, binart fuel [1, 3, 4, 7] compareTo 4 = .ok r ∧ Right 2 1 r) ↔
      (1 = 0 ∧ 4 ≤ 2 + 1) ∨ Hits 4 2 1 4) := by
  have hsorted : Sorted compareTo 4 [1, 3] [4] [7] := ⟨by decide, by decide, by decide⟩
  exact ⟨hsorted, binart_finds_iff hsorted⟩

/-- The last element is not looked at, and the loop does not end before a greater one. -/
theorem binart_misses : Sorted compareTo 3 [] [3] [] ∧
    (¬ ∃ fuel r, binart fuel [3] compareTo 3 = .ok r ∧ Right 0 1 r) ∧
    Sorted compareTo 4 [] [] [5, 6] ∧
    ∀ fuel, binart fuel [5, 6] compareTo 4 = .error .running := by
  refine ⟨⟨by decide, by decide, by decide⟩, ?_, ⟨by decide, by decide, by decide⟩, fun fuel => ?_⟩
  · rintro ⟨fuel, r, hrun, hright⟩
    cases fuel with
    | zero => cases hrun
    | succ fuel =>
      cases hrun
      cases hright
  · have hsorted : Sorted compareTo 4 [] [] [5, 6] := ⟨by decide, by decide, by decide⟩
    cases fuel with
    | zero => rfl
    | succ fuel => exact binartFrom_running hsorted fuel (Nat.le_refl 0) (by decide)

end

end XsServer.Custom
