import XsServer.Lib.Number
import Mathlib.Algebra.BigOperators.Ring.List

/-! `math.CNM` of `extend_math.lua`.  It divides the product that it has formed, so it is the
binomial coefficient if the product is an integer of 64 bits.  A loop up to the last integer does
not end. -/

namespace XsServer.Extend

open Lib Number

/-- The numbers from `a` to `b`. -/
def upTo (a b : Int) : List Int := (List.range (b + 1 - a).toNat).map fun k : Nat => a + k

/-- The numbers of `for i = a,b`.  The index after the last integer wraps and is not above `b`, so
that the loop does not end: `none`. -/
def forLoop (a b : Int) : Option (List Int) :=
  if a ≤ b ∧ b = maxInteger then none else some (upTo a b)

/-- `ans` after the first loop. -/
def product (m n : Int) : Option Int :=
  (forLoop (wrap (m + 1)) n).map fun is => is.foldl (fun ans i => wrap (ans * i)) 1

/-- `ans` after the divisions by the numbers up to `k`. -/
def divided (ans k : Int) : Int := (upTo 1 k).foldl Int.fdiv ans

def CNM (n m : Int) : Option Int := do
  let m := if m < wrap (n - m) then wrap (n - m) else m
  let ans ← product m n
  (forLoop 1 (wrap (n - m))).map fun is => is.foldl Int.fdiv ans

/-- No division of `CNM` leaves a remainder. -/
def DivisionsExact (n m : Int) : Prop :=
  let m := if m < wrap (n - m) then wrap (n - m) else m
  ∀ ans, product m n = some ans → ∀ i, 1 ≤ i → i ≤ wrap (n - m) → i ∣ divided ans (i - 1)

/-! ### The loops -/

theorem upTo_succ (a : Int) (k : Nat) : upTo a (a + k) = upTo a (a + k - 1) ++ [a + k] := by
  have hlast : (a + k + 1 - a).toNat = k + 1 := by omega
  have hrest : (a + k - 1 + 1 - a).toNat = k := by omega
  rw [upTo, upTo, hlast, hrest, List.range_succ, List.map_append]
  rfl

theorem upTo_empty (a : Int) : upTo a (a - 1) = [] := by
  simp [upTo]

theorem foldl_wrap_mul (l : List Int) (a : Int) :
    l.foldl (fun ans i => wrap (ans * i)) (wrap a) = wrap (a * l.prod) := by
  induction l generalizing a with
  | nil => simp
  | cons i l ih =>
    have hwrap : wrap (wrap a * i) = wrap (a * i) := Int.bmod_mul_bmod
    rw [List.foldl_cons, hwrap, ih, List.prod_cons, mul_assoc]

theorem prod_upTo (m k : Nat) : (upTo (m + 1) (m + k)).prod = (m + k).descFactorial k := by
  induction k with
  | zero =>
    have hempty := upTo_empty (m + 1)
    rw [Int.add_sub_cancel] at hempty
    simp [hempty]
  | succ k ih =>
    have hsucc := upTo_succ (m + 1) k
    rw [show (m : Int) + 1 + k - 1 = m + k by omega] at hsucc
    rw [Nat.cast_succ, show (m : Int) + (k + 1) = m + 1 + k by omega, hsucc, List.prod_append, ih,
      ← Nat.add_assoc, Nat.succ_descFactorial_succ]
    simp
    ring

theorem forLoop_eq {a b : Int} (hb : b < maxInteger) : forLoop a b = some (upTo a b) :=
  if_neg fun h => hb.ne h.2

theorem product_eq {m k : Nat} (hm : (m + k : Nat) < maxInteger) :
    product m (m + k : Nat) = some (wrap ((m + k).descFactorial k)) := by
  have hstart : wrap (m + 1) = m + 1 := wrap_eq (by omega) (by omega)
  have hfold := foldl_wrap_mul (upTo (m + 1) (m + k)) 1
  rw [prod_upTo, one_mul] at hfold
  rw [product, forLoop_eq hm, hstart, Nat.cast_add]
  exact congrArg some hfold

theorem product_none (m : Int) : product m maxInteger = none := by
  rw [product, forLoop, if_pos ⟨wrap_le _, rfl⟩]
  rfl

theorem divided_zero (ans : Int) : divided ans 0 = ans := by
  rw [divided, show (0 : Int) = 1 - 1 from rfl, upTo_empty]
  rfl

theorem divided_succ (ans : Int) (k : Nat) :
    divided ans (k + 1 : Nat) = divided ans k / (k + 1 : Nat) := by
  have hsucc := upTo_succ 1 k
  rw [show (1 : Int) + k - 1 = k by omega, Int.add_comm] at hsucc
  rw [divided, Nat.cast_succ, hsucc, List.foldl_append]
  exact Int.fdiv_eq_ediv_of_nonneg _ (by omega)

theorem divided_eq (ans : Int) (k : Nat) : divided ans k = ans / (k.factorial : Nat) := by
  induction k with
  | zero => simp [divided_zero]
  | succ k ih =>
    rw [divided_succ, ih, Int.ediv_ediv_of_nonneg (by positivity), ← Nat.cast_mul, Nat.mul_comm]
    rfl

theorem divided_mul {ans : Int} {k : Nat}
    (hexact : ∀ i : Int, 1 ≤ i → i ≤ k → i ∣ divided ans (i - 1)) :
    divided ans k * k.factorial = ans := by
  induction k with
  | zero => simp [divided_zero]
  | succ k ih =>
    have hlast := hexact (k + 1 : Nat) (by omega) (le_refl _)
    rw [Nat.cast_succ, Int.add_sub_cancel, ← Nat.cast_succ] at hlast
    rw [divided_succ, Nat.factorial_succ, Nat.cast_mul, ← mul_assoc, Int.ediv_mul_cancel hlast]
    exact ih fun i hi hle => hexact i hi (by omega)

theorem dvd_divided {ans : Int} {k : Nat} (hdvd : (k.factorial : Int) ∣ ans) {i : Int} (hi : 1 ≤ i)
    (hle : i ≤ k) : i ∣ divided ans (i - 1) := by
  obtain ⟨j, hj⟩ := Int.eq_ofNat_of_zero_le (show 0 ≤ i - 1 by omega)
  obtain rfl : i = (j + 1 : Nat) := by omega
  have hfactorial : ((j + 1).factorial : Int) ∣ ans :=
    (Int.natCast_dvd_natCast.mpr (Nat.factorial_dvd_factorial (by omega))).trans hdvd
  obtain ⟨c, rfl⟩ := hfactorial
  rw [Nat.cast_succ, Int.add_sub_cancel, divided_eq, Nat.factorial_succ, Nat.cast_mul,
    Int.mul_comm ((j + 1 : Nat) : Int), mul_assoc,
    Int.mul_ediv_cancel_left _ (by exact_mod_cast (Nat.factorial_pos j).ne')]
  exact Dvd.intro c rfl

theorem choose_split {n m : Int} {a k : Nat} (hm : 0 ≤ m) (hmn : m ≤ n) (hn : n = (a + k : Nat))
    (hmax : max m (n - m) = a) : n.toNat.choose m.toNat = (a + k).choose k := by
  obtain ⟨m, rfl⟩ := Int.eq_ofNat_of_zero_le hm
  subst hn
  rw [Int.toNat_natCast, Int.toNat_natCast]
  obtain rfl | rfl : m = k ∨ m = a := by omega
  · rfl
  · exact Nat.choose_symm_add

theorem combined_iff {a k : Nat} :
    (divided (wrap ((a + k).descFactorial k)) k = (a + k).choose k ∧
      ∀ i : Int, 1 ≤ i → i ≤ k → i ∣ divided (wrap ((a + k).descFactorial k)) (i - 1)) ↔
    ((a + k).descFactorial k : Int) ≤ maxInteger := by
  have hchoose : ((a + k).descFactorial k : Int) = k.factorial * (a + k).choose k := by
    exact_mod_cast Nat.descFactorial_eq_factorial_mul_choose (a + k) k
  constructor
  · rintro ⟨hvalue, hexact⟩
    have hmul := divided_mul hexact
    rw [hvalue, mul_comm, ← hchoose] at hmul
    rw [hmul]
    exact wrap_le _
  · intro hfits
    have hpos : (0 : Int) < k.factorial := by exact_mod_cast k.factorial_pos
    rw [wrap_eq (by omega) hfits]
    refine ⟨?_, fun i hi hle => dvd_divided (Dvd.intro _ hchoose.symm) hi hle⟩
    rw [divided_eq, hchoose, Int.mul_ediv_cancel_left _ hpos.ne']

/-- `CNM` ends and is the binomial coefficient, with divisions that leave no remainder, exactly if
`n` is not the last integer and the product of the numbers above the larger part is an integer of
64 bits. -/
theorem cnm_iff {n m : Int} (hm : 0 ≤ m) (hmn : m ≤ n) (hn : n ≤ maxInteger) :
    (CNM n m = some (n.toNat.choose m.toNat : Int) ∧ DivisionsExact n m) ↔
      n < maxInteger ∧ (n.toNat.descFactorial (min m (n - m)).toNat : Int) ≤ maxInteger := by
  have hsub : wrap (n - m) = n - m := wrap_eq (by omega) (by omega)
  obtain ⟨a, ha⟩ := Int.eq_ofNat_of_zero_le (show 0 ≤ max m (n - m) by omega)
  obtain ⟨k, hk⟩ := Int.eq_ofNat_of_zero_le (show 0 ≤ min m (n - m) by omega)
  have hsplit : n = (a + k : Nat) := by omega
  have hlarger : (if m < wrap (n - m) then wrap (n - m) else m) = (a : Int) := by
    rw [hsub]
    split <;> omega
  have hsmaller : wrap (n - a) = k := by
    rw [wrap_eq] <;> omega
  rw [CNM, DivisionsExact, choose_split hm hmn hsplit ha, hk]
  simp only [hlarger, hsmaller]
  obtain hlt | rfl := lt_or_eq_of_le hn
  · subst hsplit
    rw [product_eq hlt, and_iff_right hlt, Int.toNat_natCast, Int.toNat_natCast, ← combined_iff]
    simp only [Option.bind_eq_bind, Option.bind_some, Option.some.injEq, forall_eq',
      forLoop_eq (show (k : Int) < maxInteger by omega), Option.map_some, divided]
  · rw [product_none]
    exact iff_of_false (fun h => nomatch h.1) fun h => h.1.ne rfl

theorem cnm_iff_five : (0 : Int) ≤ 2 ∧ (2 : Int) ≤ 5 ∧ (5 : Int) ≤ maxInteger ∧
    ((CNM 5 2 = some ((5 : Nat).choose 2 : Int) ∧ DivisionsExact 5 2) ↔
      (5 : Int) < maxInteger ∧
        ((5 : Nat).descFactorial (min (2 : Int) (5 - 2)).toNat : Int) ≤ maxInteger) :=
  ⟨by decide, by decide, by decide, cnm_iff (by decide) (by decide) (by decide)⟩

/-- The product of the numbers from 17 to 30 has more than 63 bits, the coefficient has 28. -/
theorem product_wraps : CNM 30 14 = some (-66175234) ∧ (30 : Nat).choose 14 = 145422675 ∧
    ¬ (CNM 30 14 = some ((30 : Nat).choose 14 : Int) ∧ DivisionsExact 30 14) := by
  have hvalue : CNM 30 14 = some (-66175234) := by decide +kernel
  have hchoose : (30 : Nat).choose 14 = 145422675 := by
    rw [Nat.choose_eq_descFactorial_div_factorial]
    rfl
  refine ⟨hvalue, hchoose, ?_⟩
  rintro ⟨hequal, -⟩
  rw [hvalue, hchoose] at hequal
  cases hequal

end XsServer.Extend
