import Mathlib.Data.Int.Log
import Mathlib.Data.Rat.Floor
import Mathlib.Tactic.Positivity

/-! Numbers that are integers of 64 bits or floats.  A float is a rational, rounded to 53 bits; the
exponent has no bounds. -/

namespace XsServer.Lib.Number

/-! ### Rounding -/

/-- The nearest integer, and the even one of two. -/
def roundEven (x : ℚ) : ℤ :=
  if x - ⌊x⌋ < 1 / 2 then ⌊x⌋
  else if 1 / 2 < x - ⌊x⌋ then ⌊x⌋ + 1
  else if ⌊x⌋ % 2 = 0 then ⌊x⌋ else ⌊x⌋ + 1

/-- The distance of the floats next to a number. -/
def ulp (x : ℚ) : ℚ := 2 ^ (Int.log 2 |x| - 52)

/-- The float of a number. -/
def double (x : ℚ) : ℚ := roundEven (x / ulp x) * ulp x

theorem roundEven_intCast (k : ℤ) : roundEven k = k := by
  simp [roundEven]

theorem roundEven_error (x : ℚ) : |(roundEven x : ℚ) - x| ≤ 1 / 2 := by
  have hlow := Int.floor_le x
  have hhigh := Int.lt_floor_add_one x
  rw [roundEven]
  split_ifs <;> push_cast <;> rw [abs_le] <;> constructor <;> linarith

theorem ulp_pos (x : ℚ) : 0 < ulp x := zpow_pos (by norm_num) _

theorem double_zero : double 0 = 0 := by
  simp [double, roundEven]

/-- A number and its float differ by half of the last of 53 bits. -/
theorem double_error (x : ℚ) : |double x - x| ≤ |x| / 2 ^ 53 := by
  by_cases hx : x = 0
  · simp [hx, double_zero]
  · have hulp := ulp_pos x
    have hlog : ulp x * 2 ^ 52 ≤ |x| := by
      have hle := Int.zpow_log_le_self (b := 2) (by norm_num) (abs_pos.mpr hx)
      rw [ulp, ← zpow_natCast, ← zpow_add₀ (by norm_num)]
      simpa using hle
    have herror := roundEven_error (x / ulp x)
    have hscale : double x - x = ((roundEven (x / ulp x) : ℚ) - x / ulp x) * ulp x := by
      rw [double, sub_mul, div_mul_cancel₀ x hulp.ne']
    rw [hscale, abs_mul, abs_of_pos hulp, le_div_iff₀ (by positivity)]
    nlinarith

/-- An integer of 53 bits times a power of 2 is a float. -/
theorem double_mul_two_pow {k : ℤ} (hk : |k| < 2 ^ 53) (j : ℕ) :
    double ((k * 2 ^ j : ℤ) : ℚ) = (k * 2 ^ j : ℤ) := by
  generalize hx : ((k * 2 ^ j : ℤ) : ℚ) = x
  by_cases hzero : x = 0
  · rw [hzero, double_zero]
  · have hlog : Int.log 2 |x| < 53 + j := by
      refine (Int.lt_zpow_iff_log_lt (by norm_num) (abs_pos.mpr hzero)).mp ?_
      have hcast : |(k : ℚ)| < 2 ^ 53 := by exact_mod_cast hk
      have hpow : ((2 : ℕ) : ℚ) ^ (53 + j : ℤ) = 2 ^ 53 * 2 ^ j := by
        rw [zpow_add₀ (by norm_num)]
        norm_cast
      rw [hpow, ← hx]
      push_cast
      rw [abs_mul, abs_of_pos (by positivity : (0 : ℚ) < 2 ^ j)]
      exact mul_lt_mul_of_pos_right hcast (by positivity)
    obtain ⟨e, he⟩ := Int.eq_ofNat_of_zero_le (show 0 ≤ 52 + j - Int.log 2 |x| by omega)
    have hulp : x / ulp x = ((k * 2 ^ e : ℤ) : ℚ) := by
      have hexp : (2 : ℚ) ^ (Int.log 2 |x| - 52) * 2 ^ e = 2 ^ j := by
        rw [← zpow_natCast, ← zpow_natCast, ← zpow_add₀ (by norm_num)]
        congr 1
        omega
      rw [div_eq_iff (ulp_pos x).ne', ulp]
      push_cast at hx ⊢
      calc x = k * 2 ^ j := hx.symm
        _ = k * 2 ^ e * 2 ^ (Int.log 2 |x| - 52) := by rw [← hexp]; ring
    rw [double, hulp, roundEven_intCast, ← hulp, div_mul_cancel₀ _ (ulp_pos _).ne']

theorem double_intCast {k : ℤ} (hk : |k| ≤ 2 ^ 53) : double k = k := by
  obtain hlt | heq := hk.lt_or_eq
  · simpa using double_mul_two_pow hlt 0
  · obtain rfl | rfl := eq_or_eq_neg_of_abs_eq heq
    · simpa using double_mul_two_pow (by decide : |(1 : ℤ)| < 2 ^ 53) 53
    · simpa using double_mul_two_pow (by decide : |(-1 : ℤ)| < 2 ^ 53) 53

/-- No number is rounded beyond a power of 2. -/
theorem double_abs_le {x : ℚ} {j : ℕ} (hx : |x| ≤ 2 ^ j) : |double x| ≤ 2 ^ j := by
  by_cases hzero : x = 0
  · rw [hzero, double_zero, abs_zero]
    positivity
  · obtain hlt | heq := hx.lt_or_eq
    · have hulp := ulp_pos x
      have hlog : Int.log 2 |x| < j := by
        refine (Int.lt_zpow_iff_log_lt (by norm_num) (abs_pos.mpr hzero)).mp ?_
        exact_mod_cast hlt
      have hscale : ulp x * 2 ^ 53 ≤ 2 ^ j := by
        rw [ulp, ← zpow_natCast, ← zpow_natCast, ← zpow_add₀ (by norm_num)]
        exact zpow_le_zpow_right₀ (by norm_num) (by push_cast; omega)
      have hdiv : |x / ulp x| < 2 ^ 53 := by
        have hup := Int.lt_zpow_succ_log_self (b := 2) (by norm_num) |x|
        rw [abs_div, abs_of_pos hulp, div_lt_iff₀ hulp, ulp, ← zpow_natCast,
          ← zpow_add₀ (by norm_num)]
        refine hup.trans_eq ?_
        congr 1
        push_cast
        ring
      have hround : |(roundEven (x / ulp x) : ℚ)| ≤ 2 ^ 53 := by
        have herror := roundEven_error (x / ulp x)
        have htri := abs_sub_abs_le_abs_sub (roundEven (x / ulp x) : ℚ) (x / ulp x)
        have hint : |roundEven (x / ulp x)| < 2 ^ 53 + 1 := by
          have hcast : |(roundEven (x / ulp x) : ℚ)| < 2 ^ 53 + 1 := by linarith
          exact_mod_cast hcast
        exact_mod_cast Int.lt_add_one_iff.mp hint
      rw [double, abs_mul, abs_of_pos hulp]
      refine le_trans ?_ hscale
      rw [mul_comm]
      exact mul_le_mul_of_nonneg_left hround hulp.le
    · have hexact : ∀ k : ℤ, |k| < 2 ^ 53 → x = (k * 2 ^ j : ℤ) → |double x| ≤ 2 ^ j := by
        rintro k hk rfl
        rw [double_mul_two_pow hk]
        exact heq.le
      obtain rfl | rfl := eq_or_eq_neg_of_abs_eq heq
      · exact hexact 1 (by decide) (by push_cast; ring)
      · exact hexact (-1) (by decide) (by push_cast; ring)

/-- No number is rounded below a power of 2. -/
theorem two_pow_le_double {x : ℚ} {j : ℕ} (hx : 2 ^ j ≤ x) : 2 ^ j ≤ double x := by
  have hpos : 0 < x := lt_of_lt_of_le (by positivity) hx
  have hulp := ulp_pos x
  have hlow := Int.zpow_log_le_self (b := 2) (by norm_num) hpos
  have hlog : (j : ℤ) ≤ Int.log 2 x := by
    refine (Int.zpow_le_iff_le_log (by norm_num) hpos).mp ?_
    exact_mod_cast hx
  have hscale : 2 ^ 52 * ulp x = 2 ^ Int.log 2 x := by
    rw [ulp, abs_of_pos hpos, ← zpow_natCast, ← zpow_add₀ (by norm_num)]
    congr 1
    push_cast
    ring
  have hround : (2 : ℤ) ^ 52 ≤ roundEven (x / ulp x) := by
    have hfloor : (2 : ℤ) ^ 52 ≤ ⌊x / ulp x⌋ := by
      rw [Int.le_floor, le_div_iff₀ hulp, Int.cast_pow, Int.cast_ofNat, hscale]
      exact_mod_cast hlow
    rw [roundEven]
    split_ifs <;> omega
  calc (2 : ℚ) ^ j = 2 ^ (j : ℤ) := (zpow_natCast 2 j).symm
    _ ≤ 2 ^ Int.log 2 x := zpow_le_zpow_right₀ (by norm_num) hlog
    _ = 2 ^ 52 * ulp x := hscale.symm
    _ ≤ double x := mul_le_mul_of_nonneg_right (by exact_mod_cast hround) hulp.le

theorem double_nonneg {x : ℚ} (hx : 0 ≤ x) : 0 ≤ double x := by
  have herror := abs_le.mp (double_error x)
  rw [abs_of_nonneg hx] at herror
  have hsmall : x / 2 ^ 53 ≤ x := div_le_self hx (by norm_num)
  linarith

theorem double_neg {x : ℚ} (hx : x < 0) : double x < 0 := by
  have herror := abs_le.mp (double_error x)
  rw [abs_of_neg hx] at herror
  have hsmall : -x / 2 ^ 53 ≤ -x / 2 := div_le_div_of_nonneg_left (by linarith) (by norm_num)
    (by norm_num)
  linarith

theorem le_double {m n : ℕ} (hm : m ≤ 2 ^ 52) (hmn : m ≤ n) : (m : ℚ) ≤ double n := by
  obtain hle | hlt := le_or_gt n (2 ^ 53)
  · have hexact : double ((n : ℤ) : ℚ) = (n : ℤ) :=
      double_intCast (by rw [Nat.abs_cast]; exact_mod_cast hle)
    rw [Int.cast_natCast] at hexact
    rw [hexact]
    exact_mod_cast hmn
  · have herror := abs_le.mp (double_error (n : ℚ))
    rw [abs_of_nonneg n.cast_nonneg] at herror
    have hbig : (2 : ℚ) ^ 53 < n := by exact_mod_cast hlt
    have hsmall : (m : ℚ) ≤ 2 ^ 52 := by exact_mod_cast hm
    have hhalf : (n : ℚ) / 2 ^ 53 ≤ n / 2 := div_le_div_of_nonneg_left n.cast_nonneg (by norm_num)
      (by norm_num)
    linarith

/-- The quotient of floats is no more than a power of 2 if the exact one is no more, for small
powers that are below the divisor. -/
theorem abs_quotient_le {a : ℤ} {n i j : ℕ} (ha : |a| ≤ 2 ^ (i + j)) (hi : i ≤ 52)
    (hn : 2 ^ i ≤ n) : |double (double a / double n)| ≤ 2 ^ j := by
  have hnum : |double a| ≤ 2 ^ (i + j) := double_abs_le (by exact_mod_cast ha)
  have hden : ((2 ^ i : ℕ) : ℚ) ≤ double n :=
    le_double (Nat.pow_le_pow_right (by norm_num) hi) hn
  push_cast at hden
  have hpos : (0 : ℚ) < 2 ^ i := by positivity
  refine double_abs_le ?_
  rw [abs_div, abs_of_pos (hpos.trans_le hden), div_le_iff₀ (hpos.trans_le hden)]
  calc |double a| ≤ 2 ^ (i + j) := hnum
    _ = 2 ^ j * 2 ^ i := by rw [pow_add, mul_comm]
    _ ≤ 2 ^ j * double n := mul_le_mul_of_nonneg_left hden (by positivity)

/-- The quotient of a number below 2^53 has the same floor as a float. -/
theorem floor_double_div {a b : ℕ} (ha : a < 2 ^ 53) (hb : 0 < b) :
    ⌊double ((a : ℚ) / b)⌋ = (a / b : ℕ) := by
  have hpos : (0 : ℚ) < b := by exact_mod_cast hb
  have hle : a / b ≤ a := Nat.div_le_self a b
  have hdiv := Nat.div_add_mod a b
  have hmod := Nat.mod_lt a hb
  generalize a / b = k at *
  generalize a % b = m at *
  have hsplit : (a : ℚ) = b * k + m := by exact_mod_cast hdiv.symm
  obtain rfl | hrest := Nat.eq_zero_or_pos m
  · have hx : (a : ℚ) / b = ((k : ℤ) : ℚ) := by
      rw [div_eq_iff hpos.ne', hsplit]
      push_cast
      ring
    rw [hx, double_intCast (by rw [Nat.abs_cast]; omega), Int.floor_intCast]
  · have hone : (1 : ℚ) ≤ m := by exact_mod_cast hrest
    have hlt : (m : ℚ) + 1 ≤ b := by exact_mod_cast hmod
    have hlow : (k : ℚ) + 1 / b ≤ a / b := by
      rw [le_div_iff₀ hpos, add_mul, one_div_mul_cancel hpos.ne']
      linarith
    have hhigh : (a : ℚ) / b + 1 / b ≤ k + 1 := by
      rw [← add_div, div_le_iff₀ hpos]
      linarith
    have hsmall : (a : ℚ) / b / 2 ^ 53 < 1 / b := by
      have hcast : (a : ℚ) < 2 ^ 53 := by exact_mod_cast ha
      rw [div_right_comm, div_lt_div_iff_of_pos_right hpos, div_lt_one (by norm_num)]
      exact hcast
    have herror := abs_le.mp (double_error ((a : ℚ) / b))
    rw [abs_of_nonneg (by positivity)] at herror
    rw [Int.floor_eq_iff]
    push_cast
    constructor <;> linarith

/-! ### Integers and floats -/

def maxInteger : ℤ := 2 ^ 63 - 1

/-- The integer of 64 bits with this remainder. -/
def wrap (i : ℤ) : ℤ := i.bmod (2 ^ 64)

inductive LuaNum
  | int (i : ℤ)
  | float (q : ℚ)

namespace LuaNum

def toFloat : LuaNum → ℚ
  | .int i => double i
  | .float q => q

/-- The sum of two integers is one; any other is a float. -/
def add : LuaNum → LuaNum → LuaNum
  | .int a, .int b => .int (wrap (a + b))
  | a, b => .float (double (a.toFloat + b.toFloat))

/-- The difference, in the same way. -/
def sub : LuaNum → LuaNum → LuaNum
  | .int a, .int b => .int (wrap (a - b))
  | a, b => .float (double (a.toFloat - b.toFloat))

def mul : LuaNum → LuaNum → LuaNum
  | .int a, .int b => .int (wrap (a * b))
  | a, b => .float (double (a.toFloat * b.toFloat))

/-- The number itself, as comparisons read it. -/
def value : LuaNum → ℚ
  | .int i => i
  | .float q => q

/-- The floor of a float is an integer if it has 64 bits. -/
def floor (q : ℚ) : LuaNum := if -2 ^ 63 ≤ ⌊q⌋ ∧ ⌊q⌋ ≤ maxInteger then .int ⌊q⌋ else .float ⌊q⌋

/-- The integer that a number is, if it is one. -/
def toInteger : LuaNum → Option ℤ
  | .int i => some i
  | .float q => if q.den = 1 ∧ -2 ^ 63 ≤ q.num ∧ q.num ≤ maxInteger then some q.num else none

end LuaNum

theorem wrap_eq {i : ℤ} (hlow : -2 ^ 63 ≤ i) (hhigh : i ≤ maxInteger) : wrap i = i := by
  rw [maxInteger] at hhigh
  exact Int.bmod_eq_of_le (by omega) (by omega)

theorem wrap_le (i : ℤ) : wrap i ≤ maxInteger := by
  have hlt := Int.bmod_lt (x := i) (m := 2 ^ 64) (by norm_num)
  rw [wrap, maxInteger]
  omega

/-- A sum that is an integer has 64 bits. -/
theorem LuaNum.toInteger_add_le {a : ℤ} {b : LuaNum} {e : ℤ}
    (he : ((LuaNum.int a).add b).toInteger = some e) : e ≤ maxInteger := by
  cases b with
  | int b =>
    obtain rfl := Option.some.inj he
    exact wrap_le (a + b)
  | float q =>
    rw [LuaNum.add, LuaNum.toInteger] at he
    · split at he
      case isTrue hfits =>
        obtain rfl := Option.some.inj he
        exact hfits.2.2
      case isFalse => cases he
    · intro a b _ hb
      cases hb

theorem wrap_high {i : ℤ} (hlow : maxInteger < i) (hhigh : i < 2 ^ 63 + 2 ^ 64) :
    wrap i = i - 2 ^ 64 := by
  rw [maxInteger] at hlow
  rw [wrap, ← Int.sub_bmod_right]
  exact Int.bmod_eq_of_le (by omega) (by omega)

theorem wrap_low {i : ℤ} (hlow : -2 ^ 63 - 2 ^ 64 ≤ i) (hhigh : i < -2 ^ 63) :
    wrap i = i + 2 ^ 64 := by
  rw [wrap, ← Int.add_bmod_right]
  exact Int.bmod_eq_of_le (by omega) (by omega)

/-- Only the last of some sums has to be wrapped. -/
theorem wrap_wrap_add (a b : ℤ) : wrap (wrap a + b) = wrap (a + b) := Int.bmod_add_bmod

end XsServer.Lib.Number
