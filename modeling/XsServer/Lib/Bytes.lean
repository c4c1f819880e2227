import Mathlib.Data.List.Basic
import Mathlib.Tactic.Ring

/-! The numbers of the C sources: the largest `int`, and unsigned numbers as bytes, the least or the
most significant byte first. -/

namespace XsServer.Lib

/-- `INT_MAX`, the largest `int`. -/
def INT_MAX : Nat := 2 ^ 31 - 1

namespace Bytes

/-- The `w` low bytes of a number, the lowest first. -/
def le : Nat → Nat → List UInt8
  | 0, _ => []
  | w + 1, n => UInt8.ofNat n :: le w (n / 256)

/-- The number with these bytes, the lowest first. -/
def ofLe : List UInt8 → Nat
  | [] => 0
  | b :: bs => b.toNat + 256 * ofLe bs

/-- The `w` low bytes of a number, the highest first. -/
def be (w n : Nat) : List UInt8 := (le w n).reverse

/-- The number with these bytes, the highest first. -/
def ofBe (bs : List UInt8) : Nat := ofLe bs.reverse

@[simp] theorem le_length (w n : Nat) : (le w n).length = w := by
  induction w generalizing n with
  | zero => rfl
  | succ w ih => rw [le, List.length_cons, ih]

@[simp] theorem be_length (w n : Nat) : (be w n).length = w := by
  rw [be, List.length_reverse, le_length]

theorem ofLe_le (w n : Nat) : ofLe (le w n) = n % 256 ^ w := by
  induction w generalizing n with
  | zero => rw [pow_zero, Nat.mod_one]; rfl
  | succ w ih =>
    have hbyte : (UInt8.ofNat n).toNat = n % 256 := UInt8.toNat_ofNat'
    rw [le, ofLe, ih, hbyte, pow_succ', Nat.mod_mul]

theorem ofLe_le_of_lt {w n : Nat} (h : n < 256 ^ w) : ofLe (le w n) = n := by
  rw [ofLe_le, Nat.mod_eq_of_lt h]

theorem ofBe_be (w n : Nat) : ofBe (be w n) = n % 256 ^ w := by
  rw [ofBe, be, List.reverse_reverse, ofLe_le]

theorem ofLe_lt (bs : List UInt8) : ofLe bs < 256 ^ bs.length := by
  induction bs with
  | nil => exact Nat.one_pos
  | cons b bs ih =>
    have := b.toNat_lt
    rw [ofLe, List.length_cons, pow_succ']
    omega

theorem ofBe_lt (bs : List UInt8) : ofBe bs < 256 ^ bs.length := by
  rw [ofBe, ← List.length_reverse]
  exact ofLe_lt _

theorem le_ofLe (bs : List UInt8) : le bs.length (ofLe bs) = bs := by
  induction bs with
  | nil => rfl
  | cons b bs ih =>
    have hb := b.toNat_lt
    have hdiv : ofLe (b :: bs) / 256 = ofLe bs := by rw [ofLe]; omega
    have hmod : UInt8.ofNat (ofLe (b :: bs)) = b := by
      rw [← UInt8.toNat_inj, UInt8.toNat_ofNat', ofLe]
      omega
    rw [List.length_cons, le, hdiv, hmod, ih]

theorem be_ofBe (bs : List UInt8) : be bs.length (ofBe bs) = bs := by
  rw [be, ofBe, ← List.length_reverse, le_ofLe, List.reverse_reverse]

end Bytes

end XsServer.Lib
