import Mathlib.Data.UInt
import XsServer.Lib.Bytes

/-! The key exchange of `lua-crypt.c`: products and powers modulo the largest 64-bit prime `P`, on
64-bit words, and `dhexchange` and `dhsecret` over them. -/

namespace XsServer.Crypt.DiffieHellman

open XsServer.Lib

/-- The biggest 64-bit prime. -/
def P : UInt64 := 0xffffffffffffffc5

def G : UInt64 := 5

/-- The variables of the loop of `mul_mod_p`. -/
structure Product where
  m : UInt64
  a : UInt64
  b : UInt64
  deriving DecidableEq, Repr

/-- `m` after `t = P - a` is compared with it. -/
def Product.added (s : Product) : UInt64 :=
  let t := P - s.a
  if s.m ≥ t then s.m - t else s.m + s.a

def Product.doubled (s : Product) : UInt64 :=
  if s.a ≥ P - s.a then s.a * 2 - P else s.a * 2

def Product.next (s : Product) : Product where
  m := if s.b &&& 1 = 1 then s.added else s.m
  a := s.doubled
  b := s.b >>> 1

theorem toNat_shiftRight_one (b : UInt64) : (b >>> 1).toNat = b.toNat / 2 := by
  simp [UInt64.toNat_shiftRight, Nat.shiftRight_eq_div_pow]

/-- The loop of `mul_mod_p`. -/
def Product.run (s : Product) : UInt64 :=
  if s.b = 0 then s.m else s.next.run
termination_by s.b.toNat
decreasing_by
  have hb : s.b.toNat ≠ 0 := fun h0 => ‹¬ s.b = 0› (UInt64.toNat_inj.mp h0)
  rw [Product.next, toNat_shiftRight_one]
  omega

def mulModP (a b : UInt64) : UInt64 := Product.run ⟨0, a, b⟩

/-- `pow_mod_p` with at most `depth` nested calls. -/
def powModP : Nat → UInt64 → UInt64 → Option UInt64
  | 0, _, _ => none
  | depth + 1, a, b =>
    if b = 1 then some a else do
      let t ← powModP depth a (b >>> 1)
      let t := mulModP t t
      if b % 2 ≠ 0 then some (mulModP t a) else some t

/-- `a` as `powmodp` passes it on. -/
def reduced (a : UInt64) : UInt64 := if a > P then a % P else a

/-- `powmodp`: its calls are nested at most 64 deep unless `b` is 0, where they never end. -/
def powmodp (a b : UInt64) : Option UInt64 := powModP 64 (reduced a) b

def push64 (r : UInt64) : List UInt8 := Bytes.le 8 r.toNat

def get64 (x : List UInt8) : UInt64 := UInt64.ofNat (Bytes.ofLe x)

/-- `ldhsecret`: nothing if it does not return. -/
def ldhsecret (x y : List UInt8) : ExceptT String Option (List UInt8) := do
  if x.length ≠ 8 then throw "Invalid uint64 x"
  if y.length ≠ 8 then throw "Invalid uint64 y"
  let xx := get64 x
  let yy := get64 y
  if xx = 0 ∨ yy = 0 then throw "Can't be 0"
  let r ← (powmodp xx yy : Option UInt64)
  return push64 r

/-- `ldhexchange`. -/
def ldhexchange (x : List UInt8) : ExceptT String Option (List UInt8) := do
  if x.length ≠ 8 then throw "Invalid dh uint64 key"
  let x64 := get64 x
  if x64 = 0 then throw "Can't be 0"
  let r ← (powmodp G x64 : Option UInt64)
  return push64 r

/-! ### The operations of a round are exact -/

theorem toNat_P : P.toNat = 18446744073709551557 := rfl

/-- The operations of a round give the values that they have on the integers: `P - a` and the
branch taken of the addition and of the doubling. -/
structure Product.Exact (s : Product) : Prop where
  t : ((P - s.a).toNat : Int) = P.toNat - s.a.toNat
  sub : s.m ≥ P - s.a → ((s.m - (P - s.a)).toNat : Int) = s.m.toNat - (P.toNat - s.a.toNat)
  add : ¬ s.m ≥ P - s.a → ((s.m + s.a).toNat : Int) = s.m.toNat + s.a.toNat
  doubleSub : s.a ≥ P - s.a → ((s.a * 2 - P).toNat : Int) = s.a.toNat * 2 - P.toNat
  double : ¬ s.a ≥ P - s.a → ((s.a * 2).toNat : Int) = s.a.toNat * 2

/-- What every round keeps: the sum stays below `P`, and the multiplicand does not exceed it. -/
structure Product.Bounded (s : Product) : Prop where
  m : s.m.toNat < P.toNat
  a : s.a.toNat ≤ P.toNat

theorem bounded_mk {m a b : UInt64} (hm : m.toNat < P.toNat) (ha : a.toNat ≤ P.toNat) :
    Product.Bounded ⟨m, a, b⟩ where
  m := hm
  a := ha

variable {a : UInt64}

theorem toNat_P_sub (h : a.toNat ≤ P.toNat) :
    (P - a).toNat = P.toNat - a.toNat := by
  rw [UInt64.toNat_sub, toNat_P] at *
  omega

variable {s : Product}

theorem Product.Bounded.exact (h : s.Bounded) : s.Exact := by
  obtain ⟨hm, ha⟩ := h
  have ht := toNat_P_sub ha
  have hP := toNat_P
  constructor
  · rw [ht]
    omega
  · intro hle
    rw [ge_iff_le, UInt64.le_iff_toNat_le, ht] at hle
    rw [UInt64.toNat_sub, ht]
    omega
  · intro hle
    rw [ge_iff_le, UInt64.le_iff_toNat_le, ht] at hle
    rw [UInt64.toNat_add]
    omega
  · intro hle
    rw [ge_iff_le, UInt64.le_iff_toNat_le, ht] at hle
    simp only [UInt64.toNat_sub, UInt64.toNat_mul, UInt64.reduceToNat]
    omega
  · intro hle
    rw [ge_iff_le, UInt64.le_iff_toNat_le, ht] at hle
    simp only [UInt64.toNat_mul, UInt64.reduceToNat]
    omega

theorem Product.Bounded.added (h : s.Bounded) :
    s.added.toNat < P.toNat ∧ s.added.toNat ≡ s.m.toNat + s.a.toNat [MOD P.toNat] := by
  have hexact := h.exact
  obtain ⟨hm, ha⟩ := h
  simp only [Product.added]
  split
  case isTrue hle =>
    have hsub := hexact.sub hle
    have heq : s.m.toNat + s.a.toNat = (s.m - (P - s.a)).toNat + P.toNat := by omega
    refine ⟨by omega, ?_⟩
    rw [heq]
    exact (Nat.add_mod_right _ _).symm
  case isFalse hlt =>
    have hadd := hexact.add hlt
    rw [ge_iff_le, UInt64.le_iff_toNat_le, toNat_P_sub ha] at hlt
    have heq : (s.m + s.a).toNat = s.m.toNat + s.a.toNat := by omega
    rw [heq]
    exact ⟨by omega, rfl⟩

theorem Product.Bounded.doubled (h : s.Bounded) :
    s.doubled.toNat ≤ P.toNat ∧ s.doubled.toNat ≡ 2 * s.a.toNat [MOD P.toNat] := by
  have hexact := h.exact
  obtain ⟨hm, ha⟩ := h
  unfold Product.doubled
  split
  case isTrue hle =>
    have hsub := hexact.doubleSub hle
    have heq : 2 * s.a.toNat = (s.a * 2 - P).toNat + P.toNat := by omega
    refine ⟨by omega, ?_⟩
    rw [heq]
    exact (Nat.add_mod_right _ _).symm
  case isFalse hlt =>
    have hdouble := hexact.double hlt
    rw [ge_iff_le, UInt64.le_iff_toNat_le, toNat_P_sub ha] at hlt
    have heq : (s.a * 2).toNat = 2 * s.a.toNat := by omega
    rw [heq]
    exact ⟨by omega, rfl⟩

theorem and_one_eq_one (b : UInt64) : b &&& 1 = 1 ↔ b.toNat % 2 = 1 := by
  rw [← UInt64.toNat_inj, UInt64.toNat_and]
  simp [Nat.and_one_is_mod]

theorem Product.Bounded.next {s : Product} (h : s.Bounded) :
    s.next.Bounded ∧ s.next.m.toNat + s.next.a.toNat * s.next.b.toNat ≡
      s.m.toNat + s.a.toNat * s.b.toNat [MOD P.toNat] := by
  obtain ⟨hlt, hsum⟩ := h.added
  obtain ⟨hle, hdouble⟩ := h.doubled
  have hhalf := hdouble.mul_right (s.b.toNat / 2)
  simp only [Product.next, toNat_shiftRight_one, and_one_eq_one]
  split
  case isTrue hodd =>
    refine ⟨bounded_mk hlt hle, ?_⟩
    have hb : s.b.toNat = 2 * (s.b.toNat / 2) + 1 := by omega
    calc s.added.toNat + s.doubled.toNat * (s.b.toNat / 2)
        ≡ s.m.toNat + s.a.toNat + 2 * s.a.toNat * (s.b.toNat / 2) [MOD P.toNat] :=
          hsum.add hhalf
      _ = s.m.toNat + s.a.toNat * (2 * (s.b.toNat / 2) + 1) := by ring
      _ = s.m.toNat + s.a.toNat * s.b.toNat := by rw [← hb]
  case isFalse heven =>
    refine ⟨bounded_mk h.m hle, ?_⟩
    have hb : s.b.toNat = 2 * (s.b.toNat / 2) := by omega
    calc s.m.toNat + s.doubled.toNat * (s.b.toNat / 2)
        ≡ s.m.toNat + 2 * s.a.toNat * (s.b.toNat / 2) [MOD P.toNat] := hhalf.add_left _
      _ = s.m.toNat + s.a.toNat * (2 * (s.b.toNat / 2)) := by ring
      _ = s.m.toNat + s.a.toNat * s.b.toNat := by rw [← hb]

theorem Product.Bounded.iterate (h : s.Bounded) (k : Nat) :
    (Product.next^[k] s).Bounded := by
  induction k generalizing s with
  | zero => exact h
  | succ k ih => exact ih h.next.1

theorem Product.Bounded.run (h : s.Bounded) :
    s.run.toNat = (s.m.toNat + s.a.toNat * s.b.toNat) % P.toNat := by
  fun_induction Product.run s with
  | case1 s hb =>
    rw [hb, UInt64.toNat_zero, Nat.mul_zero, Nat.add_zero, Nat.mod_eq_of_lt h.m]
  | case2 s hb ih =>
    obtain ⟨hnext, hkeep⟩ := h.next
    rw [ih hnext]
    exact hkeep

theorem bounded_start (ha : a.toNat ≤ P.toNat) (b : UInt64) :
    Product.Bounded ⟨0, a, b⟩ :=
  bounded_mk (by decide) ha

theorem toNat_mulModP (ha : a.toNat ≤ P.toNat) (b : UInt64) :
    (mulModP a b).toNat = a.toNat * b.toNat % P.toNat := by
  rw [mulModP, (bounded_start ha b).run, UInt64.toNat_zero, Nat.zero_add]

theorem mulModP_lt (ha : a.toNat ≤ P.toNat) (b : UInt64) :
    (mulModP a b).toNat < P.toNat := by
  rw [toNat_mulModP ha]
  exact Nat.mod_lt _ (by decide)

/-! ### Powers -/

/-- The products that `powModP` forms, as the states in which their loops start. -/
def products : Nat → UInt64 → UInt64 → List Product
  | 0, _, _ => []
  | depth + 1, a, b =>
    if b = 1 then [] else
      products depth a (b >>> 1) ++
        (powModP depth a (b >>> 1)).elim [] fun t =>
          ⟨0, t, t⟩ :: if b % 2 ≠ 0 then [⟨0, mulModP t t, a⟩] else []

/-- The value of a power and of the products on the way: only `P` to the first power is not
reduced. -/
structure Power (depth : Nat) (a b r : UInt64) : Prop where
  eval : powModP depth a b = some r
  le : r.toNat ≤ P.toNat
  power : r.toNat ≡ a.toNat ^ b.toNat [MOD P.toNat]
  bounded : ∀ s ∈ products depth a b, s.Bounded

theorem mod_two_ne_zero (b : UInt64) : b % 2 ≠ 0 ↔ b.toNat % 2 = 1 := by
  rw [ne_eq, ← UInt64.toNat_inj, UInt64.toNat_mod]
  simp

theorem mulModP_power {a t n : UInt64} {k : Nat} (ht : t.toNat ≤ P.toNat)
    (hpow : t.toNat ≡ a.toNat ^ n.toNat [MOD P.toNat]) (hk : k = 2 * n.toNat) :
    (mulModP t t).toNat ≡ a.toNat ^ k [MOD P.toNat] := by
  rw [toNat_mulModP ht, hk, two_mul, pow_add]
  exact (Nat.mod_modEq _ _).trans (hpow.mul hpow)

theorem powModP_eval (depth : Nat) {a b : UInt64} (ha : a.toNat ≤ P.toNat) (hb : b ≠ 0)
    (hdepth : b.toNat < 2 ^ depth) : ∃ r, Power depth a b r := by
  have hpos : b.toNat ≠ 0 := fun h => hb (UInt64.toNat_inj.mp h)
  induction depth generalizing b with
  | zero => omega
  | succ depth ih =>
    by_cases hone : b = 1
    · subst hone
      exact ⟨a, by simp [powModP], ha, by simp [Nat.ModEq], by simp [products]⟩
    · have hone' : b.toNat ≠ 1 := fun h => hone (UInt64.toNat_inj.mp h)
      have hhalf := toNat_shiftRight_one b
      have hne : b >>> 1 ≠ 0 := by
        intro h
        rw [h, UInt64.toNat_zero] at hhalf
        omega
      obtain ⟨t, ht⟩ := ih hne (by rw [pow_succ] at hdepth; omega) (by omega)
      have hsquare := mulModP_lt ht.le t
      have hstart := bounded_start ht.le t
      by_cases hodd : b.toNat % 2 = 1
      · have hmod := (mod_two_ne_zero b).mpr hodd
        refine ⟨mulModP (mulModP t t) a, by simp [powModP, hone, ht.eval, hmod],
          (mulModP_lt hsquare.le a).le, ?_, ?_⟩
        · have hpow := mulModP_power ht.le ht.power rfl
          rw [toNat_mulModP hsquare.le]
          have hb : b.toNat = 2 * (b >>> 1).toNat + 1 := by omega
          rw [hb, pow_succ]
          exact (Nat.mod_modEq _ _).trans (hpow.mul_right _)
        · intro s hs
          rw [products, if_neg hone, ht.eval, Option.elim_some, if_pos hmod, List.mem_append,
            List.mem_cons, List.mem_singleton] at hs
          obtain hs | rfl | rfl := hs
          · exact ht.bounded s hs
          · exact hstart
          · exact bounded_start hsquare.le a
      · have hmod := mt (mod_two_ne_zero b).mp hodd
        refine ⟨mulModP t t, by simp [powModP, hone, ht.eval, not_not.mp hmod], hsquare.le,
          mulModP_power ht.le ht.power (by omega), ?_⟩
        intro s hs
        rw [products, if_neg hone, ht.eval, Option.elim_some, if_neg hmod, List.mem_append,
          List.mem_singleton] at hs
        obtain hs | rfl := hs
        · exact ht.bounded s hs
        · exact hstart

theorem reduced_le (a : UInt64) : (reduced a).toNat ≤ P.toNat := by
  unfold reduced
  split
  · rw [UInt64.toNat_mod]
    exact (Nat.mod_lt _ (by decide)).le
  case isFalse h =>
    exact UInt64.le_iff_toNat_le.mp (UInt64.not_lt.mp h)

theorem reduced_modEq (a : UInt64) : (reduced a).toNat ≡ a.toNat [MOD P.toNat] := by
  unfold reduced
  split
  · rw [UInt64.toNat_mod]
    exact Nat.mod_modEq _ _
  · exact Nat.ModEq.refl _

/-- A power in the form that `powmodp` gives it: reduced, but for one representative of 0. -/
def IsPower (x y r : UInt64) : Prop :=
  r.toNat = x.toNat ^ y.toNat % P.toNat ∨ r = P ∧ x.toNat ^ y.toNat % P.toNat = 0

theorem isPower_of {x y r : UInt64} (hle : r.toNat ≤ P.toNat)
    (hpow : r.toNat ≡ x.toNat ^ y.toNat [MOD P.toNat]) : IsPower x y r := by
  obtain hlt | heq := hle.lt_or_eq
  · left
    rw [← hpow, Nat.mod_eq_of_lt hlt]
  · right
    refine ⟨UInt64.toNat_inj.mp heq, ?_⟩
    rw [← hpow, heq, Nat.mod_self]

theorem powmodp_eval (x : UInt64) {y : UInt64} (hy : y ≠ 0) :
    ∃ r, powmodp x y = some r ∧ IsPower x y r := by
  obtain ⟨r, hr⟩ := powModP_eval 64 (reduced_le x) hy y.toNat_lt
  exact ⟨r, hr.eval, isPower_of hr.le (hr.power.trans ((reduced_modEq x).pow _))⟩

theorem products_bounded (x : UInt64) {y : UInt64} (hy : y ≠ 0)
    (hs : s ∈ products 64 (reduced x) y) : s.Bounded := by
  obtain ⟨r, hr⟩ := powModP_eval 64 (reduced_le x) hy y.toNat_lt
  exact hr.bounded s hs

/-! ### The exchange -/

theorem get64_push64 (r : UInt64) : get64 (push64 r) = r := by
  rw [get64, push64, Bytes.ofLe_le_of_lt (by exact r.toNat_lt), UInt64.ofNat_toNat]

@[simp] theorem push64_length (r : UInt64) : (push64 r).length = 8 := Bytes.le_length ..

theorem IsPower.unit {x y r : UInt64} (h : IsPower x y r)
    (hx : Nat.Coprime x.toNat P.toNat) :
    r.toNat = x.toNat ^ y.toNat % P.toNat ∧ Nat.Coprime r.toNat P.toNat := by
  have hpow : Nat.Coprime (x.toNat ^ y.toNat % P.toNat) P.toNat := by
    rw [Nat.Coprime, ← Nat.gcd_rec, Nat.gcd_comm]
    exact hx.pow_left _
  obtain heq | ⟨-, hzero⟩ := h
  · rw [heq]
    exact ⟨rfl, hpow⟩
  · rw [hzero, Nat.coprime_zero_left] at hpow
    exact absurd hpow (by decide)

theorem ne_zero_of_coprime {r : UInt64} (h : Nat.Coprime r.toNat P.toNat) : r ≠ 0 := by
  rintro rfl
  rw [UInt64.toNat_zero, Nat.coprime_zero_left] at h
  exact absurd h (by decide)

theorem ldhexchange_eval {x : List UInt8} (hlen : x.length = 8) (hx : get64 x ≠ 0) :
    ∃ r : UInt64, ldhexchange x = some (.ok (push64 r)) ∧
      r.toNat = 5 ^ (get64 x).toNat % P.toNat ∧ Nat.Coprime r.toNat P.toNat := by
  obtain ⟨r, hr, hpow⟩ := powmodp_eval G hx
  obtain ⟨heq, hunit⟩ := hpow.unit (by decide)
  refine ⟨r, ?_, heq, hunit⟩
  simp only [ldhexchange, hlen, hx, hr]
  rfl

theorem ldhsecret_eval {x : UInt64} {y : List UInt8} (hx : Nat.Coprime x.toNat P.toNat)
    (hlen : y.length = 8) (hy : get64 y ≠ 0) :
    ∃ r : UInt64, ldhsecret (push64 x) y = some (.ok (push64 r)) ∧
      r.toNat = x.toNat ^ (get64 y).toNat % P.toNat ∧ r ≠ 0 := by
  obtain ⟨r, hr, hpow⟩ := powmodp_eval x hy
  obtain ⟨heq, hunit⟩ := hpow.unit hx
  refine ⟨r, ?_, heq, ne_zero_of_coprime hunit⟩
  have hor : ¬ (x = 0 ∨ get64 y = 0) := not_or.mpr ⟨ne_zero_of_coprime hx, hy⟩
  simp only [ldhsecret, push64_length, hlen, get64_push64, if_neg hor, hr]
  rfl

/-- The secret that two parties share: the same from both sides. -/
theorem dh_agree (a b : List UInt8) (ha : a.length = 8) (hb : b.length = 8)
    (ha0 : get64 a ≠ 0) (hb0 : get64 b ≠ 0) :
    (∀ x y : UInt64, y ≠ 0 → ∃ r, powmodp x y = some r ∧ IsPower x y r ∧
      ∀ s ∈ products 64 (reduced x) y, ∀ k, (Product.next^[k] s).Exact) ∧
    ∃ ea eb : List UInt8, ∃ r : UInt64,
      ldhexchange a = some (.ok ea) ∧ ldhexchange b = some (.ok eb) ∧
      ldhsecret ea b = some (.ok (push64 r)) ∧ ldhsecret eb a = some (.ok (push64 r)) ∧
      r ≠ 0 := by
  constructor
  · intro x y hy
    obtain ⟨r, hr, hpow⟩ := powmodp_eval x hy
    exact ⟨r, hr, hpow, fun s hs k => ((products_bounded x hy hs).iterate k).exact⟩
  · obtain ⟨ea, hea, heqa, hua⟩ := ldhexchange_eval ha ha0
    obtain ⟨eb, heb, heqb, hub⟩ := ldhexchange_eval hb hb0
    obtain ⟨r, hr, hreq, hr0⟩ := ldhsecret_eval hua hb hb0
    obtain ⟨r', hr', hreq', -⟩ := ldhsecret_eval hub ha ha0
    have hsame : r' = r := by
      rw [← UInt64.toNat_inj, hreq, hreq', heqa, heqb, ← Nat.pow_mod, ← Nat.pow_mod,
        ← pow_mul, ← pow_mul, Nat.mul_comm]
    exact ⟨push64 ea, push64 eb, r, hea, heb, hr, hsame ▸ hr', hr0⟩

/-- The keys 3 and 4. -/
theorem dh_agree_three_four :
    ∃ ea eb : List UInt8, ∃ r : UInt64,
      ldhexchange [3, 0, 0, 0, 0, 0, 0, 0] = some (.ok ea) ∧
      ldhexchange [4, 0, 0, 0, 0, 0, 0, 0] = some (.ok eb) ∧
      ldhsecret ea [4, 0, 0, 0, 0, 0, 0, 0] = some (.ok (push64 r)) ∧
      ldhsecret eb [3, 0, 0, 0, 0, 0, 0, 0] = some (.ok (push64 r)) ∧ r ≠ 0 :=
  (dh_agree [3, 0, 0, 0, 0, 0, 0, 0] [4, 0, 0, 0, 0, 0, 0, 0] rfl rfl (by decide)
    (by decide)).2

end XsServer.Crypt.DiffieHellman
