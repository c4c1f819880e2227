import XsServer.Extend.Math

/-! The functions of `extend_table.lua` that remove values from an array, and those that remove a
range of positions and add to a bounded array. -/

namespace XsServer.Extend

variable {α : Type}

/-! ### Values -/

section Values

-- `==` of Lua, for which a float that is not a number is not equal to itself
variable [BEq α] (isFalse : α → Bool)

def existCount : List α → α → Int → Bool
  | [], _, _ => false
  | x :: t, v, c =>
    let c := if x == v then c - 1 else c
    if c ≤ 0 then true else existCount t v c

/-- The loop of `find_remove` from a position on: it ends at a `false`, which is no value of a
condition. -/
def removeFrom : List α → α → Int → List α
  | [], _, _ => []
  | x :: t, v, c =>
    if isFalse x then x :: t
    else if c > 0 then
      if x == v then removeFrom t v (c - 1) else x :: removeFrom t v c
    else x :: t

/-- What is returned, and the array after the call. -/
def findRemove (t : List α) (v : α) (c : Int) (no : Bool) : Bool × List α :=
  if !no && !existCount t v c then (false, t) else (true, removeFrom isFalse t v c)

def removeEach (t : List α) : List α → Bool × List α
  | [] => (true, t)
  | v :: vs =>
    match findRemove isFalse t v 1 false with
    | (true, t) => removeEach t vs
    | (false, t) => (false, t)

def removeArgs (t args : List α) : Bool × List α := removeEach isFalse t args

/-- `lis` is another table than `t`. -/
def removeList (t lis : List α) : Bool × List α := removeEach isFalse t lis

/-- The loop over a list that is the array itself, from a position on: it reads what is left in the
array, in at most the given number of rounds. -/
def removeOwnFrom (t : List α) (i : Nat) : Nat → Bool × List α
  | 0 => (true, t)
  | rounds + 1 =>
    match t[i]? with
    | none => (true, t)
    | some v =>
      match findRemove isFalse t v 1 false with
      | (true, t) => removeOwnFrom t (i + 1) rounds
      | (false, t) => (false, t)

/-- `remove_list` where `lis` is `t`. -/
def removeOwn (t : List α) : Bool × List α := removeOwnFrom isFalse t 0 t.length

/-- Every value is in the other list, at least as often. -/
structure Submultiset (vs t : List α) : Prop where
  self : ∀ v ∈ vs, (v == v) = true
  le : ∀ v, vs.countP (· == v) ≤ t.countP (· == v)

/-- What remains of an array, in its order, without one element for each of the values. -/
def Removes (t vs out : List α) : Prop :=
  out.Sublist t ∧ ∃ removed : List α, (removed ++ out).Perm t ∧
    List.Forall₂ (fun x v => (x == v) = true) removed vs

structure Atomic (t vs : List α) (r : Bool × List α) : Prop where
  accepts : r.1 = true ↔ Submultiset vs t
  removes : r.1 = true → Removes t vs r.2
  keeps : r.1 = false → r.2 = t

/-- The elements before the first `false`. -/
def front (t : List α) : List α := t.takeWhile fun x => !isFalse x

/-- One of the values is not in the array, and no value before it is in front. -/
def Misses (t vs : List α) : Prop :=
  ∃ before v after, vs = before ++ v :: after ∧ (∀ x ∈ t, (x == v) = false) ∧
    ∀ w ∈ before, ∀ x ∈ front isFalse t, (x == w) = false

variable {isFalse} {t vs : List α} {v : α}

theorem existCount_one : existCount t v 1 = true ↔ ∃ x ∈ t, (x == v) = true := by
  induction t with
  | nil => simp [existCount]
  | cons x t ih =>
    rw [existCount]
    cases hx : x == v with
    | true => simp [hx]
    | false => simp [hx, ih]

theorem removeFrom_zero (t : List α) (v : α) : removeFrom isFalse t v 0 = t := by
  cases t with
  | nil => rfl
  | cons x t => simp [removeFrom]

theorem removeFrom_none (hnone : ∀ x ∈ front isFalse t, (x == v) = false) :
    removeFrom isFalse t v 1 = t := by
  induction t with
  | nil => rfl
  | cons x t ih =>
    rw [removeFrom]
    cases hx : isFalse x with
    | true => rfl
    | false =>
      rw [front, List.takeWhile_cons_of_pos (by simp [hx]), List.forall_mem_cons] at hnone
      simp [hnone.1, ih hnone.2]

theorem removeFrom_append {a b : List α} {x : α}
    (ha : ∀ y ∈ a, isFalse y = false ∧ (y == v) = false) (hx : isFalse x = false)
    (hxv : (x == v) = true) : removeFrom isFalse (a ++ x :: b) v 1 = a ++ b := by
  induction a with
  | nil => simp [removeFrom, hx, hxv, removeFrom_zero]
  | cons y a ih =>
    rw [List.forall_mem_cons] at ha
    simp [removeFrom, ha.1.1, ha.1.2, ih ha.2]

theorem exists_first (hex : ∃ x ∈ front isFalse t, (x == v) = true) :
    ∃ a x b, t = a ++ x :: b ∧ (∀ y ∈ a, isFalse y = false ∧ (y == v) = false) ∧
      isFalse x = false ∧ (x == v) = true := by
  induction t with
  | nil => simp [front] at hex
  | cons y t ih =>
    cases hy : isFalse y with
    | true => simp [front, hy] at hex
    | false =>
      rw [front, List.takeWhile_cons_of_pos (by simp [hy])] at hex
      cases hyv : y == v with
      | true => exact ⟨[], y, t, rfl, by simp, hy, hyv⟩
      | false =>
        obtain ⟨x, hx, hxv⟩ := hex
        obtain rfl | hx := List.mem_cons.mp hx
        · rw [hyv] at hxv
          cases hxv
        · obtain ⟨a, x, b, rfl, ha, hx, hxv⟩ := ih ⟨x, hx, hxv⟩
          exact ⟨y :: a, x, b, rfl, List.forall_mem_cons.mpr ⟨⟨hy, hyv⟩, ha⟩, hx, hxv⟩

theorem findRemove_cases (isFalse : α → Bool) (t : List α) (v : α) :
    ((∀ x ∈ t, (x == v) = false) ∧ findRemove isFalse t v 1 false = (false, t)) ∨
    ((∃ x ∈ t, (x == v) = true) ∧ (∀ x ∈ front isFalse t, (x == v) = false) ∧
      findRemove isFalse t v 1 false = (true, t)) ∨
    ∃ a x b, t = a ++ x :: b ∧ (∀ y ∈ a, isFalse y = false) ∧ isFalse x = false ∧
      (x == v) = true ∧ findRemove isFalse t v 1 false = (true, a ++ b) := by
  rw [findRemove]
  by_cases hexist : existCount t v 1 = true
  · have hex := existCount_one.mp hexist
    by_cases hfront : ∃ x ∈ front isFalse t, (x == v) = true
    · obtain ⟨a, x, b, rfl, ha, hx, hxv⟩ := exists_first hfront
      refine .inr (.inr ⟨a, x, b, rfl, fun y hy => (ha y hy).1, hx, hxv, ?_⟩)
      simp [hexist, removeFrom_append ha hx hxv]
    · have hnone : ∀ x ∈ front isFalse t, (x == v) = false := by simpa using hfront
      exact .inr (.inl ⟨hex, hnone, by simp [hexist, removeFrom_none hnone]⟩)
  · have hnone : ∀ x ∈ t, (x == v) = false := by simpa using mt existCount_one.mpr hexist
    exact .inl ⟨hnone, by simp [hexist]⟩

/-! ### All values -/

theorem removeEach_length (isFalse : α → Bool) (t vs : List α) :
    (removeEach isFalse t vs).2.length ≤ t.length ∧
      t.length ≤ (removeEach isFalse t vs).2.length + vs.length := by
  induction vs generalizing t with
  | nil => exact ⟨le_refl _, le_refl _⟩
  | cons v vs ih =>
    rw [removeEach]
    obtain ⟨-, hfind⟩ | ⟨-, -, hfind⟩ | ⟨a, x, b, rfl, -, -, -, hfind⟩ :=
      findRemove_cases isFalse t v
    · simp [hfind]
    · obtain ⟨hle, hge⟩ := ih t
      simp only [hfind, List.length_cons]
      omega
    · obtain ⟨hle, hge⟩ := ih (a ++ b)
      simp only [hfind, List.length_cons, List.length_append] at hle hge ⊢
      omega

omit [BEq α] in
theorem front_append {a b : List α} {x : α} (ha : ∀ y ∈ a, isFalse y = false)
    (hx : isFalse x = false) :
    front isFalse (a ++ x :: b) = a ++ x :: front isFalse b ∧
      front isFalse (a ++ b) = a ++ front isFalse b := by
  have hpos : ∀ y ∈ a, (!isFalse y) = true := fun y hy => by simp [ha y hy]
  constructor
  · rw [front, List.takeWhile_append_of_pos hpos, List.takeWhile_cons_of_pos (by simp [hx])]
    rfl
  · exact List.takeWhile_append_of_pos hpos

omit [BEq α] in
theorem countP_middle (p : α → Bool) (a b : List α) (x : α) :
    (a ++ x :: b).countP p = (a ++ b).countP p + if p x then 1 else 0 := by
  rw [List.countP_append, List.countP_cons, List.countP_append, Nat.add_assoc]

theorem removeEach_misses (hmiss : Misses isFalse t vs) : removeEach isFalse t vs = (false, t) := by
  obtain ⟨before, v, after, rfl, hv, hbefore⟩ := hmiss
  induction before with
  | nil =>
    have hnone : ¬ existCount t v 1 = true := by
      simpa [existCount_one] using hv
    simp [removeEach, findRemove, hnone]
  | cons w before ih =>
    rw [List.forall_mem_cons] at hbefore
    rw [List.cons_append, removeEach]
    obtain ⟨-, hfind⟩ | ⟨-, -, hfind⟩ | ⟨a, x, b, rfl, ha, hx, hxw, -⟩ :=
      findRemove_cases isFalse t w
    · rw [hfind]
    · rw [hfind]
      exact ih hbefore.2
    · have hmem : x ∈ front isFalse (a ++ x :: b) := by
        rw [(front_append ha hx).1]
        exact List.mem_append_right _ List.mem_cons_self
      rw [hbefore.1 x hmem] at hxw
      cases hxw

theorem misses_of_removeEach (hall : (removeEach isFalse t vs).2.length = t.length)
    (hfalse : (removeEach isFalse t vs).1 = false) : Misses isFalse t vs := by
  induction vs with
  | nil => cases hfalse
  | cons v vs ih =>
    rw [removeEach] at hall hfalse
    obtain ⟨hv, -⟩ | ⟨-, hfront, hfind⟩ | ⟨a, x, b, rfl, -, -, -, hfind⟩ :=
      findRemove_cases isFalse t v
    · exact ⟨[], v, vs, rfl, hv, by simp⟩
    · rw [hfind] at hall hfalse
      obtain ⟨before, w, after, rfl, hw, hbefore⟩ := ih hall hfalse
      exact ⟨v :: before, w, after, rfl, hw, List.forall_mem_cons.mpr ⟨hfront, hbefore⟩⟩
    · have hle := (removeEach_length isFalse (a ++ b) vs).1
      simp only [hfind, List.length_append, List.length_cons] at hall hle
      omega

theorem Removes.length_eq {out : List α} (h : Removes t vs out) :
    out.length + vs.length = t.length := by
  obtain ⟨-, removed, hperm, heach⟩ := h
  rw [← hperm.length_eq, List.length_append, heach.length_eq, Nat.add_comm]

theorem Submultiset.exists_eq (h : Submultiset vs t) (hv : v ∈ vs) : ∃ x ∈ t, (x == v) = true := by
  have hpos : 0 < vs.countP (· == v) := List.countP_pos_iff.mpr ⟨v, hv, h.self v hv⟩
  exact List.countP_pos_iff.mp (hpos.trans_le (h.le v))

theorem Submultiset.of_front (h : Submultiset vs (front isFalse t)) : Submultiset vs t :=
  ⟨h.self, fun v => (h.le v).trans (List.takeWhile_sublist _).countP_le⟩

theorem Misses.not_submultiset (hmiss : Misses isFalse t vs) : ¬ Submultiset vs t := by
  obtain ⟨before, v, after, rfl, hv, -⟩ := hmiss
  intro h
  obtain ⟨x, hx, hxv⟩ := h.exists_eq (List.mem_append_right before List.mem_cons_self)
  rw [hv x hx] at hxv
  cases hxv

section

variable [PartialEquivBEq α]

theorem beq_right {x y w : α} (h : (x == y) = true) : (x == w) = (y == w) := by
  cases hy : y == w with
  | true => exact PartialEquivBEq.trans h hy
  | false =>
    rw [Bool.eq_false_iff]
    intro hx
    rw [PartialEquivBEq.trans (PartialEquivBEq.symm h) hx] at hy
    cases hy

theorem beq_of_self (hv : (v == v) = false) (x : α) : (x == v) = false := by
  rw [Bool.eq_false_iff]
  intro hx
  rw [PartialEquivBEq.trans (PartialEquivBEq.symm hx) hx] at hv
  cases hv

theorem submultiset_cons {a b : List α} {x : α} (hx : (x == v) = true) :
    Submultiset (v :: vs) (a ++ x :: b) ↔ Submultiset vs (a ++ b) := by
  have hself : (v == v) = true := PartialEquivBEq.trans (PartialEquivBEq.symm hx) hx
  have hcount : ∀ w, (v :: vs).countP (· == w) ≤ (a ++ x :: b).countP (· == w) ↔
      vs.countP (· == w) ≤ (a ++ b).countP (· == w) := by
    intro w
    rw [List.countP_cons, countP_middle, beq_right hx]
    exact Nat.add_le_add_iff_right
  constructor
  · intro h
    exact ⟨(List.forall_mem_cons.mp h.self).2, fun w => (hcount w).mp (h.le w)⟩
  · intro h
    exact ⟨List.forall_mem_cons.mpr ⟨hself, h.self⟩, fun w => (hcount w).mpr (h.le w)⟩

theorem removes_of_front (h : Submultiset vs (front isFalse t)) :
    (removeEach isFalse t vs).1 = true ∧ Removes t vs (removeEach isFalse t vs).2 := by
  induction vs generalizing t with
  | nil => exact ⟨rfl, .refl t, [], .refl t, .nil⟩
  | cons v vs ih =>
    obtain ⟨y, hy, hyv⟩ := h.exists_eq List.mem_cons_self
    rw [removeEach]
    obtain ⟨hnone, -⟩ | ⟨-, hnone, -⟩ | ⟨a, x, b, rfl, ha, hx, hxv, hfind⟩ :=
      findRemove_cases isFalse t v
    · rw [hnone y ((List.takeWhile_sublist _).subset hy)] at hyv
      cases hyv
    · rw [hnone y hy] at hyv
      cases hyv
    · rw [(front_append ha hx).1, submultiset_cons hxv, ← (front_append ha hx).2] at h
      obtain ⟨htrue, hsub, removed, hperm, heach⟩ := ih h
      rw [hfind]
      refine ⟨htrue, hsub.trans ?_, x :: removed, ?_, .cons hxv heach⟩
      · exact (List.Sublist.refl a).append (List.sublist_cons_self x b)
      · exact (hperm.cons x).trans List.perm_middle.symm

theorem front_of_removeEach (hall : (removeEach isFalse t vs).2.length + vs.length = t.length)
    (htrue : (removeEach isFalse t vs).1 = true) : Submultiset vs (front isFalse t) := by
  induction vs generalizing t with
  | nil => exact ⟨by simp, by simp⟩
  | cons v vs ih =>
    rw [removeEach] at hall htrue
    obtain ⟨-, hfind⟩ | ⟨-, -, hfind⟩ | ⟨a, x, b, rfl, ha, hx, hxv, hfind⟩ :=
      findRemove_cases isFalse t v
    · rw [hfind] at htrue
      cases htrue
    · have hge := (removeEach_length isFalse t vs).2
      simp only [hfind, List.length_cons] at hall hge
      omega
    · rw [hfind] at hall htrue
      have hrest := ih (by simp only [List.length_append, List.length_cons] at hall ⊢; omega) htrue
      rwa [(front_append ha hx).1, submultiset_cons hxv, ← (front_append ha hx).2]

theorem removeEach_atomic_iff (isFalse : α → Bool) (t vs : List α) :
    Atomic t vs (removeEach isFalse t vs) ↔
      Submultiset vs (front isFalse t) ∨ Misses isFalse t vs := by
  constructor
  · intro h
    cases hret : (removeEach isFalse t vs).1 with
    | true => exact .inl (front_of_removeEach (h.removes hret).length_eq hret)
    | false => exact .inr (misses_of_removeEach (congrArg List.length (h.keeps hret)) hret)
  · rintro (hfront | hmiss)
    · obtain ⟨htrue, hremoves⟩ := removes_of_front hfront
      refine ⟨iff_of_true htrue hfront.of_front, fun _ => hremoves, fun hfalse => ?_⟩
      rw [htrue] at hfalse
      cases hfalse
    · rw [removeEach_misses hmiss]
      refine ⟨iff_of_false Bool.false_ne_true hmiss.not_submultiset, fun htrue => ?_, fun _ => rfl⟩
      cases htrue

/-! ### The array as its own list -/

omit [PartialEquivBEq α] in
theorem removeOwnFrom_length (isFalse : α → Bool) (t : List α) (i rounds : Nat) :
    (removeOwnFrom isFalse t i rounds).2.length ≤ t.length ∧
      (i ≤ t.length + 1 → t.length + i ≤ 2 * (removeOwnFrom isFalse t i rounds).2.length + 1) := by
  induction rounds generalizing t i with
  | zero => exact ⟨le_refl _, fun hi => by simp only [removeOwnFrom]; omega⟩
  | succ rounds ih =>
    rw [removeOwnFrom]
    cases hget : t[i]? with
    | none => exact ⟨le_refl _, fun hi => by simp only; omega⟩
    | some v =>
      obtain ⟨hi, -⟩ := List.getElem?_eq_some_iff.mp hget
      obtain ⟨-, hfind⟩ | ⟨-, -, hfind⟩ | ⟨a, x, b, rfl, -, -, -, hfind⟩ :=
        findRemove_cases isFalse t v
      · exact ⟨by simp [hfind], fun _ => by simp only [hfind]; omega⟩
      · obtain ⟨hle, hge⟩ := ih t (i + 1)
        simp only [hfind]
        exact ⟨hle, fun _ => by have := hge (by omega); omega⟩
      · obtain ⟨hle, hge⟩ := ih (a ++ b) (i + 1)
        simp only [hfind, List.length_append, List.length_cons] at hle hge hi ⊢
        exact ⟨by omega, fun _ => by have := hge (by omega); omega⟩

theorem removeOwnFrom_misses {after : List α} (before done : List α)
    (ht : t = done ++ (before ++ v :: after))
    (hv : (v == v) = false) (hbefore : ∀ w ∈ before, ∀ x ∈ front isFalse t, (x == w) = false)
    {rounds : Nat} (hrounds : before.length < rounds) :
    removeOwnFrom isFalse t done.length rounds = (false, t) := by
  induction before generalizing done rounds with
  | nil =>
    obtain ⟨rounds, rfl⟩ := Nat.exists_eq_add_one_of_ne_zero hrounds.ne'
    have hget : t[done.length]? = some v := by simp [ht]
    have hnone : ¬existCount t v 1 = true := by simp [existCount_one, beq_of_self hv]
    simp [removeOwnFrom, hget, findRemove, hnone]
  | cons w before ih =>
    obtain ⟨rounds, rfl⟩ := Nat.exists_eq_add_one_of_ne_zero (Nat.ne_zero_of_lt hrounds)
    have hget : t[done.length]? = some w := by simp [ht]
    rw [List.forall_mem_cons] at hbefore
    rw [removeOwnFrom, hget]
    obtain ⟨-, hfind⟩ | ⟨-, -, hfind⟩ | ⟨a, x, b, hab, ha, hx, hxw, -⟩ :=
      findRemove_cases isFalse t w
    · simp only [hfind]
    · simp only [hfind]
      have hrest := ih (done ++ [w]) (by simpa using ht) hbefore.2 (Nat.lt_of_succ_lt_succ hrounds)
      rwa [List.length_append] at hrest
    · have hmem : x ∈ front isFalse t := by
        rw [hab, (front_append ha hx).1]
        exact List.mem_append_right _ List.mem_cons_self
      rw [hbefore.1 x hmem] at hxw
      cases hxw

theorem Misses.own (hmiss : Misses isFalse t t) : removeOwn isFalse t = (false, t) := by
  obtain ⟨before, v, after, ht, hv, hbefore⟩ := hmiss
  have hmem : v ∈ t := ht ▸ List.mem_append_right _ List.mem_cons_self
  exact removeOwnFrom_misses before [] ht (hv v hmem) hbefore (by
    rw [congrArg List.length ht, List.length_append, List.length_cons]
    omega)

omit [PartialEquivBEq α] in
theorem removeOwnFrom_idle (hfront : front isFalse t = []) (i rounds : Nat) :
    (removeOwnFrom isFalse t i rounds).2 = t := by
  induction rounds generalizing i with
  | zero => rfl
  | succ rounds ih =>
    rw [removeOwnFrom]
    cases t[i]? with
    | none => rfl
    | some v =>
      obtain ⟨-, hfind⟩ | ⟨-, -, hfind⟩ | ⟨a, x, b, hab, ha, hx, -, -⟩ :=
        findRemove_cases isFalse t v
      · simp only [hfind]
      · simp only [hfind]
        exact ih (i + 1)
      · rw [hab, (front_append ha hx).1] at hfront
        simp at hfront

omit [PartialEquivBEq α] in
theorem Atomic.emptied {r : Bool × List α} (h : Atomic t t r) (htrue : r.1 = true) : r.2 = [] :=
  List.length_eq_zero_iff.mp (by have := (h.removes htrue).length_eq; omega)

theorem misses_of_idle (h : Atomic t t (removeOwn isFalse t)) (hne : t ≠ [])
    (hfront : front isFalse t = []) : Misses isFalse t t := by
  have hidle := removeOwnFrom_idle hfront 0 t.length
  have hnan : ∃ v ∈ t, (v == v) = false := by
    by_contra hall
    push Not at hall
    have hself : Submultiset t t := ⟨fun v hv => by simpa using hall v hv, fun _ => le_refl _⟩
    exact hne (hidle.symm.trans (h.emptied (h.accepts.mpr hself)))
  obtain ⟨v, hv, hnan⟩ := hnan
  obtain ⟨before, after, hsplit⟩ := List.append_of_mem hv
  exact ⟨before, v, after, hsplit, fun y _ => beq_of_self hnan y, by simp [hfront]⟩

omit [PartialEquivBEq α] in
theorem nil_of_removed {x : α} (h : Atomic (x :: t) (x :: t) (removeOwn isFalse (x :: t)))
    (hx : isFalse x = false) (hself : (x == x) = true) : t = [] := by
  -- the first round removes the first element
  have hround : removeOwn isFalse (x :: t) = removeOwnFrom isFalse t 1 t.length := by
    simp [removeOwn, removeOwnFrom, findRemove, existCount, removeFrom, hx, hself,
      removeFrom_zero]
  obtain ⟨hle, hge⟩ := removeOwnFrom_length isFalse t 1 t.length
  rw [← hround] at hle hge
  cases hret : (removeOwn isFalse (x :: t)).1 with
  | false =>
    rw [h.keeps hret, List.length_cons] at hle
    omega
  | true =>
    rw [h.emptied hret, List.length_nil] at hge
    have hlen := hge (by omega)
    exact List.length_eq_zero_iff.mp (by omega)

theorem removeOwn_atomic_iff (isFalse : α → Bool) (t : List α) :
    Atomic t t (removeOwn isFalse t) ↔
      (t.length ≤ 1 ∧ Submultiset t (front isFalse t)) ∨ Misses isFalse t t := by
  constructor
  · intro h
    cases t with
    | nil => exact .inl ⟨Nat.zero_le 1, by simp, by simp⟩
    | cons x t =>
      cases hx : isFalse x with
      | true => exact .inr (misses_of_idle h (List.cons_ne_nil x t) (by simp [front, hx]))
      | false =>
        cases hself : x == x with
        | false => exact .inr ⟨[], x, t, rfl, fun y _ => beq_of_self hself y, by simp⟩
        | true =>
          obtain rfl := nil_of_removed h hx hself
          refine .inl ⟨le_refl _, ?_⟩
          rw [front, List.takeWhile_cons_of_pos (by simp [hx])]
          exact ⟨by simp [hself], fun _ => le_refl _⟩
  · rintro (⟨hlen, hsub⟩ | hmiss)
    · rcases t with _ | ⟨x, _ | ⟨y, t⟩⟩
      · exact ⟨iff_of_true rfl hsub.of_front, fun _ => ⟨.refl _, [], .refl _, .nil⟩, nofun⟩
      · have hself := hsub.self x List.mem_cons_self
        have hx : isFalse x = false := by
          by_contra hx
          obtain ⟨y, hy, -⟩ := hsub.exists_eq List.mem_cons_self
          simp [front, Bool.eq_true_of_not_eq_false hx] at hy
        have hround : removeOwn isFalse [x] = (true, []) := by
          simp [removeOwn, removeOwnFrom, findRemove, existCount, removeFrom, hx, hself]
        rw [hround]
        exact ⟨iff_of_true rfl hsub.of_front,
          fun _ => ⟨List.nil_sublist _, [x], .refl _, .cons hself .nil⟩, nofun⟩
      · simp at hlen
    · rw [hmiss.own]
      exact ⟨iff_of_false Bool.false_ne_true hmiss.not_submultiset, nofun, fun _ => rfl⟩

/-- The values are removed one by one, and a `false` ends the search for one.  So the array is as
before or without all of them exactly if all are in front of the first `false`, or one is missing
and none before it is there in front; and an array that is its own list has at most one element
then, since it moves on while it is read. -/
theorem removals_atomic_iff (isFalse : α → Bool) (t vs : List α) :
    (Atomic t vs (removeList isFalse t vs) ↔
      Submultiset vs (front isFalse t) ∨ Misses isFalse t vs) ∧
    (Atomic t vs (removeArgs isFalse t vs) ↔
      Submultiset vs (front isFalse t) ∨ Misses isFalse t vs) ∧
    (Atomic t t (removeOwn isFalse t) ↔
      (t.length ≤ 1 ∧ Submultiset t (front isFalse t)) ∨ Misses isFalse t t) :=
  ⟨removeEach_atomic_iff isFalse t vs, removeEach_atomic_iff isFalse t vs,
    removeOwn_atomic_iff isFalse t⟩

end

theorem removals_atomic_iff_two : PartialEquivBEq Int ∧
    (Atomic [1, 2] [2] (removeList (fun _ : Int => false) [1, 2] [2]) ↔
      Submultiset [2] (front (fun _ : Int => false) [1, 2]) ∨
        Misses (fun _ : Int => false) [1, 2] [2]) :=
  ⟨inferInstance, (removals_atomic_iff (fun _ : Int => false) [1, 2] [2]).1⟩

/-- The first value was removed when the second one is found to be missing. -/
theorem half_removed : removeList (fun _ : Int => false) [1, 2] [1, 3] = (false, [2]) ∧
    ¬ Atomic [1, 2] [1, 3] (removeList (fun _ : Int => false) [1, 2] [1, 3]) := by
  refine ⟨rfl, fun h => ?_⟩
  have hkeeps := h.keeps rfl
  cases hkeeps

end Values

/-! ### Positions -/

/-- The numbers of `for i = a,b,-1`. -/
def downTo (a b : Int) : List Int := (List.range (a + 1 - b).toNat).map fun k : Nat => a - k

/-- A table by its slots from 1 on, with `none` for `nil`. -/
abbrev Slots (α : Type) := List (Option α)

/-- `#t`, the first border. -/
def border (t : Slots α) : Nat := (t.takeWhile Option.isSome).length

/-- `t[i]` -/
def slot (t : Slots α) (i : Int) : Option α := if 1 ≤ i then t[(i - 1).toNat]?.join else none

/-- `t[i] = v`, for one of the slots or for `nil`. -/
def assign (t : Slots α) (i : Int) (v : Option α) : Slots α :=
  if 1 ≤ i then t.set (i - 1).toNat v else t

/-- `table.insert(t,v)` -/
def insert (t : Slots α) (v : α) : Slots α :=
  if border t < t.length then t.set (border t) (some v) else t ++ [some v]

def removeChun (t : Slots α) (star close : Int) : Slots α :=
  let len : Int := border t
  let t := (upTo star close).foldl (fun t i => assign t i none) t
  let num := len - star + 1
  let t := (upTo 0 (num - 1)).foldl (fun t i => assign t (star + i) (slot t (star + i))) t
  (downTo len (len - num)).foldl (fun t i => assign t i none) t

def push (t : Slots α) (v : α) (maxlen : Option Int) : Slots α :=
  let len : Int := border t
  match maxlen with
  | some maxlen => insert (if len > maxlen then removeChun t 1 (maxlen - len) else t) v
  | none => insert t v

/-- The table has these values at the positions from 1 on, and nothing else. -/
def IsArray (t : Slots α) (xs : List α) : Prop := ∀ i : Nat, slot t (i + 1) = xs[i]?

/-- The calls of `push` with one `maxlen`, from an empty array on. -/
def pushes (maxlen : Nat) (vs : List α) : Slots α :=
  vs.foldl (fun t v => push t v (some (maxlen : Int))) []

def Newest (maxlen : Nat) (vs : List α) (t : Slots α) : Prop :=
  IsArray t (vs.drop (vs.length - (maxlen + 1)))

/-- How many values there are after `n` calls. -/
def kept (maxlen n : Nat) : Nat := if n = 0 then 0 else (n - 1) % (maxlen + 1) + 1

variable {t : Slots α} {xs ys vs : List α}

theorem mem_upTo {a b i : Int} : i ∈ upTo a b ↔ a ≤ i ∧ i ≤ b := by
  rw [upTo, List.mem_map]
  constructor
  · rintro ⟨k, hk, rfl⟩
    rw [List.mem_range] at hk
    omega
  · rintro ⟨hlow, hhigh⟩
    exact ⟨(i - a).toNat, List.mem_range.mpr (by omega), by omega⟩

theorem mem_downTo {a b i : Int} : i ∈ downTo a b ↔ b ≤ i ∧ i ≤ a := by
  rw [downTo, List.mem_map]
  constructor
  · rintro ⟨k, hk, rfl⟩
    rw [List.mem_range] at hk
    omega
  · rintro ⟨hlow, hhigh⟩
    exact ⟨(a - i).toNat, List.mem_range.mpr (by omega), by omega⟩

theorem slot_succ (t : Slots α) (i : Nat) : slot t (i + 1) = t[i]?.join := by
  rw [slot, if_pos (by omega), Int.add_sub_cancel, Int.toNat_natCast]

theorem slot_assign_none (t : Slots α) (i : Int) (j : Nat) :
    slot (assign t i none) (j + 1) = if (j : Int) + 1 = i then none else slot t (j + 1) := by
  rw [assign]
  by_cases hi : (j : Int) + 1 = i
  · subst hi
    rw [if_pos (by omega), if_pos rfl, slot_succ, Int.add_sub_cancel, Int.toNat_natCast,
      List.getElem?_set_self']
    cases t[j]? <;> rfl
  · rw [if_neg hi]
    split
    · rw [slot_succ, slot_succ, List.getElem?_set_ne (by omega)]
    · rfl

theorem slot_clear (is : List Int) (t : Slots α) (j : Nat) :
    slot (is.foldl (fun t i => assign t i none) t) (j + 1) =
      if (j : Int) + 1 ∈ is then none else slot t (j + 1) := by
  induction is generalizing t with
  | nil => simp
  | cons i is ih =>
    rw [List.foldl_cons, ih, slot_assign_none]
    by_cases hi : (j : Int) + 1 = i <;> simp [hi]

theorem assign_slot (t : Slots α) (i : Int) : assign t i (slot t i) = t := by
  rw [assign]
  split
  case isFalse => rfl
  case isTrue hi =>
    rw [slot, if_pos hi]
    obtain hlt | hge := Nat.lt_or_ge (i - 1).toNat t.length
    · rw [List.getElem?_eq_getElem hlt]
      exact List.set_getElem_self hlt
    · exact List.set_eq_of_length_le hge

theorem shift_same (star : Int) (is : List Int) (t : Slots α) :
    is.foldl (fun t i => assign t (star + i) (slot t (star + i))) t = t := by
  induction is with
  | nil => rfl
  | cons i is ih => rw [List.foldl_cons, assign_slot, ih]

theorem IsArray.unique (h : IsArray t xs) (h' : IsArray t ys) : xs = ys :=
  List.ext_getElem? fun i => (h i).symm.trans (h' i)

theorem isArray_map (xs : List α) (k : Nat) :
    IsArray (xs.map some ++ List.replicate k none) xs := by
  intro i
  rw [slot_succ]
  obtain hlt | hge := Nat.lt_or_ge i xs.length
  · rw [List.getElem?_append_left (by simpa using hlt), List.getElem?_map]
    cases xs[i]? <;> rfl
  · rw [List.getElem?_append_right (by simpa using hge), List.getElem?_replicate,
      List.getElem?_eq_none hge]
    split <;> rfl

theorem IsArray.exists_eq (h : IsArray t xs) :
    ∃ k, t = xs.map some ++ List.replicate k none := by
  induction xs generalizing t with
  | nil =>
    refine ⟨t.length, List.eq_replicate_iff.mpr ⟨rfl, fun v hv => ?_⟩⟩
    obtain ⟨i, hi⟩ := List.mem_iff_getElem?.mp hv
    have hnone := h i
    rw [slot_succ, hi] at hnone
    exact hnone
  | cons x xs ih =>
    cases t with
    | nil =>
      have hfirst := h 0
      cases hfirst
    | cons v t =>
      have hfirst : some v = some (some x) := by
        have hjoin := h 0
        rw [slot_succ] at hjoin
        exact congrArg some hjoin
      obtain rfl := Option.some.inj hfirst
      obtain ⟨k, rfl⟩ := ih (t := t) fun i => by
        have hnext := h (i + 1)
        rw [slot_succ] at hnext ⊢
        exact hnext
      exact ⟨k, rfl⟩

theorem IsArray.border_eq (h : IsArray t xs) : border t = xs.length := by
  obtain ⟨k, rfl⟩ := h.exists_eq
  have hsome : ∀ v ∈ xs.map some, v.isSome = true := by simp
  rw [border, List.takeWhile_append_of_pos hsome]
  cases k <;> simp

theorem IsArray.insert (h : IsArray t xs) (v : α) : IsArray (insert t v) (xs ++ [v]) := by
  have hborder := h.border_eq
  obtain ⟨k, rfl⟩ := h.exists_eq
  rw [Extend.insert, hborder]
  cases k with
  | zero =>
    have hsame := isArray_map (xs ++ [v]) 0
    simpa using hsame
  | succ k =>
    have hrest := isArray_map (xs ++ [v]) k
    rw [if_pos (by simp), List.set_append_right _ _ (by simp), List.replicate_succ]
    simpa using hrest

theorem IsArray.removeChun (h : IsArray t xs) {star : Int} (hstar : 1 ≤ star) (close : Int) :
    IsArray (removeChun t star close) (xs.take (star - 2).toNat) := by
  intro i
  rw [Extend.removeChun, h.border_eq, shift_same, slot_clear, slot_clear, h i, List.getElem?_take]
  simp only [mem_upTo, mem_downTo]
  obtain hlt | hge := Nat.lt_or_ge i xs.length
  · by_cases hbefore : (i : Int) + 1 < star - 1
    · rw [if_neg (by omega), if_neg (by omega), if_pos (by omega)]
    · rw [if_pos (by omega), if_neg (by omega)]
  · rw [List.getElem?_eq_none hge, ite_self, ite_self, ite_self]

/-- Beyond `maxlen` the whole array is removed, since the range ends before it starts. -/
theorem IsArray.push (h : IsArray t xs) (v : α) (maxlen : Nat) :
    IsArray (push t v (some (maxlen : Int))) ((if maxlen < xs.length then [] else xs) ++ [v]) := by
  rw [Extend.push, h.border_eq]
  by_cases hlen : maxlen < xs.length
  · have hempty := h.removeChun (le_refl 1) (maxlen - xs.length)
    rw [if_pos (by omega), if_pos hlen]
    exact hempty.insert v
  · rw [if_neg (by omega), if_neg hlen]
    exact h.insert v

/-! ### Calls of `push` -/

theorem kept_le (maxlen n : Nat) : kept maxlen n ≤ n := by
  rw [kept]
  split
  · exact Nat.zero_le _
  · have hmod := Nat.mod_le (n - 1) (maxlen + 1)
    omega

theorem kept_le_succ (maxlen n : Nat) : kept maxlen n ≤ maxlen + 1 := by
  rw [kept]
  split
  · exact Nat.zero_le _
  · exact Nat.mod_lt _ (Nat.succ_pos _)

theorem kept_succ (maxlen n : Nat) :
    kept maxlen (n + 1) = (if maxlen < kept maxlen n then 0 else kept maxlen n) + 1 := by
  rw [kept, kept, if_neg (Nat.succ_ne_zero n), Nat.add_sub_cancel]
  cases n with
  | zero => simp
  | succ n =>
    have hlt : n % (maxlen + 1) < maxlen + 1 := Nat.mod_lt n (Nat.succ_pos _)
    rw [if_neg (Nat.succ_ne_zero n), Nat.add_sub_cancel]
    by_cases hfull : n % (maxlen + 1) = maxlen
    · rw [if_pos (by omega), Nat.succ_mod_succ_eq_zero_iff.mpr hfull]
    · have hone : 1 % (maxlen + 1) = 1 := Nat.mod_eq_of_lt (by omega)
      rw [if_neg (by omega), Nat.add_mod_eq_ite, hone, if_neg (by omega)]

/-- The values since the array was emptied. -/
theorem pushes_array (maxlen : Nat) (vs : List α) :
    IsArray (pushes maxlen vs) (vs.drop (vs.length - kept maxlen vs.length)) := by
  induction vs using List.reverseRecOn with
  | nil => exact isArray_map [] 0
  | append_singleton vs v ih =>
    have hle := kept_le maxlen vs.length
    have hpush := ih.push v maxlen
    have hlength : (vs.drop (vs.length - kept maxlen vs.length)).length =
        kept maxlen vs.length := by
      rw [List.length_drop]
      omega
    rw [hlength] at hpush
    rw [pushes, List.foldl_concat, List.length_append, List.length_singleton, kept_succ,
      Nat.add_sub_add_right, List.drop_append_of_le_length (Nat.sub_le _ _)]
    split
    case isTrue hfull =>
      rw [if_pos hfull] at hpush
      rw [Nat.sub_zero, List.drop_length]
      exact hpush
    case isFalse hroom =>
      rw [if_neg hroom] at hpush
      exact hpush

theorem kept_eq_iff (maxlen n : Nat) :
    n - kept maxlen n = n - (maxlen + 1) ↔ n ≤ maxlen + 1 ∨ (maxlen + 1) ∣ n := by
  have hle := kept_le maxlen n
  have hle' := kept_le_succ maxlen n
  obtain hfew | hmore := Nat.lt_or_ge (maxlen + 1) n
  · have hkept : kept maxlen n = maxlen + 1 ↔ (maxlen + 1) ∣ n := by
      obtain ⟨n, rfl⟩ := Nat.exists_eq_succ_of_ne_zero (show n ≠ 0 by omega)
      rw [kept, if_neg (Nat.succ_ne_zero n), Nat.dvd_iff_mod_eq_zero, Nat.succ_eq_add_one,
        Nat.add_sub_cancel, Nat.succ_mod_succ_eq_zero_iff, Nat.add_left_inj]
    rw [← hkept]
    omega
  · refine iff_of_true ?_ (.inl hmore)
    rw [kept]
    split
    case isTrue hzero => omega
    case isFalse hpos =>
      rw [Nat.mod_eq_of_lt (by omega)]
      omega

/-- The range goes with all that is behind it and one position before it, so it is right only if it
is the whole array; and a full array is emptied.  After calls of `push` there are the values since
then, so the newest ones that there may be only for few values or a multiple of their number. -/
theorem bounded_push_iff :
    (∀ (t : Slots α) (xs : List α) (star close : Int), IsArray t xs → 1 ≤ star → star ≤ close →
      close ≤ xs.length →
      (IsArray (removeChun t star close) (xs.take (star - 1).toNat ++ xs.drop close.toNat) ↔
        star = 1 ∧ close = xs.length)) ∧
    ∀ maxlen : Nat, 1 ≤ maxlen → ∀ vs : List α,
      (Newest maxlen vs (pushes maxlen vs) ↔
        vs.length ≤ maxlen + 1 ∨ (maxlen + 1) ∣ vs.length) ∧
      ∃ k, k ≤ maxlen + 1 ∧ IsArray (pushes maxlen vs) (vs.drop (vs.length - k)) := by
  refine ⟨fun t xs star close h hstar hle hclose => ?_, fun maxlen _ vs => ⟨?_, ?_⟩⟩
  · have hresult := h.removeChun hstar close
    constructor
    · intro hright
      have hlength := congrArg List.length (hright.unique hresult)
      rw [List.length_append, List.length_take, List.length_take, List.length_drop] at hlength
      omega
    · rintro ⟨rfl, rfl⟩
      simpa using hresult
  · have harray := pushes_array maxlen vs
    rw [← kept_eq_iff]
    constructor
    · intro hnewest
      have hlength := congrArg List.length (hnewest.unique harray)
      have hle := kept_le maxlen vs.length
      rw [List.length_drop, List.length_drop] at hlength
      omega
    · intro heq
      rw [Newest, ← heq]
      exact harray
  · exact ⟨kept maxlen vs.length, kept_le_succ maxlen vs.length, pushes_array maxlen vs⟩

theorem isArray_some (xs : List α) : IsArray (xs.map some) xs := by
  simpa using isArray_map xs 0

theorem bounded_push_iff_two : IsArray [some 7, some 8] [7, 8] ∧
    (IsArray (removeChun [some 7, some 8] 1 2) ([7, 8].take 0 ++ [7, 8].drop 2) ↔
      (1 : Int) = 1 ∧ (2 : Int) = ([7, 8] : List Nat).length) ∧
    (Newest 1 [7, 8] (pushes 1 [7, 8]) ↔ [7, 8].length ≤ 2 ∨ 2 ∣ [7, 8].length) :=
  ⟨isArray_some [7, 8],
    bounded_push_iff.1 [some 7, some 8] [7, 8] 1 2 (isArray_some [7, 8]) (by decide) (by decide)
      (by decide),
    (bounded_push_iff.2 1 (by decide) [7, 8]).1⟩

/-- One of three values is to be removed, and all are gone; and the third of three calls finds two
values, one more than `maxlen`, and leaves its own only. -/
theorem pushed_away : removeChun [some 1, some 2, some 3] 1 1 = [none, none, none] ∧
    ¬ IsArray (removeChun [some 1, some 2, some 3] 1 1) [2, 3] ∧
    pushes 1 [1, 2, 3] = [some 3, none] ∧ ¬ Newest 1 [1, 2, 3] (pushes 1 [1, 2, 3]) := by
  refine ⟨by decide, fun h => ?_, by decide, fun h => ?_⟩
  · exact absurd (h 0) (by decide)
  · exact absurd (h 0) (by decide)

end XsServer.Extend
