import XsServer.Custom.Sort
import XsServer.Lib.Number

/-! `no_repetition_sub` of `random.lua`: numbers from the parts of an interval, shuffled. -/

namespace XsServer.Custom

open Lib Number

/-- `math.random(low,up)`, where `r` says which integer of the interval it is. -/
def random (low up : LuaNum) (r : Nat) : Except Stop Int :=
  match low.toInteger, up.toInteger with
  | some low, some up =>
    if low ≤ up ∧ (0 ≤ low ∨ up ≤ maxInteger + low) then .ok (low + r % (up - low + 1))
    else .error .error
  | _, _ => .error .error

/-- `list[i] = num`, for `i` up to the length plus one. -/
def putNum (list : List Int) (i : Nat) (num : Int) : List Int :=
  if i ≤ list.length then list.set (i - 1) num else list ++ [num]

/-- The variables of the loop: the list, `b_idx`, `e_idx` and `i_mod`. -/
structure SubState where
  list : List Int
  bIdx : LuaNum
  eIdx : LuaNum
  iMod : Int

/-- A turn of the loop, with `i_sub`. -/
def subTurn (iSub : LuaNum) (r : Nat → Nat) (s : SubState) (i : Nat) : Except Stop SubState := do
  let num ← random s.bIdx s.eIdx (r i)
  let list := putNum s.list i num
  let eIdx := s.eIdx.add iSub
  return if s.iMod > 0 then ⟨list, s.eIdx, eIdx.add (.int 1), s.iMod - 1⟩
    else ⟨list, s.eIdx, eIdx, s.iMod⟩

/-- `math.floor((max_num - min_num) / get_num)` -/
def subLength (minNum maxNum : Int) (getNum : Nat) : LuaNum :=
  .floor (double (double (wrap (maxNum - minNum)) / double getNum))

/-- With `r` for the draws of the loop, and `s` for those of the shuffle. -/
def noRepetitionSub (minNum maxNum : Int) (getNum : Nat) (list : List Int) (r s : Nat → Nat) :
    Except Stop (List Int) := do
  let iSub := subLength minNum maxNum getNum
  let iMod := wrap (maxNum - minNum) % getNum
  let st ← (List.range' 1 getNum).foldlM (subTurn iSub r)
    ⟨list, .int minNum, (LuaNum.int minNum).add iSub, iMod⟩
  let len := st.list.length
  sortShuffle (fun i => i + s i % (len - i + 1)) st.list

/-! ### What is to hold -/

/-- The arguments: integers of 64 bits, and no more numbers than the interval has. -/
structure Asked (minNum maxNum : Int) (getNum : Nat) : Prop where
  low : -2 ^ 63 ≤ minNum
  le : minNum ≤ maxNum
  high : maxNum ≤ maxInteger
  pos : 1 ≤ getNum
  few : getNum ≤ maxNum - minNum + 1
  small : getNum ≤ maxInteger

def Distinct (minNum maxNum : Int) (getNum : Nat) (list : List Int) (r s : Nat → Nat) : Prop :=
  ∃ out, noRepetitionSub minNum maxNum getNum list r s = .ok out ∧ out.length = getNum ∧
    (∀ num ∈ out, minNum ≤ num ∧ num ≤ maxNum) ∧ out.Nodup

/-- The length of a part: the remainder goes to the parts from the second on. -/
def width (sub mod : Int) (i : Nat) : Int := if 2 ≤ i ∧ (i : Int) ≤ mod + 1 then sub + 1 else sub

def offset (sub mod : Int) (r : Nat → Nat) (i : Nat) : Int := r i % (width sub mod i + 1)

def border (minNum sub mod : Int) (i : Nat) : Int :=
  minNum + i * sub + min ((i - 1 : Nat) : Int) mod

def drawn (minNum sub mod : Int) (r : Nat → Nat) (i : Nat) : Int :=
  border minNum sub mod (i - 1) + offset sub mod r i

/-- A draw at the end of its part and the next one at the start of its part. -/
def Meets (sub mod : Int) (r : Nat → Nat) (i : Nat) : Prop :=
  offset sub mod r i = width sub mod i ∧ offset sub mod r (i + 1) = 0

def floorQuotient (len : Int) (getNum : Nat) : Int := ⌊double (double len / double getNum)⌋

/-- The one part of a single number ends at an integer, and the draw is not beyond the interval. -/
def SpreadOne (minNum maxNum : Int) (r : Nat → Nat) : Prop :=
  ∃ e, ((LuaNum.int minNum).add (subLength minNum maxNum 1)).toInteger = some e ∧ minNum ≤ e ∧
    e ≤ maxInteger + minNum ∧ minNum + r 1 % (e - minNum + 1) ≤ maxNum

/-- The last part ends at an integer, its draw is not beyond the interval, and no two neighbours
meet. -/
def SpreadMore (minNum maxNum : Int) (getNum : Nat) (r : Nat → Nat) : Prop :=
  let sub := floorQuotient (maxNum - minNum) getNum
  let mod := (maxNum - minNum) % getNum
  border minNum sub mod getNum ≤ maxInteger ∧
    drawn minNum sub mod r getNum ≤ maxNum ∧
    ∀ i, 1 ≤ i → i < getNum → ¬ Meets sub mod r i

def Spread (minNum maxNum : Int) (getNum : Nat) (list : List Int) (r : Nat → Nat) : Prop :=
  list.length ≤ getNum ∧ maxNum - minNum ≤ maxInteger ∧
    if getNum = 1 then SpreadOne minNum maxNum r else SpreadMore minNum maxNum getNum r

section

variable {α : Type}

theorem exists_split {list : List α} {i : Nat} (hpos : 1 ≤ i) (hle : i ≤ list.length) :
    ∃ pre x rest, list = pre ++ x :: rest ∧ i = pre.length + 1 := by
  have hlt : i - 1 < list.length := by omega
  refine ⟨list.take (i - 1), list[i - 1], list.drop i, ?_, ?_⟩
  · have hdrop := List.drop_eq_getElem_cons hlt
    rw [Nat.sub_add_cancel hpos] at hdrop
    rw [← hdrop, List.take_append_drop]
  · rw [List.length_take]
    omega

theorem exchange_perm {list : List α} {i j : Nat} (hpos : 1 ≤ i) (hij : i ≤ j)
    (hle : j ≤ list.length) : ∃ out, exchange list i j = .ok out ∧ out.Perm list := by
  obtain ⟨pre, x, rest, rfl, hi⟩ := exists_split hpos (hij.trans hle)
  obtain rfl | hlt := Nat.eq_or_lt_of_le hij
  · refine ⟨pre ++ x :: rest, ?_, .refl _⟩
    rw [exchange, elem_append hi, ok_bind, ok_bind, set_append_self hi, set_append_self hi]
    rfl
  · rw [List.length_append, List.length_cons] at hle
    have hrest : j - i ≤ rest.length := by omega
    obtain ⟨mid, y, back, rfl, hj⟩ := exists_split (Nat.sub_pos_of_lt hlt) hrest
    refine ⟨pre ++ y :: (mid ++ x :: back), exchange_eq hi (by omega), ?_⟩
    refine List.Perm.append_left pre ((List.perm_middle.cons y).trans ?_)
    exact (List.Perm.swap x y _).trans (List.perm_middle.symm.cons x)

theorem sortShuffle_perm {list : List α} {draw : Nat → Nat}
    (hdraw : ∀ i, 1 ≤ i → i ≤ list.length → i ≤ draw i ∧ draw i ≤ list.length) :
    ∃ out, sortShuffle draw list = .ok out ∧ out.Perm list := by
  have hrun : ∀ k, k ≤ list.length → ∃ out, (List.range' 1 k).foldlM (shuffleTurn draw) list =
      .ok out ∧ out.Perm list := by
    intro k
    induction k with
    | zero => exact fun _ => ⟨list, rfl, .refl _⟩
    | succ k ih =>
      intro hk
      obtain ⟨out, hout, hperm⟩ := ih (by omega)
      obtain ⟨hlow, hhigh⟩ := hdraw (k + 1) (by omega) hk
      rw [← hperm.length_eq] at hhigh
      obtain ⟨out', hturn, hperm'⟩ := exchange_perm (by omega) hlow hhigh
      refine ⟨out', ?_, hperm'.trans hperm⟩
      rw [List.range'_1_concat, List.foldlM_append, hout, ok_bind, List.foldlM_cons,
        Nat.add_comm 1 k, shuffleTurn, hturn, ok_bind, List.foldlM_nil]
      rfl
  exact hrun list.length (Nat.le_refl _)

end

theorem distinct_iff {minNum maxNum : Int} {getNum : Nat} {list : List Int} {r s : Nat → Nat}
    {st : SubState}
    (hrun : (List.range' 1 getNum).foldlM (subTurn (subLength minNum maxNum getNum) r)
      ⟨list, .int minNum, (LuaNum.int minNum).add (subLength minNum maxNum getNum),
        wrap (maxNum - minNum) % getNum⟩ = .ok st) :
    Distinct minNum maxNum getNum list r s ↔ st.list.length = getNum ∧
      (∀ num ∈ st.list, minNum ≤ num ∧ num ≤ maxNum) ∧ st.list.Nodup := by
  have hdraw : ∀ i, 1 ≤ i → i ≤ st.list.length → i ≤ i + s i % (st.list.length - i + 1) ∧
      i + s i % (st.list.length - i + 1) ≤ st.list.length := by
    intro i _ hi
    have hlt : s i % (st.list.length - i + 1) < st.list.length - i + 1 :=
      Nat.mod_lt _ (Nat.succ_pos _)
    omega
  obtain ⟨out, hout, hperm⟩ := sortShuffle_perm hdraw
  have hcall : noRepetitionSub minNum maxNum getNum list r s = .ok out := by
    rw [noRepetitionSub]
    simp only [hrun, ok_bind, hout]
  rw [← hperm.length_eq, ← hperm.nodup_iff]
  constructor
  · rintro ⟨out', hout', hlen, hrange, hnodup⟩
    obtain rfl := Except.ok.inj (hcall.symm.trans hout')
    exact ⟨hlen, fun num hnum => hrange num (hperm.mem_iff.mpr hnum), hnodup⟩
  · rintro ⟨hlen, hrange, hnodup⟩
    exact ⟨out, hcall, hlen, fun num hnum => hrange num (hperm.mem_iff.mp hnum), hnodup⟩

theorem distinct_false {minNum maxNum : Int} {getNum : Nat} {list : List Int} {r s : Nat → Nat}
    {e : Stop}
    (hrun : (List.range' 1 getNum).foldlM (subTurn (subLength minNum maxNum getNum) r)
      ⟨list, .int minNum, (LuaNum.int minNum).add (subLength minNum maxNum getNum),
        wrap (maxNum - minNum) % getNum⟩ = .error e) :
    ¬ Distinct minNum maxNum getNum list r s := by
  rintro ⟨out, hout, -⟩
  rw [noRepetitionSub] at hout
  simp only [hrun] at hout
  cases hout

/-! ### The parts -/

section

variable {sub mod : Int} (hsub : 0 ≤ sub)

include hsub in
theorem width_nonneg (mod : Int) (i : Nat) : 0 ≤ width sub mod i := by
  rw [width]
  split <;> omega

include hsub in
theorem offset_bounds (mod : Int) (r : Nat → Nat) (i : Nat) :
    0 ≤ offset sub mod r i ∧ offset sub mod r i ≤ width sub mod i := by
  have hwidth := width_nonneg hsub mod i
  have hlt := Int.emod_lt_of_pos (r i) (Int.lt_add_one_iff.mpr hwidth)
  exact ⟨Int.emod_nonneg _ (by omega), Int.lt_add_one_iff.mp hlt⟩

section

variable (hmod : 0 ≤ mod)

include hmod

theorem border_zero (minNum : Int) : border minNum sub mod 0 = minNum := by
  simp [border, hmod]

theorem border_succ (minNum sub : Int) (i : Nat) :
    border minNum sub mod (i + 1) = border minNum sub mod i + width sub mod (i + 1) := by
  have hmul : ((i + 1 : Nat) : Int) * sub = i * sub + sub := by
    push_cast
    ring
  rw [border, border, width, hmul]
  split <;> omega

include hsub

theorem border_mono (minNum : Int) {i j : Nat} (hij : i ≤ j) :
    border minNum sub mod i ≤ border minNum sub mod j := by
  induction j, hij using Nat.le_induction with
  | base => exact Int.le_refl _
  | succ j _ ih =>
    have hwidth := width_nonneg hsub mod (j + 1)
    rw [border_succ hmod]
    omega

theorem drawn_le_border (minNum : Int) (r : Nat → Nat) {i : Nat} (hi : 1 ≤ i) :
    drawn minNum sub mod r i ≤ border minNum sub mod i := by
  obtain ⟨i, rfl⟩ := Nat.exists_eq_succ_of_ne_zero (Nat.pos_iff_ne_zero.mp hi)
  have hle := (offset_bounds hsub mod r (i + 1)).2
  rw [Nat.succ_eq_add_one, drawn, border_succ hmod, Nat.add_sub_cancel]
  omega

theorem border_le_drawn (minNum : Int) (r : Nat → Nat) {i j : Nat} (hij : i < j) :
    border minNum sub mod i ≤ drawn minNum sub mod r j := by
  have hle := border_mono hsub hmod minNum (Nat.le_sub_one_of_lt hij)
  have hoffset := (offset_bounds hsub mod r j).1
  rw [drawn]
  omega

theorem drawn_mono (minNum : Int) (r : Nat → Nat) {i j : Nat} (hi : 1 ≤ i) (hij : i ≤ j) :
    drawn minNum sub mod r i ≤ drawn minNum sub mod r j := by
  obtain rfl | hlt := Nat.eq_or_lt_of_le hij
  · exact Int.le_refl _
  · exact (drawn_le_border hsub hmod minNum r hi).trans (border_le_drawn hsub hmod minNum r hlt)

theorem drawn_eq_iff (minNum : Int) (r : Nat → Nat) {i : Nat} (hi : 1 ≤ i) :
    drawn minNum sub mod r i = drawn minNum sub mod r (i + 1) ↔ Meets sub mod r i := by
  obtain ⟨i, rfl⟩ := Nat.exists_eq_succ_of_ne_zero (Nat.pos_iff_ne_zero.mp hi)
  have hoffset := offset_bounds hsub mod r (i + 1)
  have hnext := offset_bounds hsub mod r (i + 1 + 1)
  rw [Nat.succ_eq_add_one, drawn, drawn, Nat.add_sub_cancel, Nat.add_sub_cancel,
    border_succ hmod minNum sub i, Meets]
  omega

theorem drawn_nodup_iff (minNum : Int) (r : Nat → Nat) (n : Nat) :
    ((List.range' 1 n).map (drawn minNum sub mod r)).Nodup ↔
    ∀ i, 1 ≤ i → i < n → ¬ Meets sub mod r i := by
  constructor
  · intro hnodup i hi hlt hmeets
    have heq := List.inj_on_of_nodup_map hnodup (List.mem_range'_1.mpr (by omega))
      (List.mem_range'_1.mpr (by omega)) ((drawn_eq_iff hsub hmod minNum r hi).mpr hmeets)
    omega
  · intro hmeets
    have hlt : ∀ i j, 1 ≤ i → i < j → j ≤ n →
        drawn minNum sub mod r i < drawn minNum sub mod r j := by
      intro i j hi hij hj
      have hle := drawn_mono hsub hmod minNum r hi (Nat.le_succ i)
      have hne : drawn minNum sub mod r i ≠ drawn minNum sub mod r (i + 1) :=
        fun heq => hmeets i hi (by omega) ((drawn_eq_iff hsub hmod minNum r hi).mp heq)
      have hrest := drawn_mono hsub hmod minNum r (Nat.le_add_left 1 i) hij
      exact lt_of_lt_of_le (lt_of_le_of_ne hle hne) hrest
    refine List.pairwise_map.mpr ((List.pairwise_lt_range').imp_of_mem ?_)
    intro i j hi hj hij
    rw [List.mem_range'_1] at hi hj
    exact (hlt i j hi.1 hij (by omega)).ne

end

end

theorem putNum_append (done list : List Int) {i : Nat} (hi : i = done.length + 1) (num : Int) :
    putNum (done ++ list.drop done.length) i num = (done ++ [num]) ++ list.drop i := by
  subst hi
  cases hdrop : list.drop done.length with
  | nil =>
    rw [List.append_nil, putNum, if_neg (by omega), ← List.drop_drop, hdrop, List.drop_nil,
      List.append_nil]
  | cons x rest =>
    have hle : done.length + 1 ≤ (done ++ x :: rest).length := by
      rw [List.length_append, List.length_cons]
      omega
    rw [putNum, if_pos hle, set_append_self rfl, ← List.drop_drop, hdrop, List.drop_one,
      List.tail_cons, List.append_assoc, List.singleton_append]

theorem subTurn_ok (iSub : LuaNum) (iMod : Int) (list : List Int) {bIdx eIdx : LuaNum} {num : Int}
    {r : Nat → Nat} {i : Nat} (hrandom : random bIdx eIdx (r i) = .ok num) :
    ∃ st, subTurn iSub r ⟨list, bIdx, eIdx, iMod⟩ i = .ok st ∧ st.list = putNum list i num := by
  rw [subTurn, hrandom, ok_bind]
  refine ⟨_, rfl, ?_⟩
  split <;> rfl

section

variable {minNum sub mod : Int} {r : Nat → Nat} (hlow : -2 ^ 63 ≤ minNum) (hsub : 0 ≤ sub)
  (hsmall : sub + 1 ≤ maxInteger) (hmod : 0 ≤ mod)

include hlow hsub hsmall hmod

theorem subTurn_eq (list : List Int) (i : Nat) (hend : border minNum sub mod (i + 1) ≤ maxInteger) :
    subTurn (.int sub) r ⟨list, .int (border minNum sub mod i),
        .int (wrap (border minNum sub mod (i + 1))), mod - min (i : Int) mod⟩ (i + 1) =
      .ok ⟨putNum list (i + 1) (drawn minNum sub mod r (i + 1)),
        .int (border minNum sub mod (i + 1)), .int (wrap (border minNum sub mod (i + 1 + 1))),
        mod - min ((i + 1 : Nat) : Int) mod⟩ := by
  have hstart := border_mono hsub hmod minNum (Nat.zero_le i)
  rw [border_zero hmod] at hstart
  have hnext := border_succ hmod minNum sub i
  have hafter := border_succ hmod minNum sub (i + 1)
  have hwidth := width_nonneg hsub mod (i + 1)
  have hbound : width sub mod (i + 1) ≤ sub + 1 := by
    rw [width]
    split <;> omega
  have hmaxInteger : maxInteger = 2 ^ 63 - 1 := rfl
  rw [wrap_eq (by omega) hend, subTurn, random]
  simp only [LuaNum.toInteger]
  have hspan : border minNum sub mod (i + 1) - border minNum sub mod i + 1 =
      width sub mod (i + 1) + 1 := by omega
  rw [if_pos ⟨by omega, .inr (by omega)⟩, ok_bind, hspan]
  have hdrawn : border minNum sub mod i + r (i + 1) % (width sub mod (i + 1) + 1) =
      drawn minNum sub mod r (i + 1) := rfl
  rw [hdrawn]
  simp only [LuaNum.add, wrap_wrap_add]
  rw [hafter, width]
  by_cases hleft : (i : Int) < mod
  · rw [if_pos (by omega), if_pos (by omega)]
    simp only [pure, Except.pure, Except.ok.injEq, SubState.mk.injEq, LuaNum.int.injEq, true_and]
    exact ⟨by rw [add_assoc], by omega⟩
  · rw [if_neg (by omega), if_neg (by omega)]
    simp only [pure, Except.pure, Except.ok.injEq, SubState.mk.injEq, true_and]
    omega

omit hlow hsub in
theorem subTurn_error (list : List Int) (i : Nat) (hstart : border minNum sub mod i ≤ maxInteger)
    (hend : maxInteger < border minNum sub mod (i + 1)) (left : Int) :
    subTurn (.int sub) r ⟨list, .int (border minNum sub mod i),
        .int (wrap (border minNum sub mod (i + 1))), left⟩ (i + 1) = .error .error := by
  have hnext := border_succ hmod minNum sub i
  have hbound : width sub mod (i + 1) ≤ sub + 1 := by
    rw [width]
    split <;> omega
  have hmaxInteger : maxInteger = 2 ^ 63 - 1 := rfl
  rw [wrap_high hend (by omega), subTurn, random]
  simp only [LuaNum.toInteger]
  rw [if_neg (by omega)]
  rfl

theorem subTurns_eq (list : List Int) (k : Nat) (hend : border minNum sub mod k ≤ maxInteger) :
    (List.range' 1 k).foldlM (subTurn (.int sub) r)
        ⟨list, .int minNum, (LuaNum.int minNum).add (.int sub), mod⟩ =
      .ok ⟨(List.range' 1 k).map (drawn minNum sub mod r) ++ list.drop k,
        .int (border minNum sub mod k), .int (wrap (border minNum sub mod (k + 1))),
        mod - min (k : Int) mod⟩ := by
  induction k with
  | zero =>
    have hfirst : border minNum sub mod 1 = minNum + sub := by
      rw [border_succ hmod, border_zero hmod]
      rfl
    have hzero : mod - min ((0 : Nat) : Int) mod = mod := by omega
    rw [border_zero hmod, hfirst, hzero]
    rfl
  | succ k ih =>
    have hle := border_mono hsub hmod minNum (Nat.le_succ k)
    have hdone : ((List.range' 1 k).map (drawn minNum sub mod r)).length = k := by
      rw [List.length_map, List.length_range']
    have hput := putNum_append ((List.range' 1 k).map (drawn minNum sub mod r)) list
      (i := k + 1) (by rw [hdone]) (drawn minNum sub mod r (k + 1))
    rw [hdone] at hput
    rw [List.range'_1_concat, List.foldlM_append, ih (hle.trans hend), ok_bind, List.foldlM_cons,
      Nat.add_comm 1 k, subTurn_eq hlow hsub hsmall hmod _ k hend, ok_bind, hput,
      List.map_append]
    rfl

theorem subTurns_error (list : List Int) (n : Nat) (hstart : minNum ≤ maxInteger)
    (hend : maxInteger < border minNum sub mod n) :
    (List.range' 1 n).foldlM (subTurn (.int sub) r)
      ⟨list, .int minNum, (LuaNum.int minNum).add (.int sub), mod⟩ = .error .error := by
  induction n with
  | zero =>
    rw [border_zero hmod] at hend
    omega
  | succ n ih =>
    rw [List.range'_1_concat, List.foldlM_append]
    obtain hle | hlt := le_or_gt (border minNum sub mod n) maxInteger
    · rw [subTurns_eq hlow hsub hsmall hmod list n hle, ok_bind, List.foldlM_cons, Nat.add_comm 1 n,
        subTurn_error hsmall hmod _ n hle hend]
      rfl
    · rw [ih hlt]
      rfl

end

/-! ### The calls -/

theorem kept_iff {done list : List Int} {n : Nat} {minNum maxNum : Int} (hdone : done.length = n) :
    ((done ++ list.drop n).length = n ∧
        (∀ num ∈ done ++ list.drop n, minNum ≤ num ∧ num ≤ maxNum) ∧
        (done ++ list.drop n).Nodup) ↔
      list.length ≤ n ∧ (∀ num ∈ done, minNum ≤ num ∧ num ≤ maxNum) ∧ done.Nodup := by
  rw [List.length_append, hdone, List.length_drop]
  by_cases hlen : list.length ≤ n
  · rw [List.drop_eq_nil_of_le hlen, List.append_nil]
    exact and_congr_left fun _ => by omega
  · constructor <;> rintro ⟨hlen', -⟩ <;> omega

section

variable {minNum maxNum : Int} {getNum : Nat} (h : Asked minNum maxNum getNum)

include h

theorem subLength_wide (hwide : maxInteger < maxNum - minNum) :
    ∃ sub, subLength minNum maxNum getNum = .int sub ∧ -2 ^ 63 ≤ sub ∧ sub < 0 := by
  have hlow := h.low
  have hhigh := h.high
  have hmaxInteger : maxInteger = 2 ^ 63 - 1 := rfl
  have hwrap : wrap (maxNum - minNum) = maxNum - minNum - 2 ^ 64 := wrap_high hwide (by omega)
  generalize hlen : maxNum - minNum - 2 ^ 64 = len at hwrap
  have hneg : double (double len / double getNum) < 0 := by
    have hlen' : (len : ℚ) < 0 := by exact_mod_cast (by omega : len < 0)
    have hden : ((1 : ℕ) : ℚ) ≤ double getNum := le_double (by norm_num) h.pos
    refine double_neg (div_neg_of_neg_of_pos (double_neg hlen') ?_)
    push_cast at hden
    linarith
  have habs : |double (double len / double getNum)| ≤ 2 ^ 63 :=
    abs_quotient_le (i := 0) (abs_le.mpr ⟨by omega, by omega⟩) (by norm_num) h.pos
  have hfloor : -2 ^ 63 ≤ ⌊double (double len / double getNum)⌋ := by
    rw [Int.le_floor]
    push_cast
    linarith [(abs_le.mp habs).1]
  have hfloor' : ⌊double (double len / double getNum)⌋ < 0 := by
    rw [Int.floor_lt]
    exact_mod_cast hneg
  exact ⟨_, by rw [subLength, hwrap, LuaNum.floor, if_pos ⟨hfloor, by omega⟩], hfloor, hfloor'⟩

theorem not_distinct_wide (hwide : maxInteger < maxNum - minNum) (list : List Int)
    (r s : Nat → Nat) : ¬ Distinct minNum maxNum getNum list r s := by
  obtain ⟨sub, hsub, hlow, hneg⟩ := subLength_wide h hwide
  obtain ⟨n, rfl⟩ := Nat.exists_eq_succ_of_ne_zero (Nat.pos_iff_ne_zero.mp h.pos)
  have hmin := h.low
  have hmax := h.high
  have hmaxInteger : maxInteger = 2 ^ 63 - 1 := rfl
  refine distinct_false (e := .error) ?_
  have hturn : random (.int minNum) ((LuaNum.int minNum).add (.int sub)) (r 1) = .error .error := by
    rw [random]
    simp only [LuaNum.add, LuaNum.toInteger]
    obtain hlt | hge := lt_or_ge (minNum + sub) (-2 ^ 63)
    · rw [wrap_low (by omega) hlt, if_neg (by omega)]
    · rw [wrap_eq hge (by omega), if_neg (by omega)]
  rw [Nat.succ_eq_add_one, List.range'_succ, List.foldlM_cons, subTurn, ← Nat.succ_eq_add_one, hsub,
    hturn]
  rfl

theorem floorQuotient_nonneg : 0 ≤ floorQuotient (maxNum - minNum) getNum := by
  have hle := h.le
  have hlen : (0 : ℚ) ≤ ((maxNum - minNum : Int) : ℚ) := by exact_mod_cast Int.sub_nonneg.mpr hle
  rw [floorQuotient, Int.floor_nonneg]
  exact double_nonneg (div_nonneg (double_nonneg hlen) (double_nonneg getNum.cast_nonneg))

section

variable (hnarrow : maxNum - minNum ≤ maxInteger)

include hnarrow

theorem wrap_narrow : wrap (maxNum - minNum) = maxNum - minNum := by
  have hle := h.le
  exact wrap_eq (by omega) hnarrow

theorem subLength_narrow (hmore : getNum ≠ 1) :
    floorQuotient (maxNum - minNum) getNum + 1 ≤ maxInteger ∧
      subLength minNum maxNum getNum = .int (floorQuotient (maxNum - minNum) getNum) := by
  have hle := h.le
  have hpos := h.pos
  have hmaxInteger : maxInteger = 2 ^ 63 - 1 := rfl
  have hnonneg := floorQuotient_nonneg h
  have habs : |double (double ((maxNum - minNum : Int) : ℚ) / double getNum)| ≤ 2 ^ 62 :=
    abs_quotient_le (i := 1) (abs_le.mpr ⟨by omega, by omega⟩) (by norm_num) (by omega)
  have hfloor : floorQuotient (maxNum - minNum) getNum ≤ 2 ^ 62 := by
    have hcast := (Int.floor_le _).trans (abs_le.mp habs).2
    exact_mod_cast hcast
  refine ⟨by omega, ?_⟩
  rw [subLength, wrap_narrow h hnarrow, LuaNum.floor]
  rw [floorQuotient] at hnonneg hfloor
  rw [if_pos ⟨by omega, by omega⟩]
  rfl

omit hnarrow h in
theorem distinct_one_ok {list : List Int} {r : Nat → Nat} {num : Int}
    (hdraw : random (.int minNum) ((LuaNum.int minNum).add (subLength minNum maxNum 1)) (r 1) =
      .ok num) (s : Nat → Nat) :
    Distinct minNum maxNum 1 list r s ↔ list.length ≤ 1 ∧ minNum ≤ num ∧ num ≤ maxNum := by
  obtain ⟨st, hturn, hlist⟩ := subTurn_ok (subLength minNum maxNum 1)
    (wrap (maxNum - minNum) % (1 : Nat)) list hdraw
  have hrun : (List.range' 1 1).foldlM (subTurn (subLength minNum maxNum 1) r)
      ⟨list, .int minNum, (LuaNum.int minNum).add (subLength minNum maxNum 1),
        wrap (maxNum - minNum) % (1 : Nat)⟩ = .ok st := by
    rw [List.range'_one, List.foldlM_cons, hturn]
    rfl
  have hput : putNum list 1 num = [num] ++ list.drop 1 := putNum_append [] list rfl _
  have hlen : [num].length = 1 := rfl
  rw [distinct_iff hrun, hlist, hput, kept_iff hlen, and_iff_left (List.nodup_singleton _),
    List.forall_mem_singleton]

omit hnarrow h in
theorem distinct_one_error {list : List Int} {r : Nat → Nat}
    (hdraw : random (.int minNum) ((LuaNum.int minNum).add (subLength minNum maxNum 1)) (r 1) =
      .error .error) (s : Nat → Nat) :
    ¬ Distinct minNum maxNum 1 list r s := by
  refine distinct_false (e := .error) ?_
  rw [List.range'_one, List.foldlM_cons, subTurn, hdraw]
  rfl

omit hnarrow in
theorem distinct_one_iff (hone : getNum = 1) (list : List Int) (r s : Nat → Nat) :
    Distinct minNum maxNum getNum list r s ↔ list.length ≤ getNum ∧ SpreadOne minNum maxNum r := by
  subst hone
  rw [SpreadOne]
  cases he : ((LuaNum.int minNum).add (subLength minNum maxNum 1)).toInteger with
  | none =>
    refine iff_of_false (distinct_one_error (by rw [random, he]; rfl) s) ?_
    rintro ⟨-, e, hsome, -⟩
    cases hsome
  | some e =>
    have hint := LuaNum.toInteger_add_le he
    by_cases hin : minNum ≤ e ∧ e ≤ maxInteger + minNum
    · have hdraw : random (.int minNum) ((LuaNum.int minNum).add (subLength minNum maxNum 1))
          (r 1) = .ok (minNum + r 1 % (e - minNum + 1)) := by
        rw [random, he]
        exact if_pos (by omega)
      have hnonneg := Int.emod_nonneg (r 1) (show e - minNum + 1 ≠ 0 by omega)
      rw [distinct_one_ok hdraw]
      refine and_congr_right fun _ => ⟨fun hrange => ⟨e, rfl, hin.1, hin.2, hrange.2⟩, ?_⟩
      rintro ⟨e', he', -, -, hle⟩
      obtain rfl := Option.some.inj he'
      exact ⟨by omega, hle⟩
    · have hdraw : random (.int minNum) ((LuaNum.int minNum).add (subLength minNum maxNum 1))
          (r 1) = .error .error := by
        rw [random, he]
        exact if_neg (by omega)
      refine iff_of_false (distinct_one_error hdraw s) ?_
      rintro ⟨-, e', he', hlow, hhigh, -⟩
      obtain rfl := Option.some.inj he'
      exact hin ⟨hlow, hhigh⟩

theorem distinct_more_iff (hmore : getNum ≠ 1) (list : List Int) (r s : Nat → Nat) :
    Distinct minNum maxNum getNum list r s ↔
      list.length ≤ getNum ∧ SpreadMore minNum maxNum getNum r := by
  obtain ⟨hsmall, hlength⟩ := subLength_narrow h hnarrow hmore
  have hnonneg := floorQuotient_nonneg h
  have hpos := h.pos
  have hmod : 0 ≤ (maxNum - minNum) % getNum := Int.emod_nonneg _ (by omega)
  rw [SpreadMore]
  generalize floorQuotient (maxNum - minNum) getNum = sub at *
  generalize hrest : (maxNum - minNum) % getNum = mod at *
  obtain hend | hend := le_or_gt (border minNum sub mod getNum) maxInteger
  · have hrun := subTurns_eq (r := r) h.low hnonneg hsmall hmod list getNum hend
    rw [← hlength, ← hrest, ← wrap_narrow h hnarrow] at hrun
    rw [distinct_iff hrun, wrap_narrow h hnarrow, hrest,
      kept_iff (by rw [List.length_map, List.length_range']), drawn_nodup_iff hnonneg hmod]
    refine and_congr_right fun _ => ⟨?_, ?_⟩
    · rintro ⟨hrange, hmeets⟩
      have hlast := hrange _ (List.mem_map_of_mem (List.mem_range'_1.mpr ⟨hpos, by omega⟩))
      exact ⟨hend, hlast.2, hmeets⟩
    · rintro ⟨-, hlast, hmeets⟩
      refine ⟨fun num hnum => ?_, hmeets⟩
      obtain ⟨i, hi, rfl⟩ := List.mem_map.mp hnum
      rw [List.mem_range'_1] at hi
      have hlow := border_le_drawn hnonneg hmod minNum r hi.1
      rw [border_zero hmod] at hlow
      exact ⟨hlow, (drawn_mono hnonneg hmod minNum r hi.1 (by omega)).trans hlast⟩
  · have hrun := subTurns_error (r := r) h.low hnonneg hsmall hmod list getNum (h.le.trans h.high)
      hend
    rw [← hlength, ← hrest, ← wrap_narrow h hnarrow] at hrun
    refine ⟨fun hdistinct => absurd hdistinct (distinct_false hrun), ?_⟩
    rintro ⟨-, hle, -⟩
    omega

end

theorem distinct_spread_iff (list : List Int) (r s : Nat → Nat) :
    Distinct minNum maxNum getNum list r s ↔ Spread minNum maxNum getNum list r := by
  rw [Spread]
  by_cases hnarrow : maxNum - minNum ≤ maxInteger
  · by_cases hone : getNum = 1
    · rw [distinct_one_iff h hone, if_pos hone, and_iff_right hnarrow]
    · rw [distinct_more_iff h hnarrow hone, if_neg hone, and_iff_right hnarrow]
  · refine iff_of_false (not_distinct_wide h (by omega) list r s) ?_
    rintro ⟨-, hle, -⟩
    exact hnarrow hle

section

variable (hexact : maxNum - minNum < 2 ^ 53)

include hexact

theorem floorQuotient_eq :
    floorQuotient (maxNum - minNum) getNum = (maxNum - minNum) / getNum := by
  have hle := h.le
  have hfew := h.few
  obtain ⟨len, hlen⟩ := Int.eq_ofNat_of_zero_le (Int.sub_nonneg.mpr hle)
  have hnum : double ((maxNum - minNum : Int) : ℚ) = (len : ℚ) := by
    rw [double_intCast (abs_le.mpr ⟨by omega, by omega⟩), hlen, Int.cast_natCast]
  have hden : double (getNum : ℚ) = getNum := by
    have hint : double ((getNum : Int) : ℚ) = (getNum : Int) :=
      double_intCast (abs_le.mpr ⟨by omega, by omega⟩)
    rwa [Int.cast_natCast] at hint
  rw [floorQuotient, hnum, hden, floor_double_div (by omega) h.pos, hlen]
  rfl

theorem spreadOne_exact (hone : getNum = 1) (r : Nat → Nat) : SpreadOne minNum maxNum r := by
  subst hone
  have hle := h.le
  have hlow := h.low
  have hmaxInteger : maxInteger = 2 ^ 63 - 1 := rfl
  have hfloor := floorQuotient_eq h hexact
  rw [floorQuotient, Nat.cast_one, Nat.cast_one, Int.ediv_one] at hfloor
  have hlength : subLength minNum maxNum 1 = .int (maxNum - minNum) := by
    rw [subLength, wrap_narrow h (by omega), LuaNum.floor, Nat.cast_one, hfloor,
      if_pos ⟨by omega, by omega⟩]
  have hsum : wrap (minNum + (maxNum - minNum)) = maxNum := by
    rw [add_sub_cancel, wrap_eq (by omega) h.high]
  have hlt := Int.emod_lt_of_pos (r 1) (show 0 < maxNum - minNum + 1 by omega)
  refine ⟨maxNum, ?_, hle, by omega, by omega⟩
  rw [hlength, LuaNum.add, hsum]
  rfl

theorem spreadMore_exact (r : Nat → Nat) : SpreadMore minNum maxNum getNum r ↔
    ∀ i, 1 ≤ i → i < getNum →
      ¬ Meets ((maxNum - minNum) / getNum) ((maxNum - minNum) % getNum) r i := by
  have hle := h.le
  have hpos := h.pos
  have hsub : 0 ≤ (maxNum - minNum) / getNum := Int.ediv_nonneg (by omega) (by omega)
  have hmod : 0 ≤ (maxNum - minNum) % getNum := Int.emod_nonneg _ (by omega)
  have hlt : (maxNum - minNum) % getNum < getNum := Int.emod_lt_of_pos _ (by omega)
  have hsplit := Int.mul_ediv_add_emod (maxNum - minNum) getNum
  have hend : border minNum ((maxNum - minNum) / getNum) ((maxNum - minNum) % getNum) getNum =
      maxNum := by
    rw [border]
    omega
  have hlast := drawn_le_border hsub hmod minNum r hpos
  rw [hend] at hlast
  rw [SpreadMore, floorQuotient_eq h hexact, hend, and_iff_right h.high, and_iff_right hlast]

theorem spread_exact (list : List Int) (r : Nat → Nat) :
    Spread minNum maxNum getNum list r ↔ list.length ≤ getNum ∧
      ∀ i, 1 ≤ i → i < getNum →
        ¬ Meets ((maxNum - minNum) / getNum) ((maxNum - minNum) % getNum) r i := by
  have hmaxInteger : maxInteger = 2 ^ 63 - 1 := rfl
  rw [Spread, and_iff_right (show maxNum - minNum ≤ maxInteger by omega)]
  by_cases hone : getNum = 1
  · rw [if_pos hone, and_iff_left (spreadOne_exact h hexact hone r), iff_self_and]
    intro _ i hi hlt
    omega
  · rw [if_neg hone, spreadMore_exact h hexact]

end

/-- The parts of the interval have their borders in common, and what is behind the numbers in the
list stays there.  So the numbers are distinct and right when the list is no longer, and no draw at
the end of its part is followed by one at the start; for 2^53 numbers or more the quotient is
rounded, and the last part has to end in the interval, too. -/
theorem noRepetitionSub_iff (list : List Int) (r s : Nat → Nat) :
    (Distinct minNum maxNum getNum list r s ↔ Spread minNum maxNum getNum list r) ∧
    (maxNum - minNum < 2 ^ 53 →
      (Distinct minNum maxNum getNum list r s ↔ list.length ≤ getNum ∧
        ∀ i, 1 ≤ i → i < getNum →
          ¬ Meets ((maxNum - minNum) / getNum) ((maxNum - minNum) % getNum) r i)) := by
  have hiff := distinct_spread_iff h list r s
  exact ⟨hiff, fun hexact => hiff.trans (spread_exact h hexact list r)⟩

end

theorem asked_two : Asked 1 2 2 :=
  ⟨by decide, by decide, by decide, by decide, by decide, by decide⟩

theorem noRepetitionSub_iff_two : Asked 1 2 2 ∧
    (Distinct 1 2 2 [] (fun _ => 0) (fun _ => 0) ↔ Spread 1 2 2 [] fun _ => 0) :=
  ⟨asked_two, (noRepetitionSub_iff asked_two [] (fun _ => 0) fun _ => 0).1⟩

/-- Two numbers from 1 and 2 are drawn from 1 to 1 and from 1 to 2. -/
theorem drawn_twice : ¬ Distinct 1 2 2 [] (fun _ => 0) fun _ => 0 := by
  rw [distinct_spread_iff asked_two, spread_exact asked_two (by decide)]
  rintro ⟨-, hmeets⟩
  exact hmeets 1 (by decide) (by decide) ⟨by decide, by decide⟩

end XsServer.Custom
