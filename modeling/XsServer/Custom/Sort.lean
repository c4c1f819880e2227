import XsServer.Lib.Results
import Mathlib.Data.List.Nodup
import Mathlib.Data.List.Perm.Basic

/-! The sorts of `sort.lua`.  An array is a list whose positions count from 1. -/

namespace XsServer.Custom

open Lib

variable {α β : Type}

inductive Stop
  /-- A comparison with `nil`, an element that the array does not have. -/
  | absent
  /-- An element of a number, or another error of a comparison -/
  | error
  /-- It is still running. -/
  | running
  deriving DecidableEq

/-- `arr[i]` -/
def elem (arr : List α) : Nat → Except Stop α
  | 0 => .error .absent
  | i + 1 =>
    match arr[i]? with
    | some a => .ok a
    | none => .error .absent

/-- `table.exchange` -/
def exchange (arr : List α) (a b : Nat) : Except Stop (List α) := do
  let x ← elem arr a
  let y ← elem arr b
  return (arr.set (a - 1) y).set (b - 1) x

/-- `table.exchange` of two positions that differ -/
def exchangeNe (arr : List α) (a b : Nat) : Except Stop (List α) :=
  if a ≠ b then exchange arr a b else .ok arr

def sortEnd (len : Nat) : Option Nat → Nat
  | none => len - 1
  | some num => if len < num then len - 1 else num

section

variable (comp : α → α → Bool)

/-! ### `bubble`, `select` and `insert` -/

def bubbleTurn (i : Nat) (arr : List α) (j : Nat) : Except Stop (List α) := do
  let aj ← elem arr j
  let ai ← elem arr i
  if comp aj ai then exchange arr i j else return arr

def bubbleRow (len : Nat) (arr : List α) (i : Nat) : Except Stop (List α) :=
  (List.range' (i + 1) (len - i)).foldlM (bubbleTurn comp i) arr

def sortBubble (arr : List α) (num : Option Nat) : Except Stop (List α) :=
  (List.range' 1 (sortEnd arr.length num)).foldlM (bubbleRow comp arr.length) arr

def selectTurn (arr : List α) (sk j : Nat) : Except Stop Nat := do
  let aj ← elem arr j
  let ask ← elem arr sk
  return if comp aj ask then j else sk

def selectRow (len : Nat) (arr : List α) (i : Nat) : Except Stop (List α) := do
  let sk ← (List.range' (i + 1) (len - i)).foldlM (selectTurn comp arr) i
  exchangeNe arr i sk

def sortSelect (arr : List α) (num : Option Nat) : Except Stop (List α) :=
  (List.range' 1 (sortEnd arr.length num)).foldlM (selectRow comp arr.length) arr

/-- `sort.insert`: before the first element that the new one goes before. -/
def sortInsert {κ : Type*} (comp : κ → κ → Bool) (new : κ) : List κ → List κ
  | [] => [new]
  | val :: arr => if comp new val then new :: val :: arr else val :: sortInsert comp new arr

def insertAll (arr : List α) : List α := arr.foldl (fun out new => sortInsert comp new out) []

end

section

variable (comp : α → α → List β → Except Stop Bool)

/-- A turn of the loop of `quick`, with `help`. -/
def quickTurn (args : List β) (left : Nat) (s : List α × Nat) (i : Nat) :
    Except Stop (List α × Nat) := do
  let (arr, help) := s
  let pivot ← elem arr left
  let ai ← elem arr i
  if ← comp pivot ai args then
    let arr ← exchangeNe arr (help + 1) i
    return (arr, help + 1)
  else return (arr, help)

/-- The arguments after `right` go to the comparisons of the first call only. -/
def sortQuick : Nat → List α → Nat → Nat → List β → Except Stop (List α)
  | 0, _, _, _, _ => .error .running
  | fuel + 1, arr, left, right, args =>
    if left < right then do
      let (arr, help) ← (List.range' (left + 1) (right - left)).foldlM
        (quickTurn comp args left) (arr, left)
      let arr ← exchangeNe arr help left
      let arr ← sortQuick fuel arr left (help - 1) []
      sortQuick fuel arr (help + 1) right []
    else return arr

end

/-- The `help` of `merge`: a table, or a position. -/
inductive Help (α : Type)
  | table (t : Nat → Option α)
  | index (half : Nat)

/-- `help[i] = a` -/
def Help.put : Help α → Nat → α → Except Stop (Help α)
  | .table t, i, a => .ok (.table fun k => if k = i then some a else t k)
  | .index _, _, _ => .error .error

/-- `help[i]` -/
def Help.get : Help α → Nat → Except Stop α
  | .table t, i =>
    match t i with
    | some a => .ok a
    | none => .error .absent
  | .index _, _ => .error .error

section

variable (comp : α → α → Bool)

/-- The loop over both halves: the elements are taken from them to `help`. -/
def mergeBoth (arr : List α) (half right : Nat) (help : Help α) (i1 i2 i3 : Nat) :
    Except Stop (Help α × Nat × Nat × Nat) :=
  if i1 ≤ half ∧ i2 ≤ right then do
    let a2 ← elem arr i2
    let a1 ← elem arr i1
    if comp a2 a1 then
      let help ← help.put i3 a1
      mergeBoth arr half right help (i1 + 1) i2 (i3 + 1)
    else
      let help ← help.put i3 a2
      mergeBoth arr half right help i1 (i2 + 1) (i3 + 1)
  else return (help, i1, i2, i3)
termination_by (half + 1 - i1) + (right + 1 - i2)

/-- The loop over what is left of one half, with the next position of `help`. -/
def mergeRest (arr : List α) (help : Help α) (i stop i3 : Nat) : Except Stop (Help α × Nat) :=
  (List.range' i (stop + 1 - i)).foldlM
    (fun s i => do
      let a ← elem arr i
      let help ← s.1.put s.2 a
      return (help, s.2 + 1)) (help, i3)

/-- The first of the two calls has the positions of the call itself, and `half` for `help`. -/
def sortMerge : Nat → List α → Nat → Nat → Help α → Except Stop (List α × Help α)
  | 0, _, _, _, _ => .error .running
  | fuel + 1, arr, left, right, help =>
    if left < right then do
      let half := (left + right) / 2
      let (arr, _) ← sortMerge fuel arr left right (.index half)
      let (arr, help) ← sortMerge fuel arr (half + 1) right help
      let (help, i1, i2, i3) ← mergeBoth comp arr half right help left (half + 1) left
      let (help, i3) ← mergeRest arr help i1 half i3
      let (help, _) ← mergeRest arr help i2 right i3
      let arr ← (List.range' left (right + 1 - left)).foldlM
        (fun arr i => do
          let a ← help.get i
          return arr.set (i - 1) a) arr
      return (arr, help)
    else return (arr, help)

end

/-- A turn of `shuffle`, with what `math.random` gives for the position. -/
def shuffleTurn (draw : Nat → Nat) (list : List α) (i : Nat) : Except Stop (List α) :=
  exchange list i (draw i)

def sortShuffle (draw : Nat → Nat) (list : List α) : Except Stop (List α) :=
  (List.range' 1 list.length).foldlM (shuffleTurn draw) list

def sortReverse (list : List α) : Except Stop (List α) :=
  (List.range' 1 (list.length / 2)).foldlM
    (fun l i => exchange l i (list.length - i + 1)) list

section

variable {pre mid rest back : List α} {x y : α} {i j : Nat}

theorem elem_append (hi : i = pre.length + 1) : elem (pre ++ x :: rest) i = .ok x := by
  subst hi
  simp [elem]

theorem elem_append_mid (hj : j = pre.length + mid.length + 2) :
    elem (pre ++ x :: (mid ++ y :: back)) j = .ok y := by
  rw [← List.cons_append, ← List.append_assoc]
  refine elem_append ?_
  rw [List.length_append, List.length_cons]
  omega

theorem set_append_mid (hj : j = pre.length + mid.length + 2) (z : α) :
    (pre ++ x :: (mid ++ y :: back)).set (j - 1) z = pre ++ x :: (mid ++ z :: back) := by
  subst hj
  rw [List.set_append_right _ _ (by omega)]
  have hpos : pre.length + mid.length + 2 - 1 - pre.length = mid.length + 1 := by omega
  rw [hpos, List.set_cons_succ, List.set_append_right _ _ (Nat.le_refl _), Nat.sub_self,
    List.set_cons_zero]

theorem set_append_self (hi : i = pre.length + 1) (z : α) :
    (pre ++ x :: rest).set (i - 1) z = pre ++ z :: rest := by
  subst hi
  rw [Nat.add_sub_cancel, List.set_append_right _ _ (Nat.le_refl _), Nat.sub_self,
    List.set_cons_zero]

theorem exchange_eq (hi : i = pre.length + 1) (hj : j = pre.length + mid.length + 2) :
    exchange (pre ++ x :: (mid ++ y :: back)) i j = .ok (pre ++ y :: (mid ++ x :: back)) := by
  rw [exchange, elem_append hi, ok_bind, elem_append_mid hj, ok_bind, set_append_self hi,
    set_append_mid hj]
  rfl

theorem exchange_eq' (hi : i = pre.length + mid.length + 2) (hj : j = pre.length + 1) :
    exchange (pre ++ x :: (mid ++ y :: back)) i j = .ok (pre ++ y :: (mid ++ x :: back)) := by
  rw [exchange, elem_append_mid hi, ok_bind, elem_append hj, ok_bind, set_append_mid hi,
    set_append_self hj]
  rfl

end

section

variable {κ : Type*} {comp : κ → κ → Bool} (h : IsStrictOrder κ fun a b => comp a b = true)

include h

theorem not_precedes {x y z : κ} (hyx : comp y x = true) (hzx : comp z x = false) :
    comp z y = false := by
  by_contra hzy
  rw [Bool.not_eq_false] at hzy
  have hz : comp z x = true := h.trans z y x hzy hyx
  rw [hzx] at hz
  cases hz

theorem not_precedes_back {x y : κ} (hyx : comp y x = true) : comp x y = false := by
  by_contra hxy
  rw [Bool.not_eq_false] at hxy
  exact h.irrefl x (h.trans x y x hxy hyx)

end

section

variable {κ : Type*}

theorem sortInsert_perm (comp : κ → κ → Bool) (new : κ) (arr : List κ) :
    (sortInsert comp new arr).Perm (new :: arr) := by
  induction arr with
  | nil => exact .refl _
  | cons val arr ih =>
    rw [sortInsert]
    split
    · exact .refl _
    · exact (ih.cons val).trans (.swap new val arr)

/-- No element precedes one before it. -/
def Ordered (comp : κ → κ → Bool) (out : List κ) : Prop := out.Pairwise fun a b => comp b a = false

theorem sortInsert_ordered {comp : κ → κ → Bool} (h : IsStrictOrder κ fun a b => comp a b = true)
    (new : κ) {arr : List κ} (harr : Ordered comp arr) :
    Ordered comp (sortInsert comp new arr) := by
  induction arr with
  | nil => exact List.pairwise_singleton _ _
  | cons val arr ih =>
    obtain ⟨hval, hrest⟩ := List.pairwise_cons.mp harr
    rw [sortInsert]
    by_cases hnew : comp new val = true
    · rw [if_pos hnew]
      refine List.pairwise_cons.mpr ⟨fun b hb => ?_, harr⟩
      obtain rfl | hb := List.mem_cons.mp hb
      · exact not_precedes_back h hnew
      · exact not_precedes h hnew (hval b hb)
    · rw [if_neg hnew]
      refine List.pairwise_cons.mpr ⟨fun b hb => ?_, ih hrest⟩
      obtain rfl | hb := List.mem_cons.mp ((sortInsert_perm comp new arr).mem_iff.mp hb)
      · exact Bool.not_eq_true _ ▸ hnew
      · exact hval b hb

end

section

variable {comp : α → α → Bool}

/-- A row at a position brings an element there that none behind precedes. -/
def Row (comp : α → α → Bool) (len : Nat) (row : List α → Nat → Except Stop (List α)) : Prop :=
  ∀ pre x rest, pre.length + rest.length + 1 = len →
    ∃ least rest', row (pre ++ x :: rest) (pre.length + 1) = .ok (pre ++ least :: rest') ∧
      (least :: rest').Perm (x :: rest) ∧ ∀ z ∈ rest', comp z least = false

/-- The first elements are in order, and none behind them precedes one of them. -/
structure Front (comp : α → α → Bool) (front back : List α) : Prop where
  order : front.Pairwise fun a b => comp b a = false
  ahead : ∀ a ∈ front, ∀ b ∈ back, comp b a = false

theorem Row.run {row : List α → Nat → Except Stop (List α)} {arr : List α}
    (hrow : Row comp arr.length row) {n : Nat} (hn : n ≤ arr.length) :
    ∃ front back, (List.range' 1 n).foldlM row arr = .ok (front ++ back) ∧ front.length = n ∧
      (front ++ back).Perm arr ∧ Front comp front back := by
  induction n with
  | zero => exact ⟨[], arr, rfl, rfl, .refl _, .nil, by simp⟩
  | succ n ih =>
    obtain ⟨front, back, hrun, hlen, hperm, hfront⟩ := ih (by omega)
    have hlength := hperm.length_eq
    rw [List.length_append] at hlength
    cases back with
    | nil =>
      rw [List.length_nil] at hlength
      omega
    | cons x rest =>
      rw [List.length_cons] at hlength
      obtain ⟨least, rest', hnext, hperm', hleast⟩ := hrow front x rest (by omega)
      refine ⟨front ++ [least], rest', ?_, by rw [List.length_append, hlen]; rfl, ?_, ?_, ?_⟩
      · rw [List.range'_1_concat, List.foldlM_append, hrun, ok_bind, List.foldlM_cons,
          Nat.add_comm 1 n, ← hlen, hnext, ok_bind, List.foldlM_nil, List.append_assoc]
        rfl
      · rw [List.append_assoc]
        exact (hperm'.append_left front).trans hperm
      · refine List.pairwise_append.mpr ⟨hfront.order, List.pairwise_singleton _ _, ?_⟩
        intro a ha b hb
        rw [List.mem_singleton.mp hb]
        exact hfront.ahead a ha least (hperm'.mem_iff.mp List.mem_cons_self)
      · intro a ha b hb
        obtain ha | ha := List.mem_append.mp ha
        · exact hfront.ahead a ha b (hperm'.mem_iff.mp (List.mem_cons_of_mem _ hb))
        · rw [List.mem_singleton.mp ha]
          exact hleast b hb

variable (h : IsStrictOrder α fun a b => comp a b = true)

include h

theorem bubble_turns (pre todo : List α) (x : α) (done : List α)
    (hdone : ∀ z ∈ done, comp z x = false) :
    ∃ least rest, (List.range' (pre.length + done.length + 2) todo.length).foldlM
        (bubbleTurn comp (pre.length + 1)) (pre ++ x :: (done ++ todo)) =
          .ok (pre ++ least :: rest) ∧
      (least :: rest).Perm (x :: (done ++ todo)) ∧ ∀ z ∈ rest, comp z least = false := by
  induction todo generalizing x done with
  | nil => exact ⟨x, done, by simp [pure, Except.pure], by simp, hdone⟩
  | cons y todo ih =>
    have hturn : bubbleTurn comp (pre.length + 1) (pre ++ x :: (done ++ y :: todo))
        (pre.length + done.length + 2) = if comp y x then .ok (pre ++ y :: (done ++ x :: todo))
          else .ok (pre ++ x :: (done ++ y :: todo)) := by
      rw [bubbleTurn, elem_append_mid rfl, ok_bind, elem_append rfl, ok_bind, exchange_eq rfl rfl]
      rfl
    rw [List.length_cons, List.range'_succ, List.foldlM_cons, hturn]
    by_cases hyx : comp y x = true
    · have hdone' : ∀ z ∈ done ++ [x], comp z y = false :=
        List.forall_mem_append.mpr ⟨fun z hz => not_precedes h hyx (hdone z hz),
          List.forall_mem_singleton.mpr (not_precedes_back h hyx)⟩
      obtain ⟨least, rest, hrun, hperm, hleast⟩ := ih y (done ++ [x]) hdone'
      rw [List.length_append, List.length_singleton] at hrun
      refine ⟨least, rest, ?_, hperm.trans ?_, hleast⟩
      · rw [if_pos hyx, ok_bind, List.append_cons done x todo]
        exact hrun
      · rw [← List.append_cons]
        exact (List.perm_middle.cons y).trans ((List.Perm.swap x y _).trans
          (List.perm_middle.symm.cons x))
    · rw [Bool.not_eq_true] at hyx
      have hdone' : ∀ z ∈ done ++ [y], comp z x = false :=
        List.forall_mem_append.mpr ⟨hdone, List.forall_mem_singleton.mpr hyx⟩
      obtain ⟨least, rest, hrun, hperm, hleast⟩ := ih x (done ++ [y]) hdone'
      rw [List.length_append, List.length_singleton] at hrun
      refine ⟨least, rest, ?_, ?_, hleast⟩
      · rw [if_neg (by simp [hyx]), ok_bind, List.append_cons done y todo]
        exact hrun
      · rw [List.append_cons done y todo]
        exact hperm

theorem bubbleRow_row (len : Nat) : Row comp len (bubbleRow comp len) := by
  intro pre x rest hlen
  have hcount : len - (pre.length + 1) = rest.length := by omega
  rw [bubbleRow, hcount]
  exact bubble_turns h pre rest x [] (by simp)

theorem select_turns (pre todo seen : List α) (sk : Nat) (least : α) (before after : List α)
    (hseen : seen = before ++ least :: after) (hsk : sk = pre.length + before.length + 1)
    (hleast : ∀ z ∈ seen, comp z least = false) :
    ∃ sk' least' before' after', (List.range' (pre.length + seen.length + 1) todo.length).foldlM
        (selectTurn comp (pre ++ (seen ++ todo))) sk = .ok sk' ∧
      seen ++ todo = before' ++ least' :: after' ∧ sk' = pre.length + before'.length + 1 ∧
      ∀ z ∈ seen ++ todo, comp z least' = false := by
  induction todo generalizing seen sk least before after with
  | nil =>
    refine ⟨sk, least, before, after, rfl, by rw [List.append_nil, hseen], hsk, ?_⟩
    rwa [List.append_nil]
  | cons y todo ih =>
    have hj : elem (pre ++ (seen ++ y :: todo)) (pre.length + seen.length + 1) = .ok y := by
      rw [← List.append_assoc]
      exact elem_append (by rw [List.length_append])
    have hk : elem (pre ++ (seen ++ y :: todo)) sk = .ok least := by
      rw [hseen, List.append_assoc, List.cons_append, ← List.append_assoc]
      exact elem_append (by rw [List.length_append, hsk])
    have hturn : selectTurn comp (pre ++ (seen ++ y :: todo)) sk (pre.length + seen.length + 1) =
        .ok (if comp y least then pre.length + seen.length + 1 else sk) := by
      rw [selectTurn, hj, ok_bind, hk, ok_bind]
      rfl
    rw [List.length_cons, List.range'_succ, List.foldlM_cons, hturn, ok_bind,
      List.append_cons seen y todo]
    have hlen : pre.length + seen.length + 1 + 1 = pre.length + (seen ++ [y]).length + 1 := by
      rw [List.length_append, List.length_singleton]
      omega
    rw [hlen]
    by_cases hy : comp y least = true
    · have hleast' : ∀ z ∈ seen ++ [y], comp z y = false :=
        List.forall_mem_append.mpr ⟨fun z hz => not_precedes h hy (hleast z hz),
          List.forall_mem_singleton.mpr (Bool.eq_false_iff.mpr (h.irrefl y))⟩
      rw [if_pos hy]
      exact ih (seen ++ [y]) _ y seen [] rfl rfl hleast'
    · have hleast' : ∀ z ∈ seen ++ [y], comp z least = false :=
        List.forall_mem_append.mpr
          ⟨hleast, List.forall_mem_singleton.mpr (Bool.eq_false_iff.mpr hy)⟩
      rw [if_neg hy]
      exact ih (seen ++ [y]) sk least before (after ++ [y]) (by simp [hseen]) hsk hleast'

theorem selectRow_row (len : Nat) : Row comp len (selectRow comp len) := by
  intro pre x rest hlen
  have hcount : len - (pre.length + 1) = rest.length := by omega
  have hirrefl : ∀ z ∈ [x], comp z x = false := by
    intro z hz
    rw [List.mem_singleton.mp hz]
    exact Bool.eq_false_iff.mpr (h.irrefl x)
  obtain ⟨sk, least, before, after, hrun, hsplit, hsk, hleast⟩ :=
    select_turns h pre rest [x] (pre.length + 1) x [] [] rfl rfl hirrefl
  rw [List.singleton_append] at hrun hsplit hleast
  rw [List.length_singleton] at hrun
  rw [selectRow, hcount, hrun, ok_bind]
  cases before with
  | nil =>
    obtain ⟨rfl, rfl⟩ := List.cons.inj hsplit
    rw [exchangeNe, if_neg (by simpa using hsk.symm)]
    exact ⟨x, rest, rfl, .refl _, fun z hz => hleast z (List.mem_cons_of_mem _ hz)⟩
  | cons x' before =>
    obtain ⟨rfl, rfl⟩ := List.cons.inj hsplit
    have hne : pre.length + 1 ≠ sk := by
      rw [hsk, List.length_cons]
      omega
    rw [exchangeNe, if_pos hne]
    refine ⟨least, before ++ x :: after, ?_, ?_, ?_⟩
    · refine exchange_eq rfl ?_
      rw [hsk, List.length_cons]
      omega
    · exact (List.perm_middle.cons least).trans ((List.Perm.swap x least _).trans
        (List.perm_middle.symm.cons x))
    · intro z hz
      refine hleast z (List.mem_cons.mpr ?_)
      obtain hz | hz := List.mem_append.mp hz
      · exact .inr (List.mem_append_left _ hz)
      · obtain rfl | hz := List.mem_cons.mp hz
        · exact .inl rfl
        · exact .inr (List.mem_append_right before (List.mem_cons_of_mem _ hz))

/-- What `bubble` and `select` leave when they stop after `num` positions. -/
def Leads (comp : α → α → Bool) (arr : List α) (num : Nat) (out : List α) : Prop :=
  out.Perm arr ∧ Front comp (out.take num) (out.drop num)

omit h in
theorem Row.leads {row : List α → Nat → Except Stop (List α)} {arr : List α}
    (hrow : Row comp arr.length row) {n : Nat} (hn : n ≤ arr.length) :
    ∃ out, (List.range' 1 n).foldlM row arr = .ok out ∧ Leads comp arr n out := by
  obtain ⟨front, back, hrun, hlen, hperm, hfront⟩ := hrow.run hn
  refine ⟨front ++ back, hrun, hperm, ?_⟩
  rwa [List.take_left' hlen, List.drop_left' hlen]

theorem sortBubble_leads {arr : List α} {num : Nat} (hnum : num ≤ arr.length) :
    ∃ out, sortBubble comp arr (some num) = .ok out ∧ Leads comp arr num out := by
  rw [sortBubble, sortEnd, if_neg (by omega)]
  exact (bubbleRow_row h arr.length).leads hnum

theorem sortSelect_leads {arr : List α} {num : Nat} (hnum : num ≤ arr.length) :
    ∃ out, sortSelect comp arr (some num) = .ok out ∧ Leads comp arr num out := by
  rw [sortSelect, sortEnd, if_neg (by omega)]
  exact (selectRow_row h arr.length).leads hnum

end

/-- After `select` and after `bubble` with a number of positions, the first elements are in order
and none behind them precedes one of them, whatever ties there are. -/
theorem partial_sorts {comp : α → α → Bool} (h : IsStrictWeakOrder α fun a b => comp a b = true)
    {arr : List α} {num : Nat} (hnum : num ≤ arr.length) :
    (∃ out, sortSelect comp arr (some num) = .ok out ∧ Leads comp arr num out) ∧
      ∃ out, sortBubble comp arr (some num) = .ok out ∧ Leads comp arr num out :=
  ⟨sortSelect_leads h.toIsStrictOrder hnum, sortBubble_leads h.toIsStrictOrder hnum⟩

/-- The two least of four numbers, of which only the tens count. -/
theorem partial_sorts_two :
    (∃ out, sortSelect (fun a b : Nat => decide (a / 10 < b / 10)) [35, 12, 31, 17] (some 2) =
        .ok out ∧ Leads (fun a b => decide (a / 10 < b / 10)) [35, 12, 31, 17] 2 out) ∧
      ∃ out, sortBubble (fun a b : Nat => decide (a / 10 < b / 10)) [35, 12, 31, 17] (some 2) =
        .ok out ∧ Leads (fun a b => decide (a / 10 < b / 10)) [35, 12, 31, 17] 2 out := by
  refine partial_sorts
    { irrefl := fun a => ?_, trans := fun a b c => ?_, incomp_trans := fun a b c => ?_ }
    (by decide)
  · simp
  · simp only [decide_eq_true_eq]
    omega
  · simp only [decide_eq_true_eq]
    omega

end XsServer.Custom
