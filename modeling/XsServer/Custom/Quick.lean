import XsServer.Custom.Sort

/-! Whole sorts.  `bubble`, `select` and `insert` put an element before those that it precedes,
`quick` behind them, and `merge` calls itself for ever. -/

namespace XsServer.Custom

open Lib

variable {α β : Type} {comp : α → α → Bool}

theorem length_le_one {l : List α} (hle : l.length ≤ 1) : l = [] ∨ ∃ a, l = [a] := by
  obtain hzero | hone := Nat.le_one_iff_eq_zero_or_eq_one.mp hle
  · exact .inl (List.length_eq_zero_iff.mp hzero)
  · exact .inr (List.length_eq_one_iff.mp hone)

theorem pairwise_short {l : List α} {r : α → α → Prop} (hle : l.length ≤ 1) : l.Pairwise r := by
  obtain rfl | ⟨a, rfl⟩ := length_le_one hle
  · exact .nil
  · exact List.pairwise_singleton _ _

theorem Row.sorts {row : List α → Nat → Except Stop (List α)} {arr : List α}
    (hrow : Row comp arr.length row) :
    ∃ out, (List.range' 1 (sortEnd arr.length none)).foldlM row arr = .ok out ∧ out.Perm arr ∧
      Ordered comp out := by
  obtain ⟨front, back, hrun, hlen, hperm, hfront⟩ := hrow.run (Nat.sub_le arr.length 1)
  have hback : back.length ≤ 1 := by
    have hlength := hperm.length_eq
    rw [List.length_append, hlen] at hlength
    omega
  exact ⟨front ++ back, hrun, hperm,
    List.pairwise_append.mpr ⟨hfront.order, pairwise_short hback, hfront.ahead⟩⟩

section

variable (h : IsStrictOrder α fun a b => comp a b = true)

include h

theorem insertAll_ordered (arr : List α) :
    (insertAll comp arr).Perm arr ∧ Ordered comp (insertAll comp arr) := by
  have hfold : ∀ (arr out : List α), Ordered comp out →
      (arr.foldl (fun out new => sortInsert comp new out) out).Perm (arr ++ out) ∧
        Ordered comp (arr.foldl (fun out new => sortInsert comp new out) out) := by
    intro arr
    induction arr with
    | nil => exact fun out hout => ⟨.refl _, hout⟩
    | cons new arr ih =>
      intro out hout
      obtain ⟨hall, hend⟩ := ih _ (sortInsert_ordered h new hout)
      have hperm := (sortInsert_perm comp new out).append_left arr
      exact ⟨hall.trans (hperm.trans List.perm_middle), hend⟩
  obtain ⟨hperm, hordered⟩ := hfold arr [] .nil
  rw [List.append_nil] at hperm
  exact ⟨hperm, hordered⟩

end

section

variable {compE : α → α → List β → Except Stop Bool}

section

variable {args : List β} {x : α} (hcomp : ∀ e, compE x e args = .ok (comp x e))

include hcomp

theorem quickTurn_stay (pre lo hi rest : List α) {y : α} (hxy : comp x y = false) :
    quickTurn compE args (pre.length + 1)
      (pre ++ x :: (lo ++ (hi ++ y :: rest)), pre.length + 1 + lo.length)
      (pre.length + 1 + lo.length + hi.length + 1) =
      .ok (pre ++ x :: (lo ++ ((hi ++ [y]) ++ rest)), pre.length + 1 + lo.length) := by
  have hy : elem (pre ++ x :: (lo ++ (hi ++ y :: rest)))
      (pre.length + 1 + lo.length + hi.length + 1) = .ok y := by
    rw [← List.append_assoc lo]
    refine elem_append_mid ?_
    rw [List.length_append]
    omega
  rw [quickTurn]
  simp only [hy, elem_append rfl, ok_bind, hcomp, hxy]
  simp [pure, Except.pure]

theorem quickTurn_front (pre lo hi rest : List α) {y : α} (hxy : comp x y = true) :
    ∃ hi', hi'.Perm hi ∧ quickTurn compE args (pre.length + 1)
      (pre ++ x :: (lo ++ (hi ++ y :: rest)), pre.length + 1 + lo.length)
      (pre.length + 1 + lo.length + hi.length + 1) =
      .ok (pre ++ x :: ((lo ++ [y]) ++ (hi' ++ rest)), pre.length + 1 + (lo ++ [y]).length) := by
  have hy : elem (pre ++ x :: (lo ++ (hi ++ y :: rest)))
      (pre.length + 1 + lo.length + hi.length + 1) = .ok y := by
    rw [← List.append_assoc lo]
    refine elem_append_mid ?_
    rw [List.length_append]
    omega
  cases hi with
  | nil =>
    refine ⟨[], .refl _, ?_⟩
    rw [quickTurn]
    simp only [hy, elem_append rfl, ok_bind, hcomp, hxy]
    simp [exchangeNe, ok_bind, pure, Except.pure, Nat.add_assoc]
  | cons e hi =>
    refine ⟨hi ++ [e], List.perm_append_singleton e hi, ?_⟩
    have hne : pre.length + 1 + lo.length + 1 ≠
        pre.length + 1 + lo.length + (e :: hi).length + 1 := by
      rw [List.length_cons]
      omega
    have hswap := @exchange_eq α (pre ++ x :: lo) hi rest e y
      (pre.length + 1 + lo.length + 1) (pre.length + 1 + lo.length + (e :: hi).length + 1)
      (by simp only [List.length_append, List.length_cons]; omega)
      (by simp only [List.length_append, List.length_cons]; omega)
    have hexchange : exchange (pre ++ x :: (lo ++ (e :: hi ++ y :: rest)))
        (pre.length + 1 + lo.length + 1) (pre.length + 1 + lo.length + (e :: hi).length + 1) =
        .ok (pre ++ x :: ((lo ++ [y]) ++ ((hi ++ [e]) ++ rest))) := by
      simpa using hswap
    rw [quickTurn]
    simp only [hy, elem_append rfl, ok_bind, hcomp, hxy, if_true, exchangeNe, if_pos hne,
      hexchange]
    simp [pure, Except.pure, Nat.add_assoc]

theorem quick_turns (pre post todo lo hi : List α) (hlo : ∀ e ∈ lo, comp x e = true)
    (hhi : ∀ e ∈ hi, comp x e = false) :
    ∃ lo' hi', (List.range' (pre.length + 1 + lo.length + hi.length + 1) todo.length).foldlM
        (quickTurn compE args (pre.length + 1))
        (pre ++ x :: (lo ++ (hi ++ (todo ++ post))), pre.length + 1 + lo.length) =
          .ok (pre ++ x :: (lo' ++ (hi' ++ post)), pre.length + 1 + lo'.length) ∧
      (lo' ++ hi').Perm (lo ++ (hi ++ todo)) ∧ (∀ e ∈ lo', comp x e = true) ∧
      ∀ e ∈ hi', comp x e = false := by
  induction todo generalizing lo hi with
  | nil => exact ⟨lo, hi, rfl, by rw [List.append_nil], hlo, hhi⟩
  | cons y todo ih =>
    rw [List.length_cons, List.range'_succ, List.foldlM_cons]
    by_cases hxy : comp x y = true
    · obtain ⟨hi₁, hperm₁, hturn⟩ := quickTurn_front hcomp pre lo hi (todo ++ post) hxy
      have hlo' : ∀ e ∈ lo ++ [y], comp x e = true :=
        List.forall_mem_append.mpr ⟨hlo, List.forall_mem_singleton.mpr hxy⟩
      obtain ⟨lo', hi', hrun, hperm, hlow, hhigh⟩ := ih (lo ++ [y]) hi₁ hlo'
        fun e he => hhi e (hperm₁.mem_iff.mp he)
      refine ⟨lo', hi', ?_, hperm.trans ?_, hlow, hhigh⟩
      · rw [List.cons_append, hturn, ok_bind]
        have hpos : pre.length + 1 + lo.length + hi.length + 1 + 1 =
            pre.length + 1 + (lo ++ [y]).length + hi₁.length + 1 := by
          rw [List.length_append, List.length_singleton, hperm₁.length_eq]
          omega
        rw [hpos]
        exact hrun
      · rw [List.append_assoc, List.singleton_append]
        refine List.Perm.append_left lo (((hperm₁.append_right todo).cons y).trans ?_)
        exact List.perm_middle.symm
    · rw [Bool.not_eq_true] at hxy
      have hhi' : ∀ e ∈ hi ++ [y], comp x e = false :=
        List.forall_mem_append.mpr ⟨hhi, List.forall_mem_singleton.mpr hxy⟩
      obtain ⟨lo', hi', hrun, hperm, hlow, hhigh⟩ := ih lo (hi ++ [y]) hlo hhi'
      refine ⟨lo', hi', ?_, hperm.trans (by simp), hlow, hhigh⟩
      rw [List.cons_append, quickTurn_stay hcomp pre lo hi (todo ++ post) hxy, ok_bind]
      have hpos : pre.length + 1 + lo.length + hi.length + 1 + 1 =
          pre.length + 1 + lo.length + (hi ++ [y]).length + 1 := by
        rw [List.length_append, List.length_singleton]
        omega
      rw [hpos]
      exact hrun

end

theorem quick_pivot (pre lo back : List α) (x : α) :
    ∃ lo', lo'.Perm lo ∧ exchangeNe (pre ++ x :: (lo ++ back)) (pre.length + 1 + lo.length)
      (pre.length + 1) = .ok (pre ++ (lo' ++ x :: back)) := by
  obtain rfl | ⟨lo, y, rfl⟩ := List.eq_nil_or_concat lo
  · exact ⟨[], .refl _, by simp [exchangeNe]⟩
  · refine ⟨y :: lo, ?_, ?_⟩
    · rw [List.concat_eq_append]
      exact (List.perm_append_singleton y lo).symm
    · rw [List.concat_eq_append, List.length_append, List.length_singleton, exchangeNe,
        if_pos (by omega), List.append_assoc, List.singleton_append]
      exact exchange_eq' (by omega) rfl

theorem quick_ordered (h : IsStrictOrder α fun a b => comp a b = true) {x : α} {left right : List α}
    (hleft : ∀ e ∈ left, comp x e = true) (hright : ∀ e ∈ right, comp x e = false)
    (hordleft : left.Pairwise fun a b => comp a b = false)
    (hordright : right.Pairwise fun a b => comp a b = false) :
    (left ++ x :: right).Pairwise fun a b => comp a b = false := by
  refine List.pairwise_append.mpr ⟨hordleft, List.pairwise_cons.mpr ⟨hright, hordright⟩, ?_⟩
  intro a ha b hb
  obtain rfl | hb := List.mem_cons.mp hb
  · exact not_precedes_back h (hleft a ha)
  · by_contra hab
    rw [Bool.not_eq_false] at hab
    have hxb : comp x b = true := h.trans x a b (hleft a ha) hab
    rw [hright b hb] at hxb
    cases hxb

theorem sortQuick_eq (h : IsStrictOrder α fun a b => comp a b = true)
    (hcomp : ∀ a b args, compE a b args = .ok (comp a b)) (fuel : Nat) (seg pre post : List α)
    (args : List β) (hfuel : seg.length < fuel) :
    ∃ seg', sortQuick compE fuel (pre ++ (seg ++ post)) (pre.length + 1) (pre.length + seg.length)
        args = .ok (pre ++ (seg' ++ post)) ∧ seg'.Perm seg ∧
      seg'.Pairwise fun a b => comp a b = false := by
  induction fuel generalizing seg pre post args with
  | zero => omega
  | succ fuel ih =>
    rw [sortQuick]
    by_cases hlt : pre.length + 1 < pre.length + seg.length
    · cases seg with
      | nil =>
        rw [List.length_nil] at hlt
        omega
      | cons x todo =>
        rw [List.length_cons] at hlt hfuel
        have hcount : pre.length + (todo.length + 1) - (pre.length + 1) = todo.length := by omega
        obtain ⟨lo, hi, hrun, hperm, hlo, hhi⟩ := quick_turns (fun e => hcomp x e args)
          pre post todo [] [] (by simp) (by simp)
        obtain ⟨lo', hlo', hpivot⟩ := quick_pivot pre lo (hi ++ post) x
        have hlen := hperm.length_eq
        have hlen' := hlo'.length_eq
        simp only [List.nil_append] at hperm hlen
        rw [List.length_append] at hlen
        obtain ⟨left, hleft, hpermleft, hordleft⟩ := ih lo' pre (x :: (hi ++ post)) []
          (by omega)
        obtain ⟨right, hright, hpermright, hordright⟩ := ih hi (pre ++ (left ++ [x])) post []
          (by omega)
        have hleftlen := hpermleft.length_eq
        have hmem : ∀ e ∈ left, comp x e = true := fun e he =>
          hlo e (hlo'.mem_iff.mp (hpermleft.mem_iff.mp he))
        have hmem' : ∀ e ∈ right, comp x e = false := fun e he => hhi e (hpermright.mem_iff.mp he)
        refine ⟨left ++ x :: right, ?_, ?_, ?_⟩
        · simp only [List.length_append, List.length_singleton] at hright
          rw [List.length_cons, if_pos hlt, hcount]
          simp only [List.length_nil, Nat.add_zero, List.nil_append] at hrun
          rw [List.cons_append, hrun, ok_bind]
          simp only
          rw [hpivot, ok_bind]
          have hend : pre.length + 1 + lo.length - 1 = pre.length + lo'.length := by omega
          have hstart : pre.length + 1 + lo.length + 1 = pre.length + (left.length + 1) + 1 := by
            omega
          have hstop : pre.length + (todo.length + 1) =
              pre.length + (left.length + 1) + hi.length := by omega
          rw [hend, hleft, ok_bind, hstart, hstop]
          simpa using hright
        · refine ((hpermleft.trans hlo').append (hpermright.cons x)).trans ?_
          exact List.perm_middle.trans (hperm.cons x)
        · exact quick_ordered h hmem hmem' hordleft hordright
    · rw [if_neg hlt]
      exact ⟨seg, rfl, .refl _, pairwise_short (by omega)⟩

end

theorem sortMerge_running {arr : List α} {left right : Nat} (hlt : left < right) (fuel : Nat)
    (help : Help α) : sortMerge comp fuel arr left right help = .error .running := by
  induction fuel generalizing help with
  | zero => rfl
  | succ fuel ih =>
    rw [sortMerge, if_pos hlt]
    simp only [ih]
    rfl

/-! ### Agreement -/

/-- The elements in the order of `comp`. -/
def Arranged (comp : α → α → Bool) (arr out : List α) : Prop :=
  out.Perm arr ∧ out.Pairwise fun a b => comp a b = true

def Agree (comp : α → α → Bool) (arr : List α) : Prop :=
  ∃ out, Arranged comp arr out ∧ sortBubble comp arr none = .ok out ∧
    sortSelect comp arr none = .ok out ∧
    (∃ fuel, sortQuick (fun a b (_ : List Unit) => .ok (comp a b)) fuel arr 1 arr.length [] =
      .ok out) ∧
    (∃ fuel help, sortMerge comp fuel arr 1 arr.length (.table fun _ => none) = .ok (out, help)) ∧
    insertAll comp arr = out

section

variable (h : IsStrictTotalOrder α fun a b => comp a b = true) {arr : List α} (harr : arr.Nodup)

include h harr

theorem Ordered.arranged {out : List α} (hperm : out.Perm arr) (hout : Ordered comp out) :
    Arranged comp arr out := by
  refine ⟨hperm, (hout.and (hperm.nodup_iff.mpr harr)).imp fun {a b} hab => ?_⟩
  by_contra hnot
  have heq := h.trichotomous a b hnot (by rw [hab.1]; exact Bool.false_ne_true)
  exact hab.2 heq

omit harr in
theorem Arranged.unique {out out' : List α} (hout : Arranged comp arr out)
    (hout' : Arranged comp arr out') : out = out' := by
  refine List.Perm.eq_of_pairwise (fun a b _ _ hab hba => ?_) hout.2 hout'.2
    (hout.1.trans hout'.1.symm)
  exact absurd (h.trans a b a hab hba) (h.irrefl a)

theorem quick_reverse {out : List α} (hout : Arranged comp arr out) :
    ∃ fuel, sortQuick (fun a b (_ : List Unit) => .ok (comp a b)) fuel arr 1 arr.length [] =
      .ok out.reverse := by
  have hcomp : ∀ a b (args : List Unit), (fun a b (_ : List Unit) => .ok (comp a b) :
      α → α → List Unit → Except Stop Bool) a b args = .ok (comp a b) := fun _ _ _ => rfl
  obtain ⟨seg, hrun, hperm, hordered⟩ := sortQuick_eq h.toIsStrictOrder hcomp (arr.length + 1) arr
    [] [] [] (Nat.lt_succ_self _)
  have hseg : Arranged comp arr seg.reverse :=
    Ordered.arranged h harr (seg.reverse_perm.trans hperm) (List.pairwise_reverse.mpr hordered)
  refine ⟨arr.length + 1, ?_⟩
  rw [Arranged.unique h hout hseg, List.reverse_reverse]
  simpa using hrun

/-- `bubble`, `select` and `insert` leave the elements in order, `quick` leaves them the other way
round, and `merge` ends for no more than one element; so the five agree on those arrays only. -/
theorem sorts_agree_iff : (Agree comp arr ↔ arr.length ≤ 1) ∧
    (∃ out, Arranged comp arr out ∧ sortBubble comp arr none = .ok out ∧
      sortSelect comp arr none = .ok out ∧ insertAll comp arr = out ∧
      ∃ fuel, sortQuick (fun a b (_ : List Unit) => .ok (comp a b)) fuel arr 1 arr.length [] =
        .ok out.reverse) ∧
    (1 < arr.length → ∀ fuel help,
      sortMerge comp fuel arr 1 arr.length help = .error .running) := by
  have hstrict := h.toIsStrictOrder
  obtain ⟨out, hbubble, hperm, hordered⟩ := (bubbleRow_row hstrict arr.length).sorts
  obtain ⟨out₂, hselect, hperm₂, hordered₂⟩ := (selectRow_row hstrict arr.length).sorts
  obtain ⟨hperm₃, hordered₃⟩ := insertAll_ordered hstrict arr
  have hout := Ordered.arranged h harr hperm hordered
  obtain rfl := Arranged.unique h (Ordered.arranged h harr hperm₂ hordered₂) hout
  have hinsert := Arranged.unique h (Ordered.arranged h harr hperm₃ hordered₃) hout
  obtain ⟨fuel, hquick⟩ := quick_reverse h harr hout
  have hmerge : 1 < arr.length → ∀ fuel help,
      sortMerge comp fuel arr 1 arr.length help = .error .running :=
    fun hlt fuel help => sortMerge_running hlt fuel help
  refine ⟨⟨?_, fun hle => ?_⟩, ⟨out₂, hout, hbubble, hselect, hinsert, fuel, hquick⟩, hmerge⟩
  · rintro ⟨_, -, -, -, -, ⟨fuel, help, hend⟩, -⟩
    by_contra hlt
    rw [hmerge (by omega)] at hend
    cases hend
  · have hlen := hperm₂.length_eq
    have hreverse : out₂.reverse = out₂ := by
      obtain rfl | ⟨b, rfl⟩ := length_le_one (hlen ▸ hle) <;> rfl
    have hsame : out₂ = arr := by
      obtain rfl | ⟨b, rfl⟩ := length_le_one hle
      · exact hperm₂.eq_nil
      · exact List.perm_singleton.mp hperm₂
    rw [hreverse] at hquick
    refine ⟨out₂, hout, hbubble, hselect, ⟨fuel, hquick⟩, ⟨1, .table fun _ => none, ?_⟩, hinsert⟩
    rw [sortMerge, if_neg (by omega), hsame]
    rfl

omit h harr

theorem lt_isStrictTotalOrder : IsStrictTotalOrder Nat fun a b => decide (a < b) = true where
  irrefl a := by simp
  trans a b c := by simpa using Nat.lt_trans
  trichotomous a b := by simpa using fun hab hba => Nat.le_antisymm hba hab

theorem sorts_agree_iff_two : IsStrictTotalOrder Nat (fun a b => decide (a < b) = true) ∧
    [2, 1].Nodup ∧ (Agree (fun a b => decide (a < b)) [2, 1] ↔ [2, 1].length ≤ 1) :=
  ⟨lt_isStrictTotalOrder, by decide, (sorts_agree_iff lt_isStrictTotalOrder (by decide)).1⟩

/-- Two elements that are in order: `quick` changes them, and `merge` does not end. -/
theorem sorts_differ : sortBubble (fun a b => decide (a < b)) [1, 2] none = .ok [1, 2] ∧
    sortQuick (fun a b (_ : List Unit) => .ok (decide (a < b))) 3 [1, 2] 1 2 [] = .ok [2, 1] ∧
    (∀ fuel help, sortMerge (fun a b => decide (a < b)) fuel [1, 2] 1 2 help = .error .running) ∧
    ¬ Agree (fun a b => decide (a < b)) [1, 2] := by
  have hmerge : ∀ fuel help, sortMerge (fun a b => decide (a < b)) fuel [1, 2] 1 2 help =
      .error .running := fun fuel help => sortMerge_running (by decide) fuel help
  refine ⟨by decide, by decide, hmerge, ?_⟩
  rintro ⟨out, -, -, -, -, ⟨fuel, help, hend⟩, -⟩
  rw [List.length_cons, List.length_singleton, hmerge] at hend
  cases hend

end

end XsServer.Custom
