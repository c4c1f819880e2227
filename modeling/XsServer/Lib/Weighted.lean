import Mathlib.Algebra.BigOperators.Group.List.Basic
import Mathlib.Algebra.Ring.Int.Defs

/-! Choices by weight: the weights of the entries are subtracted from a draw, one by one, until
nothing is left of it. -/

namespace XsServer.Lib.Weighted

variable {β : Type*} (weight : β → Int)

/-- The entries that the loop acts on, with a `break` behind the action or without. -/
def taken (breaks : Bool) : List β → Int → List β
  | [], _ => []
  | b :: lis, draw =>
    let draw := draw - weight b
    if draw ≤ 0 then
      if breaks then [b] else b :: taken breaks lis draw
    else taken breaks lis draw

def total (lis : List β) : Int := (lis.map weight).sum

/-- The draw is in the interval of the entry `b`. -/
structure Drawn (lis : List β) (draw : Int) (before : List β) (b : β) (after : List β) : Prop where
  split : lis = before ++ b :: after
  above : total weight before < draw
  within : draw ≤ total weight before + weight b

/-- What the loop acts on is the one entry in whose interval the draw is. -/
def Exactly (lis : List β) (draw : Int) (acts : List β) : Prop :=
  ∃ before b after, Drawn weight lis draw before b after ∧ acts = [b]

variable {weight}

@[simp] theorem total_nil : total weight [] = 0 := rfl

@[simp] theorem total_cons (b : β) (lis : List β) :
    total weight (b :: lis) = weight b + total weight lis := List.sum_cons

@[simp] theorem total_append (before after : List β) :
    total weight (before ++ after) = total weight before + total weight after := by
  rw [total, List.map_append, List.sum_append]
  rfl

theorem total_nonneg {lis : List β} (hpos : ∀ b ∈ lis, 0 < weight b) : 0 ≤ total weight lis := by
  induction lis with
  | nil => exact Int.le_refl 0
  | cons b lis ih =>
    have hb := hpos b List.mem_cons_self
    have hlis := ih fun b' hb' => hpos b' (List.mem_cons_of_mem _ hb')
    rw [total_cons]
    omega

/-- Every draw up to the sum of the weights is in the interval of an entry. -/
theorem exists_drawn {lis : List β} {draw : Int} (hdraw : 0 < draw)
    (hsum : draw ≤ total weight lis) : ∃ before b after, Drawn weight lis draw before b after := by
  induction lis generalizing draw with
  | nil =>
    rw [total_nil] at hsum
    omega
  | cons b lis ih =>
    rw [total_cons] at hsum
    by_cases hb : draw ≤ weight b
    · exact ⟨[], b, lis, rfl, hdraw, by rw [total_nil]; omega⟩
    · have hleft : 0 < draw - weight b := by omega
      obtain ⟨before, b', after, hsplit, habove, hwithin⟩ := ih hleft (by omega)
      refine ⟨b :: before, b', after, by rw [hsplit]; rfl, ?_, ?_⟩ <;> rw [total_cons] <;> omega

/-- The loop goes past the entries whose weights are less than the draw together. -/
theorem taken_append {before rest : List β} {draw : Int} (breaks : Bool)
    (hpos : ∀ b ∈ before, 0 < weight b) (hdraw : total weight before < draw) :
    taken weight breaks (before ++ rest) draw =
      taken weight breaks rest (draw - total weight before) := by
  induction before generalizing draw with
  | nil => rw [List.nil_append, total_nil, Int.sub_zero]
  | cons b before ih =>
    have hbefore : ∀ b' ∈ before, 0 < weight b' := fun b' hb' =>
      hpos b' (List.mem_cons_of_mem _ hb')
    have hnonneg := total_nonneg hbefore
    rw [total_cons] at hdraw
    rw [List.cons_append, taken, if_neg (by omega), ih hbefore (by omega), total_cons,
      Int.sub_sub]

/-- Without anything left of the draw it acts on every entry. -/
theorem taken_spent {lis : List β} {draw : Int} (hdraw : draw ≤ 0)
    (hpos : ∀ b ∈ lis, 0 < weight b) : taken weight false lis draw = lis := by
  induction lis generalizing draw with
  | nil => rfl
  | cons b lis ih =>
    have hb := hpos b List.mem_cons_self
    rw [taken, if_pos (by omega), if_neg Bool.false_ne_true,
      ih (by omega) fun b' hb' => hpos b' (List.mem_cons_of_mem _ hb')]

section

variable {lis before after : List β} {draw : Int} {b : β}
  (h : Drawn weight lis draw before b after) (hpos : ∀ b ∈ lis, 0 < weight b)

include h hpos

/-- The loop with a `break` acts on this entry. -/
theorem Drawn.taken_break : taken weight true lis draw = [b] := by
  obtain ⟨rfl, habove, hwithin⟩ := h
  rw [taken_append true (fun e he => hpos e (List.mem_append_left _ he)) habove, taken,
    if_pos (by omega), if_pos rfl]

/-- The loop without a `break` acts on this entry and on all behind it. -/
theorem Drawn.taken_all : taken weight false lis draw = b :: after := by
  obtain ⟨rfl, habove, hwithin⟩ := h
  rw [taken_append false (fun e he => hpos e (List.mem_append_left _ he)) habove, taken,
    if_pos (by omega), if_neg Bool.false_ne_true, taken_spent (by omega)]
  exact fun e he => hpos e (List.mem_append_right _ (List.mem_cons_of_mem _ he))

end

/-- The draw is in the interval of one entry only. -/
theorem Drawn.unique {lis before after before' after' : List β} {draw : Int} {b b' : β}
    (h : Drawn weight lis draw before b after) (h' : Drawn weight lis draw before' b' after')
    (hpos : ∀ b ∈ lis, 0 < weight b) : before = before' ∧ b = b' ∧ after = after' := by
  have hall := (h.taken_all hpos).symm.trans (h'.taken_all hpos)
  obtain ⟨rfl, rfl⟩ := List.cons.inj hall
  exact ⟨List.append_cancel_right (h.split.symm.trans h'.split), rfl, rfl⟩

/-- The entry is the last one when the draw is more than the weights of the others. -/
theorem Drawn.after_eq_nil_iff {lis before after : List β} {draw : Int} {b : β}
    (h : Drawn weight lis draw before b after) (hpos : ∀ b ∈ lis, 0 < weight b) :
    after = [] ↔ total weight lis.dropLast < draw := by
  obtain ⟨rfl, habove, hwithin⟩ := h
  constructor
  · rintro rfl
    rwa [List.dropLast_concat]
  · intro hlast
    obtain rfl | ⟨after, e, rfl⟩ := List.eq_nil_or_concat after
    · rfl
    · rw [List.concat_eq_append] at hpos
      have hafter : ∀ e' ∈ after, 0 < weight e' := fun e' he' => hpos e' <|
        List.mem_append_right _ (List.mem_cons_of_mem _ (List.mem_append_left _ he'))
      have hnonneg := total_nonneg hafter
      rw [List.concat_eq_append, ← List.cons_append, ← List.append_assoc, List.dropLast_concat,
        total_append, total_cons] at hlast
      omega

section

variable {lis : List β} {draw : Int} (hpos : ∀ b ∈ lis, 0 < weight b) (hdraw : 0 < draw)
  (hsum : draw ≤ total weight lis)

include hpos hdraw hsum

theorem exactly_break : Exactly weight lis draw (taken weight true lis draw) := by
  obtain ⟨before, b, after, h⟩ := exists_drawn hdraw hsum
  exact ⟨before, b, after, h, h.taken_break hpos⟩

theorem exactly_all_iff : Exactly weight lis draw (taken weight false lis draw) ↔
    total weight lis.dropLast < draw := by
  obtain ⟨before, b, after, h⟩ := exists_drawn hdraw hsum
  rw [h.taken_all hpos, ← h.after_eq_nil_iff hpos]
  constructor
  · rintro ⟨-, b', -, -, hacts⟩
    exact (List.cons.inj hacts).2
  · rintro rfl
    exact ⟨before, b, [], h, rfl⟩

end

end XsServer.Lib.Weighted
