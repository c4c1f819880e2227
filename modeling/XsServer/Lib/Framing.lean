import Mathlib.Data.List.Basic

/-! Streams that are cut into frames.  A framing says how the first frame of a stream is found;
`split` gives all complete frames of a stream and what is left.  The frames do not depend on how
the stream is cut into chunks: what is left of one chunk is put before the next. -/

namespace XsServer.Lib

/-- How the first frame of a stream is found.  More bytes after a complete frame do not change
it. -/
structure Framing (β α : Type*) where
  next : List β → Option (α × List β)
  next_lt : ∀ {bs a r}, next bs = some (a, r) → r.length < bs.length
  next_append : ∀ {bs a r}, next bs = some (a, r) → ∀ cs, next (bs ++ cs) = some (a, r ++ cs)

variable {α β : Type*}

/-- The complete frames of a stream, and the start of the next one. -/
def Framing.split (F : Framing β α) (bs : List β) : List α × List β :=
  match h : F.next bs with
  | none => ([], bs)
  | some (a, r) =>
    have := F.next_lt h
    (a :: (F.split r).1, (F.split r).2)
  termination_by bs.length

variable {F : Framing β α}

theorem Framing.split_none {bs : List β} (h : F.next bs = none) : F.split bs = ([], bs) := by
  rw [Framing.split]
  split
  · rfl
  · rename_i h'
    rw [h] at h'
    cases h'

theorem Framing.split_some {bs r : List β} {a : α} (h : F.next bs = some (a, r)) :
    F.split bs = (a :: (F.split r).1, (F.split r).2) := by
  rw [Framing.split]
  split
  · rename_i h'
    rw [h] at h'
    cases h'
  · rename_i h'
    rw [h] at h'
    cases h'
    rfl

theorem Framing.eq_nil_of_split {bs : List β} (h : F.split bs = ([], [])) : bs = [] := by
  cases hnext : F.next bs with
  | none => rw [split_none hnext] at h; exact (Prod.mk.inj h).2
  | some p => rw [split_some hnext] at h; cases h

theorem Framing.split_append (bs cs : List β) :
    F.split (bs ++ cs) =
      ((F.split bs).1 ++ (F.split ((F.split bs).2 ++ cs)).1,
        (F.split ((F.split bs).2 ++ cs)).2) := by
  fun_induction F.split bs with
  | case1 bs h => simp
  | case2 bs a r h hlt ih => rw [split_some (F.next_append h cs), ih, List.cons_append]

/-- A concatenation of frames is split into them. -/
theorem Framing.split_flatten {as : List α} {ws : List (List β)}
    (h : List.Forall₂ (fun a w => F.next w = some (a, [])) as ws) :
    F.split ws.flatten = (as, []) := by
  induction h with
  | nil =>
    have hnil : F.next [] = none := by
      cases hnext : F.next [] with
      | none => rfl
      | some p => exact absurd (F.next_lt hnext) (Nat.not_lt_zero _)
    exact split_none hnil
  | @cons a w as ws hw _ ih =>
    have hsome := F.next_append hw ws.flatten
    rw [List.flatten_cons, split_some hsome, List.nil_append, ih]

end XsServer.Lib
