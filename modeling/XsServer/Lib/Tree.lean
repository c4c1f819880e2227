import Mathlib.Data.List.Basic

/-! Trees whose edges carry keys: nested tables with values at their leaves.  What stands at a path
can be found and put there; where something is put, the tables on the way are made. -/

namespace XsServer.Lib

inductive KeyTree (κ α : Type*)
  | leaf (a : α)
  | node (get : κ → Option (KeyTree κ α))

variable {κ α : Type*}

/-- The outermost table of a tree. -/
abbrev Table (κ α : Type*) := κ → Option (KeyTree κ α)

def KeyTree.IsNode (t : Option (KeyTree κ α)) : Prop := ∃ get, t = some (.node get)

/-- What stands below a tree at a path. -/
def KeyTree.sub : Option (KeyTree κ α) → List κ → Option (KeyTree κ α)
  | t, [] => t
  | some (.node get), k :: ks => KeyTree.sub (get k) ks
  | _, _ :: _ => none

def Table.find (f : Table κ α) (p : List κ) : Option (KeyTree κ α) := KeyTree.sub (some (.node f)) p

/-- The tables inside an entry; an absent entry has none. -/
def KeyTree.children : Option (KeyTree κ α) → Table κ α
  | some (.node get) => get
  | _ => fun _ => none

variable [DecidableEq κ]

def Table.put (f : Table κ α) : List κ → Option (KeyTree κ α) → Table κ α
  | [], _ => f
  | [k], t => Function.update f k t
  | k :: k' :: ks, t =>
      Function.update f k (some (.node (Table.put (KeyTree.children (f k)) (k' :: ks) t)))

omit [DecidableEq κ] in
@[simp] theorem KeyTree.sub_nil (t : Option (KeyTree κ α)) : KeyTree.sub t [] = t := by
  cases t with
  | none => rfl
  | some t => cases t <;> rfl

omit [DecidableEq κ] in
@[simp] theorem KeyTree.sub_none (ks : List κ) :
    KeyTree.sub (none : Option (KeyTree κ α)) ks = none := by
  cases ks <;> rfl

omit [DecidableEq κ] in
theorem Table.find_cons (f : Table κ α) (k : κ) (ks : List κ) :
    f.find (k :: ks) = KeyTree.sub (f k) ks := rfl

omit [DecidableEq κ] in
theorem Table.find_singleton (f : Table κ α) (k : κ) : f.find [k] = f k := KeyTree.sub_nil _

omit [DecidableEq κ] in
theorem Table.find_empty {p : List κ} (hp : p ≠ []) :
    Table.find (fun _ => none : Table κ α) p = none := by
  obtain ⟨k, p, rfl⟩ := List.exists_cons_of_ne_nil hp
  rw [Table.find_cons, KeyTree.sub_none]

omit [DecidableEq κ] in
/-- Below an entry that is no leaf, or at it. -/
theorem Table.find_children {f : Table κ α} {k : κ} (h : ∀ a, f k ≠ some (.leaf a)) {ks : List κ}
    (hks : ks ≠ []) : f.find (k :: ks) = Table.find (KeyTree.children (f k)) ks := by
  obtain ⟨k', ks, rfl⟩ := List.exists_cons_of_ne_nil hks
  rw [Table.find_cons]
  cases hf : f k with
  | none => rw [KeyTree.sub_none]; exact (KeyTree.sub_none ks).symm
  | some t =>
    cases t with
    | leaf a => exact absurd hf (h a)
    | node get => rfl

/-- No value stands on the way to a path. -/
def Table.Clear (f : Table κ α) (p : List κ) : Prop :=
  ∀ q, q ≠ [] → q <+: p → q ≠ p → ∀ a, f.find q ≠ some (.leaf a)

omit [DecidableEq κ] in
theorem Table.Clear.head {f : Table κ α} {k k' : κ} {ks : List κ} (h : f.Clear (k :: k' :: ks)) :
    ∀ a, f k ≠ some (.leaf a) := by
  have := h [k] (List.cons_ne_nil _ _) (by simp) (by simp)
  rwa [Table.find_singleton] at this

omit [DecidableEq κ] in
theorem Table.Clear.tail {f : Table κ α} {k k' : κ} {ks : List κ} (h : f.Clear (k :: k' :: ks)) :
    Table.Clear (KeyTree.children (f k)) (k' :: ks) := by
  intro q hq hpre hne a
  rw [← Table.find_children h.head hq]
  exact h (k :: q) (List.cons_ne_nil _ _) (List.cons_prefix_cons.mpr ⟨rfl, hpre⟩)
    (fun heq => hne (List.cons.inj heq).2) a

section put

variable {f : Table κ α} {p q : List κ} {t : Option (KeyTree κ α)}

/-- What is put at a path stands there. -/
theorem Table.find_put_self (hp : p ≠ []) : (f.put p t).find p = t := by
  fun_induction Table.put f p t with
  | case1 => exact absurd rfl hp
  | case2 f k t => rw [Table.find_singleton, Function.update_self]
  | case3 f k k' ks t ih =>
    rw [Table.find_cons, Function.update_self]
    exact ih (List.cons_ne_nil _ _)

/-- What stands at other paths, neither above nor below, stays. -/
theorem Table.find_put_of_not_prefix (hclear : f.Clear p) (h1 : ¬ p <+: q) (h2 : ¬ q <+: p) :
    (f.put p t).find q = f.find q := by
  fun_induction Table.put f p t generalizing q with
  | case1 => exact absurd (List.nil_prefix) h1
  | case2 f k t =>
    cases q with
    | nil => exact absurd (List.nil_prefix) h2
    | cons k1 q =>
      have hne : k1 ≠ k := by
        rintro rfl
        exact h1 (by simp)
      rw [Table.find_cons, Function.update_of_ne hne, Table.find_cons]
  | case3 f k k' ks t ih =>
    cases q with
    | nil => exact absurd (List.nil_prefix) h2
    | cons k1 q =>
      by_cases hk : k1 = k
      · subst hk
        have hq : q ≠ [] := by
          rintro rfl
          exact h2 (by simp)
        rw [Table.find_cons, Function.update_self, Table.find_children hclear.head hq]
        exact ih hclear.tail (fun h => h1 (List.cons_prefix_cons.mpr ⟨rfl, h⟩))
          fun h => h2 (List.cons_prefix_cons.mpr ⟨rfl, h⟩)
      · rw [Table.find_cons, Function.update_of_ne hk, Table.find_cons]

/-- Tables stand on the way to what is put. -/
theorem Table.find_put_above (hpre : q <+: p) (hne : q ≠ p) :
    KeyTree.IsNode ((f.put p t).find q) := by
  fun_induction Table.put f p t generalizing q with
  | case1 => exact absurd (List.prefix_nil.mp hpre) hne
  | case2 f k t =>
    cases q with
    | nil => exact ⟨_, rfl⟩
    | cons k1 q =>
      obtain ⟨rfl, hq⟩ := List.cons_prefix_cons.mp hpre
      exact absurd (by rw [List.prefix_nil.mp hq]) hne
  | case3 f k k' ks t ih =>
    cases q with
    | nil => exact ⟨_, rfl⟩
    | cons k1 q =>
      obtain ⟨rfl, hq⟩ := List.cons_prefix_cons.mp hpre
      rw [Table.find_cons, Function.update_self]
      exact ih hq fun heq => hne (by rw [heq])

omit [DecidableEq κ] in
theorem KeyTree.sub_append (t : Option (KeyTree κ α)) (p ks : List κ) :
    KeyTree.sub t (p ++ ks) = KeyTree.sub (KeyTree.sub t p) ks := by
  fun_induction KeyTree.sub t p with
  | case1 t => rfl
  | case2 get k p ih => exact ih
  | case3 t k p hne =>
    rw [KeyTree.sub_none]
    cases t with
    | none => rfl
    | some t =>
      cases t with
      | leaf a => rfl
      | node get => exact absurd rfl (hne get)

omit [DecidableEq κ] in
/-- Nothing stands below an entry that is no table. -/
theorem Table.find_below (h : ¬ KeyTree.IsNode (f.find p)) (hpre : p <+: q) (hne : q ≠ p) :
    f.find q = none := by
  obtain ⟨ks, rfl⟩ := hpre
  obtain ⟨k, ks, rfl⟩ := List.exists_cons_of_ne_nil fun hks : ks = [] => hne (by simp [hks])
  rw [Table.find, KeyTree.sub_append]
  change KeyTree.sub (f.find p) _ = none
  cases hf : f.find p with
  | none => rfl
  | some t =>
    cases t with
    | leaf a => rfl
    | node get => exact absurd ⟨get, hf⟩ h

variable (hp : p ≠ []) (hclear : f.Clear p) (hf : ¬ KeyTree.IsNode (f.find p))
  (ht : ¬ KeyTree.IsNode t)

include hp hclear hf ht

theorem Table.find_put_leaf [DecidableEq (List κ)] {a : α} :
    (f.put p t).find q = some (.leaf a) ↔
      if q = p then t = some (.leaf a) else f.find q = some (.leaf a) := by
  by_cases hq : q = p
  · subst hq
    rw [Table.find_put_self hp, if_pos rfl]
  · rw [if_neg hq]
    by_cases hbelow : p <+: q
    · have hself : ¬ KeyTree.IsNode ((f.put p t).find p) := by rwa [Table.find_put_self hp]
      rw [Table.find_below hself hbelow hq, Table.find_below hf hbelow hq]
    · by_cases habove : q <+: p
      · obtain ⟨get, hget⟩ := Table.find_put_above (f := f) (t := t) habove hq
        rw [hget]
        refine ⟨fun h => (by cases h), fun h => ?_⟩
        cases q with
        | nil => cases h
        | cons k ks => exact absurd h (hclear _ (List.cons_ne_nil _ _) habove hq a)
      · rw [Table.find_put_of_not_prefix hclear hbelow habove]

theorem Table.isNode_put :
    KeyTree.IsNode ((f.put p t).find q) ↔ KeyTree.IsNode (f.find q) ∨ (q <+: p ∧ q ≠ p) := by
  by_cases hq : q = p
  · subst hq
    rw [Table.find_put_self hp]
    exact ⟨fun h => absurd h ht, fun h => h.elim (fun h => absurd h hf) fun h => absurd rfl h.2⟩
  · by_cases hbelow : p <+: q
    · have hself : ¬ KeyTree.IsNode ((f.put p t).find p) := by rwa [Table.find_put_self hp]
      rw [Table.find_below hself hbelow hq, Table.find_below hf hbelow hq]
      exact ⟨.inl, fun h => h.elim (fun h => h) fun h => absurd (List.IsPrefix.eq_of_length_le h.1
        (hbelow.length_le)) hq⟩
    · by_cases habove : q <+: p
      · exact ⟨fun _ => .inr ⟨habove, hq⟩, fun _ => Table.find_put_above habove hq⟩
      · rw [Table.find_put_of_not_prefix hclear hbelow habove]
        exact ⟨.inl, fun h => h.elim (fun h => h) fun h => absurd h.1 habove⟩

omit hp hclear hf ht in
/-- One value put into an empty table is the only one. -/
theorem Table.find_put_empty {a b : α} (hp : p ≠ [])
    (h : (Table.put (fun _ => none) p (some (.leaf b))).find q = some (.leaf a)) : q = p := by
  classical
  have hclear : Table.Clear (fun _ => none : Table κ α) p := by
    intro q' hq' _ _ a' ha'
    rw [Table.find_empty hq'] at ha'
    cases ha'
  have hnode : ¬ KeyTree.IsNode (Table.find (fun _ => none : Table κ α) p) := by
    rintro ⟨get, hget⟩
    rw [Table.find_empty hp] at hget
    cases hget
  have hleaf : ¬ KeyTree.IsNode (some (.leaf b) : Option (KeyTree κ α)) := by
    rintro ⟨get, hget⟩
    cases hget
  by_contra hne
  rw [Table.find_put_leaf hp hclear hnode hleaf, if_neg hne] at h
  by_cases hq : q = []
  · subst hq
    cases h
  · rw [Table.find_empty hq] at h
    cases h

end put

end XsServer.Lib
