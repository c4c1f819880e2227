import Mathlib.Data.List.Nodup
import Mathlib.Data.List.Perm.Subperm

/-! Linked lists: the nodes from one on, where each node has a next one or none; and several lists
that share a heap. -/

namespace XsServer.Lib

variable {ν : Type*} {next next' : ν → Option ν} {o : Option ν} {i : ν} {l l₁ l₂ : List ν}

/-- The nodes of the linked list that starts with `o`. -/
inductive Chain (next : ν → Option ν) : Option ν → List ν → Prop
  | nil : Chain next none []
  | cons {i : ν} {l : List ν} (h : Chain next (next i) l) : Chain next (some i) (i :: l)

/-- A list depends on its own nodes only. -/
theorem Chain.congr (h : Chain next o l) (heq : ∀ j ∈ l, next' j = next j) : Chain next' o l := by
  induction h with
  | nil => exact .nil
  | cons h ih =>
    rw [List.forall_mem_cons] at heq
    apply Chain.cons
    rw [heq.1]
    exact ih heq.2

theorem Chain.unique (h₁ : Chain next o l₁) (h₂ : Chain next o l₂) : l₁ = l₂ := by
  induction h₁ generalizing l₂ with
  | nil =>
    cases h₂
    rfl
  | cons _ ih =>
    cases h₂ with
    | cons h₂ => rw [ih h₂]

theorem Chain.start (h : Chain next o l) : o = l.head? := by
  cases h with
  | nil | cons => rfl

/-- What follows a node is the list of that node. -/
theorem Chain.suffix (h : Chain next o (l₁ ++ i :: l₂)) : Chain next (some i) (i :: l₂) := by
  induction l₁ generalizing o with
  | nil =>
    obtain rfl : o = some i := h.start
    exact h
  | cons j l₁ ih =>
    cases h with
    | cons h => exact ih h

theorem Chain.rest (h : Chain next o (l₁ ++ i :: l₂)) : Chain next (next i) l₂ := by
  cases h.suffix with
  | cons h => exact h

theorem Chain.tail (h : Chain next o (i :: l)) : Chain next (next i) l := by
  cases h with
  | cons h => exact h

/-- A list that ends has no node twice. -/
theorem Chain.nodup (h : Chain next o l) : l.Nodup := by
  induction h with
  | nil => exact List.nodup_nil
  | @cons i l h ih =>
    refine List.nodup_cons.mpr ⟨fun hmem => ?_, ih⟩
    obtain ⟨l₁, l₂, rfl⟩ := List.append_of_mem hmem
    have heq := congrArg List.length (h.unique h.rest)
    rw [List.length_append, List.length_cons] at heq
    omega

/-- A node gets another list behind it. -/
theorem Chain.splice (h : Chain next o (l₁ ++ i :: l₂)) {l₃ : List ν}
    (heq : ∀ j ∈ l₁, next' j = next j) (hi : Chain next' (next' i) l₃) :
    Chain next' o (l₁ ++ i :: l₃) := by
  induction l₁ generalizing o with
  | nil =>
    obtain rfl : o = some i := h.start
    exact .cons hi
  | cons j l₁ ih =>
    rw [List.forall_mem_cons] at heq
    cases h with
    | cons h =>
      apply Chain.cons
      rw [heq.1]
      exact ih h heq.2

/-- A node goes to the front. -/
theorem Chain.push (h : Chain next o l) (hi : i ∉ l) (hnext : next' i = o)
    (heq : ∀ j, j ≠ i → next' j = next j) : Chain next' (some i) (i :: l) := by
  apply Chain.cons
  rw [hnext]
  exact h.congr fun j hj => heq j (ne_of_mem_of_not_mem hj hi)

/-- Nodes that are linked in a row. -/
theorem chain_range' {next : Nat → Option Nat} {a n : Nat}
    (h : ∀ i, a ≤ i → i < a + n → next i = if i + 1 < a + n then some (i + 1) else none) :
    Chain next (if 0 < n then some a else none) (List.range' a n) := by
  induction n generalizing a with
  | zero => exact .nil
  | succ n ih =>
    rw [if_pos n.succ_pos, List.range'_succ]
    have hnext : next a = if 0 < n then some (a + 1) else none := by
      rw [h a (Nat.le_refl a) (by omega)]
      simp only [Nat.add_comm n 1, ← Nat.add_assoc, Nat.lt_add_right_iff_pos]
    apply Chain.cons
    rw [hnext]
    apply ih
    intro i hle hlt
    rw [h i (by omega) (by omega)]
    simp only [Nat.add_comm n 1, ← Nat.add_assoc]

/-- `j` comes next after `i`. -/
def LinkedTo (next : ν → Option ν) (i j : ν) : Prop := next i = some j

/-- From `i` on no node is met twice. -/
def Acyclic (next : ν → Option ν) (i : ν) : Prop :=
  ∀ j, Relation.ReflTransGen (LinkedTo next) i j → ¬ Relation.TransGen (LinkedTo next) j j

/-- The list of a node that is linked from one with a list. -/
theorem Chain.reaches {j : ν} (h : Chain next (some i) (i :: l))
    (hreach : Relation.ReflTransGen (LinkedTo next) i j) :
    ∃ l', Chain next (some j) (j :: l') ∧ (j :: l') <:+ (i :: l) := by
  induction hreach with
  | refl => exact ⟨l, h, List.suffix_rfl⟩
  | @tail j k _ hlink ih =>
    obtain ⟨l', hchain, hsuffix⟩ := ih
    have htail := hchain.tail
    rw [show next j = some k from hlink] at htail
    cases htail with
    | @cons _ l'' htail => exact ⟨l'', .cons htail, (List.suffix_cons j _).trans hsuffix⟩

theorem Chain.acyclic (h : Chain next (some i) l) : Acyclic next i := by
  intro j hreach hcycle
  cases h with
  | @cons _ l h =>
    obtain ⟨l', hchain, -⟩ := (Chain.cons h).reaches hreach
    obtain ⟨k, hlink, hback⟩ := Relation.TransGen.head'_iff.mp hcycle
    have htail := hchain.tail
    rw [show next j = some k from hlink] at htail
    cases htail with
    | @cons _ l'' htail =>
      obtain ⟨l₃, -, hsuffix⟩ := (Chain.cons htail).reaches hback
      have hmem : j ∈ k :: l'' := hsuffix.mem List.mem_cons_self
      exact (List.nodup_cons.mp hchain.nodup).1 hmem

/-- Where only nodes of `dom` are linked, a list without a cycle ends. -/
theorem Acyclic.chain {dom : List ν} (hdom : ∀ i j, next i = some j → i ∈ dom)
    (h : Acyclic next i) : ∃ l, Chain next (some i) l := by
  have hwalk : ∀ n (seen : List ν) i, Acyclic next i → seen.Nodup → seen ⊆ dom →
      (∀ j ∈ seen, Relation.TransGen (LinkedTo next) j i) → dom.length ≤ seen.length + n →
      ∃ l, Chain next (some i) l := by
    intro n
    induction n with
    | zero =>
      intro seen i hi hnodup hsub hseen hlen
      cases hnext : next i with
      | none => exact ⟨[i], .cons (hnext ▸ .nil)⟩
      | some j =>
        -- all nodes of `dom` have been seen, `i` among them
        have hperm := (List.subperm_of_subset hnodup hsub).perm_of_length_le (by omega)
        have hmem := hperm.mem_iff.mpr (hdom i j hnext)
        exact absurd (hseen i hmem) (hi i .refl)
    | succ n ih =>
      intro seen i hi hnodup hsub hseen hlen
      cases hnext : next i with
      | none => exact ⟨[i], .cons (hnext ▸ .nil)⟩
      | some j =>
        have hlink : LinkedTo next i j := hnext
        have hnew : i ∉ seen := fun hmem => hi i .refl (hseen i hmem)
        obtain ⟨l, hl⟩ := ih (i :: seen) j (fun k hk => hi k (.head hlink hk))
          (List.nodup_cons.mpr ⟨hnew, hnodup⟩) (List.cons_subset.mpr ⟨hdom i j hnext, hsub⟩)
          (List.forall_mem_cons.mpr ⟨.single hlink, fun k hk => (hseen k hk).tail hlink⟩)
          (by rw [List.length_cons]; omega)
        exact ⟨i :: l, .cons (hnext ▸ hl)⟩
  exact hwalk dom.length [] i h List.nodup_nil (List.nil_subset _) (by simp) (by simp)

/-- All nodes but the last one are linked. -/
theorem Chain.length_le {dom : List ν} (hdom : ∀ i j, next i = some j → i ∈ dom)
    (h : Chain next o l) : l.length ≤ dom.length + 1 := by
  have hlinked : l.dropLast ⊆ dom := by
    induction h with
    | nil => exact List.nil_subset _
    | @cons i l h ih =>
      cases l with
      | nil => exact List.nil_subset _
      | cons j l =>
        rw [List.dropLast_cons_cons]
        exact List.cons_subset.mpr ⟨hdom i j h.start, ih⟩
  have hle := (List.subperm_of_subset (h.nodup.sublist (List.dropLast_sublist l)) hlinked).length_le
  rw [List.length_dropLast] at hle
  omega

section Lists

variable {κ : Type*} {start start' : κ → Option ν} {used used' : ν → Prop} {list : κ → List ν}
  {a b : κ} {la lb : List ν}

/-- The lists of a heap; each node that is used is in exactly one of them. -/
structure Lists (next : ν → Option ν) (start : κ → Option ν) (used : ν → Prop)
    (list : κ → List ν) : Prop where
  chain : ∀ k, Chain next (start k) (list k)
  mem_used : ∀ k, ∀ i ∈ list k, used i
  alone : ∀ i, used i → ∃! k, i ∈ list k

theorem Lists.eq_of_mem (h : Lists next start used list) (ha : i ∈ list a) (hb : i ∈ list b) :
    a = b := by
  obtain ⟨k, -, hk⟩ := h.alone i (h.mem_used a i ha)
  rw [hk a ha, hk b hb]

theorem Lists.disjoint (h : Lists next start used list) (hne : a ≠ b) :
    List.Disjoint (list a) (list b) := by
  intro j ha hb
  exact hne (h.eq_of_mem ha hb)

variable [DecidableEq κ]

/-- Nodes go from one list to another one, and the links of other lists stay. -/
theorem Lists.move (h : Lists next start used list) (hne : a ≠ b)
    (ha : Chain next' (start' a) la) (hb : Chain next' (start' b) lb)
    (hmem : ∀ i, i ∈ la ∨ i ∈ lb ↔ i ∈ list a ∨ i ∈ list b) (hdis : List.Disjoint la lb)
    (hstart : ∀ k, k ≠ a → k ≠ b → start' k = start k)
    (hnext : ∀ j, j ∉ list a → j ∉ list b → next' j = next j) :
    Lists next' start' used (Function.update (Function.update list a la) b lb) := by
  have hb' : Function.update (Function.update list a la) b lb b = lb := Function.update_self ..
  have ha' : Function.update (Function.update list a la) b lb a = la := by
    rw [Function.update_of_ne hne, Function.update_self]
  have hother : ∀ k, k ≠ a → k ≠ b →
      Function.update (Function.update list a la) b lb k = list k := by
    intro k hka hkb
    rw [Function.update_of_ne hkb, Function.update_of_ne hka]
  generalize Function.update (Function.update list a la) b lb = list' at ha' hb' hother ⊢
  subst ha' hb'
  -- the nodes of the two lists are the same ones as before
  have hpair : ∀ i k, i ∈ list k → (i ∈ list' a ∨ i ∈ list' b ↔ k = a ∨ k = b) := by
    intro i k hk
    rw [hmem]
    constructor
    · rintro (hi | hi)
      · exact Or.inl (h.eq_of_mem hk hi)
      · exact Or.inr (h.eq_of_mem hk hi)
    · rintro (rfl | rfl)
      · exact Or.inl hk
      · exact Or.inr hk
  have hused : ∀ k, ∀ i ∈ list' k, used i := by
    intro k i hi
    by_cases hk : k = a ∨ k = b
    · have hold : i ∈ list a ∨ i ∈ list b := by
        apply (hmem i).mp
        rcases hk with rfl | rfl
        · exact Or.inl hi
        · exact Or.inr hi
      exact hold.elim (h.mem_used a i) (h.mem_used b i)
    · obtain ⟨hka, hkb⟩ := not_or.mp hk
      exact h.mem_used k i (hother k hka hkb ▸ hi)
  refine ⟨fun k => ?_, hused, fun i hi => ?_⟩
  · by_cases hkb : k = b
    · exact hkb ▸ hb
    by_cases hka : k = a
    · exact hka ▸ ha
    rw [hother k hka hkb, hstart k hka hkb]
    apply (h.chain k).congr
    intro j hj
    exact hnext j (fun hja => h.disjoint hka hj hja) (fun hjb => h.disjoint hkb hj hjb)
  · obtain ⟨k, hk, -⟩ := h.alone i hi
    by_cases hmoved : i ∈ list' a ∨ i ∈ list' b
    · have hin : ∀ k', i ∈ list' k' → k' = a ∨ k' = b := by
        intro k' hk'
        by_contra hk''
        obtain ⟨hka, hkb⟩ := not_or.mp hk''
        exact hk'' ((hpair i k' (hother k' hka hkb ▸ hk')).mp hmoved)
      rcases hmoved with hla | hlb
      · refine ⟨a, hla, fun k' hk' => (hin k' hk').resolve_right ?_⟩
        rintro rfl
        exact hdis hla hk'
      · refine ⟨b, hlb, fun k' hk' => (hin k' hk').resolve_left ?_⟩
        rintro rfl
        exact hdis hk' hlb
    · obtain ⟨hka, hkb⟩ := not_or.mp (mt (hpair i k hk).mpr hmoved)
      have hk' : i ∈ list' k := by
        rw [hother k hka hkb]
        exact hk
      refine ⟨k, hk', fun k'' (hk'' : i ∈ list' k'') => ?_⟩
      have hne' : ¬ (k'' = a ∨ k'' = b) := by
        rintro (rfl | rfl)
        · exact hmoved (Or.inl hk'')
        · exact hmoved (Or.inr hk'')
      obtain ⟨hka', hkb'⟩ := not_or.mp hne'
      rw [hother k'' hka' hkb'] at hk''
      exact h.eq_of_mem hk'' hk

/-- New nodes make a list that was empty. -/
theorem Lists.grow (h : Lists next start used list) (hempty : list a = [])
    (ha : Chain next' (start' a) la) (hnew : ∀ i ∈ la, ¬ used i)
    (hused : ∀ i, used' i ↔ used i ∨ i ∈ la) (hstart : ∀ k, k ≠ a → start' k = start k)
    (hnext : ∀ j, used j → next' j = next j) :
    Lists next' start' used' (Function.update list a la) := by
  have ha' : Function.update list a la a = la := Function.update_self ..
  have hother : ∀ k, k ≠ a → Function.update list a la k = list k := fun k hka =>
    Function.update_of_ne hka ..
  generalize Function.update list a la = list' at ha' hother ⊢
  subst ha'
  refine ⟨fun k => ?_, fun k i hi => ?_, fun i hi => ?_⟩
  · by_cases hka : k = a
    · exact hka ▸ ha
    rw [hother k hka, hstart k hka]
    exact (h.chain k).congr fun j hj => hnext j (h.mem_used k j hj)
  · rw [hused]
    by_cases hka : k = a
    · exact Or.inr (hka ▸ hi)
    · exact Or.inl (h.mem_used k i (hother k hka ▸ hi))
  · by_cases hla : i ∈ list' a
    · refine ⟨a, hla, fun k (hk : i ∈ list' k) => ?_⟩
      by_contra hka
      exact hnew i hla (h.mem_used k i (hother k hka ▸ hk))
    · obtain ⟨k, hk, -⟩ := h.alone i (((hused i).mp hi).resolve_right hla)
      have hka : k ≠ a := by
        rintro rfl
        rw [hempty] at hk
        exact List.not_mem_nil hk
      have hk' : i ∈ list' k := by
        rw [hother k hka]
        exact hk
      refine ⟨k, hk', fun k'' (hk'' : i ∈ list' k'') => ?_⟩
      have hka' : k'' ≠ a := by
        rintro rfl
        exact hla hk''
      rw [hother k'' hka'] at hk''
      exact h.eq_of_mem hk'' hk

end Lists

end XsServer.Lib
