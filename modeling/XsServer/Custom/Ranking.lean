import XsServer.Custom.Sort
import XsServer.Lib.Run
import Mathlib.Algebra.Ring.Int.Defs
import Mathlib.Order.Lattice

/-! The leaderboard of `ranking.lua`.  Its entries are tables, to which both the list and the map
have references. -/

namespace XsServer.Custom

section Tables

variable {κ : Type*}

theorem sortInsert_pairwise {α : Type*} [LinearOrder α] {comp : κ → κ → Bool} {score : κ → α}
    (hcomp : ∀ a b, comp a b = true ↔ score b < score a) (new : κ) {arr : List κ}
    (h : arr.Pairwise fun a b => score b ≤ score a) :
    (sortInsert comp new arr).Pairwise fun a b => score b ≤ score a := by
  have hfalse : ∀ a b, comp b a = false ↔ score b ≤ score a := by
    intro a b
    rw [← Bool.not_eq_true, hcomp, not_lt]
  have hstrict : IsStrictOrder κ fun a b => comp a b = true :=
    { irrefl := fun a => by rw [hcomp]; exact lt_irrefl _
      trans := fun a b c => by rw [hcomp, hcomp, hcomp]; exact fun hab hbc => hbc.trans hab }
  refine (sortInsert_ordered hstrict new (h.imp fun {a b} => (hfalse a b).mpr)).imp ?_
  exact fun {a b} => (hfalse a b).mp

variable [DecidableEq κ]

/-- `search.traverse` of an array: the first position, which counts from 1. -/
def searchTraverse (arry : List κ) (val : κ) : Option Nat := (arry.idxOf? val).map (· + 1)

/-- `table.remove`, which removes the last element when the position is `nil`. -/
def tableRemove (lis : List κ) : Option Nat → List κ
  | some pos => lis.eraseIdx (pos - 1)
  | none => lis.dropLast

theorem tableRemove_traverse {arry : List κ} {val : κ} (h : val ∈ arry) :
    tableRemove arry (searchTraverse arry val) = arry.erase val := by
  rw [List.erase_eq_eraseIdx, searchTraverse]
  cases hidx : arry.idxOf? val with
  | none => exact absurd h (List.idxOf?_eq_none_iff.mp hidx)
  | some i => rfl

end Tables

/-- `rank` -/
structure Rank (ι α : Type*) where
  iden : ι
  score : α
  deriving DecidableEq

/-- The tables of the entries, `_lis`, `_map`, `_max` and `_min`, and the first reference that no
table has. -/
structure Ranking (ι α : Type*) where
  max : Nat
  mem : Nat → Rank ι α
  lis : List Nat
  map : ι → Option Nat
  min : α
  next : Nat

namespace Ranking

variable {ι α : Type*} [LinearOrder α]

def new [Zero α] (mem : Nat → Rank ι α) (max : Nat) : Ranking ι α :=
  ⟨max, mem, [], fun _ => none, 0, 0⟩

def setMinScore (r : Ranking ι α) (score : α) : Ranking ι α := { r with min := score }

def comp (mem : Nat → Rank ι α) (a b : Nat) : Bool := (mem b).score < (mem a).score

theorem comp_iff (mem : Nat → Rank ι α) (a b : Nat) :
    comp mem a b = true ↔ (mem b).score < (mem a).score := decide_eq_true_iff

variable [DecidableEq ι]

def update (r : Ranking ι α) (iden : ι) (score : α) : Ranking ι α :=
  if score < r.min then r
  else
    match r.map iden with
    | none =>
      let mem := Function.update r.mem r.next ⟨iden, score⟩
      { r with
        mem
        map := Function.update r.map iden (some r.next)
        lis := sortInsert (comp mem) r.next r.lis
        next := r.next + 1 }
    | some inf =>
      let mem := Function.update r.mem inf { r.mem inf with score }
      { r with
        mem
        lis := sortInsert (comp mem) inf (tableRemove r.lis (searchTraverse r.lis inf)) }

def remove (r : Ranking ι α) (iden : ι) : Ranking ι α :=
  match r.map iden with
  | none => r
  | some inf =>
    { r with
      map := Function.update r.map iden none
      lis := tableRemove r.lis (searchTraverse r.lis inf) }

inductive Op (ι α : Type*)
  | setMinScore (score : α)
  | update (iden : ι) (score : α)
  | remove (iden : ι)

/-- The leaderboard after a call; none of them returns anything. -/
def call (r : Ranking ι α) : Op ι α → Ranking ι α × Unit
  | .setMinScore score => (r.setMinScore score, ())
  | .update iden score => (r.update iden score, ())
  | .remove iden => (r.remove iden, ())

def entries (r : Ranking ι α) : List (Rank ι α) := r.lis.map r.mem

def entry (r : Ranking ι α) (iden : ι) : Option (Rank ι α) := (r.map iden).map r.mem

/-- What the calls say: the minimum in force, and the last score of each that was not below it. -/
structure Scores (ι α : Type*) where
  min : α
  last : ι → Option α

def Scores.call (s : Scores ι α) : Op ι α → Scores ι α
  | .setMinScore score => { s with min := score }
  | .update iden score =>
    if score < s.min then s else { s with last := Function.update s.last iden (some score) }
  | .remove _ => s

def Scores.of [Zero α] (ops : List (Op ι α)) : Scores ι α :=
  ops.foldl Scores.call ⟨0, fun _ => none⟩

structure Correct [Zero α] (ops : List (Op ι α)) (r : Ranking ι α) : Prop where
  sorted : r.entries.Pairwise fun a b => b.score ≤ a.score
  once : (r.entries.map Rank.iden).Nodup
  same : ∀ iden rank, r.entry iden = some rank ↔ rank ∈ r.entries ∧ rank.iden = iden
  bounded : r.entries.length ≤ r.max
  last : ∀ rank ∈ r.entries, (Scores.of ops).last rank.iden = some rank.score

def Room (r : Ranking ι α) (op : Op ι α) : Prop :=
  ∀ iden score, op = .update iden score → ¬ score < r.min → r.map iden = none →
    r.lis.length < r.max

/-! ### The invariant -/

structure Inv [Zero α] (ops : List (Op ι α)) (r : Ranking ι α) : Prop where
  nodup : r.lis.Nodup
  fresh : ∀ inf ∈ r.lis, inf < r.next
  map : ∀ iden inf, r.map iden = some inf ↔ inf ∈ r.lis ∧ (r.mem inf).iden = iden
  sorted : r.lis.Pairwise fun a b => (r.mem b).score ≤ (r.mem a).score
  min : (Scores.of ops).min = r.min
  last : ∀ inf ∈ r.lis, (Scores.of ops).last (r.mem inf).iden = some (r.mem inf).score
  bounded : r.lis.length ≤ r.max

variable [Zero α] {ops : List (Op ι α)} {r : Ranking ι α}

theorem Scores.of_snoc (ops : List (Op ι α)) (op : Op ι α) :
    Scores.of (ops ++ [op]) = (Scores.of ops).call op := by
  rw [Scores.of, List.foldl_append]
  rfl

theorem Inv.new (mem : Nat → Rank ι α) (max : Nat) : Inv [] (Ranking.new mem max) where
  nodup := .nil
  fresh := by simp [Ranking.new]
  map := by simp [Ranking.new]
  sorted := .nil
  min := rfl
  last := by simp [Ranking.new]
  bounded := Nat.zero_le _

theorem Inv.correct (hi : Inv ops r) : Correct ops r where
  sorted := List.pairwise_map.mpr hi.sorted
  once := by
    rw [entries, List.map_map]
    refine hi.nodup.map_on fun a ha b hb hab => ?_
    have hmap := (hi.map _ a).mpr ⟨ha, rfl⟩
    rw [show (r.mem a).iden = (r.mem b).iden from hab, (hi.map _ b).mpr ⟨hb, rfl⟩] at hmap
    exact (Option.some.inj hmap).symm
  same iden rank := by
    rw [entry, entries, Option.map_eq_some_iff, List.mem_map]
    constructor
    · rintro ⟨inf, hinf, rfl⟩
      obtain ⟨hmem, hiden⟩ := (hi.map iden inf).mp hinf
      exact ⟨⟨inf, hmem, rfl⟩, hiden⟩
    · rintro ⟨⟨inf, hmem, rfl⟩, hiden⟩
      exact ⟨inf, (hi.map iden inf).mpr ⟨hmem, hiden⟩, rfl⟩
  bounded := by
    rw [entries, List.length_map]
    exact hi.bounded
  last := by
    intro rank hrank
    obtain ⟨inf, hinf, rfl⟩ := List.mem_map.mp hrank
    exact hi.last inf hinf

theorem Inv.put (hi : Inv ops r) (iden : ι) (score : α) {inf : Nat} (lis : List Nat) (next : Nat)
    (hscore : ¬ score < r.min) (hlis : lis.Nodup) (hnot : inf ∉ lis)
    (hrest : ∀ a ∈ lis, a ∈ r.lis ∧ (r.mem a).iden ≠ iden)
    (hall : ∀ a ∈ r.lis, a ∈ lis ∨ (r.mem a).iden = iden)
    (hsub : lis.Sublist r.lis) (hnext : r.next ≤ next) (hinf : inf < next)
    (hroom : lis.length < r.max) :
    Inv (ops ++ [.update iden score])
      { r with
        mem := Function.update r.mem inf ⟨iden, score⟩
        map := Function.update r.map iden (some inf)
        lis := sortInsert (comp (Function.update r.mem inf ⟨iden, score⟩)) inf lis
        next := next } := by
  have hperm := sortInsert_perm (comp (Function.update r.mem inf ⟨iden, score⟩)) inf lis
  have hmem : ∀ a, a ∈ sortInsert (comp (Function.update r.mem inf ⟨iden, score⟩)) inf lis ↔
      a = inf ∨ a ∈ lis := fun a => hperm.mem_iff.trans List.mem_cons
  have hold : ∀ a ∈ lis, Function.update r.mem inf ⟨iden, score⟩ a = r.mem a := fun a ha =>
    Function.update_of_ne (ne_of_mem_of_not_mem ha hnot) _ _
  have hof : Scores.of (ops ++ [.update iden score]) =
      { Scores.of ops with last := Function.update (Scores.of ops).last iden (some score) } := by
    rw [Scores.of_snoc, Scores.call, if_neg (by rwa [hi.min])]
  constructor
  · exact hperm.nodup_iff.mpr (List.nodup_cons.mpr ⟨hnot, hlis⟩)
  · intro a ha
    obtain rfl | ha := (hmem a).mp ha
    · exact hinf
    · exact (hi.fresh a (hrest a ha).1).trans_le hnext
  · intro iden' a
    simp only [hmem]
    by_cases hiden : iden' = iden
    · subst hiden
      rw [Function.update_self]
      constructor
      · rintro ⟨⟩
        exact ⟨.inl rfl, by rw [Function.update_self]⟩
      · rintro ⟨rfl | ha, hiden⟩
        · rfl
        · rw [hold a ha] at hiden
          exact absurd hiden (hrest a ha).2
    · rw [Function.update_of_ne hiden, hi.map]
      constructor
      · rintro ⟨ha, rfl⟩
        have ha' := (hall a ha).resolve_right hiden
        exact ⟨.inr ha', by rw [hold a ha']⟩
      · rintro ⟨rfl | ha, hiden'⟩
        · rw [Function.update_self] at hiden'
          exact absurd hiden'.symm hiden
        · rw [hold a ha] at hiden'
          exact ⟨(hrest a ha).1, hiden'⟩
  · refine sortInsert_pairwise (comp_iff _) inf ?_
    refine (hi.sorted.sublist hsub).imp_of_mem fun ha hb h => ?_
    simp only [hold _ ha, hold _ hb]
    exact h
  · rw [hof]
    exact hi.min
  · intro a ha
    rw [hof]
    obtain rfl | ha := (hmem a).mp ha
    · simp only [Function.update_self]
    · simp only [hold a ha, Function.update_of_ne (hrest a ha).2]
      exact hi.last a (hrest a ha).1
  · rw [hperm.length_eq, List.length_cons]
    exact hroom

theorem Inv.update (hi : Inv ops r) {iden : ι} {score : α} (hroom : Room r (.update iden score)) :
    Inv (ops ++ [.update iden score]) (r.update iden score) := by
  rw [Ranking.update]
  split
  case isTrue hlt =>
    have hof : Scores.of (ops ++ [.update iden score]) = Scores.of ops := by
      rw [Scores.of_snoc, Scores.call, if_pos (by rwa [hi.min])]
    exact { hi with
      min := hof ▸ hi.min
      last := hof ▸ hi.last }
  case isFalse hlt =>
    split
    case h_1 hnone =>
      refine hi.put iden score r.lis _ hlt hi.nodup ?_ (fun a ha => ⟨ha, fun hiden => ?_⟩)
        (fun a ha => .inl ha)
        (.refl _) (Nat.le_succ _) (Nat.lt_succ_self _) (hroom iden score rfl hlt hnone)
      · exact fun hmem => Nat.lt_irrefl _ (hi.fresh _ hmem)
      · rw [(hi.map iden a).mpr ⟨ha, hiden⟩] at hnone
        cases hnone
    case h_2 inf hsome =>
      obtain ⟨hinf, rfl⟩ := (hi.map iden inf).mp hsome
      have hother : ∀ a ∈ r.lis, a ≠ inf → (r.mem a).iden ≠ (r.mem inf).iden := by
        intro a ha hne hiden
        rw [(hi.map _ a).mpr ⟨ha, hiden⟩] at hsome
        exact hne (Option.some.inj hsome)
      have hput := hi.put (r.mem inf).iden score (r.lis.erase inf) r.next hlt (hi.nodup.erase inf)
        hi.nodup.not_mem_erase
        (fun a ha => ⟨List.mem_of_mem_erase ha, hother a (List.mem_of_mem_erase ha)
          (ne_of_mem_of_not_mem ha hi.nodup.not_mem_erase)⟩)
        (fun a ha => ?_) List.erase_sublist (Nat.le_refl _) (hi.fresh inf hinf) ?_
      · rw [tableRemove_traverse hinf]
        have hmap : Function.update r.map (r.mem inf).iden (some inf) = r.map :=
          Function.update_eq_self_iff.mpr hsome.symm
        rw [hmap] at hput
        exact hput
      · by_cases hne : a = inf
        · exact .inr (by rw [hne])
        · exact .inl ((List.mem_erase_of_ne hne).mpr ha)
      · have hpos := List.length_pos_of_mem hinf
        have hlen := List.length_erase_of_mem hinf
        have := hi.bounded
        omega

theorem Inv.remove (hi : Inv ops r) (iden : ι) : Inv (ops ++ [.remove iden]) (r.remove iden) := by
  have hof : Scores.of (ops ++ [.remove iden]) = Scores.of ops := by
    rw [Scores.of_snoc, Scores.call]
  rw [Ranking.remove]
  split
  case h_1 =>
    exact { hi with
      min := hof ▸ hi.min
      last := hof ▸ hi.last }
  case h_2 inf hsome =>
    obtain ⟨hinf, rfl⟩ := (hi.map iden inf).mp hsome
    rw [tableRemove_traverse hinf]
    have hsub : (r.lis.erase inf).Sublist r.lis := List.erase_sublist
    constructor
    · exact hi.nodup.erase inf
    · exact fun a ha => hi.fresh a (hsub.subset ha)
    · intro iden' a
      by_cases hiden : iden' = (r.mem inf).iden
      · subst hiden
        simp only [Function.update_self, reduceCtorEq, false_iff]
        rintro ⟨ha, hiden⟩
        rw [(hi.map _ a).mpr ⟨List.mem_of_mem_erase ha, hiden⟩] at hsome
        obtain rfl := Option.some.inj hsome
        exact hi.nodup.not_mem_erase ha
      · simp only [Function.update_of_ne hiden, hi.map]
        constructor
        · rintro ⟨ha, rfl⟩
          exact ⟨(List.mem_erase_of_ne fun h => hiden (by rw [h])).mpr ha, rfl⟩
        · rintro ⟨ha, rfl⟩
          exact ⟨List.mem_of_mem_erase ha, rfl⟩
    · exact hi.sorted.sublist hsub
    · exact hof ▸ hi.min
    · exact hof ▸ fun a ha => hi.last a (hsub.subset ha)
    · exact hsub.length_le.trans hi.bounded

theorem Inv.call (hi : Inv ops r) {op : Op ι α} (hroom : Room r op) :
    Inv (ops ++ [op]) (r.call op).1 := by
  cases op with
  | setMinScore score =>
    have hof : Scores.of (ops ++ [.setMinScore score]) = { Scores.of ops with min := score } := by
      rw [Scores.of_snoc, Scores.call]
    exact { hi with
      min := by rw [hof]; rfl
      last := by rw [hof]; exact hi.last }
  | update iden score => exact hi.update hroom
  | remove iden => exact hi.remove iden

theorem too_long {op : Op ι α} (hroom : ¬ Room r op) : ¬ Correct ops (r.call op).1 := by
  intro hcorrect
  refine hroom fun iden score hop hlt hnone => ?_
  have hlen := hcorrect.bounded
  rw [hop, Ranking.call, Ranking.update, if_neg hlt, hnone, entries, List.length_map,
    (sortInsert_perm _ _ _).length_eq, List.length_cons] at hlen
  exact hlen

/-- The leaderboard is correct after each of the calls if and only if none of them enters somebody
new in a full list. -/
theorem leaderboard_iff (mem : Nat → Rank ι α) (max : Nat) (ops : List (Op ι α)) :
    (∀ pre, pre <+: ops → Correct pre (Lib.after call (new mem max) pre)) ↔
      Lib.Along call Room (new mem max) ops :=
  Lib.along_iff (Inv.new mem max) (fun _ _ _ hi hroom => hi.call hroom)
    (fun _ _ hi => hi.correct) (fun _ _ _ _ hroom => too_long hroom) ops

/-- Two players on a leaderboard of one. -/
theorem leaderboard_of_one :
    (Lib.after call (new (fun _ => ⟨0, 0⟩) 1) [.update 7 50, .update 8 60]).entries =
        [(⟨8, 60⟩ : Rank Nat Int), ⟨7, 50⟩] ∧
      ¬ ∀ pre, pre <+: [.update 7 50, .update 8 60] →
        Correct pre (Lib.after call (new (fun _ => (⟨0, 0⟩ : Rank Nat Int)) 1) pre) := by
  refine ⟨rfl, fun h => ?_⟩
  exact absurd (h _ (List.prefix_refl _)).bounded (by decide)

end Ranking

end XsServer.Custom
