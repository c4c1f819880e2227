import XsServer.Lib.Run
import Mathlib.Data.List.Perm.Basic
import Mathlib.Order.Lattice

/-! The heap of `heap.lua` and the free list of `reusable.lua`.  Nodes are tables: the heap has
references to them, and a table that was removed is given out again.  The loops of `upward` and
`downward` return, the list has the same nodes after them, and the first one changes only as the
comparison with it says. -/

namespace XsServer.Custom

variable {α δ : Type*} [LinearOrder α]

/-- `heapNode` -/
structure Node (α δ : Type*) where
  ticks : α
  auto : Int
  data : δ
  deriving DecidableEq

/-- `default_compare`, of the ticks of two nodes -/
def defaultCompare (a b : α) : Int := if b < a then 1 else if a < b then -1 else 0

/-- The element at a position, which counts from 1; a position that is looked at is in the list. -/
def at1 (list : List Nat) (pos node : Nat) : Nat := list.getD (pos - 1) node

def put (list : List Nat) (pos node : Nat) : List Nat := list.set (pos - 1) node

@[simp] theorem put_length (list : List Nat) (pos node : Nat) :
    (put list pos node).length = list.length := List.length_set

/-- `uos` of a round of `upward`: the left neighbour of an odd position, or the position above. -/
def uos (key : Nat → α) (node : Nat) (list : List Nat) (pos : Nat) : Nat :=
  if pos % 2 = 1 ∧ defaultCompare (key node) (key (at1 list (pos - 1) node)) = -1 then pos - 1
  else pos / 2

/-- The loop of `upward`, with the node that it carries. -/
def upward (key : Nat → α) (node : Nat) (list : List Nat) (pos : Nat) : List Nat :=
  if 1 < pos then
    if defaultCompare (key node) (key (at1 list (uos key node list pos) node)) ≠ -1 then
      put list pos node
    else
      upward key node (put list pos (at1 list (uos key node list pos) node))
        (uos key node list pos)
  else put list pos node
termination_by pos
decreasing_by
  unfold uos
  split <;> omega

/-- `los` of a round of `downward`: the right one of the positions below, or the left one. -/
def los (key : Nat → α) (node : Nat) (list : List Nat) (pos : Nat) : Nat :=
  if pos * 2 ≤ list.length ∧ defaultCompare (key node) (key (at1 list (pos * 2) node)) = 1 then
    pos * 2
  else pos * 2 - 1

/-- The loop of `downward`, with the node that it carries; `none` is a loop that never ends, at a
position 1 that does not have the node. -/
def downward (key : Nat → α) (node : Nat) (list : List Nat) (pos : Nat) : Option (List Nat) :=
  if pos < list.length then
    if list.length < pos * 2 - 1 then some (put list pos node)
    else if defaultCompare (key node) (key (at1 list (los key node list pos) node)) ≠ 1 then
      some (put list pos node)
    else if pos < los key node list pos then
      downward key node (put list pos (at1 list (los key node list pos) node))
        (los key node list pos)
    else none
  else some (put list pos node)
termination_by list.length - pos
decreasing_by
  simp only [put_length]
  omega

/-- The tables of the nodes, `_list` and `_store`, the last number of `_fauto`, and the first
reference that no table has. -/
structure Heap (α δ : Type*) where
  mem : Nat → Node α δ
  list : List Nat
  store : List Nat
  auto : Nat
  next : Nat

namespace Heap

/-- A heap after `ctor`; `mem` has no table yet. -/
def new (mem : Nat → Node α δ) : Heap α δ := ⟨mem, [], [], 0, 0⟩

def key (h : Heap α δ) (r : Nat) : α := (h.mem r).ticks

/-- `list[pos]` -/
def node? (h : Heap α δ) (pos : Int) : Option Nat :=
  if 0 < pos then h.list[pos.toNat - 1]? else none

/-- `reusable:get` -/
def get (h : Heap α δ) : Nat × Heap α δ :=
  match h.store.getLast? with
  | some r => (r, { h with store := h.store.dropLast })
  | none => (h.next, { h with next := h.next + 1 })

def write (h : Heap α δ) (r : Nat) (n : Node α δ) : Heap α δ :=
  { h with mem := Function.update h.mem r n }

def insert (h : Heap α δ) (r : Nat) : Heap α δ :=
  { h with list := upward h.key r (h.list ++ [r]) (h.list ++ [r]).length }

def append (h : Heap α δ) (ticks : α) (data : δ) : Int × Heap α δ :=
  let auto := h.auto + 1
  let (r, h) := ({ h with auto } : Heap α δ).get
  (auto, (h.write r ⟨ticks, auto, data⟩).insert r)

def appendBy (h : Heap α δ) (ticks : α) (auto : Int) (data : δ) : Int × Heap α δ :=
  let (r, h) := h.get
  (auto, (h.write r ⟨ticks, auto, data⟩).insert r)

/-- `upward` at a position -/
def up (h : Heap α δ) (pos : Nat) : Heap α δ :=
  match h.node? pos with
  | some r => { h with list := upward h.key r h.list pos }
  | none => h

/-- `downward` at a position -/
def down (h : Heap α δ) (pos : Nat) : Option (Heap α δ) :=
  match h.node? pos with
  | some r => (downward h.key r h.list pos).map fun list => { h with list }
  | none => some h

def adjust (h : Heap α δ) (pos : Nat) : Option (Heap α δ) := (h.up pos).down pos

def adjustByFirst (h : Heap α δ) : Option (Heap α δ) := h.adjust 1

/-- The position of the first node with the identifier. -/
def search (h : Heap α δ) (auto : Int) : Option Nat :=
  (h.list.findIdx? fun r => (h.mem r).auto = auto).map (· + 1)

def setTicks (h : Heap α δ) (r : Nat) (ticks : α) : Heap α δ :=
  h.write r { h.mem r with ticks }

def adjustBy (h : Heap α δ) (auto : Int) (ticks : α) : Option (Heap α δ) :=
  match h.search auto with
  | some pos =>
    match h.node? pos with
    | some r => (h.setTicks r ticks).adjust pos
    | none => some h
  | none => some h

def reder (h : Heap α δ) : Option Nat := h.list.head?

def delete (h : Heap α δ) (pos : Int) : Option (Option Nat × Heap α δ) :=
  match h.node? pos with
  | some r =>
    let list := h.list.dropLast
    let last := h.list.getLastD r
    if pos ≤ list.length then
      (({ h with list := put list pos.toNat last } : Heap α δ).down pos.toNat).map fun h =>
        (some r, { h with store := h.store ++ [r] })
    else some (some r, { h with list, store := h.store ++ [r] })
  | none => some (none, h)

def fetch (h : Heap α δ) : Option (Option Nat × Heap α δ) := h.delete 1

def deleteBy (h : Heap α δ) (auto : Int) : Option (Option Nat × Heap α δ) :=
  match h.search auto with
  | some pos => h.delete pos
  | none => some (none, h)

def clear (h : Heap α δ) : Heap α δ := { h with list := [] }

end Heap

variable {key : Nat → α} {list : List Nat} {node pos p q v : Nat}

theorem defaultCompare_eq_one {a b : α} : defaultCompare a b = 1 ↔ b < a := by
  unfold defaultCompare
  split
  · simp [*]
  · split <;> simp [*]

theorem defaultCompare_eq_neg_one {a b : α} : defaultCompare a b = -1 ↔ a < b := by
  unfold defaultCompare
  split
  case isTrue h => simp [not_lt_of_gt h]
  case isFalse =>
    split <;> simp [*]

theorem at1_eq (h : pos - 1 < list.length) : at1 list pos node = list[pos - 1] :=
  (List.getElem_eq_getD node).symm

theorem put_put_perm (hp : 1 ≤ p) (hple : p ≤ list.length) (hq : 1 ≤ q) (hqle : q ≤ list.length)
    (hne : p ≠ q) : (put (put list p (at1 list q node)) q v).Perm (put list p v) := by
  have hpi : p - 1 < list.length := by omega
  have hqi : q - 1 < list.length := by omega
  have hqi' : q - 1 < (list.set (p - 1) list[q - 1]).length := by
    rw [List.length_set]
    exact hqi
  rw [at1_eq hqi]
  apply List.perm_iff_count.mpr
  intro c
  have hsame : (list.set (p - 1) list[q - 1])[q - 1] = list[q - 1] := by
    rw [List.getElem_set_ne (by omega)]
  have hcount := List.count_pos_iff (a := list[p - 1]) (l := list)
  have hmem : list[p - 1] ∈ list := List.getElem_mem hpi
  unfold put
  rw [List.count_set hqi', List.count_set hpi, List.count_set hpi, hsame]
  by_cases hc : list[p - 1] = c
  · subst hc
    have := hcount.mpr hmem
    simp
  · simp [hc]

theorem head?_put (list : List Nat) (node : Nat) (hpos : pos ≠ 1) (h0 : 1 ≤ pos) :
    (put list pos node).head? = list.head? := by
  obtain ⟨k, rfl⟩ : ∃ k, pos = k + 2 := ⟨pos - 2, by omega⟩
  cases list <;> rfl

theorem head?_put_one (h : list ≠ []) : (put list 1 node).head? = some node := by
  cases list with
  | nil => exact absurd rfl h
  | cons a rest => rfl

theorem uos_lt (key : Nat → α) (node : Nat) (list : List Nat) (h : 1 < pos) :
    uos key node list pos < pos := by
  unfold uos
  split <;> omega

theorem uos_pos (key : Nat → α) (node : Nat) (list : List Nat) (h : 1 < pos) :
    1 ≤ uos key node list pos := by
  unfold uos
  split <;> omega

theorem upward_perm (hpos : 1 ≤ pos) (hle : pos ≤ list.length) :
    (upward key node list pos).Perm (put list pos node) := by
  fun_induction upward key node list pos with
  | case1 list pos h hstop => exact List.Perm.refl _
  | case2 list pos h hgo ih =>
    have hlt := uos_lt key node list h
    have h1 := uos_pos key node list h
    refine (ih h1 (by rw [put_length]; omega)).trans ?_
    exact put_put_perm hpos hle h1 (by omega) (by omega)
  | case3 list pos h => exact List.Perm.refl _

theorem upward_head? (hpos : 2 ≤ pos) (hle : pos ≤ list.length)
    (h : ∀ r ∈ list.head?, key r ≤ key node) :
    (upward key node list pos).head? = list.head? := by
  fun_induction upward key node list pos with
  | case1 list pos hlt hstop => exact head?_put _ _ (by omega) (by omega)
  | case2 list pos hlt hgo ih =>
    have hbelow := uos_lt key node list hlt
    have h1 := uos_pos key node list hlt
    have hhead := head?_put list (at1 list (uos key node list pos) node) (show pos ≠ 1 by omega)
      (by omega)
    have hless := defaultCompare_eq_neg_one.mp (not_ne_iff.mp hgo)
    -- the first position is not compared, or the node would be below it
    have hne : uos key node list pos ≠ 1 := by
      intro h1'
      rw [h1'] at hless
      have hmem : at1 list 1 node ∈ list.head? := by
        cases list with
        | nil => simp at hle; omega
        | cons a rest => rfl
      exact absurd hless (not_lt_of_ge (h _ hmem))
    rw [ih (by omega) (by rw [put_length]; omega) (by rw [hhead]; exact h), hhead]
  | case3 list pos hlt => omega

theorem upward_head?_of_lt (hpos : 1 ≤ pos) (hle : pos ≤ list.length)
    (h : ∀ i (hi : i < list.length), i ≠ pos - 1 → key node < key list[i]) :
    (upward key node list pos).head? = some node := by
  fun_induction upward key node list pos with
  | case1 list pos hlt hstop =>
    have hbelow := uos_lt key node list hlt
    have h1 := uos_pos key node list hlt
    refine absurd (defaultCompare_eq_neg_one.mpr ?_) hstop
    rw [at1_eq (by omega)]
    exact h _ _ (by omega)
  | case2 list pos hlt hgo ih =>
    have hbelow := uos_lt key node list hlt
    have h1 := uos_pos key node list hlt
    refine ih h1 (by rw [put_length]; omega) fun i hi hne => ?_
    rw [put_length] at hi
    simp only [put, List.getElem_set]
    split
    · rw [at1_eq (by omega)]
      exact h _ _ (by omega)
    · exact h i hi (by omega)
  | case3 list pos hlt =>
    obtain rfl : pos = 1 := by omega
    exact head?_put_one (List.ne_nil_of_length_pos (by omega))

theorem los_cases (key : Nat → α) (node : Nat) (list : List Nat) (pos : Nat) :
    los key node list pos = pos * 2 ∧ pos * 2 ≤ list.length ∧
        key (at1 list (pos * 2) node) < key node ∨
      los key node list pos = pos * 2 - 1 := by
  unfold los
  split
  case isTrue h => exact Or.inl ⟨rfl, h.1, defaultCompare_eq_one.mp h.2⟩
  case isFalse => exact Or.inr rfl

theorem downward_spec (key : Nat → α) (node : Nat) (hpos : 2 ≤ pos) (hle : pos ≤ list.length) :
    ∃ list', downward key node list pos = some list' ∧ list'.Perm (put list pos node) ∧
      list'.head? = list.head? := by
  have hput : ∀ {list : List Nat} {pos : Nat}, 2 ≤ pos →
      ∃ list', some (put list pos node) = some list' ∧ list'.Perm (put list pos node) ∧
        list'.head? = list.head? :=
    fun h => ⟨_, rfl, List.Perm.refl _, head?_put _ _ (by omega) (by omega)⟩
  fun_induction downward key node list pos with
  | case1 list pos hlt hout | case2 list pos hlt hin hstop => exact hput hpos
  | case3 list pos hlt hin hgo hdown ih =>
    have hlos := los_cases key node list pos
    have hin' : los key node list pos ≤ list.length := by omega
    obtain ⟨list', hrun, hperm, hhead⟩ := ih (by omega) (by rw [put_length]; exact hin')
    refine ⟨list', hrun, hperm.trans ?_, ?_⟩
    · exact put_put_perm (by omega) hle (by omega) hin' (by omega)
    · rw [hhead]
      exact head?_put _ _ (by omega) (by omega)
  | case4 list pos hlt hin hgo hdown =>
    have hlos := los_cases key node list pos
    omega
  | case5 list pos hlt => exact hput hpos

/-- What comes to the first position: the second node or the carried one. -/
def firstOf (key : Nat → α) (node : Nat) : List Nat → Nat
  | [] => node
  | second :: _ => if key second < key node then second else node

theorem downward_first (key : Nat → α) (node : Nat) (rest : List Nat) :
    ∃ list', downward key node (node :: rest) 1 = some list' ∧ list'.Perm (node :: rest) ∧
      list'.head? = some (firstOf key node rest) := by
  cases rest with
  | nil =>
    refine ⟨[node], ?_, List.Perm.refl _, rfl⟩
    rw [downward, if_neg (by simp)]
    rfl
  | cons second rest =>
    have hlen : ¬ (node :: second :: rest).length < 1 * 2 - 1 := by simp
    rw [downward, if_pos (by simp), if_neg hlen]
    by_cases hless : key second < key node
    · have hlos : los key node (node :: second :: rest) 1 = 2 := by
        unfold los
        exact if_pos ⟨by simp, defaultCompare_eq_one.mpr hless⟩
      obtain ⟨list', hrun, hperm, hhead⟩ :=
        downward_spec key node (Nat.le_refl 2)
          (show 2 ≤ (second :: second :: rest).length by simp)
      refine ⟨list', ?_, hperm.trans (List.Perm.swap ..), ?_⟩
      · have hone : defaultCompare (key node) (key (at1 (node :: second :: rest) 2 node)) = 1 :=
          defaultCompare_eq_one.mpr hless
        rw [hlos, if_neg (not_not_intro hone), if_pos (by omega)]
        exact hrun
      · rw [hhead, firstOf, if_pos hless]
        rfl
    · have hlos : los key node (node :: second :: rest) 1 = 1 := by
        unfold los
        exact if_neg fun h => hless (defaultCompare_eq_one.mp h.2)
      refine ⟨node :: second :: rest, ?_, List.Perm.refl _, ?_⟩
      · have hone : defaultCompare (key node) (key (at1 (node :: second :: rest) 1 node)) ≠ 1 :=
          fun h => lt_irrefl _ (defaultCompare_eq_one.mp h)
        rw [hlos, if_pos hone]
        rfl
      · rw [firstOf, if_neg hless]
        rfl

end XsServer.Custom
