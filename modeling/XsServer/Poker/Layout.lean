import Mathlib.Data.List.Induction
import Mathlib.Data.List.Perm.Basic

/-! `getLayout` of `poker/algor.lua`, which counts the values of a hand.  Its tables belong to the
module: all calls have them in common. -/

namespace XsServer.Poker

inductive Fault
  /-- a comparison with `nil`, the colour of a card that has none -/
  | compare
  /-- a field of a value that is no table -/
  | index
  deriving DecidableEq

/-- What a method may be called with as its `self`: the object with its `_support_laizis`, or a card
where a dot stands for the colon. -/
inductive Self
  | algor (laizis : Int → Bool)
  | card (card : Int)

def ifRuffian : Self → Option Int → Except Fault Bool
  | .algor laizis, some mj => .ok (laizis mj)
  | .algor _, none => .ok false
  | .card _, _ => .error .index

/-- The tables from `cype1` to `cype7`. -/
structure Copies where
  singles : List Nat
  doubles : List Nat
  triples : List Nat
  tetrads : List Nat
  laizis : List Int
  pokers : List Int
  repeas : Nat → Option Nat

def Copies.init : Copies := ⟨[], [], [], [], [], [], fun _ => none⟩

/-- `table.clear(gs)` -/
def Copies.clear (c : Copies) : Copies := { c with repeas := fun _ => none }

/-- `card & 0x0f` -/
def getValue (card : Int) : Nat := (card % 16).toNat

/-- `4 > this.getColor(card)` -/
def ifGeneralCard (mapColors : Int → Option Int) (card : Int) : Except Fault Bool :=
  match mapColors card with
  | some color => .ok (color < 4)
  | none => .error .compare

def Copies.repeat (c : Copies) (val : Nat) : Copies :=
  { c with repeas := Function.update c.repeas val (some ((c.repeas val).getD 0 + 1)) }

/-- The loop over the hand, with the error that ends it. -/
def Copies.deal (mapColors : Int → Option Int) (c : Copies) : List Int → Option Fault × Copies
  | [] => (none, c)
  | card :: hands =>
    match ifGeneralCard mapColors card with
    | .error e => (some e, c)
    | .ok general =>
      let c := if general then c.repeat (getValue card) else c
      match ifRuffian (.card card) none with
      | .error e => (some e, c)
      | .ok true => { c with laizis := c.laizis ++ [card] }.deal mapColors hands
      | .ok false => { c with pokers := c.pokers ++ [card] }.deal mapColors hands

/-- `table.insert(lis,v)` when there are `n` of the value, unless it is in a list already and
values are not to be repeated. -/
def insertFrom (n : Nat) (repe : Bool) (v c : Nat) (lis : List Nat) (ist : Bool) :
    List Nat × Bool :=
  if n ≤ c then (if ¬ ist ∨ repe then lis ++ [v] else lis, true) else (lis, ist)

def Copies.place (c : Copies) (repe : Bool) (v count : Nat) : Copies :=
  let (tetrads, ist) := insertFrom 4 repe v count c.tetrads false
  let (triples, ist) := insertFrom 3 repe v count c.triples ist
  let (doubles, ist) := insertFrom 2 repe v count c.doubles ist
  let (singles, _) := insertFrom 1 repe v count c.singles ist
  { c with tetrads, triples, doubles, singles }

/-- `ipairs(maps)`: the values from 1 on that have a count; a value is at most 15. -/
def ipairsRepeas (maps : Nat → Option Nat) : List Nat :=
  (List.range' 1 15).takeWhile fun v => (maps v).isSome

def Copies.sort (c : Copies) : Copies :=
  { c with
    singles := c.singles.mergeSort
    doubles := c.doubles.mergeSort
    triples := c.triples.mergeSort
    tetrads := c.tetrads.mergeSort
    laizis := c.laizis.mergeSort
    pokers := c.pokers.mergeSort }

/-- The layout that is returned, which is the tables of the module, and the tables. -/
def getLayout (mapColors : Int → Option Int) (c : Copies) (hands : List Int) (repe : Bool) :
    Except Fault Copies × Copies :=
  match c.clear.deal mapColors hands with
  | (some e, c) => (.error e, c)
  | (none, c) =>
    let c := (ipairsRepeas c.repeas).foldl
      (fun c' v => c'.place repe v ((c.repeas v).getD 0)) c
    (.ok c.sort, c.sort)

/-- The tables after calls with these hands. -/
def after (mapColors : Int → Option Int) (history : List (List Int × Bool)) : Copies :=
  history.foldl (fun c call => (getLayout mapColors c call.1 call.2).2) .init

/-! ### What is to hold -/

/-- How many general cards of the hand have the value. -/
def countOf (mapColors : Int → Option Int) (hands : List Int) (v : Nat) : Nat :=
  hands.countP fun card => ifGeneralCard mapColors card = .ok true ∧ getValue card = v

/-- The sorted list of the values with this property. -/
def Lists (p : Nat → Prop) (lis : List Nat) : Prop :=
  lis.Pairwise (· < ·) ∧ ∀ v, v ∈ lis ↔ p v

structure Layout (mapColors : Int → Option Int) (hands : List Int) (repe : Bool) (c : Copies) :
    Prop where
  partition : (c.laizis ++ c.pokers).Perm hands
  repeas : ∀ v, (c.repeas v).getD 0 = countOf mapColors hands v
  singles : Lists (fun v => if repe then 1 ≤ countOf mapColors hands v
    else countOf mapColors hands v = 1) c.singles
  doubles : Lists (fun v => if repe then 2 ≤ countOf mapColors hands v
    else countOf mapColors hands v = 2) c.doubles
  triples : Lists (fun v => if repe then 3 ≤ countOf mapColors hands v
    else countOf mapColors hands v = 3) c.triples
  tetrads : Lists (fun v => 4 ≤ countOf mapColors hands v) c.tetrads

/-- A call after these others returns the layout of its hand. -/
def Yields (mapColors : Int → Option Int) (history : List (List Int × Bool)) (hands : List Int)
    (repe : Bool) : Prop :=
  ∃ c, (getLayout mapColors (after mapColors history) hands repe).1 = .ok c ∧
    Layout mapColors hands repe c

variable {mapColors : Int → Option Int}

theorem deal_cons (mapColors : Int → Option Int) (c : Copies) (card : Int) (hands : List Int) :
    ∃ e c', c.deal mapColors (card :: hands) = (some e, c') ∧
      c'.clear = c.clear := by
  rw [Copies.deal]
  cases ifGeneralCard mapColors card with
  | error e => exact ⟨e, c, rfl, rfl⟩
  | ok general => cases general <;> exact ⟨.index, _, rfl, rfl⟩

theorem getLayout_cons (mapColors : Int → Option Int) (c : Copies) (card : Int) (hands : List Int)
    (repe : Bool) :
    ∃ e c', getLayout mapColors c (card :: hands) repe = (.error e, c') ∧
      c'.clear = c.clear := by
  obtain ⟨e, c', hdeal, hkeep⟩ := deal_cons mapColors c.clear card hands
  refine ⟨e, c', ?_, hkeep⟩
  rw [getLayout, hdeal]

theorem getLayout_nil {c : Copies} (repe : Bool)
    (hc : c.clear = .init) :
    getLayout mapColors c [] repe = (.ok .init, .init) := by
  have hsort : Copies.init.sort = .init := by simp [Copies.sort, Copies.init]
  have hnone : ipairsRepeas Copies.init.repeas = [] := rfl
  rw [getLayout, hc, Copies.deal]
  simp only [hnone, List.foldl_nil, hsort]

theorem after_empty (history : List (List Int × Bool)) :
    (after mapColors history).clear = .init := by
  induction history using List.reverseRecOn with
  | nil => rfl
  | append_singleton history call ih =>
    obtain ⟨hands, repe⟩ := call
    rw [after, List.foldl_append]
    change (getLayout mapColors (after mapColors history) hands repe).2.clear = .init
    cases hands with
    | nil =>
      rw [getLayout_nil repe ih]
      rfl
    | cons card hands =>
      obtain ⟨e, c', hget, hkeep⟩ := getLayout_cons mapColors (after mapColors history) card hands
        repe
      rw [hget, hkeep, ih]

theorem lists_nil {p : Nat → Prop} (h : ∀ v, ¬ p v) : Lists p [] :=
  ⟨.nil, fun v => ⟨fun hv => absurd hv List.not_mem_nil, fun hv => absurd hv (h v)⟩⟩

theorem layout_init (repe : Bool) : Layout mapColors [] repe .init where
  partition := .refl _
  repeas _ := rfl
  singles := lists_nil fun v => by cases repe <;> simp [countOf]
  doubles := lists_nil fun v => by cases repe <;> simp [countOf]
  triples := lists_nil fun v => by cases repe <;> simp [countOf]
  tetrads := lists_nil fun v => by simp [countOf]

/-- Whatever hands came before, a call returns the layout of its hand if and only if the hand is
empty. -/
theorem yields_iff (mapColors : Int → Option Int) (history : List (List Int × Bool))
    (hands : List Int) (repe : Bool) : Yields mapColors history hands repe ↔ hands = [] := by
  constructor
  · rintro ⟨c, hget, -⟩
    cases hands with
    | nil => rfl
    | cons card hands =>
      obtain ⟨e, c', herror, -⟩ := getLayout_cons mapColors (after mapColors history) card hands
        repe
      rw [herror] at hget
      cases hget
  · rintro rfl
    exact ⟨.init, by rw [getLayout_nil repe (after_empty history)], layout_init repe⟩

/-- A hand with the two of diamonds alone: with the colours of `poker.games.cx`, which has none, and
with a table that has them. -/
theorem no_layout : (getLayout (fun _ => none) .init [0x02] false).1 = .error .compare ∧
    ¬ Yields (fun _ => none) [] [0x02] false ∧
    (getLayout (fun _ => some 0) .init [0x02] false).1 = .error .index ∧
    ¬ Yields (fun _ => some 0) [] [0x02] false := by
  refine ⟨rfl, ?_, rfl, ?_⟩ <;> rintro ⟨c, hget, -⟩ <;> cases hget

end XsServer.Poker
