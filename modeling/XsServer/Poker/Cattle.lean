import XsServer.Custom.Quick
import XsServer.Poker.Layout

/-! `cardSort` of `game/algor.lua`, with the comparison of two cards by their logic values, and
`getCattleWho` of `bull/algor.lua`, the points of a hand of bull and the cards that show them. -/

namespace XsServer.Poker

open Lib Custom

/-! ### The order of the cards -/

/-- What a function of the helper gets: the helper itself, from a colon, or a card. -/
inductive Operand
  | helper
  | card (card : Int)

namespace Operand

/-- `card & 0x0f`, which a table does not have. -/
def getValue : Operand → Except Stop Nat
  | .helper => .error .error
  | .card c => .ok (Poker.getValue c)

def getLogicValue (operand : Operand) : Except Stop Nat := do
  let value ← operand.getValue
  return if value = 1 then 13 else value - 1

/-- A function of one parameter, which takes the first argument. -/
def call (f : Operand → Except Stop Nat) : List Operand → Except Stop Nat
  | [] => .error .error
  | operand :: _ => f operand

end Operand

/-- `hlp:getLogicValue(card)`, in which the helper comes first. -/
def colonLogicValue (card : Int) : Except Stop Nat :=
  Operand.call Operand.getLogicValue [.helper, .card card]

/-- What goes to a comparison besides the cards: `fall`, and the algorithm. -/
inductive Extra
  | fall (fall : Bool)
  | algor

/-- Without a fourth argument `self` is `nil`. -/
def cardCompart (aCard bCard : Int) : List Extra → Except Stop Bool
  | _ :: .algor :: _ => do
    let a ← colonLogicValue aCard
    let b ← colonLogicValue bCard
    return decide (a > b)
  | _ => .error .error

def cardSort (fuel : Nat) (hands : List Int) (fall : Bool) : Except Stop (List Int) :=
  sortQuick cardCompart fuel hands 1 hands.length [.fall fall, .algor]

/-- `helper.getLogicValue(card)` -/
def LogicValue (card : Int) (value : Nat) : Prop :=
  Operand.call Operand.getLogicValue [.card card] = .ok value

def Falls (fall : Bool) (hands : List Int) : Prop :=
  hands.Pairwise fun a b => ∀ va vb, LogicValue a va → LogicValue b vb →
    if fall then vb ≤ va else va ≤ vb

def Sorts (hands : List Int) (fall : Bool) : Prop :=
  ∃ fuel out, cardSort fuel hands fall = .ok out ∧ out.Perm hands ∧ Falls fall out

theorem cardCompart_error (aCard bCard : Int) (args : List Extra) :
    cardCompart aCard bCard args = .error .error := by
  cases args with
  | nil => rfl
  | cons fall args =>
    cases args with
    | nil => rfl
    | cons self args => cases self <;> rfl

theorem cardSort_error {hands : List Int} (hlen : 1 < hands.length) (fuel : Nat) (fall : Bool) :
    cardSort (fuel + 1) hands fall = .error .error := by
  cases hands with
  | nil =>
    rw [List.length_nil] at hlen
    omega
  | cons a hands =>
    cases hands with
    | nil =>
      rw [List.length_singleton] at hlen
      omega
    | cons b hands =>
      have hturn : quickTurn cardCompart [.fall fall, .algor] 1 (a :: b :: hands, 1) 2 =
          .error .error := by
        rw [quickTurn]
        simp only [elem, List.getElem?_cons_zero, List.getElem?_cons_succ, ok_bind,
          cardCompart_error]
        rfl
      have hcount : (a :: b :: hands).length - 1 = hands.length + 1 := rfl
      rw [cardSort, sortQuick, if_pos hlen, hcount, List.range'_succ, List.foldlM_cons, hturn]
      rfl

/-- Every comparison is an error: the colon gives the helper to `getLogicValue` for the card, and
the recursive calls have no `self`.  So the hands of at most one card are sorted, and no others. -/
theorem cardSort_sorts_iff (hands : List Int) (fall : Bool) :
    Sorts hands fall ↔ hands.length ≤ 1 := by
  constructor
  · rintro ⟨fuel, out, hrun, -, -⟩
    by_contra hlen
    cases fuel with
    | zero => cases hrun
    | succ fuel =>
      rw [cardSort_error (by omega)] at hrun
      cases hrun
  · intro hlen
    refine ⟨1, hands, ?_, .refl _, pairwise_short hlen⟩
    rw [cardSort, sortQuick, if_neg (by omega)]
    rfl

/-- The two and the three of one colour. -/
theorem two_cards : cardSort 3 [0x02, 0x03] true = .error .error ∧ ¬ Sorts [0x02, 0x03] true := by
  refine ⟨rfl, ?_⟩
  rintro ⟨fuel, out, hrun, -, -⟩
  cases fuel with
  | zero => cases hrun
  | succ fuel =>
    rw [cardSort_error (by decide)] at hrun
    cases hrun

inductive Raise
  | layout (fault : Fault)
  | sort (stop : Stop)
  /-- A call of `nil` -/
  | call
  /-- `pairs(nil)` -/
  | pairs
  deriving DecidableEq

structure Bull where
  bullFightTriplet : Bool
  bullFightStraight : Bool

namespace Bull

def new : Bull := ⟨false, false⟩

/-- The second definition of this name is the one that there is. -/
def setSupportTriplet (o : Bull) (support : Bool) : Bull := { o with bullFightStraight := support }

def getSupportTriplet (o : Bull) : Bool := o.bullFightTriplet

def getSupportStraight (o : Bull) : Bool := o.bullFightStraight

end Bull

/-- `helper.getPoint`: the helper has no such function. -/
def getPoint (_ : Option Int) : Except Raise Nat := .error .call

/-- `helper:getValue(card)`, in which the helper comes first. -/
def colonValue (card : Int) : Except Raise Nat :=
  (Operand.call Operand.getValue [.helper, .card card]).mapError .sort

/-- 123, 132, 213, 231, 312 and 321 -/
def ifRun (av bv cv : Nat) : Bool :=
  (av + 1 = bv ∧ bv + 1 = cv) ∨ (av + 1 = cv ∧ cv + 1 = bv) ∨ (bv + 1 = av ∧ av + 1 = cv) ∨
    (bv + 1 = cv ∧ cv + 1 = av) ∨ (cv + 1 = av ∧ av + 1 = bv) ∨ (cv + 1 = bv ∧ bv + 1 = av)

def ten (sd : Nat) : Nat := if sd = 0 then 10 else sd

/-- `table.remove_args`: it ends at the first card that is not there. -/
def removeArgs (t : List Int) : List Int → List Int
  | [] => t
  | v :: args => if v ∈ t then removeArgs (t.erase v) args else t

/-- A loop of `ipairs` over the cards, which its turns may take away, and out of which they may
return. -/
def ipairs {σ ρ : Type} (cpyls : σ → List Int)
    (turn : Nat → Int → σ → Except Raise (ρ ⊕ σ)) : Nat → Nat → σ → Except Raise (ρ ⊕ σ)
  | 0, _, s => .ok (.inr s)
  | n + 1, i, s =>
    match (cpyls s)[i]? with
    | none => .ok (.inr s)
    | some card => do
      match ← turn i card s with
      | .inl found => return .inl found
      | .inr s => ipairs cpyls turn n (i + 1) s

/-! ### The search -/

/-- What `fts` has of the turn that made it. -/
structure Hint where
  pd : Nat
  cards : List Int

structure Search where
  cpyls : List Int
  max : Option Nat
  fts : Option Hint

/-- `fts()` with the cards that are left: the three cards twice, and then the others. -/
def Search.give (s : Search) (hint : Option Hint) : Except Raise (Nat × List Int) :=
  match hint with
  | none => .error .call
  | some hint => do
    let ts := hint.cards ++ hint.cards
    let ts ← (cardSort (ts.length + 1) ts true).mapError .sort
    let cpyls := removeArgs s.cpyls hint.cards
    let cpyls ← (cardSort (cpyls.length + 1) cpyls true).mapError .sort
    return (hint.pd, ts ++ cpyls)

section

variable (point : Option Int → Except Raise Nat) (o : Bull)

def ifBull (aCard bCard cCard : Int) : Except Raise Bool := do
  let ad ← point (some aCard)
  let bd ← point (some bCard)
  let cd ← point (some cCard)
  if (ad + bd + cd) % 10 = 0 then return true
  else if ad = bd ∧ bd = cd then return o.getSupportTriplet
  else if o.getSupportStraight then do
    let av ← colonValue aCard
    let bv ← colonValue bCard
    let cv ← colonValue cCard
    return ifRun av bv cv
  else return false

/-- The points of a bull: the last two cards are taken away for them. -/
def bullPoints (cnt : Nat) (cpyls : List Int) : Except Raise (Nat × List Int) :=
  if cnt = 0 then do
    let dd ← point cpyls.getLast?
    let cpyls := cpyls.dropLast
    let ed ← point cpyls.getLast?
    return (ten ((dd + ed) % 10), cpyls.dropLast)
  else return (10, cpyls)

def Search.turn (cnt : Nat) (aCard bCard cCard : Int) (s : Search) :
    Except Raise ((Nat × List Int) ⊕ Search) := do
  let yd ← ifBull point o aCard bCard cCard
  let (pd, cpyls) ← if yd then bullPoints point cnt s.cpyls else pure (0, s.cpyls)
  let s := { s with cpyls := cpyls }
  let s :=
    if s.max.all (· < pd) then
      { s with max := some pd, fts := some ⟨pd, [aCard, bCard, cCard]⟩ }
    else s
  if pd = 10 then do
    let found ← s.give s.fts
    return .inl found
  else return .inr s

/-- The loop of `c`, in which `b` is not compared. -/
def Search.third (cnt a : Nat) (aCard bCard : Int) (s : Search) :
    Except Raise ((Nat × List Int) ⊕ Search) :=
  ipairs Search.cpyls (fun c cCard s =>
    if c ≠ a ∧ c ≠ a then s.turn point o cnt aCard bCard cCard else .ok (.inr s))
    s.cpyls.length 0 s

def Search.second (cnt a : Nat) (aCard : Int) (s : Search) :
    Except Raise ((Nat × List Int) ⊕ Search) :=
  ipairs Search.cpyls (fun b bCard s =>
    if a ≠ b then s.third point o cnt a aCard bCard else .ok (.inr s)) s.cpyls.length 0 s

def Search.first (cnt : Nat) (s : Search) : Except Raise ((Nat × List Int) ⊕ Search) :=
  ipairs Search.cpyls (fun a aCard s => s.second point o cnt a aCard) s.cpyls.length 0 s

/-- The hint of a hand with at most one ruffian. -/
def search (cnt : Nat) (cpyls : List Int) : Except Raise (Nat × List Int) := do
  match ← Search.first point o cnt ⟨cpyls, none, none⟩ with
  | .inl found => return found
  | .inr s => s.give s.fts

end

/-- `while #laizis > 1 and #ts < 3`, from the last one on. -/
def takeLaizis : List Int → List Int → List Int × List Int
  | card :: next :: laizis, ts =>
    if ts.length < 3 then takeLaizis (next :: laizis) (ts ++ [card])
    else (card :: next :: laizis, ts)
  | laizis, ts => (laizis, ts)

/-- `while #ts < 3`, which does not end when there are no more cards. -/
def takeCards : List Int → List Int → Except Raise (List Int × List Int)
  | [], ts => if ts.length < 3 then .error (.sort .running) else .ok ([], ts)
  | card :: cpyls, ts =>
    if ts.length < 3 then takeCards cpyls (ts ++ [card]) else .ok (card :: cpyls, ts)

inductive Shown
  | card (c : Int)
  | cards (list : List Int)
  deriving DecidableEq

/-- Two ruffians or more: `push_args` appends the list of the other cards as one element. -/
def ruffians (cpyls laizis : List Int) : Except Raise (Nat × List Shown) := do
  let (left, ts) := takeLaizis laizis.reverse []
  let (cpyls, ts) ← takeCards cpyls.reverse ts
  let ts ← (cardSort (ts.length + 1) ts true).mapError .sort
  let cpyls := cpyls.reverse ++ left.reverse
  let cpyls ← (cardSort (cpyls.length + 1) cpyls true).mapError .sort
  return (10, ts.map .card ++ [.cards cpyls])

/-- `layout.sps`: a layout has no such field. -/
def Copies.sps (_ : Copies) : Option (List Int) := none

/-- The branch for one ruffian stands behind a return. -/
def getCattleWho (mapColors : Int → Option Int) (copies : Copies) (o : Bull) (hands : List Int) :
    Except Raise (Nat × List Shown) × Copies :=
  match getLayout mapColors copies hands true with
  | (.error fault, copies) => (.error (.layout fault), copies)
  | (.ok layout, copies) =>
    match layout.sps with
    | none => (.error .pairs, copies)
    | some cpyls =>
      let cnt := layout.laizis.length
      if cnt < 2 then
        ((search getPoint o cnt cpyls).map fun found => (found.1, found.2.map .card), copies)
      else (ruffians cpyls layout.laizis, copies)

/-- `helper.getValueForCount` -/
def getValueForCount (card : Int) : Nat := Nat.min (getValue card) 10

def Makes (kd sd : Bool) (a b c : Int) : Prop :=
  (getValueForCount a + getValueForCount b + getValueForCount c) % 10 = 0 ∨
    (kd = true ∧ getValue a = getValue b ∧ getValue b = getValue c) ∨
    (sd = true ∧ ifRun (getValue a) (getValue b) (getValue c) = true)

def Splits (kd sd : Bool) (hands : List Int) (pd : Nat) : Prop :=
  ∃ a b c d e, [a, b, c, d, e].Perm hands ∧ Makes kd sd a b c ∧
    pd = ten ((getValueForCount d + getValueForCount e) % 10)

/-- The best split, with its three cards first, or no points when there is none. -/
structure Best (kd sd : Bool) (hands : List Int) (pd : Nat) (ts : List Int) : Prop where
  perm : ts.Perm hands
  most : ∀ pd', Splits kd sd hands pd' → pd' ≤ pd
  none : (∀ pd', ¬ Splits kd sd hands pd') → pd = 0
  first : (∃ pd', Splits kd sd hands pd') → ∃ a b c d e, ts = [a, b, c, d, e] ∧
    Makes kd sd a b c ∧ pd = ten ((getValueForCount d + getValueForCount e) % 10)

def Yield (mapColors : Int → Option Int) (copies : Copies) (o : Bull) (kd sd : Bool)
    (hands : List Int) : Prop :=
  ∃ pd ts, (getCattleWho mapColors copies o hands).1 = .ok (pd, ts.map .card) ∧
    Best kd sd hands pd ts

theorem getCattleWho_error (mapColors : Int → Option Int) (copies : Copies) (o : Bull)
    (hands : List Int) : ∃ e, (getCattleWho mapColors copies o hands).1 = .error e := by
  rw [getCattleWho]
  cases getLayout mapColors copies hands true with
  | mk layout copies =>
    cases layout with
    | error fault => exact ⟨.layout fault, rfl⟩
    | ok layout => exact ⟨.pairs, rfl⟩

/-- No call returns the points of a hand: the layout of a hand is an error, a layout does not have
the field that is copied, and there is no `getPoint` for the cards. -/
theorem getCattleWho_never (mapColors : Int → Option Int) (copies : Copies) (o : Bull)
    (kd sd : Bool) (hands : List Int) : ¬ Yield mapColors copies o kd sd hands ∧
      ∀ card cards, hands = card :: cards →
        ∃ fault, (getCattleWho mapColors copies o hands).1 = .error (.layout fault) := by
  constructor
  · rintro ⟨pd, ts, hget, -⟩
    obtain ⟨e, herror⟩ := getCattleWho_error mapColors copies o hands
    rw [herror] at hget
    cases hget
  · rintro card cards rfl
    obtain ⟨fault, copies', hlayout, -⟩ := getLayout_cons mapColors copies card cards true
    refine ⟨fault, ?_⟩
    rw [getCattleWho, hlayout]

/-- Ten, ten, ten, five and five have ten points. -/
theorem no_cattle : Splits false false [0x0a, 0x1a, 0x2a, 0x05, 0x15] 10 ∧
    (getCattleWho (fun _ => none) .init .new [0x0a, 0x1a, 0x2a, 0x05, 0x15]).1 =
      .error (.layout .compare) ∧
    ¬ Yield (fun _ => none) .init .new false false [0x0a, 0x1a, 0x2a, 0x05, 0x15] := by
  refine ⟨⟨0x0a, 0x1a, 0x2a, 0x05, 0x15, .refl _, .inl rfl, rfl⟩, rfl, ?_⟩
  rintro ⟨pd, ts, hget, -⟩
  cases hget

end XsServer.Poker
