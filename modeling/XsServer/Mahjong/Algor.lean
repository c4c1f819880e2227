import Mathlib.Algebra.Ring.Nat
import Mathlib.Data.Multiset.Sort

/-! The winning-hand check of `mahjong/algor.lua`.  A tile is `color * 16 + value`; a table from
values to counts is the multiset that it counts. -/

namespace XsServer.Mahjong

def getValue (mjCard : Nat) : Nat := mjCard % 16

def getColor (mjCard : Nat) : Nat := mjCard / 16

def getCard (color : Nat) (value : Nat) : Nat := color * 16 + value

/-- The tiles of one colour from `start` to `close`.  A value is a hexadecimal digit. -/
structure MjUnit where
  color : Nat
  start : Nat
  close : Nat
  joint : Bool
  hex : close < 16

def MjUnit.values (unit : MjUnit) : List Nat :=
  List.range' unit.start (unit.close + 1 - unit.start)

structure Algor where
  support_7pairs : Bool
  support_4laizi : Bool
  support_7laizi : Bool
  support_laizis : Nat → Bool
  /-- The unit of a tile, with the `class` that `setSupportClasss` writes to it. -/
  support_classs : Nat → Option (Nat × MjUnit)
  support_mclass : Nat → Option MjUnit

def Algor.new : Algor := ⟨true, false, false, fun _ => false, fun _ => none, fun _ => none⟩

namespace Algor

def setSupport7pairs (a : Algor) (sport : Bool) : Algor := { a with support_7pairs := sport }

/-- One turn of the inner loop of `setSupportClasss`. -/
def addTile (idx : Nat) (unit : MjUnit) (a : Algor) (value : Nat) : Algor :=
  let mj := getCard unit.color value
  { a with
    support_classs := Function.update a.support_classs mj (some (idx, unit))
    support_mclass := Function.update a.support_mclass idx (some unit) }

/-- The units from the index `idx` on. -/
def addUnits (a : Algor) (idx : Nat) : List MjUnit → Algor
  | [] => a
  | unit :: ts => addUnits (unit.values.foldl (addTile idx unit) a) (idx + 1) ts

def setSupportClasss (a : Algor) (ts : List MjUnit) : Algor := a.addUnits 1 ts

/-- `maps[mj].class`, an error for a tile of no unit. -/
def getSupportClassID (a : Algor) (mj : Nat) : Option Nat := (a.support_classs mj).map Prod.fst

/-- `map[jid].joint` -/
def isJoint (a : Algor) (jid : Nat) : Option Bool := (a.support_mclass jid).map MjUnit.joint

def ifRuffian (a : Algor) (mj : Nat) : Bool := a.support_laizis mj

end Algor

/-! ### The hand in its classes -/

structure MjGap where
  min : Nat
  max : Nat
  num : Int

structure Unify where
  lzcount : Int
  spcount : Int
  mjhands : List Nat
  mjMpasw : Nat → Option Int
  mjMpacw : Nat → Option Int
  mjClass : Nat → Multiset Nat
  mjGapls : Nat → MjGap

/-- The keys of `mjClass` and `mjGapls`: 万, 条, 筒, 箭, 风, 花. -/
def classIDs : List Nat := [1, 2, 3, 4, 5, 6]

/-- `(has[k] or 0) + 1` -/
def tally (has : Nat → Option Int) (k : Nat) : Nat → Option Int :=
  Function.update has k (some ((has k).getD 0 + 1))

def arrToHas (arr : List Nat) : Nat → Option Int := arr.foldl tally fun _ => none

def Unify.init (hands : List Nat) : Unify :=
  ⟨0, hands.length, [], fun _ => none, fun _ => none, fun _ => 0, fun _ => ⟨9, 0, 0⟩⟩

def MjGap.add (gap : MjGap) (ve : Nat) : MjGap :=
  ⟨Nat.min ve gap.min, Nat.max ve gap.max, gap.num + 1⟩

/-- One turn of the loop of `getUnifyHands`. -/
def Algor.unify (a : Algor) (ufy : Unify) (mj : Nat) : Option Unify :=
  let ufy := { ufy with mjMpacw := tally ufy.mjMpacw (getColor mj) }
  let ufy :=
    if a.ifRuffian mj then { ufy with lzcount := ufy.lzcount + 1 }
    else { ufy with mjhands := ufy.mjhands ++ [mj] }
  match a.getSupportClassID mj with
  | none => none
  | some ji =>
    let ve := getValue mj
    -- `mjClass[ji]` is nil for any other class
    if ji ∈ classIDs then
      some { ufy with
        mjClass := Function.update ufy.mjClass ji (ve ::ₘ ufy.mjClass ji)
        mjGapls := Function.update ufy.mjGapls ji ((ufy.mjGapls ji).add ve) }
    else none

def Algor.getUnifyHands (a : Algor) (hands : List Nat) : Option Unify :=
  (hands.foldlM a.unify (Unify.init hands)).map fun ufy =>
    { ufy with
      mjhands := ufy.mjhands.mergeSort (· ≤ ·)
      mjMpasw := arrToHas ufy.mjhands }

/-! ### The check -/

/-- `lis[1]` of the sorted values. -/
def least (mjs : Multiset Nat) : Nat := (mjs.sort).headD 0

/-- `lis[#lis]` -/
def greatest (mjs : Multiset Nat) : Nat := (mjs.sort).getLastD 0

/-- The number that `isChannel` looks up.  Its parameters `min` and `max` are shadowed. -/
def channel (mjs : Multiset Nat) : Nat :=
  let min := least mjs
  let max := greatest mjs
  let len := max - min
  ((List.range' min (len + 1)).map fun v =>
    let c := mjs.count v
    let i := v - min + 1
    if c > 0 then 10 ^ (len + 1 - i) * c else 0).sum

def isChannel (mapHuCards : Nat → Bool) (mjs : Multiset Nat) : Bool :=
  mapHuCards (channel mjs)

namespace Algor

variable (a : Algor) (mapHuCards : Nat → Bool)

/-- The last test of a class: runs and triplets by the table, triplets by the remainders. -/
def checkMelds (ji : Nat) (jvs : Multiset Nat) : Option Bool :=
  (a.isJoint ji).map fun joint =>
    if joint then isChannel mapHuCards jvs else decide (∀ jv ∈ jvs, jvs.count jv % 3 ≠ 1)

/-- The loop of `nolaiziJiangHuCard`. -/
def checkClasses (ufy : Unify) : List Nat → Nat → Option Bool
  | [], _ => some true
  | ji :: rest, n2 =>
    let jvs := ufy.mjClass ji
    if jvs = 0 then checkClasses ufy rest n2
    else
      let m := (ufy.mjGapls ji).num % 3
      if m = 1 then some false
      else
        let n2 := if m = 2 then n2 + 1 else n2
        if n2 > 1 then some false
        else
          (a.checkMelds mapHuCards ji jvs).bind fun ok =>
            if ok then checkClasses ufy rest n2 else some false

def nolaiziJiangHuCard (ufy : Unify) : Option Bool := a.checkClasses mapHuCards ufy classIDs 0

def oklaiziJiangHuCard (_ufy : Unify) : Option Bool := some true

/-- Both loops are over `mjMpasr`, which no hand has. -/
def isHu7Pairs (ufy : Unify) : Option Bool := if 14 ≠ ufy.spcount then some false else none

def checkHu (ufy : Unify) : Option Bool :=
  if 2 ≠ ufy.spcount % 3 then some false
  else if a.support_4laizi ∧ ufy.lzcount ≥ 4 then some true
  else do
    if a.support_7pairs then
      if ← isHu7Pairs ufy then return true
    if ufy.lzcount ≤ 0 then a.nolaiziJiangHuCard mapHuCards ufy
    else oklaiziJiangHuCard ufy

/-- The result, and what is left of the module's `count`. -/
def isHuCards (ufy : Unify) (count : Int) : Option Bool × Int :=
  if count ≤ 0 then (some false, count)
  else (a.checkHu mapHuCards ufy, count - 1)

end Algor

end XsServer.Mahjong
