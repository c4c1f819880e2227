import XsServer.Lib.Results
import XsServer.Lib.Weighted
import XsServer.Slots.Spin

/-! The reels of a slot machine: `rotateIcon` and `createIcon` of `slots/logic.lua`. -/

namespace XsServer.Slots

open Lib.Weighted

inductive Jam
  | fault (fault : Fault)
  /-- Arithmetic on `nil` -/
  | arith
  /-- `math.random` of an empty interval -/
  | interval
  deriving DecidableEq

/-- `slots_layout_info` -/
structure LayoutInfo where
  maximumX : Nat
  maximumY : Nat

/-- `slots_wight_info`: the weights of the icons from 1 on, and their sum. -/
structure WightInfo where
  sum : Int
  wgt : List Int

/-- The layout and the sole icons of the game, and the weights of its axles. -/
structure Reels where
  layout : LayoutInfo
  soleiconX : List Nat
  wgts : Option (Nat → Option WightInfo)

namespace Reels

/-- `logic:getLayoutInfo`, of the `self` that it is called with -/
def getLayoutInfo : Option Reels → Except Jam LayoutInfo
  | some self => .ok self.layout
  | none => .error (.fault .index)

/-- `getAxleIconWeithts`, for a caller that reads a field of it -/
def getAxleIconWeithts (self : Reels) (x : Nat) : Except Jam WightInfo :=
  match self.wgts.bind fun wgts => wgts x with
  | some wgts => .ok wgts
  | none => .error (.fault .index)

/-- A turn of the loop over the rows above: a sole icon is ignored, and its weight taken from the
sum. -/
def ignore (self : Reels) (layt : LayoutInfo) (list : List Int) (icons : List Nat) (x : Nat)
    (s : Int × List Nat) (iy : Nat) : Except Jam (Int × List Nat) :=
  match icons[x + (iy - 1) * layt.maximumX - 1]? with
  | none => .ok s
  | some ico =>
    if ico ∈ self.soleiconX then
      match list[ico - 1]? with
      | some weight => .ok (s.1 - weight, ico :: s.2)
      | none => .error .arith
    else .ok s

/-- The weights and icons that are not ignored. -/
def candidates (igns : List Nat) (list : List Int) : List (Int × Nat) :=
  (list.zipIdx 1).filter fun e => e.2 ∉ igns

def pickIcon (igns : List Nat) (rdm : Int) (list : List Int) : List Nat :=
  (taken Prod.fst true (candidates igns list) rdm).map Prod.snd

/-- `createIcon` behind its first line, where `draw` is for `math.random`. -/
def createIconIn (self : Reels) (layt : LayoutInfo) (draw : Int) (x y : Nat) (icons : List Nat) :
    Except Jam (List Nat) := do
  let wgts ← self.getAxleIconWeithts x
  let (sums, igns) ← (List.range' 1 (y - 1)).foldlM (self.ignore layt wgts.wgt icons x)
    (wgts.sum, [])
  if sums < 1 then .error .interval
  else return icons ++ pickIcon igns (1 + draw % sums) wgts.wgt

/-- It calls `self.getLayoutInfo()`, with a dot and without a `self`. -/
def createIcon (self : Reels) (draw : Int) (x y : Nat) (icons : List Nat) :
    Except Jam (List Nat) := do
  let layt ← getLayoutInfo none
  self.createIconIn layt draw x y icons

/-- The cells in the order of the loops, in which `y` goes to `maximumX`. -/
def cells (layt : LayoutInfo) : List (Nat × Nat) :=
  (List.range' 1 layt.maximumX).flatMap fun y => (List.range' 1 layt.maximumY).map fun x => (x, y)

/-- It calls `self.getLayoutInfo()`, too. -/
def rotateIcon (self : Reels) (draws : Nat → Nat → Int) : Except Jam (List Nat) := do
  let layt ← getLayoutInfo none
  (cells layt).foldlM (fun icons c => self.createIcon (draws c.1 c.2) c.1 c.2 icons) []

def iconAt (self : Reels) (icons : List Nat) (x y : Nat) : Option Nat :=
  icons[x + (y - 1) * self.layout.maximumX - 1]?

/-- The board is full, its icons have weights on their axles, and no axle has a sole icon twice. -/
structure Board (self : Reels) (icons : List Nat) : Prop where
  length : icons.length = self.layout.maximumX * self.layout.maximumY
  drawn : ∀ x y, 1 ≤ x → x ≤ self.layout.maximumX → 1 ≤ y → y ≤ self.layout.maximumY →
    ∃ icon wgts weight, self.iconAt icons x y = some icon ∧
      self.getAxleIconWeithts x = .ok wgts ∧ 1 ≤ icon ∧ wgts.wgt[icon - 1]? = some weight
  sole : ∀ x y y', 1 ≤ x → x ≤ self.layout.maximumX → 1 ≤ y → y < y' →
    y' ≤ self.layout.maximumY → ∀ icon ∈ self.soleiconX, self.iconAt icons x y = some icon →
    self.iconAt icons x y' ≠ some icon

def Generates (self : Reels) (draws : Nat → Nat → Int) : Prop :=
  ∃ icons, self.rotateIcon draws = .ok icons ∧ self.Board icons

theorem rotateIcon_error (self : Reels) (draws : Nat → Nat → Int) :
    self.rotateIcon draws = .error (.fault .index) := rfl

/-- Whatever the layout, the weights, the sole icons and the draws, no board is made: the layout is
asked for without a `self`, by `rotateIcon` and again by `createIcon`. -/
theorem rotateIcon_never (self : Reels) (draws : Nat → Nat → Int) :
    ¬ self.Generates draws ∧ (∀ draw x y icons,
      self.createIcon draw x y icons = .error (.fault .index)) ∧
    ∀ (ω : Type) (m : Machine ω LayoutInfo) wgts, m.rotateIcon wgts = .error .index := by
  refine ⟨?_, fun _ _ _ _ => rfl, fun _ _ _ => rfl⟩
  rintro ⟨icons, hrun, -⟩
  rw [rotateIcon_error] at hrun
  cases hrun

end Reels

def oneReel : Reels := ⟨⟨1, 1⟩, [], some fun _ => some ⟨1, [1]⟩⟩

theorem no_board : oneReel.rotateIcon (fun _ _ => 0) = .error (.fault .index) ∧
    ¬ oneReel.Generates fun _ _ => 0 := by
  refine ⟨rfl, ?_⟩
  rintro ⟨icons, hrun, -⟩
  cases hrun

end XsServer.Slots
