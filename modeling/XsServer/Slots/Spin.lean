import Mathlib.Tactic.Ring

/-! The spins of a slot machine: `onRotateNormal`, `onRotateFree` and `onRotateRoller` of
`slots/competition.lua`, with what they call in `logic.lua` and `player.lua`. -/

namespace XsServer.Slots

inductive Fault
  /-- a field or an element of `nil` -/
  | index
  /-- `ipairs(nil)` -/
  | ipairs
  /-- a comparison with `nil` -/
  | compare
  deriving DecidableEq, Repr

/-- `slots_jetton` -/
structure Jetton where
  single : Int
  total : Int
  deriving DecidableEq, Repr

/-- `slots_result_normal`; the costs of spinning an axle again are there for some games only. -/
structure Result where
  gameCost : Int
  gainCoin : Int
  freePush : Int
  freeLeft : Int
  heavyCost : Option (Int → Option Int)

/-- The fields of `slotsPlayer` that a spin reads or writes. -/
structure Player where
  coin : Int
  freeCount : Int
  lastResult : Option Result

namespace Player

def addCoin (player : Player) (change : Int) : Player :=
  { player with coin := player.coin + change }

def addFreeCount (player : Player) (count : Int) : Player :=
  { player with freeCount := player.freeCount + count }

/-- `setLastNormal`, `setLastFree` and `setLastRoller` also keep the result for themselves. -/
def setLastResult (player : Player) (result : Result) : Player :=
  ({ player with lastResult := some result }.addFreeCount result.freePush).addCoin result.gainCoin

end Player

/-- `slots_cfg`, of weights of any kind -/
structure Cfg (ω : Type) where
  jettonPair : Int → Option Jetton
  expectWeights : Option (List Int)
  iconsWeights : Option (Nat → Option ω)
  freeWeightIndex : Nat
  scatterIcon : Nat
  scatterFree : Nat → Option Int

/-- `details` of the request of the current player: an index of a jetton, or an axle. -/
inductive Details
  | jetton (index : Int)
  | ernie (alxe : Option Int)
  deriving DecidableEq

/-- A table with its configuration and the request of the current player, if there are one.
`draw` is what `rotateIcon` draws for a layout, and `getLineList` the scores of the lines, which
each game has its own way to find. -/
structure Machine (ω α : Type) where
  cfg : Cfg ω
  request : Option Details
  layout : α
  draw : α → Option ω → Except Fault (List Nat)
  getLineList : List Nat → Except Fault (List Int)

inductive Outcome
  /-- `return false` with a text -/
  | refused (error : String)
  | error (fault : Fault)
  /-- `return true,result` -/
  | spun (result : Result)

namespace Machine

variable {ω α : Type}

/-! ### The logic -/

/-- `logic:getLayoutInfo`, of the `self` that it is called with -/
def getLayoutInfo : Option (Machine ω α) → Except Fault α
  | some self => .ok self.layout
  | none => .error .index

/-- It calls `self.getLayoutInfo()`, with a dot and without a `self`. -/
def rotateIcon (m : Machine ω α) (wgts : Option ω) : Except Fault (List Nat) := do
  let layt ← getLayoutInfo (none : Option (Machine ω α))
  m.draw layt wgts

/-- `getJetton`, and `jetton.total` or `jetton.single` -/
def getJetton (m : Machine ω α) : Except Fault Jetton :=
  match m.request with
  | some (.jetton index) =>
    match m.cfg.jettonPair index with
    | some jetton => .ok jetton
    | none => .error .index
  | some (.ernie _) => .error .index
  | none => .error .index

def getFreePush (m : Machine ω α) (icons : List Nat) : Int :=
  (m.cfg.scatterFree (icons.count m.cfg.scatterIcon)).getD 0

/-- `rotateNormal`, `rotateFree` and `rotateRoller`, which differ in their cost -/
def rotate (m : Machine ω α) (wgts : Option ω) (player : Player) (cost : Jetton → Int) :
    Except Fault Result := do
  let jetton ← m.getJetton
  let icons ← m.rotateIcon wgts
  let lines ← m.getLineList icons
  return {
    gameCost := cost jetton
    gainCoin := lines.sum
    freePush := m.getFreePush icons
    freeLeft := player.freeCount + m.getFreePush icons
    heavyCost := none }

def getCurAxle (m : Machine ω α) : Except Fault (Option Int) :=
  match m.request with
  | some (.ernie alxe) => .ok alxe
  | some (.jetton _) => .error .index
  | none => .error .index

/-- `last.heavyCost[alxe]`, as a number that is compared with -/
def heavyCost (player : Player) (alxe : Option Int) : Except Fault Int :=
  match player.lastResult with
  | none => .error .index
  | some last =>
    match last.heavyCost with
    | none => .error .index
    | some costs =>
      match alxe.bind costs with
      | some cost => .ok cost
      | none => .error .compare

/-- It calls `self._lgc:getCurAxle()`, and a logic has no `_lgc`. -/
def rotateRoller (m : Machine ω α) (wgts : Option ω) (player : Player) : Except Fault Result := do
  let alxe ← match (none : Option (Machine ω α)) with
    | some lgc => lgc.getCurAxle
    | none => .error .index
  let cost ← heavyCost player alxe
  m.rotate wgts player fun _ => cost

/-! ### The table -/

/-- The first expected ratio that is at least 90, or else the sixth. -/
def getCurrIconWeights (m : Machine ω α) : Except Fault (Option ω) :=
  match m.cfg.expectWeights, m.cfg.iconsWeights with
  | none, _ => .error .ipairs
  | some _, none => .error .index
  | some expects, some weights =>
    .ok (weights (((expects.findIdx? fun ratio => 90 ≤ ratio).map (· + 1)).getD 6))

def getFreeIconWeights (m : Machine ω α) : Except Fault (Option ω) :=
  match m.cfg.iconsWeights with
  | some weights => .ok (weights m.cfg.freeWeightIndex)
  | none => .error .index

/-- What a handler returns after it has taken its cost. -/
def finish (player : Player) : Except Fault Result → Player × Outcome
  | .ok result => (player.setLastResult result, .spun result)
  | .error fault => (player, .error fault)

def onRotateNormal (m : Machine ω α) (player : Player) (details : Int) : Player × Outcome :=
  match m.cfg.jettonPair details with
  | none => (player, .refused "非法下注")
  | some jetton =>
    if player.coin < jetton.total then (player, .refused "您金币不足")
    else if 0 < player.freeCount then (player, .refused "还有免费次数")
    else
      let player := player.addCoin (-jetton.total)
      finish player do
        let wgts ← m.getCurrIconWeights
        m.rotate wgts player Jetton.total

/-- It calls `self._logic:rotateFree()`, and a table has no `_logic`. -/
def onRotateFree (m : Machine ω α) (player : Player) : Player × Outcome :=
  if player.freeCount ≤ 0 then (player, .refused "没有免费次数")
  else
    let player := player.addFreeCount (-1)
    finish player do
      let wgts ← m.getFreeIconWeights
      match (none : Option (Machine ω α)) with
      | some logic => logic.rotate wgts player fun _ => 0
      | none => .error .index

/-- The weights and the cost that `onRotateRoller` finds before it takes the cost. -/
def rollerCost (m : Machine ω α) (player : Player) : Except Fault (Option ω × Int) := do
  let wgts ← m.getCurrIconWeights
  let alxe ← m.getCurAxle
  let cost ← heavyCost player alxe
  return (wgts, cost)

def onRotateRoller (m : Machine ω α) (player : Player) : Player × Outcome :=
  match m.rollerCost player with
  | .error fault => (player, .error fault)
  | .ok (wgts, cost) =>
    if player.coin < cost then (player, .refused "您金币不足")
    else finish (player.addCoin (-cost)) (m.rotateRoller wgts (player.addCoin (-cost)))

/-- The commands `spin`, `fpin` and `xpin`. -/
inductive Request
  | spin (details : Int)
  | fpin
  | xpin
  deriving DecidableEq

def onRotate (m : Machine ω α) (player : Player) : Request → Player × Outcome
  | .spin details => m.onRotateNormal player details
  | .fpin => m.onRotateFree player
  | .xpin => m.onRotateRoller player

/-- The price of a request that is not refused: coins and free spins. -/
def price (m : Machine ω α) (player : Player) : Request → Int × Int
  | .spin details => (((m.cfg.jettonPair details).map Jetton.total).getD 0, 0)
  | .fpin => (0, 1)
  | .xpin =>
    match m.rollerCost player with
    | .ok (_, cost) => (cost, 0)
    | .error _ => (0, 0)

/-- A request is accounted exactly, and changes nothing when it is refused or fails. -/
structure Accounted (m : Machine ω α) (player : Player) (request : Request) : Prop where
  spun : ∀ result, (m.onRotate player request).2 = .spun result →
    (m.onRotate player request).1.coin =
        player.coin - (m.price player request).1 + result.gainCoin ∧
      (m.onRotate player request).1.freeCount =
        player.freeCount - (m.price player request).2 + result.freePush
  unchanged : (∀ result, (m.onRotate player request).2 ≠ .spun result) →
    (m.onRotate player request).1.coin = player.coin ∧
      (m.onRotate player request).1.freeCount = player.freeCount
  nonneg : 0 ≤ player.coin → 0 ≤ (m.onRotate player request).1.coin

/-- The request is refused, or fails before a price is taken, or its price is 0. -/
def Spared (m : Machine ω α) (player : Player) : Request → Prop
  | .spin details => ∀ jetton, m.cfg.jettonPair details = some jetton →
      jetton.total ≤ player.coin → player.freeCount ≤ 0 → jetton.total = 0
  | .fpin => player.freeCount ≤ 0
  | .xpin => ∀ wgts cost, m.rollerCost player = .ok (wgts, cost) → cost ≤ player.coin → cost = 0

variable (m : Machine ω α) (player : Player)

/-! ### No reels are turned -/

theorem rotate_error (wgts : Option ω) (cost : Jetton → Int) :
    ∃ fault, m.rotate wgts player cost = .error fault := by
  unfold rotate
  cases m.getJetton with
  | error fault => exact ⟨fault, rfl⟩
  | ok jetton => exact ⟨.index, rfl⟩

theorem onRotateNormal_cases (details : Int) :
    (∃ error, m.onRotateNormal player details = (player, .refused error) ∧
        m.Spared player (.spin details)) ∨
      ∃ jetton fault, m.cfg.jettonPair details = some jetton ∧ jetton.total ≤ player.coin ∧
        player.freeCount ≤ 0 ∧
        m.onRotateNormal player details = (player.addCoin (-jetton.total), .error fault) := by
  unfold onRotateNormal Spared
  cases hjetton : m.cfg.jettonPair details with
  | none => exact .inl ⟨_, rfl, by simp [hjetton]⟩
  | some jetton =>
    dsimp only
    split
    case isTrue hcoin =>
      refine .inl ⟨_, rfl, fun jetton' hjetton' hle => ?_⟩
      obtain rfl := Option.some.inj (hjetton.symm.trans hjetton')
      omega
    case isFalse hcoin =>
      split
      case isTrue hfree =>
        refine .inl ⟨_, rfl, fun _ _ _ hle => ?_⟩
        omega
      case isFalse hfree =>
        refine .inr ⟨jetton, ?_⟩
        cases m.getCurrIconWeights with
        | error fault => exact ⟨fault, rfl, by omega, by omega, rfl⟩
        | ok wgts =>
          obtain ⟨fault, hfault⟩ :=
            rotate_error m (player.addCoin (-jetton.total)) wgts Jetton.total
          refine ⟨fault, rfl, by omega, by omega, ?_⟩
          exact congrArg (finish (player.addCoin (-jetton.total))) hfault

theorem onRotateFree_cases :
    (∃ error, m.onRotateFree player = (player, .refused error) ∧ player.freeCount ≤ 0) ∨
      ∃ fault, 0 < player.freeCount ∧
        m.onRotateFree player = (player.addFreeCount (-1), .error fault) := by
  unfold onRotateFree
  split
  case isTrue hfree => exact .inl ⟨_, rfl, hfree⟩
  case isFalse hfree =>
    cases m.getFreeIconWeights with
    | error fault => exact .inr ⟨fault, by omega, rfl⟩
    | ok wgts => exact .inr ⟨.index, by omega, rfl⟩

theorem onRotateRoller_cases :
    (∃ outcome, m.onRotateRoller player = (player, outcome) ∧ (∀ result, outcome ≠ .spun result) ∧
        m.Spared player .xpin) ∨
      ∃ wgts cost fault, m.rollerCost player = .ok (wgts, cost) ∧ cost ≤ player.coin ∧
        m.onRotateRoller player = (player.addCoin (-cost), .error fault) := by
  unfold onRotateRoller Spared
  cases hcost : m.rollerCost player with
  | error fault => exact .inl ⟨_, rfl, by simp, by simp⟩
  | ok found =>
    obtain ⟨wgts, cost⟩ := found
    dsimp only
    split
    case isTrue hcoin =>
      refine .inl ⟨_, rfl, by simp, ?_⟩
      rintro _ _ ⟨⟩ hle
      omega
    case isFalse hcoin => exact .inr ⟨wgts, cost, .index, rfl, by omega, rfl⟩

variable {m player}

theorem accounted_of_unchanged {request : Request} {outcome : Outcome}
    (h : m.onRotate player request = (player, outcome)) (hnot : ∀ result, outcome ≠ .spun result) :
    m.Accounted player request where
  spun result hspun := by
    rw [h] at hspun
    exact absurd hspun (hnot result)
  unchanged _ := by rw [h]; exact ⟨rfl, rfl⟩
  nonneg hcoin := by rw [h]; exact hcoin

theorem accounted_of_taken (request : Request) (coin free : Int) {fault : Fault}
    (h : m.onRotate player request =
      ((player.addCoin (-coin)).addFreeCount (-free), .error fault)) (hcoin : coin ≤ player.coin) :
    m.Accounted player request ↔ coin = 0 ∧ free = 0 := by
  constructor
  · intro haccounted
    obtain ⟨hc, hf⟩ := haccounted.unchanged (by simp [h])
    rw [h] at hc hf
    simp only [Player.addCoin, Player.addFreeCount] at hc hf
    omega
  · rintro ⟨rfl, rfl⟩
    have hsame : m.onRotate player request = (player, .error fault) := by
      rw [h]
      simp [Player.addCoin, Player.addFreeCount]
    exact accounted_of_unchanged hsame (by simp)

/-- A request is accounted exactly if and only if it is refused, or fails before a price is taken,
or its price is 0. -/
theorem accounted_iff (m : Machine ω α) (player : Player) (request : Request) :
    m.Accounted player request ↔ m.Spared player request := by
  cases request with
  | spin details =>
    obtain ⟨error, h, hspared⟩ | ⟨jetton, fault, hjetton, hcoin, hfree, h⟩ :=
      m.onRotateNormal_cases player details
    · exact ⟨fun _ => hspared, fun _ => accounted_of_unchanged h (by simp)⟩
    · have htaken := accounted_of_taken (.spin details) jetton.total 0
        (by simpa [onRotate, Player.addFreeCount] using h) hcoin
      rw [htaken, Spared]
      constructor
      · rintro ⟨hzero, -⟩ _ hjetton' _ _
        obtain rfl := Option.some.inj (hjetton.symm.trans hjetton')
        exact hzero
      · exact fun hspared => ⟨hspared jetton hjetton hcoin hfree, rfl⟩
  | fpin =>
    obtain ⟨error, h, hfree⟩ | ⟨fault, hfree, h⟩ := m.onRotateFree_cases player
    · exact ⟨fun _ => hfree, fun _ => accounted_of_unchanged h (by simp)⟩
    · constructor
      · intro haccounted
        have hf := (haccounted.unchanged (by simp [onRotate, h])).2
        rw [onRotate, h] at hf
        simp only [Player.addFreeCount] at hf
        omega
      · intro hspared
        rw [Spared] at hspared
        omega
  | xpin =>
    obtain ⟨outcome, h, hnot, hspared⟩ | ⟨wgts, cost, fault, hcost, hcoin, h⟩ :=
      m.onRotateRoller_cases player
    · exact ⟨fun _ => hspared, fun _ => accounted_of_unchanged h hnot⟩
    · have htaken := accounted_of_taken .xpin cost 0
        (by simpa [onRotate, Player.addFreeCount] using h) hcoin
      rw [htaken, Spared]
      constructor
      · rintro ⟨hzero, -⟩ _ _ hcost' _
        obtain ⟨rfl, rfl⟩ := Prod.mk.inj (Except.ok.inj (hcost.symm.trans hcost'))
        exact hzero
      · exact fun hspared => ⟨hspared wgts cost hcost hcoin, rfl⟩

end Machine

/-- A machine on which a spin costs 90. -/
def ninety : Machine Unit Unit where
  cfg := ⟨fun _ => some ⟨3, 90⟩, some [90], some fun _ => some (), 7, 10, fun _ => none⟩
  request := some (.jetton 1)
  layout := ()
  draw := fun _ _ => .ok []
  getLineList := fun _ => .ok []

/-- A player with 100 coins spins, and loses 90 of them to an error. -/
theorem coins_lost : (ninety.onRotate ⟨100, 0, none⟩ (.spin 1)).1.coin = 10 ∧
    (ninety.onRotate ⟨100, 0, none⟩ (.spin 1)).2 = .error .index ∧
    ¬ ninety.Accounted ⟨100, 0, none⟩ (.spin 1) := by
  refine ⟨rfl, rfl, fun h => ?_⟩
  have hcoin := (h.unchanged fun result h => by cases h).1
  exact absurd hcoin (by decide)

end XsServer.Slots
