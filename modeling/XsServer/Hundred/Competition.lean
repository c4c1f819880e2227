import XsServer.Hundred.Status
import XsServer.Lib.Number
import Mathlib.Algebra.BigOperators.Ring.List
import Mathlib.Algebra.Ring.Int.Defs

/-! A hundred-player table: the ledgers of the bets, and the lists of the bankers and of those who
wait to be one.  Players are objects, known by their identifiers, and coins are integers of 64
bits. -/

namespace XsServer.Hundred

open XsServer.Lib.Number

/-- `hundredAreaInf` -/
structure AreaInf where
  maxi : Int
  odds : Int

/-- What a table has from its configuration: `getGameConf`, `getUnit` and `maxBanker`. -/
structure Config (α : Type*) where
  areas : α → Option AreaInf
  jettons : List Int
  unit : Int
  maxBanker : Nat

inductive Camp
  | player
  | banker
  deriving DecidableEq

/-- `ifWaitDownBanker` reads the field `_waitDownBanker`, and `falseWaitDownBanker` writes
`_mapsig.waitDownBanker`, which is `sig`. -/
structure Player where
  coin : Int
  camp : Camp
  waitDownBanker : Bool
  sig : Bool
  robot : Bool
  deriving DecidableEq

/-- `hundredBetInf` -/
structure Bet (ι α : Type*) where
  rid : ι
  area : α
  coin : Int
  deriving DecidableEq

structure Competition (ι α : Type*) where
  gmstatus : Option Status
  players : ι → Player
  arrBanker : List ι
  arrWaitUpBanker : List ι
  arrAreaEnum : List α
  mapAreaBet : α → Option Int
  mapBetInfo : ι → Option (List (Bet ι α))
  arrBetInfo : List (Bet ι α)
  mapBetCoin : ι → Option Int
  mapBetBonus : ι → Option Int

namespace Competition

variable {ι α : Type*}

/-- A table after `ctor`. -/
def new (players : ι → Player) (arrAreaEnum : List α) : Competition ι α :=
  ⟨none, players, [], [], arrAreaEnum, fun _ => none, fun _ => none, [], fun _ => none,
    fun _ => none⟩

def ifIdle (c : Competition ι α) : Bool := c.gmstatus = some .idle

def ifBetting (c : Competition ι α) : Bool := c.gmstatus = some .betting

def ifBanker (c : Competition ι α) (player : ι) : Bool := (c.players player).camp = .banker

def ifWaitDownBanker (c : Competition ι α) (player : ι) : Bool := (c.players player).waitDownBanker

def numBanker (c : Competition ι α) : Nat := c.arrBanker.length

def numWaitBanker (c : Competition ι α) : Nat := c.arrWaitUpBanker.length

/-- `dataClear`; `_mapBetCoin` is not among what it clears. -/
def dataClear (c : Competition ι α) : Competition ι α :=
  { c with
    mapAreaBet := fun _ => none
    mapBetInfo := fun _ => none
    arrBetInfo := []
    mapBetBonus := fun _ => none }

/-! ### Bankers -/

section Bankers

def tryWaitUpBanker (c : Competition ι α) (player : ι) : Bool × Competition ι α :=
  if c.ifBanker player then (false, c)
  else if c.ifWaitDownBanker player then (false, c)
  else (true, { c with arrWaitUpBanker := c.arrWaitUpBanker ++ [player] })

variable [DecidableEq ι]

def falseWaitDownBanker (c : Competition ι α) (player : ι) : Competition ι α :=
  { c with players := Function.update c.players player { c.players player with sig := false } }

def tryCancelWaitUpBanker (c : Competition ι α) (player : ι) : Bool × Competition ι α :=
  if ¬ c.ifWaitDownBanker player then (false, c)
  else if player ∈ c.arrWaitUpBanker then
    (true, { c with arrWaitUpBanker := c.arrWaitUpBanker.erase player })
  else (false, c)

def tryUpBanker (c : Competition ι α) (player : ι) : Bool × Competition ι α :=
  if c.ifBanker player then (false, c)
  else if c.ifWaitDownBanker player then (false, c)
  else if ¬ c.ifIdle then (true, (c.tryWaitUpBanker player).2)
  else
    (true, ({ c with arrBanker := c.arrBanker ++ [player] } :
      Competition ι α).falseWaitDownBanker player)

def applyForUpBanker (cfg : Config α) (c : Competition ι α) (player : ι) : Competition ι α :=
  if ¬ c.ifIdle then (c.tryWaitUpBanker player).2
  else if c.numBanker ≥ cfg.maxBanker then (c.tryWaitUpBanker player).2
  else (c.tryUpBanker player).2

/-- `none` is an error: for a banker it calls `senum.gameIdle`, which does not exist. -/
def tryDownBanker (c : Competition ι α) (player : ι) : Option (Bool × Competition ι α) :=
  if ¬ c.ifBanker player then some (false, c) else none

/-- The loop of `gameBanker`.  `none` is a loop that never ends: the last one who waits is put back
to the end of the list. -/
def gameBanker (cfg : Config α) (c : Competition ι α) : Option (Competition ι α) :=
  if c.numBanker < cfg.maxBanker then
    match c.arrWaitUpBanker.getLast? with
    | some player =>
      let t := (({ c with arrWaitUpBanker := c.arrWaitUpBanker.dropLast } :
        Competition ι α).tryUpBanker player).2
      if t.arrWaitUpBanker.length < c.arrWaitUpBanker.length then gameBanker cfg t else none
    | none => some c
  else some c
termination_by c.arrWaitUpBanker.length

def gameStart (cfg : Config α) (c : Competition ι α) : Option (Competition ι α) :=
  c.dataClear.gameBanker cfg

/-- `wantCount` of `autoUpBanker` -/
def wantCount (cfg : Config α) : Nat := min 1 (cfg.maxBanker / 2)

/-- `autoUpBanker` of a player, with what `math.random` gives. -/
def autoUpBankerOf (cfg : Config α) (c : Competition ι α) (player : ι) (draw : Nat) :
    Competition ι α :=
  if wantCount cfg < c.numBanker + c.numWaitBanker then c
  else if 20 < draw then c
  else (c.tryUpBanker player).2

/-- `autoUpBanker` over the players in the order of `pairs`, each with what is drawn for it. -/
def autoUpBanker (cfg : Config α) (c : Competition ι α) (players : List (ι × Nat)) :
    Competition ι α :=
  if wantCount cfg < c.numBanker + c.numWaitBanker then c
  else players.foldl (fun c p =>
    if (c.players p.1).robot ∧ ¬ c.ifBanker p.1 ∧ ¬ c.ifWaitDownBanker p.1 then
      c.autoUpBankerOf cfg p.1 p.2
    else c) c

end Bankers

/-- How a call of `tryBetting` ends.  A bet that passes is written, and then the call of
`ntfBroadcastBet`, which is not there, raises an error. -/
inductive Verdict
  | status
  | coin
  | banker
  | area
  | amount
  | repayment
  | error
  | broadcast
  deriving DecidableEq

/-- `a / b`; the quotient by 0 is infinite or no number. -/
def quotient (a b : Int) : Option ℚ :=
  if b = 0 then none else some (double (double a / double b))

def ifAreaBet [DecidableEq α] (cfg : Config α) (area : α) (score : Int) : Bool :=
  (cfg.areas area).isSome ∧ ∃ jetton ∈ cfg.jettons, quotient score cfg.unit = some (jetton : ℚ)

variable [DecidableEq ι] [DecidableEq α]

def putBet (c : Competition ι α) (bet : Bet ι α) : Competition ι α :=
  { c with
    mapAreaBet := Function.update c.mapAreaBet bet.area
      (some (wrap ((c.mapAreaBet bet.area).getD 0 + bet.coin)))
    mapBetInfo := Function.update c.mapBetInfo bet.rid
      (some ((c.mapBetInfo bet.rid).getD [] ++ [bet]))
    arrBetInfo := c.arrBetInfo ++ [bet]
    mapBetCoin := Function.update c.mapBetCoin bet.rid
      (some (wrap ((c.mapBetCoin bet.rid).getD 0 + bet.coin))) }

/-- `tryBetting` of a game with its `ifRepayment`, which may raise an error. -/
def tryBetting (cfg : Config α) (ifRepayment : Competition ι α → α → Int → Option Bool)
    (c : Competition ι α) (rid : ι) (area : α) (score : Int) : Verdict × Competition ι α :=
  if ¬ c.ifBetting then (.status, c)
  else if (c.players rid).coin < wrap (score + (c.mapBetCoin rid).getD 0) then (.coin, c)
  else if c.ifBanker rid then (.banker, c)
  else if area ∈ c.arrAreaEnum then (.area, c)
  else if ¬ ifAreaBet cfg area score then (.amount, c)
  else
    match ifRepayment c area score with
    | some true => (.broadcast, c.putBet ⟨rid, area, score⟩)
    | some false => (.repayment, c)
    | none => (.error, c)

end Competition

end XsServer.Hundred
