import XsServer.Hundred.Ledgers

/-! The game of dragon and tiger: whether the bankers can pay a bet, and the settlement. -/

namespace XsServer.Hundred

open XsServer.Lib XsServer.Lib.Number

inductive Area
  | dragon
  | peace
  | tiger
  | other (name : String)
  deriving DecidableEq

namespace DragonTiger

open Competition

variable {ι : Type*}

/-- `_arrAreaEnum` after `ctor` -/
def arrAreaEnum : List Area := [.dragon, .peace, .tiger]

/-- `areas` of the configuration, which has `dragon` twice. -/
def areas : Area → Option AreaInf
  | .dragon => some ⟨100000, 1⟩
  | .peace => some ⟨100000, 16⟩
  | _ => none

/-- What the files of the configuration set, with a unit of 1. -/
def config : Config Area := ⟨areas, [1, 5, 10, 20, 50, 100, 500, 1000], 1, 1⟩

def getAreaOdds (cfg : Config Area) (area : Area) : Option Int := (cfg.areas area).map AreaInf.odds

/-- `total / unit > maxi` -/
def exceeds (total unit maxi : Int) : Bool :=
  match quotient total unit with
  | some q => maxi < q
  | none => 0 < total

/-- `_arrPlayer` at an entry of `_arrBanker`: its keys are seats, and the entry is a player. -/
def playerAt (_ : Competition ι Area) (_ : ι) : Option Player := none

/-- The loop over the bankers; `none` is an error. -/
def payBankers (c : Competition ι Area) (repaymentMaxi : Int) : List ι → Option Bool
  | [] => some true
  | seatID :: bankers =>
    match playerAt c seatID with
    | some player =>
      let repaymentMaxi := wrap (repaymentMaxi - player.coin)
      if repaymentMaxi < 0 then some false else payBankers c repaymentMaxi bankers
    | none => none

/-- `ifRepayment` after the check of the maximum. -/
def repay (cfg : Config Area) (c : Competition ι Area) (dragonBet tigerBet peaceBet : Option Int) :
    Option Bool :=
  match dragonBet, tigerBet, peaceBet, getAreaOdds cfg .peace with
  | some dragonBet, some tigerBet, some peaceBet, some odds =>
    let repaymentDragon := wrap (wrap (dragonBet + peaceBet) - dragonBet)
    let repaymentTiger := wrap (wrap (tigerBet + peaceBet) - tigerBet)
    let repaymentPeace := wrap (peaceBet * odds)
    payBankers c (max (max repaymentDragon repaymentTiger) repaymentPeace) c.arrBanker
  | _, _, _, _ => none

/-- A total with the new score, unless it is over the maximum of its area. -/
def underMaxi (cfg : Config Area) (info : AreaInf) (total : Option Int) (score : Int)
    (next : Option Int → Option Bool) : Option Bool :=
  match total with
  | some total =>
    let total := wrap (total + score)
    if exceeds total cfg.unit info.maxi then some false else next (some total)
  | none => none

/-- `none` is an error, of an area that is not configured or a total that is nil. -/
def ifRepayment (cfg : Config Area) (c : Competition ι Area) (area : Area) (score : Int) :
    Option Bool :=
  match cfg.areas area with
  | none => none
  | some info =>
    let dragonBet := c.mapAreaBet .dragon
    let tigerBet := c.mapAreaBet .tiger
    let peaceBet := c.mapAreaBet .peace
    match area with
    | .dragon => underMaxi cfg info dragonBet score fun bet => repay cfg c bet tigerBet peaceBet
    | .tiger => underMaxi cfg info tigerBet score fun bet => repay cfg c dragonBet bet peaceBet
    | .peace => underMaxi cfg info peaceBet score fun bet => repay cfg c dragonBet tigerBet bet
    | .other _ => repay cfg c dragonBet tigerBet peaceBet

/-- The loop of `gameSettlement`; `none` is an error of `getAreaOdds`. -/
def settle [DecidableEq ι] (cfg : Config Area) (winner : Area) (betBonus : ι → Option Int) :
    List (Bet ι Area) → Option (ι → Option Int)
  | [] => some betBonus
  | info :: bets =>
    match getAreaOdds cfg winner with
    | some odds =>
      let bouns := (betBonus info.rid).getD 0
      if winner = info.area then
        settle cfg winner
          (Function.update betBonus info.rid (some (wrap (bouns + wrap (info.coin * odds))))) bets
      else
        settle cfg winner
          (Function.update betBonus info.rid (some (wrap (bouns + wrap (info.coin * odds))))) bets
    | none => none

def gameSettlement [DecidableEq ι] (cfg : Config Area) (winner : Area) (c : Competition ι Area) :
    Option (Competition ι Area) :=
  (settle cfg winner c.mapBetBonus c.arrBetInfo).map fun mapBetBonus => { c with mapBetBonus }

end DragonTiger

end XsServer.Hundred
