import XsServer.Hundred.Competition

/-! The ledgers of the bets over the rounds of a table.  A bet that passes the checks is added to
all of them; a new round clears all but `_mapBetCoin`.  The totals are sums of 64 bits. -/

namespace XsServer.Hundred

open XsServer.Lib XsServer.Lib.Number

variable {ι α : Type*}

def stake (bets : List (Bet ι α)) : Int := (bets.map Bet.coin).sum

theorem stake_append (bets bets' : List (Bet ι α)) :
    stake (bets ++ bets') = stake bets + stake bets' := by
  rw [stake, List.map_append, List.sum_append]
  rfl

theorem stake_single (bet : Bet ι α) : stake [bet] = bet.coin := by simp [stake]

theorem stake_filter_snoc (p : Bet ι α → Bool) (bets : List (Bet ι α)) (bet : Bet ι α) :
    stake ((bets ++ [bet]).filter p) =
      stake (bets.filter p) + if p bet then bet.coin else 0 := by
  rw [List.filter_append, stake_append]
  by_cases hp : p bet
  · simp [hp, stake_single]
  · simp [hp, stake]

namespace Competition

variable {c t : Competition ι α}

structure SameBets (c t : Competition ι α) : Prop where
  enum : t.arrAreaEnum = c.arrAreaEnum
  area : t.mapAreaBet = c.mapAreaBet
  info : t.mapBetInfo = c.mapBetInfo
  all : t.arrBetInfo = c.arrBetInfo
  coin : t.mapBetCoin = c.mapBetCoin

theorem SameBets.refl (c : Competition ι α) : SameBets c c := ⟨rfl, rfl, rfl, rfl, rfl⟩

theorem SameBets.symm (h : SameBets c t) : SameBets t c :=
  ⟨h.enum.symm, h.area.symm, h.info.symm, h.all.symm, h.coin.symm⟩

theorem SameBets.trans {u : Competition ι α} (h1 : SameBets c t) (h2 : SameBets t u) :
    SameBets c u :=
  ⟨h2.enum.trans h1.enum, h2.area.trans h1.area, h2.info.trans h1.info, h2.all.trans h1.all,
    h2.coin.trans h1.coin⟩

variable [DecidableEq ι]

theorem sameBets_tryUpBanker (c : Competition ι α) (player : ι) :
    SameBets c (c.tryUpBanker player).2 := by
  unfold tryUpBanker tryWaitUpBanker
  split
  · exact .refl c
  · split
    · exact .refl c
    · split
      · exact ⟨rfl, rfl, rfl, rfl, rfl⟩
      · exact ⟨rfl, rfl, rfl, rfl, rfl⟩

theorem sameBets_gameBanker {cfg : Config α} (h : c.gameBanker cfg = some t) : SameBets c t := by
  fun_induction gameBanker cfg c with
  | case1 c hlt player hlast u hshort ih =>
    refine SameBets.trans ?_ (ih h)
    refine SameBets.trans ?_ (sameBets_tryUpBanker _ player)
    exact ⟨rfl, rfl, rfl, rfl, rfl⟩
  | case2 => cases h
  | case3 c hlt hlast | case4 c hlt =>
    obtain rfl := Option.some.inj h
    exact .refl c

theorem gameStart_eq {cfg : Config α} (c : Competition ι α) (h : cfg.maxBanker ≤ c.numBanker) :
    c.gameStart cfg = some c.dataClear := by
  rw [gameStart, gameBanker, if_neg]
  exact Nat.not_lt.mpr h

variable [DecidableEq α]

def betsOf (c : Competition ι α) (rid : ι) : List (Bet ι α) := c.arrBetInfo.filter (·.rid = rid)

structure Ledgers (c : Competition ι α) : Prop where
  coin : ∀ rid, (c.mapBetCoin rid).getD 0 = wrap (stake ((c.mapBetInfo rid).getD []))
  info : ∀ rid, stake ((c.mapBetInfo rid).getD []) = stake (c.betsOf rid)
  area : ∀ area, (c.mapAreaBet area).getD 0 = wrap (stake (c.arrBetInfo.filter (·.area = area)))

theorem Ledgers.new (players : ι → Player) (arrAreaEnum : List α) :
    Ledgers (new players arrAreaEnum) :=
  ⟨fun _ => rfl, fun _ => rfl, fun _ => rfl⟩

theorem Ledgers.putBet {c : Competition ι α} (h : c.Ledgers) (bet : Bet ι α) :
    (c.putBet bet).Ledgers := by
  constructor
  · intro rid
    show (Function.update c.mapBetCoin bet.rid _ rid).getD 0 =
      wrap (stake ((Function.update c.mapBetInfo bet.rid _ rid).getD []))
    by_cases hrid : rid = bet.rid
    · subst hrid
      rw [Function.update_self, Function.update_self, Option.getD_some, Option.getD_some,
        stake_append, stake_single, h.coin, wrap_wrap_add]
    · rw [Function.update_of_ne hrid, Function.update_of_ne hrid]
      exact h.coin rid
  · intro rid
    show stake ((Function.update c.mapBetInfo bet.rid _ rid).getD []) =
      stake ((c.arrBetInfo ++ [bet]).filter (·.rid = rid))
    rw [stake_filter_snoc]
    by_cases hrid : rid = bet.rid
    · subst hrid
      rw [Function.update_self, Option.getD_some, stake_append, stake_single, h.info]
      simp [betsOf]
    · rw [Function.update_of_ne hrid, h.info]
      simp [betsOf, Ne.symm hrid]
  · intro area
    show (Function.update c.mapAreaBet bet.area _ area).getD 0 =
      wrap (stake ((c.arrBetInfo ++ [bet]).filter (·.area = area)))
    rw [stake_filter_snoc]
    by_cases harea : area = bet.area
    · subst harea
      rw [Function.update_self, Option.getD_some, h.area, wrap_wrap_add]
      simp
    · rw [Function.update_of_ne harea, h.area]
      simp [Ne.symm harea]

theorem SameBets.ledgers (h : SameBets c t) (hl : c.Ledgers) : t.Ledgers := by
  obtain ⟨hcoin, hinfo, harea⟩ := hl
  constructor
  · rw [h.coin, h.info]
    exact hcoin
  · unfold betsOf
    rw [h.info, h.all]
    exact hinfo
  · rw [h.area, h.all]
    exact harea

theorem ledgers_dataClear : c.dataClear.Ledgers ↔ ∀ rid, (c.mapBetCoin rid).getD 0 = 0 := by
  constructor
  · exact fun h rid => h.coin rid
  · exact fun h => ⟨h, fun _ => rfl, fun _ => rfl⟩

/-! ### Rounds -/

/-- A round starts, a bet is tried, or players, bankers and the status change. -/
inductive Event (ι α : Type*)
  | gameStart
  | bet (rid : ι) (area : α) (score : Int) (verdict : Verdict)
  | other

inductive Step (cfg : Config α) (ifRepayment : Competition ι α → α → Int → Option Bool)
    (c : Competition ι α) : Event ι α → Competition ι α → Prop
  | gameStart {t : Competition ι α} (h : c.gameStart cfg = some t) :
    Step cfg ifRepayment c .gameStart t
  | bet (rid : ι) (area : α) (score : Int) :
    Step cfg ifRepayment c (.bet rid area score (c.tryBetting cfg ifRepayment rid area score).1)
      (c.tryBetting cfg ifRepayment rid area score).2
  | other (gmstatus : Option Status) (players : ι → Player) (arrBanker arrWaitUpBanker : List ι) :
    Step cfg ifRepayment c .other { c with gmstatus, players, arrBanker, arrWaitUpBanker }

/-- A round starts only when no player has coins at stake. -/
def Settled (c : Competition ι α) (e : Event ι α) : Prop :=
  e = .gameStart → ∀ rid, (c.mapBetCoin rid).getD 0 = 0

/-- What a bet says of the coins of its player: an accepted bet is within them, with the bets of the
round, and a bet refused for lack of coins is not. -/
def Covered (c : Competition ι α) (e : Event ι α) (t : Competition ι α) : Prop :=
  ∀ rid area score verdict, e = .bet rid area score verdict →
    (verdict = .broadcast → wrap (stake (t.betsOf rid)) ≤ (c.players rid).coin) ∧
      (verdict = .coin → (c.players rid).coin < wrap (score + stake (c.betsOf rid))) ∧
      (verdict ≠ .broadcast → t = c)

variable {cfg : Config α} {ifRepayment : Competition ι α → α → Int → Option Bool} {e : Event ι α}

theorem tryBetting_cases (cfg : Config α)
    (ifRepayment : Competition ι α → α → Int → Option Bool) (c : Competition ι α) (rid : ι)
    (area : α) (score : Int) :
    (c.tryBetting cfg ifRepayment rid area score = (.broadcast, c.putBet ⟨rid, area, score⟩) ∧
        wrap (score + (c.mapBetCoin rid).getD 0) ≤ (c.players rid).coin ∧ area ∉ c.arrAreaEnum ∧
        ifRepayment c area score = some true) ∨
      ∃ verdict, c.tryBetting cfg ifRepayment rid area score = (verdict, c) ∧
        verdict ≠ .broadcast ∧ (verdict = .coin →
          (c.players rid).coin < wrap (score + (c.mapBetCoin rid).getD 0)) := by
  unfold tryBetting
  split
  · exact Or.inr ⟨.status, rfl, by simp, by simp⟩
  · split
    case isTrue hcoin => exact Or.inr ⟨.coin, rfl, by simp, fun _ => hcoin⟩
    case isFalse hcoin =>
      split
      · exact Or.inr ⟨.banker, rfl, by simp, by simp⟩
      · split
        case isTrue => exact Or.inr ⟨.area, rfl, by simp, by simp⟩
        case isFalse harea =>
          split
          · exact Or.inr ⟨.amount, rfl, by simp, by simp⟩
          · split
            case h_1 hrepay => exact Or.inl ⟨rfl, Int.not_lt.mp hcoin, harea, hrepay⟩
            case h_2 => exact Or.inr ⟨.repayment, rfl, by simp, by simp⟩
            case h_3 => exact Or.inr ⟨.error, rfl, by simp, by simp⟩

theorem Ledgers.step_iff (hl : c.Ledgers) (hstep : Step cfg ifRepayment c e t) :
    t.Ledgers ↔ Settled c e := by
  cases hstep with
  | gameStart hstart =>
    have hsame := sameBets_gameBanker hstart
    rw [Settled, forall_prop_of_true rfl, ← ledgers_dataClear]
    exact ⟨hsame.symm.ledgers, hsame.ledgers⟩
  | bet rid area score =>
    refine iff_of_true ?_ (fun h => by cases h)
    obtain ⟨heq, -⟩ | ⟨verdict, heq, -⟩ := tryBetting_cases cfg ifRepayment c rid area score
    · rw [heq]
      exact hl.putBet ⟨rid, area, score⟩
    · rw [heq]
      exact hl
  | other => exact iff_of_true ⟨hl.coin, hl.info, hl.area⟩ (fun h => by cases h)

theorem Ledgers.covered (hl : c.Ledgers) (hstep : Step cfg ifRepayment c e t) : Covered c e t := by
  have hcoin : ∀ rid score, wrap (score + (c.mapBetCoin rid).getD 0) =
      wrap (score + stake (c.betsOf rid)) := fun rid score => by
    rw [hl.coin, hl.info, Int.add_comm, wrap_wrap_add, Int.add_comm]
  rintro rid area score verdict rfl
  cases hstep with
  | bet =>
    obtain ⟨heq, hle, -⟩ | ⟨verdict, heq, hne, hlow⟩ :=
      tryBetting_cases cfg ifRepayment c rid area score
    · rw [heq]
      refine ⟨fun _ => ?_, fun h => (by cases h), fun h => absurd rfl h⟩
      show
        wrap (stake ((c.arrBetInfo ++ [(⟨rid, area, score⟩ : Bet ι α)]).filter (·.rid = rid))) ≤ _
      have hstake : stake (c.arrBetInfo.filter (·.rid = rid)) = stake (c.betsOf rid) := rfl
      rw [stake_filter_snoc, hstake, if_pos (decide_eq_true rfl), Int.add_comm, ← hcoin]
      exact hle
    · rw [heq]
      refine ⟨fun h => absurd h hne, fun h => ?_, fun _ => rfl⟩
      rw [← hcoin]
      exact hlow h

/-- While every round starts with no coins at stake, the ledgers agree and a bet is refused for want
of coins only because of the bets of its round; a round that starts otherwise makes them
disagree. -/
theorem ledgers_agree {players : ι → Player} {arrAreaEnum : List α} {es : List (Event ι α)}
    (hrun : Run (Guarded Settled (Step cfg ifRepayment)) (new players arrAreaEnum) es c) :
    c.Ledgers ∧ ∀ e t, Step cfg ifRepayment c e t → (t.Ledgers ↔ Settled c e) ∧ Covered c e t := by
  have hl : c.Ledgers := hrun.invariant (.new players arrAreaEnum) fun s e t hs hstep =>
    (hs.step_iff hstep.2).mpr hstep.1
  exact ⟨hl, fun e t hstep => ⟨hl.step_iff hstep, hl.covered hstep⟩⟩

/-- A table with one area, where a player has one coin. -/
def oneArea : Config Unit := ⟨fun _ => some ⟨100, 1⟩, [1], 1, 0⟩

def oneCoin : Competition Unit Unit := new (fun _ => ⟨1, .player, false, false, false⟩) []

def oneBetting : Competition Unit Unit := { oneCoin with gmstatus := some .betting }

theorem ifAreaBet_one : ifAreaBet oneArea () 1 = true := by
  have hone : double ((1 : Int) : ℚ) = (1 : Int) := double_intCast (by norm_num)
  rw [Int.cast_one] at hone
  simp [ifAreaBet, oneArea, quotient, hone]

theorem step_oneBetting : Step oneArea (fun _ _ _ => some true) oneBetting
    (.bet () () 1 .broadcast) (oneBetting.putBet ⟨(), (), 1⟩) := by
  have hbet : oneBetting.tryBetting oneArea (fun _ _ _ => some true) () () 1 =
      (.broadcast, oneBetting.putBet ⟨(), (), 1⟩) := by
    rw [tryBetting, if_neg (by decide), if_neg (by decide), if_neg (by decide), if_neg (by decide),
      ifAreaBet_one]
    rfl
  have hstep : Step oneArea (fun _ _ _ => some true) oneBetting (.bet () () 1 _) _ := .bet () () 1
  rwa [hbet] at hstep

theorem ledgers_agree_bet : ∃ c : Competition Unit Unit,
    Run (Guarded Settled (Step oneArea fun _ _ _ => some true)) oneCoin
      [.gameStart, .other, .bet () () 1 .broadcast] c ∧ c.Ledgers := by
  have hrun : Run (Guarded Settled (Step oneArea fun _ _ _ => some true)) oneCoin
      [.gameStart, .other, .bet () () 1 .broadcast] _ :=
    .cons (.of_step (.gameStart (oneCoin.gameStart_eq (Nat.zero_le _))) fun _ _ => rfl) <|
    .cons (.of_step (.other (some .betting) oneCoin.players [] []) (by simp [Settled])) <|
    .cons (.of_step step_oneBetting (by simp [Settled])) <| .nil _
  exact ⟨_, hrun, (ledgers_agree hrun).1⟩

/-- Two rounds: the player bets the coin in the first one, and is refused in the second one, which
has no bets. -/
theorem stake_kept : ∃ c : Competition Unit Unit,
    Run (Step oneArea fun _ _ _ => some true) oneCoin
      [.gameStart, .other, .bet () () 1 .broadcast, .gameStart, .bet () () 1 .coin] c ∧
    c.arrBetInfo = [] ∧ ¬ c.Ledgers := by
  refine ⟨(oneBetting.putBet ⟨(), (), 1⟩).dataClear,
    .cons (.gameStart (gameStart_eq _ (Nat.zero_le _))) <|
    .cons (.other (some .betting) oneCoin.players [] []) <| .cons step_oneBetting <|
    .cons (.gameStart (gameStart_eq _ (Nat.zero_le _))) <| .cons (.bet () () 1) <| .nil _,
    rfl, ?_⟩
  exact fun h => absurd (h.coin ()) (by decide)

end Competition

end XsServer.Hundred
