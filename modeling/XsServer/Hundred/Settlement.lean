import XsServer.Hundred.DragonTiger

/-! The settlement of dragon and tiger, what its bankers owe, and what `ifRepayment` answers.  Both
branches of the loop of the settlement add the stake times the odds of the winning area, so every
bet of a player counts as one that wins.  A bet on a listed area is refused before it is written, so
the totals that the check adds up are never there. -/

namespace XsServer.Hundred.DragonTiger

open XsServer.Lib XsServer.Lib.Number Competition

section Settlement

variable {ι : Type*} {cfg : Config Area} {winner : Area} {odds : Int}
variable {bets bets' : List (Bet ι Area)}

theorem stake_filter_and (p q : Bet ι Area → Bool) (bets : List (Bet ι Area)) :
    stake (bets.filter p) =
      stake (bets.filter fun bet => p bet && q bet) +
        stake (bets.filter fun bet => p bet && !q bet) := by
  have hperm := List.filter_append_perm q (bets.filter p)
  rw [List.filter_filter, List.filter_filter] at hperm
  have hsum := (hperm.map Bet.coin).sum_eq
  rw [List.map_append, List.sum_append] at hsum
  simp only [stake, Bool.and_comm (p _)]
  exact hsum.symm

/-- No sum of the bets at the odds of the winning area leaves the integers of 64 bits. -/
def Fits (cfg : Config Area) (winner : Area) (bets : List (Bet ι Area)) : Prop :=
  ∀ odds, getAreaOdds cfg winner = some odds →
    (bets.map fun bet => |bet.coin * odds|).sum ≤ maxInteger

theorem abs_stake_mul_le (odds : Int) (bets : List (Bet ι Area)) :
    |stake bets * odds| ≤ (bets.map fun bet => |bet.coin * odds|).sum := by
  induction bets with
  | nil => simp [stake]
  | cons bet bets ih =>
    have hstake : stake (bet :: bets) * odds = bet.coin * odds + stake bets * odds := by
      rw [stake, List.map_cons, List.sum_cons, Int.add_mul]
      rfl
    rw [hstake, List.map_cons, List.sum_cons]
    exact (abs_add_le _ _).trans (Int.add_le_add_left ih _)

theorem wrap_stake (hodds : getAreaOdds cfg winner = some odds) (hfits : Fits cfg winner bets)
    (hsub : bets'.Sublist bets) : wrap (stake bets' * odds) = stake bets' * odds := by
  have hle : (bets'.map fun bet => |bet.coin * odds|).sum ≤
      (bets.map fun bet => |bet.coin * odds|).sum := by
    refine (hsub.map _).sum_le_sum fun k hk => ?_
    obtain ⟨bet, -, rfl⟩ := List.mem_map.mp hk
    exact abs_nonneg _
  have habs := abs_le.mp ((abs_stake_mul_le odds bets').trans (hle.trans (hfits odds hodds)))
  rw [maxInteger] at habs
  exact wrap_eq (by omega) (by rw [maxInteger]; omega)

variable [DecidableEq ι]

/-- What a player with these bets has after the settlement. -/
def credit (odds : Int) (betBonus : ι → Option Int) (bets : List (Bet ι Area)) (rid : ι) :
    Option Int :=
  if bets.filter (·.rid = rid) = [] then betBonus rid
  else some (wrap ((betBonus rid).getD 0 + stake (bets.filter (·.rid = rid)) * odds))

theorem credit_cons (betBonus : ι → Option Int) (bet : Bet ι Area) (bets : List (Bet ι Area)) :
    credit odds betBonus (bet :: bets) =
      credit odds (Function.update betBonus bet.rid
        (some (wrap ((betBonus bet.rid).getD 0 + wrap (bet.coin * odds))))) bets := by
  funext rid
  by_cases hrid : rid = bet.rid
  · subst hrid
    have hstake : stake ((bet :: bets).filter (·.rid = bet.rid)) =
        bet.coin + stake (bets.filter (·.rid = bet.rid)) := by
      simp [stake]
    have hbonus : ∀ bonus : Int, wrap (bonus + wrap (bet.coin * odds)) =
        wrap (bonus + bet.coin * odds) := fun bonus => by
      rw [Int.add_comm, wrap_wrap_add, Int.add_comm]
    rw [credit, credit, hstake, if_neg (by simp), hbonus]
    by_cases hnil : bets.filter (·.rid = bet.rid) = []
    · rw [if_pos hnil, hnil, Function.update_self]
      simp [stake]
    · rw [if_neg hnil, Function.update_self, Option.getD_some, wrap_wrap_add, Int.add_mul,
        Int.add_assoc]
  · have hfilter : (bet :: bets).filter (·.rid = rid) = bets.filter (·.rid = rid) := by
      simp [Ne.symm hrid]
    rw [credit, credit, hfilter, Function.update_of_ne hrid]

theorem settle_eq (hodds : getAreaOdds cfg winner = some odds) (betBonus : ι → Option Int)
    (bets : List (Bet ι Area)) :
    settle cfg winner betBonus bets = some (credit odds betBonus bets) := by
  induction bets generalizing betBonus with
  | nil => rfl
  | cons bet bets ih =>
    rw [settle, hodds]
    show (if winner = bet.area then _ else _) = _
    rw [ih, ite_self, credit_cons]

theorem credit_perm (h : bets.Perm bets') (betBonus : ι → Option Int) :
    credit odds betBonus bets = credit odds betBonus bets' := by
  funext rid
  have hperm := h.filter (·.rid = rid)
  have hstake : stake (bets.filter (·.rid = rid)) = stake (bets'.filter (·.rid = rid)) :=
    (hperm.map Bet.coin).sum_eq
  have hnil : bets.filter (·.rid = rid) = [] ↔ bets'.filter (·.rid = rid) = [] := by
    constructor
    · intro h
      rw [h] at hperm
      exact hperm.nil_eq.symm
    · intro h
      rw [h] at hperm
      exact hperm.eq_nil
  simp only [credit, hstake, hnil]

theorem credit_total (hodds : getAreaOdds cfg winner = some odds) (hfits : Fits cfg winner bets)
    (hsub : bets'.Sublist bets) (rid : ι) :
    (credit odds (fun _ => none) bets' rid).getD 0 = stake (bets'.filter (·.rid = rid)) * odds := by
  by_cases hnil : bets'.filter (·.rid = rid) = []
  · rw [credit, if_pos hnil, hnil]
    simp [stake]
  · rw [credit, if_neg hnil, Option.getD_some, Option.getD_none, Int.zero_add]
    exact wrap_stake hodds hfits ((List.filter_sublist).trans hsub)

theorem credit_split (hodds : getAreaOdds cfg winner = some odds) (hfits : Fits cfg winner bets)
    (rid : ι) :
    (credit odds (fun _ => none) bets rid).getD 0 =
      stake (bets.filter fun bet => bet.rid = rid && bet.area = winner) * odds +
        ((bets.filter fun bet => bet.rid = rid && bet.area ≠ winner).map (·.coin * odds)).sum := by
  rw [credit_total hodds hfits (List.Sublist.refl bets),
    stake_filter_and _ (fun bet => bet.area = winner), Int.add_mul, List.sum_map_mul_right]
  simp only [stake, decide_not]

/-- The bonuses after a round of these bets, or an error. -/
def settled (cfg : Config Area) (winner : Area) (c : Competition ι Area)
    (bets : List (Bet ι Area)) : Option (ι → Option Int) :=
  (gameSettlement cfg winner { c with arrBetInfo := bets, mapBetBonus := fun _ => none }).map
    mapBetBonus

/-- The settlement pays the winning bets, takes or gives nothing more than the lost stakes do, and
does not depend on the order. -/
structure PaysWinners (cfg : Config Area) (winner : Area) (c : Competition ι Area)
    (bets : List (Bet ι Area)) : Prop where
  winners : ∃ bonus, settled cfg winner c bets = some bonus ∧
    ∃ lost : Bet ι Area → Int, (∀ bet ∈ bets, bet.area ≠ winner → lost bet ≤ 0) ∧
      ∀ rid, (bonus rid).getD 0 =
        stake (bets.filter fun bet => bet.rid = rid && bet.area = winner) *
            ((getAreaOdds cfg winner).getD 0) +
          ((bets.filter fun bet => bet.rid = rid && bet.area ≠ winner).map lost).sum
  never_more : ∀ before bet after bonus bonus', bets = before ++ bet :: after →
    bet.area ≠ winner → settled cfg winner c bets = some bonus →
    settled cfg winner c (before ++ after) = some bonus' →
    (bonus bet.rid).getD 0 ≤ (bonus' bet.rid).getD 0
  order : ∀ bets', bets.Perm bets' → settled cfg winner c bets' = settled cfg winner c bets

theorem settled_eq (hodds : getAreaOdds cfg winner = some odds) (c : Competition ι Area)
    (bets : List (Bet ι Area)) :
    settled cfg winner c bets = some (credit odds (fun _ => none) bets) := by
  rw [settled, gameSettlement]
  show ((settle cfg winner (fun _ => none) bets).map _).map _ = _
  rw [settle_eq hodds]
  rfl

theorem settled_nil (c : Competition ι Area) :
    settled cfg winner c [] = some fun _ => none := rfl

theorem getAreaOdds_of_settled {c : Competition ι Area} {bonus : ι → Option Int}
    (h : settled cfg winner c bets = some bonus) (hbets : bets ≠ []) :
    ∃ info, cfg.areas winner = some info ∧ getAreaOdds cfg winner = some info.odds := by
  obtain ⟨bet, bets, rfl⟩ := List.exists_cons_of_ne_nil hbets
  cases hinfo : cfg.areas winner with
  | some info =>
    refine ⟨info, rfl, ?_⟩
    rw [getAreaOdds, hinfo]
    rfl
  | none =>
    have hodds : getAreaOdds cfg winner = none := by rw [getAreaOdds, hinfo]; rfl
    rw [settled, gameSettlement, settle, hodds] at h
    cases h

theorem credit_middle {before after : List (Bet ι Area)} {bet : Bet ι Area}
    (hodds : getAreaOdds cfg winner = some odds)
    (hfits : Fits cfg winner (before ++ bet :: after)) :
    (credit odds (fun _ => none) (before ++ bet :: after) bet.rid).getD 0 =
      (credit odds (fun _ => none) (before ++ after) bet.rid).getD 0 + bet.coin * odds := by
  have hsub : (before ++ after).Sublist (before ++ bet :: after) :=
    (List.sublist_cons_self bet after).append_left before
  have hstake : stake ((before ++ bet :: after).filter (·.rid = bet.rid)) =
      bet.coin + stake ((before ++ after).filter (·.rid = bet.rid)) := by
    have hperm := (@List.perm_middle _ bet before after).filter (·.rid = bet.rid)
    rw [stake, (hperm.map Bet.coin).sum_eq]
    simp [stake]
  rw [credit_total hodds hfits (List.Sublist.refl _), credit_total hodds hfits hsub, hstake,
    Int.add_mul, Int.add_comm]

/-- For bets whose bonuses have 64 bits: the settlement pays the winners only if and only if there
is no bet, or the winning area is configured and no lost stake has a positive value at its odds. -/
theorem paysWinners_iff (cfg : Config Area) (winner : Area) (c : Competition ι Area)
    (bets : List (Bet ι Area)) (hfits : Fits cfg winner bets) :
    PaysWinners cfg winner c bets ↔ bets = [] ∨ ∃ info, cfg.areas winner = some info ∧
      ∀ bet ∈ bets, bet.area ≠ winner → bet.coin * info.odds ≤ 0 := by
  constructor
  · rintro ⟨⟨bonus, hbonus, -⟩, hmore, -⟩
    by_cases hbets : bets = []
    · exact Or.inl hbets
    obtain ⟨info, hinfo, hodds⟩ := getAreaOdds_of_settled hbonus hbets
    refine Or.inr ⟨info, hinfo, fun bet hbet harea => ?_⟩
    obtain ⟨before, after, rfl⟩ := List.append_of_mem hbet
    have hle := hmore before bet after _ _ rfl harea (settled_eq hodds c _)
      (settled_eq hodds c (before ++ after))
    rw [credit_middle hodds hfits] at hle
    omega
  · rintro (rfl | ⟨info, hinfo, hlost⟩)
    · refine ⟨⟨_, settled_nil c, fun _ => 0, by simp, by simp [stake]⟩, ?_, ?_⟩
      · intro before bet after _ _ hsplit
        simp at hsplit
      · intro bets' hperm
        rw [← hperm.nil_eq]
    · have hodds : getAreaOdds cfg winner = some info.odds := by rw [getAreaOdds, hinfo]; rfl
      refine ⟨⟨_, settled_eq hodds c bets, (·.coin * info.odds), hlost, fun rid => ?_⟩, ?_, ?_⟩
      · rw [hodds]
        exact credit_split hodds hfits rid
      · rintro before bet after bonus bonus' rfl harea hbonus hbonus'
        rw [settled_eq hodds] at hbonus hbonus'
        obtain rfl := Option.some.inj hbonus
        obtain rfl := Option.some.inj hbonus'
        have hle := hlost bet (by simp) harea
        rw [credit_middle hodds hfits]
        omega
      · intro bets' hperm
        rw [settled_eq hodds, settled_eq hodds, credit_perm hperm]

theorem paysWinners_two : PaysWinners config .dragon
    (new (fun _ => ⟨100, .player, false, false, false⟩) arrAreaEnum : Competition Nat Area)
    [⟨1, .dragon, 5⟩, ⟨2, .dragon, 20⟩, ⟨1, .dragon, 1⟩] := by
  refine (paysWinners_iff _ _ _ _ ?_).mpr (Or.inr ⟨⟨100000, 1⟩, rfl, by decide⟩)
  intro odds hodds
  obtain rfl := Option.some.inj hodds
  decide

/-- The dragon wins, and a bet of 1 on peace is paid as if it did. -/
theorem lost_bet_paid :
    (∃ bonus, settled config .dragon (new (fun _ => ⟨100, .player, false, false, false⟩)
        arrAreaEnum : Competition Nat Area) [⟨1, .peace, 1⟩] = some bonus ∧ bonus 1 = some 1) ∧
      ¬ PaysWinners config .dragon (new (fun _ => ⟨100, .player, false, false, false⟩)
        arrAreaEnum : Competition Nat Area) [⟨1, .peace, 1⟩] := by
  refine ⟨⟨_, rfl, rfl⟩, fun h => ?_⟩
  have hle := h.never_more [] ⟨1, .peace, 1⟩ [] _ _ rfl (by decide) rfl rfl
  exact absurd hle (by decide)

end Settlement

section Repayment

variable {ι : Type*} {cfg : Config Area} {c t : Competition ι Area} {area : Area} {score : Int}

/-- What the bankers pay for a bet when `winner` wins: the odds, or minus the lost stake. -/
def owedOf (cfg : Config Area) (winner : Area) (bet : Bet ι Area) : Int :=
  if bet.area = winner then bet.coin * (getAreaOdds cfg winner).getD 0 else -bet.coin

def owed (cfg : Config Area) (bets : List (Bet ι Area)) (winner : Area) : Int :=
  (bets.map (owedOf cfg winner)).sum

def bankersCoin (c : Competition ι Area) : Int :=
  (c.arrBanker.map fun banker => (c.players banker).coin).sum

def Pays (cfg : Config Area) (c : Competition ι Area) (bets : List (Bet ι Area)) : Prop :=
  ∀ winner ∈ arrAreaEnum, owed cfg bets winner ≤ bankersCoin c

/-- A new bet is under the maximum of its area, and the bankers can pay all bets with it. -/
structure Within (cfg : Config Area) (c : Competition ι Area) (bet : Bet ι Area) : Prop where
  maxi : ∃ info, cfg.areas bet.area = some info ∧
    exceeds (stake (c.arrBetInfo.filter (·.area = bet.area)) + bet.coin) cfg.unit info.maxi = false
  pays : Pays cfg c (c.arrBetInfo ++ [bet])

/-- What an accepted bet leaves can be paid, and a bet that can be paid is not refused. -/
def Solvent [DecidableEq ι] (cfg : Config Area) (c : Competition ι Area) (bet : Bet ι Area) :
    Prop :=
  (∀ t, c.tryBetting cfg (ifRepayment cfg) bet.rid bet.area bet.coin = (.broadcast, t) →
    Pays cfg t t.arrBetInfo) ∧
  (Within cfg c bet → ifRepayment cfg c bet.area bet.coin = some true)

theorem payBankers_eq_true_iff {repaymentMaxi : Int} {bankers : List ι} :
    payBankers c repaymentMaxi bankers = some true ↔ bankers = [] := by
  cases bankers with
  | nil => exact iff_of_true rfl rfl
  | cons => simp [payBankers, playerAt]

theorem repay_eq_true_iff {dragonBet tigerBet peaceBet : Option Int} :
    repay cfg c dragonBet tigerBet peaceBet = some true ↔
      dragonBet.isSome ∧ tigerBet.isSome ∧ peaceBet.isSome ∧ (cfg.areas .peace).isSome ∧
        c.arrBanker = [] := by
  unfold repay
  split
  · rename_i hodds
    have hpeace : (cfg.areas .peace).isSome := by
      rw [getAreaOdds, Option.map_eq_some_iff] at hodds
      obtain ⟨info, hinfo, -⟩ := hodds
      rw [hinfo]
      rfl
    simp [payBankers_eq_true_iff, hpeace]
  · rename_i hnone
    refine iff_of_false (by simp) ?_
    rintro ⟨hdragon, htiger, hpeace, hinfo, -⟩
    obtain ⟨info, hinfo⟩ := Option.isSome_iff_exists.mp hinfo
    refine hnone _ _ _ info.odds (Option.some_get hdragon).symm (Option.some_get htiger).symm
      (Option.some_get hpeace).symm ?_
    rw [getAreaOdds, hinfo]
    rfl

theorem underMaxi_eq_true_iff {info : AreaInf} {total : Option Int}
    {next : Option Int → Option Bool} :
    underMaxi cfg info total score next = some true ↔
      ∃ before, total = some before ∧ exceeds (wrap (before + score)) cfg.unit info.maxi = false ∧
        next (some (wrap (before + score))) = some true := by
  cases total with
  | none => simp [underMaxi]
  | some before =>
    by_cases hover : exceeds (wrap (before + score)) cfg.unit info.maxi = true
    · simp [underMaxi, hover]
    · simp [underMaxi, hover]

/-- For any table: the check passes if and only if the area is configured and not over its maximum,
there is a total for each of the three areas, and there is no banker. -/
theorem ifRepayment_eq_true_iff :
    ifRepayment cfg c area score = some true ↔
      (∃ info, cfg.areas area = some info ∧ (area ∈ arrAreaEnum →
        exceeds (wrap ((c.mapAreaBet area).getD 0 + score)) cfg.unit info.maxi = false)) ∧
      (∀ other ∈ arrAreaEnum, (c.mapAreaBet other).isSome) ∧ (cfg.areas .peace).isSome ∧
        c.arrBanker = [] := by
  have hall : (∀ other ∈ arrAreaEnum, (c.mapAreaBet other).isSome) ↔
      (c.mapAreaBet .dragon).isSome ∧ (c.mapAreaBet .peace).isSome ∧
        (c.mapAreaBet .tiger).isSome := by
    simp [arrAreaEnum]
  rw [hall]
  unfold ifRepayment
  cases hinfo : cfg.areas area with
  | none => simp
  | some info =>
    cases area with
    | dragon =>
      cases c.mapAreaBet .dragon with
      | none => simp [underMaxi_eq_true_iff]
      | some total =>
        simp [underMaxi_eq_true_iff, repay_eq_true_iff, arrAreaEnum]
        tauto
    | tiger =>
      cases c.mapAreaBet .tiger with
      | none => simp [underMaxi_eq_true_iff]
      | some total =>
        simp [underMaxi_eq_true_iff, repay_eq_true_iff, arrAreaEnum]
        tauto
    | peace =>
      cases c.mapAreaBet .peace with
      | none => simp [underMaxi_eq_true_iff]
      | some total =>
        simp [underMaxi_eq_true_iff, repay_eq_true_iff, arrAreaEnum]
        tauto
    | other =>
      simp [repay_eq_true_iff, arrAreaEnum]
      tauto

/-! ### Rounds -/

/-- No bet has been written. -/
structure Untouched (c : Competition ι Area) : Prop where
  enum : c.arrAreaEnum = arrAreaEnum
  area : c.mapAreaBet = fun _ => none
  all : c.arrBetInfo = []

theorem Untouched.new (players : ι → Player) : Untouched (new players arrAreaEnum) :=
  ⟨rfl, rfl, rfl⟩

theorem Untouched.of_sameBets (h : Untouched c) (hsame : SameBets c t) : Untouched t :=
  ⟨hsame.enum.trans h.enum, hsame.area.trans h.area, hsame.all.trans h.all⟩

theorem Untouched.ifRepayment_ne_true (h : Untouched c) :
    ifRepayment cfg c area score ≠ some true := by
  intro htrue
  obtain ⟨-, htotals, -⟩ := ifRepayment_eq_true_iff.mp htrue
  have hdragon := htotals .dragon (by simp [arrAreaEnum])
  rw [h.area] at hdragon
  exact absurd hdragon (by simp)

variable [DecidableEq ι]

theorem Untouched.not_written (h : Untouched c) (rid : ι) :
    (c.tryBetting cfg (ifRepayment cfg) rid area score).2 = c ∧
      (c.tryBetting cfg (ifRepayment cfg) rid area score).1 ≠ .broadcast := by
  obtain ⟨-, -, -, htrue⟩ | ⟨verdict, heq, hverdict, -⟩ :=
    tryBetting_cases cfg (ifRepayment cfg) c rid area score
  · exact absurd htrue h.ifRepayment_ne_true
  · rw [heq]
    exact ⟨rfl, hverdict⟩

theorem Untouched.step {e : Event ι Area} (h : Untouched c)
    (hstep : Step cfg (ifRepayment cfg) c e t) : Untouched t := by
  cases hstep with
  | gameStart hstart =>
    refine Untouched.of_sameBets ?_ (sameBets_gameBanker hstart)
    exact ⟨h.enum, rfl, rfl⟩
  | bet rid area score =>
    rw [(h.not_written rid).1]
    exact h
  | other => exact ⟨h.enum, h.area, h.all⟩

/-- Whatever the bankers are: the claim of a bet holds exactly when the bet is over the maximum of
its area or over what the bankers can pay.  No other bet passes, for the check raises an error. -/
theorem solvent_iff {players : ι → Player} {es : List (Event ι Area)}
    (hrun : Run (Step cfg (ifRepayment cfg)) (new players arrAreaEnum) es c) (bet : Bet ι Area) :
    Solvent cfg c bet ↔ ¬ Within cfg c bet := by
  have huntouched : Untouched c :=
    hrun.invariant (Untouched.new players) fun s e n h hstep => h.step hstep
  constructor
  · rintro ⟨-, hpasses⟩ hwithin
    exact huntouched.ifRepayment_ne_true (hpasses hwithin)
  · intro hwithin
    refine ⟨fun t hwritten => ?_, fun h => absurd h hwithin⟩
    have hverdict := congrArg Prod.fst hwritten
    exact absurd hverdict (huntouched.not_written bet.rid).2

/-- The idle table where player 0 becomes a banker. -/
def idleTable : Competition Nat Area :=
  { new (fun _ => ⟨100, .player, false, false, false⟩) arrAreaEnum with gmstatus := some .idle }

def bettingTable : Competition Nat Area :=
  { idleTable with
    gmstatus := some .betting
    arrBanker := (idleTable.applyForUpBanker config 0).arrBanker }

theorem run_bettingTable : Run (Step config (ifRepayment config))
    (new idleTable.players arrAreaEnum) [.other, .other] bettingTable :=
  .cons (.other (some .idle) idleTable.players [] []) <|
    .cons (.other (some .betting) idleTable.players bettingTable.arrBanker []) <| .nil _

theorem exceeds_one {total maxi : Int} (h : |total| ≤ 2 ^ 53) :
    exceeds total 1 maxi = decide (maxi < total) := by
  have hone : double ((1 : Int) : ℚ) = (1 : Int) := double_intCast (by norm_num)
  rw [exceeds, quotient, if_neg Int.one_ne_zero, double_intCast h, hone, Int.cast_one, div_one,
    double_intCast h]
  simp

theorem solvent_over_maxi : ¬ Within config bettingTable ⟨1, .dragon, 1000000⟩ ∧
    Solvent config bettingTable ⟨1, .dragon, 1000000⟩ := by
  have hover : ¬ Within config bettingTable ⟨1, .dragon, 1000000⟩ := by
    rintro ⟨⟨info, hinfo, hmaxi⟩, -⟩
    obtain rfl := Option.some.inj hinfo
    exact absurd ((@exceeds_one 1000000 _ (by norm_num)).symm.trans hmaxi) (by decide)
  exact ⟨hover, (solvent_iff run_bettingTable _).mpr hover⟩

/-- A bet of 1 on the dragon, where the banker has 100 coins: the check raises an error. -/
theorem bet_not_checked : Run (Step config (ifRepayment config))
      (new idleTable.players arrAreaEnum) [.other, .other] bettingTable ∧
    Within config bettingTable ⟨1, .dragon, 1⟩ ∧
    ifRepayment config bettingTable .dragon 1 = none ∧
    ¬ Solvent config bettingTable ⟨1, .dragon, 1⟩ := by
  have hwithin : Within config bettingTable ⟨1, .dragon, 1⟩ := by
    refine ⟨⟨⟨100000, 1⟩, rfl, @exceeds_one 1 _ (by norm_num)⟩, ?_⟩
    show ∀ winner ∈ arrAreaEnum, _
    decide
  refine ⟨run_bettingTable, hwithin, by decide, ?_⟩
  exact fun h => absurd (h.2 hwithin) (by decide)

end Repayment

end XsServer.Hundred.DragonTiger
