import XsServer.Hundred.Competition
import XsServer.Hundred.Dealing
import XsServer.Lib.Number

/-! The bets that a robot plans.  What `math.random` returns is an argument, and a loop that has not
ended after `fuel` turns has no result. -/

namespace XsServer.Hundred

open XsServer.Lib.Number

variable {α : Type*}

/-- `hundredRobotBetting` -/
structure RobotBetting (α : Type*) where
  area : α
  chip : Int
  deriving DecidableEq

/-- `rands` of a strategy -/
structure Rands where
  min : Int
  max : Int
  lis : List Nat

/-- The `cfg` of `robotBet`. -/
structure RobotCfg where
  ratio : Option LuaNum
  chips : Option (List Nat)
  rands : Option Rands

/-- What is drawn for a chip of `chips`, for the number of chips of `rands`, and for each. -/
structure Draws where
  irand : Nat
  number : Int
  irands : List Nat

/-- `none` is an error of a chip that is not there. -/
def chipScore (game : Config α) (index : Nat) : Option Int :=
  (atIndex game.jettons index).map fun count => wrap (count * game.unit)

/-- `coin * ratio // 1` -/
def assetOf (coin ratio : LuaNum) : LuaNum :=
  match coin.mul ratio with
  | .int i => .int i
  | .float q => .float ⌊q⌋

/-- The first `i` of the inner loop, from `start` down, at which it breaks. -/
def pick (game : Config α) (asset : LuaNum) : Nat → Option (Nat × Int)
  | 0 => none
  | i + 1 =>
    match chipScore game (i + 1) with
    | some score =>
      if asset.value ≥ score ∨ 1 = i + 1 then some (i + 1, score) else pick game asset i
    | none => none

/-- The loop while there is something left; without a chip it goes on. -/
def spend (game : Config α) (area : α) : Nat → LuaNum → Nat → List (RobotBetting α) →
    Option (List (RobotBetting α))
  | 0, _, _, _ => none
  | fuel + 1, asset, start, bettings =>
    if asset.value > 0 then
      match pick game asset start with
      | some (i, score) =>
        spend game area fuel (asset.sub (.int score)) i (bettings ++ [⟨area, score⟩])
      | none => spend game area fuel asset start bettings
    else some bettings

def chipBet (game : Config α) (area : α) (chips : List Nat) (bettings : List (RobotBetting α))
    (irand : Nat) : Option (List (RobotBetting α)) :=
  ((atIndex chips irand).bind (chipScore game)).map fun score => bettings ++ [⟨area, score⟩]

/-- The part of `robotBet` with the ratio. -/
def ratioBets (game : Config α) (coin ratio : LuaNum) (area : α) (fuel : Nat)
    (bettings : List (RobotBetting α)) : Option (List (RobotBetting α)) :=
  spend game area fuel (assetOf coin ratio) game.jettons.length bettings

def robotBet (game : Config α) (cfg : RobotCfg) (coin : LuaNum) (area : α) (fuel : Nat)
    (draws : Draws) (bettings : List (RobotBetting α)) : Option (List (RobotBetting α)) := do
  let bettings ← match cfg.ratio with
    | some ratio => ratioBets game coin ratio area fuel bettings
    | none => some bettings
  let bettings ← match cfg.chips with
    | some chips => chipBet game area chips bettings draws.irand
    | none => some bettings
  match cfg.rands with
  | some rands =>
    if rands.min ≤ draws.number ∧ draws.number ≤ rands.max ∧
        draws.irands.length = draws.number.toNat then
      draws.irands.foldlM (chipBet game area rands.lis) bettings
    else none
  | none => some bettings

def scores (game : Config α) : List Int := game.jettons.map fun count => wrap (count * game.unit)

def planned (bettings : List (RobotBetting α)) : Int := (bettings.map RobotBetting.chip).sum

def Exact : LuaNum → Prop
  | .int _ => True
  | .float q => q ≤ 2 ^ 53

structure Budget (game : Config α) (area : α) (asset : ℚ) (bettings : List (RobotBetting α)) :
    Prop where
  chip : ∀ b ∈ bettings, b.area = area ∧ b.chip ∈ scores game
  covers : asset ≤ planned bettings
  below : 0 < asset → ∀ s ∈ scores game, (planned bettings : ℚ) < asset + s
  nothing : asset ≤ 0 → bettings = []

variable {game : Config α} {area : α} {asset : LuaNum} {k s : ℤ}

/-- An asset of `k` ones. -/
inductive Counts : LuaNum → ℤ → Prop
  | int {k : ℤ} (hk : k ≤ maxInteger) : Counts (.int k) k
  | float {k : ℤ} (hk : k ≤ 2 ^ 53) : Counts (.float k) k

theorem Counts.value (h : Counts asset k) : asset.value = k := by
  cases h with
  | int | float => rfl

theorem Counts.sub (h : Counts asset k) (hs : 0 < s) (hle : s ≤ k) :
    Counts (asset.sub (.int s)) (k - s) := by
  cases h with
  | int hk =>
    rw [LuaNum.sub, wrap_eq (by omega) (by omega)]
    exact .int (by omega)
  | float hk =>
    have hscore : double s = s := double_intCast (abs_le.mpr ⟨by omega, by omega⟩)
    have hleft : double ((k - s : ℤ) : ℚ) = (k - s : ℤ) :=
      double_intCast (abs_le.mpr ⟨by omega, by omega⟩)
    rw [LuaNum.sub, LuaNum.toFloat, LuaNum.toFloat, hscore, ← Int.cast_sub, hleft]
    · exact .float (by omega)
    · simp

theorem Counts.sub_over (h : Counts asset k) (hk : 0 < k) (hlt : k < s) (hs : s ≤ maxInteger) :
    (asset.sub (.int s)).value ≤ 0 := by
  cases h with
  | int =>
    rw [maxInteger] at hs
    rw [LuaNum.sub, wrap_eq (by omega) (by rw [maxInteger]; omega), LuaNum.value]
    exact_mod_cast show k - s ≤ 0 by omega
  | float hbound =>
    have hscore : (k : ℚ) ≤ double s := by
      rcases le_or_gt s (2 ^ 53) with hsmall | hlarge
      · rw [double_intCast (abs_le.mpr ⟨by omega, hsmall⟩)]
        exact_mod_cast hlt.le
      · have hround : (2 : ℚ) ^ 53 ≤ double s := two_pow_le_double (by exact_mod_cast hlarge.le)
        have hleft : (k : ℚ) ≤ 2 ^ 53 := by exact_mod_cast hbound
        exact hleft.trans hround
    rw [LuaNum.sub, LuaNum.toFloat, LuaNum.toFloat, LuaNum.value]
    · rcases hscore.eq_or_lt with heq | hless
      · rw [heq, sub_self, double_zero]
      · exact (double_neg (sub_neg.mpr hless)).le
    · simp

theorem assetOf_counts {coin ratio : LuaNum} (h : Exact (assetOf coin ratio)) :
    ∃ k, Counts (assetOf coin ratio) k := by
  rw [assetOf] at h ⊢
  cases hmul : coin.mul ratio with
  | int i =>
    refine ⟨i, .int ?_⟩
    cases coin with
    | int a => cases ratio with
      | int b =>
        obtain rfl : wrap (a * b) = i := by simpa [LuaNum.mul] using hmul
        exact wrap_le _
      | float q => simp [LuaNum.mul] at hmul
    | float q => simp [LuaNum.mul] at hmul
  | float q =>
    rw [hmul] at h
    exact ⟨⌊q⌋, .float (by exact_mod_cast show ((⌊q⌋ : ℤ) : ℚ) ≤ 2 ^ 53 from h)⟩

theorem chipScore_succ (i : Nat) : chipScore game (i + 1) = (scores game)[i]? := by
  rw [chipScore, atIndex, scores, List.getElem?_map]

theorem score_le (hs : s ∈ scores game) : s ≤ maxInteger := by
  obtain ⟨count, -, rfl⟩ := List.mem_map.mp hs
  exact wrap_le _

theorem pick_spec (asset : LuaNum) {start : Nat} (hpos : 1 ≤ start)
    (hle : start ≤ game.jettons.length) :
    ∃ i s, pick game asset start = some (i + 1, s) ∧ i + 1 ≤ start ∧
      (scores game)[i]? = some s ∧ (s ≤ asset.value ∨ i = 0) := by
  induction start with
  | zero => exact absurd hpos (by omega)
  | succ start ih =>
    obtain ⟨s, hs⟩ : ∃ s, (scores game)[start]? = some s :=
      ⟨_, List.getElem?_eq_getElem (by rw [scores, List.length_map]; omega)⟩
    rw [pick, chipScore_succ, hs]
    simp only
    split
    case isTrue hbreak =>
      exact ⟨start, s, rfl, le_rfl, hs, hbreak.imp id fun h => by omega⟩
    case isFalse hnot =>
      rw [not_or] at hnot
      obtain ⟨i, s, hpick, hi, hscore⟩ := ih (by omega) (by omega)
      exact ⟨i, s, hpick, by omega, hscore⟩

theorem first_le {l : List ℤ} (hasc : l.Pairwise (· ≤ ·)) (hs : l[0]? = some s) :
    ∀ t ∈ l, s ≤ t := by
  cases l with
  | nil => cases hs
  | cons x l =>
    obtain rfl : x = s := by simpa using hs
    exact List.forall_mem_cons.mpr ⟨le_rfl, (List.pairwise_cons.mp hasc).1⟩

theorem Budget.nil (hk : k ≤ 0) : Budget game area k [] where
  chip := by simp
  covers := by simpa [planned] using hk
  below hpos := absurd hk (by simpa using hpos)
  nothing _ := rfl

theorem Budget.cons {bettings : List (RobotBetting α)} (hpos : ∀ s ∈ scores game, 0 < s)
    (hs : s ∈ scores game) (hle : s ≤ k) (h : Budget game area (k - s : ℤ) bettings) :
    Budget game area k (⟨area, s⟩ :: bettings) where
  chip := List.forall_mem_cons.mpr ⟨⟨rfl, hs⟩, h.chip⟩
  covers := by
    have hcovers := h.covers
    simp only [planned, List.map_cons, List.sum_cons] at hcovers ⊢
    push_cast at hcovers ⊢
    linarith
  below _ t ht := by
    rcases hle.eq_or_lt with rfl | hlt
    · rw [h.nothing (by simp)]
      have hchip : (0 : ℚ) < t := by exact_mod_cast hpos t ht
      simpa [planned] using hchip
    · have hbelow := h.below (by exact_mod_cast show 0 < k - s by omega) t ht
      simp only [planned, List.map_cons, List.sum_cons] at hbelow ⊢
      push_cast at hbelow ⊢
      linarith
  nothing hk := by
    have hchip := hpos s hs
    have hnot : k ≤ 0 := by exact_mod_cast hk
    omega

theorem Budget.over (hk : 0 < k) (hs : s ∈ scores game) (hlt : k < s)
    (hleast : ∀ t ∈ scores game, s ≤ t) : Budget game area k [⟨area, s⟩] where
  chip := by simpa using hs
  covers := by simpa [planned] using hlt.le
  below _ t ht := by
    have hle := hleast t ht
    simpa [planned] using show (s : ℚ) < k + t by exact_mod_cast show s < k + t by omega
  nothing hnot := absurd hk (by simpa using hnot)

theorem spend_nothing (h : asset.value ≤ 0) (fuel start : Nat) (bettings : List (RobotBetting α)) :
    spend game area (fuel + 1) asset start bettings = some bettings := by
  rw [spend, if_neg (not_lt.mpr h)]

theorem spend_chip {i start : Nat} (hleft : 0 < asset.value)
    (hpick : pick game asset start = some (i, s)) (fuel : Nat)
    (bettings : List (RobotBetting α)) :
    spend game area (fuel + 1) asset start bettings
      = spend game area fuel (asset.sub (.int s)) i (bettings ++ [⟨area, s⟩]) := by
  rw [spend, if_pos hleft, hpick]

/-- The loop ends, since every chip takes one at least; the place that it carries is that of a
chip. -/
theorem spend_ends (hpos : ∀ s ∈ scores game, 0 < s) (hasc : (scores game).Pairwise (· ≤ ·))
    (h : Counts asset k) {start : Nat} (hstart : 1 ≤ start) (hle : start ≤ game.jettons.length) :
    ∃ n new, Budget game area k new ∧ ∀ fuel, n ≤ fuel → ∀ bettings,
      spend game area fuel asset start bettings = some (bettings ++ new) := by
  induction hn : k.toNat using Nat.strong_induction_on generalizing asset k start with
  | _ n ih =>
    rcases le_or_gt k 0 with hk | hk
    · refine ⟨1, [], Budget.nil hk, fun fuel hfuel bettings => ?_⟩
      obtain ⟨fuel, rfl⟩ := Nat.exists_eq_add_of_le' hfuel
      rw [spend_nothing (by rw [h.value]; exact_mod_cast hk), List.append_nil]
    · have hleft : 0 < asset.value := by
        rw [h.value]
        exact_mod_cast hk
      obtain ⟨i, s, hpick, hi, hget, hfits⟩ := pick_spec asset hstart hle
      have hs : s ∈ scores game := List.mem_of_getElem? hget
      have hchip := hpos s hs
      rcases le_or_gt s k with hsk | hks
      · obtain ⟨m, new, hnew, hrun⟩ := ih (k - s).toNat (by omega) (h.sub hchip hsk)
          (show 1 ≤ i + 1 by omega) (by omega) rfl
        refine ⟨m + 1, ⟨area, s⟩ :: new, hnew.cons hpos hs hsk, fun fuel hfuel bettings => ?_⟩
        obtain ⟨fuel, rfl⟩ := Nat.exists_eq_add_of_le' (show 1 ≤ fuel by omega)
        rw [spend_chip hleft hpick, hrun fuel (by omega), List.append_assoc, List.singleton_append]
      · -- it is in the first place
        obtain rfl : i = 0 := hfits.resolve_left fun hbig => by
          rw [h.value] at hbig
          exact absurd (by exact_mod_cast hbig : s ≤ k) (by omega)
        have hover := h.sub_over hk hks (score_le hs)
        refine ⟨2, [⟨area, s⟩], Budget.over hk hs hks (first_le hasc hget),
          fun fuel hfuel bettings => ?_⟩
        obtain ⟨fuel, rfl⟩ := Nat.exists_eq_add_of_le' hfuel
        rw [spend_chip hleft hpick, spend_nothing hover]

/-! ### A whole plan -/

theorem spend_append (fuel : Nat) (asset : LuaNum) (start : Nat)
    (bettings new : List (RobotBetting α)) :
    spend game area fuel asset start (bettings ++ new) =
      (spend game area fuel asset start new).map (bettings ++ ·) := by
  induction fuel generalizing asset start new with
  | zero => rfl
  | succ fuel ih =>
    rw [spend, spend]
    split
    · split
      · rw [List.append_assoc, ih]
      · rw [ih]
    · rfl

variable {bettings out : List (RobotBetting α)}

theorem chipBet_eq_some {chips : List Nat} {irand : Nat}
    (h : chipBet game area chips bettings irand = some out) :
    ∃ s ∈ scores game, out = bettings ++ [⟨area, s⟩] := by
  obtain ⟨s, hs, rfl⟩ := Option.map_eq_some_iff.mp h
  obtain ⟨index, -, hscore⟩ := Option.bind_eq_some_iff.mp hs
  cases index with
  | zero => cases hscore
  | succ i =>
    rw [chipScore_succ] at hscore
    exact ⟨s, List.mem_of_getElem? hscore, rfl⟩

def Drawn (game : Config α) (area : α) (bettings : List (RobotBetting α)) : Prop :=
  ∀ b ∈ bettings, b.area = area ∧ b.chip ∈ scores game

theorem foldlM_chipBet_eq_some {chips : List Nat} {irands : List Nat}
    (h : irands.foldlM (chipBet game area chips) bettings = some out) :
    ∃ drawn, Drawn game area drawn ∧ out = bettings ++ drawn := by
  induction irands generalizing bettings with
  | nil =>
    obtain rfl := Option.some.inj h
    exact ⟨[], fun _ hb => absurd hb List.not_mem_nil, (List.append_nil _).symm⟩
  | cons irand irands ih =>
    rw [List.foldlM_cons] at h
    obtain ⟨next, hnext, hrest⟩ := Option.bind_eq_some_iff.mp h
    obtain ⟨s, hs, rfl⟩ := chipBet_eq_some hnext
    obtain ⟨drawn, hdrawn, rfl⟩ := ih hrest
    exact ⟨⟨area, s⟩ :: drawn, List.forall_mem_cons.mpr ⟨⟨rfl, hs⟩, hdrawn⟩, by simp⟩

theorem robotBet_eq (cfg : RobotCfg) (coin : LuaNum) (fuel : Nat) (draws : Draws)
    (bettings : List (RobotBetting α)) :
    robotBet game cfg coin area fuel draws bettings =
      (match cfg.ratio with
        | some ratio => ratioBets game coin ratio area fuel bettings
        | none => some bettings).bind fun bettings =>
      (match cfg.chips with
        | some chips => chipBet game area chips bettings draws.irand
        | none => some bettings).bind fun bettings =>
      match cfg.rands with
      | some rands =>
        if rands.min ≤ draws.number ∧ draws.number ≤ rands.max ∧
            draws.irands.length = draws.number.toNat then
          draws.irands.foldlM (chipBet game area rands.lis) bettings
        else none
      | none => some bettings := by
  obtain ⟨ratio, chips, rands⟩ := cfg
  cases ratio with
  | none | some ratio =>
    cases chips with
    | none | some chips => rfl

/-- The plan of `robotBet` begins with the bets of the ratio, if there is one; what follows are
chips that are drawn, whatever the coins of the robot are. -/
theorem robotBet_eq_some {cfg : RobotCfg} {coin : LuaNum} {fuel : Nat} {draws : Draws}
    (h : robotBet game cfg coin area fuel draws bettings = some out) :
    ∃ spent drawn, out = bettings ++ spent ++ drawn ∧ Drawn game area drawn ∧
      match cfg.ratio with
      | some ratio => ratioBets game coin ratio area fuel [] = some spent
      | none => spent = [] := by
  rw [robotBet_eq] at h
  obtain ⟨first, hfirst, h⟩ := Option.bind_eq_some_iff.mp h
  obtain ⟨second, hsecond, hthird⟩ := Option.bind_eq_some_iff.mp h
  have hspent : ∃ spent, first = bettings ++ spent ∧
      match cfg.ratio with
      | some ratio => ratioBets game coin ratio area fuel [] = some spent
      | none => spent = [] := by
    cases hratio : cfg.ratio with
    | none =>
      rw [hratio] at hfirst
      obtain rfl := Option.some.inj hfirst
      exact ⟨[], (List.append_nil _).symm, rfl⟩
    | some ratio =>
      rw [hratio] at hfirst
      have happend := @spend_append _ game area fuel (assetOf coin ratio)
        game.jettons.length bettings []
      rw [List.append_nil] at happend
      obtain ⟨spent, hspent, rfl⟩ := Option.map_eq_some_iff.mp (happend.symm.trans hfirst)
      exact ⟨spent, rfl, hspent⟩
  have hchips : ∃ drawn, Drawn game area drawn ∧ second = first ++ drawn := by
    cases hchips : cfg.chips with
    | none =>
      rw [hchips] at hsecond
      obtain rfl := Option.some.inj hsecond
      exact ⟨[], fun _ hb => absurd hb List.not_mem_nil, (List.append_nil _).symm⟩
    | some chips =>
      rw [hchips] at hsecond
      obtain ⟨s, hs, rfl⟩ := chipBet_eq_some hsecond
      exact ⟨[⟨area, s⟩], List.forall_mem_singleton.mpr ⟨rfl, hs⟩, rfl⟩
  have hrands : ∃ drawn, Drawn game area drawn ∧ out = second ++ drawn := by
    cases hrands : cfg.rands with
    | none =>
      rw [hrands] at hthird
      obtain rfl := Option.some.inj hthird
      exact ⟨[], fun _ hb => absurd hb List.not_mem_nil, (List.append_nil _).symm⟩
    | some rands =>
      rw [hrands] at hthird
      dsimp only at hthird
      split at hthird
      · exact foldlM_chipBet_eq_some hthird
      · cases hthird
  obtain ⟨spent, rfl, hspent⟩ := hspent
  obtain ⟨chips, hone, rfl⟩ := hchips
  obtain ⟨rands, hmany, rfl⟩ := hrands
  exact ⟨spent, chips ++ rands, by simp, List.forall_mem_append.mpr ⟨hone, hmany⟩, hspent⟩

/-- With chips in ascending order the loop ends and keeps to the asset: it plans for what is there,
and for less than one smallest chip more. -/
theorem robotBet_budget (game : Config α) (coin ratio : LuaNum) (area : α)
    (hne : game.jettons ≠ []) (hpos : ∀ s ∈ scores game, 0 < s)
    (hasc : (scores game).Pairwise (· ≤ ·)) (hexact : Exact (assetOf coin ratio)) :
    ∃ n new, Budget game area (assetOf coin ratio).value new ∧ ∀ fuel, n ≤ fuel → ∀ bettings,
      ratioBets game coin ratio area fuel bettings = some (bettings ++ new) := by
  obtain ⟨k, hk⟩ := assetOf_counts hexact
  rw [hk.value]
  exact spend_ends hpos hasc hk (List.length_pos_iff.mpr hne) le_rfl

theorem robotBet_budget_five : ∃ n new,
    Budget ⟨fun _ => none, [1, 5], 1, 0⟩ () (assetOf (.int 8) (.int 1)).value new ∧
    ∀ fuel, n ≤ fuel → ∀ bettings,
      ratioBets ⟨fun _ => none, [1, 5], 1, 0⟩ (.int 8) (.int 1) () fuel bettings
        = some (bettings ++ new) :=
  robotBet_budget _ _ _ _ (by simp) (by decide) (by decide) trivial

theorem double_odd : double (2 ^ 54 - 1) = 2 ^ 54 := by
  have hlog : Int.log 2 |(2 : ℚ) ^ 54 - 1| = 53 := by
    have hlow : (53 : ℤ) ≤ Int.log 2 |(2 : ℚ) ^ 54 - 1| :=
      (Int.zpow_le_iff_le_log (by norm_num) (by norm_num)).mp (by norm_num)
    have hhigh : Int.log 2 |(2 : ℚ) ^ 54 - 1| < 54 :=
      (Int.lt_zpow_iff_log_lt (by norm_num) (by norm_num)).mp (by norm_num)
    omega
  have hulp : ulp ((2 : ℚ) ^ 54 - 1) = 2 := by
    rw [ulp, hlog]
    norm_num
  have hfloor : ⌊((2 : ℚ) ^ 54 - 1) / 2⌋ = 2 ^ 53 - 1 := by
    rw [Int.floor_eq_iff]
    norm_num
  rw [double, hulp, roundEven, hfloor]
  norm_num

theorem sub_one_large : (LuaNum.float (2 ^ 54)).sub (.int 1) = .float (2 ^ 54) := by
  have hone : double ((1 : ℤ) : ℚ) = (1 : ℤ) := double_intCast (by norm_num)
  rw [LuaNum.sub, LuaNum.toFloat, LuaNum.toFloat, hone, Int.cast_one, double_odd]
  · simp

theorem assetOf_large : assetOf (.int (2 ^ 54)) (.float 1) = .float (2 ^ 54) := by
  have hexact : double ((2 ^ 54 : ℤ) : ℚ) = (2 ^ 54 : ℤ) := by
    simpa using double_mul_two_pow (by decide : |(1 : ℤ)| < 2 ^ 53) 54
  have hmul : (LuaNum.int (2 ^ 54)).mul (.float 1) = .float ((2 ^ 54 : ℤ) : ℚ) := by
    rw [LuaNum.mul, LuaNum.toFloat, LuaNum.toFloat, hexact, mul_one, hexact]
    · simp
  rw [assetOf, hmul]
  simp only [Int.floor_intCast]
  norm_num

theorem spend_large (fuel : Nat) (bettings : List (RobotBetting Unit)) :
    spend ⟨fun _ => none, [1], 1, 0⟩ () fuel (.float (2 ^ 54)) 1 bettings = none := by
  induction fuel generalizing bettings with
  | zero => rfl
  | succ fuel ih =>
    have hpick : pick (⟨fun _ => none, [1], 1, 0⟩ : Config Unit) (.float (2 ^ 54)) 1
        = some (1, 1) := by
      simp [pick, chipScore, atIndex, wrap]
    rw [spend_chip (by norm_num [LuaNum.value]) hpick, sub_one_large, ih]

theorem spend_no_chips (fuel : Nat) (bettings : List (RobotBetting Unit)) :
    spend ⟨fun _ => none, [], 1, 0⟩ () fuel (.int 1) 0 bettings = none := by
  induction fuel generalizing bettings with
  | zero => rfl
  | succ fuel ih =>
    rw [spend, if_pos (by norm_num [LuaNum.value]), pick]
    exact ih bettings

/-- With one coin as the chip and `2^54` of them as a float nothing is ever taken away; without
chips the loop goes on; and a debt is left as it is. -/
theorem never_ends :
    (∀ fuel, ratioBets ⟨fun _ => none, [1], 1, 0⟩ (.int (2 ^ 54)) (.float 1) () fuel [] = none) ∧
    (∀ fuel, ratioBets ⟨fun _ => none, [], 1, 0⟩ (.int 1) (.int 1) () fuel [] = none) ∧
    (∀ fuel, ratioBets ⟨fun _ => none, [1], 1, 0⟩ (.int (-5)) (.int 1) () (fuel + 1) [] = some []) ∧
    ¬ (planned ([] : List (RobotBetting Unit)) : ℚ)
      < (assetOf (.int (-5)) (.int 1)).value + 1 := by
  have hdebt : assetOf (.int (-5)) (.int 1) = .int (-5) := by
    simp [assetOf, LuaNum.mul, wrap]
  refine ⟨fun fuel => ?_, fun fuel => ?_, fun fuel => ?_, ?_⟩
  · rw [ratioBets, assetOf_large]
    exact spend_large fuel []
  · have hone : assetOf (.int 1) (.int 1) = .int 1 := by simp [assetOf, LuaNum.mul, wrap]
    rw [ratioBets, hone]
    exact spend_no_chips fuel []
  · rw [ratioBets, hdebt]
    exact spend_nothing (by norm_num [LuaNum.value]) fuel 1 []
  · rw [hdebt]
    norm_num [LuaNum.value, planned]

end XsServer.Hundred
