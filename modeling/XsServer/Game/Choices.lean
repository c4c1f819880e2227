import XsServer.Lib.Weighted
import Mathlib.Data.List.Nodup

/-! The choices by weight: `random.weight`, `refershRobotHotspot` and `robotCarry` of
`game/competition.lua`, and `robotStrategy` of the players of `dragonTiger`. -/

namespace XsServer.Game

open Lib.Weighted

/-- The sorted keys of a table, which is the list of its entries. -/
def weightKeys (t : List (Int × Int)) : List Int := (t.map Prod.fst).mergeSort

/-- `t[i]` -/
def weightAt (t : List (Int × Int)) (i : Int) : Int := (t.lookup i).getD 0

/-- With `r` for `math.random(1,s)`. -/
def randomWeight (t : List (Int × Int)) (r : Int) : Option Int :=
  (taken (weightAt t) true (weightKeys t) r).head?

/-- An entry of `hotWgts.lis` -/
structure HotWgt where
  weight : Int
  min : Int
  max : Int

/-- With `hotRand` for `math.random(1,10000)`, and `random k` for the draws that follow: the entries
that it acts on, and `_robotTarget`. -/
def refershRobotHotspot (lis : List HotWgt) (hotRand : Int) (random : Nat → Int → Int → Int)
    (robotTarget : Int) : List HotWgt × Int :=
  let acts := taken HotWgt.weight false lis hotRand
  (acts, acts.zipIdx.foldl (fun _ e => random e.2 e.1.min e.1.max) robotTarget)

/-- An entry of `cfg.lis` -/
structure CarryWgt where
  weight : Int
  asset : Int

/-- `enterCarry` -/
structure EnterCarry where
  lis : List CarryWgt
  floatSumm : Int

/-- `asset*float/cfg.floatSumm//1`, for numbers below 2^53 -/
def carryCoin (cfg : EnterCarry) (unit float : Int) (awgt : CarryWgt) : Int :=
  (awgt.asset * unit * float).fdiv cfg.floatSumm

/-- With the draws `weight` and `float`: the entries that it acts on, and the coins. -/
def robotCarry (ifRobot : Bool) (cfg : EnterCarry) (unit weight float coin : Int) :
    List CarryWgt × Int :=
  if ifRobot then
    let acts := taken CarryWgt.weight true cfg.lis weight
    (acts, acts.foldl (fun _ awgt => carryCoin cfg unit float awgt) coin)
  else ([], coin)

/-- An entry of `sfg.lis`, by its weight. -/
structure ChipWgt where
  weight : Int

/-- An entry of `afg.lis` -/
structure AreaWgt (α : Type) where
  areas : List α

structure Strategy (α : Type) where
  betProbability : Int
  betAreas : List (AreaWgt α)
  lis : List ChipWgt

/-- The areas in turn, with what `robotBet` is called with for each.  `areaWeight` is drawn but not
read, and `chipWeights k` is the draw for an area. -/
def robotStrategy {α : Type} (sfg : Strategy α) (probabliity : Int) (chipWeights : Nat → Int) :
    List (α × List ChipWgt) :=
  if probabliity > sfg.betProbability then []
  else
    (sfg.betAreas.flatMap AreaWgt.areas).zipIdx.map fun e =>
      (e.1, taken ChipWgt.weight false sfg.lis (chipWeights e.2))

variable (ws : List Int) (r : Int)

/-- The key is the one in whose interval the draw is. -/
def WeightExact : Prop := ∀ t, (weightKeys t).map (weightAt t) = ws →
  ∃ i, randomWeight t r = some i ∧ Exactly (weightAt t) (weightKeys t) r [i]

def HotspotExact : Prop := ∀ lis random robotTarget, lis.map HotWgt.weight = ws →
  Exactly HotWgt.weight lis r (refershRobotHotspot lis r random robotTarget).1

def CarryExact : Prop := ∀ cfg unit float coin, cfg.lis.map CarryWgt.weight = ws →
  Exactly CarryWgt.weight cfg.lis r (robotCarry true cfg unit r float coin).1

def StrategyExact (α : Type) : Prop :=
  ∀ (sfg : Strategy α) probabliity chipWeights k area bets, sfg.lis.map ChipWgt.weight = ws →
    (robotStrategy sfg probabliity chipWeights)[k]? = some (area, bets) → chipWeights k = r →
    Exactly ChipWgt.weight sfg.lis r bets

structure ChoicesExact (α : Type) : Prop where
  weight : WeightExact ws r
  hotspot : HotspotExact ws r
  carry : CarryExact ws r
  strategy : StrategyExact ws r α

/-! ### The loops -/

section

variable {ws r} (hpos : ∀ w ∈ ws, 0 < w) (hr : 0 < r) (hsum : r ≤ ws.sum)

section

variable {β : Type} {weight : β → Int} {lis : List β} (hlis : lis.map weight = ws)

include hlis

include hpos in
theorem pos_of_map : ∀ b ∈ lis, 0 < weight b := fun b hb =>
  hpos (weight b) (hlis ▸ List.mem_map_of_mem hb)

include hsum in
theorem le_total_of_map : r ≤ total weight lis := by
  rw [total, hlis]
  exact hsum

include hpos hr hsum

theorem exactly_break_of_map : Exactly weight lis r (taken weight true lis r) :=
  exactly_break (pos_of_map hpos hlis) hr (le_total_of_map hsum hlis)

theorem exactly_all_of_map : Exactly weight lis r (taken weight false lis r) ↔
    ws.dropLast.sum < r := by
  rw [exactly_all_iff (pos_of_map hpos hlis) hr (le_total_of_map hsum hlis), total,
    List.map_dropLast, hlis]

end

include hpos hr hsum

theorem weightExact : WeightExact ws r := by
  intro t ht
  obtain ⟨before, i, after, hdrawn, hacts⟩ := exactly_break_of_map hpos hr hsum ht
  exact ⟨i, by rw [randomWeight, hacts]; rfl, before, i, after, hdrawn, rfl⟩

theorem carryExact : CarryExact ws r := fun _ _ _ _ hlis =>
  exactly_break_of_map hpos hr hsum hlis

theorem hotspotExact_iff : HotspotExact ws r ↔ ws.dropLast.sum < r := by
  constructor
  · intro h
    have hlis : (ws.map fun w => HotWgt.mk w 0 0).map HotWgt.weight = ws := by
      rw [List.map_map]
      exact List.map_id ws
    exact (exactly_all_of_map hpos hr hsum hlis).mp (h _ (fun _ _ _ => 0) 0 hlis)
  · exact fun hlast lis _ _ hlis => (exactly_all_of_map hpos hr hsum hlis).mpr hlast

theorem strategyExact_iff {α : Type} [Inhabited α] :
    StrategyExact ws r α ↔ ws.dropLast.sum < r := by
  constructor
  · intro h
    have hlis : (ws.map ChipWgt.mk).map ChipWgt.weight = ws := by
      rw [List.map_map]
      exact List.map_id ws
    exact (exactly_all_of_map hpos hr hsum hlis).mp
      (h ⟨0, [⟨[default]⟩], ws.map ChipWgt.mk⟩ 0 (fun _ => r) 0 default _ hlis rfl rfl)
  · intro hlast sfg probabliity chipWeights k area bets hlis hk hchip
    rw [robotStrategy] at hk
    split at hk
    case isTrue => cases hk
    case isFalse =>
      rw [List.getElem?_map, List.getElem?_zipIdx, Option.map_map, Option.map_eq_some_iff] at hk
      obtain ⟨area', -, hbets⟩ := hk
      obtain ⟨-, rfl⟩ := Prod.mk.inj hbets
      simp only [Nat.zero_add, hchip]
      exact (exactly_all_of_map hpos hr hsum hlis).mpr hlast

/-- `random.weight` and `robotCarry` end at the bucket of the draw.  `refershRobotHotspot` and
`robotStrategy` have no `break`, and act on every bucket behind it, too; so all are exact for the
draws in the last bucket. -/
theorem choicesExact_iff {α : Type} [Inhabited α] :
    (ChoicesExact ws r α ↔ ws.dropLast.sum < r) ∧ WeightExact ws r ∧ CarryExact ws r ∧
      ∀ before w after, Drawn id ws r before w after →
        taken id false ws r = w :: after ∧
        ∀ before' w' after', Drawn id ws r before' w' after' →
          before' = before ∧ w' = w ∧ after' = after := by
  have hweight := weightExact hpos hr hsum
  have hcarry := carryExact hpos hr hsum
  refine ⟨⟨fun h => (hotspotExact_iff hpos hr hsum).mp h.hotspot, fun hlast => ?_⟩, hweight,
    hcarry, fun before w after h => ⟨h.taken_all hpos, fun before' w' after' h' => ?_⟩⟩
  · exact ⟨hweight, (hotspotExact_iff hpos hr hsum).mpr hlast, hcarry,
      (strategyExact_iff hpos hr hsum).mpr hlast⟩
  · exact h'.unique h hpos

end

theorem choicesExact_iff_two : (∀ w ∈ [3, 2], (0 : Int) < w) ∧ (0 : Int) < 4 ∧
    (4 : Int) ≤ [3, 2].sum ∧ (ChoicesExact [3, 2] 4 Unit ↔ [3, 2].dropLast.sum < (4 : Int)) :=
  ⟨by decide, by decide, by decide, (choicesExact_iff (by decide) (by decide) (by decide)).1⟩

/-- A draw of 1 of the weights 3 and 2: both entries of the second kind are acted on. -/
theorem chosen_twice :
    ((refershRobotHotspot [⟨3, 10, 20⟩, ⟨2, 30, 40⟩] 1 (fun _ min _ => min) 0).1.map HotWgt.weight,
      (refershRobotHotspot [⟨3, 10, 20⟩, ⟨2, 30, 40⟩] 1 (fun _ min _ => min) 0).2) =
        ([3, 2], 30) ∧
    (robotStrategy ⟨0, [⟨[()]⟩], [⟨3⟩, ⟨2⟩]⟩ 0 fun _ => 1).map (fun e => e.2.map ChipWgt.weight) =
      [[3, 2]] ∧
    ¬ ChoicesExact [3, 2] 1 Unit := by
  refine ⟨by decide, by decide, fun h => ?_⟩
  have hlast := (hotspotExact_iff (by decide) (by decide) (by decide)).mp h.hotspot
  exact absurd hlast (by decide)

end XsServer.Game
