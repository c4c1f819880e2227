import XsServer.Lib.Run
import Mathlib.Data.Finset.Card

/-! The seats of a game table: `occupy.lua`, and `playerEnter` and `playerLeave` of
`competition.lua`. -/

namespace XsServer.Game

/-- `occupy`; the end of `_lis` is where marks are returned and taken. -/
structure Occupy where
  min : Int
  max : Int
  lim : Int
  cur : Int
  cnt : Int
  lis : List Int

namespace Occupy

def new (min max : Int) : Occupy := ⟨min, max, min - 1, min - 1, 0, []⟩

def fetch (o : Occupy) : Bool × Occupy :=
  match o.lis.getLast? with
  | some cur => (true, { o with lis := o.lis.dropLast, cur, cnt := o.cnt + 1 })
  | none =>
    if o.lim < o.max then (true, { o with cur := o.lim + 1, cnt := o.cnt + 1, lim := o.lim + 1 })
    else (false, o)

def repay (o : Occupy) (mark : Int) : Occupy := { o with cnt := o.cnt - 1, lis := o.lis ++ [mark] }

/-- `none` is a failed assertion. -/
def read (o : Occupy) : Option Int := if 0 < o.cnt then some o.cur else none

/-- The marks in use are from 1 to the limit, and the others up to the limit are in the list. -/
structure Inv (o : Occupy) (used : Int → Prop) : Prop where
  lim_le : o.lim ≤ o.max
  cnt_nonneg : 0 ≤ o.cnt
  nodup : o.lis.Nodup
  mem_lis : ∀ k, k ∈ o.lis ↔ 1 ≤ k ∧ k ≤ o.lim ∧ ¬ used k
  used : ∀ k, used k → 1 ≤ k ∧ k ≤ o.lim
  lim_nonneg : 0 ≤ o.lim

variable {o : Occupy} {used : Int → Prop}

theorem Inv.new (max : Nat) : Inv (Occupy.new 1 max) fun _ => False where
  lim_le := by simp [Occupy.new]
  cnt_nonneg := Int.le_refl 0
  nodup := .nil
  mem_lis k := by simp [Occupy.new]; omega
  used := by simp
  lim_nonneg := Int.le_refl 0

theorem Inv.fetch (hi : o.Inv used) :
    (o.fetch = (false, o) ∧ ∀ k, 1 ≤ k → k ≤ o.max → used k) ∨
      ∃ k o', o.fetch = (true, o') ∧ o'.read = some k ∧ 1 ≤ k ∧ k ≤ o.max ∧ ¬ used k ∧
        o'.max = o.max ∧ o'.cnt = o.cnt + 1 ∧ o'.Inv fun j => j = k ∨ used j := by
  have hcnt := hi.cnt_nonneg
  have hread : 0 < o.cnt + 1 := by omega
  unfold Occupy.fetch
  split
  case h_1 cur hcur =>
    obtain ⟨lis, hlis⟩ := List.getLast?_eq_some_iff.mp hcur
    have hnodup := hi.nodup
    rw [hlis] at hnodup
    obtain ⟨hlast, hrest⟩ := List.nodup_concat _ _ |>.mp (by rwa [List.concat_eq_append])
    obtain ⟨hone, hlim, hfree⟩ := (hi.mem_lis cur).mp (by simp [hlis])
    refine .inr ⟨cur, _, rfl, if_pos hread, hone, hlim.trans hi.lim_le, hfree, rfl, rfl, ?_⟩
    constructor
    · exact hi.lim_le
    · exact hread.le
    · simpa [hlis] using hrest
    · intro k
      have hmem := hi.mem_lis k
      simp only [hlis, List.mem_append, List.mem_singleton, List.dropLast_concat] at hmem ⊢
      have hne : k ∈ lis → k ≠ cur := fun hk => ne_of_mem_of_not_mem hk hlast
      tauto
    · rintro k (rfl | hk)
      · exact ⟨hone, hlim⟩
      · exact hi.used k hk
    · exact hi.lim_nonneg
  case h_2 hnil =>
    have hnil := List.getLast?_eq_none_iff.mp hnil
    have hall : ∀ k, 1 ≤ k → k ≤ o.lim → used k := by
      intro k hone hle
      by_contra hk
      have hmem := (hi.mem_lis k).mpr ⟨hone, hle, hk⟩
      rw [hnil] at hmem
      cases hmem
    have hlim := hi.lim_nonneg
    split
    case isTrue hlt =>
      refine .inr ⟨o.lim + 1, _, rfl, if_pos hread, by omega, by omega, fun hk => ?_, rfl, rfl, ?_⟩
      · have := (hi.used _ hk).2
        omega
      constructor
      · exact hlt
      · exact hread.le
      · exact hi.nodup
      · intro k
        simp only [hnil, List.not_mem_nil, false_iff]
        rintro ⟨hone, hle, hk⟩
        refine hk (.inr (hall k hone ?_))
        have : k ≠ o.lim + 1 := fun h => hk (.inl h)
        omega
      · rintro k (rfl | hk)
        · exact ⟨by omega, Int.le_refl _⟩
        · have := hi.used k hk
          exact ⟨this.1, by simp only; omega⟩
      · exact Int.le_add_one hlim
    case isFalse hlt => exact .inl ⟨rfl, fun k hone hle => hall k hone (by omega)⟩

theorem Inv.repay (hi : o.Inv used) {mark : Int} (hmark : used mark) (hcnt : 0 < o.cnt) :
    (o.repay mark).Inv fun j => used j ∧ j ≠ mark where
  lim_le := hi.lim_le
  cnt_nonneg := by simp only [Occupy.repay]; omega
  nodup := by
    have hnot : mark ∉ o.lis := fun hmem => ((hi.mem_lis mark).mp hmem).2.2 hmark
    simpa [Occupy.repay, List.nodup_append, hi.nodup] using fun a ha => ne_of_mem_of_not_mem ha hnot
  mem_lis k := by
    have hmem := hi.mem_lis k
    simp only [Occupy.repay, List.mem_append, List.mem_singleton, hmem]
    constructor
    · rintro (⟨hone, hle, hk⟩ | rfl)
      · exact ⟨hone, hle, fun h => hk h.1⟩
      · exact ⟨(hi.used _ hmark).1, (hi.used _ hmark).2, fun h => h.2 rfl⟩
    · rintro ⟨hone, hle, hk⟩
      by_cases hkm : k = mark
      · exact .inr hkm
      · exact .inl ⟨hone, hle, fun h => hk ⟨h, hkm⟩⟩
  used k hk := hi.used k hk.1
  lim_nonneg := hi.lim_nonneg

end Occupy

/-- A `gamePlayer`: the number of the object, and what it has of its `playerInfo`. -/
structure GamePlayer (ι : Type*) where
  object : Nat
  userID : ι
  seatID : Int
  robot : Bool
  deriving DecidableEq

/-- What a table has for its seats.  A `false` in `_mapPlayer` or `_arrPlayer` is `none`; `carries`
says that `robotCarry` finds `_def` and `_gmrobots`. -/
structure Competition (ι : Type*) where
  ocp : Occupy
  mapPlayer : ι → Option (GamePlayer ι)
  arrPlayer : Int → Option (GamePlayer ι)
  realCount : Int
  robotCount : Int
  objects : Nat
  carries : Bool

/-- A call of the table, of the player at a seat when it leaves. -/
inductive Call (ι : Type*)
  | playerEnter (userID : ι) (robot : Bool)
  | playerLeave (seatID : Int)
  deriving DecidableEq

inductive Seating
  /-- `return false,"爆满了"` -/
  | full
  | error
  | entered
  | left
  /-- There is no player at the seat that could leave. -/
  | nobody
  deriving DecidableEq

namespace Competition

variable {ι : Type*}

def new (maxPlayer : Nat) (carries : Bool) : Competition ι :=
  ⟨.new 1 maxPlayer, fun _ => none, fun _ => none, 0, 0, 0, carries⟩

variable [DecidableEq ι]

def sit (t : Competition ι) (player : GamePlayer ι) : Competition ι :=
  { t with
    mapPlayer := Function.update t.mapPlayer player.userID (some player)
    arrPlayer := Function.update t.arrPlayer player.seatID (some player)
    objects := t.objects + 1 }

def playerEnter (t : Competition ι) (userID : ι) (robot : Bool) : Competition ι × Seating :=
  let (ok, ocp) := t.ocp.fetch
  if ok then
    match ocp.read with
    | some seatID =>
      let t := { t with ocp }.sit ⟨t.objects, userID, seatID, robot⟩
      if robot then
        if t.carries then ({ t with robotCount := t.robotCount + 1 }, .entered) else (t, .error)
      else ({ t with realCount := t.realCount + 1 }, .entered)
    | none => ({ t with ocp }, .error)
  else ({ t with ocp }, .full)

def playerLeave (t : Competition ι) (player : GamePlayer ι) : Competition ι :=
  let t := { t with
    ocp := t.ocp.repay player.seatID
    mapPlayer := Function.update t.mapPlayer player.userID none
    arrPlayer := Function.update t.arrPlayer player.seatID none }
  if player.robot then { t with robotCount := t.robotCount - 1 }
  else { t with realCount := t.realCount - 1 }

def call (t : Competition ι) : Call ι → Competition ι × Seating
  | .playerEnter userID robot => t.playerEnter userID robot
  | .playerLeave seatID =>
    match t.arrPlayer seatID with
    | some player => (t.playerLeave player, .left)
    | none => (t, .nobody)

/-- The seats from 1 to the last one. -/
def seats (t : Competition ι) : List Int :=
  (List.range t.ocp.max.toNat).map fun k : Nat => (k : Int) + 1

def taken (t : Competition ι) : Finset Int :=
  (t.seats.filter fun seatID => (t.arrPlayer seatID).isSome).toFinset

def Full (t : Competition ι) : Prop := ∀ seatID, 1 ≤ seatID → seatID ≤ t.ocp.max →
  t.arrPlayer seatID ≠ none

structure Booked (t : Competition ι) : Prop where
  seats : ∀ seatID p, t.arrPlayer seatID = some p →
    1 ≤ seatID ∧ seatID ≤ t.ocp.max ∧ p.seatID = seatID
  once : ∀ j k p q, t.arrPlayer j = some p → t.arrPlayer k = some q → p.userID = q.userID → j = k
  same : ∀ userID p, t.mapPlayer userID = some p ↔
    p.userID = userID ∧ t.arrPlayer p.seatID = some p
  count : t.ocp.cnt = t.taken.card
  counts : t.ocp.cnt = t.realCount + t.robotCount
  full : ∀ userID robot, (t.playerEnter userID robot).2 = .full ↔ t.Full

/-- Whoever enters at a free seat has no seat yet, and a robot finds what it is to carry. -/
def Fits (t : Competition ι) (e : Call ι) : Prop :=
  ∀ userID robot, e = .playerEnter userID robot → ¬ t.Full →
    (∀ seatID p, t.arrPlayer seatID = some p → p.userID ≠ userID) ∧
      (robot = true → t.carries = true)

/-! ### The invariant -/

/-- The parts of `Booked` about the tables, and the marks that are in use. -/
structure Inv (t : Competition ι) : Prop where
  ocp : t.ocp.Inv fun k => t.arrPlayer k ≠ none
  seats : ∀ seatID p, t.arrPlayer seatID = some p → p.seatID = seatID
  once : ∀ j k p q, t.arrPlayer j = some p → t.arrPlayer k = some q → p.userID = q.userID → j = k
  same : ∀ userID p, t.mapPlayer userID = some p ↔
    p.userID = userID ∧ t.arrPlayer p.seatID = some p
  count : t.ocp.cnt = t.taken.card
  counts : t.ocp.cnt = t.realCount + t.robotCount

structure Filled (t : Competition ι) : Prop where
  ocp : t.ocp.Inv fun k => t.arrPlayer k ≠ none
  seats : ∀ seatID p, t.arrPlayer seatID = some p → p.seatID = seatID
  count : t.ocp.cnt = t.taken.card

variable {t : Competition ι}

omit [DecidableEq ι] in
theorem Inv.filled (hi : t.Inv) : t.Filled := ⟨hi.ocp, hi.seats, hi.count⟩

omit [DecidableEq ι] in
theorem mem_taken {k : Int} :
    k ∈ t.taken ↔ 1 ≤ k ∧ k ≤ t.ocp.max ∧ t.arrPlayer k ≠ none := by
  have hseats : k ∈ t.seats ↔ 1 ≤ k ∧ k ≤ t.ocp.max := by
    simp only [seats, List.mem_map, List.mem_range]
    constructor
    · rintro ⟨j, hj, rfl⟩
      omega
    · intro h
      exact ⟨(k - 1).toNat, by omega, by omega⟩
  rw [taken, List.mem_toFinset, List.mem_filter, hseats, Option.isSome_iff_ne_none, and_assoc]

omit [DecidableEq ι] in
theorem Inv.new (maxPlayer : Nat) (carries : Bool) :
    Inv (Competition.new maxPlayer carries : Competition ι) where
  ocp := by simpa [Competition.new] using Occupy.Inv.new maxPlayer
  seats := by simp [Competition.new]
  once := by simp [Competition.new]
  same := by simp [Competition.new]
  count := by simp [Competition.new, taken, Occupy.new]
  counts := rfl

theorem Filled.playerEnter_cases (hi : t.Filled) (userID : ι) (robot : Bool) :
    (t.playerEnter userID robot = (t, .full) ∧ t.Full) ∨
      ∃ k ocp, (t.playerEnter userID robot =
          let t' := { t with ocp }.sit ⟨t.objects, userID, k, robot⟩
          if robot then
            if t.carries then ({ t' with robotCount := t.robotCount + 1 }, .entered)
            else (t', .error)
          else ({ t' with realCount := t.realCount + 1 }, .entered)) ∧
        1 ≤ k ∧ k ≤ t.ocp.max ∧ t.arrPlayer k = none ∧ ocp.max = t.ocp.max ∧
        ocp.cnt = t.ocp.cnt + 1 ∧ ocp.Inv fun j => j = k ∨ t.arrPlayer j ≠ none := by
  obtain ⟨hfetch, hfull⟩ | ⟨k, ocp, hfetch, hread, hone, hle, hfree, hmax, hcnt, hocp⟩ :=
    hi.ocp.fetch
  · exact .inl ⟨by rw [Competition.playerEnter, hfetch]; rfl, hfull⟩
  · refine .inr ⟨k, ocp, ?_, hone, hle, not_not.mp hfree, hmax, hcnt, hocp⟩
    rw [Competition.playerEnter, hfetch]
    simp only [if_true, hread]
    rfl

omit [DecidableEq ι] in
theorem not_full {k : Int} (hone : 1 ≤ k) (hle : k ≤ t.ocp.max) (hfree : t.arrPlayer k = none) :
    ¬ t.Full := fun hfull => hfull k hone hle hfree

theorem Inv.booked (hi : t.Inv) : t.Booked where
  seats k p hk := by
    obtain ⟨hone, hle⟩ := hi.ocp.used k (by rw [hk]; exact Option.some_ne_none p)
    exact ⟨hone, hle.trans hi.ocp.lim_le, hi.seats k p hk⟩
  once := hi.once
  same := hi.same
  count := hi.count
  counts := hi.counts
  full userID robot := by
    obtain ⟨henter, hfull⟩ | ⟨k, ocp, henter, hone, hle, hfree, -⟩ :=
      hi.filled.playerEnter_cases userID robot
    · rw [henter]
      exact ⟨fun _ => hfull, fun _ => rfl⟩
    · rw [henter]
      refine ⟨fun h => ?_, fun hfull => absurd hfull (not_full hone hle hfree)⟩
      dsimp only at h
      split_ifs at h

variable {player : GamePlayer ι} {ocp : Occupy}

theorem taken_sit (hmax : ocp.max = t.ocp.max)
    (hone : 1 ≤ player.seatID) (hle : player.seatID ≤ t.ocp.max) :
    ({ t with ocp }.sit player).taken = insert player.seatID t.taken := by
  ext j
  simp only [mem_taken, Finset.mem_insert, sit, hmax, Function.update_apply]
  by_cases hj : j = player.seatID
  · simp [hj, hone, hle]
  · simp [hj]

theorem Filled.sit (hi : t.Filled) (player : GamePlayer ι)
    (realCount robotCount : Int) (hone : 1 ≤ player.seatID) (hle : player.seatID ≤ t.ocp.max)
    (hfree : t.arrPlayer player.seatID = none) (hmax : ocp.max = t.ocp.max)
    (hcnt : ocp.cnt = t.ocp.cnt + 1)
    (hocp : ocp.Inv fun j => j = player.seatID ∨ t.arrPlayer j ≠ none) :
    Filled { { t with ocp }.sit player with realCount, robotCount } where
  ocp := by
    refine cast ?_ hocp
    congr 1
    funext j
    simp only [Competition.sit, Function.update_apply]
    by_cases hj : j = player.seatID <;> simp [hj]
  seats j p hp := by
    simp only [Competition.sit, Function.update_apply] at hp
    split at hp
    case isTrue hj => rw [hj, ← Option.some.inj hp]
    case isFalse => exact hi.seats j p hp
  count := by
    have hnot : player.seatID ∉ t.taken := fun h => (mem_taken.mp h).2.2 hfree
    have hcard : ({ t with ocp }.sit player).taken.card = t.taken.card + 1 := by
      rw [taken_sit hmax hone hle, Finset.card_insert_of_notMem hnot]
    change ocp.cnt = (({ t with ocp }.sit player).taken.card : Int)
    rw [hcard, hcnt, hi.count]
    rfl

theorem Inv.sit (hi : t.Inv) (player : GamePlayer ι) (realCount robotCount : Int)
    (hfilled : Filled { { t with ocp }.sit player with realCount, robotCount })
    (hfree : t.arrPlayer player.seatID = none) (hcnt : ocp.cnt = t.ocp.cnt + 1)
    (hnew : ∀ k p, t.arrPlayer k = some p → p.userID ≠ player.userID)
    (hcounts : realCount + robotCount = t.realCount + t.robotCount + 1) :
    Inv { { t with ocp }.sit player with realCount, robotCount } where
  ocp := hfilled.ocp
  seats := hfilled.seats
  once j k p q hp hq hpq := by
    simp only [Competition.sit, Function.update_apply] at hp hq
    split at hp <;> split at hq
    case isTrue.isTrue hj hk => rw [hj, hk]
    case isTrue.isFalse hj hk =>
      rw [← Option.some.inj hp] at hpq
      exact absurd hpq.symm (hnew k q hq)
    case isFalse.isTrue hj hk =>
      rw [← Option.some.inj hq] at hpq
      exact absurd hpq (hnew j p hp)
    case isFalse.isFalse => exact hi.once j k p q hp hq hpq
  same userID p := by
    simp only [Competition.sit, Function.update_apply]
    constructor
    · split
      case isTrue hu =>
        rintro ⟨⟩
        exact ⟨hu.symm, if_pos rfl⟩
      case isFalse hu =>
        intro hp
        obtain ⟨hpu, hps⟩ := (hi.same userID p).mp hp
        refine ⟨hpu, ?_⟩
        rw [if_neg, hps]
        intro hseat
        rw [hseat, hfree] at hps
        cases hps
    · rintro ⟨rfl, hp⟩
      split at hp
      case isTrue =>
        obtain rfl := Option.some.inj hp
        exact if_pos rfl
      case isFalse hseat =>
        rw [if_neg (hnew _ p hp)]
        exact (hi.same _ p).mpr ⟨rfl, hp⟩
  count := hfilled.count
  counts := by
    change ocp.cnt = realCount + robotCount
    rw [hcnt, hi.counts, hcounts]

/-- Whoever enters, and whatever comes of it. -/
theorem Filled.playerEnter (hi : t.Filled) (userID : ι) (robot : Bool) :
    (t.playerEnter userID robot).1.Filled := by
  obtain ⟨henter, -⟩ | ⟨k, ocp, henter, hone, hle, hfree, hmax, hcnt, hocp⟩ :=
    hi.playerEnter_cases userID robot
  · rw [henter]
    exact hi
  · have hsit := fun realCount robotCount => hi.sit ⟨t.objects, userID, k, robot⟩ realCount
      robotCount hone hle hfree hmax hcnt hocp
    rw [henter]
    cases robot with
    | true =>
      dsimp only
      split
      · split
        · exact hsit t.realCount (t.robotCount + 1)
        · exact hsit t.realCount t.robotCount
      · rename_i hrobot
        exact absurd rfl hrobot
    | false => exact hsit (t.realCount + 1) t.robotCount

theorem Inv.playerEnter (hi : t.Inv) {userID : ι} {robot : Bool}
    (hfits : t.Fits (.playerEnter userID robot)) : (t.playerEnter userID robot).1.Inv := by
  obtain ⟨henter, -⟩ | ⟨k, ocp, henter, hone, hle, hfree, hmax, hcnt, hocp⟩ :=
    hi.filled.playerEnter_cases userID robot
  · rw [henter]
    exact hi
  · obtain ⟨hnew, hcarries⟩ := hfits userID robot rfl (not_full hone hle hfree)
    have hsit := fun robot realCount robotCount => hi.filled.sit ⟨t.objects, userID, k, robot⟩
      realCount robotCount hone hle hfree hmax hcnt hocp
    rw [henter]
    cases robot with
    | true =>
      dsimp only
      rw [if_pos rfl, if_pos (hcarries rfl)]
      exact hi.sit ⟨t.objects, userID, k, true⟩ t.realCount (t.robotCount + 1) (hsit true _ _)
        hfree hcnt hnew (by omega)
    | false =>
      exact hi.sit ⟨t.objects, userID, k, false⟩ (t.realCount + 1) t.robotCount (hsit false _ _)
        hfree hcnt hnew (by omega)

def vacate (t : Competition ι) (player : GamePlayer ι) (realCount robotCount : Int) :
    Competition ι :=
  { t with
    ocp := t.ocp.repay player.seatID
    mapPlayer := Function.update t.mapPlayer player.userID none
    arrPlayer := Function.update t.arrPlayer player.seatID none
    realCount, robotCount }

theorem playerLeave_eq (player : GamePlayer ι) :
    t.playerLeave player = if player.robot then t.vacate player t.realCount (t.robotCount - 1)
      else t.vacate player (t.realCount - 1) t.robotCount := rfl

theorem Filled.vacate (hi : t.Filled)
    (hplayer : t.arrPlayer player.seatID = some player) (realCount robotCount : Int) :
    (t.vacate player realCount robotCount).Filled := by
  have hused : t.arrPlayer player.seatID ≠ none := by
    rw [hplayer]
    exact Option.some_ne_none player
  obtain ⟨hone, hle⟩ := hi.ocp.used _ hused
  have hmem : player.seatID ∈ t.taken := mem_taken.mpr ⟨hone, hle.trans hi.ocp.lim_le, hused⟩
  have hpos : 0 < t.ocp.cnt := by
    rw [hi.count]
    exact_mod_cast Finset.card_pos.mpr ⟨_, hmem⟩
  have htaken : ∀ j, j ∈ (t.vacate player realCount robotCount).taken ↔
      j ∈ t.taken.erase player.seatID := by
    intro j
    simp only [mem_taken, Finset.mem_erase, Competition.vacate, Function.update_apply,
      Occupy.repay]
    by_cases hj : j = player.seatID <;> simp [hj]
  constructor
  · refine cast ?_ (hi.ocp.repay hused hpos)
    congr 1
    funext j
    simp only [Competition.vacate, Function.update_apply]
    by_cases hj : j = player.seatID <;> simp [hj]
  · intro j p hp
    simp only [Competition.vacate, Function.update_apply] at hp
    split at hp
    · cases hp
    · exact hi.seats j p hp
  · have hcard := Finset.card_erase_add_one hmem
    have hcount := hi.count
    change t.ocp.cnt - 1 = ((t.vacate player realCount robotCount).taken.card : Int)
    rw [Finset.ext htaken]
    omega

theorem Filled.playerLeave (hi : t.Filled) {seatID : Int}
    (hplayer : t.arrPlayer seatID = some player) : (t.playerLeave player).Filled := by
  obtain rfl := hi.seats seatID player hplayer
  rw [playerLeave_eq]
  split
  · exact hi.vacate hplayer _ _
  · exact hi.vacate hplayer _ _

theorem Inv.vacate (hi : t.Inv)
    (hplayer : t.arrPlayer player.seatID = some player) {realCount robotCount : Int}
    (hcounts : realCount + robotCount + 1 = t.realCount + t.robotCount) :
    (t.vacate player realCount robotCount).Inv := by
  obtain ⟨hocp, hseats, hcount⟩ := hi.filled.vacate hplayer realCount robotCount
  refine ⟨hocp, hseats, ?_, ?_, hcount, ?_⟩
  · intro j k p q hp hq hpq
    simp only [Competition.vacate, Function.update_apply] at hp hq
    split at hp
    · cases hp
    split at hq
    · cases hq
    exact hi.once j k p q hp hq hpq
  · intro userID p
    simp only [Competition.vacate, Function.update_apply]
    constructor
    · split
      · rintro ⟨⟩
      case isFalse hu =>
        intro hp
        obtain ⟨rfl, hseat⟩ := (hi.same userID p).mp hp
        refine ⟨rfl, ?_⟩
        rw [if_neg, hseat]
        intro hj
        rw [hj, hplayer] at hseat
        exact hu (by rw [Option.some.inj hseat])
    · rintro ⟨rfl, hp⟩
      split at hp
      · cases hp
      case isFalse hseat =>
        rw [if_neg]
        · exact (hi.same _ p).mpr ⟨rfl, hp⟩
        · exact fun hu => hseat (hi.once _ _ p player hp hplayer hu)
  · have := hi.counts
    change t.ocp.cnt - 1 = realCount + robotCount
    omega

theorem Inv.playerLeave (hi : t.Inv) {seatID : Int}
    (hplayer : t.arrPlayer seatID = some player) : (t.playerLeave player).Inv := by
  obtain rfl := hi.seats seatID player hplayer
  rw [playerLeave_eq]
  split
  · exact hi.vacate hplayer (by omega)
  · exact hi.vacate hplayer (by omega)

theorem Inv.call (hi : t.Inv) {e : Call ι} (hfits : t.Fits e) : (t.call e).1.Inv := by
  cases e with
  | playerEnter userID robot => exact hi.playerEnter hfits
  | playerLeave seatID =>
    rw [Competition.call]
    cases hplayer : t.arrPlayer seatID with
    | none => exact hi
    | some player => exact hi.playerLeave hplayer

/-- Somebody who has a seat gets a second one, or a robot that finds nothing to carry is not
counted. -/
theorem Inv.not_booked (hi : t.Inv) {e : Call ι} (hfits : ¬ t.Fits e) : ¬ (t.call e).1.Booked := by
  intro hbooked
  unfold Fits at hfits
  push Not at hfits
  obtain ⟨userID, robot, rfl, hroom, hwrong⟩ := hfits
  obtain ⟨-, hfull⟩ | ⟨k, ocp, henter, -, -, hfree, -, hcnt, -⟩ :=
    hi.filled.playerEnter_cases userID robot
  · exact hroom hfull
  rw [Competition.call, henter] at hbooked
  dsimp only at hbooked
  by_cases hnew : ∀ seatID p, t.arrPlayer seatID = some p → p.userID ≠ userID
  · -- the counts differ by the robot
    obtain ⟨rfl, hcarries⟩ := hwrong hnew
    rw [if_pos rfl, if_neg hcarries] at hbooked
    have hcounts := hbooked.counts
    change ocp.cnt = t.realCount + t.robotCount at hcounts
    have := hi.counts
    omega
  · push Not at hnew
    obtain ⟨j, p, hp, rfl⟩ := hnew
    have hne : j ≠ k := by
      rintro rfl
      rw [hfree] at hp
      cases hp
    have hsecond : ∀ t' : Competition ι,
        t'.arrPlayer = ({ t with ocp }.sit ⟨t.objects, p.userID, k, robot⟩).arrPlayer →
        ¬ t'.Booked := by
      intro t' harr hb
      refine hne (hb.once j k p ⟨t.objects, p.userID, k, robot⟩ ?_ ?_ rfl)
      · rw [harr]
        exact (Function.update_of_ne hne _ _).trans hp
      · rw [harr]
        exact Function.update_self ..
    split_ifs at hbooked <;> exact absurd hbooked (hsecond _ rfl)

/-- The seats are booked as they should be after each of the calls if and only if whoever enters at
a free seat has no seat yet, and a robot finds what it is to carry. -/
theorem booked_iff (maxPlayer : Nat) (carries : Bool) (es : List (Call ι)) :
    (∀ pre, pre <+: es → (Lib.after call (new maxPlayer carries) pre).Booked) ↔
      Lib.Along call Fits (new maxPlayer carries) es :=
  Lib.along_iff (I := fun _ => Inv) (G := fun _ => Booked) (Inv.new maxPlayer carries)
    (fun _ _ _ hi hfits => hi.call hfits) (fun _ _ hi => hi.booked)
    (fun _ _ _ hi hfits => hi.not_booked hfits) es

/-- The user 7 enters twice and has two seats. -/
theorem two_seats :
    (Lib.after call (new 3 false) [.playerEnter 7 false, .playerEnter 7 false]).taken = {1, 2} ∧
      ¬ ∀ pre, pre <+: [.playerEnter 7 false, .playerEnter 7 false] →
        (Lib.after call (new 3 false : Competition Nat) pre).Booked := by
  refine ⟨by decide, fun h => ?_⟩
  have honce := (h _ (List.prefix_refl _)).once 1 2 ⟨0, 7, 1, false⟩ ⟨1, 7, 2, false⟩ rfl rfl rfl
  cases honce

end Competition

end XsServer.Game
