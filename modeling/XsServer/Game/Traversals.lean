import XsServer.Game.Seats
import Mathlib.Data.Nat.Find

/-! The loops of `competition.lua` over `_mapPlayer` and `_arrPlayer`.  `playerLeave` writes `false`
to both tables, and the loops of `pairs` and `ipairs` visit that too. -/

namespace XsServer.Game

/-- A Lua table of players, as the writes to it, the last one first; `none` is `false`. -/
abbrev Cells := List (Int × Option (GamePlayer Int))

namespace Cells

def ipairsFrom (c : Cells) : Nat → Int → List (Option (GamePlayer Int))
  | 0, _ => []
  | n + 1, i =>
    match c.lookup i with
    | none => []
    | some cell => cell :: c.ipairsFrom n (i + 1)

/-- What `ipairs` visits: there is something under no more keys than were written. -/
def ipairs (c : Cells) : List (Option (GamePlayer Int)) := c.ipairsFrom c.length 1

/-- An order in which `pairs` may visit the keys. -/
def Order (c : Cells) (keys : List Int) : Prop :=
  keys.Nodup ∧ ∀ k, k ∈ keys ↔ (c.lookup k).isSome

/-- What `pairs` visits in an order. -/
def pairs (c : Cells) (keys : List Int) : List (Option (GamePlayer Int)) :=
  keys.filterMap (List.lookup · c)

end Cells

/-- A loop that calls a method of everything that it visits; `none` is an error. -/
def visit : List (Option (GamePlayer Int)) → Option (List (GamePlayer Int))
  | [] => some []
  | none :: _ => none
  | some player :: cells => (visit cells).map (player :: ·)

/-- `occupy:count`, which is called without the object. -/
def Occupy.count (self : Option Occupy) : Option Int := self.map Occupy.cnt

inductive Opening
  | people
  | ready
  | other
  deriving DecidableEq

/-- `open` and `minPlayer` of a `gameInfo`. -/
structure GameInfo where
  opening : Opening
  minPlayer : Int

/-- A table with the Lua tables `_mapPlayer` and `_arrPlayer` as they are. -/
structure Tables where
  table : Competition Int
  mapPlayer : Cells
  arrPlayer : Cells

namespace Tables

def new (maxPlayer : Nat) (carries : Bool) : Tables := ⟨.new maxPlayer carries, [], []⟩

def playerEnter (t : Tables) (userID : Int) (robot : Bool) : Tables × Seating :=
  let (ok, ocp) := t.table.ocp.fetch
  let (table, seating) := t.table.playerEnter userID robot
  match ok, ocp.read with
  | true, some seatID =>
    let player := ⟨t.table.objects, userID, seatID, robot⟩
    (⟨table, (userID, some player) :: t.mapPlayer, (seatID, some player) :: t.arrPlayer⟩, seating)
  | _, _ => ({ t with table }, seating)

def playerLeave (t : Tables) (player : GamePlayer Int) : Tables :=
  ⟨t.table.playerLeave player, (player.userID, none) :: t.mapPlayer,
    (player.seatID, none) :: t.arrPlayer⟩

def call (t : Tables) : Call Int → Tables × Seating
  | .playerEnter userID robot => t.playerEnter userID robot
  | .playerLeave seatID =>
    match t.table.arrPlayer seatID with
    | some player => (t.playerLeave player, .left)
    | none => (t, .nobody)

/-- `self._ocp.count()` -/
def getNumPlayer (_ : Tables) : Option Int := Occupy.count none

def checkReady (ready : GamePlayer Int → Bool) : List (Option (GamePlayer Int)) → Option Bool
  | [] => some true
  | none :: _ => none
  | some player :: cells => if ready player then checkReady ready cells else some false

/-- `checkStart` after its first two checks. -/
def checkOpen (t : Tables) (inf : GameInfo) (ready : GamePlayer Int → Bool) (keys : List Int)
    (playerNum : Int) : Option Bool :=
  match inf.opening with
  | .people => some (if inf.minPlayer ≤ playerNum then false else true)
  | .ready => checkReady ready (t.arrPlayer.pairs keys)
  | .other => some false

/-- `ifIdle` is what the method `IfIdle` of the status returns, if the status has that method. -/
def checkStart (t : Tables) (ifIdle : Option Bool) (inf : GameInfo)
    (ready : GamePlayer Int → Bool) (keys : List Int) : Option Bool := do
  let idle ← ifIdle
  if ¬ idle then
    return false
  let playerNum ← t.getNumPlayer
  if playerNum ≤ 0 then
    return false
  t.checkOpen inf ready keys playerNum

def cacheStart (t : Tables) (keys : List Int) : Option (List (GamePlayer Int)) :=
  visit (t.arrPlayer.pairs keys)

/-- The players that are visited, and whether a robot is invited. -/
def refershRobotEnter (t : Tables) (robotTarget : Option Int) :
    Option (List (GamePlayer Int) × Bool) :=
  match robotTarget with
  | none => some ([], false)
  | some target => do
    let players ← visit t.arrPlayer.ipairs
    return (players, target - players.countP (·.robot) > 0)

/-- The players that are cleared, and those who join. -/
def dataClear (t : Tables) : Option (List (GamePlayer Int) × List (GamePlayer Int)) := do
  let cleared ← visit t.mapPlayer.ipairs
  let joined ← visit t.arrPlayer.ipairs
  return (cleared, joined)

/-- The players with a seat, in the order of the seats. -/
def seated (t : Tables) : List (GamePlayer Int) := t.table.seats.filterMap t.table.arrPlayer

def Vacated (t : Tables) : Prop := ∃ seatID, t.arrPlayer.lookup seatID = some none

/-- The users with a seat are those with the numbers from 1 to `n`, with their players in
`_mapPlayer`, and the next one never was at the table. -/
def Numbered (t : Tables) : Prop :=
  (∀ p ∈ t.seated, t.mapPlayer.lookup p.userID = some (some p)) ∧
    ∃ n : Nat, (∀ userID, (∃ p ∈ t.seated, p.userID = userID) ↔ 1 ≤ userID ∧ userID ≤ n) ∧
      t.mapPlayer.lookup (n + 1 : Int) = none

/-- The traversals visit the players with a seat, those and no others, and raise no error, and a
game starts only when it may. -/
structure Survives (t : Tables) (ifIdle : Option Bool) (inf : GameInfo)
    (ready : GamePlayer Int → Bool) (target : Int) : Prop where
  start : ∀ keys, t.arrPlayer.Order keys →
    ∃ starts, t.checkStart ifIdle inf ready keys = some starts ∧
      (starts = true → ifIdle = some true ∧
        (inf.opening = .people → inf.minPlayer ≤ t.seated.length) ∧
        (inf.opening = .ready → ∀ p ∈ t.seated, ready p))
  cache : ∀ keys, t.arrPlayer.Order keys →
    ∃ players, t.cacheStart keys = some players ∧ players.Perm t.seated
  robots : ∃ players invite, t.refershRobotEnter (some target) = some (players, invite) ∧
    players.Perm t.seated
  clear : ∃ cleared joined, t.dataClear = some (cleared, joined) ∧ cleared.Perm t.seated ∧
    joined.Perm t.seated

end Tables

/-! ### What the loops visit -/

theorem visit_eq_some_iff {cells : List (Option (GamePlayer Int))}
    {players : List (GamePlayer Int)} :
    visit cells = some players ↔ cells = players.map some := by
  induction cells generalizing players with
  | nil => cases players <;> simp [visit]
  | cons cell cells ih =>
    cases cell with
    | none => cases players <;> simp [visit]
    | some player =>
      rw [visit, Option.map_eq_some_iff]
      constructor
      · rintro ⟨rest, hrest, rfl⟩
        rw [ih.mp hrest]
        rfl
      · intro h
        cases players with
        | nil => cases h
        | cons player' rest =>
          obtain ⟨hplayer, hrest⟩ := List.cons.inj h
          exact ⟨rest, ih.mpr hrest, by rw [Option.some.inj hplayer]⟩

namespace Cells

variable {c : Cells}

theorem lookup_write {j k : Int} {cell : Option (GamePlayer Int)} (h : j ≠ k) :
    List.lookup j ((k, cell) :: c) = c.lookup j := by
  rw [List.lookup_cons, beq_false_of_ne h]

/-- `m` keys from `i` on have a value, and the next one has none. -/
def Ends (c : Cells) (i : Int) (m : Nat) : Prop :=
  (∀ j : Nat, j < m → (c.lookup (i + j)).isSome) ∧ c.lookup (i + m) = none

/-- The numbers from `i` on. -/
def numbers (i : Int) (m : Nat) : List Int := (List.range m).map fun j : Nat => i + j

theorem mem_numbers {i k : Int} {m : Nat} : k ∈ numbers i m ↔ i ≤ k ∧ k < i + m := by
  simp only [numbers, List.mem_map, List.mem_range]
  constructor
  · rintro ⟨j, hj, rfl⟩
    omega
  · intro h
    exact ⟨(k - i).toNat, by omega, by omega⟩

theorem nodup_numbers (i : Int) (m : Nat) : (numbers i m).Nodup :=
  List.nodup_range.map fun a b h => by
    have heq : i + (a : Int) = i + b := h
    omega

theorem numbers_succ (i : Int) (m : Nat) : numbers i (m + 1) = i :: numbers (i + 1) m := by
  rw [numbers, numbers, List.range_succ_eq_map, List.map_cons, List.map_map]
  refine congrArg₂ List.cons (by simp) (List.map_congr_left fun j _ => ?_)
  simp only [Function.comp_apply]
  omega

theorem ipairsFrom_eq {n m : Nat} {i : Int} (hm : m ≤ n) (h : c.Ends i m) :
    c.ipairsFrom n i = c.pairs (numbers i m) := by
  induction m generalizing n i with
  | zero =>
    have hend : c.lookup i = none := by simpa using h.2
    cases n with
    | zero => rfl
    | succ n => simp [ipairsFrom, hend, numbers, pairs]
  | succ m ih =>
    obtain ⟨n, rfl⟩ : ∃ k, n = k + 1 := ⟨n - 1, by omega⟩
    obtain ⟨cell, hcell⟩ := Option.isSome_iff_exists.mp (h.1 0 (Nat.succ_pos m))
    have hi : c.lookup i = some cell := by simpa using hcell
    have hshift : ∀ j : Nat, i + 1 + (j : Int) = i + ((j + 1 : Nat) : Int) := fun j => by omega
    have hnext : c.Ends (i + 1) m := by
      refine ⟨fun j hj => ?_, ?_⟩
      · rw [hshift]
        exact h.1 (j + 1) (by omega)
      · rw [hshift]
        exact h.2
    have hrest := ih (n := n) (by omega) hnext
    rw [ipairsFrom, hi, numbers_succ, pairs, List.filterMap_cons, hi]
    exact congrArg (cell :: ·) hrest

theorem length_le {i : Int} {m : Nat} (h : ∀ j : Nat, j < m → (c.lookup (i + j)).isSome) :
    m ≤ c.length := by
  have hsub : numbers i m ⊆ c.map Prod.fst := by
    intro k hk
    obtain ⟨hle, hlt⟩ := mem_numbers.mp hk
    have hsome := h (k - i).toNat (by omega)
    rw [show i + (k - i).toNat = k by omega, List.lookup_isSome_iff] at hsome
    obtain ⟨q, hq, heq⟩ := hsome
    rw [eq_of_beq heq]
    exact List.mem_map_of_mem hq
  have hlen := (List.subperm_of_subset (nodup_numbers i m) hsub).length_le
  simpa [numbers] using hlen

theorem exists_ends (c : Cells) (i : Int) : ∃ m, c.Ends i m := by
  have hnone : ∃ m : Nat, c.lookup (i + m) = none := by
    by_contra hall
    push Not at hall
    have := length_le (c := c) (i := i) (m := c.length + 1) fun j _ =>
      Option.isSome_iff_ne_none.mpr (hall j)
    omega
  refine ⟨Nat.find hnone, fun j hj => ?_, Nat.find_spec hnone⟩
  exact Option.isSome_iff_ne_none.mpr (Nat.find_min hnone hj)

theorem ipairs_eq {m : Nat} (h : c.Ends 1 m) : c.ipairs = c.pairs (numbers 1 m) :=
  ipairsFrom_eq (length_le h.1) h

theorem mem_pairs {keys : List Int} {cell : Option (GamePlayer Int)} :
    cell ∈ c.pairs keys ↔ ∃ k ∈ keys, c.lookup k = some cell := List.mem_filterMap

theorem exists_order (c : Cells) : ∃ keys, c.Order keys := by
  refine ⟨(c.map Prod.fst).dedup, List.nodup_dedup _, fun k => ?_⟩
  rw [List.mem_dedup, List.lookup_isSome_iff, List.mem_map]
  exact exists_congr fun q => and_congr_right fun _ => by rw [beq_iff_eq, eq_comm]

end Cells

theorem Occupy.fetch_lim {o o' : Occupy} {k : Int} (h : o.fetch = (true, o'))
    (hread : o'.read = some k) :
    k ∈ o.lis ∧ o'.lim = o.lim ∨ k = o.lim + 1 ∧ o'.lim = o.lim + 1 := by
  have hcur : o'.cur = k := by
    rw [Occupy.read] at hread
    split at hread
    · exact Option.some.inj hread
    · cases hread
  unfold Occupy.fetch at h
  split at h
  case h_1 cur hlast =>
    obtain ⟨-, rfl⟩ := Prod.mk.inj h
    exact .inl ⟨hcur ▸ List.mem_of_getLast? hlast, rfl⟩
  case h_2 =>
    split at h
    · obtain ⟨-, rfl⟩ := Prod.mk.inj h
      exact .inr ⟨hcur.symm, rfl⟩
    · cases h

namespace Tables

variable {t : Tables}

/-- What the Lua tables have to do with the seats. -/
structure Kept (t : Tables) : Prop where
  filled : t.table.Filled
  player : ∀ k, t.table.arrPlayer k = (t.arrPlayer.lookup k).join
  keys : ∀ k, (t.arrPlayer.lookup k).isSome ↔ 1 ≤ k ∧ k ≤ t.table.ocp.lim
  user : ∀ userID p, t.mapPlayer.lookup userID = some (some p) → p.userID = userID

theorem Kept.new (maxPlayer : Nat) (carries : Bool) : Kept (new maxPlayer carries) where
  filled := (Competition.Inv.new maxPlayer carries).filled
  player _ := rfl
  keys k := by
    simp [Tables.new, Competition.new, Occupy.new]
    omega
  user _ _ h := by cases h

theorem playerEnter_full (userID : Int) (robot : Bool)
    (hfetch : t.table.ocp.fetch = (false, t.table.ocp)) :
    (t.playerEnter userID robot).1 = t := by
  rw [Tables.playerEnter, Competition.playerEnter, hfetch]
  rfl

theorem playerEnter_sit (userID : Int) (robot : Bool) {ocp : Occupy} {k : Int}
    (hfetch : t.table.ocp.fetch = (true, ocp)) (hread : ocp.read = some k) :
    ∃ table player, (t.playerEnter userID robot).1 =
        ⟨table, (userID, some player) :: t.mapPlayer, (k, some player) :: t.arrPlayer⟩ ∧
      player.userID = userID ∧ table = (t.table.playerEnter userID robot).1 ∧ table.ocp = ocp ∧
      table.arrPlayer = Function.update t.table.arrPlayer k (some player) := by
  refine ⟨_, ⟨t.table.objects, userID, k, robot⟩, ?_, rfl, rfl, ?_⟩
  · rw [Tables.playerEnter, hfetch]
    simp only [hread]
  · rw [Competition.playerEnter, hfetch]
    simp only [if_true, hread]
    split
    · split <;> exact ⟨rfl, rfl⟩
    · exact ⟨rfl, rfl⟩

theorem Kept.playerEnter (h : t.Kept) (userID : Int) (robot : Bool) :
    (t.playerEnter userID robot).1.Kept := by
  have hfilled := h.filled.playerEnter userID robot
  obtain ⟨hfetch, -⟩ | ⟨k, ocp, hfetch, hread, -⟩ := h.filled.ocp.fetch
  · rw [playerEnter_full userID robot hfetch]
    exact h
  obtain ⟨table, player, henter, huser, htable, hocp, harr⟩ :=
    playerEnter_sit userID robot hfetch hread
  have hlim := Occupy.fetch_lim hfetch hread
  rw [henter]
  refine ⟨?_, fun j => ?_, fun j => ?_, fun u p hp => ?_⟩
  · rw [htable]
    exact hfilled
  · rw [harr]
    by_cases hj : j = k
    · rw [hj, Function.update_self, List.lookup_cons_self]
      rfl
    · rw [Function.update_of_ne hj, Cells.lookup_write hj, h.player]
  · have hseat : (1 ≤ k ∧ k ≤ ocp.lim) ∧
        (1 ≤ j ∧ j ≤ ocp.lim → j = k ∨ 1 ≤ j ∧ j ≤ t.table.ocp.lim) ∧
        t.table.ocp.lim ≤ ocp.lim := by
      have hnonneg := h.filled.ocp.lim_nonneg
      obtain ⟨hmem, hlim⟩ | ⟨rfl, hlim⟩ := hlim
      · obtain ⟨hone, hle, -⟩ := (h.filled.ocp.mem_lis k).mp hmem
        omega
      · omega
    rw [hocp]
    by_cases hj : j = k
    · rw [hj, List.lookup_cons_self]
      exact iff_of_true rfl hseat.1
    · rw [Cells.lookup_write hj, h.keys]
      omega
  · by_cases hu : u = userID
    · rw [hu, List.lookup_cons_self] at hp
      rw [hu, ← huser, Option.some.inj (Option.some.inj hp)]
    · rw [Cells.lookup_write hu] at hp
      exact h.user u p hp

theorem Kept.playerLeave (h : t.Kept) {player : GamePlayer Int} {seatID : Int}
    (hplayer : t.table.arrPlayer seatID = some player) : (t.playerLeave player).Kept := by
  obtain rfl := h.filled.seats seatID player hplayer
  have hsome : (t.arrPlayer.lookup player.seatID).isSome := by
    rw [h.player] at hplayer
    cases hlookup : t.arrPlayer.lookup player.seatID with
    | none => rw [hlookup] at hplayer; cases hplayer
    | some => rfl
  have hocp : (t.table.playerLeave player).ocp.lim = t.table.ocp.lim := by
    rw [Competition.playerLeave_eq]
    split <;> rfl
  have harr : (t.table.playerLeave player).arrPlayer =
      Function.update t.table.arrPlayer player.seatID none := by
    rw [Competition.playerLeave_eq]
    split <;> rfl
  refine ⟨h.filled.playerLeave hplayer, fun j => ?_, fun j => ?_, fun u p hp => ?_⟩
  · show (t.table.playerLeave player).arrPlayer j =
      (List.lookup j ((player.seatID, none) :: t.arrPlayer)).join
    rw [harr]
    by_cases hj : j = player.seatID
    · rw [hj, Function.update_self, List.lookup_cons_self]
      rfl
    · rw [Function.update_of_ne hj, Cells.lookup_write hj, h.player]
  · show (List.lookup j ((player.seatID, none) :: t.arrPlayer)).isSome ↔
      1 ≤ j ∧ j ≤ (t.table.playerLeave player).ocp.lim
    rw [hocp]
    by_cases hj : j = player.seatID
    · rw [hj, List.lookup_cons_self]
      exact iff_of_true rfl ((h.keys _).mp hsome)
    · rw [Cells.lookup_write hj, h.keys]
  · have hp' : List.lookup u ((player.userID, none) :: t.mapPlayer) = some (some p) := hp
    by_cases hu : u = player.userID
    · rw [hu, List.lookup_cons_self] at hp'
      cases hp'
    · rw [Cells.lookup_write hu] at hp'
      exact h.user u p hp'

theorem Kept.call (h : t.Kept) (e : Call Int) : (t.call e).1.Kept := by
  cases e with
  | playerEnter userID robot => exact h.playerEnter userID robot
  | playerLeave seatID =>
    rw [Tables.call]
    cases hplayer : t.table.arrPlayer seatID with
    | none => exact h
    | some player => exact h.playerLeave hplayer

/-! ### Which of them visit the players -/

theorem Kept.lookup_iff (h : t.Kept) (hfull : ¬ t.Vacated) (k : Int) :
    t.arrPlayer.lookup k = (t.table.arrPlayer k).map some := by
  rw [h.player]
  cases hlookup : t.arrPlayer.lookup k with
  | none => rfl
  | some cell =>
    cases cell with
    | none => exact absurd ⟨k, hlookup⟩ hfull
    | some player => rfl

theorem Kept.visit_pairs (h : t.Kept) {keys : List Int} (horder : t.arrPlayer.Order keys) :
    (∃ players, visit (t.arrPlayer.pairs keys) = some players ∧ players.Perm t.seated) ↔
      ¬ t.Vacated := by
  constructor
  · rintro ⟨players, hvisit, -⟩ ⟨k, hk⟩
    have hmem : none ∈ t.arrPlayer.pairs keys :=
      Cells.mem_pairs.mpr ⟨k, (horder.2 k).mpr (by rw [hk]; rfl), hk⟩
    rw [visit_eq_some_iff.mp hvisit] at hmem
    simp at hmem
  · intro hfull
    have hlookup := h.lookup_iff hfull
    have hpairs : t.arrPlayer.pairs keys = (keys.filterMap t.table.arrPlayer).map some := by
      rw [Cells.pairs, List.map_filterMap]
      exact List.filterMap_congr fun k _ => hlookup k
    refine ⟨_, visit_eq_some_iff.mpr hpairs, ?_⟩
    have hkeys : keys.Perm (t.table.seats.filter fun k => (t.table.arrPlayer k).isSome) := by
      refine (List.perm_ext_iff_of_nodup horder.1 ?_).mpr fun k => ?_
      · refine List.Nodup.filter _ (List.nodup_range.map fun a b hab => ?_)
        have heq : (a : Int) + 1 = b + 1 := hab
        omega
      · have htaken := Competition.mem_taken (t := t.table) (k := k)
        rw [Competition.taken, List.mem_toFinset] at htaken
        rw [htaken, horder.2, hlookup, Option.isSome_map, Option.isSome_iff_ne_none]
        refine ⟨fun hne => ?_, fun hmem => hmem.2.2⟩
        obtain ⟨hone, hle⟩ := h.filled.ocp.used k hne
        exact ⟨hone, hle.trans h.filled.ocp.lim_le, hne⟩
    refine (hkeys.filterMap _).trans (List.Perm.of_eq ?_)
    rw [seated, List.filterMap_filter]
    refine List.filterMap_congr fun k _ => ?_
    cases t.table.arrPlayer k <;> rfl

theorem Kept.ipairs_arrPlayer (h : t.Kept) :
    ∃ keys, t.arrPlayer.ipairs = t.arrPlayer.pairs keys ∧ t.arrPlayer.Order keys := by
  have hnonneg := h.filled.ocp.lim_nonneg
  have hends : t.arrPlayer.Ends 1 t.table.ocp.lim.toNat := by
    refine ⟨fun j hj => (h.keys _).mpr (by omega), ?_⟩
    rw [← Option.not_isSome_iff_eq_none, h.keys]
    omega
  refine ⟨_, Cells.ipairs_eq hends, Cells.nodup_numbers _ _, fun k => ?_⟩
  rw [Cells.mem_numbers, h.keys]
  omega

theorem Kept.visit_ipairs (h : t.Kept) :
    (∃ players, visit t.arrPlayer.ipairs = some players ∧ players.Perm t.seated) ↔
      ¬ t.Vacated := by
  obtain ⟨keys, hipairs, horder⟩ := h.ipairs_arrPlayer
  rw [hipairs]
  exact h.visit_pairs horder

theorem Kept.nodup_seated (h : t.Kept) : t.seated.Nodup := by
  refine List.Nodup.filterMap (fun j k p hj hk => ?_) ?_
  · exact (h.filled.seats j p hj).symm.trans (h.filled.seats k p hk)
  · refine List.nodup_range.map fun a b hab => ?_
    have heq : (a : Int) + 1 = b + 1 := hab
    omega

/-- The players that `ipairs` visits, if it fails at none, have the numbers up to the first user who
never was at the table. -/
theorem Kept.mem_mapPlayer (h : t.Kept) {m : Nat} {players : List (GamePlayer Int)}
    (heq : t.mapPlayer.pairs (Cells.numbers 1 m) = players.map some) (p : GamePlayer Int) :
    p ∈ players ↔
      (1 ≤ p.userID ∧ p.userID ≤ m) ∧ t.mapPlayer.lookup p.userID = some (some p) := by
  have hmem : p ∈ players ↔ some p ∈ t.mapPlayer.pairs (Cells.numbers 1 m) := by simp [heq]
  rw [hmem, Cells.mem_pairs]
  constructor
  · rintro ⟨k, hk, hlookup⟩
    obtain rfl := h.user k p hlookup
    have := Cells.mem_numbers.mp hk
    exact ⟨by omega, hlookup⟩
  · rintro ⟨hone, hlookup⟩
    exact ⟨_, Cells.mem_numbers.mpr (by omega), hlookup⟩

theorem Kept.numbered (h : t.Kept) {players : List (GamePlayer Int)}
    (hvisit : visit t.mapPlayer.ipairs = some players) (hperm : players.Perm t.seated) :
    t.Numbered := by
  obtain ⟨m, hends⟩ := t.mapPlayer.exists_ends 1
  rw [Cells.ipairs_eq hends] at hvisit
  have heq := visit_eq_some_iff.mp hvisit
  have hmem := h.mem_mapPlayer heq
  refine ⟨fun p hp => ((hmem p).mp (hperm.mem_iff.mpr hp)).2, m, fun userID => ⟨?_, ?_⟩, ?_⟩
  · rintro ⟨p, hp, rfl⟩
    exact ((hmem p).mp (hperm.mem_iff.mpr hp)).1
  · intro huser
    have hsome := hends.1 (userID - 1).toNat (by omega)
    rw [show 1 + ((userID - 1).toNat : Int) = userID by omega] at hsome
    obtain ⟨cell, hcell⟩ := Option.isSome_iff_exists.mp hsome
    have hcells : cell ∈ t.mapPlayer.pairs (Cells.numbers 1 m) :=
      Cells.mem_pairs.mpr ⟨userID, Cells.mem_numbers.mpr (by omega), hcell⟩
    rw [heq] at hcells
    obtain ⟨p, hp, rfl⟩ := List.mem_map.mp hcells
    exact ⟨p, hperm.mem_iff.mp hp, h.user userID p hcell⟩
  · rw [Int.add_comm]
    exact hends.2

theorem Kept.visit_numbered (h : t.Kept) (hnumbered : t.Numbered) :
    ∃ players, visit t.mapPlayer.ipairs = some players ∧ players.Perm t.seated := by
  obtain ⟨hmap, n, hn, hnext⟩ := hnumbered
  have hplayer : ∀ k : Int, 1 ≤ k → k ≤ n →
      ∃ p ∈ t.seated, t.mapPlayer.lookup k = some (some p) := by
    intro k hone hle
    obtain ⟨p, hp, rfl⟩ := (hn k).mpr ⟨hone, hle⟩
    exact ⟨p, hp, hmap p hp⟩
  have hends : t.mapPlayer.Ends 1 n := by
    refine ⟨fun j hj => ?_, ?_⟩
    · obtain ⟨p, -, hp⟩ := hplayer (1 + j) (by omega) (by omega)
      rw [hp]
      rfl
    · rw [Int.add_comm]
      exact hnext
  have heq : t.mapPlayer.pairs (Cells.numbers 1 n) =
      ((Cells.numbers 1 n).filterMap fun k => (t.mapPlayer.lookup k).join).map some := by
    rw [Cells.pairs, List.map_filterMap]
    refine List.filterMap_congr fun k hk => ?_
    have hk := Cells.mem_numbers.mp hk
    obtain ⟨p, -, hp⟩ := hplayer k hk.1 (by omega)
    rw [hp]
    rfl
  rw [Cells.ipairs_eq hends]
  refine ⟨_, visit_eq_some_iff.mpr heq, ?_⟩
  refine (List.perm_ext_iff_of_nodup ?_ h.nodup_seated).mpr fun p => ?_
  · refine List.Nodup.filterMap (fun j k p hj hk => ?_) (Cells.nodup_numbers 1 n)
    exact (h.user j p (Option.join_eq_some_iff.mp hj)).symm.trans
      (h.user k p (Option.join_eq_some_iff.mp hk))
  · rw [h.mem_mapPlayer heq]
    constructor
    · rintro ⟨hbounds, hlookup⟩
      obtain ⟨q, hq, hqp⟩ := hplayer p.userID hbounds.1 hbounds.2
      rwa [Option.some.inj (Option.some.inj (hlookup.symm.trans hqp))]
    · intro hp
      exact ⟨(hn _).mp ⟨p, hp, rfl⟩, hmap p hp⟩

theorem Kept.dataClear_iff (h : t.Kept) :
    (∃ cleared joined, t.dataClear = some (cleared, joined) ∧ cleared.Perm t.seated ∧
      joined.Perm t.seated) ↔ ¬ t.Vacated ∧ t.Numbered := by
  rw [← h.visit_ipairs, Tables.dataClear]
  constructor
  · rintro ⟨cleared, joined, hclear, hcleared, hjoined⟩
    obtain ⟨cleared', hmap, hclear⟩ := Option.bind_eq_some_iff.mp hclear
    obtain ⟨joined', harr, hclear⟩ := Option.bind_eq_some_iff.mp hclear
    obtain ⟨rfl, rfl⟩ := Prod.mk.inj (Option.some.inj hclear)
    exact ⟨⟨joined', harr, hjoined⟩, h.numbered hmap hcleared⟩
  · rintro ⟨⟨joined, harr, hjoined⟩, hnumbered⟩
    obtain ⟨cleared, hmap, hcleared⟩ := h.visit_numbered hnumbered
    exact ⟨cleared, joined, by rw [hmap, harr]; rfl, hcleared, hjoined⟩

theorem Kept.refershRobotEnter_iff (h : t.Kept) (target : Int) :
    (∃ players invite, t.refershRobotEnter (some target) = some (players, invite) ∧
      players.Perm t.seated) ↔ ¬ t.Vacated := by
  rw [← h.visit_ipairs, Tables.refershRobotEnter]
  constructor
  · rintro ⟨players, invite, henter, hperm⟩
    obtain ⟨players', hvisit, henter⟩ := Option.bind_eq_some_iff.mp henter
    obtain ⟨rfl, -⟩ := Prod.mk.inj (Option.some.inj henter)
    exact ⟨players', hvisit, hperm⟩
  · rintro ⟨players, hvisit, hperm⟩
    exact ⟨players, _, by rw [hvisit]; rfl, hperm⟩

theorem Kept.cacheStart_iff (h : t.Kept) :
    (∀ keys, t.arrPlayer.Order keys → ∃ players, t.cacheStart keys = some players ∧
      players.Perm t.seated) ↔ ¬ t.Vacated := by
  constructor
  · intro hcache
    obtain ⟨keys, horder⟩ := t.arrPlayer.exists_order
    exact (h.visit_pairs horder).mp (hcache keys horder)
  · exact fun hfull keys horder => (h.visit_pairs horder).mpr hfull

theorem checkStart_eq_some_iff {ifIdle : Option Bool} {inf : GameInfo}
    {ready : GamePlayer Int → Bool} {keys : List Int} {open' : Bool} :
    t.checkStart ifIdle inf ready keys = some open' ↔ ifIdle = some false ∧ open' = false := by
  cases ifIdle with
  | none => simp [checkStart]
  | some idle =>
    cases idle with
    | false => simp [checkStart, eq_comm]
    | true => simp [checkStart, getNumPlayer, Occupy.count]

theorem kept_after (maxPlayer : Nat) (carries : Bool) (es : List (Call Int)) :
    (Lib.after call (new maxPlayer carries) es).Kept := by
  induction es using List.reverseRecOn with
  | nil => exact .new maxPlayer carries
  | append_singleton es e ih =>
    rw [Lib.after_snoc]
    exact ih.call e

/-- After any calls, the traversals are right if and only if the status has an `IfIdle` that answers
`false`, no seat that was taken is empty, and the users with a seat are numbered. -/
theorem survives_iff (maxPlayer : Nat) (carries : Bool) (es : List (Call Int))
    (ifIdle : Option Bool) (inf : GameInfo) (ready : GamePlayer Int → Bool) (target : Int) :
    let t := Lib.after call (new maxPlayer carries) es
    t.Survives ifIdle inf ready target ↔ ifIdle = some false ∧ ¬ t.Vacated ∧ t.Numbered := by
  intro t
  have h : t.Kept := kept_after maxPlayer carries es
  constructor
  · rintro ⟨hstart, -, -, hclear⟩
    obtain ⟨keys, horder⟩ := t.arrPlayer.exists_order
    obtain ⟨starts, hcheck, -⟩ := hstart keys horder
    exact ⟨(checkStart_eq_some_iff.mp hcheck).1, h.dataClear_iff.mp hclear⟩
  · rintro ⟨rfl, hfull, hnumbered⟩
    refine ⟨fun keys _ => ⟨false, checkStart_eq_some_iff.mpr ⟨rfl, rfl⟩, fun hfalse => ?_⟩,
      h.cacheStart_iff.mpr hfull, (h.refershRobotEnter_iff target).mpr hfull,
      h.dataClear_iff.mpr ⟨hfull, hnumbered⟩⟩
    cases hfalse

/-- The users 1 and 2 enter, and 1 leaves. -/
theorem empty_seat :
    let t := Lib.after call (new 3 false)
      [.playerEnter 1 false, .playerEnter 2 false, .playerLeave 1]
    t.cacheStart [1, 2] = none ∧ t.cacheStart [2, 1] = none ∧ t.dataClear = none ∧
      (∀ target, t.refershRobotEnter (some target) = none) ∧
      ∀ inf ready keys, t.checkStart none inf ready keys = none :=
  ⟨rfl, rfl, rfl, fun _ => rfl, fun _ _ _ => rfl⟩

end Tables

end XsServer.Game
