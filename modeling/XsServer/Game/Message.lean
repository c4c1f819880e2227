import Mathlib.Data.List.Nodup
import Mathlib.Data.List.Perm.Subperm

/-! `message:ntfMsgToTable`, and who gets which message of it.  A message goes to the players that
the map of user identifiers gives in order, without its private fields, and to the players at the
first seats, with them: those whose identifiers are 1 to some `j`, and those at the seats 1 to the
number of chairs, whatever the chairs are. -/

namespace XsServer.Game

inductive UserID
  | int (i : Int)
  | str (s : String)
  deriving DecidableEq

structure Player where
  userID : UserID
  seatID : Int
  fd : Nat
  deriving DecidableEq

/-- The players at a table: `_mapPlayer` has them by their identifiers, `_arrPlayer` by seats. -/
structure Players where
  list : List Player
  users : (list.map Player.userID).Nodup
  seats : (list.map Player.seatID).Nodup
  fds : (list.map Player.fd).Nodup

/-- `message_see_info` -/
structure Sees (φ : Type*) where
  fields : List φ
  chairs : List Int

variable {φ β : Type*}

/-- The fields of a message that are not nil. -/
abbrev Body (φ β : Type*) := φ → Option β

structure Sent (φ β : Type*) where
  fd : Nat
  name : String
  data : Body φ β

/-- What was sent, the message afterwards, and whether the call came to its end. -/
structure Outcome (φ β : Type*) where
  sent : List (Sent φ β)
  data : Body φ β
  done : Bool

namespace Players

def mapPlayer (t : Players) (id : UserID) : Option Player := t.list.find? (·.userID = id)

def arrPlayer (t : Players) (seat : Int) : Option Player := t.list.find? (·.seatID = seat)

/-- `ipairs` from a position on, over the entries of a map; there are no more than `n`. -/
def ipairsFrom (get : Int → Option Player) (i : Int) : Nat → List Player
  | 0 => []
  | n + 1 =>
    match get i with
    | some player => player :: ipairsFrom get (i + 1) n
    | none => []

/-- `ipairs(self._mapPlayer)` -/
def ipairsPlayer (t : Players) : List Player :=
  ipairsFrom (fun i => t.mapPlayer (.int i)) 1 t.list.length

/-- The players at the seats from a position on; `none` when one is free. -/
def seatsFrom (t : Players) (i : Int) : Nat → Option (List Player)
  | 0 => some []
  | n + 1 =>
    match t.arrPlayer i with
    | some player => (t.seatsFrom (i + 1) n).map (player :: ·)
    | none => none

end Players

def ntfMsgToClients (fds : List Nat) (name : String) (data : Body φ β) : List (Sent φ β) :=
  fds.map fun fd => ⟨fd, name, data⟩

/-- `table.exist` -/
def exist (chairs : List Int) (seat : Int) : Bool := seat ∈ chairs

variable [DecidableEq φ]

/-- The private fields are deleted from the message, and kept in `back`. -/
def hide (data back : Body φ β) : List φ → Body φ β × Body φ β
  | [] => (data, back)
  | field :: fields =>
    hide (Function.update data field none) (Function.update back field (data field)) fields

def restore (data back : Body φ β) : List φ → Body φ β
  | [] => data
  | field :: fields => restore (Function.update data field (back field)) back fields

def ntfMsgToTable (t : Players) (name : String) (data : Body φ β) : Option (Sees φ) → Outcome φ β
  | none => ⟨ntfMsgToClients (t.ipairsPlayer.map Player.fd) name data, data, true⟩
  | some sees =>
    let (hidden, back) := hide data (fun _ => none) sees.fields
    let socs := t.ipairsPlayer.filter fun player => ¬ exist sees.chairs player.seatID
    let sent := ntfMsgToClients (socs.map Player.fd) name hidden
    let data := restore hidden back sees.fields
    -- the second broadcast goes to the positions of the chairs, not to the chairs
    match t.seatsFrom 1 sees.chairs.length with
    | some players => ⟨sent ++ ntfMsgToClients (players.map Player.fd) name data, data, true⟩
    | none => ⟨sent, data, false⟩

def Outcome.received (o : Outcome φ β) (player : Player) : List (Body φ β) :=
  (o.sent.filter fun s => s.fd = player.fd).map Sent.data

variable {φ β : Type*} {t : Players} {p : Player}

namespace Players

/-- Every identifier from 1 to the one of the player is at the table. -/
def Reached (t : Players) (p : Player) : Prop :=
  ∃ j : Nat, p.userID = .int j ∧ 1 ≤ j ∧
    ∀ i : Nat, 1 ≤ i → i ≤ j → ∃ q ∈ t.list, q.userID = .int i

theorem find?_key_eq_some {κ : Type*} [DecidableEq κ] {list : List Player} {f : Player → κ} {k : κ}
    (hnodup : (list.map f).Nodup) : list.find? (f · = k) = some p ↔ p ∈ list ∧ f p = k := by
  have hsome : ∀ {q}, list.find? (f · = k) = some q → q ∈ list ∧ f q = k := by
    intro q h
    have hk := List.find?_some h
    simp only [decide_eq_true_eq] at hk
    exact ⟨List.mem_of_find?_eq_some h, hk⟩
  refine ⟨hsome, fun ⟨hp, hk⟩ => ?_⟩
  cases hfind : list.find? (f · = k) with
  | none => exact absurd (List.find?_eq_none.mp hfind p hp) (by simp [hk])
  | some q =>
    obtain ⟨hq, hqk⟩ := hsome hfind
    rw [List.inj_on_of_nodup_map hnodup hq hp (hqk.trans hk.symm)]

theorem mapPlayer_eq_some {id : UserID} : t.mapPlayer id = some p ↔ p ∈ t.list ∧ p.userID = id :=
  find?_key_eq_some t.users

theorem arrPlayer_eq_some {seat : Int} :
    t.arrPlayer seat = some p ↔ p ∈ t.list ∧ p.seatID = seat :=
  find?_key_eq_some t.seats

theorem mem_ipairsFrom {get : Int → Option Player} {i : Int} {n : Nat} :
    p ∈ ipairsFrom get i n ↔
      ∃ k < n, (∀ j : Nat, j ≤ k → (get (i + j)).isSome) ∧ get (i + k) = some p := by
  induction n generalizing i with
  | zero => simp [ipairsFrom]
  | succ n ih =>
    rw [ipairsFrom]
    cases hget : get i with
    | none =>
      constructor
      · exact fun h => absurd h List.not_mem_nil
      · rintro ⟨k, -, hall, -⟩
        have := hall 0 (Nat.zero_le k)
        simp [hget] at this
    | some player =>
      simp only [List.mem_cons, ih]
      constructor
      · rintro (rfl | ⟨k, hk, hall, heq⟩)
        · refine ⟨0, by omega, fun j hj => ?_, by simpa using hget⟩
          obtain rfl : j = 0 := by omega
          simp [hget]
        · refine ⟨k + 1, by omega, fun j hj => ?_, ?_⟩
          · cases j with
            | zero => simp [hget]
            | succ j =>
              have := hall j (by omega)
              rwa [show i + ((j + 1 : Nat) : Int) = i + 1 + j by push_cast; omega]
          · rwa [show i + ((k + 1 : Nat) : Int) = i + 1 + k by push_cast; omega]
      · rintro ⟨k, hk, hall, heq⟩
        cases k with
        | zero =>
          left
          have : get i = some p := by simpa using heq
          exact Option.some.inj (this.symm.trans hget)
        | succ k =>
          refine Or.inr ⟨k, by omega, fun j hj => ?_, ?_⟩
          · have := hall (j + 1) (by omega)
            rwa [show i + ((j + 1 : Nat) : Int) = i + 1 + j by push_cast; omega] at this
          · rwa [show i + ((k + 1 : Nat) : Int) = i + 1 + k by push_cast; omega] at heq

theorem nodup_ipairsFrom {get : Int → Option Player}
    (hinj : ∀ i j p, get i = some p → get j = some p → i = j) (i : Int) (n : Nat) :
    (ipairsFrom get i n).Nodup := by
  induction n generalizing i with
  | zero => exact List.nodup_nil
  | succ n ih =>
    rw [ipairsFrom]
    split
    case h_1 player hget =>
      refine List.nodup_cons.mpr ⟨fun hmem => ?_, ih (i + 1)⟩
      obtain ⟨k, -, -, heq⟩ := mem_ipairsFrom.mp hmem
      have := hinj _ _ _ hget heq
      omega
    case h_2 => exact List.nodup_nil

theorem nodup_ipairsPlayer (t : Players) : t.ipairsPlayer.Nodup := by
  refine nodup_ipairsFrom (fun i j q hi hj => ?_) _ _
  have hi' := (mapPlayer_eq_some.mp hi).2
  rw [(mapPlayer_eq_some.mp hj).2] at hi'
  exact (UserID.int.inj hi').symm

theorem le_length_of_reached {j : Nat}
    (h : ∀ i : Nat, 1 ≤ i → i ≤ j → ∃ q ∈ t.list, q.userID = .int i) : j ≤ t.list.length := by
  have hnodup : ((List.range' 1 j).map fun i : Nat => UserID.int i).Nodup := by
    refine List.Nodup.map (fun a b hab => ?_) List.nodup_range'
    exact Int.ofNat.inj (UserID.int.inj hab)
  have hsub : ((List.range' 1 j).map fun i : Nat => UserID.int i) ⊆ t.list.map Player.userID := by
    intro id hid
    obtain ⟨i, hi, rfl⟩ := List.mem_map.mp hid
    have hrange := List.mem_range'_1.mp hi
    obtain ⟨q, hq, hqid⟩ := h i (by omega) (by omega)
    exact List.mem_map.mpr ⟨q, hq, hqid⟩
  have := (hnodup.subperm hsub).length_le
  simpa using this

theorem mem_ipairsPlayer : p ∈ t.ipairsPlayer ↔ p ∈ t.list ∧ t.Reached p := by
  unfold ipairsPlayer
  rw [mem_ipairsFrom]
  constructor
  · rintro ⟨k, hk, hall, heq⟩
    obtain ⟨hp, hid⟩ := mapPlayer_eq_some.mp heq
    refine ⟨hp, k + 1, by rw [hid]; congr 1; omega, by omega, fun i h1 hi => ?_⟩
    obtain ⟨q, hq⟩ := Option.isSome_iff_exists.mp (hall (i - 1) (by omega))
    obtain ⟨hmem, hqid⟩ := mapPlayer_eq_some.mp hq
    exact ⟨q, hmem, by rw [hqid]; congr 1; omega⟩
  · rintro ⟨hp, j, hid, h1, hall⟩
    have hle := le_length_of_reached hall
    refine ⟨j - 1, by omega, fun i hi => ?_, ?_⟩
    · obtain ⟨q, hq, hqid⟩ := hall (i + 1) (by omega) (by omega)
      refine Option.isSome_iff_exists.mpr ⟨q, mapPlayer_eq_some.mpr ⟨hq, ?_⟩⟩
      rw [hqid]
      congr 1
      omega
    · refine mapPlayer_eq_some.mpr ⟨hp, ?_⟩
      rw [hid]
      congr 1
      omega

theorem seatsFrom_eq_some {i : Int} {n : Nat} {players : List Player}
    (h : t.seatsFrom i n = some players) :
    players.Nodup ∧ ∀ p, p ∈ players ↔ p ∈ t.list ∧ i ≤ p.seatID ∧ p.seatID < i + n := by
  induction n generalizing i players with
  | zero =>
    obtain rfl := Option.some.inj h
    refine ⟨List.nodup_nil, fun p => ⟨fun hp => absurd hp List.not_mem_nil, fun hp => ?_⟩⟩
    omega
  | succ n ih =>
    rw [seatsFrom] at h
    cases hget : t.arrPlayer i with
    | none => simp [hget] at h
    | some player =>
      rw [hget] at h
      obtain ⟨rest, hrest, rfl⟩ := Option.map_eq_some_iff.mp h
      obtain ⟨hnodup, hmem⟩ := ih hrest
      obtain ⟨hplayer, hseat⟩ := arrPlayer_eq_some.mp hget
      refine ⟨List.nodup_cons.mpr ⟨fun hin => ?_, hnodup⟩, fun p => ?_⟩
      · have := (hmem player).mp hin
        omega
      · rw [List.mem_cons, hmem]
        constructor
        · rintro (rfl | ⟨hp, h1, h2⟩)
          · exact ⟨hplayer, by omega, by omega⟩
          · exact ⟨hp, by omega, by omega⟩
        · rintro ⟨hp, h1, h2⟩
          by_cases hpi : p.seatID = i
          · left
            have hp' := arrPlayer_eq_some.mpr ⟨hp, hpi⟩
            exact Option.some.inj (hp'.symm.trans hget)
          · exact Or.inr ⟨hp, by omega, by omega⟩

theorem seatsFrom_isSome {i : Int} {n : Nat} : (∃ players, t.seatsFrom i n = some players) ↔
    ∀ seat : Int, i ≤ seat → seat < i + n → ∃ q ∈ t.list, q.seatID = seat := by
  induction n generalizing i with
  | zero =>
    constructor
    · intro _ seat h1 h2
      omega
    · exact fun _ => ⟨[], rfl⟩
  | succ n ih =>
    rw [seatsFrom]
    cases hget : t.arrPlayer i with
    | none =>
      constructor
      · rintro ⟨players, h⟩
        cases h
      · intro hall
        obtain ⟨q, hq, hseat⟩ := hall i (by omega) (by omega)
        rw [arrPlayer_eq_some.mpr ⟨hq, hseat⟩] at hget
        cases hget
    | some player =>
      obtain ⟨hplayer, hpseat⟩ := arrPlayer_eq_some.mp hget
      constructor
      · rintro ⟨players, h⟩ seat h1 h2
        obtain ⟨rest, hrest, -⟩ := Option.map_eq_some_iff.mp h
        by_cases hseat : seat = i
        · exact ⟨player, hplayer, by omega⟩
        · exact ih.mp ⟨rest, hrest⟩ seat (by omega) (by omega)
      · intro hall
        obtain ⟨rest, hrest⟩ := (ih (i := i + 1)).mpr fun seat h1 h2 =>
          hall seat (by omega) (by omega)
        exact ⟨player :: rest, by simp only [hrest, Option.map_some]⟩

end Players

section Fields

variable [DecidableEq φ]

theorem hide_fst (data back : Body φ β) (fields : List φ) (f : φ) :
    (hide data back fields).1 f = if f ∈ fields then none else data f := by
  induction fields generalizing data back with
  | nil => rfl
  | cons field fields ih =>
    rw [hide, ih]
    by_cases hf : f = field
    · subst hf
      simp
    · simp [hf]

theorem hide_snd (data back : Body φ β) (fields : List φ) (f : φ) :
    (hide data back fields).2 f =
      if f ∈ fields then if fields.count f ≤ 1 then data f else none else back f := by
  induction fields generalizing data back with
  | nil => rfl
  | cons field fields ih =>
    rw [hide, ih]
    by_cases hf : f = field
    · subst hf
      by_cases hmem : f ∈ fields
      · have hcount := List.count_pos_iff.mpr hmem
        have htwo : ¬ fields.count f + 1 ≤ 1 := by omega
        simp [hmem, htwo]
      · simp [hmem, List.count_eq_zero.mpr hmem]
    · rw [List.count_cons_of_ne (Ne.symm hf)]
      simp [hf]

theorem restore_apply (data back : Body φ β) (fields : List φ) (f : φ) :
    restore data back fields f = if f ∈ fields then back f else data f := by
  induction fields generalizing data with
  | nil => rfl
  | cons field fields ih =>
    rw [restore, ih]
    by_cases hf : f = field
    · subst hf
      simp
    · simp [hf]

theorem restore_hide (data back : Body φ β) (fields : List φ) (f : φ) :
    restore (hide data back fields).1 (hide data back fields).2 fields f =
      if fields.count f ≤ 1 then data f else none := by
  rw [restore_apply, hide_fst, hide_snd]
  by_cases hmem : f ∈ fields
  · simp [hmem]
  · simp [hmem, List.count_eq_zero.mpr hmem]

end Fields

/-! ### What a player gets -/

theorem received_clients {list : List Player} (hsub : ∀ q ∈ list, q ∈ t.list) (hnodup : list.Nodup)
    (hp : p ∈ t.list) (name : String) (data : Body φ β) :
    ((ntfMsgToClients (list.map Player.fd) name data).filter fun s => s.fd = p.fd).map Sent.data =
      if p ∈ list then [data] else [] := by
  induction list with
  | nil => rfl
  | cons q list ih =>
    have hrest := ih (fun r hr => hsub r (List.mem_cons_of_mem q hr)) (List.nodup_cons.mp hnodup).2
    have hq := (List.nodup_cons.mp hnodup).1
    have hfd : q.fd = p.fd ↔ q = p := by
      constructor
      · exact List.inj_on_of_nodup_map t.fds (hsub q List.mem_cons_self) hp
      · exact congrArg Player.fd
    simp only [ntfMsgToClients, List.map_cons] at hrest ⊢
    rw [List.filter_cons]
    by_cases heq : q = p
    · subst heq
      simp only [decide_true, if_true, List.map_cons, hrest, if_neg hq, List.mem_cons_self]
    · have hne : p ≠ q := Ne.symm heq
      simp only [hfd, heq, decide_false, List.mem_cons, hne, false_or]
      exact hrest

section Delivery

variable [DecidableEq φ] {name : String} {data : Body φ β} {sees : Sees φ}

/-- The message as it is after the call, for the players that may see all of it. -/
def shown (data : Body φ β) (sees : Sees φ) : Body φ β := fun f =>
  if sees.fields.count f ≤ 1 then data f else none

def masked (data : Body φ β) (sees : Sees φ) : Body φ β := fun f =>
  if f ∈ sees.fields then none else data f

/-- A seat among the first ones, as many as there are chairs. -/
def Near (sees : Sees φ) (p : Player) : Prop := 1 ≤ p.seatID ∧ p.seatID ≤ sees.chairs.length

instance : Decidable (Near sees p) := inferInstanceAs (Decidable (_ ∧ _))

def AllTaken (t : Players) (sees : Sees φ) : Prop :=
  ∀ seat : Int, 1 ≤ seat → seat ≤ sees.chairs.length → ∃ q ∈ t.list, q.seatID = seat

theorem ntfMsgToTable_data (t : Players) (name : String) (data : Body φ β) (sees : Sees φ) :
    (ntfMsgToTable t name data (some sees)).data = shown data sees := by
  funext f
  unfold ntfMsgToTable shown
  rw [← restore_hide data (fun _ => none)]
  simp only
  split <;> rfl

theorem ntfMsgToTable_done : (ntfMsgToTable t name data (some sees)).done ↔ AllTaken t sees := by
  unfold ntfMsgToTable AllTaken
  have hseats := Players.seatsFrom_isSome (t := t) (i := 1) (n := sees.chairs.length)
  have hlt : ∀ seat : Int, seat < 1 + sees.chairs.length ↔ seat ≤ sees.chairs.length := by
    intro seat
    omega
  simp only [hlt] at hseats
  rw [← hseats]
  simp only
  split
  case h_1 players h => simp [h]
  case h_2 h => simp [h]

theorem received_eq (hall : AllTaken t sees) (hp : p ∈ t.list) :
    (ntfMsgToTable t name data (some sees)).received p =
      (if p ∈ t.ipairsPlayer ∧ p.seatID ∉ sees.chairs then [masked data sees] else []) ++
        if Near sees p then [shown data sees] else [] := by
  have hdata := ntfMsgToTable_data t name data sees
  obtain ⟨players, hplayers⟩ := Players.seatsFrom_isSome.mpr fun seat (h1 : (1 : Int) ≤ seat)
    (h2 : seat < 1 + sees.chairs.length) => hall seat h1 (by omega)
  obtain ⟨hnodup, hmem⟩ := Players.seatsFrom_eq_some hplayers
  have hnear : p ∈ players ↔ Near sees p := by
    rw [hmem, Near]
    constructor
    · exact fun h => ⟨h.2.1, by omega⟩
    · exact fun h => ⟨hp, h.1, by omega⟩
  have hfirst : p ∈ t.ipairsPlayer.filter (fun player => ¬ exist sees.chairs player.seatID) ↔
      p ∈ t.ipairsPlayer ∧ p.seatID ∉ sees.chairs := by
    simp [exist]
  have hmasked : (hide data (fun _ => none) sees.fields).1 = masked data sees :=
    funext fun f => hide_fst data (fun _ => none) sees.fields f
  have hsub : ∀ q ∈ t.ipairsPlayer.filter (fun player => ¬ exist sees.chairs player.seatID),
      q ∈ t.list := fun q hq => (Players.mem_ipairsPlayer.mp (List.mem_of_mem_filter hq)).1
  have hnodup' := t.nodup_ipairsPlayer.filter fun player => ¬ exist sees.chairs player.seatID
  unfold ntfMsgToTable at hdata ⊢
  simp only [hplayers] at hdata ⊢
  rw [Outcome.received, List.filter_append, List.map_append, hdata, hmasked,
    received_clients hsub hnodup' hp, received_clients (fun q hq => ((hmem q).mp hq).1) hnodup hp]
  simp only [hfirst, hnear]

/-! ### Who gets what -/

/-- The message goes to everyone once and shows the private fields only to the chairs. -/
structure Delivered (t : Players) (name : String) (data : Body φ β) (sees : Sees φ) : Prop where
  done : (ntfMsgToTable t name data (some sees)).done
  hidden : ∀ p ∈ t.list, p.seatID ∉ sees.chairs → ∀ data' : Body φ β,
    (∀ f, f ∉ sees.fields → data' f = data f) →
      (ntfMsgToTable t name data' (some sees)).received p =
        (ntfMsgToTable t name data (some sees)).received p
  seen : ∀ p ∈ t.list, p.seatID ∈ sees.chairs →
    data ∈ (ntfMsgToTable t name data (some sees)).received p
  once : ∀ p ∈ t.list, ((ntfMsgToTable t name data (some sees)).received p).length = 1
  unchanged : (ntfMsgToTable t name data (some sees)).data = data

/-- The seats, the identifiers and the chairs fit: the seats of the chairs are the first ones, and
everyone else has one of the first identifiers. -/
structure Fits (t : Players) (data : Body φ β) (sees : Sees φ) : Prop where
  taken : AllTaken t sees
  seen : ∀ p ∈ t.list, p.seatID ∈ sees.chairs → Near sees p
  others : ∀ p ∈ t.list, p.seatID ∉ sees.chairs →
    t.Reached p ∧ ¬ Near sees p ∨
      ¬ t.Reached p ∧ Near sees p ∧ ∀ f ∈ sees.fields, 2 ≤ sees.fields.count f
  single : ∀ f, data f ≠ none → sees.fields.count f ≤ 1

theorem Fits.delivered (h : Fits t data sees) : Delivered t name data sees := by
  have hshown : shown data sees = data := by
    funext f
    unfold shown
    split
    case isTrue => rfl
    case isFalse hcount =>
      by_contra hne
      exact hcount (h.single f (Ne.symm hne))
  refine ⟨ntfMsgToTable_done.mpr h.taken, ?_, ?_, ?_, ?_⟩
  · intro p hp hseat data' hdata'
    rw [received_eq h.taken hp, received_eq h.taken hp]
    congr 1
    · have hmasked : masked data' sees = masked data sees := by
        funext f
        unfold masked
        split
        case isTrue => rfl
        case isFalse hf => exact hdata' f hf
      rw [hmasked]
    · obtain ⟨-, hfar⟩ | ⟨-, hnear, htwice⟩ := h.others p hp hseat
      · rw [if_neg hfar, if_neg hfar]
      · have heq : shown data' sees = shown data sees := by
          funext f
          unfold shown
          split
          case isTrue hcount =>
            refine hdata' f fun hf => ?_
            have := htwice f hf
            omega
          case isFalse => rfl
        rw [heq]
  · intro p hp hseat
    rw [received_eq h.taken hp, if_pos (h.seen p hp hseat), hshown]
    exact List.mem_append_right _ (List.mem_singleton.mpr rfl)
  · intro p hp
    rw [received_eq h.taken hp]
    by_cases hseat : p.seatID ∈ sees.chairs
    · rw [if_neg fun hfirst => hfirst.2 hseat, if_pos (h.seen p hp hseat)]
      rfl
    · obtain ⟨hreach, hfar⟩ | ⟨hnot, hnear, -⟩ := h.others p hp hseat
      · rw [if_pos ⟨Players.mem_ipairsPlayer.mpr ⟨hp, hreach⟩, hseat⟩, if_neg hfar]
        rfl
      · rw [if_neg fun hfirst => hnot (Players.mem_ipairsPlayer.mp hfirst.1).2, if_pos hnear]
        rfl
  · rw [ntfMsgToTable_data, hshown]

theorem Delivered.fits [Inhabited β] (h : Delivered t name data sees) : Fits t data sees := by
  have htaken := ntfMsgToTable_done.mp h.done
  have hseen : ∀ p ∈ t.list, p.seatID ∈ sees.chairs → Near sees p := by
    intro p hp hseat
    have hmem := h.seen p hp hseat
    rw [received_eq htaken hp, if_neg fun hfirst => hfirst.2 hseat, List.nil_append] at hmem
    by_contra hfar
    rw [if_neg hfar] at hmem
    exact List.not_mem_nil hmem
  refine ⟨htaken, hseen, ?_, ?_⟩
  · intro p hp hseat
    have honce := h.once p hp
    rw [received_eq htaken hp] at honce
    by_cases hreach : t.Reached p
    · left
      refine ⟨hreach, fun hnear => ?_⟩
      rw [if_pos ⟨Players.mem_ipairsPlayer.mpr ⟨hp, hreach⟩, hseat⟩, if_pos hnear] at honce
      cases honce
    · have hnot : ¬ (p ∈ t.ipairsPlayer ∧ p.seatID ∉ sees.chairs) := fun hfirst =>
        hreach (Players.mem_ipairsPlayer.mp hfirst.1).2
      have hnear : Near sees p := by
        by_contra hfar
        rw [if_neg hnot, if_neg hfar] at honce
        cases honce
      refine Or.inr ⟨hreach, hnear, fun f hf => ?_⟩
      by_contra hcount
      -- the other run has another value in the field
      let data' := Function.update data f (if data f = none then some default else none)
      have hother : ∀ g, g ∉ sees.fields → data' g = data g := fun g hg =>
        Function.update_of_ne (ne_of_mem_of_not_mem hf hg).symm _ _
      have heq := h.hidden p hp hseat data' hother
      rw [received_eq htaken hp, received_eq htaken hp, if_neg hnot, if_neg hnot, if_pos hnear,
        if_pos hnear] at heq
      have hf' := congrFun (List.singleton_inj.mp heq) f
      unfold shown at hf'
      rw [if_pos (by omega), if_pos (by omega)] at hf'
      simp only [data', Function.update_self] at hf'
      by_cases hnone : data f = none
      · rw [if_pos hnone, hnone] at hf'
        cases hf'
      · rw [if_neg hnone] at hf'
        exact hnone hf'.symm
  · intro f hne
    have hf := congrFun ((ntfMsgToTable_data t name data sees).symm.trans h.unchanged) f
    by_contra hcount
    rw [shown, if_neg hcount] at hf
    exact hne hf.symm

/-- The message is delivered as its `sees` says if and only if seats, identifiers and chairs fit. -/
theorem delivered_iff [Inhabited β] (t : Players) (name : String) (data : Body φ β)
    (sees : Sees φ) : Delivered t name data sees ↔ Fits t data sees :=
  ⟨Delivered.fits, Fits.delivered⟩

end Delivery

/-- Two players at the seats 1 and 2. -/
def two : Players :=
  ⟨[⟨.int 1001, 1, 11⟩, ⟨.int 1002, 2, 12⟩], by decide, by decide, by decide⟩

/-- The cards of the player at the seat 2, for this player only. -/
def dealt : Body String Nat := fun f => if f = "cards" then some 7 else none

/-- The other player gets the cards, and the player whose cards they are gets nothing. -/
theorem cards_leak :
    (ntfMsgToTable two "s2cMahjongDealCard" dealt (some ⟨["cards"], [2]⟩)).received
        ⟨.int 1002, 2, 12⟩ = [] ∧
      ((ntfMsgToTable two "s2cMahjongDealCard" dealt (some ⟨["cards"], [2]⟩)).received
        ⟨.int 1001, 1, 11⟩).map (fun data => data "cards") = [some 7] ∧
      ¬ Delivered two "s2cMahjongDealCard" dealt ⟨["cards"], [2]⟩ := by
  refine ⟨rfl, rfl, fun h => ?_⟩
  exact absurd (h.once ⟨.int 1002, 2, 12⟩ (by decide)) (by decide)

end XsServer.Game
