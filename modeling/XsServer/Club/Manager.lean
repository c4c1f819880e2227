import Mathlib.Data.Finset.Card

/-! The clubs of `clubmanager.lua`: their agents and members, and who of them is online. -/

namespace XsServer.Club

/-- `onlineMapping` and `onlineNumber` of a club or an agent. -/
structure Presence (ι : Type*) where
  onlineMapping : ι → Option Nat
  onlineNumber : Int

structure AdminInfo where
  agentID : Nat
  clubID : Nat
  deriving DecidableEq

structure MemberInfo (ι : Type*) where
  rid : ι
  agentID : Nat
  clubID : Nat
  deriving DecidableEq

/-- A club; its agents are known by their positions in `_admins`. -/
structure ClubData where
  clubID : Nat
  adminHash : Nat → Option Nat

/-- `clubmanager`.  A club or an agent is known by its position in `_clubs` or `_admins`, and
`clubOnline` and `adminOnline` have what changes of it after the loading. -/
structure Clubmanager (ι : Type*) where
  clubs : List ClubData
  clubHash : Nat → Option Nat
  admins : List AdminInfo
  adminHash : Nat → Option Nat
  members : List (MemberInfo ι)
  memberUser : ι → Option (List (MemberInfo ι))
  clubOnline : Nat → Presence ι
  adminOnline : Nat → Presence ι

namespace Presence

variable {ι : Type*}

def empty : Presence ι := ⟨fun _ => none, 0⟩

variable [DecidableEq ι]

def enter (rid : ι) (fd : Nat) (p : Presence ι) : Presence ι :=
  ⟨Function.update p.onlineMapping rid (some fd), p.onlineNumber + 1⟩

def leave (rid : ι) (p : Presence ι) : Presence ι :=
  ⟨Function.update p.onlineMapping rid none, p.onlineNumber - 1⟩

end Presence

namespace Clubmanager

variable {ι : Type*}

def new : Clubmanager ι :=
  ⟨[], fun _ => none, [], fun _ => none, [], fun _ => none, fun _ => .empty, fun _ => .empty⟩

/-! ### The loading -/

def addClub (s : Clubmanager ι) (clubID : Nat) : Clubmanager ι :=
  { s with
    clubs := s.clubs ++ [⟨clubID, fun _ => none⟩]
    clubHash := Function.update s.clubHash clubID (some s.clubs.length) }

/-- `clubInfo`, of the `clubID` of each club -/
def clubInfo (s : Clubmanager ι) (ret : List Nat) : Clubmanager ι := ret.foldl addClub s

/-- The hash of the agents has them by `clubID`.  `none` is an error: there is no such club. -/
def addAdmin (s : Clubmanager ι) (info : AdminInfo) : Option (Clubmanager ι) :=
  match s.clubHash info.clubID with
  | none => none
  | some targe => some { s with
      admins := s.admins ++ [info]
      adminHash := Function.update s.adminHash info.clubID (some s.admins.length)
      clubs := s.clubs.modify targe fun data =>
        { data with
          adminHash := Function.update data.adminHash info.agentID (some s.admins.length) } }

def adminsInfo (s : Clubmanager ι) (ret : List AdminInfo) : Option (Clubmanager ι) :=
  ret.foldlM addAdmin s

variable [DecidableEq ι]

/-- `none` is an error: there is no such club, or it has no such agent. -/
def addMember (s : Clubmanager ι) (info : MemberInfo ι) : Option (Clubmanager ι) :=
  match s.clubHash info.clubID with
  | none => none
  | some club =>
    match (s.clubs[club]?).bind fun data => data.adminHash info.agentID with
    | none => none
    | some _ => some { s with
        members := s.members ++ [info]
        memberUser := Function.update s.memberUser info.rid
          (some ((s.memberUser info.rid).getD [] ++ [info])) }

def membersInfo (s : Clubmanager ι) (ret : List (MemberInfo ι)) : Option (Clubmanager ι) :=
  ret.foldlM addMember s

inductive Part (ι : Type*)
  | clubInfo (ret : List Nat)
  | adminsInfo (ret : List AdminInfo)
  | membersInfo (ret : List (MemberInfo ι))

def loadPart (s : Clubmanager ι) : Part ι → Option (Clubmanager ι)
  | .clubInfo ret => some (s.clubInfo ret)
  | .adminsInfo ret => s.adminsInfo ret
  | .membersInfo ret => s.membersInfo ret

def load (parts : List (Part ι)) : Option (Clubmanager ι) := parts.foldlM loadPart new

omit [DecidableEq ι] in
/-- The loop over the memberships in `online` and `offline`, which differ in what they `change`.
A club that is missing ends it; `false` is an error: an agent is missing. -/
def visit (s : Clubmanager ι) (change : Presence ι → Presence ι) :
    List (MemberInfo ι) → Clubmanager ι × Bool
  | [] => (s, true)
  | member :: members =>
    match s.clubHash member.clubID with
    | none => (s, true)
    | some club =>
      let s := { s with
        clubOnline := Function.update s.clubOnline club (change (s.clubOnline club)) }
      match s.adminHash member.agentID with
      | none => (s, false)
      | some admin =>
        visit { s with
          adminOnline := Function.update s.adminOnline admin (change (s.adminOnline admin)) }
          change members

def online (s : Clubmanager ι) (rid : ι) (fd : Nat) : Clubmanager ι × Bool :=
  match s.memberUser rid with
  | none => (s, true)
  | some members => s.visit (.enter rid fd) members

def offline (s : Clubmanager ι) (rid : ι) : Clubmanager ι × Bool :=
  match s.memberUser rid with
  | none => (s, true)
  | some members => s.visit (.leave rid) members

/-- The hashes have what they are asked for, and every member has an agent. -/
structure Loaded (s : Clubmanager ι) : Prop where
  clubHash : ∀ clubID c, s.clubHash clubID = some c →
    ∃ data, s.clubs[c]? = some data ∧ data.clubID = clubID
  adminHash : ∀ key a, s.adminHash key = some a → ∃ info, s.admins[a]? = some info
  agents : ∀ (c : Nat) data agentID a, s.clubs[c]? = some data → data.adminHash agentID = some a →
    ∃ info, s.admins[a]? = some info ∧ info.agentID = agentID
  club : ∀ member ∈ s.members, ∃ c, s.clubHash member.clubID = some c
  agent : ∀ member ∈ s.members, ∃ (a : Nat) (info : AdminInfo),
    s.admins[a]? = some info ∧ info.agentID = member.agentID
  users : ∀ rid, s.memberUser rid =
    if (s.members.filter fun member => member.rid = rid) = [] then none
    else some (s.members.filter fun member => member.rid = rid)
  clubOnline : ∀ c, s.clubOnline c = .empty
  adminOnline : ∀ a, s.adminOnline a = .empty

variable {s t : Clubmanager ι}

theorem Loaded.new : Loaded (new : Clubmanager ι) := by
  constructor <;> simp [Clubmanager.new]

theorem Loaded.addClub (h : Loaded s) (clubID : Nat) : Loaded (s.addClub clubID) where
  clubHash key c hc := by
    simp only [Clubmanager.addClub, Function.update_apply] at hc ⊢
    split at hc
    case isTrue heq =>
      cases hc
      exact ⟨_, List.getElem?_concat_length, heq.symm⟩
    case isFalse =>
      obtain ⟨data, hdata, hid⟩ := h.clubHash key c hc
      exact ⟨data, List.getElem?_append_left (List.getElem?_eq_some_iff.mp hdata).1 ▸ hdata, hid⟩
  adminHash := h.adminHash
  agents c data agentID a hdata ha := by
    simp only [Clubmanager.addClub, List.getElem?_append] at hdata
    split at hdata
    · exact h.agents c data agentID a hdata ha
    · obtain rfl := List.mem_singleton.mp (List.mem_of_getElem? hdata)
      cases ha
  club member hmember := by
    simp only [Clubmanager.addClub, Function.update_apply]
    split
    · exact ⟨_, rfl⟩
    · exact h.club member hmember
  agent := h.agent
  users := h.users
  clubOnline := h.clubOnline
  adminOnline := h.adminOnline

theorem Loaded.addAdmin (h : Loaded s) {info : AdminInfo} (ht : s.addAdmin info = some t) :
    Loaded t := by
  unfold Clubmanager.addAdmin at ht
  split at ht
  case h_1 => cases ht
  case h_2 targe htarge =>
    cases ht
    have hold : ∀ (a : Nat) info', s.admins[a]? = some info' →
        (s.admins ++ [info])[a]? = some info' := fun a info' ha =>
      (List.getElem?_append_left (List.getElem?_eq_some_iff.mp ha).1).trans ha
    constructor
    · intro clubID c hc
      obtain ⟨data, hdata, rfl⟩ := h.clubHash clubID c hc
      simp only [List.getElem?_modify, hdata]
      exact ⟨_, rfl, by split <;> rfl⟩
    · intro key a ha
      simp only [Function.update_apply] at ha
      split at ha
      · cases ha
        exact ⟨_, List.getElem?_concat_length⟩
      · obtain ⟨info', ha⟩ := h.adminHash key a ha
        exact ⟨info', hold a info' ha⟩
    · intro c data agentID a hdata ha
      simp only [List.getElem?_modify, Option.map_eq_map, Option.map_eq_some_iff] at hdata
      obtain ⟨data', hdata', rfl⟩ := hdata
      split at ha
      · simp only [Function.update_apply] at ha
        split at ha
        case isTrue heq =>
          cases ha
          exact ⟨info, List.getElem?_concat_length, heq.symm⟩
        case isFalse =>
          obtain ⟨info', ha, hid⟩ := h.agents c data' agentID a hdata' ha
          exact ⟨info', hold a info' ha, hid⟩
      · obtain ⟨info', ha, hid⟩ := h.agents c data' agentID a hdata' ha
        exact ⟨info', hold a info' ha, hid⟩
    · exact h.club
    · intro member hmember
      obtain ⟨a, info', ha, hid⟩ := h.agent member hmember
      exact ⟨a, info', hold a info' ha, hid⟩
    · exact h.users
    · exact h.clubOnline
    · exact h.adminOnline

theorem Loaded.addMember (h : Loaded s) {info : MemberInfo ι} (ht : s.addMember info = some t) :
    Loaded t := by
  unfold Clubmanager.addMember at ht
  split at ht
  case h_1 => cases ht
  case h_2 club hclub =>
    split at ht
    case h_1 => cases ht
    case h_2 a ha =>
      cases ht
      obtain ⟨data, hdata, ha⟩ := Option.bind_eq_some_iff.mp ha
      constructor
      · exact h.clubHash
      · exact h.adminHash
      · exact h.agents
      · intro member hmember
        obtain hmember | hmember := List.mem_append.mp hmember
        · exact h.club member hmember
        · obtain rfl := List.mem_singleton.mp hmember
          exact ⟨club, hclub⟩
      · intro member hmember
        obtain hmember | hmember := List.mem_append.mp hmember
        · exact h.agent member hmember
        · obtain rfl := List.mem_singleton.mp hmember
          exact ⟨a, h.agents club data _ a hdata ha⟩
      · intro rid
        simp only [Function.update_apply, List.filter_append]
        split
        case isTrue heq =>
          subst heq
          rw [h.users]
          split
          case isTrue hnil => simp [hnil]
          case isFalse => simp
        case isFalse hne => simp [Ne.symm hne, h.users rid]
      · exact h.clubOnline
      · exact h.adminOnline

theorem foldlM_loaded {α : Type*} {f : Clubmanager ι → α → Option (Clubmanager ι)}
    (hf : ∀ s t a, Loaded s → f s a = some t → Loaded t) (ret : List α) (hs : Loaded s)
    (ht : ret.foldlM f s = some t) : Loaded t := by
  induction ret generalizing s with
  | nil => exact Option.some.inj ht ▸ hs
  | cons a ret ih =>
    obtain ⟨u, hu, ht⟩ := Option.bind_eq_some_iff.mp ht
    exact ih (hf s u a hs hu) ht

theorem load_loaded {parts : List (Part ι)} (h : load parts = some s) : Loaded s := by
  refine foldlM_loaded (fun s t part hs ht => ?_) parts Loaded.new h
  cases part with
  | clubInfo ret =>
    cases ht
    exact List.foldlRecOn ret _ hs fun _ hs clubID _ => hs.addClub clubID
  | adminsInfo ret => exact foldlM_loaded (fun _ _ _ hs => hs.addAdmin) ret hs ht
  | membersInfo ret => exact foldlM_loaded (fun _ _ _ hs => hs.addMember) ret hs ht

end Clubmanager

end XsServer.Club
