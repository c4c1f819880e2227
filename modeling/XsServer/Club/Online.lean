import XsServer.Club.Manager
import XsServer.Lib.Run

/-! Whether the numbers of `clubmanager.lua` count those who are online. -/

namespace XsServer.Club

variable {ι : Type*} [DecidableEq ι]

/-! ### One club or agent -/

namespace Presence

omit [DecidableEq ι] in
/-- The keys are those of `who`, and the number is theirs. -/
def Of (p : Presence ι) (who : ι → Prop) : Prop :=
  ∃ keys : Finset ι, (∀ rid, rid ∈ keys ↔ who rid) ∧
    (∀ rid, (p.onlineMapping rid).isSome ↔ rid ∈ keys) ∧ p.onlineNumber = keys.card

variable {p : Presence ι} {who who' : ι → Prop} {rid : ι}

theorem iterate_enter (rid : ι) (fd n : Nat) (p : Presence ι) :
    ((enter rid fd)^[n] p).onlineNumber = p.onlineNumber + n ∧
      ∀ x, ((enter rid fd)^[n] p).onlineMapping x =
        if x = rid ∧ 0 < n then some fd else p.onlineMapping x := by
  induction n with
  | zero => simp
  | succ n ih =>
    obtain ⟨hnumber, hmapping⟩ := ih
    rw [Function.iterate_succ_apply']
    constructor
    · rw [enter, hnumber]
      push_cast
      omega
    · intro x
      simp only [enter, Function.update_apply]
      split
      case isTrue heq => simp [heq]
      case isFalse hne => simp [hmapping x, hne]

theorem iterate_leave (rid : ι) (n : Nat) (p : Presence ι) :
    ((leave rid)^[n] p).onlineNumber = p.onlineNumber - n ∧
      ∀ x, ((leave rid)^[n] p).onlineMapping x =
        if x = rid ∧ 0 < n then none else p.onlineMapping x := by
  induction n with
  | zero => simp
  | succ n ih =>
    obtain ⟨hnumber, hmapping⟩ := ih
    rw [Function.iterate_succ_apply']
    constructor
    · rw [leave, hnumber]
      push_cast
      omega
    · intro x
      simp only [leave, Function.update_apply]
      split
      case isTrue heq => simp [heq]
      case isFalse hne => simp [hmapping x, hne]

theorem isSome_enter (rid : ι) (fd n : Nat) (p : Presence ι) (x : ι) :
    (((enter rid fd)^[n] p).onlineMapping x).isSome ↔
      (p.onlineMapping x).isSome ∨ (x = rid ∧ 0 < n) := by
  rw [(iterate_enter rid fd n p).2 x]
  split <;> simp [*]

theorem isSome_leave (rid : ι) (n : Nat) (p : Presence ι) (x : ι) :
    (((leave rid)^[n] p).onlineMapping x).isSome ↔
      (p.onlineMapping x).isSome ∧ ¬ (x = rid ∧ 0 < n) := by
  rw [(iterate_leave rid n p).2 x]
  split <;> simp [*]

theorem of_enter_iff (h : p.Of who) (hnot : ¬ who rid) (hsame : ∀ x, x ≠ rid → (who' x ↔ who x))
    (fd n : Nat) : ((enter rid fd)^[n] p).Of who' ↔ n ≤ 1 ∧ (0 < n ↔ who' rid) := by
  obtain ⟨keys, hkeys, hmapping, hnumber⟩ := h
  have hnumber' := (iterate_enter rid fd n p).1
  have hmapping' := isSome_enter rid fd n p
  have hrid : rid ∉ keys := fun hmem => hnot ((hkeys rid).mp hmem)
  constructor
  · rintro ⟨keys', hkeys', hset, hcount⟩
    have hmem : ∀ x, x ∈ keys' ↔ x ∈ keys ∨ (x = rid ∧ 0 < n) := fun x => by
      rw [← hset x, hmapping' x, hmapping x]
    have hwho : 0 < n ↔ who' rid := by
      rw [← hkeys' rid, hmem rid]
      simp [hrid]
    refine ⟨?_, hwho⟩
    by_contra hn
    have hinsert : keys' = insert rid keys := by
      ext x
      rw [hmem x, Finset.mem_insert]
      have : 0 < n := by omega
      tauto
    rw [hnumber', hnumber, hinsert, Finset.card_insert_of_notMem hrid] at hcount
    push_cast at hcount
    omega
  · rintro ⟨hn, hwho⟩
    obtain rfl | rfl : n = 0 ∨ n = 1 := by omega
    · refine ⟨keys, fun x => ?_, hmapping, hnumber⟩
      by_cases hx : x = rid
      · subst hx
        exact iff_of_false hrid fun h => absurd (hwho.mpr h) (by decide)
      · rw [hkeys x, hsame x hx]
    · refine ⟨insert rid keys, fun x => ?_, fun x => ?_, ?_⟩
      · by_cases hx : x = rid
        · subst hx
          exact iff_of_true (Finset.mem_insert_self _ _) (hwho.mp Nat.one_pos)
        · rw [Finset.mem_insert, hkeys x, hsame x hx, or_iff_right hx]
      · rw [hmapping' x, hmapping x, Finset.mem_insert]
        simp [or_comm]
      · rw [hnumber', hnumber, Finset.card_insert_of_notMem hrid]
        rfl

theorem not_of_enter (h : p.Of who) (hwho : who rid) (fd : Nat) {n : Nat} (hn : 0 < n) :
    ¬ ((enter rid fd)^[n] p).Of who' := by
  obtain ⟨keys, hkeys, hmapping, hnumber⟩ := h
  have hnumber' := (iterate_enter rid fd n p).1
  have hmapping' := isSome_enter rid fd n p
  rintro ⟨keys', -, hset, hcount⟩
  have hsame : keys' = keys := by
    ext x
    rw [← hset x, hmapping' x, hmapping x, or_iff_left_of_imp]
    rintro ⟨rfl, -⟩
    exact (hkeys x).mpr hwho
  rw [hsame, hnumber', hnumber] at hcount
  omega

theorem of_leave (h : p.Of who) (hnot : ¬ who' rid) (hsame : ∀ x, x ≠ rid → (who' x ↔ who x))
    {n : Nat} (hn : n ≤ 1) (hwho : 0 < n ↔ who rid) : ((leave rid)^[n] p).Of who' := by
  obtain ⟨keys, hkeys, hmapping, hnumber⟩ := h
  have hnumber' := (iterate_leave rid n p).1
  have hmapping' := isSome_leave rid n p
  refine ⟨keys.erase rid, fun x => ?_, fun x => ?_, ?_⟩
  · by_cases hx : x = rid
    · simp [hx, hnot]
    · rw [Finset.mem_erase, hkeys x, hsame x hx, and_iff_right hx]
  · rw [hmapping' x, hmapping x, Finset.mem_erase, hwho, ← hkeys rid]
    by_cases hx : x = rid
    · simp [hx]
    · simp [hx]
  · rw [hnumber', hnumber]
    obtain rfl | rfl : n = 0 ∨ n = 1 := by omega
    · have hrid : rid ∉ keys := fun hmem => absurd (hwho.mpr ((hkeys rid).mp hmem)) (by decide)
      simp [Finset.erase_eq_of_notMem hrid]
    · have hrid : rid ∈ keys := (hkeys rid).mpr (hwho.mp Nat.one_pos)
      have hcard := Finset.card_erase_add_one hrid
      push_cast
      omega

theorem not_of_leave (h : p.Of who) (hwho : ¬ who rid) {n : Nat} (hn : 0 < n) :
    ¬ ((leave rid)^[n] p).Of who' := by
  obtain ⟨keys, hkeys, hmapping, hnumber⟩ := h
  have hnumber' := (iterate_leave rid n p).1
  have hmapping' := isSome_leave rid n p
  rintro ⟨keys', -, hset, hcount⟩
  have hsame : keys' = keys := by
    ext x
    rw [← hset x, hmapping' x, hmapping x, and_iff_left_of_imp]
    rintro hx ⟨rfl, -⟩
    exact hwho ((hkeys x).mp hx)
  rw [hsame, hnumber', hnumber] at hcount
  omega

end Presence

namespace Clubmanager

variable {s : Clubmanager ι}

/-- The changes of the clubs and agents at these positions. -/
def apply (s : Clubmanager ι) (change : Presence ι → Presence ι) (clubs admins : List Nat) :
    Clubmanager ι :=
  { s with
    clubOnline := fun c => change^[clubs.count c] (s.clubOnline c)
    adminOnline := fun a => change^[admins.count a] (s.adminOnline a) }

/-- The clubs of the memberships, and the agents that are looked up for them. -/
def clubsOf (s : Clubmanager ι) (members : List (MemberInfo ι)) : List Nat :=
  members.filterMap fun member => s.clubHash member.clubID

def adminsOf (s : Clubmanager ι) (members : List (MemberInfo ι)) : List Nat :=
  members.filterMap fun member => s.adminHash member.agentID

omit [DecidableEq ι] in
theorem iterate_update (change : Presence ι → Presence ι) (f : Nat → Presence ι) (k : Nat)
    (l : List Nat) : (fun c => change^[l.count c] (Function.update f k (change (f k)) c)) =
      fun c => change^[(k :: l).count c] (f c) := by
  funext c
  rw [List.count_cons, Function.update_apply]
  split
  case isTrue heq => simp [heq, Function.iterate_succ_apply]
  case isFalse hne => simp [Ne.symm hne]

omit [DecidableEq ι] in
theorem visit_cases (change : Presence ι → Presence ι) (members : List (MemberInfo ι))
    (s : Clubmanager ι) (hclub : ∀ member ∈ members, ∃ c, s.clubHash member.clubID = some c) :
    ((∀ member ∈ members, s.adminHash member.agentID ≠ none) ∧
        s.visit change members = (s.apply change (s.clubsOf members) (s.adminsOf members), true)) ∨
      ∃ pre member post, members = pre ++ member :: post ∧ s.adminHash member.agentID = none ∧
        (∀ m ∈ pre, s.adminHash m.agentID ≠ none) ∧
        s.visit change members =
          (s.apply change (s.clubsOf (pre ++ [member])) (s.adminsOf pre), false) := by
  induction members generalizing s with
  | nil => exact .inl ⟨by simp, rfl⟩
  | cons member members ih =>
    obtain ⟨c, hc⟩ := hclub member List.mem_cons_self
    rw [visit, hc]
    dsimp only
    cases ha : s.adminHash member.agentID with
    | none =>
      refine .inr ⟨[], member, members, rfl, ha, by simp, ?_⟩
      simp only [apply, clubsOf, adminsOf, List.nil_append, List.filterMap_cons, hc,
        List.filterMap_nil, ← iterate_update, List.count_nil, Function.iterate_zero, id]
    | some a =>
      let s' := { s with
        clubOnline := Function.update s.clubOnline c (change (s.clubOnline c))
        adminOnline := Function.update s.adminOnline a (change (s.adminOnline a)) }
      obtain ⟨hall, hvisit⟩ | ⟨pre, m, post, hsplit, hm, hpre, hvisit⟩ :=
        ih s' fun m hm => hclub m (List.mem_cons_of_mem _ hm)
      · refine .inl ⟨List.forall_mem_cons.mpr ⟨by simp [ha], hall⟩, hvisit.trans ?_⟩
        simp only [s', apply, clubsOf, adminsOf, iterate_update, List.filterMap_cons, hc, ha]
      · refine .inr ⟨member :: pre, m, post, by rw [hsplit]; rfl, hm,
          List.forall_mem_cons.mpr ⟨by simp [ha], hpre⟩, hvisit.trans ?_⟩
        simp only [s', apply, clubsOf, adminsOf, iterate_update, List.cons_append,
          List.filterMap_cons, hc, ha]

/-! ### The memberships of a user -/

def memberships (s : Clubmanager ι) (rid : ι) : List (MemberInfo ι) :=
  s.members.filter fun member => member.rid = rid

def offAll (s : Clubmanager ι) : Clubmanager ι :=
  { s with clubOnline := fun _ => .empty, adminOnline := fun _ => .empty }

/-- The agents that are looked up for the memberships of a user in `_adminHash` are there, and are
the agents of the memberships. -/
structure Found (s : Clubmanager ι) (rid : ι) : Prop where
  found : ∀ member ∈ s.memberships rid, s.adminHash member.agentID ≠ none
  clubs : ∀ (c : Nat) data, s.clubs[c]? = some data →
    (c ∈ s.clubsOf (s.memberships rid) ↔ ∃ m ∈ s.memberships rid, m.clubID = data.clubID)
  admins : ∀ (a : Nat) info, s.admins[a]? = some info →
    (a ∈ s.adminsOf (s.memberships rid) ↔ ∃ m ∈ s.memberships rid, m.agentID = info.agentID)

/-- And the clubs of the memberships are distinct, and the agents too. -/
structure Placed (s : Clubmanager ι) (rid : ι) : Prop extends s.Found rid where
  clubsOnce : (s.clubsOf (s.memberships rid)).Nodup
  adminsOnce : (s.adminsOf (s.memberships rid)).Nodup

theorem found_offAll {rid : ι} : s.offAll.Found rid ↔ s.Found rid :=
  ⟨fun h => ⟨h.found, h.clubs, h.admins⟩, fun h => ⟨h.found, h.clubs, h.admins⟩⟩

omit [DecidableEq ι] in
theorem visit_offAll (change : Presence ι → Presence ι) (members : List (MemberInfo ι))
    (s : Clubmanager ι) : (s.visit change members).1.offAll = s.offAll := by
  induction members generalizing s with
  | nil => rfl
  | cons member members ih =>
    rw [visit]
    split
    · rfl
    · dsimp only
      split
      · rfl
      · rw [ih]
        rfl

theorem Found.apply {rid : ι} (h : s.Found rid) (change : Presence ι → Presence ι)
    (clubs admins : List Nat) : (s.apply change clubs admins).Found rid :=
  ⟨h.found, h.clubs, h.admins⟩

theorem Placed.apply {rid : ι} (h : s.Placed rid) (change : Presence ι → Presence ι)
    (clubs admins : List Nat) : (s.apply change clubs admins).Placed rid :=
  ⟨h.toFound.apply .., h.clubsOnce, h.adminsOnce⟩

theorem Loaded.visit_memberUser (h : s.offAll.Loaded) (rid : ι)
    (change : Presence ι → Presence ι) :
    (match s.memberUser rid with
      | none => (s, true)
      | some members => s.visit change members) = s.visit change (s.memberships rid) := by
  have husers : s.memberUser rid =
      if s.memberships rid = [] then none else some (s.memberships rid) := h.users rid
  rw [husers]
  by_cases hnil : s.memberships rid = []
  · simp only [hnil, if_true, visit]
  · simp only [hnil, if_false]

theorem Loaded.online_eq (h : s.offAll.Loaded) (rid : ι) (fd : Nat) :
    s.online rid fd = s.visit (.enter rid fd) (s.memberships rid) :=
  h.visit_memberUser rid (.enter rid fd)

theorem Loaded.offline_eq (h : s.offAll.Loaded) (rid : ι) :
    s.offline rid = s.visit (.leave rid) (s.memberships rid) :=
  h.visit_memberUser rid (.leave rid)

theorem mem_memberships {rid : ι} {member : MemberInfo ι} :
    member ∈ s.memberships rid ↔ member ∈ s.members ∧ member.rid = rid := by
  rw [memberships, List.mem_filter, decide_eq_true_eq]

theorem Loaded.club_found (h : s.offAll.Loaded) {rid : ι} :
    ∀ member ∈ s.memberships rid, ∃ c, s.clubHash member.clubID = some c := fun member hmember =>
  h.club member (mem_memberships.mp hmember).1

theorem Found.visit {rid : ι} (h : s.Found rid) (hload : s.offAll.Loaded)
    (change : Presence ι → Presence ι) : s.visit change (s.memberships rid) =
      (s.apply change (s.clubsOf (s.memberships rid)) (s.adminsOf (s.memberships rid)), true) := by
  obtain ⟨-, hvisit⟩ | ⟨pre, m, post, hsplit, hm, -⟩ := s.visit_cases change _ hload.club_found
  · exact hvisit
  · exact absurd hm (h.found m (by simp [hsplit]))

theorem Loaded.visit_first (h : s.offAll.Loaded) {rid : ι} (hsome : s.memberships rid ≠ [])
    (change : Presence ι → Presence ι) : ∃ (c : Nat) (data : ClubData) (clubs admins : List Nat),
      s.clubs[c]? = some data ∧ (∃ m ∈ s.memberships rid, m.clubID = data.clubID) ∧ c ∈ clubs ∧
      (s.visit change (s.memberships rid)).1 = s.apply change clubs admins := by
  obtain ⟨member, members, hms⟩ := List.exists_cons_of_ne_nil hsome
  have hmember : member ∈ s.memberships rid := hms ▸ List.mem_cons_self
  obtain ⟨c, hc⟩ := h.club_found member hmember
  obtain ⟨data, hdata, hid⟩ := h.clubHash _ c hc
  obtain ⟨-, hvisit⟩ | ⟨pre, m, post, hsplit, -, -, hvisit⟩ := s.visit_cases change _ h.club_found
  · refine ⟨c, data, _, _, hdata, ⟨member, hmember, hid.symm⟩, ?_, by rw [hvisit]⟩
    exact List.mem_filterMap.mpr ⟨member, hmember, hc⟩
  · refine ⟨c, data, _, _, hdata, ⟨member, hmember, hid.symm⟩, ?_, by rw [hvisit]⟩
    refine List.mem_filterMap.mpr ⟨member, ?_, hc⟩
    rw [hms] at hsplit
    cases pre with
    | nil | cons m' pre => simp [(List.cons.inj hsplit).1]

theorem Loaded.agents_short (h : s.offAll.Loaded) {rid : ι} {pre post : List (MemberInfo ι)}
    {member : MemberInfo ι} (hsplit : s.memberships rid = pre ++ member :: post)
    (hmissing : s.adminHash member.agentID = none)
    (hagents : ∀ (a : Nat) info, s.admins[a]? = some info →
      (a ∈ s.adminsOf pre ↔ ∃ m ∈ s.memberships rid, m.agentID = info.agentID)) : False := by
  let wanted := ((s.memberships rid).map MemberInfo.agentID).toFinset
  let found := (s.adminsOf pre).toFinset
  have hmember : member.agentID ∈ wanted :=
    List.mem_toFinset.mpr (List.mem_map.mpr ⟨member, by simp [hsplit], rfl⟩)
  have hfound : found ⊆ (wanted.erase member.agentID).image fun id => (s.adminHash id).getD 0 := by
    intro a ha
    obtain ⟨m, hm, ha⟩ := List.mem_filterMap.mp (List.mem_toFinset.mp ha)
    refine Finset.mem_image.mpr ⟨m.agentID, Finset.mem_erase.mpr ⟨fun heq => ?_, ?_⟩, by simp [ha]⟩
    · rw [heq, hmissing] at ha
      cases ha
    · exact List.mem_toFinset.mpr (List.mem_map.mpr ⟨m, by simp [hsplit, hm], rfl⟩)
  have hwanted : wanted ⊆ found.image fun a => ((s.admins[a]?).map AdminInfo.agentID).getD 0 := by
    intro id hid
    obtain ⟨m, hm, rfl⟩ := List.mem_map.mp (List.mem_toFinset.mp hid)
    obtain ⟨a, info, ha, hid⟩ := h.agent m (mem_memberships.mp hm).1
    have ha' : s.admins[a]? = some info := ha
    refine Finset.mem_image.mpr ⟨a, List.mem_toFinset.mpr ?_, by simp [ha', hid]⟩
    exact (hagents a info ha').mpr ⟨m, hm, hid.symm⟩
  have hle := (Finset.card_le_card hfound).trans Finset.card_image_le
  have hge := (Finset.card_le_card hwanted).trans Finset.card_image_le
  have hlt := Finset.card_erase_lt_of_mem hmember
  omega

end Clubmanager

/-! ### The calls -/

/-- The clubs, and who is online: whose last call is `online`. -/
structure Reported (ι : Type*) where
  manager : Clubmanager ι
  present : ι → Bool

inductive Call (ι : Type*)
  | online (rid : ι) (fd : Nat)
  | offline (rid : ι)

namespace Reported

def start (s : Clubmanager ι) : Reported ι := ⟨s, fun _ => false⟩

def call (w : Reported ι) : Call ι → Reported ι × Unit
  | .online rid fd =>
    (⟨(w.manager.online rid fd).1, Function.update w.present rid true⟩, ())
  | .offline rid => (⟨(w.manager.offline rid).1, Function.update w.present rid false⟩, ())

omit [DecidableEq ι] in
/-- The members of the club, or of the agent, that are online. -/
def OfClub (w : Reported ι) (clubID : Nat) (rid : ι) : Prop :=
  w.present rid = true ∧ ∃ m ∈ w.manager.members, m.rid = rid ∧ m.clubID = clubID

omit [DecidableEq ι] in
def OfAgent (w : Reported ι) (agentID : Nat) (rid : ι) : Prop :=
  w.present rid = true ∧ ∃ m ∈ w.manager.members, m.rid = rid ∧ m.agentID = agentID

omit [DecidableEq ι] in
structure Counted (w : Reported ι) : Prop where
  clubs : ∀ (c : Nat) data, w.manager.clubs[c]? = some data →
    (w.manager.clubOnline c).Of (w.OfClub data.clubID)
  admins : ∀ (a : Nat) info, w.manager.admins[a]? = some info →
    (w.manager.adminOnline a).Of (w.OfAgent info.agentID)

/-- A user that has memberships goes online who is not, and is placed; or goes offline who is
online. -/
def Fits (w : Reported ι) : Call ι → Prop
  | .online rid _ => w.manager.memberships rid ≠ [] →
      w.present rid = false ∧ w.manager.Placed rid
  | .offline rid => w.manager.memberships rid ≠ [] → w.present rid = true

structure Inv (w : Reported ι) : Prop where
  loaded : w.manager.offAll.Loaded
  counted : w.Counted
  placed : ∀ rid, w.present rid = true → w.manager.Placed rid

variable {w : Reported ι} {s : Clubmanager ι}

theorem Inv.start (h : s.Loaded) : (start s).Inv where
  loaded := { h with clubOnline := fun _ => rfl, adminOnline := fun _ => rfl }
  counted := by
    have hnone : (Presence.empty : Presence ι).Of fun _ => False :=
      ⟨∅, by simp, by simp [Presence.empty], rfl⟩
    constructor <;> intros <;>
      simpa [Reported.start, OfClub, OfAgent, Presence.Of, h.clubOnline, h.adminOnline] using hnone
  placed := by simp [Reported.start]

theorem placed_nil {rid : ι} (h : s.memberships rid = []) : s.Placed rid := by
  refine ⟨⟨?_, ?_, ?_⟩, ?_, ?_⟩ <;> simp [h, Clubmanager.clubsOf, Clubmanager.adminsOf]

theorem exists_membership {P : MemberInfo ι → Prop} {rid : ι} :
    (∃ m ∈ s.memberships rid, P m) ↔ ∃ m ∈ s.members, m.rid = rid ∧ P m := by
  simp only [Clubmanager.mem_memberships, and_assoc]

theorem Inv.online (hi : w.Inv) {rid : ι} (fd : Nat)
    (hnot : w.manager.memberships rid ≠ [] → w.present rid = false) (h : w.manager.Placed rid) :
    (w.call (.online rid fd)).1.Inv := by
  have hnobody : ∀ P : MemberInfo ι → Prop,
      ¬ (w.present rid = true ∧ ∃ m ∈ w.manager.members, m.rid = rid ∧ P m) := by
    rintro P ⟨hpresent, m, hm, hrid, -⟩
    have hmem := Clubmanager.mem_memberships.mpr ⟨hm, hrid⟩
    rw [hnot (List.ne_nil_of_mem hmem)] at hpresent
    cases hpresent
  rw [call, hi.loaded.online_eq, h.visit hi.loaded]
  refine ⟨hi.loaded, ⟨fun c data hdata => ?_, fun a info hinfo => ?_⟩, fun x hx => ?_⟩
  · refine (Presence.of_enter_iff (hi.counted.clubs c data hdata) (hnobody _)
      (fun x hx => ?_) fd _).mpr ⟨?_, ?_⟩
    · simp [OfClub, Function.update_of_ne hx, Clubmanager.apply]
    · exact List.nodup_iff_count_le_one.mp h.clubsOnce c
    · rw [List.count_pos_iff, h.clubs c data hdata, exists_membership]
      simp [OfClub, Clubmanager.apply]
  · refine (Presence.of_enter_iff (hi.counted.admins a info hinfo) (hnobody _)
      (fun x hx => ?_) fd _).mpr ⟨?_, ?_⟩
    · simp [OfAgent, Function.update_of_ne hx, Clubmanager.apply]
    · exact List.nodup_iff_count_le_one.mp h.adminsOnce a
    · rw [List.count_pos_iff, h.admins a info hinfo, exists_membership]
      simp [OfAgent, Clubmanager.apply]
  · simp only [Function.update_apply] at hx
    split at hx
    case isTrue heq =>
      subst heq
      exact h.apply ..
    case isFalse => exact (hi.placed x hx).apply ..

theorem Inv.offline (hi : w.Inv) {rid : ι}
    (hpresent : w.manager.memberships rid ≠ [] → w.present rid = true) :
    (w.call (.offline rid)).1.Inv := by
  have h : w.manager.Placed rid := by
    by_cases hnil : w.manager.memberships rid = []
    · exact placed_nil hnil
    · exact hi.placed rid (hpresent hnil)
  have hsome : ∀ P : MemberInfo ι → Prop, (∃ m ∈ w.manager.members, m.rid = rid ∧ P m) →
      w.present rid = true := by
    rintro P ⟨m, hm, hrid, -⟩
    exact hpresent (List.ne_nil_of_mem (Clubmanager.mem_memberships.mpr ⟨hm, hrid⟩))
  rw [call, hi.loaded.offline_eq, h.visit hi.loaded]
  refine ⟨hi.loaded, ⟨fun c data hdata => ?_, fun a info hinfo => ?_⟩, fun x hx => ?_⟩
  · refine Presence.of_leave (hi.counted.clubs c data hdata) ?_ (fun x hx => ?_) ?_ ?_
    · simp [OfClub]
    · simp [OfClub, Function.update_of_ne hx, Clubmanager.apply]
    · exact List.nodup_iff_count_le_one.mp h.clubsOnce c
    · rw [List.count_pos_iff, h.clubs c data hdata, exists_membership, OfClub]
      exact (and_iff_right_of_imp (hsome _)).symm
  · refine Presence.of_leave (hi.counted.admins a info hinfo) ?_ (fun x hx => ?_) ?_ ?_
    · simp [OfAgent]
    · simp [OfAgent, Function.update_of_ne hx, Clubmanager.apply]
    · exact List.nodup_iff_count_le_one.mp h.adminsOnce a
    · rw [List.count_pos_iff, h.admins a info hinfo, exists_membership, OfAgent]
      exact (and_iff_right_of_imp (hsome _)).symm
  · simp only [Function.update_apply] at hx
    split at hx
    case isTrue => cases hx
    case isFalse => exact (hi.placed x hx).apply ..

theorem Inv.call (hi : w.Inv) {call : Call ι} (h : w.Fits call) : (w.call call).1.Inv := by
  cases call with
  | online rid fd =>
    by_cases hnil : w.manager.memberships rid = []
    · exact hi.online fd (fun hsome => absurd hnil hsome) (placed_nil hnil)
    · exact hi.online fd (fun hsome => (h hsome).1) (h hnil).2
  | offline rid => exact hi.offline h

theorem Inv.online_again (hi : w.Inv) {rid : ι} (fd : Nat)
    (hsome : w.manager.memberships rid ≠ []) (hpresent : w.present rid = true) :
    ¬ (w.call (.online rid fd)).1.Counted := by
  obtain ⟨c, data, clubs, admins, hdata, hmember, hc, hvisit⟩ :=
    hi.loaded.visit_first hsome (.enter rid fd)
  rw [exists_membership] at hmember
  rw [Reported.call, hi.loaded.online_eq, hvisit]
  intro hcounted
  exact Presence.not_of_enter (hi.counted.clubs c data hdata) ⟨hpresent, hmember⟩ fd
    (List.count_pos_iff.mpr hc) (hcounted.clubs c data hdata)

theorem Inv.offline_again (hi : w.Inv) {rid : ι} (hsome : w.manager.memberships rid ≠ [])
    (hpresent : w.present rid ≠ true) : ¬ (w.call (.offline rid)).1.Counted := by
  obtain ⟨c, data, clubs, admins, hdata, hmember, hc, hvisit⟩ :=
    hi.loaded.visit_first hsome (.leave rid)
  rw [Reported.call, hi.loaded.offline_eq, hvisit]
  intro hcounted
  exact Presence.not_of_leave (hi.counted.clubs c data hdata) (fun h => hpresent h.1)
    (List.count_pos_iff.mpr hc) (hcounted.clubs c data hdata)

theorem Inv.online_placed (hi : w.Inv) {rid : ι} {fd : Nat} (hnot : w.present rid ≠ true)
    (hcounted : (w.call (.online rid fd)).1.Counted) : w.manager.Placed rid := by
  rw [Reported.call, hi.loaded.online_eq] at hcounted
  -- what is counted of the clubs and agents that were visited, with all of them found or not
  have hvisited : ∀ clubs admins (ok : Bool), w.manager.visit (.enter rid fd)
        (w.manager.memberships rid) = (w.manager.apply (.enter rid fd) clubs admins, ok) →
      (∀ (c : Nat) data, w.manager.clubs[c]? = some data → clubs.count c ≤ 1 ∧
        (c ∈ clubs ↔ ∃ m ∈ w.manager.memberships rid, m.clubID = data.clubID)) ∧
      ∀ (a : Nat) info, w.manager.admins[a]? = some info → admins.count a ≤ 1 ∧
        (a ∈ admins ↔ ∃ m ∈ w.manager.memberships rid, m.agentID = info.agentID) := by
    intro clubs admins ok hvisit
    rw [hvisit] at hcounted
    constructor
    · intro c data hdata
      have hof := (Presence.of_enter_iff (hi.counted.clubs c data hdata) (fun h => hnot h.1)
        (fun x hx => ?_) fd _).mp (hcounted.clubs c data hdata)
      · rw [List.count_pos_iff] at hof
        refine ⟨hof.1, hof.2.trans ?_⟩
        rw [exists_membership]
        simp [OfClub, Clubmanager.apply]
      · simp [OfClub, Function.update_of_ne hx, Clubmanager.apply]
    · intro a info hinfo
      have hof := (Presence.of_enter_iff (hi.counted.admins a info hinfo) (fun h => hnot h.1)
        (fun x hx => ?_) fd _).mp (hcounted.admins a info hinfo)
      · rw [List.count_pos_iff] at hof
        refine ⟨hof.1, hof.2.trans ?_⟩
        rw [exists_membership]
        simp [OfAgent, Clubmanager.apply]
      · simp [OfAgent, Function.update_of_ne hx, Clubmanager.apply]
  obtain ⟨hfound, hvisit⟩ | ⟨pre, member, post, hsplit, hmissing, -, hvisit⟩ :=
    w.manager.visit_cases (.enter rid fd) _ hi.loaded.club_found
  · obtain ⟨hclubs, hadmins⟩ := hvisited _ _ _ hvisit
    refine ⟨⟨hfound, fun c data h => (hclubs c data h).2, fun a info h => (hadmins a info h).2⟩,
      ?_, ?_⟩
    · refine List.nodup_iff_count_le_one.mpr fun c => ?_
      by_cases hc : c ∈ w.manager.clubsOf (w.manager.memberships rid)
      · obtain ⟨m, -, hm⟩ := List.mem_filterMap.mp hc
        obtain ⟨data, hdata, -⟩ := hi.loaded.clubHash _ c hm
        exact (hclubs c data hdata).1
      · rw [List.count_eq_zero_of_not_mem hc]
        exact Nat.zero_le 1
    · refine List.nodup_iff_count_le_one.mpr fun a => ?_
      by_cases ha : a ∈ w.manager.adminsOf (w.manager.memberships rid)
      · obtain ⟨m, -, hm⟩ := List.mem_filterMap.mp ha
        obtain ⟨info, hinfo⟩ := hi.loaded.adminHash _ a hm
        exact (hadmins a info hinfo).1
      · rw [List.count_eq_zero_of_not_mem ha]
        exact Nat.zero_le 1
  · exact (hi.loaded.agents_short hsplit hmissing fun a info h =>
      ((hvisited _ _ _ hvisit).2 a info h).2).elim

theorem Inv.not_counted (hi : w.Inv) {call : Call ι} (h : ¬ w.Fits call) :
    ¬ (w.call call).1.Counted := by
  intro hcounted
  apply h
  cases call with
  | online rid fd =>
    intro hsome
    have hpresent : w.present rid ≠ true := fun hp => hi.online_again fd hsome hp hcounted
    exact ⟨Bool.eq_false_iff.mpr hpresent, hi.online_placed hpresent hcounted⟩
  | offline rid =>
    intro hsome
    by_contra hpresent
    exact hi.offline_again hsome hpresent hcounted

/-- Those who are online are counted right after each of the calls if and only if everybody who has
memberships and goes online was offline and is placed, and whoever goes offline was online. -/
theorem presence_counted_iff (parts : List (Clubmanager.Part ι))
    (hload : Clubmanager.load parts = some s) (calls : List (Call ι)) :
    (∀ pre, pre <+: calls → (Lib.after call (start s) pre).Counted) ↔
      Lib.Along call Fits (start s) calls :=
  Lib.along_iff (I := fun _ => Inv) (G := fun _ => Counted)
    (Inv.start (Clubmanager.load_loaded hload)) (fun _ _ _ hi h => hi.call h)
    (fun _ _ hi => hi.counted) (fun _ _ _ hi h => hi.not_counted h) calls

/-- A club whose only agent has the number of the club. -/
theorem presence_counted_iff_five : ∃ s, Clubmanager.load
      [.clubInfo [5], .adminsInfo [⟨5, 5⟩], .membersInfo [(⟨1, 5, 5⟩ : MemberInfo Nat)]] = some s ∧
    ((∀ pre, pre <+: [.online 1 3, .offline 1] → (Lib.after call (start s) pre).Counted) ↔
      Lib.Along call Fits (start s) [.online 1 3, .offline 1]) :=
  ⟨_, rfl,
    presence_counted_iff [.clubInfo [5], .adminsInfo [⟨5, 5⟩], .membersInfo [⟨1, 5, 5⟩]] rfl _⟩

/-- The agent 9 of the club 5 is looked up in vain, after its club has counted the member. -/
theorem agent_not_found : ∃ s, Clubmanager.load
      [.clubInfo [5], .adminsInfo [⟨9, 5⟩], .membersInfo [(⟨1, 9, 5⟩ : MemberInfo Nat)]] = some s ∧
    (s.online 1 3).2 = false ∧ ((s.online 1 3).1.clubOnline 0).onlineNumber = 1 ∧
    ((s.online 1 3).1.adminOnline 0).onlineNumber = 0 ∧
    ¬ ∀ pre, pre <+: [.online 1 3] → (Lib.after call (start s) pre).Counted := by
  refine ⟨_, rfl, rfl, rfl, rfl, fun h => ?_⟩
  obtain ⟨keys, hkeys, -, hnumber⟩ := (h _ (List.prefix_refl _)).admins 0 _ rfl
  have hmem : 1 ∈ keys := (hkeys 1).mpr ⟨rfl, _, List.mem_singleton_self _, rfl, rfl⟩
  have hzero : (0 : Int) = keys.card := hnumber
  have hpos := Finset.card_pos.mpr ⟨1, hmem⟩
  omega

end Reported

end XsServer.Club
