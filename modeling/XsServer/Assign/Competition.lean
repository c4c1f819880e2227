import XsServer.Lib.Run
import Mathlib.Data.List.Nodup

/-! The tables of `assignSuper.lua`, with the numbers that `service_sole.lua` gives them. -/

namespace XsServer.Assign

/-- `service_sole`: the numbers that came back and the first one that nobody has had. -/
structure Sole where
  autoID : Nat
  idlels : List Nat

namespace Sole

/-- `next` of a table may be any of its keys: `pick` says which. -/
def getcompetitionID (sole : Sole) (pick : Nat) : Nat × Sole :=
  match sole.idlels[pick % sole.idlels.length]? with
  | none => (sole.autoID, { sole with autoID := sole.autoID + 1 })
  | some idleID => (idleID, { sole with idlels := sole.idlels.erase idleID })

def setcompetitionID (sole : Sole) (ID : Nat) : Sole :=
  { sole with idlels := ID :: sole.idlels.erase ID }

end Sole

/-- `competitionManagerData` -/
structure Manager where
  count : Int
  idler : Int
  deriving DecidableEq

/-- An `assignSuper`, with the classes of the games in `gameInfos`. -/
structure AssignSuper (κ : Type*) where
  gameInfos : Nat → Option κ
  assignClass : κ
  competitionServices : Nat → Option Nat
  competitionGameIdens : Nat → Option Nat
  competitionMangerLis : Nat → Option Manager

namespace AssignSuper

variable {κ : Type*}

def new (gameInfos : Nat → Option κ) (assignClass : κ) : AssignSuper κ :=
  ⟨gameInfos, assignClass, fun _ => none, fun _ => none, fun _ => none⟩

/-- The record of a game; there is none before its first table. -/
def manger (a : AssignSuper κ) (gameID : Nat) : Manager :=
  (a.competitionMangerLis gameID).getD ⟨0, 0⟩

def setManger (a : AssignSuper κ) (gameID : Nat) (mangerData : Manager) : AssignSuper κ :=
  { a with competitionMangerLis :=
      Function.update a.competitionMangerLis gameID (some mangerData) }

/-- `createCompetition` of a game of this class; `service` is the handle of the new service. -/
def insert (a : AssignSuper κ) (gameID competitionID service : Nat) : AssignSuper κ :=
  { a with
    competitionServices := Function.update a.competitionServices competitionID (some service)
    competitionGameIdens := Function.update a.competitionGameIdens competitionID (some gameID)
    }.setManger gameID ⟨(a.manger gameID).count + 1, (a.manger gameID).idler + 1⟩

variable [DecidableEq κ]

/-- A game that is unknown or of another class has no table made; else the number of the table. -/
def createCompetition (a : AssignSuper κ) (sole : Sole) (gameID service pick : Nat) :
    Option Nat × AssignSuper κ × Sole :=
  match a.gameInfos gameID with
  | none => (none, a, sole)
  | some assignClass =>
    if a.assignClass ≠ assignClass then (none, a, sole)
    else
      let (competitionID, sole) := sole.getcompetitionID pick
      (some competitionID, a.insert gameID competitionID service, sole)

omit [DecidableEq κ]

/-- It asks for a number instead of giving one back, and takes the service for the game.  `false` is
an error: there is no record to count in. -/
def deleteCompetition (a : AssignSuper κ) (sole : Sole) (competitionID pick : Nat) :
    Bool × AssignSuper κ × Sole :=
  let sole := (sole.getcompetitionID pick).2
  let gameID := a.competitionServices competitionID
  let a := { a with
    competitionServices := Function.update a.competitionServices competitionID none
    competitionGameIdens := Function.update a.competitionGameIdens competitionID none }
  match gameID with
  | none => (false, a, sole)
  | some gameID =>
    match a.competitionMangerLis gameID with
    | none => (false, a, sole)
    | some mangerData =>
      (true, a.setManger gameID { mangerData with count := mangerData.count - 1 }, sole)

/-- `idlerCompetition` and `workCompetition`, which take the service for the game too -/
def changeIdler (a : AssignSuper κ) (competitionID : Nat) (change : Int) : Bool × AssignSuper κ :=
  match a.competitionServices competitionID with
  | none => (false, a)
  | some gameID =>
    match a.competitionMangerLis gameID with
    | none => (false, a)
    | some mangerData =>
      (true, a.setManger gameID { mangerData with idler := mangerData.idler + change })

def idlerCompetition (a : AssignSuper κ) (competitionID : Nat) : Bool × AssignSuper κ :=
  a.changeIdler competitionID 1

def workCompetition (a : AssignSuper κ) (competitionID : Nat) : Bool × AssignSuper κ :=
  a.changeIdler competitionID (-1)

end AssignSuper

/-- A table as the calls say: it is idle at first and after `idlerCompetition`. -/
structure Live where
  competitionID : Nat
  gameID : Nat
  service : Nat
  idle : Bool
  deriving DecidableEq

/-- The two services; the tables that live, the numbers that other services have, and whether a
call has failed. -/
structure World (κ : Type*) where
  sole : Sole
  assign : AssignSuper κ
  live : List Live
  others : List Nat
  raised : Bool

/-- A call of a living table, or of `service_sole` by another service. -/
inductive Call
  | createCompetition (gameID service pick : Nat)
  | deleteCompetition (competitionID pick : Nat)
  | idlerCompetition (competitionID : Nat)
  | workCompetition (competitionID : Nat)
  | getcompetitionID (pick : Nat)
  | setcompetitionID (ID : Nat)

namespace World

variable {κ : Type*}

def new (gameInfos : Nat → Option κ) (assignClass : κ) : World κ :=
  ⟨⟨1, []⟩, .new gameInfos assignClass, [], [], false⟩

def find (w : World κ) (competitionID : Nat) : Option Live :=
  w.live.find? fun c => c.competitionID = competitionID

def setIdle (w : World κ) (c : Live) (idle : Bool) (result : Bool × AssignSuper κ) : World κ :=
  { w with
    assign := result.2
    live := { c with idle } :: w.live.erase c
    raised := w.raised || !result.1 }

variable [DecidableEq κ]

/-- Nothing comes of a call of a table that does not live, or of a number that nobody has. -/
def call (w : World κ) : Call → World κ × Unit
  | .createCompetition gameID service pick =>
    match w.assign.createCompetition w.sole gameID service pick with
    | (none, assign, sole) => ({ w with assign, sole }, ())
    | (some competitionID, assign, sole) =>
      ({ w with assign, sole, live := ⟨competitionID, gameID, service, true⟩ :: w.live }, ())
  | .deleteCompetition competitionID pick =>
    match w.find competitionID with
    | none => (w, ())
    | some c =>
      let (ok, assign, sole) := w.assign.deleteCompetition w.sole competitionID pick
      ({ w with assign, sole, live := w.live.erase c, raised := w.raised || !ok }, ())
  | .idlerCompetition competitionID =>
    match w.find competitionID with
    | none => (w, ())
    | some c => (w.setIdle c true (w.assign.idlerCompetition competitionID), ())
  | .workCompetition competitionID =>
    match w.find competitionID with
    | none => (w, ())
    | some c => (w.setIdle c false (w.assign.workCompetition competitionID), ())
  | .getcompetitionID pick =>
    let (ID, sole) := w.sole.getcompetitionID pick
    ({ w with sole, others := ID :: w.others }, ())
  | .setcompetitionID ID =>
    if ID ∈ w.others then
      ({ w with sole := w.sole.setcompetitionID ID, others := w.others.erase ID }, ())
    else (w, ())

omit [DecidableEq κ]

/-- How many tables of a game live, and how many of them are idle. -/
def tables (live : List Live) (gameID : Nat) : Nat := live.countP fun c => c.gameID = gameID

def idlers (live : List Live) (gameID : Nat) : Nat :=
  live.countP fun c => c.gameID = gameID ∧ c.idle = true

def Shows (live : List Live) (field : Live → Nat) (map : Nat → Option Nat) : Prop :=
  ∀ competitionID value, map competitionID = some value ↔
    ∃ c ∈ live, c.competitionID = competitionID ∧ field c = value

structure Accounted (w : World κ) : Prop where
  distinct : (w.live.map Live.competitionID).Nodup
  services : Shows w.live Live.service w.assign.competitionServices
  gameIdens : Shows w.live Live.gameID w.assign.competitionGameIdens
  count : ∀ gameID, (w.assign.manger gameID).count = tables w.live gameID
  idler : ∀ gameID, (w.assign.manger gameID).idler = idlers w.live gameID
  bounded : ∀ gameID, 0 ≤ (w.assign.manger gameID).idler ∧
    (w.assign.manger gameID).idler ≤ (w.assign.manger gameID).count
  raised : w.raised = false

/-- The service of the table has the number of the game for its handle, and the table was idle or
was not. -/
def Fits (w : World κ) (competitionID : Nat) (idle : Bool) : Prop :=
  ∀ c ∈ w.live, c.competitionID = competitionID → c.service = c.gameID ∧ c.idle = idle

def Sound (w : World κ) : Call → Prop
  | .createCompetition .. => True
  | .deleteCompetition competitionID _ => w.Fits competitionID false
  | .idlerCompetition competitionID => w.Fits competitionID false
  | .workCompetition competitionID => w.Fits competitionID true
  | .getcompetitionID _ => True
  | .setcompetitionID _ => True

/-! ### The invariant -/

end World

/-- The numbers in use and those that came back are all different, and have all been given. -/
structure Sole.Inv (sole : Sole) (used : List Nat) : Prop where
  nodup : (used ++ sole.idlels).Nodup
  given : ∀ ID ∈ used ++ sole.idlels, ID < sole.autoID

namespace Sole.Inv

variable {sole : Sole} {used : List Nat}

theorem getcompetitionID (hi : sole.Inv used) (pick : Nat) :
    (sole.getcompetitionID pick).2.Inv ((sole.getcompetitionID pick).1 :: used) := by
  unfold Sole.getcompetitionID
  split
  case h_1 =>
    constructor
    · refine List.nodup_cons.mpr ⟨fun hmem => ?_, hi.nodup⟩
      exact Nat.lt_irrefl _ (hi.given _ hmem)
    · intro ID hID
      obtain rfl | hID := List.mem_cons.mp hID
      · exact Nat.lt_succ_self _
      · exact Nat.lt_succ_of_lt (hi.given ID hID)
  case h_2 idleID hidle =>
    have hmem := List.mem_of_getElem? hidle
    have hperm : (used ++ sole.idlels).Perm (idleID :: used ++ sole.idlels.erase idleID) :=
      ((List.perm_cons_erase hmem).append_left used).trans List.perm_middle
    exact ⟨hperm.nodup_iff.mp hi.nodup, fun ID hID => hi.given ID (hperm.mem_iff.mpr hID)⟩

theorem setcompetitionID (hi : sole.Inv used) {ID : Nat} {rest : List Nat}
    (h : used.Perm (ID :: rest)) : (sole.setcompetitionID ID).Inv rest := by
  have hnot : ID ∉ sole.idlels := fun hmem =>
    (List.disjoint_of_nodup_append hi.nodup) (h.mem_iff.mpr List.mem_cons_self) hmem
  have hperm : (used ++ sole.idlels).Perm (rest ++ ID :: sole.idlels) :=
    (h.append_right _).trans List.perm_middle.symm
  rw [Sole.setcompetitionID, List.erase_of_not_mem hnot]
  exact ⟨hperm.nodup_iff.mp hi.nodup, fun ID hID => hi.given ID (hperm.mem_iff.mpr hID)⟩

theorem perm (hi : sole.Inv used) {used' : List Nat} (h : used.Perm used') : sole.Inv used' :=
  have hperm := h.append_right sole.idlels
  ⟨hperm.nodup_iff.mp hi.nodup, fun ID hID => hi.given ID (hperm.mem_iff.mpr hID)⟩

theorem sublist (hi : sole.Inv used) {rest : List Nat} (h : rest.Sublist used) : sole.Inv rest :=
  have hsub := h.append_right sole.idlels
  ⟨hi.nodup.sublist hsub, fun ID hID => hi.given ID (hsub.subset hID)⟩

end Sole.Inv

namespace World

variable {κ : Type*}

structure Inv (w : World κ) : Prop where
  sole : w.sole.Inv (w.live.map Live.competitionID ++ w.others)
  services : Shows w.live Live.service w.assign.competitionServices
  gameIdens : Shows w.live Live.gameID w.assign.competitionGameIdens
  count : ∀ gameID, (w.assign.manger gameID).count = tables w.live gameID
  idler : ∀ gameID, (w.assign.manger gameID).idler = idlers w.live gameID
  raised : w.raised = false

theorem Inv.distinct {w : World κ} (hi : w.Inv) : (w.live.map Live.competitionID).Nodup :=
  (hi.sole.nodup.of_append_left).of_append_left

theorem idlers_le (live : List Live) (gameID : Nat) : idlers live gameID ≤ tables live gameID :=
  List.countP_mono_left fun c _ h => by simp_all

theorem Inv.accounted {w : World κ} (hi : w.Inv) : w.Accounted where
  distinct := hi.distinct
  services := hi.services
  gameIdens := hi.gameIdens
  count := hi.count
  idler := hi.idler
  bounded gameID := by
    have hle := idlers_le w.live gameID
    rw [hi.count, hi.idler]
    omega
  raised := hi.raised

theorem Inv.new (gameInfos : Nat → Option κ) (assignClass : κ) :
    (new gameInfos assignClass).Inv where
  sole := ⟨.nil, by simp [World.new]⟩
  services := by simp [Shows, World.new, AssignSuper.new]
  gameIdens := by simp [Shows, World.new, AssignSuper.new]
  count _ := rfl
  idler _ := rfl
  raised := rfl

section Shows

variable {live : List Live} {field : Live → Nat} {map : Nat → Option Nat} {c : Live}

theorem Shows.insert (h : Shows live field map)
    (hnew : c.competitionID ∉ live.map Live.competitionID) :
    Shows (c :: live) field (Function.update map c.competitionID (some (field c))) := by
  intro competitionID value
  rw [Function.update_apply]
  split
  case isTrue heq =>
    subst heq
    simp only [Option.some.injEq, List.exists_mem_cons_iff, true_and]
    refine ⟨.inl, fun h => h.resolve_right ?_⟩
    rintro ⟨c', hc', hid, -⟩
    exact hnew (List.mem_map.mpr ⟨c', hc', hid⟩)
  case isFalse hne => simp [h competitionID value, Ne.symm hne]

theorem Shows.delete (h : Shows (c :: live) field map)
    (hdistinct : ((c :: live).map Live.competitionID).Nodup) :
    Shows live field (Function.update map c.competitionID none) := by
  intro competitionID value
  rw [Function.update_apply]
  split
  case isTrue heq =>
    subst heq
    simp only [reduceCtorEq, false_iff]
    rintro ⟨c', hc', hid, -⟩
    exact (List.nodup_cons.mp hdistinct).1 (List.mem_map.mpr ⟨c', hc', hid⟩)
  case isFalse hne => simp [h competitionID value, Ne.symm hne]

theorem Shows.perm (h : Shows live field map) {live' : List Live} (hperm : live.Perm live') :
    Shows live' field map := fun competitionID value => by
  simp only [h competitionID value, hperm.mem_iff]

theorem Shows.setIdle (h : Shows (c :: live) field map) {idle : Bool}
    (hfield : field { c with idle } = field c) : Shows ({ c with idle } :: live) field map := by
  intro competitionID value
  rw [h competitionID value]
  simp [hfield]

end Shows

variable {w : World κ}

theorem Inv.first (hi : w.Inv) {c : Live} (hc : c ∈ w.live) :
    Inv { w with live := c :: w.live.erase c } := by
  have hperm := List.perm_cons_erase hc
  constructor
  · exact hi.sole.perm ((hperm.map Live.competitionID).append_right w.others)
  · exact hi.services.perm hperm
  · exact hi.gameIdens.perm hperm
  · exact fun gameID => (hi.count gameID).trans (by rw [tables, hperm.countP_eq]; rfl)
  · exact fun gameID => (hi.idler gameID).trans (by rw [idlers, hperm.countP_eq]; rfl)
  · exact hi.raised

theorem mem_of_find {competitionID : Nat} {c : Live} (h : w.find competitionID = some c) :
    c ∈ w.live ∧ c.competitionID = competitionID :=
  ⟨List.mem_of_find?_eq_some h, by simpa using List.find?_some h⟩

theorem Inv.find_eq (hi : w.Inv) {c : Live} (hc : c ∈ w.live) :
    w.find c.competitionID = some c := by
  cases hfind : w.find c.competitionID with
  | none => exact absurd (List.find?_eq_none.mp hfind c hc) (by simp)
  | some c' =>
    obtain ⟨hc', hid⟩ := mem_of_find hfind
    rw [List.inj_on_of_nodup_map hi.distinct hc' hc hid]

theorem Inv.service (hi : w.Inv) {c : Live} (hc : c ∈ w.live) :
    w.assign.competitionServices c.competitionID = some c.service :=
  (hi.services _ _).mpr ⟨c, hc, rfl, rfl⟩

theorem Inv.record (hi : w.Inv) {c : Live} (hc : c ∈ w.live) :
    ∃ mangerData, w.assign.competitionMangerLis c.gameID = some mangerData := by
  have hcount := hi.count c.gameID
  have hpos : 0 < tables w.live c.gameID := List.countP_pos_iff.mpr ⟨c, hc, by simp⟩
  cases hlis : w.assign.competitionMangerLis c.gameID with
  | some mangerData => exact ⟨mangerData, rfl⟩
  | none =>
    rw [AssignSuper.manger, hlis] at hcount
    simp only [Option.getD_none] at hcount
    omega

/-! ### The calls -/

@[simp] theorem manger_setManger (a : AssignSuper κ) (gameID gameID' : Nat) (mangerData : Manager) :
    (a.setManger gameID mangerData).manger gameID' =
      if gameID' = gameID then mangerData else a.manger gameID' := by
  simp only [AssignSuper.manger, AssignSuper.setManger, Function.update_apply]
  split <;> rfl

@[simp] theorem manger_maps (a : AssignSuper κ) (services gameIdens : Nat → Option Nat)
    (gameID : Nat) : AssignSuper.manger { a with
      competitionServices := services, competitionGameIdens := gameIdens } gameID =
    a.manger gameID := rfl

theorem manger_eq {a : AssignSuper κ} {gameID : Nat} {mangerData : Manager}
    (h : a.competitionMangerLis gameID = some mangerData) : a.manger gameID = mangerData := by
  rw [AssignSuper.manger, h]
  rfl

theorem tables_cons (c : Live) (live : List Live) (gameID : Nat) :
    tables (c :: live) gameID = tables live gameID + if gameID = c.gameID then 1 else 0 := by
  simp only [tables, List.countP_cons, decide_eq_true_eq, eq_comm (a := gameID)]

theorem idlers_cons (c : Live) (live : List Live) (gameID : Nat) :
    idlers (c :: live) gameID =
      idlers live gameID + if gameID = c.gameID ∧ c.idle = true then 1 else 0 := by
  simp only [idlers, List.countP_cons, decide_eq_true_eq, eq_comm (a := c.gameID)]

theorem Inv.insert (hi : w.Inv) (gameID service pick : Nat) :
    Inv { w with
      assign := w.assign.insert gameID (w.sole.getcompetitionID pick).1 service
      sole := (w.sole.getcompetitionID pick).2
      live := ⟨(w.sole.getcompetitionID pick).1, gameID, service, true⟩ :: w.live } := by
  have hsole := hi.sole.getcompetitionID pick
  have hnew : (w.sole.getcompetitionID pick).1 ∉ w.live.map Live.competitionID := fun hmem =>
    (List.nodup_cons.mp hsole.nodup.of_append_left).1 (List.mem_append_left _ hmem)
  constructor
  · exact hsole
  · exact hi.services.insert (c := ⟨_, gameID, service, true⟩) hnew
  · exact hi.gameIdens.insert (c := ⟨_, gameID, service, true⟩) hnew
  · intro gameID'
    rw [AssignSuper.insert, manger_setManger, tables_cons]
    split
    case isTrue heq => simp [heq, hi.count]
    case isFalse => simpa using hi.count gameID'
  · intro gameID'
    rw [AssignSuper.insert, manger_setManger, idlers_cons]
    split
    case isTrue heq => simp [heq, hi.idler]
    case isFalse hne => simpa [hne] using hi.idler gameID'
  · exact hi.raised

theorem Inv.deleteCompetition_eq (hi : w.Inv) {c : Live} (hc : c ∈ w.live) (pick : Nat) :
    w.assign.deleteCompetition w.sole c.competitionID pick =
      let a := { w.assign with
        competitionServices :=
          Function.update w.assign.competitionServices c.competitionID none
        competitionGameIdens :=
          Function.update w.assign.competitionGameIdens c.competitionID none }
      match w.assign.competitionMangerLis c.service with
      | none => (false, a, (w.sole.getcompetitionID pick).2)
      | some mangerData =>
        (true, a.setManger c.service { mangerData with count := mangerData.count - 1 },
          (w.sole.getcompetitionID pick).2) := by
  rw [AssignSuper.deleteCompetition, hi.service hc]

theorem Inv.changeIdler_eq (hi : w.Inv) {c : Live} (hc : c ∈ w.live) (change : Int) :
    w.assign.changeIdler c.competitionID change =
      match w.assign.competitionMangerLis c.service with
      | none => (false, w.assign)
      | some mangerData =>
        (true, w.assign.setManger c.service
          { mangerData with idler := mangerData.idler + change }) := by
  rw [AssignSuper.changeIdler, hi.service hc]

theorem Inv.delete (hi : w.Inv) {c : Live} (hc : c ∈ w.live) (pick : Nat)
    (hservice : c.service = c.gameID) (hidle : c.idle = false) :
    let result := w.assign.deleteCompetition w.sole c.competitionID pick
    Inv { w with
      assign := result.2.1
      sole := result.2.2
      live := w.live.erase c
      raised := w.raised || !result.1 } := by
  obtain ⟨mangerData, hlis⟩ := hi.record hc
  have hmanger := manger_eq hlis
  have hfirst := hi.first hc
  rw [hi.deleteCompetition_eq hc, hservice, hlis]
  constructor
  · have hsole := (hfirst.sole.getcompetitionID pick).sublist (List.sublist_cons_self _ _)
    exact hsole.sublist (List.sublist_cons_self _ _)
  · exact hfirst.services.delete hfirst.distinct
  · exact hfirst.gameIdens.delete hfirst.distinct
  · intro gameID
    have hcount := hfirst.count gameID
    simp only [tables_cons] at hcount
    simp only [manger_setManger]
    split
    case isTrue heq =>
      rw [heq, hmanger, if_pos rfl] at hcount
      rw [heq]
      simp only
      omega
    case isFalse hne => simpa [hne] using hcount
  · intro gameID
    have hidler := hfirst.idler gameID
    simp only [idlers_cons, hidle] at hidler
    simp only [manger_setManger]
    split
    case isTrue heq =>
      rw [heq, hmanger] at hidler
      simpa [heq] using hidler
    case isFalse hne => simpa using hidler
  · simp [hi.raised]

theorem Inv.setIdle (hi : w.Inv) {c : Live} (hc : c ∈ w.live) (idle : Bool) (change : Int)
    (hservice : c.service = c.gameID)
    (hchange : change = (if idle = true then 1 else 0) - if c.idle = true then 1 else 0) :
    (w.setIdle c idle (w.assign.changeIdler c.competitionID change)).Inv := by
  obtain ⟨mangerData, hlis⟩ := hi.record hc
  have hmanger := manger_eq hlis
  have hfirst := hi.first hc
  rw [hi.changeIdler_eq hc, hservice, hlis, World.setIdle]
  constructor
  · exact hfirst.sole
  · exact hfirst.services.setIdle rfl
  · exact hfirst.gameIdens.setIdle rfl
  · intro gameID
    have hcount := hfirst.count gameID
    simp only [tables_cons, manger_setManger] at hcount ⊢
    split
    case isTrue heq =>
      rw [heq, hmanger] at hcount
      simpa [heq] using hcount
    case isFalse hne => simpa [hne] using hcount
  · intro gameID
    have hidler := hfirst.idler gameID
    simp only [idlers_cons, manger_setManger] at hidler ⊢
    split
    case isTrue heq =>
      rw [heq, hmanger] at hidler
      simp only [heq, true_and, hidler, hchange]
      split_ifs <;> omega
    case isFalse hne => simpa [hne] using hidler
  · simp [hi.raised]

variable [DecidableEq κ]

theorem Inv.create (hi : w.Inv) (gameID service pick : Nat) :
    (w.call (.createCompetition gameID service pick)).1.Inv := by
  unfold World.call AssignSuper.createCompetition
  dsimp only
  split
  case h_1 hnone =>
    split at hnone
    · cases hnone
      exact hi
    · split at hnone <;> cases hnone
      exact hi
  case h_2 hsome =>
    split at hsome
    · cases hsome
    · split at hsome <;> cases hsome
      exact hi.insert gameID service pick

theorem Inv.call (hi : w.Inv) {call : Call} (h : w.Sound call) : (w.call call).1.Inv := by
  cases call with
  | createCompetition gameID service pick => exact hi.create gameID service pick
  | deleteCompetition competitionID pick =>
    simp only [World.call]
    split
    case h_1 => exact hi
    case h_2 c hfind =>
      obtain ⟨hc, rfl⟩ := mem_of_find hfind
      obtain ⟨hservice, hidle⟩ := h c hc rfl
      exact hi.delete hc pick hservice hidle
  | idlerCompetition competitionID =>
    simp only [World.call]
    split
    case h_1 => exact hi
    case h_2 c hfind =>
      obtain ⟨hc, rfl⟩ := mem_of_find hfind
      obtain ⟨hservice, hidle⟩ := h c hc rfl
      exact hi.setIdle hc true 1 hservice (by simp [hidle])
  | workCompetition competitionID =>
    simp only [World.call]
    split
    case h_1 => exact hi
    case h_2 c hfind =>
      obtain ⟨hc, rfl⟩ := mem_of_find hfind
      obtain ⟨hservice, hidle⟩ := h c hc rfl
      exact hi.setIdle hc false (-1) hservice (by simp [hidle])
  | getcompetitionID pick =>
    have hsole := (hi.sole.getcompetitionID pick).perm List.perm_middle.symm
    exact { hi with sole := hsole }
  | setcompetitionID ID =>
    simp only [World.call]
    split
    case isTrue hmem =>
      have hperm := ((List.perm_cons_erase hmem).append_left (w.live.map Live.competitionID)).trans
        List.perm_middle
      exact { hi with sole := hi.sole.setcompetitionID hperm }
    case isFalse => exact hi

theorem Inv.delete_fails (hi : w.Inv) {c : Live} (hc : c ∈ w.live) (pick : Nat)
    (h : (w.call (.deleteCompetition c.competitionID pick)).1.Accounted) :
    c.service = c.gameID ∧ c.idle = false := by
  have hcount := (hi.first hc).count c.service
  have hidler := (hi.first hc).idler c.service
  have hcount' := h.count c.service
  have hidler' := h.idler c.service
  have hraised := h.raised
  simp only [World.call, hi.find_eq hc, hi.deleteCompetition_eq hc] at hcount' hidler' hraised
  cases hlis : w.assign.competitionMangerLis c.service with
  | none => simp [hlis] at hraised
  | some mangerData =>
    simp only [hlis, manger_setManger, if_true] at hcount' hidler'
    simp only [manger_eq hlis, tables_cons, idlers_cons] at hcount hidler
    by_cases hservice : c.service = c.gameID
    · refine ⟨hservice, ?_⟩
      by_contra hidle
      rw [if_pos ⟨hservice, by simpa using hidle⟩] at hidler
      omega
    · rw [if_neg hservice] at hcount
      omega

omit [DecidableEq κ] in
theorem Inv.setIdle_fails (hi : w.Inv) {c : Live} (hc : c ∈ w.live) (idle : Bool) {change : Int}
    (hchange : change = if idle = true then 1 else -1)
    (h : (w.setIdle c idle (w.assign.changeIdler c.competitionID change)).Accounted) :
    c.service = c.gameID ∧ c.idle = !idle := by
  have hidler := (hi.first hc).idler c.service
  have hidler' := h.idler c.service
  have hraised := h.raised
  simp only [World.setIdle, hi.changeIdler_eq hc] at hidler' hraised
  cases hlis : w.assign.competitionMangerLis c.service with
  | none => simp [hlis] at hraised
  | some mangerData =>
    simp only [hlis, manger_setManger, if_true] at hidler'
    simp only [manger_eq hlis, idlers_cons] at hidler hidler'
    by_cases hservice : c.service = c.gameID
    · refine ⟨hservice, ?_⟩
      cases idle <;> cases hidle : c.idle <;> simp [hservice, hidle] at hidler hidler' hchange ⊢ <;>
        omega
    · simp only [hservice, false_and, if_false] at hidler hidler'
      split at hchange <;> omega

theorem Inv.fails (hi : w.Inv) {call : Call} (h : ¬ w.Sound call) :
    ¬ (w.call call).1.Accounted := by
  refine fun haccounted => h ?_
  cases call with
  | createCompetition => trivial
  | deleteCompetition competitionID pick =>
    rintro c hc rfl
    exact hi.delete_fails hc pick haccounted
  | idlerCompetition competitionID =>
    rintro c hc rfl
    simp only [World.call, hi.find_eq hc] at haccounted
    exact hi.setIdle_fails hc true rfl haccounted
  | workCompetition competitionID =>
    rintro c hc rfl
    simp only [World.call, hi.find_eq hc] at haccounted
    exact hi.setIdle_fails hc false rfl haccounted
  | getcompetitionID | setcompetitionID => trivial

/-- The accounts are right after each of the calls if and only if every table that is deleted, or
begins or ceases to be idle, has the number of its game for the handle of its service, and is not
idle before it is deleted or becomes idle, and is before it works. -/
theorem tables_accounted_iff (gameInfos : Nat → Option κ) (assignClass : κ) (calls : List Call) :
    (∀ pre, pre <+: calls → (Lib.after call (new gameInfos assignClass) pre).Accounted) ↔
      Lib.Along call Sound (new gameInfos assignClass) calls :=
  Lib.along_iff (I := fun _ => Inv) (G := fun _ => Accounted) (Inv.new gameInfos assignClass)
    (fun _ _ _ hi h => hi.call h) (fun _ _ hi => hi.accounted) (fun _ _ _ hi h => hi.fails h) calls

/-- A table of game 1 with service 20 begins to work: there is no record of a game 20. -/
theorem work_raises : (Lib.after call (new (fun _ => some ()) ())
      [.createCompetition 1 20 0, .workCompetition 1]).raised = true ∧
    ¬ ∀ pre, pre <+: [.createCompetition 1 20 0, .workCompetition 1] →
      (Lib.after call (new (fun _ => some ()) ()) pre).Accounted := by
  have hraised : (Lib.after call (new (fun _ => some ()) ())
      [.createCompetition 1 20 0, .workCompetition 1]).raised = true := by decide
  refine ⟨hraised, fun h => ?_⟩
  have := (h _ (List.prefix_refl _)).raised
  rw [hraised] at this
  cases this

end World

end XsServer.Assign
