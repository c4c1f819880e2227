import XsServer.Club.Online

/-! Logins and closed connections, and what the gate, the login service and the clubs tell one
another about them: `gatemanager.lua`, `loginmanager.lua` and `clubmanager.lua`. -/

namespace XsServer.Gate

open Club

variable {ι : Type*}

/-- What the gate tells the login service, and then the clubs. -/
inductive Notice (ι : Type*)
  | online (rid : ι) (fd : Nat)
  | offline (rid : ι)
  deriving DecidableEq

/-- A message of a client, with the user that the database finds for it, or a call of the gate. -/
inductive LoginMessage (ι : Type*)
  | message (fd : Nat) (login : Option ι)
  | notice (n : Notice ι)
  deriving DecidableEq

/-- A message of the login service, or an answer: `done` ends the call, and `loginDone` does not. -/
inductive GateMessage (ι : Type*)
  | loginSuccessfully (fd : Nat) (rid : ι)
  | loginDone (n : Notice ι)
  | done (n : Notice ι)
  deriving DecidableEq

/-! ### The login service -/

/-- `loginmanager`: whose login is kept for a connection, and `online` of the login of a user. -/
structure Loginmanager (ι : Type*) where
  sockets : Nat → Option ι
  clients : ι → Option (Option Bool)

namespace Loginmanager

def repeatLogin (l : Loginmanager ι) (fd : Nat) : Bool := (l.sockets fd).isSome

variable [DecidableEq ι]

/-- The login that is kept has no `online` yet.  There is no `later` here: `repeatLogin` has looked
for it. -/
def loginSuccessfully (l : Loginmanager ι) (fd : Nat) (rid : ι) : Loginmanager ι :=
  ⟨Function.update l.sockets fd (some rid), Function.update l.clients rid (some none)⟩

/-- `touristsLogin`, `phoneLogin` and `wechatLogin`, and what is sent to the gate -/
def login (l : Loginmanager ι) (fd : Nat) (login : Option ι) :
    Loginmanager ι × Option (GateMessage ι) :=
  if l.repeatLogin fd then (l, none)
  else
    match login with
    | none => (l, none)
    | some rid => (l.loginSuccessfully fd rid, some (.loginSuccessfully fd rid))

/-- `online` and `offline`; `none` is an error. -/
def setOnline (l : Loginmanager ι) (rid : ι) (online : Bool) : Option (Loginmanager ι) :=
  match l.clients rid with
  | none => none
  | some _ => some { l with clients := Function.update l.clients rid (some (some online)) }

def tell (l : Loginmanager ι) : Notice ι → Option (Loginmanager ι)
  | .online rid _ => l.setOnline rid true
  | .offline rid => l.setOnline rid false

/-- A message is handled; an error ends the call of the gate. -/
def handle (l : Loginmanager ι) : LoginMessage ι → Loginmanager ι × Option (GateMessage ι)
  | .message fd login => l.login fd login
  | .notice n =>
    match l.tell n with
    | none => (l, some (.done n))
    | some l => (l, some (.loginDone n))

end Loginmanager

def tellClubs [DecidableEq ι] (s : Clubmanager ι) : Notice ι → Clubmanager ι
  | .online rid fd => (s.online rid fd).1
  | .offline rid => (s.offline rid).1

/-! ### The services -/

/-- The connections of the gate, its `_clientLis`, the logins that wait for `cs` and whether it is
held, the messages of each service, the login service and the clubs. -/
structure Services (ι : Type*) where
  connected : Nat → Bool
  clientLis : Nat → Option ι
  waiting : List (Nat × ι)
  busy : Bool
  gateBox : List (GateMessage ι)
  loginBox : List (LoginMessage ι)
  clubBox : List (Notice ι)
  login : Loginmanager ι
  clubs : Clubmanager ι

/-- What happens to a connection, or a service takes its next message. -/
inductive Happening (ι : Type*)
  | connect (fd : Nat)
  | message (fd : Nat) (login : Option ι)
  | close (fd : Nat)
  | takeGate
  | takeLogin
  | takeClubs

namespace Services

def start (clubs : Clubmanager ι) : Services ι :=
  ⟨fun _ => false, fun _ => none, [], false, [], [], [], ⟨fun _ => none, fun _ => none⟩, clubs⟩

/-- `loginSuccessfully` and `online`, up to the call of the login service. -/
def loginSuccessfully (s : Services ι) (fd : Nat) (rid : ι) : Services ι :=
  { s with
    clientLis := Function.update s.clientLis fd (some rid)
    loginBox := s.loginBox ++ [.notice (.online rid fd)]
    busy := true }

/-- `offline`, up to the call of the login service. -/
def offline (s : Services ι) (fd : Nat) : Services ι :=
  match s.clientLis fd with
  | none => s
  | some rid => { s with
      clientLis := Function.update s.clientLis fd none
      loginBox := s.loginBox ++ [.notice (.offline rid)] }

def close (s : Services ι) (fd : Nat) : Services ι :=
  { s with connected := Function.update s.connected fd false }.offline fd

/-- A login waits while `cs` is held; a close does not. -/
def takeGate (s : Services ι) : Services ι :=
  match s.gateBox with
  | [] => s
  | .loginSuccessfully fd rid :: gateBox =>
    if s.busy then { s with gateBox, waiting := s.waiting ++ [(fd, rid)] }
    else { s with gateBox }.loginSuccessfully fd rid
  | .loginDone n :: gateBox => { s with gateBox, clubBox := s.clubBox ++ [n] }
  | .done (.online ..) :: gateBox =>
    match s.waiting with
    | [] => { s with gateBox, busy := false }
    | (fd, rid) :: waiting => { s with gateBox, waiting }.loginSuccessfully fd rid
  | .done (.offline _) :: gateBox => { s with gateBox }

variable [DecidableEq ι]

def takeLogin (s : Services ι) : Services ι :=
  match s.loginBox with
  | [] => s
  | m :: loginBox => { s with
      loginBox
      login := (s.login.handle m).1
      gateBox := s.gateBox ++ (s.login.handle m).2.toList }

/-- An error of the clubs is an answer too. -/
def takeClubs (s : Services ι) : Services ι :=
  match s.clubBox with
  | [] => s
  | n :: clubBox => { s with
      clubBox
      clubs := tellClubs s.clubs n
      gateBox := s.gateBox ++ [.done n] }

def happen (s : Services ι) : Happening ι → Services ι × Unit
  | .connect fd => ({ s with connected := Function.update s.connected fd true }, ())
  | .message fd login => ({ s with loginBox := s.loginBox ++ [.message fd login] }, ())
  | .close fd => (s.close fd, ())
  | .takeGate => (s.takeGate, ())
  | .takeLogin => (s.takeLogin, ())
  | .takeClubs => (s.takeClubs, ())

end Services

namespace Services

def Quiet (s : Services ι) : Prop :=
  s.gateBox = [] ∧ s.loginBox = [] ∧ s.clubBox = [] ∧ s.waiting = []

def Logged (s : Services ι) (fd : Nat) (rid : ι) : Prop :=
  s.connected fd = true ∧ s.clientLis fd = some rid

end Services

/-- The keys are the members that are logged in, each with one of its connections. -/
def Follows (p : Presence ι) (isMember : ι → Prop) (logged : Nat → ι → Prop) : Prop :=
  ∀ rid, ((p.onlineMapping rid).isSome ↔ isMember rid ∧ ∃ fd, logged fd rid) ∧
    ∀ fd, p.onlineMapping rid = some fd → logged fd rid

structure Shown (s : Clubmanager ι) (logged : Nat → ι → Prop) : Prop where
  clubs : ∀ (c : Nat) data, s.clubs[c]? = some data → Follows (s.clubOnline c)
    (fun rid => ∃ m ∈ s.members, m.rid = rid ∧ m.clubID = data.clubID) logged
  admins : ∀ (a : Nat) info, s.admins[a]? = some info → Follows (s.adminOnline a)
    (fun rid => ∃ m ∈ s.members, m.rid = rid ∧ m.agentID = info.agentID) logged

structure Services.Agree (s : Services ι) : Prop where
  login : ∀ rid, s.login.clients rid = some (some true) ↔ ∃ fd, s.Logged fd rid
  clubs : Shown s.clubs s.Logged

end XsServer.Gate
