import Mathlib.Data.List.Basic

/-! `service_mgr.lua`: the managers of several nodes, one with the global role, the requests that
they take, and the calls of the others to the global one.  The arguments of a service, `LIST` and
`REPORT` are left out. -/

namespace XsServer.ServiceMgr

abbrev Name := List UInt8

abbrev Handle := Nat

inductive Func
  | newservice (realname : Name) (subname : Option Name)
  | rawnewservice (subname : Name)
  | call (query : Bool) (global_name : Name) (subname : Option Name)
  deriving DecidableEq

/-- What a request gets back: `skynet.pack(r)`, or `skynet.pack(nil, r)` without the position that
Lua adds to a message. -/
inductive Reply
  | value (r : Option Handle)
  | error (r : String)
  deriving DecidableEq

def Reply.handle : Reply → Option Handle
  | .value r => r
  | .error _ => none

/-! ### One manager -/

/-- `service[name]`; a table is the list of coroutines that wait, and who launches. -/
inductive Entry (κ : Type)
  | handle (h : Handle)
  | error (msg : String)
  | waiting (launch : Option κ) (list : List κ)

/-- A coroutine in the `pcall` of `request`. -/
structure Job (κ : Type) where
  name : Name
  requester : κ
  func : Func
  deriving DecidableEq

structure Manager (κ : Type) where
  service : Name → Option (Entry κ)
  running : List (Job κ)

variable {κ : Type}

/-- What a call of `waitfor` leads to at once: a reply, or the start of `func`. -/
structure Waitfor (κ : Type) where
  manager : Manager κ
  reply : Option Reply
  started : Option Func

/-- `waitfor` with the table of the name. -/
def waitforTable (m : Manager κ) (name : Name) (func : Option Func) (r : κ) (launch : Option κ)
    (list : List κ) : Waitfor κ :=
  match launch, func with
  | none, some f =>
    ⟨⟨Function.update m.service name (some (.waiting (some r) list)),
      m.running ++ [⟨name, r, f⟩]⟩, none, some f⟩
  | launch, _ =>
    ⟨{ m with
        service := Function.update m.service name (some (.waiting launch (list ++ [r]))) },
      none, none⟩

def waitfor (m : Manager κ) (name : Name) (func : Option Func) (r : κ) : Waitfor κ :=
  match m.service name with
  | some (.handle h) => ⟨m, some (.value (some h)), none⟩
  | some (.error msg) => ⟨m, some (.error msg), none⟩
  | some (.waiting launch list) => waitforTable m name func r launch list
  | none => waitforTable m name func r none []

def assertionFailed : String := "assertion failed!"

/-- How `waitfor` goes on after its `skynet.wait`. -/
def resumed : Option (Entry κ) → Reply
  | some (.handle h) => .value (some h)
  | some (.error msg) => .error msg
  | _ => .error assertionFailed

/-- What `request` puts in the table after `pcall(func, ...)`. -/
def entryOf : Except String (Option Handle) → Option (Entry κ)
  | .ok h => h.map .handle
  | .error msg => some (.error msg)

def replyOf : Except String (Option Handle) → Reply
  | .ok h => .value h
  | .error msg => .error msg

variable [DecidableEq κ]

/-- `request` from the end of `pcall` on, with the coroutines that it wakes. -/
def request (m : Manager κ) (job : Job κ) (result : Except String (Option Handle)) :
    Manager κ × List (κ × Reply) :=
  let running := m.running.erase job
  match m.service job.name with
  | some (.waiting _ list) =>
    let service := Function.update m.service job.name (entryOf result)
    (⟨service, running⟩, (job.requester, replyOf result) ::
      list.map (·, resumed (service job.name)))
  | _ => ({ m with running }, [(job.requester, .error assertionFailed)])

/-! ### Commands -/

inductive Cmd
  | LAUNCH (service_name : Name) (subname : Option Name)
  | QUERY (service_name : Name) (subname : Option Name)
  | GLAUNCH (name : Name) (subname : Option Name)
  | GQUERY (name : Name) (subname : Option Name)
  deriving DecidableEq

def snaxd : Name := [115, 110, 97, 120, 100]

/-- 64 is the at sign. -/
def read_name : Name → Name
  | 64 :: name => name
  | name => name

/-- The arguments of `waitfor`.  `none` is an error: `snaxd` without a second name. -/
abbrev Call := Option (Name × Option Func)

/-- 46 is the dot. -/
def LAUNCH (service_name : Name) (subname : Option Name) : Call :=
  if read_name service_name = snaxd then
    subname.map fun subname => (service_name ++ 46 :: subname, some (.rawnewservice subname))
  else some (service_name, some (.newservice (read_name service_name) subname))

def QUERY (service_name : Name) (subname : Option Name) : Call :=
  if read_name service_name = snaxd then
    subname.map fun subname => (service_name ++ 46 :: subname, none)
  else some (service_name, none)

def waitfor_remote (query : Bool) (name : Name) (subname : Option Name) : Call :=
  let global_name := 64 :: name
  let local_name :=
    if name = snaxd then subname.map (global_name ++ 46 :: ·) else some global_name
  local_name.map (·, some (.call query global_name subname))

/-- `cmd` after `register_global` and after `register_local`. -/
def Cmd.call (isGlobal : Bool) : Cmd → Call
  | .LAUNCH service_name subname => ServiceMgr.LAUNCH service_name subname
  | .QUERY service_name subname => ServiceMgr.QUERY service_name subname
  | .GLAUNCH name subname =>
    if isGlobal then ServiceMgr.LAUNCH (64 :: name) subname else waitfor_remote false name subname
  | .GQUERY name subname =>
    if isGlobal then ServiceMgr.QUERY (64 :: name) subname else waitfor_remote true name subname

/-! ### All managers -/

/-- Who waits for a reply: a service, or the coroutine of another manager that calls the global
one for an entry of its table. -/
inductive Requester (ι ρ : Type)
  | client (r : ρ)
  | manager (i : ι) (name : Name)
  deriving DecidableEq

/-- A `skynet.call` on its way to the global manager. -/
structure Request (ι : Type) where
  node : ι
  name : Name
  query : Bool
  global_name : Name
  subname : Option Name
  deriving DecidableEq

def Request.cmd {ι : Type} (c : Request ι) : Cmd :=
  if c.query then .QUERY c.global_name c.subname else .LAUNCH c.global_name c.subname

/-- A response on its way to the coroutine that called for an entry of its manager. -/
structure Response (ι : Type) where
  node : ι
  name : Name
  reply : Reply
  deriving DecidableEq

structure State (ι ρ : Type) where
  manager : ι → Manager (Requester ι ρ)
  requests : List (Request ι)
  responses : List (Response ι)

variable {ι ρ : Type}

def State.init : State ι ρ := ⟨fun _ => ⟨fun _ => none, []⟩, [], []⟩

inductive Event (ι ρ : Type)
  /-- A service sends a command. -/
  | command (i : ι) (cmd : Cmd) (r : ρ)
  /-- The global manager takes the command of another one. -/
  | request (c : Request ι)
  | response (a : Response ι)
  /-- The launch of a service ends, or a `skynet.call` fails. -/
  | finish (i : ι) (job : Job (Requester ι ρ)) (result : Except String (Option Handle))

inductive Report (ι ρ : Type)
  | launched (i : ι) (name : Name) (func : Func)
  | replied (i : ι) (name : Name) (r : ρ) (reply : Reply)
  /-- A command without the second name of `snaxd`. -/
  | failed (i : ι) (r : ρ)
  deriving DecidableEq

variable [DecidableEq ι] [DecidableEq ρ]

/-- What the replies of manager `i` become: reports, and responses to other managers. -/
def reportOf (i : ι) (name : Name) : Requester ι ρ × Reply → Option (Report ι ρ)
  | (.client r, reply) => some (.replied i name r reply)
  | (.manager _ _, _) => none

def responseOf : Requester ι ρ × Reply → Option (Response ι)
  | (.client _, _) => none
  | (.manager j name, reply) => some ⟨j, name, reply⟩

/-- What the start of `func` becomes: a launch, or a request to the global manager. -/
def launchOf (i : ι) (name : Name) : Func → Option (Report ι ρ)
  | .call _ _ _ => none
  | func => some (.launched i name func)

def requestOf (i : ι) (name : Name) : Func → Option (Request ι)
  | .call query global_name subname => some ⟨i, name, query, global_name, subname⟩
  | _ => none

/-- Manager `i` has replied to requests for the name, and has started a function for it. -/
def State.settle (s : State ι ρ) (i : ι) (name : Name) (m : Manager (Requester ι ρ))
    (replies : List (Requester ι ρ × Reply)) (started : Option Func) :
    State ι ρ × List (Report ι ρ) :=
  (⟨Function.update s.manager i m,
    s.requests ++ (started.bind (requestOf i name)).toList,
    s.responses ++ replies.filterMap responseOf⟩,
   (started.bind (launchOf i name)).toList ++ replies.filterMap (reportOf i name))

def State.waitfor (s : State ι ρ) (i : ι) (name : Name) (func : Option Func)
    (r : Requester ι ρ) : State ι ρ × List (Report ι ρ) :=
  let w := ServiceMgr.waitfor (s.manager i) name func r
  s.settle i name w.manager (w.reply.toList.map (r, ·)) w.started

def State.finish (s : State ι ρ) (i : ι) (job : Job (Requester ι ρ))
    (result : Except String (Option Handle)) : State ι ρ × List (Report ι ρ) :=
  let (m, replies) := ServiceMgr.request (s.manager i) job result
  s.settle i job.name m replies none

def Func.isCall : Func → Bool
  | .call _ _ _ => true
  | _ => false

/-- `g` has the global role. -/
def State.next (g : ι) (s : State ι ρ) : Event ι ρ → State ι ρ × List (Report ι ρ)
  | .command i cmd r =>
    match cmd.call (i = g) with
    | some (name, func) => s.waitfor i name func (.client r)
    | none => (s, [.failed i r])
  | .request c =>
    let s := { s with requests := s.requests.erase c }
    match c.cmd.call true with
    | some (name, func) => s.waitfor g name func (.manager c.node c.name)
    | none =>
      -- the attempt to concatenate a nil value
      ({ s with responses := s.responses ++ [⟨c.node, c.name, .error "attempt to concatenate"⟩] },
        [])
  | .response a =>
    let s := { s with responses := s.responses.erase a }
    match (s.manager a.node).running.find? fun job => job.name = a.name && job.func.isCall with
    | some job => s.finish a.node job (.ok a.reply.handle)
    | none => (s, [])
  | .finish i job result => s.finish i job result

/-- A `skynet.call` ends by a response, unless it fails. -/
def State.Enabled (s : State ι ρ) : Event ι ρ → Prop
  | .command _ _ _ => True
  | .request c => c ∈ s.requests
  | .response a => a ∈ s.responses
  | .finish i job result =>
    job ∈ (s.manager i).running ∧ (job.func.isCall = true → result.isOk = false)

instance (s : State ι ρ) : (e : Event ι ρ) → Decidable (s.Enabled e)
  | .command _ _ _ => .isTrue trivial
  | .request c => inferInstanceAs (Decidable (c ∈ s.requests))
  | .response a => inferInstanceAs (Decidable (a ∈ s.responses))
  | .finish i job result => inferInstanceAs (Decidable
      (job ∈ (s.manager i).running ∧ (job.func.isCall = true → result.isOk = false)))

def Step (g : ι) (s : State ι ρ) (l : Event ι ρ × List (Report ι ρ)) (t : State ι ρ) : Prop :=
  s.Enabled l.1 ∧ s.next g l.1 = (t, l.2)

end XsServer.ServiceMgr
