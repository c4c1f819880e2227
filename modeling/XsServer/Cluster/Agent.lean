import XsServer.Cluster.Reassemble
import XsServer.Lib.Run

/-! The service `clusteragent.lua`.  `dispatch_request` runs in a coroutine for each packet, which
is suspended while it looks up a name and while it calls a service.  The names are those that
`clusterd.lua` knows, and the two services send each other messages. -/

namespace XsServer.Cluster

open Lib

abbrev Name := List UInt8

inductive Effect
  | queryname (name : Name)
  | rawsend (addr : Address) (msg : List UInt8)
  | tracecall (tag addr : Address) (msg : List UInt8)
  | rawcall (addr : Address) (msg : List UInt8)
  | write (packet : List UInt8)
  | lwrite (packet : List UInt8)

/-- A coroutine in `__index`: the table that it has indexed, and the request. -/
structure Waiter where
  co : Nat
  self : Nat
  name : Name
  d : Delivery

/-- An element of `inquery_name`, with the coroutine that calls `clusterd`. -/
structure Inquery where
  caller : Waiter
  waitco : List Waiter

/-- A coroutine in `skynet.rawcall` or `skynet.tracecall`. -/
structure Call where
  session : UInt32
  traced : Bool

/-- The variables of the service, with the tables that `register_name` has had, and the coroutines
that are suspended. -/
structure Agent where
  pieces : Pieces
  registerName : Nat
  tables : Nat → Name → Option UInt32
  inqueryName : Name → Option Inquery
  wakeupQueue : List Waiter
  calls : Nat → Option Call

def Agent.init : Agent where
  pieces := .init
  registerName := 0
  tables := fun _ _ => none
  inqueryName := fun _ => none
  wakeupQueue := []
  calls := fun _ => none

/-- What the agent takes from elsewhere: the name in the message of a lookup, `none` where it has
none, and the message with an address. -/
structure Codec where
  lookupName : List UInt8 → Option Name
  packstring : UInt32 → List UInt8

/-- `cluster.isname` -/
def isname : Address → Bool
  | .number _ => false
  | .name name => name.head? = some 64

/-- A table of packets is written in the low-priority queue. -/
def writeResponse (session : UInt32) (ok : Bool) (msg : List UInt8) : List Effect :=
  match packresponse session ok msg with
  | none => []
  | some [packet] => [.write packet]
  | some packets => packets.map .lwrite

def writeError (session : UInt32) (text : String) : List Effect :=
  writeResponse session false text.toUTF8.toList

def setTracetag (s : Agent) (tracetag : Option Address) : Agent :=
  { s with pieces := { s.pieces with tracetag := tracetag } }

def setCall (s : Agent) (co : Nat) (call : Option Call) : Agent :=
  { s with calls := Function.update s.calls co call }

def setInquery (s : Agent) (name : Name) (q : Option Inquery) : Agent :=
  { s with inqueryName := Function.update s.inqueryName name q }

def setTable (s : Agent) (table : Nat) (name : Name) (addr : UInt32) : Agent :=
  let t := Function.update (s.tables table) name (some addr)
  { s with tables := Function.update s.tables table t }

/-- The request goes to a service; `alive` says whether `c.send` finds it. -/
def forward (alive : Address → Bool) (s : Agent) (co : Nat) (d : Delivery) (addr : Address) :
    Agent × List Effect :=
  if d.isPush then (s, [.rawsend addr d.msg])
  else
    match s.pieces.tracetag with
    | some tag =>
      if alive addr then (setCall s co (some ⟨d.session, true⟩), [.tracecall tag addr d.msg])
      else (setTracetag s none,
        .tracecall tag addr d.msg :: writeError d.session "call to invalid address")
    | none =>
      if alive addr then (setCall s co (some ⟨d.session, false⟩), [.rawcall addr d.msg])
      else (s, .rawcall addr d.msg :: writeError d.session "call to invalid address")

/-- What follows `register_name[..]`. -/
def goOn (codec : Codec) (alive : Address → Bool) (s : Agent) (x : Waiter) (addr : Option UInt32) :
    Agent × List Effect :=
  if x.d.addr = some (.number 0) then
    match addr with
    | some addr => (s, writeResponse x.d.session true (codec.packstring addr))
    | none => (s, writeError x.d.session "name not found")
  else
    match addr with
    | some addr => forward alive s x.co x.d (.number addr)
    | none => (s, writeError x.d.session "Invalid name")

/-- `register_name[..]`, with the function `__index` for a name that is not in the table. -/
def index (codec : Codec) (alive : Address → Bool) (s : Agent) (x : Waiter) :
    Agent × List Effect :=
  match s.tables x.self x.name with
  | some addr => goOn codec alive s x (some addr)
  | none =>
    match s.inqueryName x.name with
    | some q => (setInquery s x.name (some { q with waitco := q.waitco ++ [x] }), [])
    | none => (setInquery s x.name (some ⟨x, []⟩), [.queryname (x.name.drop 1)])

/-- The second half of `dispatch_request`. -/
def dispatchDelivery (codec : Codec) (alive : Address → Bool) (s : Agent) (co : Nat)
    (d : Delivery) : Agent × List Effect :=
  match d.addr with
  | none => (s, writeError d.session "Invalid name")
  | some addr =>
    if addr = .number 0 then
      match codec.lookupName d.msg with
      | some name => index codec alive s ⟨co, s.registerName, 64 :: name, d⟩
      | none => (s, [])
    else
      match addr with
      | .name name =>
        if isname addr then index codec alive s ⟨co, s.registerName, name, d⟩
        else forward alive s co d addr
      | .number _ => forward alive s co d addr

def dispatchRequest (codec : Codec) (alive : Address → Bool) (s : Agent) (co : Nat)
    (u : Unpacked) : Agent × List Effect :=
  let r := reassemble s.pieces u
  let s := { s with pieces := r.1 }
  match r.2 with
  | .trace | .part => (s, [])
  | .invalid session => (s, writeError session "Invalid large req")
  | .request d => dispatchDelivery codec alive s co d

/-- `clusterd` answers the call for a name: the coroutines that wait are woken up, and its own goes
on. -/
def reply (codec : Codec) (alive : Address → Bool) (s : Agent) (name : Name)
    (addr : Option UInt32) : Option (Agent × Nat × List Effect) :=
  (s.inqueryName name).map fun q =>
    let s := match addr with
      | some addr => setTable s q.caller.self name addr
      | none => s
    let s := setInquery { s with wakeupQueue := s.wakeupQueue ++ q.waitco } name none
    let r := goOn codec alive s q.caller addr
    (r.1, q.caller.co, r.2)

/-- `dispatch_wakeup`: the first coroutine of the queue returns `rawget(self, name)`. -/
def wakeup (codec : Codec) (alive : Address → Bool) (s : Agent) :
    Option (Agent × Nat × List Effect) :=
  match s.wakeupQueue with
  | [] => none
  | x :: rest =>
    let r := goOn codec alive { s with wakeupQueue := rest } x (s.tables x.self x.name)
    some (r.1, x.co, r.2)

/-- A call is answered, or it has failed with a text. -/
def answer (s : Agent) (co : Nat) (ok : Bool) (msg : List UInt8) :
    Option (Agent × Nat × List Effect) :=
  (s.calls co).map fun c =>
    let s := setCall s co none
    (if c.traced then setTracetag s none else s, co, writeResponse c.session ok msg)

/-- `namechange`: `new_register_name`. -/
def namechange (s : Agent) : Agent := { s with registerName := s.registerName + 1 }

/-! ### An agent with `clusterd.lua` -/

/-- The variable `register_name`, by names and by addresses, and whether `cluster_agent` has the
agent, which is so when its launch has returned. -/
structure Clusterd where
  names : Name → Option UInt32
  addrs : UInt32 → Option Name
  known : Bool

/-- What `clusterd` sends to the agent.  The session of a reply stands for the name of the call. -/
inductive Message
  | reply (name : Name) (addr : Option UInt32)
  | namechange
  deriving DecidableEq

def clearnamecache (c : Clusterd) : List Message := if c.known then [.namechange] else []

/-- `command.register`; a name that is registered makes its assertion fail. -/
def register (c : Clusterd) (name : Name) (addr : UInt32) : Clusterd × List Message :=
  if c.names name ≠ none then (c, [])
  else
    let (names, messages) := match c.addrs addr with
      | some oldName => (Function.update c.names oldName none, clearnamecache c)
      | none => (c.names, [])
    ({ c with
      names := Function.update names name (some addr)
      addrs := Function.update c.addrs addr (some name) }, messages)

/-- The two services, the coroutines that the agent has had, the messages that are on their way in
both directions, and what each coroutine did. -/
structure Node where
  agent : Agent
  co : Nat
  clusterd : Clusterd
  queries : List Name
  messages : List Message
  log : List (Nat × Effect)

def Node.init : Node where
  agent := .init
  co := 0
  clusterd := ⟨fun _ => none, fun _ => none, false⟩
  queries := []
  messages := []
  log := []

inductive NodeEvent
  /-- the gate forwards a packet without its header -/
  | packet (buf : List UInt8) (alive : Address → Bool)
  /-- the agent receives the next message of `clusterd` -/
  | message (alive : Address → Bool)
  | wakeup (alive : Address → Bool)
  | answer (co : Nat) (ok : Bool) (msg : List UInt8)
  | register (name : Name) (addr : UInt32)
  /-- `command.queryname` -/
  | query
  | launched

def Effect.query : Effect → Option Name
  | .queryname name => some name
  | _ => none

/-- A coroutine has run until it was suspended or returned. -/
def Node.ran (w : Node) (r : Agent × Nat × List Effect) : Node :=
  { w with
    agent := r.1
    queries := w.queries ++ r.2.2.filterMap Effect.query
    log := w.log ++ r.2.2.map (r.2.1, ·) }

/-- Coroutines that were woken up run before the next message to the agent. -/
def Node.next (codec : Codec) (w : Node) : NodeEvent → Option Node
  | .packet buf alive =>
    if w.agent.wakeupQueue.isEmpty then
      some <| match unpackrequest buf with
        | none => w
        | some u =>
          let r := dispatchRequest codec alive w.agent w.co u
          { w with co := w.co + 1 }.ran (r.1, w.co, r.2)
    else none
  | .message alive =>
    if w.agent.wakeupQueue.isEmpty then
      match w.messages with
      | [] => none
      | .namechange :: rest => some { w with messages := rest, agent := namechange w.agent }
      | .reply name addr :: rest =>
        (reply codec alive w.agent (64 :: name) addr).map { w with messages := rest }.ran
    else none
  | .wakeup alive => (wakeup codec alive w.agent).map w.ran
  | .answer co ok msg =>
    if w.agent.wakeupQueue.isEmpty then (answer w.agent co ok msg).map w.ran else none
  | .register name addr =>
    let r := register w.clusterd name addr
    some { w with clusterd := r.1, messages := w.messages ++ r.2 }
  | .query =>
    match w.queries with
    | [] => none
    | name :: rest =>
      some { w with queries := rest,
                    messages := w.messages ++ [.reply name (w.clusterd.names name)] }
  | .launched => some { w with clusterd := { w.clusterd with known := true } }

def Node.Step (codec : Codec) (w : Node) (e : NodeEvent) (w' : Node) : Prop :=
  w.next codec e = some w'

end XsServer.Cluster
