import XsServer.Net.Stream
import XsServer.Lib.Run

/-! The gate of `gateserver.lua`.  Messages to the service are dispatched one after the other.  The
handler's functions may block, so a dispatch runs in steps: what comes after a call of the handler
is a step of its own, and a coroutine that `skynet.fork` starts runs before the dispatch ends. -/

namespace XsServer.Gateserver

open Lib Net

structure Handler where
  disconnect : Bool
  error : Bool

/-- A call of the handler, or of `closeclient`. -/
inductive Call
  | connect (fd : Int32) (msg : List UInt8)
  | message (np : Netpack)
  | disconnect (fd : Int32)
  | error (fd : Int32) (msg : List UInt8)
  | closeclient (fd : Int32)

/-- The variables of the service; the queue by the packets in it. -/
structure Server where
  socket : Option Int32
  maxclient : Nat
  clientNumber : Int
  connection : Int32 → Option Bool
  queue : List Netpack
  /-- no message is being dispatched -/
  idle : Bool
  /-- coroutines of `dispatch_queue` that have not started -/
  forks : Nat
  /-- coroutines of `dispatch_queue` after their first packet -/
  loops : Nat
  /-- the functions `MSG.close` and `MSG.error` that wait for the handler -/
  closing : List Int32
  calls : List Call

def openclient (s : Server) (fd : Int32) : Bool := s.connection fd = some true

def closeclient (s : Server) (fd : Int32) : Server :=
  let s := { s with calls := s.calls ++ [.closeclient fd] }
  if s.connection fd = some true then
    { s with connection := Function.update s.connection fd (some false) }
  else s

def dispatchMsg (s : Server) (np : Netpack) : Server :=
  if s.connection np.id = some true then { s with calls := s.calls ++ [.message np] } else s

/-- `dispatch_queue` up to its first packet. -/
def dispatchQueue (s : Server) : Server :=
  match s.queue with
  | [] => s
  | np :: queue =>
      dispatchMsg { s with queue := queue, forks := s.forks + 1, loops := s.loops + 1 } np

/-- A round of the loop of `dispatch_queue`. -/
def queueLoop (s : Server) : Server :=
  match s.queue with
  | [] => { s with loops := s.loops - 1 }
  | np :: queue => dispatchMsg { s with queue := queue } np

def msgOpen (s : Server) (fd : Int32) (msg : List UInt8) : Server :=
  if s.clientNumber ≥ s.maxclient then s
  else { s with
    connection := Function.update s.connection fd (some true)
    clientNumber := s.clientNumber + 1
    calls := s.calls ++ [.connect fd msg] }

def closeFd (s : Server) (fd : Int32) : Server :=
  if s.connection fd ≠ none then
    { s with
      connection := Function.update s.connection fd none
      clientNumber := s.clientNumber - 1 }
  else s

/-- `MSG.close` up to the return of the handler. -/
def msgClose (h : Handler) (s : Server) (fd : Int32) : Server :=
  if s.socket ≠ some fd then
    { s with
      calls := if h.disconnect then s.calls ++ [.disconnect fd] else s.calls
      closing := fd :: s.closing }
  else { s with socket := none }

/-- `MSG.error` up to the return of the handler. -/
def msgError (h : Handler) (s : Server) (fd : Int32) (msg : List UInt8) : Server :=
  if s.socket = some fd then s
  else { s with
    calls := if h.error then s.calls ++ [.error fd msg] else s.calls
    closing := fd :: s.closing }

/-- `MSG[type](...)` for what `netpack.filter` returned. -/
def dispatch (h : Handler) (s : Server) : Filtered → Server
  | .nothing => s
  | .data fd msg size => dispatchMsg s ⟨fd, size, msg⟩
  | .more => dispatchQueue s
  | .error fd msg => msgError h s fd msg
  | .opened fd addr => msgOpen s fd addr
  | .close fd => msgClose h s fd
  | .warning _ _ => s

/-! ### Runs -/

/-- The server, the sockets that were accepted, and those of which a close or an error has
arrived. -/
structure World where
  server : Server
  accepted : List Int32
  ended : List Int32

def World.init (socket : Int32) (maxclient : Nat) : World where
  server := {
    socket := some socket
    maxclient := maxclient
    clientNumber := 0
    connection := fun _ => none
    queue := []
    idle := true
    forks := 0
    loops := 0
    closing := []
    calls := [] }
  accepted := []
  ended := []

def World.Alive (w : World) (fd : Int32) : Prop := fd ∈ w.accepted ∧ fd ∉ w.ended

/-- What the socket layer sends: a socket is accepted once, then come its data, then a close or an
error.  `ring` are the packets that `netpack.filter` adds to the queue. -/
def World.Arrives (w : World) : Filtered → List Netpack → Prop
  | .data fd _ _, ring => w.Alive fd ∧ ring = []
  | .more, ring => ∃ fd, w.Alive fd ∧ ∀ np ∈ ring, np.id = fd
  | .opened fd _, ring => fd ∉ w.accepted ∧ w.server.socket ≠ some fd ∧ ring = []
  | .close fd, ring | .error fd _, ring => (w.Alive fd ∨ w.server.socket = some fd) ∧ ring = []
  | .warning _ _, ring | .nothing, ring => ring = []

def World.ends (w : World) (fd : Int32) : List Int32 :=
  if w.server.socket = some fd then w.ended else fd :: w.ended

def World.receive (h : Handler) (w : World) (r : Filtered) (ring : List Netpack) : World where
  server := dispatch h { w.server with queue := w.server.queue ++ ring, idle := false } r
  accepted := match r with
    | .opened fd _ => fd :: w.accepted
    | _ => w.accepted
  ended := match r with
    | .close fd | .error fd _ => w.ends fd
    | _ => w.ended

inductive Event
  | socket (r : Filtered) (ring : List Netpack)
  | other
  | openclient (fd : Int32)
  | closeclient (fd : Int32)
  | fork
  | loop
  | fail
  | returned (fd : Int32)
  | finish

inductive World.Step (h : Handler) : World → Event → World → Prop
  | socket {w : World} {r : Filtered} {ring : List Netpack} : w.server.idle = true →
      w.Arrives r ring → Step h w (.socket r ring) (w.receive h r ring)
  /-- a message of another type, whose dispatch may call any function -/
  | other {w : World} : w.server.idle = true →
      Step h w .other { w with server := { w.server with idle := false } }
  | openclient {w : World} (fd : Int32) : Step h w (.openclient fd) w
  | closeclient {w : World} (fd : Int32) :
      Step h w (.closeclient fd) { w with server := closeclient w.server fd }
  | fork {w : World} {n : Nat} : w.server.idle = false → w.server.forks = n + 1 →
      Step h w .fork { w with server := dispatchQueue { w.server with forks := n } }
  | loop {w : World} : 0 < w.server.loops →
      Step h w .loop { w with server := queueLoop w.server }
  /-- the handler has raised an error, or the loop has a queue that was replaced by a larger one -/
  | fail {w : World} : 0 < w.server.loops →
      Step h w .fail { w with server := { w.server with loops := w.server.loops - 1 } }
  | returned {w : World} {fd : Int32} : fd ∈ w.server.closing →
      Step h w (.returned fd) { w with
        server := closeFd { w.server with closing := w.server.closing.erase fd } fd }
  | finish {w : World} : w.server.idle = false → w.server.forks = 0 →
      Step h w .finish { w with server := { w.server with idle := true } }

end XsServer.Gateserver
