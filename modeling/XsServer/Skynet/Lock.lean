import XsServer.Lib.Run

/-! The tables of `skynet.lua` for coroutines that sleep or wait: which coroutine a session resumes,
which session a token ends, and the tokens that `skynet.wakeup` has put into the queue.  With them
`skynet.queue` from `queue.lua`.  Coroutines call the function that it returns, sleep and wait
inside and outside of it, and are resumed by `dispatch_wakeup` and by responses.  Between two steps
of one coroutine the others may take any steps. -/

namespace XsServer.Skynet

open Lib

/-! ### The tables of `skynet.lua` -/

abbrev Co := Nat

/-- A session of `c.genid`, of a timer or of a call. -/
abbrev Session := Nat

/-- What `skynet.sleep` and `skynet.wait` are given to be woken by: the running coroutine, or a
value of the caller that is no coroutine. -/
inductive Token
  | thread (co : Co)
  | key (k : Nat)
  deriving DecidableEq

/-- A value of `session_id_coroutine`. -/
inductive Thread
  | co (co : Co)
  | broken
  deriving DecidableEq

/-- A token in `wakeup_queue` carries a note that no code reads: what the proofs know of the call
that put it there. -/
structure Tables (Note : Type) where
  session : Session
  sessionIdCoroutine : Session → Option Thread
  sleepSession : Token → Option Session
  wakeupQueue : List (Token × Note)

variable {Note : Type}

def Tables.empty : Tables Note := ⟨0, fun _ => none, fun _ => none, []⟩

/-- `c.genid` and the `TIMEOUT` command count the sessions. -/
def Tables.newSession (t : Tables Note) : Session := t.session + 1

/-- `suspend_sleep` for a new session; `false` is the failed assertion that the token is not in
use, after which the session stays in the table. -/
def Tables.suspendSleep (t : Tables Note) (running : Co) (token : Token) : Tables Note × Bool :=
  let t := { t with
    session := t.newSession
    sessionIdCoroutine := Function.update t.sessionIdCoroutine t.newSession (some (.co running)) }
  if t.sleepSession token = none then
    ({ t with sleepSession := Function.update t.sleepSession token (some t.session) }, true)
  else (t, false)

theorem Tables.suspendSleep_free {t : Tables Note} {running : Co} {token : Token}
    (h : t.sleepSession token = none) : t.suspendSleep running token =
      (⟨t.newSession, Function.update t.sessionIdCoroutine t.newSession (some (.co running)),
        Function.update t.sleepSession token (some t.newSession), t.wakeupQueue⟩, true) :=
  if_pos h

theorem Tables.suspendSleep_used {t : Tables Note} {running : Co} {token : Token}
    (h : t.sleepSession token ≠ none) : t.suspendSleep running token =
      (⟨t.newSession, Function.update t.sessionIdCoroutine t.newSession (some (.co running)),
        t.sleepSession, t.wakeupQueue⟩, false) :=
  if_neg h

/-- `skynet.wakeup`. -/
def Tables.wakeup (t : Tables Note) (token : Token) (note : Note) : Tables Note :=
  if t.sleepSession token = none then t
  else { t with wakeupQueue := t.wakeupQueue ++ [(token, note)] }

/-- What `skynet.sleep` does when it is resumed. -/
def Tables.endSleep (t : Tables Note) (token : Token) : Tables Note :=
  { t with sleepSession := Function.update t.sleepSession token none }

/-- What `skynet.wait` does when it is resumed. -/
def Tables.endWait (t : Tables Note) (session : Session) (token : Token) : Tables Note :=
  { t with
    sleepSession := Function.update t.sleepSession token none
    sessionIdCoroutine := Function.update t.sessionIdCoroutine session none }

/-- The coroutine that `dispatch_wakeup` resumes for the first token in the queue. -/
def Tables.woken (t : Tables Note) : Option Co := do
  let (token, _) ← t.wakeupQueue.head?
  let session ← t.sleepSession token
  match t.sessionIdCoroutine session with
  | some (.co co) => some co
  | _ => none

/-- The tables when `dispatch_wakeup` resumes a coroutine, or finds that the token is not in use any
more. -/
def Tables.dispatchWakeup (t : Tables Note) : Tables Note :=
  match t.wakeupQueue with
  | [] => t
  | (token, _) :: queue =>
    match t.sleepSession token with
    | none => { t with wakeupQueue := queue }
    | some session => { t with
        wakeupQueue := queue
        sessionIdCoroutine := Function.update t.sessionIdCoroutine session (some .broken) }

/-- The coroutine that a response for the session resumes, a timer's or another one. -/
def Tables.answered (t : Tables Note) (session : Session) : Option Co :=
  match t.sessionIdCoroutine session with
  | some (.co co) => some co
  | _ => none

def Tables.dispatchResponse (t : Tables Note) (session : Session) : Tables Note :=
  { t with sessionIdCoroutine := Function.update t.sessionIdCoroutine session none }

/-! ### The queue -/

structure CsQueue where
  currentThread : Option Co
  ref : Int
  threadQueue : List Co

inductive Place
  /-- It can run. -/
  | free
  /-- In the `skynet.wait` of the queue. -/
  | queued (session : Session)
  /-- In a `skynet.sleep`, or in another `skynet.wait`. -/
  | asleep (session : Session) (token : Token) (timed : Bool)

/-- The note on a token tells whether the queue has put it there. -/
structure State where
  tables : Tables Bool
  cs : CsQueue
  place : Co → Place
  /-- How many calls of the queue's function are on the stack of the coroutine. -/
  depth : Co → Nat

def State.init : State := ⟨.empty, ⟨none, 0, []⟩, fun _ => .free, fun _ => 0⟩

inductive Event
  | call (co : Co)
  | leave (co : Co) (ok : Bool)
  | sleep (co : Co) (token : Token) (timed : Bool)
  | wakeup (token : Token)
  | dispatch
  | response (session : Session)

inductive Report
  | entered (co : Co)
  | nested (co : Co)
  | waits (co : Co)
  | left (co : Co) (ok : Bool)
  /-- A failed assertion in the queue's function, `ref == 0` or the one of `suspend_sleep`. -/
  | failed (co : Co)
  | quiet
  deriving DecidableEq

def State.enter (s : State) (co : Co) : State × Report :=
  ({ s with
    cs := { s.cs with currentThread := some co, ref := s.cs.ref + 1 }
    depth := Function.update s.depth co (s.depth co + 1) },
    if s.depth co = 0 then .entered co else .nested co)

def State.call (s : State) (co : Co) : State × Report :=
  if s.cs.currentThread ≠ none ∧ s.cs.currentThread ≠ some co then
    let (tables, ok) := s.tables.suspendSleep co (.thread co)
    let s := { s with tables, cs := { s.cs with threadQueue := s.cs.threadQueue ++ [co] } }
    if ok then ({ s with place := Function.update s.place co (.queued tables.session) }, .waits co)
    else (s, .failed co)
  else s.enter co

/-- The hand-over in `xpcall_ret`, when `ref` has become 0. -/
def State.handOver (s : State) : State :=
  match s.cs.threadQueue with
  | [] => { s with cs := { s.cs with currentThread := none } }
  | co :: queue =>
    { s with cs := ⟨some co, s.cs.ref, queue⟩, tables := s.tables.wakeup (.thread co) true }

/-- `xpcall_ret` for a function that has returned (`ok`) or raised an error. -/
def State.leave (s : State) (co : Co) (ok : Bool) : State × Report :=
  let s := { s with
    cs := { s.cs with ref := s.cs.ref - 1 }
    depth := Function.update s.depth co (s.depth co - 1) }
  (if s.cs.ref = 0 then s.handOver else s, .left co ok)

/-- A `skynet.sleep` (with a timer) or a `skynet.wait` that is not the queue's. -/
def State.sleep (s : State) (co : Co) (token : Token) (timed : Bool) : State :=
  let (tables, ok) := s.tables.suspendSleep co token
  let s := { s with tables }
  if ok then { s with place := Function.update s.place co (.asleep tables.session token timed) }
  else s

/-- A coroutine is resumed, and runs to the next point where it can do something. -/
def State.resume (s : State) (co : Co) : State × Report :=
  match s.place co with
  | .free => (s, .quiet)
  | .asleep session token timed =>
    let tables := if timed then s.tables.endSleep token else s.tables.endWait session token
    ({ s with tables, place := Function.update s.place co .free }, .quiet)
  | .queued session =>
    let tables := s.tables.endWait session (.thread co)
    let s := { s with tables, place := Function.update s.place co .free }
    if s.cs.ref = 0 then s.enter co else (s, .failed co)

/-- The coroutine that a step of the dispatcher resumes. -/
def State.target (s : State) : Event → Option Co
  | .dispatch => s.tables.woken
  | .response session => s.tables.answered session
  | _ => none

def State.resumed (s : State) : Option Co → State × Report
  | none => (s, .quiet)
  | some co => s.resume co

def State.next (s : State) : Event → State × Report
  | .call co => s.call co
  | .leave co ok => s.leave co ok
  | .sleep co token timed => (s.sleep co token timed, .quiet)
  | .wakeup token => ({ s with tables := s.tables.wakeup token false }, .quiet)
  | .dispatch => { s with tables := s.tables.dispatchWakeup }.resumed s.tables.woken
  | .response session =>
    { s with tables := s.tables.dispatchResponse session }.resumed (s.tables.answered session)

/-- A coroutine calls the function, leaves it or sleeps when it can run; its default token is
itself. -/
def State.Enabled (s : State) : Event → Prop
  | .call co => s.place co = .free
  | .leave co _ => s.place co = .free ∧ 0 < s.depth co
  | .sleep co token _ => s.place co = .free ∧ ∀ co', token = .thread co' → co' = co
  | _ => True

def Step (s : State) (l : Event × Report) (t : State) : Prop :=
  s.Enabled l.1 ∧ s.next l.1 = (t, l.2)

def State.Queued (s : State) (co : Co) : Prop := ∃ session, s.place co = .queued session

/-- A coroutine that waits in the queue is woken only by a token that the queue has put. -/
def OnlyByQueue (s : State) (l : Event × Report) : Prop :=
  ∀ co, s.target l.1 = some co → s.Queued co →
    l.1 = .dispatch ∧ s.tables.wakeupQueue.head?.map (·.2) = some true

/-- The coroutines that wait, the one that has got the lock first. -/
def State.waiting (s : State) : List Co :=
  match s.cs.currentThread with
  | none => s.cs.threadQueue
  | some co => (if 0 < s.depth co then [] else [co]) ++ s.cs.threadQueue

end XsServer.Skynet
