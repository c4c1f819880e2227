import XsServer.Lib.Run
import XsServer.Socket.Buffer

/-! The reading functions of `socket.lua` on one socket that is connected, `socket.close`, and the
messages about the socket, as coroutines of the service call them.  A coroutine that is woken waits
in the wakeup queue, and the queue is empty before the next message is handled. -/

namespace XsServer.Socket

open XsServer.Lib XsServer.ServiceGate

/-- The reading functions; `readSome` is `socket.read` without a size. -/
inductive Call
  | read (sz : Nat)
  | readSome
  | readline (sep : List UInt8)
  | readall
  | block
  deriving DecidableEq

inductive Value
  | str (s : List UInt8)
  /-- `false` and a string -/
  | falseStr (s : List UInt8)
  | bool (b : Bool)
  | nil
  deriving DecidableEq

/-- `s.read_required`: `false` or `nil`, a number, a string, or `true`. -/
inductive ReadRequired
  | none
  | size (rr : Nat)
  | sep (rr : List UInt8)
  | all
  deriving DecidableEq

/-- The table `s` of a socket, with what these functions use of it. -/
structure SocketObject where
  buffer : SocketBuffer
  connected : Bool
  readRequired : ReadRequired
  co : Option Nat
  closing : Option Nat
  deriving DecidableEq

/-- Where a coroutine waits; a reading function with the number of unread bytes at that moment. -/
inductive Frame
  | reading (call : Call) (began : Nat)
  /-- `suspend(s)` in `socket.close` -/
  | closeSuspend
  /-- `skynet.wait(s.closing)` in `socket.close` -/
  | closeWait
  deriving DecidableEq

/-- The socket, whether `socket_pool` has it, the coroutines that wait on it, `wakeup_queue`, the
coroutine that runs, and whether `socket.close` was called. -/
structure State where
  s : SocketObject
  pool : Bool
  frames : Nat → Option Frame
  queue : List Nat
  running : Option Nat
  closeCalled : Bool

def State.connected : State where
  s := ⟨lnewbuffer, true, .none, none, none⟩
  pool := true
  frames _ := none
  queue := []
  running := none
  closeCalled := false

def State.setBuffer (st : State) (buffer : SocketBuffer) : State :=
  { st with s := { st.s with buffer } }

/-- `skynet.wakeup`, of a coroutine that has a `sleep_session` -/
def State.skynetWakeup (st : State) (co : Nat) : State :=
  if (st.frames co).isSome then { st with queue := st.queue ++ [co] } else st

/-- `skynet.wait` in the coroutine that runs -/
def State.skynetWait (st : State) (co : Nat) (f : Frame) : State :=
  { st with frames := Function.update st.frames co (some f), running := none }

def State.wakeup (st : State) : State :=
  match st.s.co with
  | some co => { st with s := { st.s with co := none } }.skynetWakeup co
  | none => st

/-- `suspend` until its coroutine waits -/
def State.suspend (st : State) (co : Nat) (f : Frame) : Except Fault State :=
  if st.s.co.isSome then .error .assertion
  else .ok ({ st with s := { st.s with co := some co } }.skynetWait co f)

/-- The rest of `suspend` -/
def State.suspended (st : State) : State :=
  match st.s.closing with
  | some closing => st.skynetWakeup closing
  | none => st

/-- `read_required` is met: the reader is woken. -/
def State.met (st : State) : State := { st with s := { st.s with readRequired := .none } }.wakeup

/-- The test of `read_required` against the buffer, whose size is `sz`. -/
def State.test (st : State) (sz : Int) : ReadRequired → Except Fault State
  | .size rr => .ok (if (rr : Int) ≤ sz then st.met else st)
  | .sep rr => do .ok (if ← lreadlineCheck st.s.buffer rr then st.met else st)
  | .none | .all => .ok st

/-- `socket_message[1]` -/
def State.data (st : State) (bs : List UInt8) : Except Fault State :=
  if st.pool then
    let (sz, buffer) := lpushbuffer st.s.buffer bs
    (st.setBuffer buffer).test sz st.s.readRequired
  else .ok st

/-- `socket_message[3]` -/
def State.closed (st : State) : State :=
  if st.pool then { st with s := { st.s with connected := false } }.wakeup else st

/-- `socket_message[5]`, of a socket that is no listener and is not connecting -/
def State.error (st : State) : State :=
  if st.pool then { st with s := { st.s with connected := false } }.wakeup else st

/-! ### Calls -/

/-- What `read_required` becomes for a call that waits. -/
def Call.required : Call → ReadRequired
  | .read sz => .size sz
  | .readSome | .block => .size 0
  | .readline sep => .sep sep
  | .readall => .all

/-- `assert(not s.read_required)`, then `suspend` -/
def State.await (st : State) (co : Nat) (call : Call) : Except Fault (State × Option Value) :=
  if st.s.readRequired = .none then do
    let st ← { st with s := { st.s with readRequired := call.required } }.suspend co
      (.reading call st.s.buffer.unread.length)
    .ok (st, none)
  else .error .assertion

/-- `return false, driver.readall(...)` -/
def State.falseReadall (st : State) : State × Value :=
  let (rest, buffer) := lreadall st.s.buffer
  (st.setBuffer buffer, .falseStr rest)

def read (st : State) (co sz : Nat) : Except Fault (State × Option Value) :=
  if st.pool then do
    let (ret, buffer) ← lpopbuffer st.s.buffer sz
    match ret with
    | some ret => .ok (st.setBuffer buffer, some (.str ret))
    | none =>
      if st.s.connected then (st.setBuffer buffer).await co (.read sz)
      else
        let (st, v) := (st.setBuffer buffer).falseReadall
        .ok (st, some v)
  else .error .assertion

def readSome (st : State) (co : Nat) : Except Fault (State × Option Value) :=
  if st.pool then
    let (ret, buffer) := lreadall st.s.buffer
    if ret ≠ [] then .ok (st.setBuffer buffer, some (.str ret))
    else if st.s.connected then (st.setBuffer buffer).await co .readSome
    else .ok (st.setBuffer buffer, some (.falseStr ret))
  else .error .assertion

def readline (st : State) (co : Nat) (sep : List UInt8) : Except Fault (State × Option Value) :=
  if st.pool then do
    let (ret, buffer) ← lreadline st.s.buffer sep
    match ret with
    | some ret => .ok (st.setBuffer buffer, some (.str ret))
    | none =>
      if st.s.connected then (st.setBuffer buffer).await co (.readline sep)
      else
        let (st, v) := (st.setBuffer buffer).falseReadall
        .ok (st, some v)
  else .error .assertion

def readall (st : State) (co : Nat) : Except Fault (State × Option Value) :=
  if st.pool then
    if st.s.connected then st.await co .readall
    else
      let (r, buffer) := lreadall st.s.buffer
      .ok (st.setBuffer buffer, some (if r ≠ [] then .str r else .bool false))
  else .error .assertion

def block (st : State) (co : Nat) : Except Fault (State × Option Value) :=
  if st.pool ∧ st.s.connected then st.await co .block
  else .ok (st, some (.bool false))

/-- A call until it returns or its coroutine waits. -/
def Call.enter (st : State) (co : Nat) : Call → Except Fault (State × Option Value)
  | .read sz => XsServer.Socket.read st co sz
  | .readSome => XsServer.Socket.readSome st co
  | .readline sep => XsServer.Socket.readline st co sep
  | .readall => XsServer.Socket.readall st co
  | .block => XsServer.Socket.block st co

/-- The rest of a call behind its `suspend`. -/
def Call.leave (st : State) : Call → Except Fault (State × Value)
  | .read sz => do
    let (ret, buffer) ← lpopbuffer st.s.buffer sz
    match ret with
    | some ret => .ok (st.setBuffer buffer, .str ret)
    | none => .ok (st.setBuffer buffer).falseReadall
  | .readSome =>
    let (ret, buffer) := lreadall st.s.buffer
    .ok (st.setBuffer buffer, if ret ≠ [] then .str ret else .falseStr ret)
  | .readline sep =>
    if st.s.connected then do
      let (ret, buffer) ← lreadline st.s.buffer sep
      .ok (st.setBuffer buffer, match ret with | some ret => .str ret | none => .nil)
    else .ok st.falseReadall
  | .readall =>
    if st.s.connected then .error .assertion
    else
      let (ret, buffer) := lreadall st.s.buffer
      .ok (st.setBuffer buffer, .str ret)
  | .block => .ok (st, .bool st.s.connected)

/-- The end of `socket.close` -/
def State.drop (st : State) : State :=
  { st.setBuffer (lclearbuffer st.s.buffer) with pool := false }

/-- `s.connected = false`, then the end of `socket.close` -/
def State.disconnect (st : State) : State :=
  { st with s := { st.s with connected := false } }.drop

/-- `socket.close` until it returns or its coroutine waits -/
def State.close (st : State) (co : Nat) : Except Fault State :=
  if st.pool then
    if st.s.connected then
      if st.s.co.isSome then
        if st.s.closing.isSome then .error .assertion
        else .ok ({ st with s := { st.s with closing := some co } }.skynetWait co .closeWait)
      else st.suspend co .closeSuspend
    else .ok st.drop
  else .ok st

inductive Event
  -- messages of the socket
  | data (bs : List UInt8)
  | close
  | error
  /-- A coroutine that does not wait on the socket runs. -/
  | run (co : Nat)
  /-- The running coroutine ends, or waits for something else. -/
  | pause
  -- the running coroutine
  | call (call : Call)
  | callClose
  /-- `dispatch_wakeup` -/
  | resume
  deriving DecidableEq

def Frame.resume (st : State) : Frame → Except Fault (State × Option (Call × Value))
  | .reading call _ => do
    let (st, v) ← call.leave st.suspended
    .ok (st, some (call, v))
  | .closeSuspend => .ok (st.suspended.disconnect, none)
  | .closeWait => .ok (st.disconnect, none)

/-- The state after an event, and the call that returned with its value. -/
def State.next (st : State) : Event → Except Fault (State × Option (Call × Value))
  | .data bs => do .ok (← st.data bs, none)
  | .close => .ok (st.closed, none)
  | .error => .ok (st.error, none)
  | .run co => .ok ({ st with running := some co }, none)
  | .pause => .ok ({ st with running := none }, none)
  | .call call =>
    match st.running with
    | some co => do
      let (st, v) ← call.enter st co
      .ok (st, v.map fun v => (call, v))
    | none => .ok (st, none)
  | .callClose =>
    match st.running with
    | some co => do .ok (← { st with closeCalled := true }.close co, none)
    | none => .ok (st, none)
  | .resume =>
    match st.queue with
    | co :: queue =>
      match st.frames co with
      | some f =>
        f.resume { st with queue, running := some co, frames := Function.update st.frames co none }
      | none => .ok ({ st with queue }, none)
    | [] => .ok (st, none)

/-- At least one byte to read, a separator that is not empty. -/
def Call.Valid : Call → Prop
  | .read sz => 1 ≤ sz
  | .readline sep => sep ≠ []
  | .readSome | .readall | .block => True

/-- A message is handled when no coroutine runs or is woken; one coroutine at a time reads, and
`close` is called once. -/
def State.Enabled (st : State) : Event → Prop
  | .data bs => st.running = none ∧ st.queue = [] ∧ bs ≠ [] ∧ bs.length ≤ INT_MAX
  | .close | .error => st.running = none ∧ st.queue = []
  | .run co => st.running = none ∧ st.frames co = none
  | .pause => st.running.isSome
  | .call call => st.running.isSome ∧ call.Valid ∧ ∀ co c n, st.frames co ≠ some (.reading c n)
  | .callClose => st.running.isSome ∧ st.closeCalled = false
  | .resume => st.running = none ∧ st.queue ≠ []

def Step (st : State) (e : Event × Option (Call × Value)) (st' : State) : Prop :=
  st.Enabled e.1 ∧ st.next e.1 = .ok (st', e.2)

def Event.bytes : Event → List UInt8
  | .data bs => bs
  | _ => []

/-- The string that a call returned, with the separator put back. -/
def taken : Call → Value → List UInt8
  | .readline sep, .str s => s ++ sep
  | _, .str s | _, .falseStr s => s
  | _, .bool _ | _, .nil => []

def received (es : List (Event × Option (Call × Value))) : List UInt8 :=
  es.flatMap fun e => e.1.bytes

def returned (es : List (Event × Option (Call × Value))) : List UInt8 :=
  es.flatMap fun e => (e.2.map fun r => taken r.1 r.2).getD []

/-- What a call waits for is among the unread bytes; `began` of them were there before. -/
def Call.Present (bytes : List UInt8) (began : Nat) : Call → Prop
  | .read sz => sz ≤ bytes.length
  | .readline sep => sep <:+: bytes
  | .readSome | .block => began < bytes.length
  | .readall => False

/-- What a call waits for, or the end of the stream, has come. -/
def State.Woken (st : State) (call : Call) (began : Nat) : Prop :=
  st.s.connected = false ∨ call.Present st.s.buffer.unread began

end XsServer.Socket
