import XsServer.Lib.Run
import Mathlib.Data.List.Basic
import Mathlib.Tactic.Ring

/-! A slot of `socket_server.c`: how a TCP socket is set up, how packets go to its two lists and
from there to its file, and how it is closed; the sockets that use the slot one after the other, the
commands that are in the pipe, and the calls of threads that reserve ids and send. -/

namespace XsServer.SocketServer

open Lib

inductive SocketType
  | invalid
  | reserve
  | plisten
  | listen
  | connecting
  | connected
  | halfclose
  | paccept
  | bind
  deriving DecidableEq

inductive Protocol
  | tcp
  | udp
  | udpv6
  | unknown
  deriving DecidableEq

def MAX_SOCKET : Nat := 2 ^ 16

/-- `HASH_ID`, the slot of an id. -/
def hashId (id : Nat) : Nat := id % MAX_SOCKET

/-- `ID_TAG16`. -/
def idTag16 (id : Nat) : Nat := id / 2 ^ 16 % 2 ^ 16

/-- `struct request_send`, with what `send_object_init` gives: the bytes of the packet lie at `ptr`,
which is `buffer` unless that is a user object.  The tag tells packets apart; the code has none. -/
structure Request (τ : Type) where
  id : Nat
  tag : τ
  buffer : Nat
  ptr : Nat
  data : List UInt8

/-- `struct write_buffer`, with the `sz` bytes at `ptr`. -/
structure WriteBuffer (τ : Type) where
  tag : τ
  buffer : Nat
  ptr : Nat
  data : List UInt8

/-- `struct socket`, and whether its write event is enabled.  `fd` has the bytes that were written
to the file, and `done` the packets that were written whole. -/
structure Socket (τ : Type) where
  id : Nat
  type : SocketType
  protocol : Protocol
  sending : Nat
  high : List (WriteBuffer τ)
  low : List (WriteBuffer τ)
  wbSize : Int
  warnSize : Int
  /-- `dw_buffer` with `dw_offset` -/
  dw : Option (Request τ × Nat)
  writeEvent : Bool
  fd : List UInt8
  done : List τ

inductive Report
  | opened
  | close
  | warning
  deriving DecidableEq

inductive Assertion
  /-- `!list_uncomplete(&s->low)` in `send_buffer_` -/
  | lowUncomplete
  /-- `high->head == NULL` in `raise_uncomplete` -/
  | highNotEmpty
  /-- `send_buffer_empty(s) && s->wb_size == 0` in `send_buffer_` -/
  | notEmpty
  /-- `(s->sending & 0xffff) != 0` in `dec_sending_ref` -/
  | noSending
  deriving DecidableEq

/-- An answer of `write`, which takes no more than it was offered. -/
inductive WriteResult
  | wrote (n : Nat)
  | again
  | intr
  | error

variable {τ : Type}

/-- `s->sending & 0xffff`. -/
def Socket.sendingRef (s : Socket τ) : Nat := s.sending % 2 ^ 16

/-- The loop of `inc_sending_ref` for a TCP socket; it waits while the counter is at its end. -/
def incSendingRef (s : Socket τ) (id : Nat) : Option (Socket τ) :=
  if s.sending / 2 ^ 16 = idTag16 id then
    if s.sendingRef = 0xffff then none else some { s with sending := s.sending + 1 }
  else some s

def decSendingRef (s : Socket τ) (id : Nat) : Except Assertion (Socket τ) :=
  if s.id = id ∧ s.protocol = .tcp then
    if s.sendingRef = 0 then .error .noSending else .ok { s with sending := s.sending - 1 }
  else .ok s

/-- What `reserve_id` does to the slot of an id. -/
def reserveId (s : Socket τ) (id : Nat) : Socket τ :=
  { s with type := .reserve, id := id, protocol := .unknown }

/-- `new_fd`; the type is left to its caller. -/
def newFd (s : Socket τ) (id : Nat) (protocol : Protocol) : Socket τ :=
  { s with
    id := id
    sending := idTag16 id * 2 ^ 16
    protocol := protocol
    wbSize := 0
    warnSize := 0
    dw := none
    fd := []
    done := [] }

/-! ### The lists -/

/-- What `send_list_tcp` does with a list. -/
structure ListSent (τ : Type) where
  written : List UInt8
  done : List τ
  rest : List (WriteBuffer τ)
  results : List WriteResult
  failed : Bool

def WriteBuffer.advance (wb : WriteBuffer τ) (n : Nat) : WriteBuffer τ :=
  { wb with ptr := wb.ptr + n, data := wb.data.drop n }

/-- `send_list_tcp`, with the answers of `write`; when they end, the file takes no more. -/
def sendListTcp : List WriteResult → List (WriteBuffer τ) → ListSent τ
  | rs, [] => ⟨[], [], [], rs, false⟩
  | [], wb :: l => ⟨[], [], wb :: l, [], false⟩
  | .again :: rs, wb :: l => ⟨[], [], wb :: l, rs, false⟩
  | .intr :: rs, wb :: l => sendListTcp rs (wb :: l)
  | .error :: rs, wb :: l => ⟨[], [], wb :: l, rs, true⟩
  | .wrote n :: rs, wb :: l =>
    if n < wb.data.length then ⟨wb.data.take n, [], wb.advance n :: l, rs, false⟩
    else
      let r := sendListTcp rs l
      { r with written := wb.data ++ r.written, done := wb.tag :: r.done }

def listUncomplete : List (WriteBuffer τ) → Bool
  | [] => false
  | wb :: _ => wb.ptr ≠ wb.buffer

def Socket.wrote (s : Socket τ) (r : ListSent τ) : Socket τ :=
  { s with
    fd := s.fd ++ r.written, done := s.done ++ r.done, wbSize := s.wbSize - r.written.length }

def raiseUncomplete (s : Socket τ) : Except Assertion (Socket τ) :=
  match s.low with
  | [] => .ok s
  | wb :: low =>
      if s.high ≠ [] then .error .highNotEmpty else .ok { s with high := [wb], low := low }

def sendBufferEmpty (s : Socket τ) : Prop := s.high = [] ∧ s.low = []

instance (s : Socket τ) : Decidable (sendBufferEmpty s) :=
  decidable_of_iff (s.high.isEmpty ∧ s.low.isEmpty) (by
    simp only [sendBufferEmpty, List.isEmpty_iff])

/-- `force_close` with the lock. -/
def forceClose (s : Socket τ) : Socket τ :=
  { s with type := .invalid, high := [], low := [], dw := none, writeEvent := false }

/-- Step 4 of `send_buffer_`. -/
def sendBufferEnd (s : Socket τ) : Except Assertion (Socket τ × Option Report) :=
  if ¬ (sendBufferEmpty s ∧ s.wbSize = 0) then .error .notEmpty
  else
    let s := { s with writeEvent := false }
    if s.type = .halfclose then .ok (forceClose s, some .close)
    else if s.warnSize > 0 then .ok ({ s with warnSize := 0 }, some .warning)
    else .ok (s, none)

/-- Steps 2 and 3 of `send_buffer_`. -/
def sendBufferLow (s : Socket τ) (rs : List WriteResult) :
    Except Assertion (Socket τ × Option Report) :=
  if s.low = [] then sendBufferEnd s
  else
    let r := sendListTcp rs s.low
    let s := { s.wrote r with low := r.rest }
    if r.failed then .ok (forceClose s, some .close)
    else if listUncomplete s.low then do return (← raiseUncomplete s, none)
    else if s.low ≠ [] then .ok (s, none)
    else sendBufferEnd s

/-- `send_buffer_`. -/
def sendBufferLists (s : Socket τ) (rs : List WriteResult) :
    Except Assertion (Socket τ × Option Report) :=
  if listUncomplete s.low then .error .lowUncomplete
  else
    let r := sendListTcp rs s.high
    let s := { s.wrote r with high := r.rest }
    if r.failed then .ok (forceClose s, some .close)
    else if s.high ≠ [] then .ok (s, none)
    else sendBufferLow s r.results

/-- What is left of a direct write goes before the high list. -/
def takeDirect (s : Socket τ) : Socket τ :=
  match s.dw with
  | none => s
  | some (request, offset) =>
    let wb : WriteBuffer τ :=
      ⟨request.tag, request.buffer, request.ptr + offset, request.data.drop offset⟩
    { s with high := wb :: s.high, wbSize := s.wbSize + wb.data.length, dw := none }

/-- Nothing is done while a direct write has the lock. -/
def sendBuffer (s : Socket τ) (locked : Bool) (rs : List WriteResult) :
    Except Assertion (Socket τ × Option Report) :=
  if locked then .ok (s, none) else sendBufferLists (takeDirect s) rs

/-! ### Requests -/

def Request.toBuffer (request : Request τ) : WriteBuffer τ :=
  ⟨request.tag, request.buffer, request.ptr, request.data⟩

def appendSendbuffer (s : Socket τ) (request : Request τ) : Socket τ :=
  { s with high := s.high ++ [request.toBuffer], wbSize := s.wbSize + request.data.length }

def appendSendbufferLow (s : Socket τ) (request : Request τ) : Socket τ :=
  { s with low := s.low ++ [request.toBuffer], wbSize := s.wbSize + request.data.length }

def WARNING_SIZE : Int := 1024 * 1024

def warn (s : Socket τ) : Socket τ × Option Report :=
  if s.wbSize ≥ WARNING_SIZE ∧ s.wbSize ≥ s.warnSize then
    ({ s with warnSize := if s.warnSize = 0 then WARNING_SIZE * 2 else s.warnSize * 2 },
      some .warning)
  else (s, none)

/-- `send_socket` of a TCP socket; the lists of other sockets are left out. -/
def sendSocket (s : Socket τ) (request : Request τ) (low : Bool) : Socket τ × Option Report :=
  if s.type = .invalid ∨ s.id ≠ request.id ∨ s.type = .halfclose ∨ s.type = .paccept then (s, none)
  else if s.type = .plisten ∨ s.type = .listen then (s, none)
  else if s.protocol ≠ .tcp then (s, none)
  else if sendBufferEmpty s ∧ s.type = .connected then
    warn { appendSendbuffer s request with writeEvent := true }
  else if low then warn (appendSendbufferLow s request)
  else warn (appendSendbuffer s request)

def nomoreSendingData (s : Socket τ) : Prop :=
  sendBufferEmpty s ∧ s.dw = none ∧ s.sendingRef = 0

instance (s : Socket τ) : Decidable (nomoreSendingData s) :=
  decidable_of_iff (sendBufferEmpty s ∧ s.dw.isNone ∧ s.sendingRef = 0) (by
    simp only [nomoreSendingData, Option.isNone_iff_eq_none])

def canDirectWrite (s : Socket τ) (id : Nat) : Prop :=
  s.id = id ∧ nomoreSendingData s ∧ s.type = .connected

instance (s : Socket τ) (id : Nat) : Decidable (canDirectWrite s id) :=
  inferInstanceAs (Decidable (_ ∧ _))

/-- The direct write of `n` bytes; the rest is left to the socket thread. -/
def directWrite (s : Socket τ) (request : Request τ) (n : Nat) : Socket τ :=
  if n < request.data.length then
    { s with
      fd := s.fd ++ request.data.take n
      dw := some (request, n)
      writeEvent := true }
  else { s with fd := s.fd ++ request.data, done := s.done ++ [request.tag] }

/-- `close_socket` up to `force_close`, which waits for the lock: the last component tells whether
it comes to that. -/
def closeSocket (s : Socket τ) (id : Nat) (locked : Bool) (rs : List WriteResult) :
    Except Assertion (Socket τ × Option Report × Bool) :=
  if s.type = .invalid ∨ s.id ≠ id then .ok (s, some .close, false)
  else do
    let r ← if nomoreSendingData s then .ok (s, none) else sendBuffer s locked rs
    if r.2 = some .close then return (r.1, r.2, false)
    else if nomoreSendingData r.1 then return (r.1, none, true)
    else return ({ r.1 with type := .halfclose }, none, false)

/-- What `close_socket` comes to. -/
inductive CloseCase (s : Socket τ) (id : Nat) (locked : Bool) (rs : List WriteResult) :
    Except Assertion (Socket τ × Option Report × Bool) → Prop
  | other (h : s.type = .invalid ∨ s.id ≠ id) :
      CloseCase s id locked rs (.ok (s, some .close, false))
  | nomore (hid : ¬ (s.type = .invalid ∨ s.id ≠ id)) (h : nomoreSendingData s) :
      CloseCase s id locked rs (.ok (s, none, true))
  | failed {a : Assertion} (hid : ¬ (s.type = .invalid ∨ s.id ≠ id))
      (hsend : sendBuffer s locked rs = .error a) : CloseCase s id locked rs (.error a)
  | closed {t : Socket τ} (hid : ¬ (s.type = .invalid ∨ s.id ≠ id))
      (hsend : sendBuffer s locked rs = .ok (t, some .close)) :
      CloseCase s id locked rs (.ok (t, some .close, false))
  | drained {t : Socket τ} {r : Option Report} (hid : ¬ (s.type = .invalid ∨ s.id ≠ id))
      (hsend : sendBuffer s locked rs = .ok (t, r)) (hr : r ≠ some .close)
      (h : nomoreSendingData t) : CloseCase s id locked rs (.ok (t, none, true))
  | half {t : Socket τ} {r : Option Report} (hid : ¬ (s.type = .invalid ∨ s.id ≠ id))
      (hsend : sendBuffer s locked rs = .ok (t, r)) (hr : r ≠ some .close)
      (h : ¬ nomoreSendingData t) :
      CloseCase s id locked rs (.ok ({ t with type := .halfclose }, none, false))

theorem closeSocket_case (s : Socket τ) (id : Nat) (locked : Bool) (rs : List WriteResult) :
    CloseCase s id locked rs (closeSocket s id locked rs) := by
  unfold closeSocket
  split
  · rename_i h
    exact .other h
  · rename_i hid
    by_cases hmore : nomoreSendingData s
    · rw [if_pos hmore]
      dsimp only [bind, Except.bind]
      rw [if_neg (by decide), if_pos hmore]
      exact .nomore hid hmore
    · rw [if_neg hmore]
      cases hsend : sendBuffer s locked rs with
      | error a => exact .failed hid hsend
      | ok r =>
        obtain ⟨t, r⟩ := r
        dsimp only [bind, Except.bind]
        split
        · rename_i hr
          cases hr
          exact .closed hid hsend
        · rename_i hr
          split
          · rename_i h
            exact .drained hid hsend hr h
          · rename_i h
            exact .half hid hsend hr h

/-- A call of `socket_server_send` or `socket_server_send_lowpriority` that does not write directly:
it has found the id in the slot, then it has found that the socket is of TCP, and last it is past
`inc_sending_ref`. -/
inductive Phase
  | ready
  | counting
  | passed
  deriving DecidableEq

/-- The tag of a request tells whether it was counted. -/
structure Call where
  request : Request Bool
  low : Bool
  phase : Phase

inductive Command
  /-- `O`, `B`, `L` or `U`: the socket is set up -/
  | setup (id : Nat) (protocol : Protocol)
  /-- `D` or `P` -/
  | send (request : Request Bool) (low : Bool)
  /-- `K` -/
  | close (id : Nat)

structure Slot where
  index : Nat
  s : Socket Bool
  /-- ids that were reserved, before their command is in the pipe -/
  opening : List (Nat × Protocol)
  calls : List Call
  pipe : List Command
  /-- ids that were returned, or reported by an accept -/
  given : List Nat
  failed : Option Assertion

def Slot.Start (w : Slot) : Prop :=
  w.s.type = .invalid ∧ w.opening = [] ∧ w.calls = [] ∧ w.pipe = [] ∧ w.given = [] ∧ w.failed = none

/-- `reserve_id` can come to this slot with the id. -/
def Slot.Own (w : Slot) (id : Nat) : Prop := hashId id = w.index ∧ id < 2 ^ 31

inductive SlotEvent
  /-- a thread reserves the slot for an id -/
  | reserve (id : Nat) (protocol : Protocol)
  /-- the command is in the pipe, and the id is returned -/
  | opened (i : Nat)
  | accept (id : Nat)
  | send (request : Request Bool) (low : Bool)
  /-- `inc_sending_ref` reads the protocol -/
  | protocol (i : Nat)
  | count (i : Nat)
  /-- the request is in the pipe -/
  | push (i : Nat)
  | close (id : Nat)
  /-- the next command; how a socket is set up, whether a direct write has the lock, and the answers
  of `write` come from outside -/
  | command (setup : SocketType) (locked : Bool) (rs : List WriteResult)
  /-- a direct write or an event of the socket, which leaves `s` -/
  | other (s : Socket Bool)

def Socket.Touches (s s' : Socket Bool) : Prop :=
  s'.id = s.id ∧ s'.protocol = s.protocol ∧ s'.sending = s.sending ∧
    s.type ≠ .invalid ∧ s.type ≠ .reserve ∧ s'.type ≠ .reserve

def Slot.failing (w : Slot) (a : Assertion) : Slot := { w with failed := some a }

/-- The socket thread goes on with the slot as it is after a command. -/
def Slot.with (w : Slot) (r : Except Assertion (Socket Bool)) : Slot :=
  match r with
  | .ok s => { w with s := s }
  | .error a => w.failing a

/-- How the socket thread sets up a socket: `new_fd` is not reached when the type that is left is
`SOCKET_TYPE_INVALID`. -/
def setup (s : Socket Bool) (id : Nat) (protocol : Protocol) (type : SocketType) : Socket Bool :=
  if type = .invalid then { s with type := .invalid } else { newFd s id protocol with type := type }

/-- `ctrl_cmd`. -/
def ctrlCmd (s : Socket Bool) (type : SocketType) (locked : Bool) (rs : List WriteResult) :
    Command → Except Assertion (Socket Bool)
  | .setup id protocol => .ok (setup s id protocol type)
  | .send request low => decSendingRef (sendSocket s request low).1 request.id
  | .close id => do
    let r ← closeSocket s id locked rs
    return if r.2.2 then forceClose r.1 else r.1

def SetupType : SocketType → Prop
  | .invalid | .plisten | .connecting | .connected | .bind => True
  | _ => False

/-- The steps; nothing happens after an assertion has failed. -/
inductive Slot.Step : Slot → SlotEvent → Slot → Prop
  | reserve {w : Slot} {id : Nat} {protocol : Protocol} (hok : w.failed = none) (hid : w.Own id)
      (htype : w.s.type = .invalid) :
      Step w (.reserve id protocol)
        { w with s := reserveId w.s id, opening := (id, protocol) :: w.opening }
  | opened {w : Slot} {i : Nat} {o : Nat × Protocol} (hok : w.failed = none)
      (hi : w.opening[i]? = some o) :
      Step w (.opened i)
        { w with
          opening := w.opening.eraseIdx i
          pipe := w.pipe ++ [.setup o.1 o.2]
          given := o.1 :: w.given }
  | accept {w : Slot} {id : Nat} (hok : w.failed = none) (hid : w.Own id)
      (htype : w.s.type = .invalid) : Step w (.accept id)
        { w with s := setup (reserveId w.s id) id .tcp .paccept, given := id :: w.given }
  | send {w : Slot} {request : Request Bool} {low : Bool} (hok : w.failed = none)
      (hgiven : request.id ∈ w.given) (hid : w.s.id = request.id) (htype : w.s.type ≠ .invalid) :
      Step w (.send request low) { w with calls := ⟨request, low, .ready⟩ :: w.calls }
  | protocol {w : Slot} {i : Nat} {c : Call} (hok : w.failed = none) (hi : w.calls[i]? = some c)
      (hready : c.phase = .ready) :
      Step w (.protocol i)
        { w with
          calls := w.calls.set i
            (if w.s.protocol = .tcp then { c with phase := .counting }
             else ⟨{ c.request with tag := false }, c.low, .passed⟩) }
  | count {w : Slot} {i : Nat} {c : Call} {s : Socket Bool} (hok : w.failed = none)
      (hi : w.calls[i]? = some c) (hcounting : c.phase = .counting)
      (hs : incSendingRef w.s c.request.id = some s) :
      Step w (.count i)
        { w with
          s := s
          calls := w.calls.set i
            ⟨{ c.request with tag := s.sending ≠ w.s.sending }, c.low, .passed⟩ }
  | push {w : Slot} {i : Nat} {c : Call} (hok : w.failed = none) (hi : w.calls[i]? = some c)
      (hpassed : c.phase = .passed) :
      Step w (.push i)
        { w with calls := w.calls.eraseIdx i, pipe := w.pipe ++ [.send c.request c.low] }
  | close {w : Slot} {id : Nat} (hok : w.failed = none) (hgiven : id ∈ w.given) :
      Step w (.close id) { w with pipe := w.pipe ++ [.close id] }
  | command {w : Slot} {c : Command} {pipe : List Command} {type : SocketType} {locked : Bool}
      {rs : List WriteResult} (hok : w.failed = none) (hpipe : w.pipe = c :: pipe)
      (htype : SetupType type) :
      Step w (.command type locked rs) ({ w with pipe := pipe }.with (ctrlCmd w.s type locked rs c))
  | other {w : Slot} {s : Socket Bool} (hok : w.failed = none) (hs : w.s.Touches s) :
      Step w (.other s) { w with s := s }

end XsServer.SocketServer
