import XsServer.SocketServer.Buffers

/-! A connection: the threads that send packets to one socket and close it, its commands in the
pipe, and the socket thread. -/

namespace XsServer.SocketServer

/-- A packet as its sender sees it: its place among all that were sent, by whom and with which
priority, and whether it was written directly. -/
structure Packet (T : Type) where
  no : Nat
  thread : T
  low : Bool
  direct : Bool
  data : List UInt8
  deriving DecidableEq

/-- What a thread gives to send: `struct socket_sendbuffer`, with the bytes at `ptr`. -/
structure Parcel where
  buffer : Nat
  ptr : Nat
  data : List UInt8

/-- Where a thread is in `socket_server_send` or `socket_server_send_lowpriority`. -/
inductive Place
  | idle
  /-- the id is in the slot -/
  | sending (p : Parcel)
  /-- `can_direct_write` held -/
  | trying (p : Parcel)
  /-- with the lock -/
  | locked (p : Parcel)
  /-- with the lock, `can_direct_write` held again -/
  | writing (p : Parcel)
  /-- before `inc_sending_ref` -/
  | queue (p : Parcel) (low : Bool)
  /-- past `inc_sending_ref` -/
  | counted (p : Parcel) (low : Bool)

/-- `struct request_package`, in the pipe. -/
inductive Package (T : Type)
  /-- `D` or `P` -/
  | send (request : Request (Packet T)) (low : Bool)
  /-- `K` -/
  | close

structure Connection (T : Type) where
  /-- the id that the services have -/
  id : Nat
  s : Socket (Packet T)
  place : T → Place
  /-- the thread with the lock of direct writes -/
  lock : Option T
  pipe : List (Package T)
  /-- the socket thread is in `force_close`, before the lock -/
  closing : Bool
  failed : Option Assertion
  reports : List Report
  /-- all packets that were written directly or put in the pipe -/
  log : List (Packet T)
  /-- what was not written yet when the socket was told to close -/
  owed : List (Packet T)
  /-- a write has failed -/
  broken : Bool

variable {T : Type}

/-- `report_connect`, for a connection that is made. -/
def reportConnect {τ : Type} (s : Socket τ) : Socket τ :=
  { s with
    type := .connected
    writeEvent := if nomoreSendingData s then false else s.writeEvent }

/-- A socket that `open_socket` or `start` has left: no packet was sent yet. -/
def Connection.Start (w : Connection T) : Prop :=
  w.s.id = w.id ∧ w.s.protocol = .tcp ∧ w.s.sending = idTag16 w.id * 2 ^ 16 ∧
    (w.s.type = .connecting ∧ w.s.writeEvent = true ∨ w.s.type = .connected) ∧
    w.s.high = [] ∧ w.s.low = [] ∧ w.s.wbSize = 0 ∧ w.s.dw = none ∧ w.s.fd = [] ∧ w.s.done = [] ∧
    (∀ t, w.place t = .idle) ∧ w.lock = none ∧ w.pipe = [] ∧ w.closing = false ∧ w.failed = none ∧
    w.reports = [] ∧ w.log = [] ∧ w.owed = [] ∧ w.broken = false

inductive Action (T : Type)
  /-- `socket_server_send` -/
  | send (t : T) (p : Parcel)
  /-- the first `can_direct_write` -/
  | check (t : T)
  /-- `socket_trylock` -/
  | lock (t : T)
  /-- the second `can_direct_write` -/
  | confirm (t : T)
  /-- `write` has taken `n` bytes, none if it has failed -/
  | write (t : T) (n : Nat)
  /-- `socket_server_send_lowpriority` -/
  | sendLow (t : T) (p : Parcel)
  /-- `inc_sending_ref` -/
  | count (t : T)
  /-- `send_request` -/
  | push (t : T)
  /-- `socket_server_close` -/
  | close
  /-- the next command, with the answers of `write` -/
  | command (rs : List WriteResult)
  /-- a write event -/
  | event (rs : List WriteResult)
  /-- the event of a connection that is made -/
  | connected
  /-- `force_close` has the lock -/
  | force

section

variable [DecidableEq T]

def Connection.goto (w : Connection T) (t : T) (place : Place) : Connection T :=
  { w with place := Function.update w.place t place }

/-- The packet that a thread writes or puts in the pipe now. -/
def Connection.packet (w : Connection T) (t : T) (p : Parcel) (low direct : Bool) : Packet T :=
  ⟨w.log.length, t, low, direct, p.data⟩

def Connection.request (w : Connection T) (t : T) (p : Parcel) (low direct : Bool) :
    Request (Packet T) :=
  ⟨w.id, w.packet t p low direct, p.buffer, p.ptr, p.data⟩

/-- The steps; nothing happens after an assertion has failed, and the socket thread does nothing
else while it waits for the lock. -/
inductive Connection.Step : Connection T → Action T → Connection T → Prop
  | send {w : Connection T} {t : T} {p : Parcel} (hok : w.failed = none)
      (hplace : w.place t = .idle) (hid : w.s.id = w.id) (htype : w.s.type ≠ .invalid) :
      Step w (.send t p) (w.goto t (.sending p))
  | check {w : Connection T} {t : T} {p : Parcel} (hok : w.failed = none)
      (hplace : w.place t = .sending p) :
      Step w (.check t) (w.goto t (if canDirectWrite w.s w.id then .trying p else .queue p false))
  | lock {w : Connection T} {t : T} {p : Parcel} (hok : w.failed = none)
      (hplace : w.place t = .trying p) (hlock : w.lock = none) :
      Step w (.lock t) { w.goto t (.locked p) with lock := some t }
  | busy {w : Connection T} {t : T} {p : Parcel} (hok : w.failed = none)
      (hplace : w.place t = .trying p) (hlock : w.lock ≠ none) :
      Step w (.lock t) (w.goto t (.queue p false))
  | confirm {w : Connection T} {t : T} {p : Parcel} (hok : w.failed = none)
      (hplace : w.place t = .locked p) (hdirect : canDirectWrite w.s w.id) :
      Step w (.confirm t) (w.goto t (.writing p))
  | unlock {w : Connection T} {t : T} {p : Parcel} (hok : w.failed = none)
      (hplace : w.place t = .locked p) (hdirect : ¬ canDirectWrite w.s w.id) :
      Step w (.confirm t) { w.goto t (.queue p false) with lock := none }
  | write {w : Connection T} {t : T} {p : Parcel} {n : Nat} (hok : w.failed = none)
      (hplace : w.place t = .writing p) (hn : n ≤ p.data.length) :
      Step w (.write t n)
        { w.goto t .idle with
          s := directWrite w.s (w.request t p false true) n
          lock := none
          log := w.log ++ [w.packet t p false true] }
  | sendLow {w : Connection T} {t : T} {p : Parcel} (hok : w.failed = none)
      (hplace : w.place t = .idle) (hid : w.s.id = w.id) (htype : w.s.type ≠ .invalid) :
      Step w (.sendLow t p) (w.goto t (.queue p true))
  | count {w : Connection T} {t : T} {p : Parcel} {low : Bool} {s : Socket (Packet T)}
      (hok : w.failed = none) (hplace : w.place t = .queue p low)
      (hs : incSendingRef w.s w.id = some s) :
      Step w (.count t) { w.goto t (.counted p low) with s := s }
  | push {w : Connection T} {t : T} {p : Parcel} {low : Bool} (hok : w.failed = none)
      (hplace : w.place t = .counted p low) :
      Step w (.push t)
        { w.goto t .idle with
          pipe := w.pipe ++ [.send (w.request t p low false) low]
          log := w.log ++ [w.packet t p low false] }
  | close {w : Connection T} (hok : w.failed = none) :
      Step w .close { w with pipe := w.pipe ++ [.close] }
  | taken {w : Connection T} {request : Request (Packet T)} {low : Bool} {pipe : List (Package T)}
      {s : Socket (Packet T)} {rs : List WriteResult} (hok : w.failed = none)
      (hclosing : w.closing = false) (hpipe : w.pipe = .send request low :: pipe)
      (hs : decSendingRef (sendSocket w.s request low).1 request.id = .ok s) :
      Step w (.command rs)
        { w with
          s := s
          pipe := pipe
          reports := w.reports ++ (sendSocket w.s request low).2.toList }
  | notTaken {w : Connection T} {request : Request (Packet T)} {low : Bool}
      {pipe : List (Package T)} {a : Assertion} {rs : List WriteResult} (hok : w.failed = none)
      (hclosing : w.closing = false) (hpipe : w.pipe = .send request low :: pipe)
      (ha : decSendingRef (sendSocket w.s request low).1 request.id = .error a) :
      Step w (.command rs) { w with failed := some a }
  | closed {w : Connection T} {pipe : List (Package T)} {s : Socket (Packet T)} {r : Option Report}
      {force : Bool} {rs : List WriteResult} (hok : w.failed = none) (hclosing : w.closing = false)
      (hpipe : w.pipe = .close :: pipe)
      (hs : closeSocket w.s w.id w.lock.isSome rs = .ok (s, r, force)) :
      Step w (.command rs)
        { w with
          s := s
          pipe := pipe
          closing := force
          reports := w.reports ++ r.toList
          owed := w.owed ++ tags w.s.pending
          broken := w.broken || rs.any WriteResult.fails }
  | notClosed {w : Connection T} {pipe : List (Package T)} {a : Assertion} {rs : List WriteResult}
      (hok : w.failed = none) (hclosing : w.closing = false) (hpipe : w.pipe = .close :: pipe)
      (ha : closeSocket w.s w.id w.lock.isSome rs = .error a) :
      Step w (.command rs) { w with failed := some a }
  | event {w : Connection T} {s : Socket (Packet T)} {r : Option Report} {rs : List WriteResult}
      (hok : w.failed = none) (hclosing : w.closing = false)
      (htype : w.s.type = .connected ∨ w.s.type = .halfclose)
      (hs : sendBuffer w.s w.lock.isSome rs = .ok (s, r)) :
      Step w (.event rs)
        { w with
          s := s
          reports := w.reports ++ r.toList
          broken := w.broken || rs.any WriteResult.fails }
  | notWritten {w : Connection T} {a : Assertion} {rs : List WriteResult} (hok : w.failed = none)
      (hclosing : w.closing = false) (htype : w.s.type = .connected ∨ w.s.type = .halfclose)
      (ha : sendBuffer w.s w.lock.isSome rs = .error a) :
      Step w (.event rs) { w with failed := some a }
  | connected {w : Connection T} (hok : w.failed = none) (hclosing : w.closing = false)
      (htype : w.s.type = .connecting) :
      Step w .connected { w with s := reportConnect w.s, reports := w.reports ++ [.opened] }
  | force {w : Connection T} (hok : w.failed = none) (hclosing : w.closing = true)
      (hlock : w.lock = none) :
      Step w .force
        { w with s := forceClose w.s, closing := false, reports := w.reports ++ [.close] }

end

def idle : Connection Bool where
  id := 5
  s := ⟨5, .connected, .tcp, 0, [], [], 0, 0, none, false, [], []⟩
  place _ := .idle
  lock := none
  pipe := []
  closing := false
  failed := none
  reports := []
  log := []
  owed := []
  broken := false

def plainParcel : Parcel := ⟨16, 16, [104, 105]⟩

theorem idle_start : idle.Start :=
  ⟨rfl, rfl, rfl, .inr rfl, rfl, rfl, rfl, rfl, rfl, rfl, fun _ => rfl, rfl, rfl, rfl, rfl,
   rfl, rfl,
    rfl, rfl⟩

end XsServer.SocketServer
