import XsServer.Lib.Bytes

/-! The harbor service, `service_harbor.c`: messages to services of other nodes wait for the handle
of a name and for the connection to its harbor. -/

namespace XsServer.Remote

open Lib

def HEADER_COOKIE_LENGTH : Nat := 12

def UINT32_MAX : Nat := 0xffffffff

def HANDLE_MASK : UInt32 := 0xffffff

def HANDLE_REMOTE_SHIFT : UInt32 := 24

def PTYPE_TEXT : UInt8 := 0

def PTYPE_ERROR : UInt8 := 7

/-- `struct remote_message_header` -/
structure Header where
  source : UInt32
  destination : UInt32
  session : UInt32
  deriving DecidableEq

/-- `struct harbor_msg` -/
structure HarborMsg where
  header : Header
  buffer : List UInt8
  deriving DecidableEq

/-- `struct harbor_msg_queue`, the oldest message first. -/
abbrev Queue := List HarborMsg

/-- The ring has 1024 slots at first, of which one stays free, and is doubled when it is full;
`none` where its size, an `int`, would overflow. -/
def pushQueue (queue : Queue) (m : HarborMsg) : Option Queue :=
  if queue.length < 2 ^ 30 - 1 then some (queue ++ [m]) else none

abbrev Name := List UInt8

/-- `struct keyvalue`; a name that is not in the map has no value and no queue. -/
structure KeyValue where
  value : UInt32
  queue : Option Queue

structure Size where
  bytes : List UInt8
  lt : bytes.length < 4
  deriving DecidableEq

def Size.zero : Size := ⟨[], Nat.zero_lt_succ 3⟩

/-- The fields `status`, `length`, `read`, `size` and `recv_buffer` of `struct slave`. -/
inductive Status
  | wait
  | handshake
  | header (size : Size)
  | content (length : Nat) (recv : List UInt8)
  | down
  deriving DecidableEq

/-- `struct slave` -/
structure Slave where
  fd : Int32
  queue : Option Queue
  status : Status

/-- `struct harbor` -/
structure Harbor where
  id : UInt8
  slave : UInt32
  map : Name → KeyValue
  s : UInt8 → Slave

/-- What the service does outside: what it writes to sockets, and the messages that it sends. -/
inductive Effect
  | write (fd : Int32) (bytes : List UInt8)
  | send (source destination : UInt32) (type : UInt8) (session : Int32) (msg : List UInt8)
  | start (fd : Int32)
  | close (fd : Int32)
  /-- `skynet_error` -/
  | error
  deriving DecidableEq

def harborInit (id : UInt8) (slave : UInt32) : Harbor where
  id := id
  slave := slave
  map := fun _ => ⟨0, none⟩
  s := fun _ => ⟨0, none, .wait⟩

def setSlave (h : Harbor) (id : UInt8) (s : Slave) : Harbor :=
  { h with s := Function.update h.s id s }

def setNode (h : Harbor) (name : Name) (node : KeyValue) : Harbor :=
  { h with map := Function.update h.map name node }

def harborOf (handle : UInt32) : UInt8 := (handle >>> HANDLE_REMOTE_SHIFT).toUInt8

/-- The type in the high byte, and the low bytes of a handle. -/
def cookieDestination (type : UInt8) (handle : UInt32) : UInt32 :=
  (type.toUInt32 <<< HANDLE_REMOTE_SHIFT) ||| (handle &&& HANDLE_MASK)

def closeHarbor (h : Harbor) (id : UInt8) : Harbor × List Effect :=
  let s := h.s id
  (setSlave h id ⟨s.fd, none, .down⟩, if s.fd ≠ 0 then [.close s.fd] else [])

def headerToMessage (header : Header) : List UInt8 :=
  Bytes.be 4 header.source.toNat ++ Bytes.be 4 header.destination.toNat ++
    Bytes.be 4 header.session.toNat

def fromBigendian (message : List UInt8) : UInt32 := UInt32.ofNat (Bytes.ofBe (message.take 4))

def messageToHeader (message : List UInt8) : Header :=
  ⟨fromBigendian message, fromBigendian (message.drop 4), fromBigendian (message.drop 8)⟩

def sendRemote (fd : Int32) (buffer : List UInt8) (cookie : Header) : List Effect :=
  let szHeader := buffer.length + HEADER_COOKIE_LENGTH
  if szHeader > UINT32_MAX then [.error]
  else [.write fd (Bytes.be 4 szHeader ++ buffer ++ headerToMessage cookie)]

/-- A message for a service of this harbor, of which `alive` says whether `skynet_send` finds it.
What `skynet_send` returns is the session then, which may be negative too. -/
def sendLocal (alive : UInt32 → Bool) (source destination : UInt32) (type : UInt8)
    (session : Int32) (msg : List UInt8) : List Effect :=
  .send source destination type session msg ::
    if alive destination ∧ 0 ≤ session then []
    else if type ≠ PTYPE_ERROR then [.send destination source PTYPE_ERROR session [], .error]
    else [.error]

def localHandle (h : Harbor) (destination : UInt32) : UInt32 :=
  (destination &&& HANDLE_MASK) ||| (h.id.toUInt32 <<< HANDLE_REMOTE_SHIFT)

/-- `none` where the header would lie before the message. -/
def forwardLocalMessage (alive : UInt32 → Bool) (h : Harbor) (msg : List UInt8) :
    Option (List Effect) :=
  if msg.length < HEADER_COOKIE_LENGTH then none
  else
    let sz := msg.length - HEADER_COOKIE_LENGTH
    let header := messageToHeader (msg.drop sz)
    some (sendLocal alive header.source (localHandle h header.destination)
      (harborOf header.destination) (Int32.ofUInt32 header.session) (msg.take sz))

def dispatchQueue (h : Harbor) (id : UInt8) : Harbor × List Effect :=
  let s := h.s id
  match s.queue with
  | none => (h, [])
  | some queue =>
    (setSlave h id { s with queue := none },
      queue.flatMap fun m => sendRemote s.fd m.buffer m.header)

/-- The queue of a harbor that is not connected, after the queue of a name was moved to it. -/
def moveQueue (queue : Option Queue) (nameQueue : Queue) : Option Queue :=
  match queue with
  | none => some nameQueue
  | some queue => nameQueue.foldlM pushQueue queue

/-- `dispatch_name_queue` for the queue of a name, without the release of the queue. -/
def dispatchNameQueue (h : Harbor) (handle : UInt32) (queue : Queue) :
    Option (Harbor × List Effect) :=
  let id := harborOf handle
  let s := h.s id
  if s.fd = 0 then
    if s.status = .down then some (h, [.error])
    else do
      let moved ← moveQueue s.queue queue
      if id = harborOf h.slave then
        some (setSlave h id { s with queue := none }, moved.map fun m =>
          .send m.header.source handle (harborOf m.header.destination)
            (Int32.ofUInt32 m.header.session) m.buffer)
      else some (setSlave h id { s with queue := some moved }, [])
  else
    some (h, queue.flatMap fun m =>
      sendRemote s.fd m.buffer
        { m.header with destination := m.header.destination ||| (handle &&& HANDLE_MASK) })

def setStatus (h : Harbor) (id : UInt8) (status : Status) : Harbor :=
  setSlave h id { h.s id with status := status }

def Status.isContent : Status → Bool
  | .content _ _ => true
  | _ => false

/-- The loop of `push_socket_data`; `none` where it reads outside of a buffer. -/
def pushLoop (alive : UInt32 → Bool) (h : Harbor) (id : UInt8) (buffer : List UInt8) :
    Option (Harbor × List Effect) :=
  match hstatus : (h.s id).status with
  | .handshake =>
    match buffer with
    | [] => none
    | remote :: buffer => do
      if remote ≠ id then
        let r := closeHarbor h id
        some (r.1, .error :: r.2)
      else
        let r := dispatchQueue (setStatus h id (.header .zero)) id
        let r' ← pushLoop alive r.1 id buffer
        some (r'.1, r.2 ++ r'.2)
  | .header size =>
    let need := 4 - size.bytes.length
    if hneed : buffer.length < need then
      some (setStatus h id (.header ⟨size.bytes ++ buffer, by
        rw [List.length_append]
        omega⟩), [])
    else
      let bytes := size.bytes ++ buffer.take need
      if bytes.head? ≠ some 0 then
        let r := closeHarbor h id
        some (r.1, .error :: r.2)
      else
        let h := setStatus h id (.content (Bytes.ofBe (bytes.drop 1)) [])
        if buffer.drop need = [] then some (h, [])
        else pushLoop alive h id (buffer.drop need)
  | .content length recv =>
    let need := length - recv.length
    if buffer.length < need then some (setStatus h id (.content length (recv ++ buffer)), [])
    else do
      let es ← forwardLocalMessage alive h (recv ++ buffer.take need)
      let h := setStatus h id (.header .zero)
      if buffer.drop need = [] then some (h, es)
      else
        let r ← pushLoop alive h id (buffer.drop need)
        some (r.1, es ++ r.2)
  | _ => some (h, [])
  termination_by 2 * buffer.length + (if (h.s id).status.isContent then 1 else 0)
  decreasing_by
    · rw [List.length_cons]
      split <;> omega
    · have := size.lt
      simp only [hstatus, Status.isContent, setStatus, setSlave, Function.update_self,
        List.length_drop, Bool.false_eq_true, if_false, if_true]
      omega
    · simp only [hstatus, Status.isContent, setStatus, setSlave, Function.update_self,
        List.length_drop, Bool.false_eq_true, if_false, if_true]
      omega

def findSlave (h : Harbor) (fd : Int32) : Option UInt8 :=
  ((List.range 255).map fun i => UInt8.ofNat (i + 1)).find? fun id => (h.s id).fd = fd

def pushSocketData (alive : UInt32 → Bool) (h : Harbor) (fd : Int32) (buffer : List UInt8) :
    Option (Harbor × List Effect) :=
  match findSlave h fd with
  | none => some (h, [.error])
  | some id => pushLoop alive h id buffer

def updateName (h : Harbor) (name : Name) (handle : UInt32) : Option (Harbor × List Effect) :=
  let node := h.map name
  let h := setNode h name ⟨handle, none⟩
  match node.queue with
  | none => some (h, [])
  | some queue => dispatchNameQueue h handle queue

def remoteSendHandle (h : Harbor) (source destination : UInt32) (type : UInt8) (session : Int32)
    (msg : List UInt8) : Option (Harbor × List Effect) :=
  let id := harborOf destination
  if id = h.id then some (h, [.send source destination type session msg])
  else
    let s := h.s id
    let header : Header := ⟨source, cookieDestination type destination, session.toUInt32⟩
    if s.fd = 0 ∨ s.status = .handshake then
      if s.status = .down then some (h, [.send destination source PTYPE_ERROR 0 [], .error])
      else do
        let queue ← pushQueue (s.queue.getD []) ⟨header, msg⟩
        some (setSlave h id { s with queue := some queue }, [])
    else some (h, sendRemote s.fd msg header)

def remoteSendName (h : Harbor) (source : UInt32) (name : Name) (type : UInt8) (session : Int32)
    (msg : List UInt8) : Option (Harbor × List Effect) :=
  let node := h.map name
  if node.value = 0 then do
    let header : Header := ⟨source, type.toUInt32 <<< HANDLE_REMOTE_SHIFT, session.toUInt32⟩
    let queue ← pushQueue (node.queue.getD []) ⟨header, msg⟩
    some (setNode h name { node with queue := some queue },
      [.send 0 h.slave PTYPE_TEXT 0 ([0x51, 0x20] ++ name)])
  else remoteSendHandle h source node.value type session msg

/-- The command `S`, or `A` if the other side has accepted. -/
def connect (h : Harbor) (accept : Bool) (fd : Int32) (id : UInt8) : Harbor × List Effect :=
  let s := h.s id
  if fd = 0 ∨ id = 0 then (h, [.error])
  else if s.fd ≠ 0 then (h, [.error])
  else
    let handshake : List Effect := [.start fd, .write fd [h.id]]
    if accept then
      let r := dispatchQueue (setSlave h id ⟨fd, s.queue, .header .zero⟩) id
      (r.1, handshake ++ r.2)
    else (setSlave h id { s with fd := fd, status := .handshake }, handshake)

end XsServer.Remote
