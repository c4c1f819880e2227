import XsServer.Lib.Bytes
import XsServer.Lib.Ring

/-! The packet queue of a gate, `struct queue` of `lua-netpack.c`: a ring of complete packets, and
hash chains of the packets of which a part has arrived.  The queue is the userdata at index 1 of
the Lua stack, which is `nil` at first. -/

namespace XsServer.Net

open Lib Lib.Ring

def QUEUESIZE : Nat := 1024
def HASHSIZE : Nat := 4096

/-- `struct netpack`; `buffer` is what was written to the buffer so far. -/
structure Netpack where
  id : Int32
  size : Nat
  buffer : List UInt8
  deriving DecidableEq, Inhabited

structure Uncomplete where
  pack : Netpack
  read : Int
  header : UInt8
  deriving DecidableEq

/-- `struct queue`; the indices are cells of the ring, and the capacity is an `int` that grows by
`QUEUESIZE`. -/
structure Queue where
  cap : Nat
  head : Nat
  tail : Nat
  hash : Fin HASHSIZE → List Uncomplete
  queue : Array Netpack
  head_lt : head < cap
  tail_lt : tail < cap
  size_eq : queue.size = cap
  cap_le : cap ≤ INT_MAX
  cap_form : ∃ k, cap = QUEUESIZE * k

/-- The chain of a socket.  The sum wraps, as it does on two's complement machines. -/
def hashFd (fd : Int32) : Fin HASHSIZE :=
  ⟨((fd >>> 24) + (fd >>> 12) + fd).toUInt32.toNat % HASHSIZE, Nat.mod_lt _ (by decide)⟩

/-- The first node of the socket in a chain, and the chain without it. -/
def unlink (fd : Int32) : List Uncomplete → Option (Uncomplete × List Uncomplete)
  | [] => none
  | uc :: next =>
    if uc.pack.id = fd then some (uc, next)
    else (unlink fd next).map fun r => (r.1, uc :: r.2)

def findUncomplete (q : Queue) (fd : Int32) : Option (Uncomplete × Queue) :=
  (unlink fd (q.hash (hashFd fd))).map fun r =>
    (r.1, { q with hash := Function.update q.hash (hashFd fd) r.2 })

def newQueue : Queue where
  cap := QUEUESIZE
  head := 0
  tail := 0
  hash := fun _ => []
  queue := Array.replicate QUEUESIZE default
  head_lt := by decide
  tail_lt := by decide
  size_eq := by simp
  cap_le := by decide
  cap_form := ⟨1, rfl⟩

def getQueue (q : Option Queue) : Queue := q.getD newQueue

/-- `none` where `q->cap + QUEUESIZE` or the last `q->head + i` overflows `int`, which the language
leaves undefined. -/
def expandQueue (q : Queue) : Option Queue :=
  if h : q.cap + QUEUESIZE ≤ INT_MAX ∧ q.head + (q.cap - 1) ≤ INT_MAX then
    some
      { q with
        cap := q.cap + QUEUESIZE
        head := 0
        tail := q.cap
        queue := Array.ofFn fun i : Fin (q.cap + QUEUESIZE) =>
          if i < q.cap then q.queue[(q.head + i) % q.cap]! else default
        head_lt := by have := q.head_lt; omega
        tail_lt := Nat.lt_add_of_pos_right (by decide)
        size_eq := Array.size_ofFn
        cap_le := h.1
        cap_form := by
          obtain ⟨k, hk⟩ := q.cap_form
          exact ⟨k + 1, by rw [hk, Nat.mul_succ]⟩ }
  else none

/-- The packet in the cell at `tail`, and `tail` advanced. -/
def store (q : Queue) (np : Netpack) : Queue :=
  { q with
    queue := q.queue.set! q.tail np
    tail := next q.cap q.tail
    tail_lt := next_lt (Nat.zero_lt_of_lt q.tail_lt)
    size_eq := by simpa using q.size_eq }

/-- `push_data`; with `clone`, the packet is a copy of the bytes. -/
def pushData (q : Option Queue) (fd : Int32) (buffer : List UInt8) (size : Nat) : Option Queue :=
  let q := store (getQueue q) ⟨fd, size, buffer⟩
  if q.head = q.tail then expandQueue q else some q

def link (q : Queue) (fd : Int32) (uc : Uncomplete) : Queue :=
  { q with hash := Function.update q.hash (hashFd fd) (uc :: q.hash (hashFd fd)) }

/-- `save_uncomplete`, with the fields that its callers set. -/
def saveUncomplete (q : Option Queue) (fd : Int32) (uc : Uncomplete) : Queue :=
  link (getQueue q) fd uc

def readSize (b0 b1 : UInt8) : Nat := b0.toNat <<< 8 ||| b1.toNat

/-- The packet of which the header and a part of the body has arrived. -/
def partialBody (fd : Int32) (size : Nat) (body : List UInt8) : Uncomplete :=
  ⟨⟨fd, size, body⟩, body.length, 0⟩

def partialHeader (fd : Int32) (header : UInt8) : Uncomplete := ⟨⟨fd, 0, []⟩, -1, header⟩

/-- `push_more`; `none` where it would read past the end of an empty buffer. -/
def pushMore (q : Option Queue) (fd : Int32) : List UInt8 → Option Queue
  | [] => none
  | [b] => some (saveUncomplete q fd (partialHeader fd b))
  | b0 :: b1 :: buffer =>
    let packSize := readSize b0 b1
    if buffer.length < packSize then some (saveUncomplete q fd (partialBody fd packSize buffer))
    else do
      let q ← pushData q fd (buffer.take packSize) packSize
      if 0 < buffer.length - packSize then pushMore q fd (buffer.drop packSize) else some q
  termination_by buffer => buffer.length
  decreasing_by
    simp only [List.length_drop, List.length_cons]
    omega

/-- What `filter` returns after the queue. -/
inductive Filtered
  | nothing
  | data (fd : Int32) (msg : List UInt8) (size : Nat)
  | more
  | error (fd : Int32) (msg : List UInt8)
  | opened (fd : Int32) (addr : List UInt8)
  | close (fd : Int32)
  | warning (fd size : Int32)
  deriving DecidableEq

def closeUncomplete (q : Option Queue) (fd : Int32) : Option Queue :=
  q.map fun q => ((findUncomplete q fd).map (·.2)).getD q

/-- The rest of `filter_data_` for a packet whose header has arrived and of which `need` bytes are
missing. -/
def fillBody (q : Queue) (fd : Int32) (uc : Uncomplete) (buffer : List UInt8) :
    Option (Queue × Filtered) :=
  let need := (uc.pack.size - uc.read).toNat
  if buffer.length < need then
    some (link q fd { uc with
      pack := { uc.pack with buffer := uc.pack.buffer ++ buffer }
      read := uc.read + buffer.length }, .nothing)
  else
    let body := uc.pack.buffer ++ buffer.take need
    if buffer.length - need = 0 then some (q, .data fd body uc.pack.size)
    else do
      let q ← pushData q fd body uc.pack.size
      let q ← pushMore q fd (buffer.drop need)
      some (q, .more)

def filterData (q : Option Queue) (fd : Int32) (buffer : List UInt8) :
    Option (Option Queue × Filtered) := do
  match q.bind fun q => findUncomplete q fd with
  | some (uc, q) =>
    if uc.read < 0 then
      match buffer with
      | [] => none
      | b :: buffer =>
        let r ← fillBody q fd ⟨⟨uc.pack.id, readSize uc.header b, []⟩, 0, uc.header⟩ buffer
        some (r.1, r.2)
    else
      let r ← fillBody q fd uc buffer
      some (r.1, r.2)
  | none =>
    match buffer with
    | [] => none
    | [b] => some (saveUncomplete q fd (partialHeader fd b), .nothing)
    | b0 :: b1 :: buffer =>
      let packSize := readSize b0 b1
      if buffer.length < packSize then
        some (saveUncomplete q fd (partialBody fd packSize buffer), .nothing)
      else if buffer.length = packSize then some (q, .data fd buffer packSize)
      else do
        let q ← pushData q fd (buffer.take packSize) packSize
        let q ← pushMore q fd (buffer.drop packSize)
        some (some q, .more)

/-- `struct skynet_socket_message` by its type. -/
inductive SocketMessage
  | data (id : Int32) (buffer : List UInt8)
  | connect (id : Int32)
  | close (id : Int32)
  | accept (id ud : Int32) (addr : List UInt8)
  | error (id : Int32) (msg : List UInt8)
  | warning (id ud : Int32)
  | other

def lfilter (q : Option Queue) : SocketMessage → Option (Option Queue × Filtered)
  | .data id buffer => filterData q id buffer
  | .connect _ => some (q, .nothing)
  | .close id => some (closeUncomplete q id, .close id)
  | .accept _ ud addr => some (q, .opened ud addr)
  | .error id msg => some (closeUncomplete q id, .error id msg)
  | .warning id ud => some (q, .warning id ud)
  | .other => some (q, .nothing)

def lpop (q : Option Queue) : Option Netpack × Option Queue :=
  match q with
  | none => (none, none)
  | some q =>
    if q.head = q.tail then (none, some q)
    else (some q.queue[q.head]!, some { q with
      head := next q.cap q.head
      head_lt := next_lt (Nat.zero_lt_of_lt q.head_lt) })

/-- `lpack` of a string: `none` where it raises the error `Invalid size (too long) of data`. -/
def lpack (s : List UInt8) : Option (List UInt8) :=
  if 0x10000 ≤ s.length then none
  else some (UInt8.ofNat (s.length >>> 8 &&& 0xff) :: UInt8.ofNat (s.length &&& 0xff) :: s)

end XsServer.Net
