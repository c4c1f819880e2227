import XsServer.Lib.Bytes
import XsServer.Lib.Results
import Mathlib.Data.UInt

/-! Frames of `websocket.lua`: how they are written, how a peer may write them, and how they are
read; its two readers, `resolve_accept` and `M.read`, and the messages that a peer sends them. -/

namespace XsServer.Websocket

open XsServer.Lib

def MAX_FRAME_SIZE : Nat := 256 * 1024

inductive Op
  | frame
  | text
  | binary
  | close
  | ping
  | pong
  deriving DecidableEq, Repr

/-- `op_code` of a name. -/
def Op.code : Op → UInt8
  | frame => 0x00
  | text => 0x01
  | binary => 0x02
  | close => 0x08
  | ping => 0x09
  | pong => 0x0A

/-- `op_code` of a number. -/
def opCode (n : UInt8) : Option Op :=
  if n = 0x00 then some .frame
  else if n = 0x01 then some .text
  else if n = 0x02 then some .binary
  else if n = 0x08 then some .close
  else if n = 0x09 then some .ping
  else if n = 0x0A then some .pong
  else none

/-- Why a coroutine does not go on: it waits for more bytes, has ended, has raised an error, or has
a number that does not fit in an `int` of C, where the bytes are no longer those that were sent. -/
inductive Stop
  | wait
  | ended
  | error (message : String)
  | undefined
  deriving DecidableEq, Repr

/-- A byte with the byte of the key that its place selects. -/
def masked (key : List UInt8) (payload : List UInt8) : List UInt8 :=
  payload.mapIdx fun i b => b ^^^ key.getD (i % key.length) 0

/-- `crypt.xor_str`, whose loop counts the bytes of `s1` in an `int`. -/
def xorStr (s1 s2 : List UInt8) : Except Stop (List UInt8) :=
  if s2.length = 0 then .error (.error "Can't xor empty string")
  else if s1.length ≥ 2 ^ 31 then .error .undefined
  else .ok (masked s2 s1)

/-- `write_frame`: what it writes. -/
def writeFrame (op : Op) (payload : List UInt8) (maskingKey : Option UInt32) :
    Except Stop (List UInt8) := do
  let v1 := 0x80 ||| op.code
  let mask : UInt8 := if maskingKey.isSome then 0x80 else 0x00
  let s :=
    if payload.length < 126 then [v1, mask ||| UInt8.ofNat payload.length]
    else if payload.length < 0xffff then [v1, mask ||| 126] ++ Bytes.be 2 payload.length
    else [v1, mask ||| 127] ++ Bytes.be 8 payload.length
  match maskingKey with
  | none => return s ++ payload
  | some key =>
    let key := Bytes.be 4 key.toNat
    let data ← xorStr payload key
    return s ++ key ++ data

abbrev Reader (α : Type) := List UInt8 → Except Stop (α × List UInt8)

/-- `self.read`: it waits for as many bytes, which `lpopbuffer` counts in an `int`. -/
def read (n : Nat) : Reader (List UInt8) := fun s =>
  if n ≥ 2 ^ 31 then .error .undefined
  else if s.length < n then .error .wait
  else .ok (s.take n, s.drop n)

/-- The length of the payload, which the second byte gives or announces. -/
def readLength (v2 : UInt8) : Reader Int := fun s => do
  let len := v2 &&& 0x7f
  if len = 126 then
    let (s, rest) ← read 2 s
    return (Bytes.ofBe s, rest)
  else if len = 127 then
    let (s, rest) ← read 8 s
    return (Int.bmod (Bytes.ofBe s) (2 ^ 64), rest)
  else return (len.toNat, s)

/-- `payload_len>0 and self.read(payload_len) or ""`. -/
def readData (len : Int) : Reader (List UInt8) := fun s =>
  if len > 0 then read len.toNat s else .ok ([], s)

/-- The payload, after its masking key if there is one. -/
def readPayload (mask : Bool) (len : Int) : Reader (List UInt8) := fun s =>
  if mask then do
    let (key, s) ← read 4 s
    let (data, s) ← readData len s
    let data ← xorStr data key
    return (data, s)
  else readData len s

structure Frame where
  fin : Bool
  op : Op
  payload : List UInt8
  deriving DecidableEq, Repr

/-- `read_frame`. -/
def readFrame (server : Bool) : Reader Frame := fun s => do
  let (s, rest) ← read 2 s
  let v1 := s.getD 0 0
  let v2 := s.getD 1 0
  let (len, rest) ← readLength v2 rest
  if server ∧ len > MAX_FRAME_SIZE then
    throw (.error "payload_len is too large")
  let (payload, rest) ← readPayload (v2 &&& 0x80 ≠ 0) len rest
  match opCode (v1 &&& 0x0f) with
  | none => throw (.error "assertion failed!")
  | some op => return (⟨v1 &&& 0x80 ≠ 0, op, payload⟩, rest)

/-! ### Frames on the wire -/

/-- The bytes that announce a length: the low bits of the second byte, and those that follow.  The
form need not be the shortest one. -/
inductive Announces : Nat → UInt8 → List UInt8 → Prop
  | short {n : Nat} (h : n < 126) : Announces n (UInt8.ofNat n) []
  | medium {n : Nat} (h : n < 2 ^ 16) : Announces n 126 (Bytes.be 2 n)
  | long {n : Nat} (h : n < 2 ^ 63) : Announces n 127 (Bytes.be 8 n)

def firstByte (fin : Bool) (op : Op) : UInt8 := (if fin then 0x80 else 0) ||| op.code

def secondByte (mask : Bool) (l : UInt8) : UInt8 := (if mask then 0x80 else 0) ||| l

/-- The bytes of a frame, with a masking key or without. -/
inductive Frame.Wire (f : Frame) : Bool → List UInt8 → Prop
  | plain {l : UInt8} {ext : List UInt8} (h : Announces f.payload.length l ext) :
    f.Wire false ([firstByte f.fin f.op, secondByte false l] ++ (ext ++ f.payload))
  | masked {l : UInt8} {ext key : List UInt8} (h : Announces f.payload.length l ext)
    (hkey : key.length = 4) :
    f.Wire true
      ([firstByte f.fin f.op, secondByte true l] ++ (ext ++ (key ++ masked key f.payload)))

@[simp] theorem masked_length (key payload : List UInt8) :
    (masked key payload).length = payload.length := List.length_mapIdx

theorem masked_masked (key payload : List UInt8) : masked key (masked key payload) = payload := by
  apply List.ext_getElem
  · rw [masked_length, masked_length]
  · intro i _ _
    simp only [masked, List.getElem_mapIdx, UInt8.xor_assoc, UInt8.xor_self, UInt8.xor_zero]

theorem xorStr_masked {key payload : List UInt8} (hkey : key.length = 4)
    (hlt : payload.length < 2 ^ 31) : xorStr (masked key payload) key = .ok payload := by
  rw [xorStr, if_neg (by omega), if_neg (by rw [masked_length]; omega), masked_masked]

variable {n : Nat}

theorem read_append {l : List UInt8} (h : l.length = n) (hn : n < 2 ^ 31)
    (rest : List UInt8) : read n (l ++ rest) = .ok (l, rest) := by
  rw [read, if_neg (by omega), if_neg (by rw [List.length_append]; omega), List.take_left' h,
    List.drop_left' h]

theorem first_bits (fin : Bool) (op : Op) :
    opCode (firstByte fin op &&& 0x0f) = some op ∧
      decide (firstByte fin op &&& 0x80 ≠ 0) = fin := by
  cases fin <;> cases op <;> decide

variable {l : UInt8}

theorem second_bits (mask : Bool) (hl : l.toNat < 128) :
    secondByte mask l &&& 0x7f = l ∧ decide (secondByte mask l &&& 0x80 ≠ 0) = mask := by
  have hall : ∀ mask : Bool, ∀ k < 128,
      secondByte mask (UInt8.ofNat k) &&& 0x7f = UInt8.ofNat k ∧
        decide (secondByte mask (UInt8.ofNat k) &&& 0x80 ≠ 0) = mask := by
    decide +kernel
  have h := hall mask l.toNat hl
  rwa [UInt8.ofNat_toNat] at h

variable {ext : List UInt8}

theorem Announces.lt (h : Announces n l ext) :
    l.toNat < 128 := by
  cases h with
  | short h => rw [UInt8.toNat_ofNat']; omega
  | medium h | long h => decide

theorem Announces.readLength (h : Announces n l ext)
    (mask : Bool) (rest : List UInt8) :
    readLength (secondByte mask l) (ext ++ rest) = .ok ((n : Int), rest) := by
  simp only [Websocket.readLength, (second_bits mask h.lt).1]
  cases h with
  | short h =>
    have htoNat : (UInt8.ofNat n).toNat = n := by
      rw [UInt8.toNat_ofNat']
      omega
    have hne : ∀ k : UInt8, 126 ≤ k.toNat → UInt8.ofNat n ≠ k := by
      rintro k hk rfl
      omega
    rw [if_neg (hne 126 (by decide)), if_neg (hne 127 (by decide)), htoNat]
    rfl
  | medium h =>
    have hback : Bytes.ofBe (Bytes.be 2 n) = n := by
      rw [Bytes.ofBe_be, Nat.mod_eq_of_lt (by exact h)]
    rw [if_pos rfl, read_append (Bytes.be_length ..) (by decide), ok_bind]
    simp only [hback]
    rfl
  | long h =>
    have hback : Bytes.ofBe (Bytes.be 8 n) = n := by
      rw [Bytes.ofBe_be, Nat.mod_eq_of_lt (by omega)]
    rw [if_neg (by decide), if_pos rfl, read_append (Bytes.be_length ..) (by decide), ok_bind]
    simp only [hback]
    rw [Int.bmod_eq_of_le (by omega) (by omega)]
    rfl

theorem readData_append (payload rest : List UInt8) :
    readData payload.length (payload ++ rest) =
      if payload.length < 2 ^ 31 then .ok (payload, rest) else .error .undefined := by
  rw [readData]
  cases payload with
  | nil => rfl
  | cons b payload =>
    rw [if_pos (by rw [List.length_cons]; omega), Int.toNat_natCast]
    split
    case isTrue hlt => exact read_append rfl hlt rest
    case isFalse hlt => exact if_pos (by omega)

theorem readPayload_masked {key : List UInt8} (hkey : key.length = 4) (payload rest : List UInt8) :
    readPayload true payload.length (key ++ (masked key payload ++ rest)) =
      if payload.length < 2 ^ 31 then .ok (payload, rest) else .error .undefined := by
  have hdata := readData_append (masked key payload) rest
  rw [masked_length] at hdata
  rw [readPayload, if_pos rfl, read_append hkey (by decide), ok_bind]
  simp only [hdata]
  split
  case isTrue hlt =>
    rw [ok_bind]
    simp only [xorStr_masked hkey hlt, ok_bind]
    rfl
  case isFalse hlt => rfl

theorem Announces.readFrame (h : Announces n l ext)
    (server fin mask : Bool) (op : Op) (tail : List UInt8) :
    readFrame server ([firstByte fin op, secondByte mask l] ++ (ext ++ tail)) =
      if server = true ∧ n > MAX_FRAME_SIZE then .error (.error "payload_len is too large")
      else (readPayload mask n tail).map fun p => (⟨fin, op, p.1⟩, p.2) := by
  obtain ⟨hop, hfin⟩ := first_bits fin op
  have hmask := (second_bits mask h.lt).2
  have hread : read 2 ([firstByte fin op, secondByte mask l] ++ (ext ++ tail)) =
      .ok ([firstByte fin op, secondByte mask l], ext ++ tail) :=
    read_append (n := 2) rfl (by decide) _
  simp only [Websocket.readFrame, hread, ok_bind, List.getD_cons_zero, List.getD_cons_succ,
    h.readLength, hmask, hop, hfin, gt_iff_lt, Int.ofNat_lt]
  split
  · rfl
  · cases readPayload mask n tail with
    | error e | ok p => rfl

/-- How a frame is read, whatever comes after it. -/
theorem Frame.Wire.read {f : Frame} {mask : Bool} {bytes : List UInt8} (h : f.Wire mask bytes)
    (server : Bool) (rest : List UInt8) :
    readFrame server (bytes ++ rest) =
      if server = true ∧ f.payload.length > MAX_FRAME_SIZE then
        .error (.error "payload_len is too large")
      else if f.payload.length < 2 ^ 31 then .ok (f, rest)
      else .error .undefined := by
  cases h with
  | plain h =>
    rw [List.append_assoc, List.append_assoc, h.readFrame, readPayload,
      if_neg Bool.false_ne_true, readData_append]
    split
    · rfl
    · split <;> rfl
  | masked h hkey =>
    rw [List.append_assoc, List.append_assoc, List.append_assoc, h.readFrame,
      readPayload_masked hkey]
    split
    · rfl
    · split <;> rfl

theorem writeFrame_wire (op : Op) (payload : List UInt8) (maskingKey : Option UInt32)
    (hlen : payload.length < 2 ^ 63) :
    if maskingKey.isSome = true ∧ payload.length ≥ 2 ^ 31 then
      writeFrame op payload maskingKey = .error .undefined
    else ∃ bytes, writeFrame op payload maskingKey = .ok bytes ∧
      Frame.Wire ⟨true, op, payload⟩ maskingKey.isSome bytes := by
  obtain ⟨l, ext, hann, hhead⟩ : ∃ l ext, Announces payload.length l ext ∧
      ∀ v1 mask : UInt8, (if payload.length < 126 then [v1, mask ||| UInt8.ofNat payload.length]
        else if payload.length < 0xffff then [v1, mask ||| 126] ++ Bytes.be 2 payload.length
        else [v1, mask ||| 127] ++ Bytes.be 8 payload.length) = [v1, mask ||| l] ++ ext := by
    by_cases hshort : payload.length < 126
    · exact ⟨_, _, .short hshort, fun _ _ => by rw [if_pos hshort]; rfl⟩
    · by_cases hmedium : payload.length < 0xffff
      · refine ⟨_, _, .medium (by omega), fun _ _ => ?_⟩
        rw [if_neg hshort, if_pos hmedium]
      · refine ⟨_, _, .long hlen, fun _ _ => ?_⟩
        rw [if_neg hshort, if_neg hmedium]
  cases maskingKey with
  | none =>
    rw [if_neg fun h => Bool.false_ne_true h.1]
    refine ⟨_, rfl, ?_⟩
    rw [hhead, List.append_assoc]
    exact .plain hann
  | some key =>
    have hkey : (Bytes.be 4 key.toNat).length = 4 := Bytes.be_length ..
    simp only [writeFrame, xorStr, if_neg (show ¬ (Bytes.be 4 key.toNat).length = 0 by omega),
      Option.isSome_some, true_and, if_true, hhead]
    split
    case isTrue hlong => rfl
    case isFalse hlong =>
      refine ⟨_, rfl, ?_⟩
      rw [List.append_assoc, List.append_assoc]
      exact .masked (f := ⟨true, op, payload⟩) hann hkey

/-- A call of the handler, or a frame that is written. -/
inductive Event
  | message (payload : List UInt8) (op : Op)
  | ping
  | pong
  | close (code : Option Nat) (reason : Option (List UInt8))
  | write (bytes : List UInt8)
  deriving DecidableEq, Repr

def readClose (payload : List UInt8) : Option Nat × Option (List UInt8) :=
  if payload.length > 2 then (some (Bytes.ofBe (payload.take 2)), some (payload.drop 2))
  else (none, none)

/-- `recv_buf` and `recv_count`. -/
structure Recv where
  buf : List (List UInt8)
  count : Nat
  deriving DecidableEq, Repr

/-- What the loop of `resolve_accept` does with a frame, and whether it ends. -/
def react (st : Recv) (f : Frame) : Except Stop (Recv × List Event × Bool) :=
  match f.op with
  | .close => do
    let (code, reason) := readClose f.payload
    let bytes ← writeFrame .close [] none
    return (st, [.write bytes, .close code reason], true)
  | .ping => do
    let bytes ← writeFrame .pong f.payload none
    return (st, [.write bytes, .ping], false)
  | .pong => return (st, [.pong], false)
  | op =>
    if f.fin ∧ st.buf.length = 0 then return (st, [.message f.payload op], false)
    else
      let buf := st.buf ++ [f.payload]
      let count := st.count + f.payload.length
      if count > MAX_FRAME_SIZE then throw (.error "payload_len is too large")
      else if f.fin then return (⟨[], 0⟩, [.message buf.flatten op], false)
      else return (⟨buf, count⟩, [], false)

/-- The loop of `resolve_accept` for as many rounds, and why it stopped if it did.  `closed` tells
whether the websocket is no longer in the pool after these events. -/
def resolveAccept (closed : List Event → Bool) :
    Nat → Recv → List Event → List UInt8 → List Event × Option Stop
  | 0, _, done, _ => (done, none)
  | n + 1, st, done, s =>
    if closed done then (done ++ [.close none none], some .ended)
    else match readFrame true s with
      | .error e => (done, some e)
      | .ok (f, rest) => match react st f with
        | .error e => (done, some e)
        | .ok (st, es, last) =>
          if last then (done ++ es, some .ended) else resolveAccept closed n st (done ++ es) rest

/-- What `M.read` returns. -/
inductive Received
  | data (payload : List UInt8)
  | closed (payload : List UInt8)
  deriving DecidableEq, Repr

/-- `M.read`, for as many rounds. -/
def mRead (server : Bool) : Nat → Option (List (List UInt8)) → Reader (Option Received)
  | 0, _, s => .ok (none, s)
  | n + 1, recvBuf, s => do
    let (f, s) ← readFrame server s
    match f.op with
    | .close => return (some (.closed f.payload), s)
    | .ping =>
      let _ ← writeFrame .pong f.payload none
      mRead server n recvBuf s
    | .pong => mRead server n recvBuf s
    | _ =>
      if f.fin ∧ recvBuf = none then return (some (.data f.payload), s)
      else
        let buf := recvBuf.getD [] ++ [f.payload]
        if f.fin then return (some (.data buf.flatten), s) else mRead server n (some buf) s

/-- The payloads that as many calls of `M.read` return, up to the first that returns none. -/
def mReads (server : Bool) (rounds : Nat) : Nat → List UInt8 → List (List UInt8)
  | 0, _ => []
  | k + 1, s => match mRead server rounds none s with
    | .ok (some (.data payload), s) => payload :: mReads server rounds k s
    | _ => []

/-- `M.write`: what it writes. -/
def mWrite (data : List UInt8) (fmt : Option Op) (maskingKey : Option UInt32) :
    Except Stop (List UInt8) :=
  let fmt := fmt.getD .text
  if fmt = .text ∨ fmt = .binary then writeFrame fmt data maskingKey
  else .error (.error "assertion failed!")

/-- `M.close`: what it writes. -/
def mClose (code : Option UInt16) (reason : Option (List UInt8)) : Except Stop (List UInt8) :=
  let reason := reason.getD []
  writeFrame .close ((code.map fun code => Bytes.be 2 code.toNat ++ reason).getD []) none

/-! ### What a peer sends -/

structure Control where
  pong : Bool
  payload : List UInt8
  mask : Bool
  deriving DecidableEq, Repr

structure Piece where
  payload : List UInt8
  mask : Bool
  deriving DecidableEq, Repr

/-- A message with the pieces in which it is sent, each with the control frames before it. -/
structure Sent where
  binary : Bool
  before : List Control
  first : Piece
  rest : List (List Control × Piece)
  deriving DecidableEq, Repr

def Control.frame (c : Control) : Frame × Bool :=
  (⟨true, if c.pong then .pong else .ping, c.payload⟩, c.mask)

def continuation : List (List Control × Piece) → List (Frame × Bool)
  | [] => []
  | (cs, p) :: rest =>
    cs.map Control.frame ++ (⟨rest.isEmpty, .frame, p.payload⟩, p.mask) :: continuation rest

def Sent.op (m : Sent) : Op := if m.binary then .binary else .text

def Sent.frames (m : Sent) : List (Frame × Bool) :=
  m.before.map Control.frame ++
    (⟨m.rest.isEmpty, m.op, m.first.payload⟩, m.first.mask) :: continuation m.rest

def Sent.payload (m : Sent) : List UInt8 :=
  m.first.payload ++ m.rest.flatMap fun r => r.2.payload

/-- The bytes of frames, masked or not as it is said for each. -/
inductive Wires : List (Frame × Bool) → List UInt8 → Prop
  | nil : Wires [] []
  | cons {f : Frame × Bool} {fs : List (Frame × Bool)} {bytes s : List UInt8}
    (h : f.1.Wire f.2 bytes) (hs : Wires fs s) : Wires (f :: fs) (bytes ++ s)

theorem Wires.append_inv {fs fs' : List (Frame × Bool)} {s : List UInt8}
    (h : Wires (fs ++ fs') s) : ∃ t t', Wires fs t ∧ Wires fs' t' ∧ s = t ++ t' := by
  induction fs generalizing s with
  | nil => exact ⟨[], s, .nil, h, rfl⟩
  | cons f fs ih =>
    cases h with
    | cons hf hs =>
      obtain ⟨t, t', ht, ht', rfl⟩ := ih hs
      exact ⟨_, t', .cons hf ht, ht', (List.append_assoc ..).symm⟩

end XsServer.Websocket
