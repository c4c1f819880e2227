import XsServer.Lib.Logged
import XsServer.ServiceGate.Buffer

/-! `lua-bson.c`: the reader, a window of the memory from which bytes, numbers and strings are
taken, and what is decoded with it, a document to a table and the index of its values. -/

namespace XsServer.Bson

open Lib XsServer.ServiceGate

/-- What a call does with the memory and with lengths, and how far a round of a loop comes. -/
inductive Event
  | read (pos len : Int)
  | handed (len : Int)
  | round (start finish : Int)
  deriving DecidableEq

/-- An error of the Lua state, or a loop that is not at its end yet. -/
inductive Stop
  | error (msg : String)
  | unfinished
  deriving DecidableEq

abbrev Decode := Logged Event Stop

/-- What is stored at each address, counted from the start of the buffer. -/
abbrev Memory := Int → UInt8

/-- `struct bson_reader`. -/
structure BsonReader where
  ptr : Int
  size : Int
  deriving DecidableEq

variable (mem : Memory)

/-- The bytes from an address on, the lowest first, as a number. -/
def littleEndian (p : Int) : Nat → Nat
  | 0 => 0
  | n + 1 => (mem p).toNat + 2 ^ 8 * littleEndian (p + 1) n

def getLength (p : Int) : Int := int32 (littleEndian mem p 4)

def checkReader (br : BsonReader) (sz : Int) : Decode Unit :=
  if br.size < sz then .stop (.error s!"Invalid bson block ({br.size}:{sz})") else pure ()

/-- The pointer goes on by `sz`, which may be negative. -/
def BsonReader.skip (br : BsonReader) (sz : Int) : BsonReader := ⟨br.ptr + sz, int32 (br.size - sz)⟩

def readByte (br : BsonReader) : Decode (UInt8 × BsonReader) := do
  checkReader br 1
  .log (.read br.ptr 1)
  return (mem br.ptr, br.skip 1)

def readInt32 (br : BsonReader) : Decode (Int × BsonReader) := do
  checkReader br 4
  .log (.read br.ptr 4)
  return (int32 (littleEndian mem br.ptr 4), br.skip 4)

def readInt64 (br : BsonReader) : Decode (Int × BsonReader) := do
  checkReader br 8
  .log (.read br.ptr 8)
  return (Int.bmod (littleEndian mem br.ptr 8) (2 ^ 64), br.skip 8)

def readDouble (br : BsonReader) : Decode (Nat × BsonReader) := do
  checkReader br 8
  .log (.read br.ptr 8)
  return (littleEndian mem br.ptr 8, br.skip 8)

def readBytes (br : BsonReader) (sz : Int) : Decode (Int × BsonReader) := do
  .log (.handed sz)
  checkReader br sz
  return (br.ptr, br.skip sz)

/-- The loop of `read_cstring` from `i` on: the place of the first zero in the next bytes. -/
def cstringLoop (ptr : Int) : Nat → Nat → Option Nat
  | 0, _ => none
  | n + 1, i => if mem (ptr + i) = 0 then some i else cstringLoop ptr n (i + 1)

/-- The string without its zero, as pointer and length.  It comes behind a byte or another string,
so the size is not negative. -/
def readCstring (br : BsonReader) : Decode (Int × Nat × BsonReader) :=
  match cstringLoop mem br.ptr br.size.toNat 0 with
  | none => do
    .log (.read br.ptr br.size.toNat)
    .stop (.error "Invalid bson block : cstring")
  | some i => do
    .log (.read br.ptr (i + 1))
    return (br.ptr, i, br.skip (i + 1))

def bytesAt (p : Int) (n : Nat) : List UInt8 := (List.range n).map fun i => mem (p + i)

/-- `luaL_addlstring`; a negative length is a large `size_t`, for which there is no memory. -/
def addlstring (b : List UInt8) (p len : Int) : Decode (List UInt8) := do
  .log (.handed len)
  if len < 0 then
    .stop (.error (if -len ≤ b.length then "buffer too large" else "not enough memory"))
  else do
    .log (.read p len)
    return b ++ bytesAt mem p len.toNat

def pushlstring (p len : Int) : Decode (List UInt8) := addlstring mem [] p len

/-! ### Decoding -/

/-- The types of the values; `BSON_UNDEFINED` has no case in the code. -/
inductive BsonType
  | real
  | string
  | document
  | array
  | binary
  | objectid
  | boolean
  | date
  | null
  | regex
  | dbpointer
  | jscode
  | symbol
  | codews
  | int32
  | timestamp
  | int64
  | minkey
  | maxkey
  deriving DecidableEq

def BsonType.code : BsonType → UInt8
  | .real => 1
  | .string => 2
  | .document => 3
  | .array => 4
  | .binary => 5
  | .objectid => 7
  | .boolean => 8
  | .date => 9
  | .null => 10
  | .regex => 11
  | .dbpointer => 12
  | .jscode => 13
  | .symbol => 14
  | .codews => 15
  | .int32 => 16
  | .timestamp => 17
  | .int64 => 18
  | .minkey => 255
  | .maxkey => 127

def BsonType.all : List BsonType :=
  [.real, .string, .document, .array, .binary, .objectid, .boolean, .date, .null, .regex,
    .dbpointer, .jscode, .symbol, .codews, .int32, .timestamp, .int64, .minkey, .maxkey]

def BsonType.ofCode (c : UInt8) : Option BsonType := BsonType.all.find? fun bt => bt.code = c

inductive Key
  | name (s : List UInt8)
  | index (n : Int)

/-- A value of the Lua state; of a real number the bits. -/
inductive Value
  | real (bits : Nat)
  | boolean (b : Bool)
  | integer (n : Int)
  | string (s : List UInt8)
  | table (fields : List (Key × Value))

/-- `strtol` with base 10. -/
def strtol (s : List UInt8) : Int :=
  let s := s.dropWhile fun c => c = 32 ∨ 9 ≤ c ∧ c ≤ 13
  let (neg, s) := match s with
    | 45 :: s => (true, s)
    | 43 :: s => (false, s)
    | s => (false, s)
  let n := (s.takeWhile fun c => 48 ≤ c ∧ c ≤ 57).foldl (fun n c => 10 * n + (c.toNat - 48 : Int)) 0
  if neg then max (-n) (-2 ^ 63) else min n (2 ^ 63 - 1)

/-- The four bytes of an `int32_t` or `uint32_t`. -/
def int32Bytes (n : Int) : List UInt8 :=
  (List.range 4).map fun i => UInt8.ofNat ((n % 2 ^ 32).toNat / 2 ^ (8 * i))

def makeObject (bt : BsonType) (p len : Int) : Decode Value := do
  return .string (← addlstring mem [0, bt.code] p len)

/-- The cases of `unpack_dict`; `dict` unpacks a document. -/
def unpackValue (dict : BsonReader → Bool → Decode (Value × BsonReader)) (bt : BsonType)
    (t : BsonReader) : Decode (Value × BsonReader) :=
  match bt with
  | .real => do
    let (v, t) ← readDouble mem t
    return (.real v, t)
  | .boolean => do
    let (v, t) ← readByte mem t
    return (.boolean (v ≠ 0), t)
  | .string => do
    let (sz, t) ← readInt32 mem t
    if sz ≤ 0 then .stop (.error s!"Invalid bson string , length = {sz}")
    else do
      let (p, t) ← readBytes t sz
      let s ← pushlstring mem p (sz - 1)
      return (.string s, t)
  | .document => dict t false
  | .array => dict t true
  | .binary => do
    let (sz, t) ← readInt32 mem t
    let (subtype, t) ← readByte mem t
    let (p, t) ← readBytes t sz
    let s ← addlstring mem [0, BsonType.binary.code, subtype] p sz
    return (.string s, t)
  | .objectid => do
    let (p, t) ← readBytes t 12
    let v ← makeObject mem .objectid p 12
    return (v, t)
  | .date => do
    let (date, t) ← readInt64 mem t
    return (.string ([0, BsonType.date.code] ++ int32Bytes (date.tdiv 1000)), t)
  | .minkey | .maxkey | .null => return (.string [0, bt.code], t)
  | .regex => do
    let (p₁, n₁, t) ← readCstring mem t
    let (p₂, n₂, t) ← readCstring mem t
    let b ← addlstring mem [0, BsonType.regex.code] p₁ n₁
    let b ← addlstring mem (b ++ [0]) p₂ n₂
    return (.string (b ++ [0]), t)
  | .int32 => do
    let (n, t) ← readInt32 mem t
    return (.integer n, t)
  | .timestamp => do
    let (inc, t) ← readInt32 mem t
    let (ts, t) ← readInt32 mem t
    return (.string ([0, BsonType.timestamp.code] ++ int32Bytes inc ++ int32Bytes ts), t)
  | .int64 => do
    let (n, t) ← readInt64 mem t
    return (.integer n, t)
  | .dbpointer => do
    let p := t.ptr
    let (sz, t) ← readInt32 mem t
    let (_, t) ← readBytes t (int32 (sz + 12))
    let v ← makeObject mem .dbpointer p (int32 (sz + 16))
    return (v, t)
  | .jscode | .symbol => do
    let p := t.ptr
    let (sz, t) ← readInt32 mem t
    let (_, t) ← readBytes t sz
    let v ← makeObject mem bt p (int32 (sz + 4))
    return (v, t)
  | .codews => do
    let p := t.ptr
    let (sz, t) ← readInt32 mem t
    let (_, t) ← readBytes t (int32 (sz - 4))
    let v ← makeObject mem bt p sz
    return (v, t)

/-- The key of a value; one of an array starts with a number. -/
def pushKey (array : Bool) (p : Int) (klen : Nat) : Decode Key :=
  if array then pure (.index (int32 (strtol (bytesAt mem p klen) + 1)))
  else do return .name (← pushlstring mem p klen)

/-- The loop of `unpack_dict`. -/
def dictLoop (dict : BsonReader → Bool → Decode (Value × BsonReader)) (array : Bool) :
    Nat → BsonReader → Decode (List (Key × Value))
  | n, t =>
    if t.size = 0 then return []
    else
      match n with
      | 0 => .stop .unfinished
      | n + 1 => do
        let (c, t') ← readByte mem t
        let (p, klen, t') ← readCstring mem t'
        let key ← pushKey mem array p klen
        match BsonType.ofCode c with
        | none => .stop (.error s!"Invalid bson type : {c.toNat}")
        | some bt => do
          let (v, t') ← unpackValue mem dict bt t'
          .log (.round t.ptr t'.ptr)
          return (key, v) :: (← dictLoop dict array n t')

/-- The number bounds the depth, and the rounds of each loop. -/
def unpackDict : Nat → BsonReader → Bool → Decode (Value × BsonReader)
  | 0, _, _ => .stop .unfinished
  | n + 1, br, array => do
    let (sz, br) ← readInt32 mem br
    let (bytes, br) ← readBytes br (int32 (sz - 5))
    let t : BsonReader := ⟨bytes, int32 (sz - 5)⟩
    let (last, br) ← readByte mem br
    if last ≠ 0 then .stop (.error "Invalid document end")
    else return (.table (← dictLoop mem (unpackDict n) array n t), br)

def ldecode (n : Nat) : Decode (Value × BsonReader) :=
  unpackDict mem n ⟨0, getLength mem 0⟩ false

/-- The cases of `lmakeindex`: the size of a value that goes to the index, or 0 behind another
one. -/
def skipValue (br : BsonReader) : BsonType → Decode (Int × BsonReader)
  | .int64 | .timestamp | .date | .real => return (8, br)
  | .boolean => return (1, br)
  | .jscode | .symbol | .string => do
    let (sz, br) ← readInt32 mem br
    let (_, br) ← readBytes br sz
    return (0, br)
  | .codews | .array | .document => do
    let (sz, br) ← readInt32 mem br
    let (_, br) ← readBytes br (int32 (sz - 4))
    return (0, br)
  | .binary => do
    let (sz, br) ← readInt32 mem br
    let (_, br) ← readBytes br (int32 (sz + 1))
    return (0, br)
  | .objectid => return (12, br)
  | .minkey | .maxkey | .null => return (0, br)
  | .regex => do
    let (_, _, br) ← readCstring mem br
    let (_, _, br) ← readCstring mem br
    return (0, br)
  | .int32 => return (4, br)
  | .dbpointer => do
    let (sz, br) ← readInt32 mem br
    let (_, br) ← readBytes br (int32 (sz + 12))
    return (0, br)

def indexId (bt : BsonType) (offset : Int) : Int :=
  (BitVec.ofNat 32 bt.code.toNat ||| BitVec.ofInt 32 offset <<< 5).toInt

/-- A value of `lmakeindex`, with its entry when it has one. -/
def indexValue (p : Int) (klen : Nat) (br : BsonReader) (bt : BsonType) :
    Decode (List (List UInt8 × Int) × BsonReader) := do
  let (fieldSize, br) ← skipValue mem br bt
  if 0 < fieldSize then do
    let id := indexId bt br.ptr
    let (_, br) ← readBytes br fieldSize
    let key ← pushlstring mem p klen
    return ([(key, id)], br)
  else return ([], br)

/-- The loop of `lmakeindex`. -/
def indexLoop : Nat → BsonReader → Decode (List (List UInt8 × Int))
  | n, br =>
    if br.size = 0 then return []
    else
      match n with
      | 0 => .stop .unfinished
      | n + 1 => do
        let (c, br') ← readByte mem br
        let (p, klen, br') ← readCstring mem br'
        match BsonType.ofCode c with
        | none => .stop (.error s!"Invalid bson type : {c.toNat}")
        | some bt => do
          let (entry, br') ← indexValue mem p klen br' bt
          .log (.round br.ptr br'.ptr)
          return entry ++ (← indexLoop n br')

def lmakeindex (n : Nat) : Decode (List (List UInt8 × Int)) :=
  indexLoop mem n ⟨4, int32 (getLength mem 0 - 5)⟩

end XsServer.Bson
