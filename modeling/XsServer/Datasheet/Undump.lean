import XsServer.Lib.Bytes

/-! `ctd.dump` of `datasheet/dump.lua`, which lays out a table as a document: the index of the
tables, the tables, and the strings, each with a zero byte after it.  Then the two readers of a
document: `ctd.undump`, with its positions from 1 on, and the proxies of `lua-datasheet.c` on a
little-endian machine, with offsets from 0 on.  A read outside the document is `none`, and so is an
error. -/

namespace XsServer.Datasheet

open XsServer.Lib

/-! ### The document of a table -/

/-- A value of a datasheet.  A table is its array part and its other entries, in the order of
`pairs`, with `τ` for its identity. -/
inductive Value (τ : Type)
  | integer (n : Int32)
  /-- a number in single precision, by its bits -/
  | real (bits : UInt32)
  | boolean (b : Bool)
  | string (s : List UInt8)
  | table (id : τ) (array : List (Value τ)) (dict : List (List UInt8 × Value τ))

/-- The 32-bit integer that a single is, if it is one. -/
def tointeger (bits : UInt32) : Option Int32 :=
  let exponent := bits.toNat / 2 ^ 23 % 2 ^ 8
  let fraction := bits.toNat % 2 ^ 23
  let magnitude : Option Nat :=
    if exponent = 0 then if fraction = 0 then some 0 else none
    else if exponent < 150 then
      if (2 ^ 23 + fraction) % 2 ^ (150 - exponent) = 0 then
        some ((2 ^ 23 + fraction) / 2 ^ (150 - exponent))
      else none
    else if exponent < 255 then some ((2 ^ 23 + fraction) * 2 ^ (exponent - 150))
    else none
  magnitude.bind fun m =>
    let n : Int := if 2 ^ 31 ≤ bits.toNat then -m else m
    if n ≤ 0x7FFFFFFF ∧ n ≥ -(0x7FFFFFFF + 1) then some (Int32.ofInt n) else none

/-- `string.pack` raises an error for a number that does not fit, and a call for which the Lua stack
has no room raises one too. -/
inductive Fault
  | overflow (n : Nat)
  | stackOverflow
  deriving DecidableEq

/-- The loops over a table, each with registers of its own below a nested call. -/
inductive Loop
  | array
  | dict
  deriving DecidableEq

/-- What the Lua stack has room for: `dump_table` at a place, by the loops from the innermost
outwards; `decode` at a place, with the number of results of `string.unpack` there; and the number
of its results for the index. -/
structure Stack where
  dump : List Loop → Bool
  undump : List Loop → Option Nat
  index : Nat

/-- `string.pack("<i4", n)` -/
def packI4 (n : Nat) : Except Fault (List UInt8) :=
  if n < 2 ^ 31 then .ok (Bytes.le 4 n) else .error (.overflow n)

/-- `string.pack("<I4", n)` -/
def packU4 (n : Nat) : Except Fault (List UInt8) :=
  if n < 2 ^ 32 then .ok (Bytes.le 4 n) else .error (.overflow n)

/-- The document while it grows: `table`, with `table_n` elements, `strings` with their offsets in
their order, and `offset`. -/
structure Doc where
  table : List (List UInt8)
  strings : List (List UInt8 × Nat)
  offset : Nat

def Doc.new : Doc := ⟨[], [], 0⟩

abbrev Cell := UInt8 × List UInt8

/-- The offset of a string, which is added if it is new. -/
def Doc.intern (doc : Doc) (v : List UInt8) : Doc × Nat :=
  match doc.strings.lookup v with
  | some offset => (doc, offset)
  | none =>
    ({ doc with offset := doc.offset + v.length + 1, strings := doc.strings ++ [(v, doc.offset)] },
      doc.offset)

def encodeString (doc : Doc) (v : List UInt8) : Except Fault (Doc × Cell) := do
  let (doc, offset) := doc.intern v
  let ev ← packU4 offset
  return (doc, 5, ev)

def align (typeset : List UInt8) : List UInt8 := List.replicate ((4 - typeset.length % 4) % 4) 0

def tableBytes (array : List Cell) (kvs : List (List UInt8 × Cell)) :
    Except Fault (List UInt8) := do
  let array_n ← packI4 array.length
  let dict_n ← packI4 kvs.length
  let typeset := array.map Prod.fst ++ kvs.map fun kv => kv.2.1
  return array_n ++ dict_n ++ typeset ++ align typeset ++ (array.map Prod.snd).flatten ++
    (kvs.map fun kv => kv.1 ++ kv.2.2).flatten

variable {τ : Type}

section Encode

variable (stack : Stack)

mutual

/-- `encode`, with `dump_table` for a table: its place in `doc.table` is taken first. -/
def encode (path : List Loop) (doc : Doc) : Value τ → Except Fault (Doc × Cell)
  | .integer n => .ok (doc, 1, Bytes.le 4 n.toUInt32.toNat)
  | .real bits =>
    match tointeger bits with
    | some n => .ok (doc, 1, Bytes.le 4 n.toUInt32.toNat)
    | none => .ok (doc, 2, Bytes.le 4 bits.toNat)
  | .boolean b => .ok (doc, 3, if b then [0, 0, 0, 1] else [0, 0, 0, 0])
  | .string s => encodeString doc s
  | .table _ array dict =>
    if stack.dump path then do
      let index := doc.table.length
      let (doc, cells) ← encodeArray (.array :: path) { doc with table := doc.table ++ [[]] } array
      let (doc, kvs) ← encodeDict (.dict :: path) doc dict
      let body ← tableBytes cells kvs
      let ev ← packI4 index
      return ({ doc with table := doc.table.set index body }, 4, ev)
    else .error .stackOverflow

def encodeArray (path : List Loop) (doc : Doc) : List (Value τ) → Except Fault (Doc × List Cell)
  | [] => .ok (doc, [])
  | v :: vs => do
    let (doc, cell) ← encode path doc v
    let (doc, cells) ← encodeArray path doc vs
    return (doc, cell :: cells)

def encodeDict (path : List Loop) (doc : Doc) :
    List (List UInt8 × Value τ) → Except Fault (Doc × List (List UInt8 × Cell))
  | [] => .ok (doc, [])
  | (k, v) :: es => do
    let (doc, _, kv) ← encodeString doc k
    let (doc, cell) ← encode path doc v
    let (doc, kvs) ← encodeDict path doc es
    return (doc, (kv, cell) :: kvs)

end

end Encode

/-- The offsets of the tables in the index, and where they end. -/
def packIndex (offset : Nat) : List (List UInt8) → Except Fault (List UInt8 × Nat)
  | [] => .ok ([], offset)
  | v :: table => do
    let w ← packU4 offset
    let (index, stop) ← packIndex (offset + v.length) table
    return (w ++ index, stop)

/-- `table.concat(doc.strings, "\0") .. "\0"` -/
def concatStrings : List (List UInt8) → List UInt8
  | [] => [0]
  | [v] => v ++ [0]
  | v :: strings => v ++ [0] ++ concatStrings strings

/-- The document of a table, whose own index is 0. -/
def dump (stack : Stack) (root : Value τ) : Except Fault (List UInt8) := do
  let (doc, _) ← encode stack [] Doc.new root
  let (index, offset) ← packIndex 0 doc.table
  let stringtbl ← packU4 (4 + 4 + 4 * doc.table.length + offset)
  let table_n ← packU4 doc.table.length
  return stringtbl ++ table_n ++ index ++ doc.table.flatten ++
    concatStrings (doc.strings.map Prod.fst)

/-! ### Its readers -/

/-- `string.unpack("<I4", v, pos)` -/
def unpackU4 (v : List UInt8) (pos : Nat) : Option Nat :=
  let w := (v.drop (pos - 1)).take 4
  if w.length = 4 then some (Bytes.ofLe w) else none

/-- `string.unpack("B", v, pos)` -/
def unpackB (v : List UInt8) (pos : Nat) : Option UInt8 := v[pos - 1]?

def cstring (v : List UInt8) (pos : Nat) : Option (List UInt8) :=
  let s := v.drop (pos - 1)
  if 0 ∈ s then some (s.takeWhile (· ≠ 0)) else none

/-- `string.unpack("z", v, pos)`, with `(int)strlen(data + pos)`: no string has the `size_t` of a
negative length. -/
def unpackZ (v : List UInt8) (pos : Nat) : Option (List UInt8) :=
  (cstring v pos).bind fun s =>
    let len := (Int32.ofNat s.length).toInt
    if len < 0 then none else some (s.take len.toNat)

/-- `result[key] = value` -/
def setKey {α : Type} (dict : List (List UInt8 × α)) (e : List UInt8 × α) :
    List (List UInt8 × α) := dict.filter (fun e' => e'.1 ≠ e.1) ++ [e]

section Undump

variable (v : List UInt8) (stringtbl : Nat)

/-- The first loop of `decode`: a value for each type, four bytes on each time. -/
def decodeArray (value : UInt8 → Nat → Option (Value Nat)) :
    List UInt8 → Nat → Option (List (Value Nat) × Nat)
  | [], offset => some ([], offset)
  | t :: types, offset => do
    let x ← value t offset
    let (xs, stop) ← decodeArray value types (offset + 4)
    return (x :: xs, stop)

/-- The second loop: a key and a value for each type. -/
def decodeDict (value : UInt8 → Nat → Option (Value Nat)) :
    List UInt8 → Nat → List (List UInt8 × Value Nat) → Option (List (List UInt8 × Value Nat))
  | [], _, result => some result
  | t :: types, offset, result => do
    let sindex ← unpackU4 v offset
    let key ← unpackZ v (stringtbl + sindex)
    let x ← value t (offset + 4)
    decodeDict value types (offset + 8) (setKey result (key, x))

/-- `value`, with `decode` for the tables. -/
def decodeValue (table : Nat → Option (Value Nat)) (t : UInt8) (off : Nat) : Option (Value Nat) :=
  if t = 1 then (unpackU4 v off).map fun m => .integer (UInt32.ofNat m).toInt32
  else if t = 2 then (unpackU4 v off).map fun m => .real (UInt32.ofNat m)
  else if t = 3 then (unpackU4 v off).map fun m => .boolean (m ≠ 0)
  else if t = 4 then (unpackU4 v off).bind table
  else if t = 5 then
    (unpackU4 v off).bind fun sindex => (unpackZ v (stringtbl + sindex)).map .string
  else none

/-- `decode`, as deep as `fuel` tables.  The number of a table, for `tblidx`, is its identity. -/
def decode (stack : Stack) (index : List Nat) (header : Nat) :
    Nat → List Loop → Nat → Option (Value Nat)
  | 0, _, _ => none
  | fuel + 1, path, n => do
    let results ← stack.undump path
    let word ← index[n]?
    let toffset := word + header
    let array ← unpackU4 v toffset
    let dict ← unpackU4 v (toffset + 4)
    -- "too many results"
    if results < array + dict then none
    let types ← (List.range (array + dict)).mapM fun i => unpackB v (toffset + 8 + i)
    let offset := (array + dict + 8 + 3) / 4 * 4 + toffset
    let value loop := decodeValue v stringtbl (decode stack index header fuel (loop :: path))
    let (xs, offset) ← decodeArray (value .array) (types.take array) offset
    let result ← decodeDict v stringtbl (value .dict) (types.drop array) offset []
    return .table n xs result

end Undump

def undump (stack : Stack) (fuel : Nat) (v : List UInt8) : Option (Value Nat) := do
  let stringtbl ← unpackU4 v 1
  let n ← unpackU4 v 5
  if stack.index < n then none
  let index ← (List.range n).mapM fun i => unpackU4 v (9 + 4 * i)
  let header := 4 + 4 + 4 * n + 1
  decode v (stringtbl + 1) stack index header fuel [] 0

/-! ### The proxies -/

/-- A value as `pushvalue` pushes it. -/
inductive LuaValue
  | nil
  | integer (n : Int32)
  | number (bits : UInt32)
  | boolean (b : Bool)
  | proxy (index : Nat)
  | string (s : List UInt8)
  deriving DecidableEq

def INVALID_OFFSET : Nat := 0xffffffff

section Reader

variable (data : List UInt8)

/-- The four bytes at `data + off`. -/
def getuint32 (off : Nat) : Option Nat := unpackU4 data (off + 1)

/-- `doc->strtbl` -/
def strtbl : Option Nat := getuint32 data 0

/-- `doc->n` -/
def count : Option Nat := getuint32 data 4

/-- The offset of a table, `some none` for `NULL`. -/
def gettable (index : Nat) : Option (Option Nat) := do
  let off ← getuint32 data (4 + 4 + 4 * index)
  if off = INVALID_OFFSET then return none
  let n ← count data
  return some (4 + 4 + n * 4 + off)

/-- A table with the metatable, `none` for an error.  `NODECACHE` has one for each address.  The
index is an `int`, so that one from 2^31 on is negative. -/
def createProxy (index : Nat) : Option LuaValue :=
  if 2 ^ 31 ≤ index then none
  else (gettable data index).bind fun t => t.map fun _ => .proxy index

def pushvalue (off : Nat) (type : UInt8) : Option LuaValue :=
  if type = 0 then some .nil
  else if type = 1 then (getuint32 data off).map fun m => .integer (UInt32.ofNat m).toInt32
  else if type = 2 then (getuint32 data off).map fun m => .number (UInt32.ofNat m)
  else if type = 3 then (getuint32 data off).map fun m => .boolean (m ≠ 0)
  else if type = 4 then (getuint32 data off).bind (createProxy data)
  else if type = 5 then do
    let base ← strtbl data
    let sindex ← getuint32 data off
    (cstring data (base + sindex + 1)).map .string
  else none

/-- The entries that `copytable` copies to a proxy. -/
structure Copied where
  array : List LuaValue
  dict : List (List UInt8 × LuaValue)

def copyArray : List UInt8 → Nat → Option (List LuaValue × Nat)
  | [], off => some ([], off)
  | type :: types, off => do
    let x ← pushvalue data off type
    let (xs, stop) ← copyArray types (off + 4)
    return (x :: xs, stop)

def copyDict : List UInt8 → Nat → List (List UInt8 × LuaValue) →
    Option (List (List UInt8 × LuaValue))
  | [], _, dict => some dict
  | type :: types, off, dict => do
    let key ← pushvalue data off 5
    let x ← pushvalue data (off + 4) type
    match key with
    | .string key => copyDict types (off + 8) (setKey dict (key, x))
    | _ => none

/-- The sum of the two counts is an `uint32_t`. -/
def copytable (index : Nat) : Option Copied := do
  let n ← count data
  if n ≤ index then none
  let t ← (← gettable data index)
  let array ← getuint32 data t
  let dict ← getuint32 data (t + 4)
  let types ← (List.range (array + dict)).mapM fun i => unpackB data (t + 8 + i + 1)
  let off := t + 4 + 4 + (array + dict + 3) % 2 ^ 32 / 4 * 4
  let (xs, off) ← copyArray data (types.take array) off
  let es ← copyDict data (types.drop array) off []
  return ⟨xs, es⟩

/-- A key of a table: the integer after `i`, or a string. -/
inductive Key
  | index (i : Nat)
  | name (s : List UInt8)

/-- `lua_rawget` after the copy -/
def Copied.get (copied : Copied) : Key → LuaValue
  | .index i => (copied.array[i]?).getD .nil
  | .name s => (copied.dict.lookup s).getD .nil

/-- The value at the end of a path, each table of it read by `lindex`.  It is an error to index
anything else. -/
def readPath (x : LuaValue) : List Key → Option LuaValue
  | [] => some x
  | key :: path =>
    match x with
    | .proxy index => (copytable data index).bind fun copied => readPath (copied.get key) path
    | _ => none

end Reader

end XsServer.Datasheet
