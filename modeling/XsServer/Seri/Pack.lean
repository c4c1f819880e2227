import XsServer.Lib.Bytes

/-! Lua values as `lua-seri.c` sees them, and its writing half, for tables without a `__pairs`
metafield.  The values to pack refer to tables in a heap, which may share tables or be cyclic; a
table that was unpacked is a tree, since all its tables are new.  The Lua stack and the memory are
not bounded. -/

namespace XsServer.Seri

open Lib.Bytes

inductive Scalar
  | nil
  | boolean (b : Bool)
  | integer (n : Int64)
  /-- a double, by its bits -/
  | number (bits : UInt64)
  | lightuserdata (p : UInt64)
  | string (s : List UInt8)
  deriving DecidableEq, Inhabited

inductive OtherType
  | function
  | userdata
  | thread
  deriving DecidableEq

inductive LuaValue
  | scalar (s : Scalar)
  | table (ref : Nat)
  | other (type : OtherType) (ref : Nat)
  deriving DecidableEq

/-- A table that was unpacked, by its entries, and any other value. -/
inductive LuaTree
  | scalar (s : Scalar)
  | table (entries : List (LuaTree × LuaTree))

def isNaN (bits : UInt64) : Bool :=
  bits.toNat / 2 ^ 52 % 2 ^ 11 = 2047 ∧ bits.toNat % 2 ^ 52 ≠ 0

/-- The integer that a double is, if it is one of `lua_Integer`: `luaV_tointeger` with mode 0. -/
def toInteger (bits : UInt64) : Option Int64 :=
  let exponent := bits.toNat / 2 ^ 52 % 2 ^ 11
  let fraction := bits.toNat % 2 ^ 52
  let magnitude : Option Nat :=
    if exponent = 0 then if fraction = 0 then some 0 else none
    else if exponent < 1075 then
      if (2 ^ 52 + fraction) % 2 ^ (1075 - exponent) = 0 then
        some ((2 ^ 52 + fraction) / 2 ^ (1075 - exponent))
      else none
    else if exponent ≤ 1086 then some ((2 ^ 52 + fraction) * 2 ^ (exponent - 1075))
    else none
  magnitude.bind fun m =>
    let n : Int := if 2 ^ 63 ≤ bits.toNat then -m else m
    if -2 ^ 63 ≤ n ∧ n < 2 ^ 63 then some (Int64.ofInt n) else none

/-- The key under which a table stores an entry, `none` where `luaH_newkey` raises an error. -/
def Scalar.toKey : Scalar → Option Scalar
  | .nil => none
  | .number bits =>
    match toInteger bits with
    | some n => some (.integer n)
    | none => if isNaN bits then none else some (.number bits)
  | s => some s

def LuaValue.IsKey : LuaValue → Prop
  | .scalar s => s.toKey = some s
  | _ => True

/-- A table: its entries in the order of `lua_next`, and the border that `lua_rawlen` finds. -/
structure LuaTable where
  entries : List (LuaValue × LuaValue)
  rawlen : Nat
  isKey : ∀ e ∈ entries, e.1.IsKey
  value_ne : ∀ e ∈ entries, e.2 ≠ .scalar .nil
  nodup : (entries.map Prod.fst).Nodup
  rawlen_lt : rawlen < 2 ^ 63
  border : rawlen = 0 ∨ .scalar (.integer (Int64.ofNat rawlen)) ∈ entries.map Prod.fst

abbrev Heap := Nat → LuaTable

/-- `lua_rawgeti`. -/
def LuaTable.rawgeti (t : LuaTable) (i : Nat) : LuaValue :=
  (t.entries.lookup (.scalar (.integer (Int64.ofNat i)))).getD (.scalar .nil)

/-! ### Tables that are being filled -/

def LuaTree.isNil : LuaTree → Bool
  | .scalar .nil => true
  | _ => false

/-- Whether a key of a table is this one.  A table is another key than every other one. -/
def LuaTree.isKey (key : Scalar) : LuaTree → Bool
  | .scalar s => s = key
  | .table _ => false

/-- `t[key] = value` for a key that the table can store. -/
def setKey (t : List (LuaTree × LuaTree)) (key : Scalar) (value : LuaTree) :
    List (LuaTree × LuaTree) :=
  let t := t.filter fun e => !e.1.isKey key
  if value.isNil then t else t ++ [(.scalar key, value)]

/-- `lua_rawset` with a new table as a key, or with any other one. -/
def rawset (t : List (LuaTree × LuaTree)) (key value : LuaTree) :
    Option (List (LuaTree × LuaTree)) :=
  match key with
  | .table entries => some (if value.isNil then t else t ++ [(.table entries, value)])
  | .scalar s => s.toKey.map fun key => setKey t key value

def TYPE_NIL : UInt8 := 0
def TYPE_BOOLEAN : UInt8 := 1
def TYPE_NUMBER : UInt8 := 2
def TYPE_NUMBER_ZERO : UInt8 := 0
def TYPE_NUMBER_BYTE : UInt8 := 1
def TYPE_NUMBER_WORD : UInt8 := 2
def TYPE_NUMBER_DWORD : UInt8 := 4
def TYPE_NUMBER_QWORD : UInt8 := 6
def TYPE_NUMBER_REAL : UInt8 := 8
def TYPE_USERDATA : UInt8 := 3
def TYPE_SHORT_STRING : UInt8 := 4
def TYPE_LONG_STRING : UInt8 := 5
def TYPE_TABLE : UInt8 := 6
def MAX_COOKIE : Int := 32
def BLOCK_SIZE : Nat := 128
def MAX_DEPTH : Nat := 32

def combineType (t v : UInt8) : UInt8 := t ||| v <<< 3

/-! ### The chain of blocks -/

/-- `struct write_block`: the full blocks of the chain, and the bytes written to the current one. -/
structure WriteBlock where
  full : List (List UInt8)
  current : List UInt8
  len : Nat
  full_size : ∀ blk ∈ full, blk.length = BLOCK_SIZE
  ptr_le : current.length ≤ BLOCK_SIZE
  len_eq : len = full.flatten.length + current.length

def wbInit : WriteBlock where
  full := []
  current := []
  len := 0
  full_size := by simp
  ptr_le := by simp
  len_eq := rfl

/-- The block after a current block that is full. -/
def nextBlock (b : WriteBlock) (h : b.current.length = BLOCK_SIZE) : WriteBlock where
  full := b.full ++ [b.current]
  current := []
  len := b.len
  full_size := by
    intro blk hblk
    rcases List.mem_append.mp hblk with hblk | hblk
    · exact b.full_size blk hblk
    · rw [List.mem_singleton.mp hblk, h]
  ptr_le := by simp
  len_eq := by simp [b.len_eq]

/-- The `memcpy` to the current block. -/
def copyTo (b : WriteBlock) (buffer : List UInt8)
    (h : b.current.length + buffer.length ≤ BLOCK_SIZE) : WriteBlock where
  full := b.full
  current := b.current ++ buffer
  len := b.len + buffer.length
  full_size := b.full_size
  ptr_le := by simpa using h
  len_eq := by simp [b.len_eq, Nat.add_assoc]

def withRoom (b : WriteBlock) : WriteBlock :=
  if h : b.current.length = BLOCK_SIZE then nextBlock b h else b

theorem withRoom_lt (b : WriteBlock) : (withRoom b).current.length < BLOCK_SIZE := by
  unfold withRoom
  split
  · exact (by decide : 0 < BLOCK_SIZE)
  · rename_i h; exact Nat.lt_of_le_of_ne b.ptr_le h

def wbPush (b : WriteBlock) (buffer : List UInt8) : WriteBlock :=
  if h : (withRoom b).current.length + buffer.length ≤ BLOCK_SIZE then
    copyTo (withRoom b) buffer h
  else
    wbPush
      (copyTo (withRoom b) (buffer.take (BLOCK_SIZE - (withRoom b).current.length)) (by
        have := (withRoom b).ptr_le
        rw [List.length_take]
        omega))
      (buffer.drop (BLOCK_SIZE - (withRoom b).current.length))
termination_by buffer.length
decreasing_by
  have := withRoom_lt b
  rw [List.length_drop]
  omega

/-- What `seri` copies out of the chain, from the block `blks` starts with. -/
def seri : List (List UInt8) → Nat → List UInt8
  | [], _ => []
  | blk :: blks, len =>
      if BLOCK_SIZE ≤ len then blk ++ seri blks (len - BLOCK_SIZE) else blk.take len

def wbNil (wb : WriteBlock) : WriteBlock := wbPush wb [TYPE_NIL]

def wbBoolean (wb : WriteBlock) (boolean : Bool) : WriteBlock :=
  wbPush wb [combineType TYPE_BOOLEAN (if boolean then 1 else 0)]

def wbInteger (wb : WriteBlock) (v : Int64) : WriteBlock :=
  if v = 0 then wbPush wb [combineType TYPE_NUMBER TYPE_NUMBER_ZERO]
  else if v ≠ v.toInt32.toInt64 then
    wbPush (wbPush wb [combineType TYPE_NUMBER TYPE_NUMBER_QWORD]) (le 8 v.toUInt64.toNat)
  else if v < 0 then
    wbPush (wbPush wb [combineType TYPE_NUMBER TYPE_NUMBER_DWORD]) (le 4 v.toInt32.toUInt32.toNat)
  else if v < 0x100 then
    wbPush (wbPush wb [combineType TYPE_NUMBER TYPE_NUMBER_BYTE]) (le 1 v.toUInt64.toUInt8.toNat)
  else if v < 0x10000 then
    wbPush (wbPush wb [combineType TYPE_NUMBER TYPE_NUMBER_WORD]) (le 2 v.toUInt64.toUInt16.toNat)
  else
    wbPush (wbPush wb [combineType TYPE_NUMBER TYPE_NUMBER_DWORD]) (le 4 v.toUInt64.toUInt32.toNat)

def wbReal (wb : WriteBlock) (bits : UInt64) : WriteBlock :=
  wbPush (wbPush wb [combineType TYPE_NUMBER TYPE_NUMBER_REAL]) (le 8 bits.toNat)

def wbPointer (wb : WriteBlock) (v : UInt64) : WriteBlock :=
  wbPush (wbPush wb [TYPE_USERDATA]) (le 8 v.toNat)

/-- `wb_string`; `len` is the length of `str` as an `int`. -/
def wbString (wb : WriteBlock) (str : List UInt8) (len : Int32) : WriteBlock :=
  let payload := str.take len.toInt.toNat
  if len.toInt < MAX_COOKIE then
    let wb := wbPush wb [combineType TYPE_SHORT_STRING (UInt8.ofInt len.toInt)]
    if 0 < len.toInt then wbPush wb payload else wb
  else if len.toInt < 0x10000 then
    wbPush (wbPush (wbPush wb [combineType TYPE_LONG_STRING 2]) (le 2 len.toInt.toNat)) payload
  else
    wbPush (wbPush (wbPush wb [combineType TYPE_LONG_STRING 4]) (le 4 len.toInt.toNat)) payload

def wbScalar (wb : WriteBlock) : Scalar → WriteBlock
  | .nil => wbNil wb
  | .boolean b => wbBoolean wb b
  | .integer n => wbInteger wb n
  | .number bits => wbReal wb bits
  | .lightuserdata p => wbPointer wb p
  | .string s => wbString wb s (Int32.ofNat s.length)

/-! ### Tables -/

inductive PackError
  /-- `serialize can't pack too depth table` -/
  | tooDeep
  /-- `Unsupport type %s to serialize` -/
  | unsupported (type : OtherType)
  deriving DecidableEq

/-- What packs the values of a table: `pack_one` at the depth of its contents. -/
abbrev Packer := WriteBlock → LuaValue → Except PackError WriteBlock

/-- The byte, and maybe the integer, that a table starts with. -/
def wbTableSize (wb : WriteBlock) (arraySize : Int32) : WriteBlock :=
  if MAX_COOKIE - 1 ≤ arraySize.toInt then
    wbInteger (wbPush wb [combineType TYPE_TABLE (UInt8.ofInt (MAX_COOKIE - 1))]) arraySize.toInt64
  else wbPush wb [combineType TYPE_TABLE (UInt8.ofInt arraySize.toInt)]

def wbTableArray (packOne : Packer) (wb : WriteBlock) (t : LuaTable) (arraySize : Int32) :
    Except PackError WriteBlock :=
  (List.range arraySize.toInt.toNat).foldlM (fun wb i => packOne wb (t.rawgeti (i + 1)))
    (wbTableSize wb arraySize)

/-- Whether `wb_table_hash` skips a key, which is in the array part. -/
def inArray (arraySize : Int) : LuaValue → Bool
  | .scalar (.integer x) => 0 < x.toInt ∧ x.toInt ≤ arraySize
  | _ => false

def wbTableHash (packOne : Packer) (wb : WriteBlock) (t : LuaTable) (arraySize : Int32) :
    Except PackError WriteBlock := do
  let wb ← t.entries.foldlM
    (fun wb e => if inArray arraySize.toInt e.1 then pure wb else do
      let wb ← packOne wb e.1
      packOne wb e.2) wb
  pure (wbNil wb)

def wbTable (packOne : Packer) (wb : WriteBlock) (t : LuaTable) : Except PackError WriteBlock := do
  let arraySize := Int32.ofNat t.rawlen
  let wb ← wbTableArray packOne wb t arraySize
  wbTableHash packOne wb t arraySize

/-- `pack_one` at the depth `MAX_DEPTH + 1 - left`. -/
def packOne (heap : Heap) : Nat → Packer
  | 0, _, _ => throw .tooDeep
  | _ + 1, b, .scalar s => pure (wbScalar b s)
  | left + 1, b, .table ref => wbTable (packOne heap left) b (heap ref)
  | _ + 1, _, .other type _ => throw (.unsupported type)

def packFrom (heap : Heap) (b : WriteBlock) (values : List LuaValue) :
    Except PackError WriteBlock :=
  values.foldlM (packOne heap (MAX_DEPTH + 1)) b

def luaseriPack (heap : Heap) (values : List LuaValue) : Except PackError (List UInt8 × Nat) := do
  let wb ← packFrom heap wbInit values
  pure (seri (wb.full ++ [wb.current]) wb.len, wb.len)

end XsServer.Seri
