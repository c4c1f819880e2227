import Mathlib.Data.UInt
import XsServer.Lib.Slots

/-! Shared configuration tables of `lua-sharedata.c`: Lua tables, the `struct table` that is made of
one, and how keys are looked up and visited in it. -/

namespace XsServer.Sharedata

open XsServer.Lib

variable {ρ α : Type}

inductive Key
  | int (n : Int)
  | str (s : List UInt8)
  deriving DecidableEq, Repr

/-- The values that are no tables; `ρ` has the floating point numbers. -/
inductive Scalar (ρ : Type)
  | real (n : ρ)
  | integer (d : Int)
  | string (s : List UInt8)
  | boolean (b : Bool)
  deriving DecidableEq, Repr

/-- A value of a configuration.  Of a table, what `lua_rawlen` gives and the entries in the order in
which `lua_next` visits them. -/
inductive LuaValue (ρ : Type)
  | scalar (x : Scalar ρ)
  | table (border : Nat) (entries : List (Key × LuaValue ρ))

abbrev Entries (ρ : Type) := List (Key × LuaValue ρ)

/-- Why there is no result: no memory, no room for another C call or for the strings, an assertion
that fails, or what C does not define. -/
inductive Fault
  | memory
  | cStackOverflow
  | stackOverflow
  | assertion
  | undefined
  deriving DecidableEq, Repr

def INT_MAX : Nat := 2 ^ 31 - 1

/-- The number of nested C calls at which `luaD_call` fails. -/
def LUAI_MAXCCALLS : Nat := 200

def LUAI_MAXSTACK : Nat := 1000000

/-- `key` and `keytype` of a node. -/
inductive NodeKey
  | integer (key : Int32)
  | string (index : Nat)
  deriving DecidableEq, Repr

structure HashKey where
  key : NodeKey
  keyhash : UInt32
  deriving DecidableEq, Repr

/-- `struct table`, with its values in `α`.  `VALUETYPE_NIL` is `none`. -/
structure ConfTable (α : Type) where
  sizearray : Nat
  array : Nat → Option α
  sizehash : Nat
  hash : Nat → Option (Slot HashKey α)

/-- `union value` of a value that is no table. -/
inductive Stored (ρ : Type)
  | real (n : ρ)
  | integer (d : Int)
  | string (index : Nat)
  | boolean (b : Bool)
  deriving DecidableEq, Repr

inductive Cell (ρ : Type)
  | scalar (x : Stored ρ)
  | table (t : ConfTable (Cell ρ))

/-- The strings of a context, from index 2 on. -/
abbrev Strings := List (List UInt8)

def stringindex (strings : Strings) (s : List UInt8) : Nat × Strings :=
  if s ∈ strings then (strings.idxOf s + 2, strings) else (strings.length + 2, strings ++ [s])

/-- The loop of `calchash`. -/
def calchashLoop (str : List UInt8) (step l1 : Nat) (h : UInt32) : UInt32 :=
  if 0 < step ∧ step ≤ l1 then
    calchashLoop str step (l1 - step)
      (h ^^^ ((h <<< 5) + (h >>> 2) + (str.getD (l1 - 1) 0).toUInt32))
  else h
termination_by l1
decreasing_by omega

def calchash (str : List UInt8) : UInt32 :=
  calchashLoop str ((str.length >>> 5) + 1) str.length (UInt32.ofNat str.length)

def inArray (sizearray : Nat) (n : Int) : Prop := 0 < n ∧ n ≤ sizearray

instance (sizearray : Nat) (n : Int) : Decidable (inArray sizearray n) :=
  inferInstanceAs (Decidable (_ ∧ _))

def integerKey (key : Int32) : HashKey := ⟨.integer key, key.toUInt32⟩

/-- `ishashkey`: the index of a key in the array, or its key in the hash part. -/
def ishashkey (sizearray : Nat) (strings : Strings) : Key → (Nat ⊕ HashKey) × Strings
  | .int n =>
    let key := Int32.ofInt n
    if inArray sizearray key.toInt then (.inl key.toInt.toNat, strings)
    else (.inr (integerKey key), strings)
  | .str s =>
    let (index, strings) := stringindex strings s
    (.inr ⟨.string index, calchash s⟩, strings)

/-- `countsize`: the keys outside the array.  The counter is an `int`. -/
def countsize (sizearray : Nat) : Entries ρ → Nat → Except Fault Nat
  | [], n => .ok n
  | (k, _) :: es, n =>
    if INT_MAX ≤ n then .error .undefined
    else match k with
      | .int nkey => countsize sizearray es (if inArray sizearray nkey then n else n + 1)
      | .str _ => countsize sizearray es (n + 1)

section Conv

variable (conv : LuaValue ρ → Strings → Except Fault (α × Strings))

/-- A table under construction, and the strings so far. -/
structure Fill (α : Type) where
  table : ConfTable α
  strings : Strings

def Fill.setarray (st : Fill α) (key : Nat) (value : α) (strings : Strings) : Fill α where
  table := { st.table with array := Function.update st.table.array (key - 1) (some value) }
  strings := strings

def Fill.sethash (st : Fill α) (hash : Slots HashKey α) (strings : Strings) : Fill α where
  table := { st.table with hash := hash }
  strings := strings

def Fill.mainpos (st : Fill α) (hk : HashKey) : Nat := hk.keyhash.toNat % st.table.sizehash

def fillnocolliding : Entries ρ → Fill α → Except Fault (Fill α)
  | [], st => .ok st
  | (k, v) :: es, st =>
    match ishashkey st.table.sizearray st.strings k with
    | (.inl key, strings) => do
      let (value, strings) ← conv v strings
      fillnocolliding es (st.setarray key value strings)
    | (.inr hk, strings) =>
      match st.table.hash (st.mainpos hk) with
      | none => do
        let (value, strings) ← conv v strings
        let hash := Function.update st.table.hash (st.mainpos hk) (some ⟨hk, none, value, true⟩)
        fillnocolliding es (st.sethash hash strings)
      | some _ => fillnocolliding es { st with strings := strings }

/-- The first empty slot from `emptyslot` on. -/
def findEmpty (t : ConfTable α) (emptyslot : Nat) : Option Nat :=
  (List.range' emptyslot (t.sizehash - emptyslot)).find? fun i => (t.hash i).isNone

def fillcolliding : Entries ρ → Nat → Fill α → Except Fault (Fill α)
  | [], _, st => .ok st
  | (k, v) :: es, emptyslot, st =>
    match ishashkey st.table.sizearray st.strings k with
    | (.inl _, strings) => fillcolliding es emptyslot { st with strings := strings }
    | (.inr hk, strings) =>
      match st.table.hash (st.mainpos hk) with
      | none => .error .undefined
      | some mainpos =>
        if mainpos.key.key = hk.key then fillcolliding es emptyslot { st with strings := strings }
        else match findEmpty st.table emptyslot with
          | none => .error .assertion
          | some i => do
            let (value, strings) ← conv v strings
            let hash := Slots.link st.table.hash (st.mainpos hk) i mainpos hk value
            fillcolliding es (i + 1) (st.sethash hash strings)

/-- The array of a table without a hash part, from index `i` on for `n` elements. -/
def fillarray (entries : Entries ρ) : Nat → Nat → Fill α → Except Fault (Fill α)
  | _, 0, st => .ok st
  | i, n + 1, st =>
    match entries.lookup (.int i) with
    | none => fillarray entries (i + 1) n st
    | some v => do
      let (value, strings) ← conv v st.strings
      fillarray entries (i + 1) n (st.setarray i value strings)

def convtable (border : Nat) (entries : Entries ρ) (strings : Strings) :
    Except Fault (ConfTable α × Strings) := do
  let sizearray := (Int32.ofNat border).toInt
  -- `malloc` gets a huge size for a negative one
  if sizearray < 0 then throw .memory
  let sizearray := sizearray.toNat
  let sizehash ← countsize sizearray entries 0
  let st : Fill α := ⟨⟨sizearray, fun _ => none, sizehash, fun _ => none⟩, strings⟩
  if sizehash ≠ 0 then
    let st ← fillnocolliding conv entries st
    let st ← fillcolliding conv entries 0 st
    return (st.table, st.strings)
  else
    -- `i++` after the last element
    if sizearray = INT_MAX then throw .undefined
    let st ← fillarray conv entries 1 sizearray st
    return (st.table, st.strings)

end Conv

def setscalar (strings : Strings) : Scalar ρ → Stored ρ × Strings
  | .real n => (.real n, strings)
  | .integer d => (.integer d, strings)
  | .string s =>
    let (index, strings) := stringindex strings s
    (.string index, strings)
  | .boolean b => (.boolean b, strings)

/-- `setvalue`, when so many more calls can be nested: each table is one. -/
def setvalue : Nat → LuaValue ρ → Strings → Except Fault (Cell ρ × Strings)
  | _, .scalar x, strings => .ok (.scalar (setscalar strings x).1, (setscalar strings x).2)
  | 0, .table _ _, _ => .error .cStackOverflow
  | calls + 1, .table border entries, strings => do
    let (t, strings) ← convtable (setvalue calls) border entries strings
    return (.table t, strings)

/-! ### Looking up -/

/-- What `lookup_key` is told about a key. -/
inductive Query
  | integer (key : Int32)
  | string (str : List UInt8)
  deriving DecidableEq, Repr

def Query.keyhash : Query → UInt32
  | integer key => key.toUInt32
  | string str => calchash str

def Key.query : Key → Query
  | .int n => .integer (Int32.ofInt n)
  | .str s => .string s

def stringAt (strings : Strings) (index : Nat) : Option (List UInt8) := strings[index - 2]?

def isNode (strings : Strings) (q : Query) (hk : HashKey) : Bool :=
  q.keyhash = hk.keyhash && match hk.key, q with
    | .integer key, .integer key' => key = key'
    | .string index, .string str => stringAt strings index = some str
    | _, _ => false

def lookupKey (strings : Strings) (t : ConfTable α) (q : Query) : Slots.Look :=
  if t.sizehash = 0 then .absent
  else
    let i := q.keyhash.toNat % t.sizehash
    match t.hash i with
    | none => .broken
    | some n =>
      if q.keyhash ≠ n.key.keyhash ∧ n.alone = true then .absent
      else Slots.chase t.hash (isNode strings q) t.sizehash i

def arrayIndex (sizearray : Nat) : Query → Option Nat
  | .integer key => if inArray sizearray key.toInt then some (key.toInt.toNat - 1) else none
  | .string _ => none

def lindexconf (strings : Strings) (t : ConfTable α) (k : Key) : Except Fault (Option α) :=
  match arrayIndex t.sizearray k.query with
  | some i => .ok (t.array i)
  | none =>
    match lookupKey strings t k.query with
    | .found i => .ok ((t.hash i).map (·.value))
    | .absent => .ok none
    | .broken => .error .undefined

/-- `pushkey`. -/
def pushkey (strings : Strings) (hk : HashKey) : Except Fault Key :=
  match hk.key with
  | .integer key => .ok (.int key.toInt)
  | .string index => match stringAt strings index with
    | some s => .ok (.str s)
    | none => .error .undefined

def keyAt (strings : Strings) (t : ConfTable α) (i : Nat) : Except Fault (Option Key) :=
  match t.hash i with
  | none => .error .undefined
  | some n => (pushkey strings n.key).map some

def pushfirsthash (strings : Strings) (t : ConfTable α) : Except Fault (Option Key) :=
  if t.sizehash ≠ 0 then keyAt strings t 0 else .ok none

/-- The next index of the array, from `i` on, or else the first key of the hash part. -/
def nextArray (strings : Strings) (t : ConfTable α) (i : Nat) : Except Fault (Option Key) :=
  match (List.range' i (t.sizearray - i)).find? fun i => (t.array i).isSome with
  | some i => .ok (some (.int (i + 1)))
  | none => pushfirsthash strings t

def lnextkey (strings : Strings) (t : ConfTable α) (key : Option Key) :
    Except Fault (Option Key) :=
  match key with
  | none => nextArray strings t 0
  | some k =>
    match arrayIndex t.sizearray k.query with
    | some i => nextArray strings t (i + 1)
    | none =>
      match lookupKey strings t k.query with
      | .found i => if i + 1 = t.sizehash then .ok none else keyAt strings t (i + 1)
      | .absent => .ok none
      | .broken => .error .undefined

def llen (t : ConfTable α) : Nat := t.sizearray

/-- The keys that `lnextkey` visits after one, up to the end. -/
inductive Visits (strings : Strings) (t : ConfTable α) : Option Key → List Key → Prop
  | done {key : Option Key} (h : lnextkey strings t key = .ok none) : Visits strings t key []
  | next {key : Option Key} {k : Key} {l : List Key} (h : lnextkey strings t key = .ok (some k))
    (hl : Visits strings t (some k) l) : Visits strings t key (k :: l)

end XsServer.Sharedata
