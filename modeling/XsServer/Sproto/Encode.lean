import XsServer.Lib.Search
import XsServer.Lib.Bytes

/-! The types of `sproto.c` as they are when a schema has been loaded, how a field is found by its
tag, and `sproto_encode`: the fields of a type, as a callback supplies them, in a header of records
and the data of the fields that do not fit there. -/

namespace XsServer.Sproto

open Lib

section Schema

def SIZEOF_LENGTH : Nat := 4
def SIZEOF_HEADER : Nat := 2
def SIZEOF_FIELD : Nat := 2
def SIZEOF_INT64 : Nat := 8
def SIZEOF_INT32 : Nat := 4

/-- The types `SPROTO_TINTEGER` to `SPROTO_TSTRUCT`. -/
inductive Kind
  | integer
  | boolean
  | string
  | double
  | struct
  deriving DecidableEq

/-- `struct field`, with `SPROTO_TARRAY` on its own, and the index of the type of a struct. -/
structure Field where
  name : List UInt8
  tag : Nat
  type : Kind
  array : Bool
  st : Option Nat
  key : Int
  extra : Int

/-- `struct sproto_type`: `import_type` makes sure that the tags grow, and a tag is at most half of
a word minus one. -/
structure SprotoType where
  name : List UInt8
  f : List Field
  sorted : f.Pairwise fun x y => x.tag < y.tag
  tag_lt : ∀ x ∈ f, x.tag < 0x7fff

def gaps (last : Int) : List Field → Nat
  | [] => 0
  | x :: rest => (if (x.tag : Int) > last + 1 then 1 else 0) + gaps x.tag rest

def SprotoType.maxn (st : SprotoType) : Nat := st.f.length + gaps (-1) st.f

/-- The first tag, if there is no gap between the first and the last one. -/
def SprotoType.base (st : SprotoType) : Int :=
  match st.f with
  | [] => 0
  | x :: rest =>
    let last := (x :: rest).getLast (List.cons_ne_nil x rest)
    if (last.tag : Int) - x.tag + 1 = st.f.length then x.tag else -1

def findtag (st : SprotoType) (tag : Int) : Option Field :=
  if st.base ≥ 0 then
    let tag := tag - st.base
    if tag < 0 ∨ tag ≥ st.f.length then none else st.f[tag.toNat]?
  else bsearch (fun x => (x.tag : Int)) st.f tag

variable {st : SprotoType} {tag : Int} {x : Field}

theorem tag_add_le {f : List Field} (hf : f.Pairwise fun x y => x.tag < y.tag) {i d : Nat}
    (h : i + d < f.length) : f[i].tag + d ≤ f[i + d].tag := by
  induction d with
  | zero => exact le_rfl
  | succ d ih =>
    have hprev := ih (Nat.lt_of_succ_lt h)
    have hlt := List.pairwise_iff_getElem.mp hf (i + d) (i + d + 1) (Nat.lt_of_succ_lt h) h
      (Nat.lt_succ_self _)
    exact Nat.succ_le_of_lt (Nat.lt_of_le_of_lt hprev hlt)

theorem tag_of_base (hbase : st.base ≥ 0) {i : Nat} (h : i < st.f.length) :
    (st.f[i].tag : Int) = st.base + i := by
  have hsorted := st.sorted
  unfold SprotoType.base at hbase ⊢
  generalize st.f = f at *
  cases f with
  | nil => exact absurd h (Nat.not_lt_zero i)
  | cons x rest =>
    simp only at hbase ⊢
    split at hbase
    · rename_i heq
      rw [if_pos heq]
      rw [List.getLast_eq_getElem] at heq
      have hfirst := tag_add_le hsorted (i := 0) (d := i) (by omega)
      have hlast := tag_add_le hsorted (i := i) (d := rest.length - i)
        (by simp only [List.length_cons] at h ⊢; omega)
      simp only [List.length_cons, Nat.add_sub_cancel, Nat.zero_add, List.getElem_cons_zero]
        at h heq hfirst hlast
      have hindex : i + (rest.length - i) = rest.length := by omega
      simp only [hindex] at hlast
      push_cast at heq
      omega
    · exact absurd hbase (by decide)

theorem findtag_eq_some : findtag st tag = some x ↔ x ∈ st.f ∧ (x.tag : Int) = tag := by
  unfold findtag
  split
  · rename_i hbase
    simp only
    constructor
    · intro h
      split at h
      · cases h
      · rename_i hin
        obtain ⟨hlt, rfl⟩ := List.getElem?_eq_some_iff.mp h
        refine ⟨List.getElem_mem hlt, ?_⟩
        rw [tag_of_base hbase hlt]
        omega
    · rintro ⟨hx, rfl⟩
      obtain ⟨i, hi, rfl⟩ := List.getElem_of_mem hx
      have htag := tag_of_base hbase hi
      have hindex : ((st.f[i].tag : Int) - st.base).toNat = i := by omega
      rw [if_neg (by omega), hindex]
      exact List.getElem?_eq_getElem hi
  · exact bsearch_eq_some (st.sorted.imp fun h => Int.ofNat_lt.mpr h)

end Schema

/-- `struct sproto_arg` without the value and its length. -/
structure Arg where
  tagname : List UInt8
  tagid : Nat
  type : Kind
  subtype : Option Nat
  index : Int
  mainindex : Int
  extra : Int

def Field.arg (x : Field) (index : Int) : Arg :=
  ⟨x.name, x.tag, x.type, x.st, index, x.key, x.extra⟩

/-- What a callback returns, with what it has written to `value`. -/
inductive CbResult
  | ok (value : List UInt8)
  | error
  | nil
  | noarray

/-- The callback gets the arguments and `length`, the room for its value. -/
abbrev Supply := Arg → Int → CbResult

inductive Failure
  /-- the result is -1 -/
  | failed
  /-- an assertion fails, or a record is written over the data -/
  | overrun

def fillSize (sz : Nat) : List UInt8 := Bytes.le 4 sz

def encodeInteger (v : Nat) (size : Int) : Except Failure (List UInt8) :=
  if size < 8 then .error .failed else .ok (fillSize 4 ++ Bytes.le 4 v)

def encodeUint64 (v : Nat) (size : Int) : Except Failure (List UInt8) :=
  if size < 12 then .error .failed else .ok (fillSize 8 ++ Bytes.le 8 v)

/-- An object that is `nil` has no bytes. -/
def encodeObject (cb : Supply) (arg : Arg) (size : Int) : Except Failure (List UInt8) :=
  if size < 4 then .error .failed
  else
    match cb arg (size - 4) with
    | .ok value =>
      if value.length ≤ size - 4 then .ok (fillSize value.length ++ value)
      else .error .overrun
    | .nil => .ok []
    | _ => .error .failed

/-! ### Arrays of integers -/

/-- The bytes after the header of an array of integers. -/
abbrev Mem := Nat → UInt8

def store (mem : Mem) (pos : Nat) (bytes : List UInt8) : Mem := fun k =>
  if pos ≤ k ∧ k < pos + bytes.length then bytes.getD (k - pos) 0 else mem k

def load (mem : Mem) (pos n : Nat) : List UInt8 := (List.range n).map fun k => mem (pos + k)

def isNegative (b : UInt8) : Bool := b &&& 0x80 ≠ 0

def uint32ToUint64 (negative : Bool) (mem : Mem) (pos : Nat) : Mem :=
  store mem (pos + 4) (List.replicate 4 (if negative then 0xff else 0))

/-- The elements that were written with 4 bytes get 8 bytes, the last one first. -/
def rearrange (mem : Mem) : Nat → Mem
  | 0 => mem
  | i + 1 =>
    let mem := store mem (i * 8) (load mem (i * 4) 4)
    let mem := uint32ToUint64 (isNegative (mem (i * 8 + 3))) mem (i * 8)
    rearrange mem i

/-- The variables of `encode_integer_array`: the position of `buffer` after the header, and whether
`intlen` is `SIZEOF_INT64`. -/
structure IntArray where
  mem : Mem
  pos : Nat
  size : Int
  wide : Bool
  index : Nat

def IntArray.intlen (s : IntArray) : Nat := if s.wide then SIZEOF_INT64 else SIZEOF_INT32

/-- An element is written, and the next one follows it. -/
def IntArray.push (s : IntArray) (mem : Mem) : IntArray :=
  { s with mem := mem, pos := s.pos + s.intlen, size := s.size - s.intlen, index := s.index + 1 }

/-- The first element of 8 bytes: those before it are rearranged. -/
def IntArray.widen (s : IntArray) : IntArray where
  mem := rearrange s.mem (s.index - 1)
  pos := s.pos + (s.index - 1) * 4
  size := s.size - ((s.index - 1) * 4 : Nat)
  wide := true
  index := s.index

/-- The loop; no array if the callback says so. -/
def integerLoop (cb : Supply) (arg : Arg) (s : IntArray) : Except Failure (Option IntArray) :=
  match cb { arg with index := s.index } 8 with
  | .nil => .ok (some s)
  | .noarray => .ok none
  | .error => .error .failed
  | .ok value =>
    if _hroom : s.size < 8 then .error .failed
    else if value.length = 4 then
      let mem := store s.mem s.pos value
      let mem := if s.wide then uint32ToUint64 (isNegative (value.getD 3 0)) mem s.pos else mem
      integerLoop cb arg (s.push mem)
    else if value.length ≠ 8 then .error .failed
    else if s.wide then integerLoop cb arg (s.push (store s.mem s.pos value))
    else if _hwide : s.widen.size < 8 then .error .failed
    else integerLoop cb arg (s.widen.push (store s.widen.mem s.widen.pos value))
  termination_by s.size.toNat
  decreasing_by
    all_goals
      simp only [IntArray.push, IntArray.widen, IntArray.intlen, SIZEOF_INT32, SIZEOF_INT64] at *
      try split
      all_goals omega

/-- The header and the elements; nothing for an empty array. -/
def encodeIntegerArray (cb : Supply) (arg : Arg) (size : Int) :
    Except Failure (Option (List UInt8)) :=
  if size < 1 then .error .failed
  else do
    let s ← integerLoop cb arg ⟨fun _ => 0, 0, size - 1, false, 1⟩
    return s.map fun s => if s.pos = 0 then [] else UInt8.ofNat s.intlen :: load s.mem 0 s.pos

def booleanLoop (cb : Supply) (arg : Arg) (size : Int) (index : Nat) :
    Except Failure (Option (List UInt8)) :=
  match cb { arg with index := index } 4 with
  | .nil => .ok (some [])
  | .noarray => .ok none
  | .error => .error .failed
  | .ok value =>
    if size < 1 then .error .failed
    else do
      let rest ← booleanLoop cb arg (size - 1) (index + 1)
      return rest.map ((if Bytes.ofLe value = 0 then 0 else 1) :: ·)
  termination_by size.toNat
  decreasing_by omega

def objectLoop (cb : Supply) (arg : Arg) (size : Int) (index : Nat) :
    Except Failure (Option (List UInt8)) :=
  if size < 4 then .error .failed
  else
    match cb { arg with index := index } (size - 4) with
    | .nil => .ok (some [])
    | .noarray => .ok none
    | .error => .error .failed
    | .ok value => do
      let rest ← objectLoop cb arg (size - 4 - value.length) (index + 1)
      return rest.map (fillSize value.length ++ value ++ ·)
  termination_by size.toNat
  decreasing_by omega

/-- An array that is absent has no bytes. -/
def encodeArray (cb : Supply) (arg : Arg) (size : Int) : Except Failure (List UInt8) :=
  if size < 4 then .error .failed
  else do
    let elements ← match arg.type with
      | .integer | .double => encodeIntegerArray cb arg (size - 4)
      | .boolean => booleanLoop cb arg (size - 4) 1
      | .string | .struct => objectLoop cb arg (size - 4) 1
    return match elements with
      | none => []
      | some bytes => fillSize bytes.length ++ bytes

/-- What a field becomes: nothing, half of a record, or data; or the whole encoding ends. -/
inductive Encoded
  | absent
  | value (v : Nat)
  | data (bytes : List UInt8)
  | stop

def Encoded.ofData (bytes : List UInt8) : Encoded := if bytes = [] then .absent else .data bytes

def encodeField (cb : Supply) (x : Field) (size : Int) : Except Failure Encoded :=
  if x.array then Encoded.ofData <$> encodeArray cb (x.arg 0) size
  else
    match x.type with
    | .integer | .double | .boolean =>
      match cb (x.arg 0) 8 with
      | .nil => .ok .absent
      | .noarray => .ok .stop
      | .error => .error .failed
      | .ok value =>
        let u := Bytes.ofLe value
        if value.length = 4 then
          if u < 0x7fff then .ok (.value ((u + 1) * 2))
          else Encoded.data <$> encodeInteger u size
        else if value.length = 8 then Encoded.data <$> encodeUint64 u size
        else .error .failed
    | .string | .struct => Encoded.ofData <$> encodeObject cb (x.arg 0) size

/-- The records and the data that were written, and the room that is left for data. -/
structure Encoder where
  records : List Nat
  data : List UInt8
  size : Int
  lasttag : Int

/-- A record for a field, after one that skips the tags before it. -/
def Encoder.record (s : Encoder) (tag value : Nat) : Except Failure Encoder :=
  let skip : Int := tag - s.lasttag - 1
  if skip > 0 then
    let skip := (skip - 1) * 2 + 1
    if skip > 0xffff then .error .failed
    else .ok { s with records := s.records ++ [skip.toNat, value], lasttag := tag }
  else .ok { s with records := s.records ++ [value], lasttag := tag }

def encodeFields (cb : Supply) : List Field → Encoder → Except Failure (Option Encoder)
  | [], s => .ok (some s)
  | x :: rest, s => do
    match ← encodeField cb x s.size with
    | .absent => encodeFields cb rest s
    | .stop => return none
    | .value v => encodeFields cb rest (← s.record x.tag v)
    | .data bytes =>
      let s ← s.record x.tag 0
      encodeFields cb rest
        { s with data := s.data ++ bytes, size := s.size - bytes.length }

/-- The records are written in room for `maxn` of them, and the data after it is moved to their
end. -/
def sprotoEncode (st : SprotoType) (size : Int) (cb : Supply) : Except Failure (List UInt8) :=
  let headerSz : Nat := SIZEOF_HEADER + st.maxn * SIZEOF_FIELD
  if size < headerSz then .error .failed
  else do
    match ← encodeFields cb st.f ⟨[], [], size - headerSz, -1⟩ with
    | none => return []
    | some s =>
      if s.records.length ≤ st.maxn then
        return Bytes.le 2 s.records.length ++ s.records.flatMap (Bytes.le 2) ++ s.data
      else throw .overrun

end XsServer.Sproto
