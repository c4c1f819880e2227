import XsServer.Sproto.Encode

/-! `sproto_decode`: the fields of a message go to a callback, which has a state of its own. -/

namespace XsServer.Sproto

open Lib

inductive DecodeFailure
  /-- the result is -1 -/
  | failed
  /-- a value is read outside of the message -/
  | outside

def toword (p : List UInt8) : Nat := Bytes.ofLe (p.take 2)

def todword (p : List UInt8) : Nat := Bytes.ofLe (p.take 4)

/-- A sum of `uint32_t`. -/
def addUint32 (a b : Nat) : Nat := (a + b) % 2 ^ 32

/-- The callback gets a value, changes its state, and returns 0 or not. -/
abbrev Collect (σ : Type) := Arg → List UInt8 → σ → σ × Bool

def readBytes (p : List UInt8) (n : Nat) : Except DecodeFailure (List UInt8) :=
  if p.length < n then .error .outside else .ok (p.take n)

def readDword (p : List UInt8) : Except DecodeFailure Nat := Bytes.ofLe <$> readBytes p 4

def expand64 (v : Nat) : Nat := if v < 0x80000000 then v else v + (2 ^ 64 - 2 ^ 32)

variable {σ : Type}

/-- The callback for an integer; what it returns does not matter. -/
def collectInteger (cb : Collect σ) (arg : Arg) (v : Nat) (s : σ) : σ := (cb arg (Bytes.le 8 v) s).1

def decodeArrayObject (cb : Collect σ) (arg : Arg) (stream : List UInt8) (sz : Nat) (index : Nat)
    (s : σ) : Except DecodeFailure σ :=
  if sz = 0 then .ok s
  else if _hsz : sz < 4 then .error .failed
  else do
    let hsz ← readDword stream
    let stream := stream.drop 4
    if hsz > sz - 4 then .error .failed
    else
      let value ← readBytes stream hsz
      let r := cb { arg with index := index } value s
      if r.2 then decodeArrayObject cb arg (stream.drop hsz) (sz - 4 - hsz) (index + 1) r.1
      else .error .failed
  termination_by sz
  decreasing_by omega

/-- The integers of `n` elements of the same width. -/
def decodeIntegers (cb : Collect σ) (arg : Arg) (width : Nat) (expand : Nat → Nat) :
    Nat → Nat → List UInt8 → σ → Except DecodeFailure σ
  | 0, _, _, s => .ok s
  | n + 1, index, stream, s => do
    let value ← readBytes stream width
    decodeIntegers cb arg width expand n (index + 1) (stream.drop width)
      (collectInteger cb { arg with index := index } (expand (Bytes.ofLe value)) s)

def decodeArray (cb : Collect σ) (arg : Arg) (stream : List UInt8) (s : σ) :
    Except DecodeFailure σ := do
  let sz ← readDword stream
  if sz = 0 then .ok (cb { arg with index := -1 } [] s).1
  else
    let stream := stream.drop 4
    match arg.type with
    | .double | .integer =>
      let len := Bytes.ofLe (← readBytes stream 1)
      let stream := stream.drop 1
      let sz := sz - 1
      if len = SIZEOF_INT32 then
        if sz % SIZEOF_INT32 ≠ 0 then .error .failed
        else decodeIntegers cb arg 4 expand64 (sz / SIZEOF_INT32) 1 stream s
      else if len = SIZEOF_INT64 then
        if sz % SIZEOF_INT64 ≠ 0 then .error .failed
        else decodeIntegers cb arg 8 id (sz / SIZEOF_INT64) 1 stream s
      else .error .failed
    | .boolean => decodeIntegers cb arg 1 id sz 1 stream s
    | .string | .struct =>
      -- the size is an `int` from here on
      if sz < 2 ^ 31 then decodeArrayObject cb arg stream sz 1 s else .ok s

/-- A field with its half of a record, or with data where that is negative. -/
def decodeField (cb : Collect σ) (x : Field) (value : Int) (data : List UInt8) (s : σ) :
    Except DecodeFailure σ :=
  let arg := x.arg 0
  if value < 0 then
    if x.array then decodeArray cb arg data s
    else
      match x.type with
      | .double | .integer => do
        let sz ← readDword data
        if sz = SIZEOF_INT32 then
          let v ← readDword (data.drop 4)
          .ok (collectInteger cb arg (expand64 v) s)
        else if sz ≠ SIZEOF_INT64 then .error .failed
        else
          let v ← readBytes (data.drop 4) 8
          .ok (collectInteger cb arg (Bytes.ofLe v) s)
      | .string | .struct => do
        let sz ← readDword data
        let value ← readBytes (data.drop 4) sz
        let r := cb arg value s
        if r.2 then .ok r.1 else .error .failed
      | .boolean => .error .failed
  else if x.array ∨ x.type ≠ .integer ∧ x.type ≠ .boolean then .error .failed
  else .ok (collectInteger cb arg value.toNat s)

/-- The loop over the records, with the data and its size that are left. -/
def decodeLoop (st : SprotoType) (cb : Collect σ) :
    List Nat → Int → List UInt8 → Nat → σ → Except DecodeFailure (σ × Nat)
  | [], _, _, size, s => .ok (s, size)
  | value :: records, tag, data, size, s => do
    let tag := tag + 1
    if value % 2 = 1 then decodeLoop st cb records (tag + value / 2) data size s
    else
      let value : Int := value / 2 - 1
      let (data', size') ←
        if value < 0 then do
          if size < SIZEOF_LENGTH then .error .failed
          else
            let sz := addUint32 (← readDword data) SIZEOF_LENGTH
            if size < sz then .error .failed else .ok (data.drop sz, size - sz)
        else .ok (data, size)
      match findtag st tag with
      | none => decodeLoop st cb records tag data' size' s
      | some x =>
        let s ← decodeField cb x value data s
        decodeLoop st cb records tag data' size' s

def words : Nat → List UInt8 → List Nat
  | 0, _ => []
  | n + 1, p => toword p :: words n (p.drop 2)

/-- The state at the end, and the number of bytes that were consumed. -/
def sprotoDecode (st : SprotoType) (data : List UInt8) (cb : Collect σ) (s : σ) :
    Except DecodeFailure (σ × Nat) := do
  if data.length < SIZEOF_HEADER then .error .failed
  else
    let fn := toword data
    let stream := data.drop SIZEOF_HEADER
    let size := data.length - SIZEOF_HEADER
    if size < fn * SIZEOF_FIELD then .error .failed
    else
      let r ← decodeLoop st cb (words fn stream) (-1) (stream.drop (fn * SIZEOF_FIELD))
        (size - fn * SIZEOF_FIELD) s
      return (r.1, data.length - r.2)

end XsServer.Sproto
