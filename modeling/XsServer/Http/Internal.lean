import XsServer.Lib.Occurs
import XsServer.Lib.Results
import Mathlib.Algebra.Ring.Nat

/-! `http/internal.lua`: how header lines and chunked bodies are read from a connection. -/

namespace XsServer.Http

open Lib

/-! ### Strings of Lua -/

/-- `posrelat`: a negative position is counted back from the end. -/
def posrelat (pos : Int) (len : Nat) : Int :=
  if 0 ≤ pos then pos
  else if (len : Int) < -pos then 0
  else len + pos + 1

/-- `s:sub(i, j)`. -/
def sub (s : List UInt8) (i j : Int) : List UInt8 :=
  let start := max 1 (posrelat i s.length)
  let stop := min (s.length : Int) (posrelat j s.length)
  if start ≤ stop then (s.take stop.toNat).drop (start - 1).toNat else []

/-- `s:find(pattern, init, true)`: the first and the last position of the pattern. -/
def find (s pattern : List UInt8) (init : Int) : Option (Int × Int) :=
  let init := max 1 (posrelat init s.length)
  if s.length + 1 < init then none
  else (findFirst pattern (s.drop (init - 1).toNat)).map fun (i : Nat) =>
    (init + i, init + i + pattern.length - 1)

theorem sub_one (s : List UInt8) (n : Nat) : sub s 1 n = s.take n := by
  have hpos : posrelat n s.length = n := if_pos (by omega)
  simp only [sub, hpos, show posrelat 1 s.length = 1 from rfl, Int.max_self]
  split
  · rw [show ((1 : Int) - 1).toNat = 0 from rfl, List.drop_zero, List.take_eq_take_iff]
    omega
  · symm
    rw [List.take_eq_nil_iff, ← List.length_eq_zero_iff]
    omega

theorem sub_from (s : List UInt8) (n : Nat) : sub s (n + 1) (-1) = s.drop n := by
  have hpos : posrelat (n + 1) s.length = n + 1 := if_pos (by omega)
  have hend : min (s.length : Int) (posrelat (-1) s.length) = s.length := by
    unfold posrelat
    split <;> omega
  simp only [sub, hpos, hend, Int.toNat_natCast, List.take_length]
  split
  · congr 1
    omega
  · symm
    apply List.drop_eq_nil_of_le
    omega

theorem length_sub_le (s : List UInt8) (i j : Int) : (sub s i j).length ≤ s.length := by
  simp only [sub]
  split
  · rw [List.length_drop, List.length_take]
    omega
  · exact Nat.zero_le _

theorem find_one (s pattern : List UInt8) :
    find s pattern 1 = (findFirst pattern s).map fun (i : Nat) =>
      ((i : Int) + 1, (i : Int) + pattern.length) := by
  simp only [find, show posrelat 1 s.length = 1 from rfl, Int.max_self]
  rw [if_neg (by omega), show ((1 : Int) - 1).toNat = 0 from rfl, List.drop_zero]
  congr 1
  funext i
  apply Prod.ext
  · exact Int.add_comm ..
  · change 1 + (i : Int) + pattern.length - 1 = _
    omega

def isspace (c : UInt8) : Bool := c = 32 || 9 ≤ c && c ≤ 13

/-- The digit that a letter or a decimal digit stands for. -/
def digit (c : UInt8) : Option Nat :=
  if 48 ≤ c ∧ c ≤ 57 then some (c.toNat - 48)
  else if 65 ≤ c ∧ c ≤ 90 then some (c.toNat - 65 + 10)
  else if 97 ≤ c ∧ c ≤ 122 then some (c.toNat - 97 + 10)
  else none

def tolower (c : UInt8) : UInt8 := if 65 ≤ c ∧ c ≤ 90 then c + 32 else c

/-- The sign and the digits that `b_str2int` reads, if nothing else is in the string. -/
def numeral (base : Nat) (s : List UInt8) : Option (Bool × List Nat) :=
  let s := s.dropWhile isspace
  let neg := s.head? = some 45
  let s := if s.head? = some 45 ∨ s.head? = some 43 then s.drop 1 else s
  let digits := (s.takeWhile fun c => (digit c).isSome).filterMap digit
  let s := s.dropWhile fun c => (digit c).isSome
  if digits = [] ∨ ¬ ∀ d ∈ digits, d < base then none
  else if s.dropWhile isspace = [] then some (neg, digits)
  else none

/-- `tonumber(s, base)`: the digits are added up as `lua_Unsigned`. -/
def tonumber (s : List UInt8) (base : Nat) : Option Int :=
  (numeral base s).map fun (neg, digits) =>
    let n := digits.foldl (fun n d => n * BitVec.ofNat 64 base + BitVec.ofNat 64 d) 0
    (if neg then 0 - n else n).toInt

/-- What becomes of a `lua_Integer`. -/
def integer (n : Int) : Int := n.bmod (2 ^ 64)

inductive Fault
  | socketError
  | concat
  | endless
  deriving DecidableEq

/-- The bytes that are still to come, and how many more than one each `readbytes()` gets of them. -/
structure Source where
  rest : List UInt8
  cut : Nat → Nat

/-- `readbytes(sz)`: exactly `sz` bytes, or without `sz` those that are there. -/
def Source.readbytes (src : Source) : Option Nat → Except Fault (List UInt8 × Source)
  | none =>
    if src.rest = [] then .error .socketError
    else
      let sz := src.cut 0 + 1
      .ok (src.rest.take sz, ⟨src.rest.drop sz, fun i => src.cut (i + 1)⟩)
  | some sz =>
    if src.rest.length < sz then .error .socketError
    else .ok (src.rest.take sz, ⟨src.rest.drop sz, src.cut⟩)

/-! ### The module -/

def LIMIT : Nat := 8192

abbrev crlf : List UInt8 := [13, 10]

def chunksize : Nat → Source → List UInt8 → Except Fault (Option (Int × List UInt8) × Source)
  | 0, _, _ => .error .endless
  | n + 1, src, body =>
    match find body crlf 1 with
    | some (f, e) => .ok ((tonumber (sub body 1 (f - 1)) 16).map (·, sub body (e + 1) (-1)), src)
    | none =>
      if 128 < body.length then .ok (none, src)
      else do
        let (bytes, src) ← src.readbytes none
        chunksize n src (body ++ bytes)

def readcrln (src : Source) (body : List UInt8) : Except Fault (Option (List UInt8) × Source) :=
  if 2 ≤ body.length then
    if sub body 1 2 ≠ crlf then .ok (none, src)
    else .ok (some (sub body 3 (-1)), src)
  else do
    let (bytes, src) ← src.readbytes (some (2 - body.length))
    if body ++ bytes ≠ crlf then .ok (none, src)
    else .ok (some [], src)

/-- The lines that `header:gmatch("(.-)\r\n")` gives, up to the first empty one. -/
def gmatch : Nat → List UInt8 → List (List UInt8)
  | 0, _ => []
  | n + 1, header =>
    match findFirst crlf header with
    | none => []
    | some i => if i = 0 then [] else header.take i :: gmatch n (header.drop (i + crlf.length))

/-- What `recvheader` returns: the bytes after the header, and the lines. -/
abbrev Received := Option (List UInt8 × List (List UInt8))

/-- The end of `recvheader`, when the empty line ends at `e`. -/
def received (lines : List (List UInt8)) (header : List UInt8) (e : Int) : Received :=
  some (sub header (e + 4) (-1), lines ++ gmatch header.length header)

/-- The loop of `recvheader`. -/
def receive (lines : List (List UInt8)) : Nat → Source → List UInt8 →
    Except Fault (Received × Source)
  | 0, _, _ => .error .endless
  | n + 1, src, header => do
    let (bytes, src) ← src.readbytes none
    let header := header ++ bytes
    match find header (crlf ++ crlf) (-bytes.length - 3) with
    | some (e, _) => .ok (received lines header e, src)
    | none =>
      if crlf <+: header then .ok (some (sub header 3 (-1), lines), src)
      else if LIMIT < header.length then .ok (none, src)
      else receive lines n src header

def recvheader (src : Source) (lines : List (List UInt8)) (header : List UInt8) :
    Except Fault (Received × Source) :=
  if 2 ≤ header.length ∧ crlf <+: header then .ok (some (sub header 3 (-1), lines), src)
  else
    match find header (crlf ++ crlf) 1 with
    | some (e, _) => .ok (received lines header e, src)
    | none => receive lines (src.rest.length + 1) src header

/-- A field that comes more than once has a table of values. -/
inductive Field
  | value (v : List UInt8)
  | table (vs : List (List UInt8))
  deriving DecidableEq

abbrev Header := List UInt8 → Option Field

/-- `header[name]` with one value more. -/
def Field.insert (value : List UInt8) : Option Field → Field
  | none => .value value
  | some (.value v) => .table [v, value]
  | some (.table vs) => .table (vs ++ [value])

/-- `line:match "^(.-):%s*(.*)"`. -/
def nameValue (line : List UInt8) : Option (List UInt8 × List UInt8) :=
  (findFirst [58] line).map fun i => (line.take i, (line.drop (i + 1)).dropWhile isspace)

/-- The loop of `parseheader`, with the name of the last line that had one. -/
def parseLines : Option (List UInt8) → List (List UInt8) → Header → Except Fault (Option Header)
  | _, [], header => .ok (some header)
  | name, line :: lines, header =>
    if line.head? = some 9 then
      match name with
      | none => .ok none
      | some name =>
        match header name with
        | some (.value v) =>
          parseLines (some name) lines
            (Function.update header name (some (.value (v ++ sub line 2 (-1)))))
        | _ => .error .concat
    else
      match nameValue line with
      | none => .ok none
      | some (name, value) =>
        let name := name.map tolower
        parseLines (some name) lines
          (Function.update header name (some (Field.insert value (header name))))

def parseheader (lines : List (List UInt8)) (first : Nat) (header : Header) :
    Except Fault (Option Header) :=
  parseLines none (lines.drop (first - 1)) header

/-- `bodylimit and size > bodylimit`. -/
def exceeds (bodylimit : Option Nat) (size : Int) : Bool :=
  bodylimit.any fun (limit : Nat) => (limit : Int) < size

/-- The data of a chunk, and what remains of the body. -/
def chunkdata (src : Source) (sz : Int) (body : List UInt8) :
    Except Fault (List UInt8 × List UInt8 × Source) :=
  if sz ≤ body.length then .ok (sub body 1 sz, sub body (sz + 1) (-1), src)
  else do
    let (bytes, src) ← src.readbytes (some (sz - body.length).toNat)
    .ok (body ++ bytes, [], src)

/-- The loop of `recvchunkedbody`, up to the chunk of size zero. -/
def recvchunks (bodylimit : Option Nat) : Nat → Source → List UInt8 → Int → List UInt8 →
    Except Fault (Option (List UInt8 × List UInt8) × Source)
  | 0, _, _, _, _ => .error .endless
  | n + 1, src, result, size, body => do
    let (line, src) ← chunksize (src.rest.length + 1) src body
    match line with
    | none => .ok (none, src)
    | some (sz, body) =>
      if sz = 0 then .ok (some (result, body), src)
      else if exceeds bodylimit (integer (size + sz)) then .ok (none, src)
      else do
        let (data, body, src) ← chunkdata src sz body
        let (next, src) ← readcrln src body
        match next with
        | none => .ok (none, src)
        | some body => recvchunks bodylimit n src (result ++ data) (integer (size + sz)) body

def recvchunkedbody (src : Source) (bodylimit : Option Nat) (header : Header) (body : List UInt8) :
    Except Fault (Option (List UInt8 × Option Header)) := do
  let (chunks, src) ← recvchunks bodylimit ((body ++ src.rest).length + 1) src [] 0 body
  match chunks with
  | none => .ok none
  | some (result, body) =>
    let (last, _) ← recvheader src [] body
    match last with
    | none => .ok none
    | some (_, tmpline) => (parseheader tmpline 1 header).map fun header => some (result, header)

end XsServer.Http
