import XsServer.Lib.Bytes
import XsServer.Lib.Chain
import XsServer.Lib.Results

/-! The parser of answers in `dns.lua`: names with compression pointers, questions, answers and
`resolve`.  Positions are those of Lua, from 1 on. -/

namespace XsServer.Dns

open Lib

/-- An error of `string.unpack`, or of an assertion. -/
inductive Err
  /-- "initial position out of string" -/
  | position
  /-- "data string too short" -/
  | short
  /-- "string length does not fit in given size" -/
  | size
  /-- "unsigned overflow" -/
  | overflow
  /-- "malformed packet" -/
  | malformed
  /-- "Error qtype " -/
  | qtype
  deriving DecidableEq

/-- How a function stops without a result: it raises an error, or it has made as many rounds of the
loop over the parts of a name as it may. -/
inductive Stop
  | error (e : Err)
  | rounds
  deriving DecidableEq

/-- `n` bytes at a position. -/
def bytesAt (chunk : List UInt8) (left n : Nat) : Except Err (List UInt8) :=
  if chunk.length < left - 1 then .error .position
  else if chunk.length < left - 1 + n then .error .short
  else .ok ((chunk.drop (left - 1)).take n)

/-- `string.unpack` of one unsigned number of `n` bytes, the highest first. -/
def unpackUInt (n : Nat) (chunk : List UInt8) (left : Nat) : Except Err (Nat × Nat) := do
  let bytes ← bytesAt chunk left n
  return (Bytes.ofBe bytes, left + n)

/-- `string.unpack` of a string with its length in `n` bytes before it. -/
def unpackString (n : Nat) (chunk : List UInt8) (left : Nat) :
    Except Err (List UInt8 × Nat) := do
  let (size, left) ← unpackUInt n chunk left
  let bytes ← bytesAt chunk left size
  return (bytes, left + size)

/-- `string.pack` of one unsigned number in `n` bytes, the highest first. -/
def packUInt (n v : Nat) : Except Err (List UInt8) :=
  if v < 256 ^ n then .ok (Bytes.be n v) else .error .overflow

/-- `string.pack` of a string with its length in one byte before it. -/
def packString (w : List UInt8) : Except Err (List UInt8) :=
  if w.length < 256 then .ok (UInt8.ofNat w.length :: w) else .error .size

/-! ### Names -/

/-- `[_%w%-]` -/
def labelChar (c : UInt8) : Bool :=
  c = 0x5f ∨ c = 0x2d ∨ (0x30 ≤ c ∧ c ≤ 0x39) ∨ (0x41 ≤ c ∧ c ≤ 0x5a) ∨ (0x61 ≤ c ∧ c ≤ 0x7a)

/-- What `name:gmatch("([_%w%-]+)%.?")` goes through, with the start of a run already read. -/
def labelsFrom : List UInt8 → List UInt8 → List (List UInt8)
  | [], [] => []
  | c :: w, [] => [c :: w]
  | w, c :: name =>
    if labelChar c then labelsFrom (w ++ [c]) name
    else if w = [] then labelsFrom [] name
    else w :: labelsFrom [] name

def packQuestion (name : List UInt8) (qtype qclass : Nat) : Except Err (List UInt8) := do
  let labels ← (labelsFrom [] name).mapM packString
  let atype ← packUInt 2 qtype
  let cls ← packUInt 2 qclass
  return labels.flatten ++ [0] ++ (atype ++ cls)

/-- What the loop of `unpack_name` finds at a position. -/
inductive Part
  /-- `tag == 0` -/
  | stop (left : Nat)
  | pointer (offset left : Nat)
  | label (label : List UInt8) (left : Nat)

def part (chunk : List UInt8) (left : Nat) : Except Err Part := do
  let (tag, left) ← unpackUInt 1 chunk left
  if tag &&& 0xc0 = 0xc0 then
    let (offset, left) ← unpackUInt 2 chunk (left - 1)
    return .pointer (offset &&& 0x3fff) left
  else if tag = 0 then return .stop left
  else
    let (label, left) ← unpackString 1 chunk (left - 1)
    return .label label left

/-- `table.concat(t, ".")` -/
def concat (t : List (List UInt8)) : List UInt8 := List.intercalate [0x2e] t

/-- The loop of `unpack_name`, for so many rounds. -/
def unpackNameFrom (chunk : List UInt8) : Nat → List (List UInt8) → Option Nat → Nat →
    Except Stop (List UInt8 × Nat)
  | 0, _, _, _ => .error .rounds
  | rounds + 1, t, jumpPointer, left =>
    match part chunk left with
    | .error e => .error (.error e)
    | .ok (.stop left) => .ok (concat t, jumpPointer.getD left)
    -- offset is base 0, need to plus 1
    | .ok (.pointer offset left) =>
      unpackNameFrom chunk rounds t (some (jumpPointer.getD left)) (offset + 1)
    | .ok (.label label left) => unpackNameFrom chunk rounds (t ++ [label]) jumpPointer left

def unpackName (rounds : Nat) (chunk : List UInt8) (left : Nat) :
    Except Stop (List UInt8 × Nat) :=
  unpackNameFrom chunk rounds [] none left

/-- `string.unpack` in a function with names. -/
def lift {α : Type} : Except Err α → Except Stop α
  | .ok a => .ok a
  | .error e => .error (.error e)

structure Question where
  name : List UInt8
  atype : Nat
  cls : Nat

def unpackQuestion (rounds : Nat) (chunk : List UInt8) (left : Nat) :
    Except Stop (Question × Nat) := do
  let (name, left) ← unpackName rounds chunk left
  let (atype, left) ← lift (unpackUInt 2 chunk left)
  let (cls, left) ← lift (unpackUInt 2 chunk left)
  return (⟨name, atype, cls⟩, left)

structure Answer where
  name : List UInt8
  atype : Nat
  cls : Nat
  ttl : Nat
  rdata : List UInt8

def unpackAnswer (rounds : Nat) (chunk : List UInt8) (left : Nat) :
    Except Stop (Answer × Nat) := do
  let (name, left) ← unpackName rounds chunk left
  let (atype, left) ← lift (unpackUInt 2 chunk left)
  let (cls, left) ← lift (unpackUInt 2 chunk left)
  let (ttl, left) ← lift (unpackUInt 4 chunk left)
  let (rdata, left) ← lift (unpackString 2 chunk left)
  return (⟨name, atype, cls, ttl, rdata⟩, left)

/-! ### Answers -/

/-- The keys of `QTYPE` that are used. -/
def QTYPE_A : Nat := 1

def QTYPE_AAAA : Nat := 28

/-- So many numbers of `n` bytes, one after the other. -/
def unpackUInts (n : Nat) (chunk : List UInt8) : Nat → Nat → Except Err (List Nat × Nat)
  | 0, left => .ok ([], left)
  | count + 1, left => do
    let (v, left) ← unpackUInt n chunk left
    let (vs, left) ← unpackUInts n chunk count left
    return (v :: vs, left)

/-- `%x` -/
def hex (n : Nat) : String := String.ofList (Nat.toDigits 16 n)

def unpackRdata (qtype : Nat) (chunk : List UInt8) : Except Err String :=
  if qtype = QTYPE_A then do
    let (vs, _) ← unpackUInts 1 chunk 4 1
    return String.intercalate "." (vs.map toString)
  else if qtype = QTYPE_AAAA then do
    let (vs, _) ← unpackUInts 2 chunk 8 1
    return String.intercalate ":" (vs.map hex)
  else .error .qtype

/-- The locals `answers_ipv4`, `answers_ipv6` and `ttl` of `resolve`. -/
structure Found where
  ipv4 : Option (List String)
  ipv6 : Option (List String)
  ttl : Option Nat

/-- The address of an answer, if it is of a type that has one. -/
def Answer.ip (answer : Answer) : Except Err (Option String) :=
  if answer.atype = QTYPE_A ∨ answer.atype = QTYPE_AAAA then
    (unpackRdata answer.atype answer.rdata).map some
  else .ok none

def Found.put (found : Found) (answer : Answer) : Option String → Found
  | none => found
  | some ip =>
    let ttl := match found.ttl with
      | none => answer.ttl
      | some ttl => min ttl answer.ttl
    if answer.atype = QTYPE_A then
      { found with ipv4 := some (found.ipv4.getD [] ++ [ip]), ttl := some ttl }
    else { found with ipv6 := some (found.ipv6.getD [] ++ [ip]), ttl := some ttl }

/-- The loop of `resolve` over the answers. -/
def unpackAnswers (rounds : Nat) (content : List UInt8) : Nat → Nat → Found → Except Stop Found
  | 0, _, found => .ok found
  | n + 1, left, found => do
    let (answer, left) ← unpackAnswer rounds content left
    let ip ← lift answer.ip
    unpackAnswers rounds content n left (found.put answer ip)

/-- What `CACHE` has for a name. -/
structure Cached where
  answers : List String
  ttl : Nat

structure Request where
  name : List UInt8
  qtype : Nat
  co : Nat
  answers : Option (List String)

/-- `CACHE`, by type and name, and `request_pool`. -/
structure State where
  cache : Nat → List UInt8 → Option Cached
  requestPool : Nat → Option Request

def State.put (s : State) (qtype : Nat) (name : List UInt8) (now : Nat) (ttl : Option Nat) :
    Option (List String) → State
  | none => s
  | some answers =>
    { s with
      cache := Function.update s.cache qtype
        (Function.update (s.cache qtype) name (some ⟨answers, now + ttl.getD 0 * 100⟩)) }

def State.respond (s : State) (tid : Nat) : State × Option Nat :=
  match s.requestPool tid with
  -- the resp may be timeout
  | none => (s, none)
  | some resp =>
    match s.cache resp.qtype resp.name with
    | none => (s, some resp.co)
    | some r =>
      ({ s with
        requestPool := Function.update s.requestPool tid
          (some { resp with answers := some r.answers }) }, some resp.co)

def DNS_HEADER_LEN : Nat := 12

/-- `unpack_header` for `tid`, `qdcount` and `ancount`. -/
def unpackHeader (chunk : List UInt8) : Except Err ((Nat × Nat × Nat) × Nat) := do
  let (tid, left) ← unpackUInt 2 chunk 1
  let (_flags, left) ← unpackUInt 2 chunk left
  let (qdcount, left) ← unpackUInt 2 chunk left
  let (ancount, left) ← unpackUInt 2 chunk left
  let (_nscount, left) ← unpackUInt 2 chunk left
  let (_arcount, left) ← unpackUInt 2 chunk left
  return ((tid, qdcount, ancount), left)

/-- `resolve` after the check of the header. -/
def resolveBody (rounds now : Nat) (s : State) (content : List UInt8) (tid ancount left : Nat) :
    Except Stop (State × Option Nat) := do
  let (question, left) ← unpackQuestion rounds content left
  let found ← unpackAnswers rounds content ancount left ⟨none, none, none⟩
  let s := s.put QTYPE_A question.name now found.ttl found.ipv4
  let s := s.put QTYPE_AAAA question.name now found.ttl found.ipv6
  return s.respond tid

def resolve (rounds now : Nat) (s : State) (content : List UInt8) :
    Except Stop (State × Option Nat) :=
  -- drop
  if content.length < DNS_HEADER_LEN then .ok (s, none)
  else do
    let ((tid, qdcount, ancount), left) ← lift (unpackHeader content)
    if qdcount = 1 then resolveBody rounds now s content tid ancount left
    else .error (.error .malformed)

/-! ### When the loop of a name ends -/

def next (chunk : List UInt8) (left : Nat) : Option Nat :=
  match part chunk left with
  | .ok (.pointer offset _) => some (offset + 1)
  | .ok (.label _ left) => some left
  | .ok (.stop _) => none
  | .error _ => none

variable {chunk content : List UInt8} {left rounds : Nat}

variable {bytes : List UInt8}

theorem bytesAt_ok {n : Nat} (h : bytesAt chunk left n = .ok bytes) :
    left - 1 + n ≤ chunk.length ∧ bytes = (chunk.drop (left - 1)).take n := by
  rw [bytesAt] at h
  split at h
  · cases h
  · split at h
    · cases h
    · rename_i hlen
      exact ⟨Nat.not_lt.mp hlen, (Except.ok.inj h).symm⟩

theorem next_dom (left j : Nat) (h : next chunk left = some j) :
    left ∈ List.range (chunk.length + 1) := by
  rw [List.mem_range]
  have hpart : ∃ p, part chunk left = .ok p := by
    rw [next] at h
    split at h
    · exact ⟨_, by assumption⟩
    · exact ⟨_, by assumption⟩
    · cases h
    · cases h
  obtain ⟨p, hp⟩ := hpart
  obtain ⟨tag, htag, -⟩ := bind_ok hp
  obtain ⟨bytes, hbytes, -⟩ := bind_ok htag
  have := (bytesAt_ok hbytes).1
  omega

theorem unpackNameFrom_iff (t : List (List UInt8)) (jump : Option Nat) :
    unpackNameFrom chunk rounds t jump left ≠ .error .rounds ↔
      ∃ l, Chain (next chunk) (some left) l ∧ l.length ≤ rounds := by
  induction rounds generalizing t jump left with
  | zero =>
    refine iff_of_false (fun h => h rfl) ?_
    rintro ⟨l, hl, hlen⟩
    cases hl
    simp at hlen
  | succ rounds ih =>
    have hcons : (∃ l, Chain (next chunk) (some left) l ∧ l.length ≤ rounds + 1) ↔
        ∃ l, Chain (next chunk) (next chunk left) l ∧ l.length ≤ rounds := by
      constructor
      · rintro ⟨l, hl, hlen⟩
        cases hl with
        | @cons _ l hl => exact ⟨l, hl, Nat.le_of_succ_le_succ hlen⟩
      · rintro ⟨l, hl, hlen⟩
        exact ⟨left :: l, .cons hl, Nat.succ_le_succ hlen⟩
    have hnone : next chunk left = none → ∃ l, Chain (next chunk) (next chunk left) l ∧
        l.length ≤ rounds := fun h => ⟨[], h ▸ .nil, Nat.zero_le _⟩
    rw [hcons, unpackNameFrom]
    cases hpart : part chunk left with
    | error e => exact iff_of_true (by simp) (hnone (by rw [next, hpart]))
    | ok p =>
      cases p with
      | stop left' => exact iff_of_true (by simp) (hnone (by rw [next, hpart]))
      | pointer offset left' =>
        have hnext : next chunk left = some (offset + 1) := by rw [next, hpart]
        rw [hnext]
        exact ih t _
      | label w left' =>
        have hnext : next chunk left = some left' := by rw [next, hpart]
        rw [hnext]
        exact ih _ jump

theorem unpackNameFrom_mono {t : List (List UInt8)} {jump : Option Nat} {more : Nat}
    (h : unpackNameFrom chunk rounds t jump left ≠ .error .rounds) (hle : rounds ≤ more) :
    unpackNameFrom chunk more t jump left = unpackNameFrom chunk rounds t jump left := by
  induction rounds generalizing t jump left more with
  | zero => exact absurd rfl h
  | succ rounds ih =>
    obtain ⟨more, rfl⟩ : ∃ k, more = k + 1 := ⟨more - 1, by omega⟩
    rw [unpackNameFrom] at h ⊢
    rw [unpackNameFrom]
    cases hpart : part chunk left with
    | error e => rfl
    | ok p =>
      rw [hpart] at h
      cases p with
      | stop left' => rfl
      | pointer offset left' | label w left' => exact ih h (Nat.le_of_succ_le_succ hle)

def enough (chunk : List UInt8) : Nat := chunk.length + 2

theorem unpackName_iff : unpackName rounds chunk left ≠ .error .rounds ↔
    ∃ l, Chain (next chunk) (some left) l ∧ l.length ≤ rounds := unpackNameFrom_iff [] none

theorem unpackName_enough (h : Acyclic (next chunk) left) :
    unpackName (enough chunk) chunk left ≠ .error .rounds := by
  obtain ⟨l, hl⟩ := h.chain next_dom
  have hlen := hl.length_le next_dom
  rw [List.length_range] at hlen
  exact unpackName_iff.mpr ⟨l, hl, hlen⟩

theorem acyclic_of_unpackName (h : unpackName rounds chunk left ≠ .error .rounds) :
    Acyclic (next chunk) left := by
  obtain ⟨l, hl, -⟩ := unpackName_iff.mp h
  exact hl.acyclic

/-- `unpack_name` ends if and only if the labels and pointers from its position on do not come back
to a position. -/
theorem unpackName_ends_iff :
    (∃ rounds, unpackName rounds chunk left ≠ .error .rounds) ↔ Acyclic (next chunk) left := by
  constructor
  · rintro ⟨rounds, h⟩
    exact acyclic_of_unpackName h
  · intro h
    exact ⟨_, unpackName_enough h⟩

theorem unpackName_eq (h : unpackName rounds chunk left ≠ .error .rounds) :
    unpackName rounds chunk left = unpackName (enough chunk) chunk left := by
  have henough := unpackName_enough (acyclic_of_unpackName h)
  obtain hle | hle := Nat.le_total rounds (enough chunk)
  · exact (unpackNameFrom_mono h hle).symm
  · exact unpackNameFrom_mono henough hle

/-! ### When `resolve` ends -/

section Ends

variable {α β : Type}

theorem lift_ne (x : Except Err α) : lift x ≠ .error .rounds := by
  cases x <;> simp [lift]

theorem bind_ne_iff {x : Except Stop α} {f : α → Except Stop β} :
    x >>= f ≠ .error .rounds ↔
      x ≠ .error .rounds ∧ ∀ a, x = .ok a → f a ≠ .error .rounds := by
  cases x with
  | error e =>
    have herror : (Except.error e >>= f) = .error e := rfl
    rw [herror]
    simp
  | ok a =>
    refine ⟨fun h => ⟨by simp, fun b hb => ?_⟩, fun h => h.2 a rfl⟩
    cases hb
    exact h

theorem bind_lift_ne {x : Except Err α} {f : α → Except Stop β}
    (h : ∀ a, f a ≠ .error .rounds) : lift x >>= f ≠ .error .rounds :=
  bind_ne_iff.mpr ⟨lift_ne x, fun a _ => h a⟩

end Ends

theorem unpackQuestion_ne_iff : unpackQuestion rounds chunk left ≠ .error .rounds ↔
    unpackName rounds chunk left ≠ .error .rounds := by
  rw [unpackQuestion, bind_ne_iff]
  refine and_iff_left fun a _ => ?_
  exact bind_lift_ne fun b => bind_lift_ne fun c => by simp [pure, Except.pure]

theorem unpackAnswer_ne_iff : unpackAnswer rounds chunk left ≠ .error .rounds ↔
    unpackName rounds chunk left ≠ .error .rounds := by
  rw [unpackAnswer, bind_ne_iff]
  refine and_iff_left fun a _ => ?_
  exact bind_lift_ne fun b => bind_lift_ne fun c => bind_lift_ne fun d => bind_lift_ne fun e => by
    simp [pure, Except.pure]

theorem unpackQuestion_eq (h : unpackQuestion rounds chunk left ≠ .error .rounds) :
    unpackQuestion rounds chunk left = unpackQuestion (enough chunk) chunk left := by
  rw [unpackQuestion, unpackQuestion, unpackName_eq (unpackQuestion_ne_iff.mp h)]

theorem unpackAnswer_eq (h : unpackAnswer rounds chunk left ≠ .error .rounds) :
    unpackAnswer rounds chunk left = unpackAnswer (enough chunk) chunk left := by
  rw [unpackAnswer, unpackAnswer, unpackName_eq (unpackAnswer_ne_iff.mp h)]

/-- The names of so many answers from a position on do not come back to a position, up to one that
cannot be unpacked or whose data does not fit its type. -/
def AnswersEnd (content : List UInt8) : Nat → Nat → Prop
  | 0, _ => True
  | n + 1, left => Acyclic (next content) left ∧
    ∀ answer left' ip, unpackAnswer (enough content) content left = .ok (answer, left') →
      answer.ip = .ok ip → AnswersEnd content n left'

theorem unpackAnswers_ne {n : Nat} {found : Found} (h : AnswersEnd content n left) :
    unpackAnswers (enough content) content n left found ≠ .error .rounds := by
  induction n generalizing left found with
  | zero => simp [unpackAnswers]
  | succ n ih =>
    obtain ⟨hacyclic, hrest⟩ := h
    rw [unpackAnswers, bind_ne_iff]
    refine ⟨unpackAnswer_ne_iff.mpr (unpackName_enough hacyclic), ?_⟩
    rintro ⟨answer, left'⟩ hanswer
    refine bind_ne_iff.mpr ⟨lift_ne _, fun ip hip => ih (hrest answer left' ip hanswer ?_)⟩
    cases hans : answer.ip with
    | error e => rw [hans] at hip; cases hip
    | ok ip' => rw [hans] at hip; cases hip; rfl

theorem answersEnd_of_ne {n : Nat} {found : Found}
    (h : unpackAnswers rounds content n left found ≠ .error .rounds) :
    AnswersEnd content n left := by
  induction n generalizing left found with
  | zero => trivial
  | succ n ih =>
    rw [unpackAnswers, bind_ne_iff] at h
    obtain ⟨hanswer, hrest⟩ := h
    refine ⟨acyclic_of_unpackName (unpackAnswer_ne_iff.mp hanswer), ?_⟩
    intro answer left' ip hok hip
    have hsame := (unpackAnswer_eq hanswer).trans hok
    have hbind := (bind_ne_iff.mp (hrest _ hsame)).2 ip (by rw [hip]; rfl)
    exact ih hbind

/-- The names that `resolve` comes to do not come back to a position. -/
def NamesEnd (content : List UInt8) : Prop :=
  DNS_HEADER_LEN ≤ content.length → ∀ tid ancount left,
    unpackHeader content = .ok ((tid, 1, ancount), left) →
      Acyclic (next content) left ∧ ∀ question left',
        unpackQuestion (enough content) content left = .ok (question, left') →
          AnswersEnd content ancount left'

theorem resolveBody_enough {now tid ancount : Nat} {s : State} (h : Acyclic (next content) left)
    (hanswers : ∀ question left', unpackQuestion (enough content) content left =
      .ok (question, left') → AnswersEnd content ancount left') :
    resolveBody (enough content) now s content tid ancount left ≠ .error .rounds := by
  rw [resolveBody, bind_ne_iff]
  refine ⟨unpackQuestion_ne_iff.mpr (unpackName_enough h), ?_⟩
  rintro ⟨question, left'⟩ hquestion
  refine bind_ne_iff.mpr ⟨unpackAnswers_ne (hanswers question left' hquestion), ?_⟩
  intro found _
  simp [pure, Except.pure]

theorem names_of_resolveBody {now tid ancount : Nat} {s : State}
    (h : resolveBody rounds now s content tid ancount left ≠ .error .rounds) :
    Acyclic (next content) left ∧ ∀ question left',
      unpackQuestion (enough content) content left = .ok (question, left') →
        AnswersEnd content ancount left' := by
  rw [resolveBody, bind_ne_iff] at h
  obtain ⟨hquestion, hrest⟩ := h
  refine ⟨acyclic_of_unpackName (unpackQuestion_ne_iff.mp hquestion), fun question left' hok => ?_⟩
  have hsame := (unpackQuestion_eq hquestion).trans hok
  exact answersEnd_of_ne (bind_ne_iff.mp (hrest _ hsame)).1

theorem resolve_ne_iff {now : Nat} {s : State} :
    resolve rounds now s content ≠ .error .rounds ↔
      (DNS_HEADER_LEN ≤ content.length → ∀ tid ancount left,
        unpackHeader content = .ok ((tid, 1, ancount), left) →
          resolveBody rounds now s content tid ancount left ≠ .error .rounds) := by
  rw [resolve]
  split
  · rename_i hlen
    exact iff_of_true (by simp) fun h => absurd hlen (Nat.not_lt.mpr h)
  · rename_i hlen
    rw [bind_ne_iff]
    constructor
    · rintro ⟨-, h⟩ - tid ancount left hheader
      exact h ((tid, 1, ancount), left) (by rw [hheader]; rfl)
    · intro h
      refine ⟨lift_ne _, ?_⟩
      rintro ⟨⟨tid, qdcount, ancount⟩, left⟩ hheader
      show (if qdcount = 1 then _ else _) ≠ _
      split
      · rename_i hone
        subst hone
        refine h (Nat.not_lt.mp hlen) tid ancount left ?_
        cases hh : unpackHeader content with
        | error e => rw [hh] at hheader; cases hheader
        | ok r => rw [hh] at hheader; cases hheader; rfl
      · simp

/-- `resolve` ends if and only if none of the names that it comes to comes back to a position, and
then each of them within the rounds that suffice. -/
theorem resolve_ends_iff (now : Nat) (s : State) :
    ((∃ rounds, resolve rounds now s content ≠ .error .rounds) ↔ NamesEnd content) ∧
      (NamesEnd content → resolve (enough content) now s content ≠ .error .rounds) := by
  have henough : NamesEnd content → resolve (enough content) now s content ≠ .error .rounds := by
    intro h
    refine resolve_ne_iff.mpr fun hlen tid ancount left hheader => ?_
    obtain ⟨hacyclic, hanswers⟩ := h hlen tid ancount left hheader
    exact resolveBody_enough hacyclic hanswers
  refine ⟨⟨?_, fun h => ⟨_, henough h⟩⟩, henough⟩
  rintro ⟨rounds, h⟩ hlen tid ancount left hheader
  exact names_of_resolveBody (resolve_ne_iff.mp h hlen tid ancount left hheader)

/-! ### Names that are encoded -/

/-- The name with these labels is encoded at a position, up to the one after it: plainly, or with a
suffix replaced by a pointer to where that is encoded before. -/
inductive Encodes (chunk : List UInt8) : Nat → List (List UInt8) → Nat → Prop
  | root {left : Nat} (h : [0] <+: chunk.drop (left - 1)) : Encodes chunk left [] (left + 1)
  | label {left after : Nat} {w : List UInt8} {labels : List (List UInt8)} (hpos : 1 ≤ w.length)
    (hlen : w.length ≤ 63) (h : (UInt8.ofNat w.length :: w) <+: chunk.drop (left - 1))
    (hrest : Encodes chunk (left + 1 + w.length) labels after) :
    Encodes chunk left (w :: labels) after
  | pointer {left after offset : Nat} {labels : List (List UInt8)} (hoffset : offset < 2 ^ 14)
    (hbefore : offset + 1 < left) (h : Bytes.be 2 (0xc000 + offset) <+: chunk.drop (left - 1))
    (hto : Encodes chunk (offset + 1) labels after) : Encodes chunk left labels (left + 2)

theorem bytesAt_of_prefix (front : List UInt8) (hleft : 1 ≤ left)
    (hne : front ++ bytes ≠ []) (h : (front ++ bytes) <+: chunk.drop (left - 1)) :
    bytesAt chunk (left + front.length) bytes.length = .ok bytes := by
  obtain ⟨rest, hrest⟩ := h
  have hlen := congrArg List.length hrest
  have hpos := List.length_pos_iff.mpr hne
  simp only [List.length_append, List.length_drop] at hlen hpos
  have hdrop : chunk.drop (left + front.length - 1) = bytes ++ rest := by
    have hsum : left + front.length - 1 = left - 1 + front.length := by omega
    rw [hsum, ← List.drop_drop, ← hrest, List.append_assoc, List.drop_left]
  rw [bytesAt, if_neg (by omega), if_neg (by omega), hdrop, List.take_left]

theorem unpackUInt_of_prefix (hleft : 1 ≤ left) (hne : bytes ≠ [])
    (h : bytes <+: chunk.drop (left - 1)) :
    unpackUInt bytes.length chunk left = .ok (Bytes.ofBe bytes, left + bytes.length) := by
  have hbytes := bytesAt_of_prefix [] hleft hne h
  rw [unpackUInt, List.length_nil, Nat.add_zero] at *
  rw [hbytes]
  rfl

theorem ofBe_byte (n : Nat) (h : n < 256) : Bytes.ofBe [UInt8.ofNat n] = n := by
  simp [Bytes.ofBe, Bytes.ofLe]
  omega

theorem part_root (hleft : 1 ≤ left) (h : [0] <+: chunk.drop (left - 1)) :
    part chunk left = .ok (.stop (left + 1)) := by
  have htag := unpackUInt_of_prefix hleft (by simp) h
  rw [part, show (1 : Nat) = [(0 : UInt8)].length from rfl, htag]
  rfl

theorem part_label {w : List UInt8} (hleft : 1 ≤ left) (hpos : 1 ≤ w.length) (hlen : w.length ≤ 63)
    (h : (UInt8.ofNat w.length :: w) <+: chunk.drop (left - 1)) :
    part chunk left = .ok (.label w (left + 1 + w.length)) := by
  have htag : unpackUInt 1 chunk left = .ok (w.length, left + 1) := by
    have hone : [UInt8.ofNat w.length] <+: chunk.drop (left - 1) :=
      (List.prefix_append [UInt8.ofNat w.length] w).trans h
    have hread := unpackUInt_of_prefix hleft (by simp) hone
    rwa [ofBe_byte _ (by omega)] at hread
  have hw := bytesAt_of_prefix [UInt8.ofNat w.length] hleft (by simp) h
  have htable : ∀ n : Nat, n < 64 → n &&& 0xc0 ≠ 0xc0 := by decide
  have hstring : unpackString 1 chunk left = .ok (w, left + 1 + w.length) := by
    rw [unpackString, htag]
    show (do let bytes ← bytesAt chunk (left + 1) w.length; _) = _
    rw [show left + 1 = left + [UInt8.ofNat w.length].length from rfl, hw]
    rfl
  rw [part, htag]
  show (if _ then _ else if _ then _ else _) = _
  rw [if_neg (htable _ (by omega)), if_neg (by omega), Nat.add_sub_cancel, hstring]
  rfl

theorem pointer_bits {offset : Nat} (hoffset : offset < 2 ^ 14) :
    (0xc0 + offset / 256) &&& 0xc0 = 0xc0 ∧ (0xc000 + offset) &&& 0x3fff = offset := by
  have htable : ∀ n : Nat, n < 64 → (0xc0 + n) &&& 0xc0 = 0xc0 := by decide
  refine ⟨htable _ (by omega), ?_⟩
  have hmod := Nat.and_two_pow_sub_one_eq_mod (0xc000 + offset) 14
  have hmask : 2 ^ 14 - 1 = 0x3fff := by decide
  rw [hmask] at hmod
  omega

theorem part_pointer {offset : Nat} (hleft : 1 ≤ left) (hoffset : offset < 2 ^ 14)
    (h : Bytes.be 2 (0xc000 + offset) <+: chunk.drop (left - 1)) :
    part chunk left = .ok (.pointer offset (left + 2)) := by
  obtain ⟨htop, hlow⟩ := pointer_bits hoffset
  have htag : unpackUInt 1 chunk left = .ok (0xc0 + offset / 256, left + 1) := by
    have hone : [UInt8.ofNat ((0xc000 + offset) / 256)] <+: chunk.drop (left - 1) :=
      (List.prefix_append _ [UInt8.ofNat (0xc000 + offset)]).trans h
    have hread := unpackUInt_of_prefix hleft (by simp) hone
    have hdiv : (0xc000 + offset) / 256 = 0xc0 + offset / 256 := by omega
    rwa [ofBe_byte _ (by omega), hdiv] at hread
  have hpair : unpackUInt 2 chunk left = .ok (0xc000 + offset, left + 2) := by
    have hread := unpackUInt_of_prefix hleft (List.ne_nil_of_length_pos (by simp)) h
    rwa [Bytes.be_length, Bytes.ofBe_be, Nat.mod_eq_of_lt (by omega)] at hread
  rw [part, htag]
  show (if _ then _ else _) = _
  rw [if_pos htop, Nat.add_sub_cancel, hpair]
  show Except.ok (Part.pointer ((0xc000 + offset) &&& 0x3fff) (left + 2)) = _
  rw [hlow]

variable {labels : List (List UInt8)}

theorem unpackNameFrom_of_encodes {after : Nat} (hleft : 1 ≤ left)
    (h : Encodes chunk left labels after) : ∃ rounds, ∀ t jump,
      unpackNameFrom chunk rounds t jump left = .ok (concat (t ++ labels), jump.getD after) := by
  induction h with
  | root h =>
    refine ⟨1, fun t jump => ?_⟩
    rw [unpackNameFrom, part_root hleft h, List.append_nil]
  | @label left after w labels hpos hlen h hrest ih =>
    obtain ⟨rounds, hrounds⟩ := ih (by omega)
    refine ⟨rounds + 1, fun t jump => ?_⟩
    rw [unpackNameFrom, part_label hleft hpos hlen h]
    simp only
    rw [hrounds, List.append_assoc]
    rfl
  | @pointer left after offset labels hoffset hbefore h hto ih =>
    obtain ⟨rounds, hrounds⟩ := ih (by omega)
    refine ⟨rounds + 1, fun t jump => ?_⟩
    rw [unpackNameFrom, part_pointer hleft hoffset h]
    simp only
    rw [hrounds]
    rfl

theorem unpackName_of_encodes {after : Nat} (hleft : 1 ≤ left)
    (h : Encodes chunk left labels after) :
    unpackName (enough chunk) chunk left = .ok (concat labels, after) := by
  obtain ⟨rounds, hrounds⟩ := unpackNameFrom_of_encodes hleft h
  have hok : unpackName rounds chunk left = .ok (concat labels, after) := hrounds [] none
  rw [← unpackName_eq (by rw [hok]; simp), hok]

/-! ### Names that `pack_question` encodes -/

/-- What a name is: labels of up to 63 of the characters that `pack_question` takes. -/
def Valid (labels : List (List UInt8)) : Prop :=
  ∀ w ∈ labels, 1 ≤ w.length ∧ w.length ≤ 63 ∧ ∀ c ∈ w, labelChar c

theorem labelsFrom_append {w run name : List UInt8} (h : ∀ c ∈ run, labelChar c) :
    labelsFrom w (run ++ name) = labelsFrom (w ++ run) name := by
  induction run generalizing w with
  | nil => rw [List.nil_append, List.append_nil]
  | cons c run ih =>
    obtain ⟨hc, hrun⟩ := List.forall_mem_cons.mp h
    rw [List.cons_append, labelsFrom, if_pos hc, ih hrun, List.append_assoc]
    rfl

theorem labelsFrom_concat (h : Valid labels) :
    labelsFrom [] (concat labels) = labels := by
  induction labels with
  | nil => rfl
  | cons w labels ih =>
    obtain ⟨⟨hpos, -, hw⟩, hlabels⟩ := List.forall_mem_cons.mp h
    obtain ⟨c, w', rfl⟩ := List.exists_cons_of_length_pos hpos
    cases labels with
    | nil =>
      have hone : concat [c :: w'] = (c :: w') ++ [] := by simp [concat, List.intercalate]
      rw [hone, labelsFrom_append hw]
      rfl
    | cons v labels =>
      have hdot : concat ((c :: w') :: v :: labels) =
          (c :: w') ++ (0x2e :: concat (v :: labels)) := by
        simp [concat, List.intercalate, List.intersperse]
      rw [hdot, labelsFrom_append hw, List.nil_append, labelsFrom, if_neg (by decide),
        if_neg (by simp), ih hlabels]

def plain (labels : List (List UInt8)) : List UInt8 :=
  labels.flatMap (fun w => UInt8.ofNat w.length :: w) ++ [0]

theorem mapM_packString (h : Valid labels) :
    labels.mapM packString = .ok (labels.map fun w => UInt8.ofNat w.length :: w) := by
  induction labels with
  | nil => rfl
  | cons w labels ih =>
    obtain ⟨⟨-, hlen, -⟩, hlabels⟩ := List.forall_mem_cons.mp h
    rw [List.mapM_cons, ih hlabels, packString, if_pos (by omega)]
    rfl

theorem packQuestion_concat (h : Valid labels) {qtype qclass : Nat}
    (htype : qtype < 2 ^ 16) (hclass : qclass < 2 ^ 16) :
    packQuestion (concat labels) qtype qclass =
      .ok (plain labels ++ (Bytes.be 2 qtype ++ Bytes.be 2 qclass)) := by
  rw [packQuestion, labelsFrom_concat h, mapM_packString h, packUInt, if_pos (by omega), packUInt,
    if_pos (by omega), plain, List.flatMap_def]
  rfl

theorem encodes_plain (h : Valid labels)
    (hplain : plain labels <+: chunk.drop (left - 1)) (hleft : 1 ≤ left) :
    Encodes chunk left labels (left + (plain labels).length) := by
  induction labels generalizing left with
  | nil => exact .root hplain
  | cons w labels ih =>
    obtain ⟨⟨hpos, hlen, -⟩, hlabels⟩ := List.forall_mem_cons.mp h
    have hcons : plain (w :: labels) = (UInt8.ofNat w.length :: w) ++ plain labels := by
      simp [plain]
    rw [hcons] at hplain ⊢
    obtain ⟨rest, hrest⟩ := hplain
    have hdrop : chunk.drop (left + 1 + w.length - 1) = plain labels ++ rest := by
      have hsum : left + 1 + w.length - 1 = left - 1 + (UInt8.ofNat w.length :: w).length := by
        rw [List.length_cons]
        omega
      rw [hsum, ← List.drop_drop, ← hrest, List.append_assoc, List.drop_left]
    have hafter : left + ((UInt8.ofNat w.length :: w) ++ plain labels).length =
        left + 1 + w.length + (plain labels).length := by
      simp only [List.length_append, List.length_cons]
      omega
    rw [hafter]
    exact .label hpos hlen ⟨plain labels ++ rest, by rw [← List.append_assoc, hrest]⟩
      (ih hlabels (hdrop ▸ List.prefix_append _ _) (by omega))

/-- The loop of a name, and with it `resolve`, ends if and only if what it follows does not come
back to a position; a name that is encoded, as `pack_question` does or with pointers back, is
read as it is, with the position after it. -/
theorem parse_ends_iff (content : List UInt8) :
    (∀ left, (∃ rounds, unpackName rounds content left ≠ .error .rounds) ↔
      Acyclic (next content) left) ∧
    (∀ now s, ((∃ rounds, resolve rounds now s content ≠ .error .rounds) ↔ NamesEnd content) ∧
      (NamesEnd content → resolve (enough content) now s content ≠ .error .rounds)) ∧
    (∀ left labels after, 1 ≤ left → Encodes content left labels after →
      unpackName (enough content) content left = .ok (concat labels, after)) ∧
    (∀ labels qtype qclass, Valid labels → qtype < 2 ^ 16 → qclass < 2 ^ 16 →
      packQuestion (concat labels) qtype qclass =
        .ok (plain labels ++ (Bytes.be 2 qtype ++ Bytes.be 2 qclass)) ∧
      ∀ left, 1 ≤ left → plain labels <+: content.drop (left - 1) →
        unpackName (enough content) content left =
          .ok (concat labels, left + (plain labels).length)) := by
  refine ⟨fun left => unpackName_ends_iff, fun now s => resolve_ends_iff now s,
    fun left labels after hleft h => unpackName_of_encodes hleft h, ?_⟩
  intro labels qtype qclass h htype hclass
  refine ⟨packQuestion_concat h htype hclass, fun left hleft hplain => ?_⟩
  exact unpackName_of_encodes hleft (encodes_plain h hplain hleft)

/-- A packet whose question has a pointer to itself for its name. -/
def selfPointer : List UInt8 := [0, 1, 0x81, 0x80, 0, 1, 0, 0, 0, 0, 0, 0, 0xc0, 0x0c]

theorem selfPointer_forever :
    (∀ rounds, unpackName rounds selfPointer 13 = .error .rounds) ∧
      ∀ rounds, resolve rounds 0 ⟨fun _ _ => none, fun _ => none⟩ selfPointer =
        .error .rounds := by
  have hloop : ∀ rounds t jump,
      unpackNameFrom selfPointer rounds t jump 13 = .error .rounds := by
    intro rounds
    induction rounds with
    | zero => intro t jump; rfl
    | succ rounds ih => intro t jump; exact ih t _
  refine ⟨fun rounds => hloop rounds [] none, fun rounds => ?_⟩
  have hbody : resolve rounds 0 ⟨fun _ _ => none, fun _ => none⟩ selfPointer =
      resolveBody rounds 0 ⟨fun _ _ => none, fun _ => none⟩ selfPointer 1 0 13 := rfl
  rw [hbody, resolveBody, unpackQuestion, unpackName, hloop rounds [] none]
  rfl

end XsServer.Dns
