import XsServer.Sproto.Decode

/-! Values of the types of a schema: a callback that supplies one to `sproto_encode`, and a callback
that collects what `sproto_decode` finds.  With enough room for it an encoder has one result, and
with less it fails. -/

namespace XsServer.Sproto

open Lib

/-- An integer as a callback writes it, with 4 or with 8 bytes. -/
inductive Num
  | narrow (v : UInt32)
  | wide (v : UInt64)

def Num.bytes : Num → List UInt8
  | .narrow v => Bytes.le 4 v.toNat
  | .wide v => Bytes.le 8 v.toNat

/-- The 64 bits of the integer. -/
def Num.value : Num → Nat
  | .narrow v => expand64 v.toNat
  | .wide v => v.toNat

def Num.isWide : Num → Bool
  | .narrow _ => false
  | .wide _ => true

/-- The value of a field; that of a struct has the values of its fields with their tags. -/
inductive Value
  | integer (n : Num)
  | boolean (b : Bool)
  | string (s : List UInt8)
  | struct (o : List (Nat × Value))
  | integers (ns : List Num)
  | booleans (bs : List Bool)
  | strings (ss : List (List UInt8))
  | structs (os : List (List (Nat × Value)))

abbrev Object := List (Nat × Value)

abbrev Types := Nat → SprotoType

mutual

def Value.HasType (types : Types) : Value → Field → Prop
  | .integer n, x =>
    x.array = false ∧ (x.type = .integer ∨ x.type = .double ∧ n.isWide = true)
  | .boolean _, x => x.array = false ∧ x.type = .boolean
  | .string _, x => x.array = false ∧ x.type = .string
  | .struct o, x =>
    x.array = false ∧ x.type = .struct ∧ ∃ t, x.st = some t ∧ OfType types o (types t)
  | .integers ns, x =>
    x.array = true ∧ (x.type = .integer ∨ x.type = .double ∧ ∀ n ∈ ns, n.isWide = true)
  | .booleans _, x => x.array = true ∧ x.type = .boolean
  | .strings _, x => x.array = true ∧ x.type = .string
  | .structs os, x =>
    x.array = true ∧ x.type = .struct ∧ ∃ t, x.st = some t ∧ AllOfType types os (types t)

def OfType (types : Types) : List (Nat × Value) → SprotoType → Prop
  | [], _ => True
  | (tag, v) :: rest, st =>
    (∃ x ∈ st.f, x.tag = tag ∧ v.HasType types x) ∧ (∀ e ∈ rest, tag < e.1) ∧
      OfType types rest st

def AllOfType (types : Types) : List (List (Nat × Value)) → SprotoType → Prop
  | [], _ => True
  | o :: rest, st => OfType types o st ∧ AllOfType types rest st

end

def supplyString (s : List UInt8) (length : Int) : CbResult :=
  if s.length ≤ length then .ok s else .error

def supplyStruct (types : Types) (cb : Supply) (arg : Arg) (length : Int) : CbResult :=
  match arg.subtype with
  | none => .error
  | some t =>
    match sprotoEncode (types t) length cb with
    | .ok bytes => .ok bytes
    | .error _ => .error

/-- The element of an array, which ends with `nil`. -/
def supplyElement {α : Type} (xs : List α) (index : Int) (f : α → CbResult) : CbResult :=
  match xs[index.toNat - 1]? with
  | none => .nil
  | some x => f x

mutual

def Value.supply (types : Types) : Value → Supply
  | .integer n, _, _ => .ok n.bytes
  | .boolean b, _, _ => .ok (Bytes.le 4 b.toNat)
  | .string s, _, length => supplyString s length
  | .struct o, arg, length => supplyStruct types (supplyObject types o) arg length
  | .integers ns, arg, _ => supplyElement ns arg.index fun n => .ok n.bytes
  | .booleans bs, arg, _ => supplyElement bs arg.index fun b => .ok (Bytes.le 4 b.toNat)
  | .strings ss, arg, length => supplyElement ss arg.index fun s => supplyString s length
  | .structs os, arg, length => supplyObjects types os (arg.index.toNat - 1) arg length

/-- A field without a value is `nil`, or no array. -/
def supplyObject (types : Types) : List (Nat × Value) → Supply
  | [], arg, _ => if arg.index > 0 then .noarray else .nil
  | (tag, v) :: rest, arg, length =>
    if tag = arg.tagid then v.supply types arg length else supplyObject types rest arg length

def supplyObjects (types : Types) : List (List (Nat × Value)) → Nat → Supply
  | [], _, _, _ => .nil
  | o :: _, 0, arg, length => supplyStruct types (supplyObject types o) arg length
  | _ :: rest, i + 1, arg, length => supplyObjects types rest i arg length

end

inductive Seen
  | integer (v : Nat)
  | bytes (s : List UInt8)
  | struct (reports : List (Nat × Int × Seen))
  /-- an empty array -/
  | empty

/-- A report of a value, with the tag and the index in an array. -/
abbrev Report := Nat × Int × Seen

/-- The reports are collected; those of a struct, by another callback with less fuel. -/
def collect (types : Types) : Nat → Collect (List Report)
  | 0, _, _, s => (s, false)
  | fuel + 1, arg, value, s =>
    if arg.index < 0 then (s ++ [(arg.tagid, arg.index, .empty)], true)
    else
      match arg.type with
      | .integer | .double | .boolean =>
        (s ++ [(arg.tagid, arg.index, .integer (Bytes.ofLe value))], true)
      | .string => (s ++ [(arg.tagid, arg.index, .bytes value)], true)
      | .struct =>
        match arg.subtype with
        | none => (s, false)
        | some t =>
          match sprotoDecode (types t) value (collect types fuel) [] with
          | .ok (reports, r) =>
            if r = value.length then (s ++ [(arg.tagid, arg.index, .struct reports)], true)
            else (s, false)
          | .error _ => (s, false)

def elementReports (tag : Nat) (seen : List Seen) : List Report :=
  match seen with
  | [] => [(tag, -1, .empty)]
  | _ => seen.mapIdx fun i v => (tag, (i : Int) + 1, v)

mutual

def Value.reports (tag : Nat) : Value → List Report
  | .integer n => [(tag, 0, .integer n.value)]
  | .boolean b => [(tag, 0, .integer b.toNat)]
  | .string s => [(tag, 0, .bytes s)]
  | .struct o => [(tag, 0, .struct (objectReports o))]
  | .integers ns => elementReports tag (ns.map fun n => .integer n.value)
  | .booleans bs => elementReports tag (bs.map fun b => .integer b.toNat)
  | .strings ss => elementReports tag (ss.map .bytes)
  | .structs os => elementReports tag (structReports os)

def objectReports : List (Nat × Value) → List Report
  | [] => []
  | (tag, v) :: rest => v.reports tag ++ objectReports rest

def structReports : List (List (Nat × Value)) → List Seen
  | [] => []
  | o :: rest => .struct (objectReports o) :: structReports rest

end

/-! ### The room of an encoder -/

variable {α β : Type}

/-- The encoder makes `a`, which takes up `cost`, or fails; with enough room it does not fail. -/
structure Codes (enc : Int → Except Failure α) (a : α) (cost : Nat) : Prop where
  cases : ∀ size, 0 ≤ size → enc size = .ok a ∧ cost ≤ size ∨ enc size = .error .failed
  enough : ∃ room, 0 ≤ room ∧ ∀ size, room ≤ size → enc size = .ok a

structure Gives (f : Int → CbResult) (bytes : List UInt8) : Prop where
  cases : ∀ size, 0 ≤ size → f size = .ok bytes ∧ bytes.length ≤ size ∨ f size = .error
  enough : ∃ room, 0 ≤ room ∧ ∀ size, room ≤ size → f size = .ok bytes

theorem Codes.always (a : α) : Codes (fun _ => .ok a) a 0 where
  cases _ h := .inl ⟨rfl, h⟩
  enough := ⟨0, le_rfl, fun _ _ => rfl⟩

theorem Codes.guard (a : α) (k : Nat) :
    Codes (fun size => if size < k then .error .failed else .ok a) a k where
  cases size _ := by
    by_cases h : size < k
    · exact .inr (if_pos h)
    · exact .inl ⟨if_neg h, not_lt.mp h⟩
  enough := ⟨k, Int.natCast_nonneg k, fun _ h => if_neg (not_lt.mpr h)⟩

variable {enc : Int → Except Failure α} {a : α}

theorem Codes.mono {cost cost' : Nat}
    (h : Codes enc a cost) (hle : cost' ≤ cost) : Codes enc a cost' where
  cases size hsize := by
    rcases h.cases size hsize with ⟨hok, hcost⟩ | hfail
    · exact .inl ⟨hok, by omega⟩
    · exact .inr hfail
  enough := h.enough

variable {cost : Nat}

theorem Codes.map (h : Codes enc a cost)
    (f : α → β) : Codes (fun size => f <$> enc size) (f a) cost where
  cases size hsize := by
    rcases h.cases size hsize with ⟨hok, hcost⟩ | hfail
    · refine .inl ⟨?_, hcost⟩
      rw [hok]
      rfl
    · refine .inr ?_
      rw [hfail]
      rfl
  enough := by
    obtain ⟨room, hroom, henough⟩ := h.enough
    refine ⟨room, hroom, fun size hsize => ?_⟩
    rw [henough size hsize]
    rfl

theorem Codes.header {enc : Int → Except Failure α} {a : α} {cost : Nat} (h : Codes enc a cost)
    (k : Nat) :
    Codes (fun size => if size < k then .error .failed else enc (size - k)) a (k + cost) where
  cases size _ := by
    by_cases hlt : size < k
    · exact .inr (if_pos hlt)
    · simp only [if_neg hlt]
      rcases h.cases (size - k) (by omega) with ⟨hok, hcost⟩ | hfail
      · exact .inl ⟨hok, by push_cast; omega⟩
      · exact .inr hfail
  enough := by
    obtain ⟨room, hroom, henough⟩ := h.enough
    refine ⟨room + k, by omega, fun size hsize => ?_⟩
    simp only [if_neg (show ¬ size < k by omega)]
    exact henough _ (by omega)

theorem Codes.after_header {total : Int → Except Failure α} {cost k : Nat}
    (h : Codes (fun left => total (left + k)) a cost)
    (hshort : ∀ size : Int, size < k → total size = .error .failed) : Codes total a (k + cost) := by
  have htotal : total = fun size : Int =>
      if size < k then .error .failed else total (size - k + k) := by
    funext size
    split
    · rename_i hlt
      exact hshort size hlt
    · rw [Int.sub_add_cancel]
  rw [htotal]
  exact h.header k

theorem Codes.bind (h : Codes enc a cost)
    {next total : Int → Except Failure β} {b : β} {cost' : Nat} (hnext : Codes next b cost')
    (hok : ∀ size, 0 ≤ size → enc size = .ok a → total size = next (size - cost))
    (herror : ∀ size, 0 ≤ size → enc size = .error .failed → total size = .error .failed) :
    Codes total b (cost + cost') where
  cases size hsize := by
    rcases h.cases size hsize with ⟨henc, hcost⟩ | hfail
    · rw [hok size hsize henc]
      rcases hnext.cases (size - cost) (by omega) with ⟨henc', hcost'⟩ | hfail'
      · exact .inl ⟨henc', by push_cast; omega⟩
      · exact .inr hfail'
    · exact .inr (herror size hsize hfail)
  enough := by
    obtain ⟨room, hroom, henough⟩ := h.enough
    obtain ⟨room', hroom', henough'⟩ := hnext.enough
    refine ⟨room + room' + cost, by omega, fun size hsize => ?_⟩
    rw [hok size (by omega) (henough size (by omega))]
    exact henough' _ (by omega)

theorem Gives.bind {f : Int → CbResult} {bytes : List UInt8} (h : Gives f bytes)
    {next total : Int → Except Failure α} (hnext : Codes next a cost)
    (hok : ∀ size, 0 ≤ size → f size = .ok bytes → total size = next (size - bytes.length))
    (herror : ∀ size, 0 ≤ size → f size = .error → total size = .error .failed) :
    Codes total a (bytes.length + cost) where
  cases size hsize := by
    rcases h.cases size hsize with ⟨hgives, hlength⟩ | hfail
    · rw [hok size hsize hgives]
      rcases hnext.cases (size - bytes.length) (by omega) with ⟨henc, hcost⟩ | hfail
      · exact .inl ⟨henc, by push_cast; omega⟩
      · exact .inr hfail
    · exact .inr (herror size hsize hfail)
  enough := by
    obtain ⟨room, hroom, henough⟩ := h.enough
    obtain ⟨room', hroom', henough'⟩ := hnext.enough
    refine ⟨room + room' + bytes.length, by omega, fun size hsize => ?_⟩
    rw [hok size (by omega) (henough size (by omega))]
    exact henough' _ (by omega)

end XsServer.Sproto
