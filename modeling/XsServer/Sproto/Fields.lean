import XsServer.Sproto.Arrays

/-! What becomes of the value of one field: a half of a record or data, which is decoded to what
should be reported. -/

namespace XsServer.Sproto

open Lib

def Encoded.bytes : Encoded → List UInt8
  | .data bytes => bytes
  | _ => []

/-- The field is decoded to the reports of the value. -/
inductive Represents (types : Types) (x : Field) (v : Value) : Encoded → Prop
  | value (u : Nat) (hu : u < 0x7fff)
      (h : ∀ fuel data s, decodeField (collect types (fuel + 1)) x u data s =
        .ok (s ++ v.reports x.tag)) : Represents types x v (.value ((u + 1) * 2))
  | data (bytes : List UInt8)
      (h : bytes.length < 2 ^ 31 → ∃ n, ∀ fuel, n ≤ fuel → ∀ tail s,
        decodeField (collect types (fuel + 1)) x (-1) (sized bytes ++ tail) s =
          .ok (s ++ v.reports x.tag)) : Represents types x v (.data (sized bytes))

def Supplies (types : Types) (cb : Supply) (x : Field) (v : Value) : Prop :=
  ∀ index length, cb (x.arg index) length = v.supply types (x.arg index) length

/-- The object is encoded, and decoded to its reports. -/
def RoundTrips (types : Types) (o : Object) (st : SprotoType) : Prop :=
  ∃ bytes, Codes (fun size => sprotoEncode st size (supplyObject types o)) bytes bytes.length ∧
    (bytes.length < 2 ^ 31 → ∃ n, ∀ fuel, n ≤ fuel →
      sprotoDecode st bytes (collect types fuel) [] = .ok (objectReports o, bytes.length))

/-- There are an encoding of the value and its decoding. -/
def FieldTrips (types : Types) (x : Field) (v : Value) : Prop :=
  ∃ e, Represents types x v e ∧
    ∀ cb, Supplies types cb x v → Codes (encodeField cb x) e e.bytes.length

variable {types : Types} {x : Field} {cb : Supply}

theorem ofData_sized (bytes : List UInt8) : Encoded.ofData (sized bytes) = .data (sized bytes) :=
  if_neg fun h => by
    have hlen := congrArg List.length h
    rw [sized_length, List.length_nil] at hlen
    omega

theorem fillSize_length (sz : Nat) : (fillSize sz).length = 4 := Bytes.le_length ..

variable {bytes : List UInt8}

theorem readDword_sized (h : bytes.length < 2 ^ 32) (tail : List UInt8) :
    readDword (sized bytes ++ tail) = .ok bytes.length := by
  have hsz : Bytes.ofLe (fillSize bytes.length) = bytes.length := by
    rw [fillSize, Bytes.ofLe_le]
    exact Nat.mod_eq_of_lt h
  rw [readDword, sized, List.append_assoc, readBytes_append (fillSize_length _)]
  exact congrArg Except.ok hsz

theorem drop_sized (bytes tail : List UInt8) : (sized bytes ++ tail).drop 4 = bytes ++ tail := by
  rw [sized, List.append_assoc]
  exact List.drop_left' (fillSize_length _)

/-! ### Integers and booleans -/

theorem arg_type_ne {k k' : Kind} (h : x.type = k ∨ x.type = k')
    (hk : k ≠ .string ∧ k ≠ .struct) (hk' : k' ≠ .string ∧ k' ≠ .struct) :
    (x.arg 0).type ≠ .string ∧ (x.arg 0).type ≠ .struct := by
  rcases h with rfl | rfl
  · exact hk
  · exact hk'

theorem Represents.small {v : Value} {u : Nat} (harray : x.array = false)
    (htype : x.type = .integer ∨ x.type = .boolean) (hu : u < 0x7fff)
    (hreports : v.reports x.tag = [(x.tag, 0, .integer u)]) :
    Represents types x v (.value ((u + 1) * 2)) := by
  refine .value u hu fun fuel data s => ?_
  have harg := arg_type_ne htype (by decide) (by decide)
  have hcond : ¬ (x.array ∨ x.type ≠ .integer ∧ x.type ≠ .boolean) := by
    rw [harray]
    rcases htype with h | h
    · simp [h]
    · simp [h]
  rw [decodeField, if_neg (by omega), if_neg hcond, hreports, Int.toNat_natCast,
    collect_integer types harg (le_refl _) (by omega)]
  rfl

theorem decodeField_number {σ : Type} (harray : x.array = false)
    (htype : x.type = .integer ∨ x.type = .double) (cb : Collect σ) (data : List UInt8) (s : σ) :
    decodeField cb x (-1) data s = (do
      let sz ← readDword data
      if sz = SIZEOF_INT32 then
        let v ← readDword (data.drop 4)
        .ok (collectInteger cb (x.arg 0) (expand64 v) s)
      else if sz ≠ SIZEOF_INT64 then .error .failed
      else
        let v ← readBytes (data.drop 4) 8
        .ok (collectInteger cb (x.arg 0) (Bytes.ofLe v) s)) := by
  rw [decodeField, if_pos (by decide), harray, if_neg Bool.false_ne_true]
  rcases htype with h | h
  · rw [h]
  · rw [h]

theorem Represents.large {n : Num} (harray : x.array = false)
    (htype : x.type = .integer ∨ x.type = .double) :
    Represents types x (.integer n) (.data (sized n.bytes)) := by
  refine .data n.bytes fun _ => ⟨0, fun fuel _ tail s => ?_⟩
  have harg := arg_type_ne htype (by decide) (by decide)
  have hcollect := collect_integer types (a := x.arg 0) harg (le_refl _) n.value_lt fuel s
  rw [decodeField_number harray htype]
  cases n with
  | narrow v =>
    have hlen : (Num.narrow v).bytes.length = 4 := Bytes.le_length ..
    have hvalue : Bytes.ofLe (Num.narrow v).bytes = v.toNat := by
      rw [Num.bytes, Bytes.ofLe_le]
      exact Nat.mod_eq_of_lt v.toNat_lt
    have hread : readDword ((Num.narrow v).bytes ++ tail) = .ok v.toNat := by
      rw [readDword, readBytes_append hlen]
      exact congrArg Except.ok hvalue
    have hsmall : (Num.narrow v).bytes.length < 2 ^ 32 := by omega
    rw [readDword_sized hsmall, hlen, drop_sized, hread]
    exact congrArg Except.ok hcollect
  | wide v =>
    have hlen : (Num.wide v).bytes.length = 8 := Bytes.le_length ..
    have hvalue : Bytes.ofLe (Num.wide v).bytes = v.toNat := by
      rw [Num.bytes, Bytes.ofLe_le]
      exact Nat.mod_eq_of_lt v.toNat_lt
    have hsmall : (Num.wide v).bytes.length < 2 ^ 32 := by omega
    rw [readDword_sized hsmall, hlen, drop_sized, readBytes_append hlen]
    change Except.ok (collectInteger _ _ (Bytes.ofLe (Num.wide v).bytes) s) = _
    rw [hvalue]
    exact congrArg Except.ok hcollect

theorem encodeField_number {k : Kind} (harray : x.array = false) (htype : x.type = k)
    (hk : k = .integer ∨ k = .double ∨ k = .boolean)
    (hcb : cb (x.arg 0) 8 = .ok bytes) (size : Int) :
    encodeField cb x size =
      if bytes.length = 4 then
        if Bytes.ofLe bytes < 0x7fff then .ok (.value ((Bytes.ofLe bytes + 1) * 2))
        else Encoded.data <$> encodeInteger (Bytes.ofLe bytes) size
      else if bytes.length = 8 then Encoded.data <$> encodeUint64 (Bytes.ofLe bytes) size
      else .error .failed := by
  rw [encodeField, harray, if_neg Bool.false_ne_true, htype]
  rcases hk with rfl | rfl | rfl
  · dsimp only
    rw [hcb]
  · dsimp only
    rw [hcb]
  · dsimp only
    rw [hcb]

theorem encodeInteger_codes (v : Nat) :
    Codes (fun size => Encoded.data <$> encodeInteger v size)
      (.data (sized (Bytes.le 4 v))) 8 :=
  (Codes.guard (fillSize 4 ++ Bytes.le 4 v) 8).map Encoded.data

theorem encodeUint64_codes (v : Nat) :
    Codes (fun size => Encoded.data <$> encodeUint64 v size)
      (.data (sized (Bytes.le 8 v))) 12 :=
  (Codes.guard (fillSize 8 ++ Bytes.le 8 v) 12).map Encoded.data

theorem integer_trips {n : Num} (harray : x.array = false)
    (htype : x.type = .integer ∨ x.type = .double ∧ n.isWide = true) :
    FieldTrips types x (.integer n) := by
  have hnumber : x.type = .integer ∨ x.type = .double := htype.imp_right And.left
  obtain ⟨k, hk, htypek⟩ : ∃ k, (k = .integer ∨ k = .double ∨ k = .boolean) ∧ x.type = k := by
    rcases hnumber with h | h
    · exact ⟨_, .inl rfl, h⟩
    · exact ⟨_, .inr (.inl rfl), h⟩
  cases n with
  | narrow v =>
    have hinteger : x.type = .integer := htype.resolve_right fun h => Bool.noConfusion h.2
    have hlen : (Num.narrow v).bytes.length = 4 := Bytes.le_length ..
    have hvalue : Bytes.ofLe (Num.narrow v).bytes = v.toNat := by
      rw [Num.bytes, Bytes.ofLe_le]
      exact Nat.mod_eq_of_lt v.toNat_lt
    have hfield : ∀ cb, Supplies types cb x (.integer (.narrow v)) → encodeField cb x = fun size =>
        if v.toNat < 0x7fff then .ok (.value ((v.toNat + 1) * 2))
        else Encoded.data <$> encodeInteger v.toNat size := fun cb hcb => by
      funext size
      rw [encodeField_number harray htypek hk (hcb 0 8), if_pos hlen, hvalue]
    by_cases hu : v.toNat < 0x7fff
    · refine ⟨.value ((v.toNat + 1) * 2), Represents.small harray (.inl hinteger) hu ?_,
        fun cb hcb => ?_⟩
      · have hexpand : expand64 v.toNat = v.toNat := if_pos (by omega)
        change [(x.tag, 0, Seen.integer (expand64 v.toNat))] = _
        rw [hexpand]
      · rw [hfield cb hcb]
        simp only [if_pos hu]
        exact Codes.always _
    · refine ⟨_, Represents.large harray hnumber, fun cb hcb => ?_⟩
      rw [hfield cb hcb, Encoded.bytes, sized_length, hlen]
      simp only [if_neg hu]
      exact encodeInteger_codes v.toNat
  | wide v =>
    have hlen : (Num.wide v).bytes.length = 8 := Bytes.le_length ..
    have hvalue : Bytes.ofLe (Num.wide v).bytes = v.toNat := by
      rw [Num.bytes, Bytes.ofLe_le]
      exact Nat.mod_eq_of_lt v.toNat_lt
    refine ⟨_, Represents.large harray hnumber, fun cb hcb => ?_⟩
    have hfield : encodeField cb x = fun size => Encoded.data <$> encodeUint64 v.toNat size := by
      funext size
      rw [encodeField_number harray htypek hk (hcb 0 8), if_neg (by omega), if_pos hlen, hvalue]
    rw [hfield, Encoded.bytes, sized_length, hlen]
    exact encodeUint64_codes v.toNat

theorem boolean_trips {b : Bool} (harray : x.array = false) (htype : x.type = .boolean) :
    FieldTrips types x (.boolean b) := by
  have hvalue : Bytes.ofLe (Bytes.le 4 b.toNat) = b.toNat := by
    cases b <;> rfl
  have hu : b.toNat < 0x7fff := by
    cases b <;> decide
  refine ⟨_, Represents.small harray (.inr htype) hu rfl, fun cb hcb => ?_⟩
  have hfield : encodeField cb x = fun _ => .ok (.value ((b.toNat + 1) * 2)) := by
    funext size
    rw [encodeField_number harray htype (.inr (.inr rfl)) (hcb 0 8),
      if_pos (Bytes.le_length ..), hvalue, if_pos hu]
  rw [hfield]
  exact Codes.always _

/-! ### Byte strings and structs -/

variable {a : Arg}

theorem encodeObject_codes (h : Gives (cb a) bytes) :
    Codes (encodeObject cb a) (sized bytes) (sized bytes).length := by
  have hlast : Codes (fun left : Int => if 0 ≤ left then .ok (sized bytes) else .error .overrun)
      (sized bytes) 0 :=
    ⟨fun _ h => .inl ⟨if_pos h, h⟩, 0, le_refl _, fun _ h => if_pos h⟩
  have hleft : ∀ left : Int, left + (4 : Nat) - 4 = left := fun left => Int.add_sub_cancel left 4
  rw [sized_length]
  refine Codes.after_header (h.bind hlast (fun left hle hok => ?_) fun left hle hfail => ?_)
    fun size hlt => ?_
  · rw [encodeObject, if_neg (by push_cast; omega), hleft, hok]
    by_cases hroom : (bytes.length : Int) ≤ left
    · rw [if_pos (Int.sub_nonneg_of_le hroom)]
      exact if_pos hroom
    · rw [if_neg (by omega)]
      exact if_neg hroom
  · rw [encodeObject, if_neg (by push_cast; omega), hleft, hfail]
  · exact if_pos hlt

theorem collect_string (htype : a.type = .string) (fuel : Nat) (bytes : List UInt8) :
    Reports (collect types (fuel + 1)) a bytes (.bytes bytes) := by
  intro index s
  rw [collect, if_neg (not_lt.mpr (Int.natCast_nonneg index)), htype]

theorem collect_struct {t : Nat} (htype : a.type = .struct) (ht : a.subtype = some t)
    {fuel : Nat} {reports : List Report}
    (h : sprotoDecode (types t) bytes (collect types fuel) [] = .ok (reports, bytes.length)) :
    Reports (collect types (fuel + 1)) a bytes (.struct reports) := by
  intro index s
  rw [collect, if_neg (not_lt.mpr (Int.natCast_nonneg index)), htype]
  dsimp only
  rw [ht]
  dsimp only
  rw [h]
  exact if_pos rfl

theorem decodeField_object {cb : Collect (List Report)} {seen : Seen}
    (harray : x.array = false) (htype : x.type = .string ∨ x.type = .struct)
    (hlen : bytes.length < 2 ^ 32) (h : Reports cb (x.arg 0) bytes seen) (tail : List UInt8)
    (s : List Report) :
    decodeField cb x (-1) (sized bytes ++ tail) s = .ok (s ++ [(x.tag, 0, seen)]) := by
  have hobject : decodeField cb x (-1) (sized bytes ++ tail) s = (do
      let sz ← readDword (sized bytes ++ tail)
      let value ← readBytes ((sized bytes ++ tail).drop 4) sz
      let r := cb (x.arg 0) value s
      if r.2 then .ok r.1 else .error .failed) := by
    rw [decodeField, if_pos (by decide), harray, if_neg Bool.false_ne_true]
    rcases htype with h | h
    · rw [h]
    · rw [h]
  have hcb : cb (x.arg 0) bytes s = (s ++ [(x.tag, 0, seen)], true) := h 0 s
  rw [hobject, readDword_sized hlen, drop_sized]
  change (do
    let value ← readBytes (bytes ++ tail) bytes.length
    let r := cb (x.arg 0) value s
    if r.2 then .ok r.1 else .error .failed) = _
  rw [readBytes_append rfl]
  change (if (cb (x.arg 0) bytes s).2 then Except.ok (cb (x.arg 0) bytes s).1 else _) = _
  rw [hcb]
  rfl

theorem encodeField_object (harray : x.array = false)
    (htype : x.type = .string ∨ x.type = .struct) (h : Gives (cb (x.arg 0)) bytes) :
    Codes (encodeField cb x) (.data (sized bytes)) (sized bytes).length := by
  have hobject : encodeField cb x = fun size =>
      Encoded.ofData <$> encodeObject cb (x.arg 0) size := by
    funext size
    rw [encodeField, harray, if_neg Bool.false_ne_true]
    rcases htype with h | h
    · rw [h]
    · rw [h]
  rw [hobject, ← ofData_sized]
  exact (encodeObject_codes h).map Encoded.ofData

theorem supplyString_gives (bytes : List UInt8) : Gives (supplyString bytes) bytes where
  cases size _ := by
    by_cases h : bytes.length ≤ size
    · exact .inl ⟨if_pos h, h⟩
    · exact .inr (if_neg h)
  enough := ⟨bytes.length, Int.natCast_nonneg _, fun _ h => if_pos h⟩

theorem supplyStruct_gives {t : Nat} (ht : a.subtype = some t)
    (h : Codes (fun size => sprotoEncode (types t) size cb) bytes bytes.length) :
    Gives (supplyStruct types cb a) bytes where
  cases size hsize := by
    rw [supplyStruct, ht]
    dsimp only
    rcases h.cases size hsize with ⟨hok, hcost⟩ | hfail
    · rw [hok]
      exact .inl ⟨rfl, hcost⟩
    · rw [hfail]
      exact .inr rfl
  enough := by
    obtain ⟨room, hroom, henough⟩ := h.enough
    refine ⟨room, hroom, fun size hsize => ?_⟩
    rw [supplyStruct, ht]
    dsimp only
    rw [henough size hsize]

theorem string_trips (harray : x.array = false) (htype : x.type = .string) :
    FieldTrips types x (.string bytes) := by
  refine ⟨_, .data bytes fun hlen => ⟨0, fun fuel _ tail s => ?_⟩, fun cb hcb => ?_⟩
  · exact decodeField_object harray (.inl htype) (by omega) (collect_string htype fuel bytes) tail s
  · have hgives : Gives (cb (x.arg 0)) bytes := by
      have h : cb (x.arg 0) = supplyString bytes := funext (hcb 0)
      rw [h]
      exact supplyString_gives bytes
    exact encodeField_object harray (.inl htype) hgives

theorem struct_trips {o : Object} {t : Nat} (harray : x.array = false) (htype : x.type = .struct)
    (ht : x.st = some t) (h : RoundTrips types o (types t)) :
    FieldTrips types x (.struct o) := by
  obtain ⟨bytes, hencode, hdecode⟩ := h
  refine ⟨_, .data bytes fun hlen => ?_, fun cb hcb => ?_⟩
  · obtain ⟨n, hn⟩ := hdecode hlen
    refine ⟨n, fun fuel hfuel tail s => ?_⟩
    exact decodeField_object harray (.inr htype) (by omega)
      (collect_struct htype ht (hn fuel hfuel)) tail s
  · have hgives : Gives (cb (x.arg 0)) bytes := by
      have h : cb (x.arg 0) = supplyStruct types (supplyObject types o) (x.arg 0) := funext (hcb 0)
      rw [h]
      exact supplyStruct_gives ht hencode
    exact encodeField_object harray (.inr htype) hgives

end XsServer.Sproto
