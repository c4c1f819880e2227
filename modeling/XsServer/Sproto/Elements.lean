import XsServer.Sproto.Fields

/-! The fields that are arrays. -/

namespace XsServer.Sproto

open Lib

variable {types : Types} {x : Field} {cb : Supply}

/-- The bytes of an array, which may be absent. -/
def arrayBytes : Option (List UInt8) → List UInt8
  | none => []
  | some bytes => fillSize bytes.length ++ bytes

theorem encodeField_elements {enc : Int → Except Failure (Option (List UInt8))}
    {elements : Option (List UInt8)} {cost : Nat} (harray : x.array = true)
    (h : Codes enc elements cost)
    (henc : ∀ size, encodeArray cb (x.arg 0) size =
      if size < 4 then .error .failed else arrayBytes <$> enc (size - 4)) :
    Codes (encodeField cb x) (Encoded.ofData (arrayBytes elements)) (4 + cost) := by
  have hfield : encodeField cb x = fun size : Int => Encoded.ofData <$>
      (if size < (4 : Nat) then .error .failed else arrayBytes <$> enc (size - (4 : Nat))) := by
    funext size
    rw [encodeField, harray, if_pos rfl, henc]
    rfl
  rw [hfield]
  exact ((h.map arrayBytes).header 4).map Encoded.ofData

theorem encodeField_array {enc : Int → Except Failure (Option (List UInt8))} {bytes : List UInt8}
    (harray : x.array = true) (h : Codes enc (some bytes) bytes.length)
    (henc : ∀ size, encodeArray cb (x.arg 0) size =
      if size < 4 then .error .failed else arrayBytes <$> enc (size - 4)) :
    Codes (encodeField cb x) (.data (sized bytes)) (sized bytes).length := by
  rw [← ofData_sized, sized_length]
  exact encodeField_elements harray h henc

theorem Represents.array {v : Value} {bytes : List UInt8} (harray : x.array = true)
    (hempty : bytes = [] → v.reports x.tag = [(x.tag, -1, .empty)])
    (h : bytes ≠ [] → bytes.length < 2 ^ 31 → ∃ n, ∀ fuel, n ≤ fuel → ∀ tail s,
      decodeArray (collect types (fuel + 1)) (x.arg 0) (sized bytes ++ tail) s =
        .ok (s ++ v.reports x.tag)) :
    Represents types x v (.data (sized bytes)) := by
  refine .data bytes fun hlen => ?_
  have hfield : ∀ (cb : Collect (List Report)) data s,
      decodeField cb x (-1) data s = decodeArray cb (x.arg 0) data s := fun cb data s => by
    rw [decodeField, if_pos (by decide), harray, if_pos rfl]
  by_cases hb : bytes = []
  · refine ⟨0, fun fuel _ tail s => ?_⟩
    rw [hfield, decodeArray, readDword_sized (by omega), hempty hb, hb]
    rfl
  · obtain ⟨n, hn⟩ := h hb hlen
    refine ⟨n, fun fuel hfuel tail s => ?_⟩
    rw [hfield, hn fuel hfuel]

theorem decodeArray_elements {σ : Type} {a : Arg} {bytes : List UInt8} (hb : bytes ≠ [])
    (hlen : bytes.length < 2 ^ 31) (cb : Collect σ) (tail : List UInt8) (s : σ) :
    decodeArray cb a (sized bytes ++ tail) s =
      match a.type with
      | .double | .integer => do
        let len := Bytes.ofLe (← readBytes (bytes ++ tail) 1)
        let stream := (bytes ++ tail).drop 1
        let sz := bytes.length - 1
        if len = SIZEOF_INT32 then
          if sz % SIZEOF_INT32 ≠ 0 then .error .failed
          else decodeIntegers cb a 4 expand64 (sz / SIZEOF_INT32) 1 stream s
        else if len = SIZEOF_INT64 then
          if sz % SIZEOF_INT64 ≠ 0 then .error .failed
          else decodeIntegers cb a 8 id (sz / SIZEOF_INT64) 1 stream s
        else .error .failed
      | .boolean => decodeIntegers cb a 1 id bytes.length 1 (bytes ++ tail) s
      | .string | .struct => decodeArrayObject cb a (bytes ++ tail) bytes.length 1 s := by
  have hpos : bytes.length ≠ 0 := fun h => hb (List.length_eq_zero_iff.mp h)
  rw [decodeArray, readDword_sized (by omega)]
  dsimp only [bind, Except.bind]
  rw [if_neg hpos, drop_sized]
  cases a.type with
  | integer | double | boolean => rfl
  | string | struct => exact if_pos hlen

theorem ofLe_element {ns : List Num} {m : Num} (hm : m ∈ ns) :
    (if ns.any Num.isWide then id else expand64) (Bytes.ofLe (m.element (width ns))) = m.value := by
  rw [Num.element, Bytes.ofLe_le, width]
  cases hwide : ns.any Num.isWide with
  | true => exact Nat.mod_eq_of_lt m.value_lt
  | false =>
    cases m with
    | wide v =>
      have h := List.any_eq_false.mp hwide _ hm
      exact absurd rfl h
    | narrow v =>
      have hlow : expand64 v.toNat % 256 ^ 4 = v.toNat := by
        have hv := v.toNat_lt
        unfold expand64
        split <;> omega
      change expand64 (expand64 v.toNat % 256 ^ 4) = expand64 v.toNat
      rw [hlow]

theorem readBytes_one (b : UInt8) (rest : List UInt8) : readBytes (b :: rest) 1 = .ok [b] :=
  readBytes_append (a := [b]) rfl

theorem decodeArray_numbers {σ : Type} {a : Arg} (htype : a.type = .integer ∨ a.type = .double)
    (wide : Bool) {n : Nat} {elements : List UInt8}
    (hlen : elements.length = n * (if wide then SIZEOF_INT64 else SIZEOF_INT32))
    (hsize : elements.length + 1 < 2 ^ 31) (cb : Collect σ) (tail : List UInt8) (s : σ) :
    decodeArray cb a (sized (UInt8.ofNat (if wide then SIZEOF_INT64 else SIZEOF_INT32) ::
        elements) ++ tail) s =
      decodeIntegers cb a (if wide then SIZEOF_INT64 else SIZEOF_INT32)
        (if wide then id else expand64) n 1 (elements ++ tail) s := by
  rw [decodeArray_elements (List.cons_ne_nil _ _) hsize, List.length_cons, Nat.add_sub_cancel,
    List.cons_append, readBytes_one, hlen]
  have h32 : n * SIZEOF_INT32 % SIZEOF_INT32 = 0 := Nat.mul_mod_left ..
  have h32' : n * SIZEOF_INT32 / SIZEOF_INT32 = n := Nat.mul_div_cancel _ (by decide)
  have h64 : n * SIZEOF_INT64 % SIZEOF_INT64 = 0 := Nat.mul_mod_left ..
  have h64' : n * SIZEOF_INT64 / SIZEOF_INT64 = n := Nat.mul_div_cancel _ (by decide)
  rcases htype with h | h <;> rw [h] <;> dsimp only [bind, Except.bind] <;> cases wide with
  | true =>
    rw [if_pos rfl, if_pos rfl, if_neg (by decide), if_pos (by decide), if_neg (not_not_intro h64),
      h64']
    rfl
  | false =>
    rw [if_neg Bool.false_ne_true, if_neg Bool.false_ne_true, if_pos (by decide),
      if_neg (not_not_intro h32), h32']
    rfl

theorem decodeArray_integers {ns : List Num} (hne : ns ≠ [])
    (htype : x.type = .integer ∨ x.type = .double) (hlen : (integerBytes ns).length < 2 ^ 31)
    (fuel : Nat) (tail : List UInt8) (s : List Report) :
    decodeArray (collect types (fuel + 1)) (x.arg 0) (sized (integerBytes ns) ++ tail) s =
      .ok (s ++ elementReports x.tag (ns.map fun n => .integer n.value)) := by
  have hbytes : integerBytes ns =
      UInt8.ofNat (width ns) :: ns.flatMap (Num.element · (width ns)) := if_neg hne
  have harg := arg_type_ne htype (by decide) (by decide)
  have hvalues : (ns.map fun n => Seen.integer n.value) = (ns.map Num.value).map .integer := by
    rw [List.map_map]
    rfl
  have hall : ∀ v ∈ ns.map Num.value, v < 2 ^ 64 := fun v hv => by
    obtain ⟨n, -, rfl⟩ := List.mem_map.mp hv
    exact n.value_lt
  rw [hbytes, List.length_cons] at hlen
  have hdecode := decodeArray_numbers (a := x.arg 0) htype (ns.any Num.isWide)
    (elements_length ns (width ns)) hlen (collect types (fuel + 1)) tail s
  rw [hbytes]
  refine hdecode.trans ?_
  change decodeIntegers _ _ (width ns) _ _ _ _ _ = _
  rw [decodeIntegers_elements _ _ (fun m => Num.element_length m (width ns)) ns
      (fun m hm => ofLe_element hm), collectAll_reports harg fuel _ hall, ← hvalues,
    ← elementReports_eq (by simpa using hne)]
  rfl

theorem integers_trips {ns : List Num} (harray : x.array = true)
    (htype : x.type = .integer ∨ x.type = .double) : FieldTrips types x (.integers ns) := by
  refine ⟨.data (sized (integerBytes ns)), Represents.array harray (fun hb => ?_)
    fun hb hlen => ⟨0, fun fuel _ tail s => ?_⟩, fun cb hcb => ?_⟩
  · have hns : ns = [] := by
      by_contra hne
      rw [integerBytes, if_neg hne] at hb
      cases hb
    rw [hns]
    rfl
  · have hne : ns ≠ [] := fun h => hb (if_pos h)
    exact decodeArray_integers hne htype hlen fuel tail s
  · have hgives : GivesElements cb (x.arg 0) 8 ns fun n => .ok n.bytes := fun index =>
      hcb index 8
    refine encodeField_array harray (encodeIntegerArray_codes hgives) fun size => ?_
    rw [encodeArray]
    rcases htype with h | h
    · rw [show (x.arg 0).type = _ from h]
      rfl
    · rw [show (x.arg 0).type = _ from h]
      rfl

theorem booleans_trips {bs : List Bool} (harray : x.array = true) (htype : x.type = .boolean) :
    FieldTrips types x (.booleans bs) := by
  refine ⟨.data (sized (bs.map booleanByte)), Represents.array harray (fun hb => ?_)
    fun hb hlen => ⟨0, fun fuel _ tail s => ?_⟩, fun cb hcb => ?_⟩
  · rw [List.map_eq_nil_iff.mp hb]
    rfl
  · have hne : bs ≠ [] := fun h => hb (by rw [h]; rfl)
    have hbytes : bs.map booleanByte = bs.flatMap fun b => [booleanByte b] :=
      List.map_eq_flatMap
    have hvalue : ∀ b ∈ bs, id (Bytes.ofLe [booleanByte b]) = b.toNat := fun b _ => by
      cases b <;> rfl
    have hvalues : (bs.map fun b => Seen.integer b.toNat) = (bs.map Bool.toNat).map .integer := by
      rw [List.map_map]
      rfl
    have hall : ∀ v ∈ bs.map Bool.toNat, v < 2 ^ 64 := fun v hv => by
      obtain ⟨b, -, rfl⟩ := List.mem_map.mp hv
      cases b <;> decide
    have harg := arg_type_ne (or_self_iff.mpr htype) (by decide) (by decide)
    rw [decodeArray_elements hb hlen, show (x.arg 0).type = _ from htype]
    dsimp only
    rw [List.length_map, hbytes, decodeIntegers_elements (w := 1) _ _ (fun _ => rfl) bs hvalue,
      collectAll_reports harg fuel _ hall, ← hvalues,
      ← elementReports_eq (by simpa using hne)]
    rfl
  · have hgives : GivesElements cb (x.arg 0) 4 bs fun b => .ok (Bytes.le 4 b.toNat) :=
      fun index => hcb index 4
    have hcodes := booleanLoop_codes hgives bs [] (List.nil_append bs).symm
    have hlength : bs.length = (bs.map booleanByte).length := (List.length_map ..).symm
    rw [hlength] at hcodes
    refine encodeField_array harray hcodes fun size => ?_
    rw [encodeArray, show (x.arg 0).type = _ from htype]
    rfl

theorem objects_trips {v : Value} (es : List (List UInt8 × Seen)) (harray : x.array = true)
    (htype : x.type = .string ∨ x.type = .struct)
    (hreports : v.reports x.tag = elementReports x.tag (es.map Prod.snd))
    (hcollect : (∀ e ∈ es, e.1.length < 2 ^ 31) → ∃ n, ∀ fuel, n ≤ fuel →
      ∀ e ∈ es, Reports (collect types (fuel + 1)) (x.arg 0) e.1 e.2)
    (hgives : ∀ cb, Supplies types cb x v → GivesAll cb (x.arg 0) (es.map Prod.fst)) :
    FieldTrips types x v := by
  refine ⟨.data (sized ((es.map Prod.fst).flatMap sized)), Represents.array harray (fun hb => ?_)
    fun hb hlen => ?_, fun cb hcb => ?_⟩
  · cases es with
    | nil => exact hreports
    | cons e es =>
      have h := congrArg List.length hb
      rw [List.map_cons, List.flatMap_cons, List.length_append, sized_length, List.length_nil] at h
      omega
  · have hle : ∀ e ∈ es, e.1.length ≤ ((es.map Prod.fst).flatMap sized).length := fun e he => by
      have hmem : e.1 ∈ es.map Prod.fst := List.mem_map_of_mem he
      obtain ⟨before, after, heq⟩ := List.append_of_mem hmem
      rw [heq, List.flatMap_append, List.flatMap_cons, List.length_append, List.length_append,
        sized_length]
      omega
    obtain ⟨n, hn⟩ := hcollect fun e he => Nat.lt_of_le_of_lt (hle e he) hlen
    refine ⟨n, fun fuel hfuel tail s => ?_⟩
    have hne : es.map Prod.snd ≠ [] := by
      intro h
      rw [List.map_eq_nil_iff.mp h] at hb
      exact hb rfl
    have helements := decodeArrayObject_elements es (hn fuel hfuel)
      (fun e he => by have := hle e he; omega) tail 1 s
    rw [decodeArray_elements hb hlen, hreports, elementReports_eq hne]
    rcases htype with h | h
    · rw [show (x.arg 0).type = _ from h]
      exact helements
    · rw [show (x.arg 0).type = _ from h]
      exact helements
  · have hcodes := objectLoop_codes (hgives cb hcb) (es.map Prod.fst) [] (List.nil_append _).symm
    refine encodeField_array harray hcodes fun size => ?_
    rw [encodeArray]
    rcases htype with h | h
    · rw [show (x.arg 0).type = _ from h]
      rfl
    · rw [show (x.arg 0).type = _ from h]
      rfl

theorem strings_trips {ss : List (List UInt8)} (harray : x.array = true)
    (htype : x.type = .string) : FieldTrips types x (.strings ss) := by
  have hfst : (ss.map fun s => (s, Seen.bytes s)).map Prod.fst = ss := by
    rw [List.map_map]
    exact List.map_id ss
  refine objects_trips (ss.map fun s => (s, .bytes s)) harray (.inl htype) ?_
    (fun _ => ⟨0, fun fuel _ e he => ?_⟩) fun cb hcb => ?_
  · rw [List.map_map]
    rfl
  · obtain ⟨s, -, rfl⟩ := List.mem_map.mp he
    exact collect_string htype fuel s
  · rw [hfst]
    constructor
    · intro i hi
      have h : cb { x.arg 0 with index := (i + 1 : Nat) } = supplyString ss[i] := by
        funext length
        exact (hcb _ length).trans (supplyElement_of_lt hi _)
      rw [h]
      exact supplyString_gives ss[i]
    · exact fun length => (hcb _ length).trans (supplyElement_end ss _)

theorem supplyObjects_of_lt {os : List Object} {i : Nat} (h : i < os.length) (a : Arg)
    (length : Int) :
    supplyObjects types os i a length = supplyStruct types (supplyObject types os[i]) a length := by
  induction os generalizing i with
  | nil => exact absurd h (Nat.not_lt_zero i)
  | cons o os ih =>
    cases i with
    | zero => rfl
    | succ i => exact ih (Nat.lt_of_succ_lt_succ h)

theorem supplyObjects_end (os : List Object) (a : Arg) (length : Int) :
    supplyObjects types os os.length a length = .nil := by
  induction os with
  | nil => rfl
  | cons o os ih => exact ih

theorem structReports_eq (os : List Object) :
    structReports os = os.map fun o => .struct (objectReports o) := by
  induction os with
  | nil => rfl
  | cons o os ih => rw [structReports, ih, List.map_cons]

theorem exists_fuel {α : Type} {P : α → Nat → Prop} (xs : List α)
    (h : ∀ x ∈ xs, ∃ n, ∀ fuel, n ≤ fuel → P x fuel) :
    ∃ n, ∀ fuel, n ≤ fuel → ∀ x ∈ xs, P x fuel := by
  induction xs with
  | nil => exact ⟨0, fun _ _ _ hx => absurd hx List.not_mem_nil⟩
  | cons x xs ih =>
    obtain ⟨n, hn⟩ := h x List.mem_cons_self
    obtain ⟨m, hm⟩ := ih fun y hy => h y (List.mem_cons_of_mem x hy)
    refine ⟨max n m, fun fuel hfuel y hy => ?_⟩
    rcases List.mem_cons.mp hy with rfl | hy
    · exact hn fuel (le_trans (le_max_left n m) hfuel)
    · exact hm fuel (le_trans (le_max_right n m) hfuel) y hy

theorem structs_trips {os : List Object} {t : Nat} (harray : x.array = true)
    (htype : x.type = .struct) (ht : x.st = some t)
    (h : ∀ o ∈ os, RoundTrips types o (types t)) : FieldTrips types x (.structs os) := by
  choose! code hencode hdecode using h
  have hfst : (os.map fun o => (code o, Seen.struct (objectReports o))).map Prod.fst =
      os.map code := by
    rw [List.map_map]
    rfl
  refine objects_trips (os.map fun o => (code o, .struct (objectReports o))) harray
    (.inr htype) ?_ (fun hlen => ?_) fun cb hcb => ?_
  · rw [List.map_map]
    exact congrArg (elementReports x.tag) (structReports_eq os)
  · have hfuel : ∀ o ∈ os, ∃ n, ∀ fuel, n ≤ fuel →
        sprotoDecode (types t) (code o) (collect types fuel) [] =
          .ok (objectReports o, (code o).length) := fun o ho =>
      hdecode o ho (hlen _ (List.mem_map_of_mem ho))
    obtain ⟨n, hn⟩ := exists_fuel os hfuel
    refine ⟨n, fun fuel hle e he => ?_⟩
    obtain ⟨o, ho, rfl⟩ := List.mem_map.mp he
    exact collect_struct htype ht (hn fuel hle o ho)
  · rw [hfst]
    constructor
    · intro i hi
      rw [List.length_map] at hi
      have hcb' : cb { x.arg 0 with index := (i + 1 : Nat) } =
          supplyStruct types (supplyObject types os[i])
            { x.arg 0 with index := (i + 1 : Nat) } := by
        funext length
        refine (hcb _ length).trans ?_
        exact supplyObjects_of_lt hi _ length
      rw [hcb', List.getElem_map]
      exact supplyStruct_gives ht (hencode _ (List.getElem_mem hi))
    · intro length
      rw [List.length_map]
      exact (hcb _ length).trans (supplyObjects_end os _ length)

/-- The callback has no value for the field. -/
def SuppliesNone (cb : Supply) (x : Field) : Prop :=
  ∀ index length, cb (x.arg index) length = if index > 0 then .noarray else .nil

theorem encodeIntegerArray_none {a : Arg}
    (h : ∀ length, cb { a with index := (1 : Nat) } length = .noarray) :
    encodeIntegerArray cb a = fun size : Int =>
      if size < (1 : Nat) then .error .failed else .ok none := by
  funext size
  have hloop : ∀ s : IntArray, s.index = 1 → integerLoop cb a s = .ok none := fun s hs => by
    rw [integerLoop, hs, h]
  rw [encodeIntegerArray, hloop _ rfl]
  rfl

theorem noarray_codes (harray : x.array = true) (hcb : SuppliesNone cb x) :
    Codes (encodeField cb x) .absent 0 := by
  have hfirst : ∀ length, cb { x.arg 0 with index := (1 : Nat) } length = .noarray := hcb 1
  have hintegers := (Codes.guard (none : Option (List UInt8)) 1)
  rw [← encodeIntegerArray_none hfirst] at hintegers
  have hbooleans : Codes (fun size => booleanLoop cb (x.arg 0) size 1) none 0 := by
    have hloop : (fun size => booleanLoop cb (x.arg 0) size 1) = fun _ => .ok none := by
      funext size
      rw [booleanLoop, hfirst]
    rw [hloop]
    exact Codes.always none
  have hobjects : Codes (fun size => objectLoop cb (x.arg 0) size 1) none 4 := by
    have hloop : (fun size => objectLoop cb (x.arg 0) size 1) =
        fun size : Int => if size < (4 : Nat) then .error .failed else .ok none := by
      funext size
      rw [objectLoop, hfirst]
      rfl
    rw [hloop]
    exact Codes.guard none 4
  cases htype : x.type with
  | integer | double =>
    refine (encodeField_elements harray hintegers fun size => ?_).mono (Nat.zero_le _)
    rw [encodeArray, show (x.arg 0).type = _ from htype]
    rfl
  | boolean =>
    refine (encodeField_elements harray hbooleans fun size => ?_).mono (Nat.zero_le _)
    rw [encodeArray, show (x.arg 0).type = _ from htype]
    rfl
  | string | struct =>
    refine (encodeField_elements harray hobjects fun size => ?_).mono (Nat.zero_le _)
    rw [encodeArray, show (x.arg 0).type = _ from htype]
    rfl

theorem absent_codes (hcb : SuppliesNone cb x) : Codes (encodeField cb x) .absent 0 := by
  cases harray : x.array with
  | true => exact noarray_codes harray hcb
  | false =>
    have hnil : ∀ length, cb (x.arg 0) length = .nil := hcb 0
    cases htype : x.type with
    | integer | double | boolean =>
      have hfield : encodeField cb x = fun _ => .ok .absent := by
        funext size
        rw [encodeField, harray, if_neg Bool.false_ne_true, htype]
        dsimp only
        rw [hnil]
      rw [hfield]
      exact Codes.always Encoded.absent
    | string | struct =>
      have hfield : encodeField cb x = fun size : Int => Encoded.ofData <$>
          if size < (4 : Nat) then .error .failed else .ok [] := by
        funext size
        rw [encodeField, harray, if_neg Bool.false_ne_true, htype]
        dsimp only
        rw [encodeObject, hnil]
        rfl
      rw [hfield]
      exact ((Codes.guard [] 4).map Encoded.ofData).mono (Nat.zero_le 4)

end XsServer.Sproto
