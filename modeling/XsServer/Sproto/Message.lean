import XsServer.Sproto.Layout

/-! A message that was encoded is decoded to the values of the object, for every type and every
object of it. -/

namespace XsServer.Sproto

open Lib

/-- What the field became is decoded to some reports. -/
def Decodes (cb : Collect (List Report)) (x : Field) (reports : List Report) : Encoded → Prop
  | .absent => reports = []
  | .stop => False
  | .value w => ∃ u, u < 0x7fff ∧ w = (u + 1) * 2 ∧
      ∀ data s, decodeField cb x (u : Nat) data s = .ok (s ++ reports)
  | .data bytes => ∃ payload, bytes = sized payload ∧ payload.length < 2 ^ 31 ∧
      ∀ tail s, decodeField cb x (-1) (bytes ++ tail) s = .ok (s ++ reports)

variable {st : SprotoType} {code : Field → Encoded} {last : Int} {x : Field} {fs : List Field}
  {cb : Collect (List Report)} {reports : Field → List Report}

theorem decodeLoop_skips (h : last < x.tag) (recs : List Nat) (data : List UInt8) (size : Nat)
    (s : List Report) :
    decodeLoop st cb (skips last x.tag ++ recs) last data size s =
      decodeLoop st cb recs (x.tag - 1) data size s := by
  unfold skips
  split
  · rename_i hgap
    obtain ⟨d, hd⟩ : ∃ d : Nat, (x.tag : Int) - last - 1 - 1 = d :=
      Int.eq_ofNat_of_zero_le (by omega)
    have hvalue : (((x.tag : Int) - last - 1 - 1) * 2 + 1).toNat = d * 2 + 1 := by omega
    have htag : last + 1 + ((d * 2 + 1) / 2 : Nat) = (x.tag : Int) - 1 := by omega
    rw [hvalue, List.singleton_append, decodeLoop]
    dsimp only
    rw [if_pos (by omega)]
    push_cast at htag ⊢
    rw [htag]
  · have htag : (x.tag : Int) - 1 = last := by omega
    rw [List.nil_append, htag]

theorem decodeLoop_value (hx : x ∈ st.f) {u : Nat}
    (h : ∀ data s, decodeField cb x (u : Nat) data s = .ok (s ++ reports x))
    (recs : List Nat) (data : List UInt8) (size : Nat) (s : List Report) :
    decodeLoop st cb ((u + 1) * 2 :: recs) (x.tag - 1) data size s =
      decodeLoop st cb recs x.tag data size (s ++ reports x) := by
  have hfind : findtag st x.tag = some x := findtag_eq_some.mpr ⟨hx, rfl⟩
  have hvalue : (((u + 1) * 2 / 2 : Nat) : Int) - 1 = (u : Nat) := by omega
  rw [decodeLoop]
  dsimp only
  rw [if_neg (by omega), Int.sub_add_cancel]
  push_cast at hvalue ⊢
  rw [hvalue, if_neg (by omega)]
  dsimp only [pure, Except.pure, bind, Except.bind]
  rw [hfind]
  dsimp only
  rw [h]

theorem decodeLoop_data (hx : x ∈ st.f) {payload : List UInt8} (hlen : payload.length < 2 ^ 31)
    (h : ∀ tail s, decodeField cb x (-1) (sized payload ++ tail) s = .ok (s ++ reports x))
    (recs : List Nat) (tail : List UInt8) (size : Nat) (s : List Report) :
    decodeLoop st cb (0 :: recs) (x.tag - 1) (sized payload ++ tail)
        ((sized payload).length + size) s =
      decodeLoop st cb recs x.tag tail size (s ++ reports x) := by
  have hfind : findtag st x.tag = some x := findtag_eq_some.mpr ⟨hx, rfl⟩
  have hsum : addUint32 payload.length SIZEOF_LENGTH = (sized payload).length := by
    rw [sized_length, addUint32, SIZEOF_LENGTH]
    omega
  have hsized := sized_length payload
  rw [decodeLoop]
  dsimp only
  rw [if_neg (by decide), Int.sub_add_cancel, if_pos (by decide),
    if_neg (by rw [SIZEOF_LENGTH]; omega), readDword_sized (by omega)]
  dsimp only [bind, Except.bind]
  rw [hsum, if_neg (by omega), List.drop_left' rfl, Nat.add_sub_cancel_left,
    hfind]
  dsimp only
  rw [show ((0 : Nat) : Int) / 2 - 1 = -1 from rfl, h]

theorem decodeLoop_fields (h : Follow last fs) (hfs : ∀ x ∈ fs, x ∈ st.f)
    (hcode : ∀ x ∈ fs, Decodes cb x (reports x) (code x)) (s : List Report) :
    decodeLoop st cb (records code last fs) last (dataOf code fs) (dataOf code fs).length s =
      .ok (s ++ fs.flatMap reports, 0) := by
  induction fs generalizing last s with
  | nil =>
    rw [List.flatMap_nil, List.append_nil]
    rfl
  | cons x fs ih =>
    have hrest : ∀ {last}, Follow last fs → ∀ s, _ := fun h s =>
      ih h (fun y hy => hfs y (List.mem_cons_of_mem x hy))
        (fun y hy => hcode y (List.mem_cons_of_mem x hy)) s
    have hx := hfs x List.mem_cons_self
    have hafter := h.after x List.mem_cons_self
    have hdecodes := hcode x List.mem_cons_self
    have hdata : dataOf code (x :: fs) = (code x).bytes ++ dataOf code fs := List.flatMap_cons
    rw [hdata, records, List.flatMap_cons, ← List.append_assoc]
    cases hc : code x with
    | stop =>
      rw [hc] at hdecodes
      exact hdecodes.elim
    | absent =>
      rw [hc] at hdecodes
      have hnone : reports x = [] := hdecodes
      rw [hnone, List.append_nil]
      exact hrest h.skip s
    | value w =>
      rw [hc] at hdecodes
      obtain ⟨u, -, rfl, hfield⟩ := hdecodes
      dsimp only
      rw [decodeLoop_skips hafter, decodeLoop_value hx hfield]
      exact hrest h.tail (s ++ reports x)
    | data bytes =>
      rw [hc] at hdecodes
      obtain ⟨payload, rfl, hlen, hfield⟩ := hdecodes
      dsimp only [Encoded.bytes]
      rw [decodeLoop_skips hafter, List.length_append, decodeLoop_data hx hlen hfield]
      exact hrest h.tail (s ++ reports x)

theorem words_flatMap (recs : List Nat) (h : ∀ w ∈ recs, w < 2 ^ 16) (tail : List UInt8) :
    words recs.length (recs.flatMap (Bytes.le 2) ++ tail) = recs := by
  induction recs with
  | nil => rfl
  | cons w recs ih =>
    have hw : toword (Bytes.le 2 w ++ (recs.flatMap (Bytes.le 2) ++ tail)) = w := by
      rw [toword, List.take_left' (Bytes.le_length ..), Bytes.ofLe_le]
      exact Nat.mod_eq_of_lt (h w List.mem_cons_self)
    rw [List.flatMap_cons, List.append_assoc, List.length_cons, words, hw,
      List.drop_left' (Bytes.le_length ..), ih fun v hv => h v (List.mem_cons_of_mem w hv)]

theorem sprotoDecode_message (hcode : ∀ x ∈ st.f, Decodes cb x (reports x) (code x)) :
    sprotoDecode st (message st code) cb [] =
      .ok (st.f.flatMap reports, (message st code).length) := by
  have hmessage := message_length st code
  have hlt : (records code (-1) st.f).length < 2 ^ 16 := by
    have := st.records_le code
    have := st.maxn_le
    omega
  have hwords : ∀ w ∈ records code (-1) st.f, w < 2 ^ 16 := by
    refine records_lt st.follow fun x hx v hv => ?_
    have hdecodes := hcode x hx
    rw [hv] at hdecodes
    obtain ⟨u, hu, rfl, -⟩ := hdecodes
    omega
  have hfn : toword (message st code) = (records code (-1) st.f).length := by
    simp only [message]
    rw [List.append_assoc, toword, List.take_left' (Bytes.le_length ..), Bytes.ofLe_le]
    exact Nat.mod_eq_of_lt hlt
  have hstream : (message st code).drop SIZEOF_HEADER =
      (records code (-1) st.f).flatMap (Bytes.le 2) ++ dataOf code st.f := by
    simp only [message]
    rw [List.append_assoc]
    exact List.drop_left' (Bytes.le_length ..)
  have hdrop : ((records code (-1) st.f).flatMap (Bytes.le 2) ++ dataOf code st.f).drop
      ((records code (-1) st.f).length * SIZEOF_FIELD) = dataOf code st.f :=
    List.drop_left' (words_length _)
  have hsize : (message st code).length - SIZEOF_HEADER -
      (records code (-1) st.f).length * SIZEOF_FIELD = (dataOf code st.f).length := by
    rw [hmessage, SIZEOF_HEADER, SIZEOF_FIELD]
    omega
  rw [sprotoDecode, if_neg (by rw [hmessage, SIZEOF_HEADER]; omega)]
  dsimp only
  rw [hfn, if_neg (by rw [hmessage, SIZEOF_HEADER, SIZEOF_FIELD]; omega), hstream,
    words_flatMap _ hwords, hdrop, hsize,
    decodeLoop_fields st.follow (fun x hx => hx) hcode, List.nil_append]
  rfl

/-! ### Objects -/

variable {types : Types} {o : Object} {v : Value}

theorem OfType.mem (h : OfType types o st) {e : Nat × Value} (he : e ∈ o) :
    ∃ x ∈ st.f, x.tag = e.1 ∧ e.2.HasType types x := by
  induction o with
  | nil => exact absurd he List.not_mem_nil
  | cons e' rest ih =>
    obtain ⟨tag, v⟩ := e'
    rw [OfType] at h
    rcases List.mem_cons.mp he with rfl | he
    · exact h.1
    · exact ih h.2.2 he

theorem OfType.sorted (h : OfType types o st) : o.Pairwise fun d e => d.1 < e.1 := by
  induction o with
  | nil => exact List.Pairwise.nil
  | cons e rest ih =>
    obtain ⟨tag, v⟩ := e
    rw [OfType] at h
    exact List.Pairwise.cons h.2.1 (ih h.2.2)

theorem AllOfType.mem {os : List Object} (h : AllOfType types os st) (ho : o ∈ os) :
    OfType types o st := by
  induction os with
  | nil => exact absurd ho List.not_mem_nil
  | cons o' rest ih =>
    rw [AllOfType] at h
    rcases List.mem_cons.mp ho with rfl | ho
    · exact h.1
    · exact ih h.2 ho

def Object.get (o : Object) (tag : Nat) : Option Value := o.lookup tag

theorem Object.get_cons (tag : Nat) (v : Value) (rest : Object) (t : Nat) :
    Object.get ((tag, v) :: rest) t = if tag = t then some v else Object.get rest t := by
  rw [Object.get, List.lookup_cons]
  by_cases h : tag = t
  · rw [if_pos h, h, beq_self_eq_true]
  · rw [if_neg h, beq_eq_false_iff_ne.mpr (Ne.symm h)]
    rfl

theorem Object.get_eq_none {t : Nat} (h : ∀ e ∈ o, e.1 ≠ t) : o.get t = none := by
  induction o with
  | nil => rfl
  | cons e rest ih =>
    obtain ⟨tag, v⟩ := e
    rw [Object.get_cons, if_neg (h _ List.mem_cons_self),
      ih fun e he => h e (List.mem_cons_of_mem _ he)]

theorem Object.mem_of_get {t : Nat} (h : o.get t = some v) : (t, v) ∈ o := by
  induction o with
  | nil => cases h
  | cons e rest ih =>
    obtain ⟨tag, v'⟩ := e
    rw [Object.get_cons] at h
    split at h
    · rename_i heq
      cases h
      rw [heq]
      exact List.mem_cons_self
    · exact List.mem_cons_of_mem _ (ih h)

theorem supplyObject_some (h : o.get x.tag = some v) :
    Supplies types (supplyObject types o) x v := by
  intro index length
  induction o with
  | nil => cases h
  | cons e rest ih =>
    obtain ⟨tag, v'⟩ := e
    rw [Object.get_cons] at h
    rw [supplyObject]
    split at h
    · rename_i heq
      cases h
      exact if_pos heq
    · rename_i hne
      exact (if_neg hne).trans (ih h)

theorem supplyObject_none (h : o.get x.tag = none) : SuppliesNone (supplyObject types o) x := by
  intro index length
  induction o with
  | nil => rfl
  | cons e rest ih =>
    obtain ⟨tag, v'⟩ := e
    rw [Object.get_cons] at h
    rw [supplyObject]
    split at h
    · cases h
    · rename_i hne
      exact (if_neg hne).trans (ih h)

def fieldReports (o : Object) (x : Field) : List Report :=
  match o.get x.tag with
  | none => []
  | some v => v.reports x.tag

theorem flatMap_fieldReports (hfs : fs.Pairwise fun x y => x.tag < y.tag)
    (ho : o.Pairwise fun d e => d.1 < e.1) (h : ∀ e ∈ o, ∃ x ∈ fs, x.tag = e.1) :
    fs.flatMap (fieldReports o) = objectReports o := by
  induction fs generalizing o with
  | nil =>
    cases o with
    | nil => rfl
    | cons e rest =>
      obtain ⟨x, hx, -⟩ := h e List.mem_cons_self
      exact absurd hx List.not_mem_nil
  | cons x fs ih =>
    have hafter : ∀ y ∈ fs, x.tag < y.tag := fun y hy => List.rel_of_pairwise_cons hfs hy
    rw [List.flatMap_cons]
    by_cases hhead : ∃ v rest, o = (x.tag, v) :: rest
    · obtain ⟨v, rest, rfl⟩ := hhead
      have hgreater : ∀ e ∈ rest, x.tag < e.1 := fun e he => List.rel_of_pairwise_cons ho he
      have hrest : ∀ e ∈ rest, ∃ y ∈ fs, y.tag = e.1 := fun e he => by
        obtain ⟨y, hy, htag⟩ := h e (List.mem_cons_of_mem _ he)
        rcases List.mem_cons.mp hy with rfl | hy
        · exact absurd htag (Nat.ne_of_lt (hgreater e he))
        · exact ⟨y, hy, htag⟩
      have hsame : fs.flatMap (fieldReports ((x.tag, v) :: rest)) =
          fs.flatMap (fieldReports rest) := by
        refine List.flatMap_congr fun y hy => ?_
        rw [fieldReports, fieldReports, Object.get_cons, if_neg (Nat.ne_of_lt (hafter y hy))]
      rw [hsame, ih hfs.of_cons ho.of_cons hrest, fieldReports, Object.get_cons, if_pos rfl]
      rfl
    · have hne : ∀ e ∈ o, e.1 ≠ x.tag := by
        intro e he heq
        cases o with
        | nil => exact absurd he List.not_mem_nil
        | cons e' rest =>
          rcases List.mem_cons.mp he with rfl | he
          · exact hhead ⟨e.2, rest, by rw [← heq]⟩
          · have hless := List.rel_of_pairwise_cons ho he
            obtain ⟨y, hy, htag⟩ := h e' List.mem_cons_self
            rcases List.mem_cons.mp hy with rfl | hy
            · omega
            · have := hafter y hy
              omega
      have hrest : ∀ e ∈ o, ∃ y ∈ fs, y.tag = e.1 := fun e he => by
        obtain ⟨y, hy, htag⟩ := h e he
        rcases List.mem_cons.mp hy with rfl | hy
        · exact absurd htag.symm (hne e he)
        · exact ⟨y, hy, htag⟩
      rw [fieldReports, Object.get_eq_none hne, ih hfs.of_cons ho hrest]
      rfl

theorem Represents.decodes {e : Encoded} (h : Represents types x v e)
    (hlen : e.bytes.length < 2 ^ 31) :
    ∃ n, ∀ fuel, n ≤ fuel → Decodes (collect types fuel) x (v.reports x.tag) e := by
  cases h with
  | value u hu h =>
    refine ⟨1, fun fuel hfuel => ?_⟩
    obtain ⟨fuel, rfl⟩ := Nat.exists_eq_succ_of_ne_zero (Nat.ne_of_gt hfuel)
    exact ⟨u, hu, rfl, h fuel⟩
  | data payload h =>
    have hpayload : payload.length < 2 ^ 31 := by
      rw [Encoded.bytes, sized_length] at hlen
      omega
    obtain ⟨n, hn⟩ := h hpayload
    refine ⟨n + 1, fun fuel hfuel => ?_⟩
    obtain ⟨fuel, rfl⟩ := Nat.exists_eq_succ_of_ne_zero (show fuel ≠ 0 by omega)
    exact ⟨payload, rfl, hpayload, hn fuel (Nat.le_of_succ_le_succ hfuel)⟩

theorem field_codes (h : OfType types o st)
    (hfields : ∀ e ∈ o, ∀ x ∈ st.f, x.tag = e.1 → e.2.HasType types x → FieldTrips types x e.2)
    (hx : x ∈ st.f) :
    ∃ e : Encoded, (e ≠ .stop ∧ Codes (encodeField (supplyObject types o) x) e e.bytes.length) ∧
      (e.bytes.length < 2 ^ 31 → ∃ n, ∀ fuel, n ≤ fuel →
        Decodes (collect types fuel) x (fieldReports o x) e) := by
  cases hget : o.get x.tag with
  | none =>
    refine ⟨.absent, ⟨fun h => Encoded.noConfusion h, absent_codes (supplyObject_none hget)⟩,
      fun _ => ⟨0, fun _ _ => ?_⟩⟩
    change fieldReports o x = []
    rw [fieldReports, hget]
  | some v =>
    have hmem := Object.mem_of_get hget
    obtain ⟨y, hy, htag, htype⟩ := h.mem hmem
    have heq : y = x := by
      have hfind := findtag_eq_some.mpr ⟨hy, rfl⟩
      rw [htag, findtag_eq_some.mpr ⟨hx, rfl⟩] at hfind
      exact (Option.some.inj hfind).symm
    subst heq
    obtain ⟨e, hrepresents, hcodes⟩ := hfields _ hmem y hx rfl htype
    refine ⟨e, ⟨fun hstop => ?_, hcodes _ (supplyObject_some hget)⟩, fun hlen => ?_⟩
    · rw [hstop] at hrepresents
      cases hrepresents
    · rw [fieldReports, hget]
      exact hrepresents.decodes hlen

theorem object_trips (h : OfType types o st)
    (hfields : ∀ e ∈ o, ∀ x ∈ st.f, x.tag = e.1 → e.2.HasType types x → FieldTrips types x e.2) :
    RoundTrips types o st := by
  have : Nonempty Encoded := ⟨.absent⟩
  choose! code hcode hdecodes using fun x (hx : x ∈ st.f) => field_codes h hfields hx
  refine ⟨message st code, sprotoEncode_codes hcode, fun hlen => ?_⟩
  have hbytes : ∀ x ∈ st.f, (code x).bytes.length < 2 ^ 31 := fun x hx => by
    obtain ⟨before, after, heq⟩ := List.append_of_mem hx
    rw [message_length, dataOf, heq, List.flatMap_append, List.flatMap_cons, List.length_append,
      List.length_append] at hlen
    omega
  obtain ⟨n, hn⟩ := exists_fuel st.f fun x hx => hdecodes x hx (hbytes x hx)
  refine ⟨n, fun fuel hfuel => ?_⟩
  have hreports : st.f.flatMap (fieldReports o) = objectReports o := by
    refine flatMap_fieldReports st.sorted h.sorted fun e he => ?_
    obtain ⟨x, hx, htag, -⟩ := h.mem he
    exact ⟨x, hx, htag⟩
  rw [← hreports]
  exact sprotoDecode_message (hn fuel hfuel)

/-- The value of a field, whatever it has inside. -/
theorem value_trips (v : Value) (x : Field) (h : v.HasType types x) : FieldTrips types x v := by
  match v with
  | .integer n =>
    rw [Value.HasType] at h
    exact integer_trips h.1 h.2
  | .boolean b =>
    rw [Value.HasType] at h
    exact boolean_trips h.1 h.2
  | .string s =>
    rw [Value.HasType] at h
    exact string_trips h.1 h.2
  | .integers ns =>
    rw [Value.HasType] at h
    exact integers_trips h.1 (h.2.imp_right And.left)
  | .booleans bs =>
    rw [Value.HasType] at h
    exact booleans_trips h.1 h.2
  | .strings ss =>
    rw [Value.HasType] at h
    exact strings_trips h.1 h.2
  | .struct o =>
    rw [Value.HasType] at h
    obtain ⟨harray, htype, t, ht, ho⟩ := h
    exact struct_trips harray htype ht
      (object_trips ho fun e he y _ _ hy => value_trips e.2 y hy)
  | .structs os =>
    rw [Value.HasType] at h
    obtain ⟨harray, htype, t, ht, hos⟩ := h
    exact structs_trips harray htype ht fun o ho =>
      object_trips (hos.mem ho) fun e he y _ _ hy => value_trips e.2 y hy
  termination_by sizeOf v
  decreasing_by
    · have hsize := List.sizeOf_lt_of_mem he
      cases e
      simp only [Prod.mk.sizeOf_spec, Value.struct.sizeOf_spec] at hsize ⊢
      omega
    · have hsize := List.sizeOf_lt_of_mem he
      have hsize' := List.sizeOf_lt_of_mem ho
      cases e
      simp only [Prod.mk.sizeOf_spec, Value.structs.sizeOf_spec] at hsize hsize' ⊢
      omega

/-- With enough room an object is encoded, and no record is written over the data. What was encoded
is decoded to the values that are there, and all of it is consumed. -/
theorem encode_decode (types : Types) (st : SprotoType) (o : Object) (h : OfType types o st) :
    (∃ room, ∀ size, room ≤ size →
      ∃ bytes, sprotoEncode st size (supplyObject types o) = .ok bytes) ∧
    (∀ size, sprotoEncode st size (supplyObject types o) ≠ .error .overrun) ∧
    ∀ size bytes, size < 2 ^ 31 → sprotoEncode st size (supplyObject types o) = .ok bytes →
      ∃ n, ∀ fuel, n ≤ fuel →
        sprotoDecode st bytes (collect types fuel) [] = .ok (objectReports o, bytes.length) := by
  obtain ⟨bytes, hcodes, hdecode⟩ := object_trips h fun e _ x _ _ hx => value_trips e.2 x hx
  have hnegative : ∀ size : Int, ¬ 0 ≤ size →
      sprotoEncode st size (supplyObject types o) = .error .failed := fun size hsize => by
    rw [sprotoEncode]
    exact if_pos (lt_of_lt_of_le (not_le.mp hsize) (Int.natCast_nonneg _))
  refine ⟨?_, fun size => ?_, fun size bytes' hint hencode => ?_⟩
  · obtain ⟨room, -, hroom⟩ := hcodes.enough
    exact ⟨room, fun size hsize => ⟨bytes, hroom size hsize⟩⟩
  · by_cases hsize : 0 ≤ size
    · rcases hcodes.cases size hsize with ⟨hok, -⟩ | hfail
      · rw [hok]
        intro h
        cases h
      · rw [hfail]
        intro h
        cases h
    · rw [hnegative size hsize]
      intro h
      cases h
  · by_cases hsize : 0 ≤ size
    · rcases hcodes.cases size hsize with ⟨hok, hle⟩ | hfail
      · rw [hok] at hencode
        obtain rfl := Except.ok.inj hencode
        exact hdecode (by omega)
      · rw [hfail] at hencode
        cases hencode
    · rw [hnegative size hsize] at hencode
      cases hencode

/-- A type with gaps between its tags, and with an array of structs of the type itself. -/
def personType : SprotoType where
  name := [112]
  f := [⟨[110], 0, .string, false, none, -1, 0⟩, ⟨[105], 3, .integer, false, none, -1, 0⟩,
    ⟨[100], 5, .integer, true, none, -1, 0⟩, ⟨[99], 6, .struct, true, some 0, -1, 0⟩]
  sorted := by decide
  tag_lt := by decide

/-- An array with elements of 4 bytes before and after one of 8 bytes, and two structs. -/
def person : Object :=
  [(0, .string [97, 98]), (5, .integers [.narrow 1, .wide 0x10000000000, .narrow 0xffffffff]),
    (6, .structs [[(3, .integer (.narrow 7))], []])]

theorem person_ofType : OfType (fun _ => personType) person personType := by
  simp [person, personType, OfType, AllOfType, Value.HasType]

theorem encode_decode_person :
    OfType (fun _ => personType) person personType ∧
    ∀ size bytes, size < 2 ^ 31 →
      sprotoEncode personType size (supplyObject (fun _ => personType) person) = .ok bytes →
      ∃ n, ∀ fuel, n ≤ fuel →
        sprotoDecode personType bytes (collect (fun _ => personType) fuel) [] =
          .ok (objectReports person, bytes.length) :=
  ⟨person_ofType, (encode_decode _ _ _ person_ofType).2.2⟩

end XsServer.Sproto
