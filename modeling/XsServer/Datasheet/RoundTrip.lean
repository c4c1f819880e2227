import XsServer.Datasheet.Read
import XsServer.Datasheet.Write

/-! A document of `dump` is read back by `undump` and by the proxies. -/

namespace XsServer.Datasheet

open XsServer.Lib

variable {τ : Type} {d : List UInt8} {stack : Stack}

variable {table : List (List UInt8)} {b : List UInt8}

theorem packIndex_ok {offset stop p : Nat} {index : List UInt8}
    (h : packIndex offset table = .ok (index, stop)) (hat : At d p index) {i : Nat}
    (hb : table[i]? = some b) :
    At d (p + 4 * i) (Bytes.le 4 (offset + (table.take i).flatten.length)) := by
  induction table generalizing offset p index i with
  | nil => cases hb
  | cons v table ih =>
    rw [packIndex] at h
    obtain ⟨w, hw, h⟩ := bind_ok h
    obtain ⟨⟨index', stop'⟩, hrest, h⟩ := bind_ok h
    obtain ⟨rfl, rfl⟩ := Prod.mk.inj (Except.ok.inj h)
    obtain ⟨-, rfl⟩ := packU4_ok hw
    rw [at_append, Bytes.le_length] at hat
    cases i with
    | zero => exact hat.1
    | succ i =>
      have hword := ih hrest hat.2 hb
      rw [List.take_succ_cons, List.flatten_cons, List.length_append, ← Nat.add_assoc]
      rwa [show p + 4 * (i + 1) = p + 4 + 4 * i by omega]

theorem packIndex_length {offset stop : Nat} {index : List UInt8}
    (h : packIndex offset table = .ok (index, stop)) :
    index.length = 4 * table.length ∧ stop = offset + table.flatten.length := by
  induction table generalizing offset index with
  | nil =>
    obtain ⟨rfl, rfl⟩ := Prod.mk.inj (Except.ok.inj h)
    exact ⟨rfl, rfl⟩
  | cons v table ih =>
    rw [packIndex] at h
    obtain ⟨w, hw, h⟩ := bind_ok h
    obtain ⟨⟨index', stop'⟩, hrest, h⟩ := bind_ok h
    obtain ⟨rfl, rfl⟩ := Prod.mk.inj (Except.ok.inj h)
    obtain ⟨-, rfl⟩ := packU4_ok hw
    obtain ⟨hlen, hstop⟩ := ih hrest
    rw [List.length_append, Bytes.le_length, hlen, hstop, List.flatten_cons, List.length_append,
      List.length_cons]
    exact ⟨by omega, by omega⟩

theorem at_flatten {p : Nat} (hat : At d p table.flatten) {i : Nat}
    (hb : table[i]? = some b) : At d (p + (table.take i).flatten.length) b := by
  induction table generalizing p i with
  | nil => cases hb
  | cons v table ih =>
    rw [List.flatten_cons, at_append] at hat
    cases i with
    | zero => exact Option.some.inj hb ▸ hat.1
    | succ i =>
      rw [List.take_succ_cons, List.flatten_cons, List.length_append, ← Nat.add_assoc]
      exact ih hat.2 hb

theorem length_take_flatten {i : Nat}
    (hb : table[i]? = some b) :
    (table.take i).flatten.length + b.length ≤ table.flatten.length := by
  induction table generalizing i with
  | nil => cases hb
  | cons v table ih =>
    rw [List.flatten_cons, List.length_append]
    cases i with
    | zero =>
      cases hb
      simp
    | succ i =>
      have hle := ih hb
      rw [List.take_succ_cons, List.flatten_cons, List.length_append]
      omega

theorem concatStrings_eq {s : List UInt8} {ss : List (List UInt8)} :
    concatStrings (s :: ss) = ((s :: ss).map (· ++ [0])).flatten := by
  induction ss generalizing s with
  | nil => simp [concatStrings]
  | cons s' ss ih =>
    rw [concatStrings, ih, List.map_cons (l := s' :: ss), List.flatten_cons]
    exact List.cons_ne_nil s' ss

theorem Laid.get {p off : Nat} {es : List (List UInt8 × Nat)} (h : Laid off es)
    (hat : At d (p + off) ((es.map Prod.fst).map (· ++ [0])).flatten) {e : List UInt8 × Nat}
    (he : e ∈ es) : At d (p + e.2) (e.1 ++ [0]) := by
  induction es generalizing off with
  | nil => cases he
  | cons f es ih =>
    rw [Laid] at h
    rw [List.map_cons, List.map_cons, List.flatten_cons, at_append, List.length_append,
      List.length_singleton, Nat.add_assoc] at hat
    obtain rfl | he := List.mem_cons.mp he
    · rw [h.1]
      exact hat.1
    · exact ih h.2 hat.2 he

theorem Doc.Ok.strings {doc : Doc} (hok : doc.Ok) {strs : Nat}
    (hat : At d strs (concatStrings (doc.strings.map Prod.fst))) :
    ∀ e ∈ doc.strings, At d (strs + e.2) (e.1 ++ [0]) := by
  intro e he
  obtain ⟨hlaid, -⟩ := hok
  cases hstrings : doc.strings with
  | nil => rw [hstrings] at he; cases he
  | cons f es =>
    rw [hstrings, List.map_cons, concatStrings_eq, ← List.map_cons, ← hstrings] at hat
    exact hlaid.get hat he

/-! ### `dump` -/

theorem dump_holds {root : Value τ} (h : dump stack root = .ok d) : ∃ doc c strs,
    encode stack [] Doc.new root = .ok (doc, c) ∧
    (doc.Ok → Headed d doc.table.length strs ∧ Holds d doc.table.length strs Doc.new doc) := by
  rw [dump] at h
  obtain ⟨⟨doc, c⟩, hencode, h⟩ := bind_ok h
  obtain ⟨⟨index, stop⟩, hpack, h⟩ := bind_ok h
  obtain ⟨stringtbl, hstringtbl, h⟩ := bind_ok h
  obtain ⟨table_n, htable_n, h⟩ := bind_ok h
  obtain ⟨hlen, rfl⟩ := packIndex_length hpack
  obtain ⟨hstrs, rfl⟩ := packU4_ok hstringtbl
  obtain ⟨hn, rfl⟩ := packU4_ok htable_n
  have hd := Except.ok.inj h
  have hwhole : At d 0 d := List.prefix_rfl
  conv at hwhole => rhs; rw [← hd]
  rw [at_append, at_append, at_append, at_append] at hwhole
  obtain ⟨⟨⟨⟨hstringtbl, htable_n⟩, hindex⟩, htables⟩, hstrings⟩ := hwhole
  simp only [List.length_append, Bytes.le_length, hlen, Nat.zero_add, Nat.reduceAdd] at *
  have hat (i : Nat) (b : List UInt8) (hb : doc.table[i]? = some b) :
      HasBytes d doc.table.length i b := by
    have hle := length_take_flatten hb
    have hlt := (List.getElem?_eq_some_iff.mp hb).1
    refine ⟨hlt, by omega, (doc.table.take i).flatten.length, ?_, ?_, at_flatten htables hb⟩
    · have : INVALID_OFFSET = 4294967295 := rfl
      omega
    · have hword := packIndex_ok hpack hindex hb
      rwa [Nat.zero_add] at hword
  refine ⟨doc, c, _, hencode, fun hok => ⟨⟨hn, hstrs, hstringtbl, htable_n, fun i hi => ?_⟩,
    fun i b _ hb => hat i b hb, hok.strings hstrings⟩⟩
  obtain ⟨-, -, off, hoff, hword, -⟩ := hat i _ (List.getElem?_eq_getElem hi)
  exact ⟨off, hoff.trans (by decide), hword⟩

theorem dump_total {root : Value τ} (hfits : root.Fits) (hnests : root.Nests stack)
    (h : 8 + root.weight < 2 ^ 31) : ∃ d, dump stack root = .ok d := by
  have hnew : Doc.new.size = 0 := rfl
  obtain ⟨doc, c, hencode, hsize, -⟩ := encode_total root hfits hnests Doc.new_ok (by omega)
  rw [Doc.size] at hsize
  have hoffsets : 0 + doc.table.flatten.length < 2 ^ 32 := by omega
  obtain ⟨⟨index, stop⟩, hpack⟩ := packIndex_total hoffsets
  obtain ⟨-, rfl⟩ := packIndex_length hpack
  rw [dump, hencode]
  simp only [ok_bind, hpack]
  rw [packU4_of_lt (by omega), packU4_of_lt (by omega)]
  exact ⟨_, rfl⟩

mutual

theorem Same.depth (v : Value τ) {w : Value Nat} (h : Same v w) : w.depth = v.depth := by
  match v with
  | .integer m => rw [Same] at h; rw [h]; rfl
  | .real bits =>
    rw [Same] at h
    obtain rfl | ⟨m, -, rfl⟩ := h
    · rfl
    · rfl
  | .boolean b => rw [Same] at h; rw [h]; rfl
  | .string s => rw [Same] at h; rw [h]; rfl
  | .table _ array dict =>
    rw [Same] at h
    obtain ⟨i, array', dict', rfl, harray, hdict⟩ := h
    rw [Value.depth, Value.depth, SameArray.depth array harray, SameDict.depth dict hdict]

theorem SameArray.depth (vs : List (Value τ)) {ws : List (Value Nat)} (h : SameArray vs ws) :
    arrayDepth ws = arrayDepth vs := by
  match vs with
  | [] => rw [SameArray] at h; rw [h]; rfl
  | v :: vs =>
    rw [SameArray] at h
    obtain ⟨w, ws, rfl, hv, hrest⟩ := h
    rw [arrayDepth, arrayDepth, Same.depth v hv, SameArray.depth vs hrest]

theorem SameDict.depth (es : List (List UInt8 × Value τ)) {fs : List (List UInt8 × Value Nat)}
    (h : SameDict es fs) : dictDepth fs = dictDepth es := by
  match es with
  | [] => rw [SameDict] at h; rw [h]; rfl
  | (k, v) :: es =>
    rw [SameDict] at h
    obtain ⟨w, fs, rfl, hv, hrest⟩ := h
    rw [dictDepth, dictDepth, Same.depth v hv, SameDict.depth es hrest]

end

theorem SameArray.length {vs : List (Value τ)} {ws : List (Value Nat)} (h : SameArray vs ws) :
    ws.length = vs.length := by
  induction vs generalizing ws with
  | nil => rw [SameArray] at h; rw [h]; rfl
  | cons v vs ih =>
    rw [SameArray] at h
    obtain ⟨w, ws', rfl, -, hrest⟩ := h
    rw [List.length_cons, List.length_cons, ih hrest]

section Each

variable {p : List Loop → Nat → Prop} {q : List UInt8 → Prop}

mutual

theorem Same.each (v : Value τ) {w : Value Nat} (h : Same v w) {path : List Loop}
    (hv : v.Each p q path) : w.Each p q path := by
  match v with
  | .integer m => rw [Same] at h; rw [h]; trivial
  | .real bits =>
    rw [Same] at h
    obtain rfl | ⟨m, -, rfl⟩ := h
    · trivial
    · trivial
  | .boolean b => rw [Same] at h; rw [h]; trivial
  | .string s => rw [Same] at h; rw [h]; exact hv
  | .table _ array dict =>
    rw [Same] at h
    obtain ⟨i, array', dict', rfl, harray, hdict⟩ := h
    rw [Value.Each] at hv ⊢
    have hlen : dict'.length = dict.length := by
      rw [← List.length_map (f := Prod.fst), hdict.keys, List.length_map]
    rw [SameArray.length harray, hlen]
    exact ⟨hv.1, SameArray.each array harray hv.2.1, SameDict.each dict hdict hv.2.2⟩

theorem SameArray.each (vs : List (Value τ)) {ws : List (Value Nat)} (h : SameArray vs ws)
    {path : List Loop} (hvs : EachArray p q path vs) : EachArray p q path ws := by
  match vs with
  | [] => rw [SameArray] at h; rw [h]; trivial
  | v :: vs =>
    rw [SameArray] at h
    obtain ⟨w, ws, rfl, hv, hrest⟩ := h
    rw [EachArray] at hvs ⊢
    exact ⟨Same.each v hv hvs.1, SameArray.each vs hrest hvs.2⟩

theorem SameDict.each (es : List (List UInt8 × Value τ)) {fs : List (List UInt8 × Value Nat)}
    (h : SameDict es fs) {path : List Loop} (hes : EachDict p q path es) :
    EachDict p q path fs := by
  match es with
  | [] => rw [SameDict] at h; rw [h]; trivial
  | (k, v) :: es =>
    rw [SameDict] at h
    obtain ⟨w, fs, rfl, hv, hrest⟩ := h
    rw [EachDict] at hes ⊢
    exact ⟨hes.1, Same.each v hv hes.2.1, SameDict.each es hrest hes.2.2⟩

end

end Each

theorem le_inj {i j : Nat} (hi : i < 2 ^ 32) (hj : j < 2 ^ 32) (h : Bytes.le 4 i = Bytes.le 4 j) :
    i = j := by
  rw [← Bytes.ofLe_le_of_lt (w := 4) hi, h, Bytes.ofLe_le_of_lt hj]

theorem encode_table_cell {path : List Loop} {doc doc' : Doc} {c : Cell} {id : τ}
    {array : List (Value τ)} {dict : List (List UInt8 × Value τ)}
    (h : encode stack path doc (.table id array dict) = .ok (doc', c)) :
    c = (4, Bytes.le 4 doc.table.length) := by
  obtain ⟨-, h⟩ := encode_table_inv h
  obtain ⟨⟨doc₁, cells⟩, -, h⟩ := bind_ok h
  obtain ⟨⟨doc₂, kvs⟩, -, h⟩ := bind_ok h
  obtain ⟨body, -, h⟩ := bind_ok h
  obtain ⟨ev, hev, h⟩ := bind_ok h
  obtain ⟨-, rfl⟩ := packI4_ok hev
  exact (Prod.mk.inj (Except.ok.inj h)).2.symm

theorem dump_shown {id : τ} {array : List (Value τ)} {dict : List (List UInt8 × Value τ)}
    (hfits : (Value.table id array dict).Fits) (h : dump stack (.table id array dict) = .ok d) :
    ∃ n strs array' dict', n = (Value.table id array dict).tables ∧ Headed d n strs ∧
    SameArray array array' ∧ SameDict dict dict' ∧
      Shown d n strs (.table 0 array' dict') (4, Bytes.le 4 0) := by
  obtain ⟨doc, c, strs, hencode, hholds⟩ := dump_holds h
  obtain ⟨hgrows, w, hsame, hshow⟩ := encode_ok _ hfits hencode
  obtain ⟨hhead, hholds⟩ := hholds (hgrows.ok Doc.new_ok)
  have hshown := hshow _ _ _ hholds
  rw [encode_table_cell hencode] at hshown
  rw [Same] at hsame
  obtain ⟨i, array', dict', rfl, harray, hdict⟩ := hsame
  have htables := encode_tables _ hencode
  refine ⟨_, strs, array', dict', htables.trans (Nat.zero_add _), hhead, harray, hdict, ?_⟩
  have hi : i = 0 := by
    rw [Shown] at hshown
    obtain ⟨hcell, -, cells, kvs, htable, -⟩ := hshown
    exact (le_inj (by decide) (htable.1.trans hhead.lt) (Prod.mk.inj hcell).2).symm
  subst hi
  exact hshown

/-- A document reads back by `undump`, where the Lua stack has room for the results and no string
has 2^31 bytes, and by the proxies, whose reads all lie inside it.  And there is one where the
values have less than 2^31 bytes, if the Lua stack has room for the tables. -/
theorem dump_reads_back (stack : Stack) (id : τ) (array : List (Value τ))
    (dict : List (List UInt8 × Value τ)) (hfits : (Value.table id array dict).Fits) :
    ((Value.table id array dict).Nests stack → 8 + (Value.table id array dict).weight < 2 ^ 31 →
      ∃ d, dump stack (.table id array dict) = .ok d) ∧
    ∀ d, dump stack (.table id array dict) = .ok d → ∃ w, Same (.table id array dict) w ∧
      ((Value.table id array dict).Reads stack [] →
        (Value.table id array dict).tables ≤ stack.index →
        ∀ fuel, (Value.table id array dict).depth ≤ fuel → undump stack fuel d = some w) ∧
      createProxy d 0 = some (.proxy 0) ∧ ∀ path, readPath d (.proxy 0) path = w.path path := by
  refine ⟨dump_total hfits, fun d h => ?_⟩
  obtain ⟨n, strs, array', dict', rfl, hhead, harray, hdict, hshown⟩ := dump_shown hfits h
  have hsame : Same (.table id array dict) (.table 0 array' dict') := by
    rw [Same]
    exact ⟨0, array', dict', rfl, harray, hdict⟩
  refine ⟨.table 0 array' dict', hsame, fun hreads hindex fuel hfuel => ?_, ?_, fun path => ?_⟩
  · exact hshown.undump hhead (hsame.depth.trans_le hfuel) hindex (hsame.each _ hreads)
  · rw [Shown] at hshown
    obtain ⟨-, -, cells, kvs, htable, -⟩ := hshown
    obtain ⟨off, hget, -⟩ := htable.gettable hhead
    rw [createProxy, if_neg (by decide), hget]
    rfl
  · exact hshown.readPath hhead path

/-- A stack that is large enough for tables in tables. -/
def roomy : Stack := ⟨fun path => path.length < 100, fun path =>
  if path.length < 100 then some 900000 else none, 900000⟩

/-- The table `{7, {}, a = true}`. -/
theorem dump_reads_back_pair : ∃ d w,
    dump roomy (.table () [.integer 7, .table () [] []] [([97], .boolean true)]) = .ok d ∧
    undump roomy 2 d = some w ∧
    Same (.table () [.integer 7, .table () [] []] [([97], .boolean true)]) w := by
  obtain ⟨hsome, hread⟩ := dump_reads_back roomy () [.integer 7, .table () [] []]
    [([97], .boolean true)] (by simp [Value.Fits, ArrayFits, DictFits])
  obtain ⟨d, hd⟩ :=
    hsome (by simp [Value.Nests, Value.Each, EachArray, EachDict, roomy]) (by decide)
  obtain ⟨w, hsame, hundump, -⟩ := hread d hd
  refine ⟨d, w, hd, hundump ?_ (by decide) 2 (by decide), hsame⟩
  simp [Value.Reads, Value.Each, EachArray, EachDict, roomy]

theorem dump_overflow (hroot : stack.dump [] = true) {id : τ} {s s' : List UInt8} (hne : s' ≠ s)
    (hlen : 2 ^ 32 ≤ s.length + 1) :
    dump stack (.table id [.string s, .string s'] []) = .error (.overflow (s.length + 1)) := by
  have hfirst : encodeString ⟨[[]], [], 0⟩ s =
      .ok (⟨[[]], [(s, 0)], s.length + 1⟩, 5, Bytes.le 4 0) := by
    simp only [encodeString, Doc.intern, List.lookup_nil, Nat.zero_add]
    rfl
  have hsecond : encodeString ⟨[[]], [(s, 0)], s.length + 1⟩ s' =
      .error (.overflow (s.length + 1)) := by
    have hlookup : List.lookup s' [(s, 0)] = none := by
      rw [List.lookup_cons, beq_eq_false_iff_ne.mpr hne]
      rfl
    simp only [encodeString, Doc.intern, hlookup, packU4, if_neg (Nat.not_lt.mpr hlen)]
    rfl
  have hencode : encode stack [] Doc.new (.table id [.string s, .string s'] []) =
      .error (.overflow (s.length + 1)) := by
    simp only [encode, if_pos hroot, encodeArray, Doc.new, List.nil_append, hfirst, ok_bind,
      hsecond]
    rfl
  rw [dump, hencode]
  rfl

theorem long_string_fails :
    (Value.table () [.string (List.replicate (2 ^ 32) 1), .string [2]] []).Fits ∧
    dump roomy (.table () [.string (List.replicate (2 ^ 32) 1), .string [2]] []) =
      .error (.overflow (2 ^ 32 + 1)) := by
  generalize hk : 2 ^ 32 = k
  have hne : ([2] : List UInt8) ≠ List.replicate k 1 := by
    intro heq
    have hmem : (2 : UInt8) ∈ List.replicate k 1 := heq ▸ List.mem_singleton_self 2
    exact absurd (List.eq_of_mem_replicate hmem) (by decide)
  have hzero : (0 : UInt8) ∉ List.replicate k 1 := by
    intro hmem
    exact absurd (List.eq_of_mem_replicate hmem) (by decide)
  refine ⟨?_, ?_⟩
  · simp [Value.Fits, ArrayFits, DictFits, hzero]
  · rw [dump_overflow rfl hne (by rw [List.length_replicate]; omega), List.length_replicate]

end XsServer.Datasheet
