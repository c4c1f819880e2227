import XsServer.Datasheet.Layout

/-! What `encode` adds to a document: tables and strings that show the value.  A value of bounded
size has a document. -/

namespace XsServer.Datasheet

open XsServer.Lib

variable {τ : Type}

mutual

/-- The strings of a value have no zero bytes, and the keys of a table are different. -/
def Value.Fits : Value τ → Prop
  | .string s => 0 ∉ s
  | .table _ array dict => ArrayFits array ∧ DictFits dict ∧ (dict.map Prod.fst).Nodup
  | _ => True

def ArrayFits : List (Value τ) → Prop
  | [] => True
  | v :: vs => v.Fits ∧ ArrayFits vs

def DictFits : List (List UInt8 × Value τ) → Prop
  | [] => True
  | (k, v) :: es => 0 ∉ k ∧ v.Fits ∧ DictFits es

end

mutual

/-- The values are equal but for the identities of their tables.  A number that is an integer
equals that integer. -/
def Same : Value τ → Value Nat → Prop
  | .integer m, w => w = .integer m
  | .real bits, w => w = .real bits ∨ ∃ m, tointeger bits = some m ∧ w = .integer m
  | .boolean b, w => w = .boolean b
  | .string s, w => w = .string s
  | .table _ array dict, w =>
    ∃ i array' dict', w = .table i array' dict' ∧ SameArray array array' ∧ SameDict dict dict'

def SameArray : List (Value τ) → List (Value Nat) → Prop
  | [], ws => ws = []
  | v :: vs, ws => ∃ w ws', ws = w :: ws' ∧ Same v w ∧ SameArray vs ws'

def SameDict : List (List UInt8 × Value τ) → List (List UInt8 × Value Nat) → Prop
  | [], fs => fs = []
  | (k, v) :: es, fs => ∃ w fs', fs = (k, w) :: fs' ∧ Same v w ∧ SameDict es fs'

end

theorem SameDict.keys {es : List (List UInt8 × Value τ)} {fs : List (List UInt8 × Value Nat)}
    (h : SameDict es fs) : fs.map Prod.fst = es.map Prod.fst := by
  induction es generalizing fs with
  | nil => rw [SameDict] at h; rw [h]; rfl
  | cons e es ih =>
    obtain ⟨k, v⟩ := e
    rw [SameDict] at h
    obtain ⟨w, fs', rfl, -, hrest⟩ := h
    rw [List.map_cons, List.map_cons, ih hrest]

/-! ### The strings -/

/-- Each string has the offset after the ones before it. -/
def Laid : Nat → List (List UInt8 × Nat) → Prop
  | _, [] => True
  | off, e :: es => e.2 = off ∧ Laid (off + (e.1.length + 1)) es

def pool (es : List (List UInt8 × Nat)) : Nat := (es.map fun e => e.1.length + 1).sum

theorem laid_append_singleton {off : Nat} {es : List (List UInt8 × Nat)} {e : List UInt8 × Nat} :
    Laid off (es ++ [e]) ↔ Laid off es ∧ e.2 = off + pool es := by
  induction es generalizing off with
  | nil => simp [Laid, pool]
  | cons f es ih =>
    rw [List.cons_append, Laid, Laid, ih, pool, pool, List.map_cons, List.sum_cons]
    rw [Nat.add_assoc, and_assoc]

/-- The strings of a document and `offset` agree. -/
def Doc.Ok (doc : Doc) : Prop := Laid 0 doc.strings ∧ doc.offset = pool doc.strings

theorem Doc.new_ok : Doc.new.Ok := ⟨trivial, rfl⟩

structure Grows (doc doc' : Doc) : Prop where
  table : ∀ (i : Nat) (b : List UInt8), doc.table[i]? = some b → doc'.table[i]? = some b
  strings : ∀ e ∈ doc.strings, e ∈ doc'.strings
  ok : doc.Ok → doc'.Ok

theorem Grows.refl (doc : Doc) : Grows doc doc := ⟨fun _ _ h => h, fun _ h => h, fun h => h⟩

theorem Grows.trans {a b c : Doc} (h : Grows a b) (h' : Grows b c) : Grows a c :=
  ⟨fun i t ht => h'.table i t (h.table i t ht), fun e he => h'.strings e (h.strings e he),
    fun hok => h'.ok (h.ok hok)⟩

theorem Grows.length_le {doc doc' : Doc} (h : Grows doc doc') :
    doc.table.length ≤ doc'.table.length := by
  by_contra hlt
  have hget := h.table _ _ (List.getElem?_eq_getElem (Nat.not_le.mp hlt))
  rw [List.getElem?_eq_none le_rfl] at hget
  cases hget

theorem intern_grows (doc : Doc) (v : List UInt8) : Grows doc (doc.intern v).1 := by
  rw [Doc.intern]
  split
  case h_1 => exact Grows.refl doc
  case h_2 =>
    refine ⟨fun _ _ h => h, fun e he => List.mem_append_left _ he, fun ⟨hlaid, hstop⟩ => ⟨?_, ?_⟩⟩
    · exact laid_append_singleton.mpr ⟨hlaid, by rw [hstop, Nat.zero_add]⟩
    · simp only [pool, List.map_append, List.sum_append, List.map_singleton, List.sum_singleton]
      rw [hstop, pool, Nat.add_assoc]

theorem mem_intern (doc : Doc) (v : List UInt8) :
    (v, (doc.intern v).2) ∈ (doc.intern v).1.strings := by
  rw [Doc.intern]
  split
  case h_1 off h =>
    obtain ⟨l, l', heq, -⟩ := List.lookup_eq_some_iff.mp h
    exact heq ▸ List.mem_append_right l List.mem_cons_self
  case h_2 => exact List.mem_append_right _ (List.mem_singleton_self _)

theorem encodeString_ok {doc doc' : Doc} {s : List UInt8} {c : Cell}
    (h : encodeString doc s = .ok (doc', c)) :
    ∃ off, off < 2 ^ 32 ∧ c = (5, Bytes.le 4 off) ∧ (s, off) ∈ doc'.strings ∧ Grows doc doc' := by
  rw [encodeString] at h
  obtain ⟨ev, hev, h⟩ := bind_ok h
  obtain ⟨hlt, rfl⟩ := packU4_ok hev
  obtain ⟨rfl, rfl⟩ := Prod.mk.inj (Except.ok.inj h)
  exact ⟨_, hlt, rfl, mem_intern doc s, intern_grows doc s⟩

/-! ### Values -/

/-- The bytes of a table are at its place in the index. -/
def HasBytes (d : List UInt8) (n i : Nat) (body : List UInt8) : Prop :=
  i < n ∧ body.length < 2 ^ 32 ∧ ∃ off, off < INVALID_OFFSET ∧ At d (8 + 4 * i) (Bytes.le 4 off) ∧
    At d (8 + 4 * n + off) body

/-- The bytes `d` have what was added between two documents. -/
structure Holds (d : List UInt8) (n strs : Nat) (doc doc' : Doc) : Prop where
  table : ∀ (i : Nat) (b : List UInt8), doc.table.length ≤ i → doc'.table[i]? = some b →
    HasBytes d n i b
  strings : ∀ e ∈ doc'.strings, At d (strs + e.2) (e.1 ++ [0])

variable {d : List UInt8} {n strs : Nat} {stack : Stack}

theorem Holds.left {a b c : Doc} (h : Holds d n strs a c) (hbc : Grows b c) : Holds d n strs a b :=
  ⟨fun i t hi ht => h.table i t hi (hbc.table i t ht), fun e he => h.strings e (hbc.strings e he)⟩

theorem Holds.right {a b c : Doc} (h : Holds d n strs a c) (hab : Grows a b) : Holds d n strs b c :=
  ⟨fun i t hi ht => h.table i t (hab.length_le.trans hi) ht, h.strings⟩

theorem Holds.hasString {doc doc' : Doc} (h : Holds d n strs doc doc') {s : List UInt8} {off : Nat}
    (hmem : (s, off) ∈ doc'.strings) (hoff : off < 2 ^ 32) (hs : 0 ∉ s) : HasString d strs off s :=
  ⟨hoff, hs, h.strings _ hmem⟩

/-- The place of a table is taken, its entries are added, and then its bytes. -/
structure Filled (doc doc' : Doc) (body : List UInt8) (added : Doc) : Prop where
  grows : Grows { doc with table := doc.table ++ [[]] } doc'
  eq : added = { doc' with table := doc'.table.set doc.table.length body }

theorem Filled.get {doc doc' added : Doc} {body : List UInt8} (h : Filled doc doc' body added) :
    added.table[doc.table.length]? = some body := by
  have hplace := h.grows.table doc.table.length [] (by simp)
  obtain ⟨hlt, -⟩ := List.getElem?_eq_some_iff.mp hplace
  rw [h.eq, List.getElem?_set_self hlt]

theorem Filled.get_ne {doc doc' added : Doc} {body : List UInt8} (h : Filled doc doc' body added)
    {i : Nat} (hi : i ≠ doc.table.length) : added.table[i]? = doc'.table[i]? := by
  rw [h.eq, List.getElem?_set_ne hi.symm]

theorem Filled.outer {doc doc' added : Doc} {body : List UInt8} (h : Filled doc doc' body added) :
    Grows doc added := by
  refine ⟨fun i b hb => ?_, fun e he => ?_, fun hok => ?_⟩
  · obtain ⟨hlt, -⟩ := List.getElem?_eq_some_iff.mp hb
    rw [h.get_ne hlt.ne]
    exact h.grows.table i b (by rw [List.getElem?_append_left hlt, hb])
  · rw [h.eq]
    exact h.grows.strings e he
  · rw [h.eq]
    exact h.grows.ok hok

theorem Filled.inner {doc doc' added : Doc} {body : List UInt8} (h : Filled doc doc' body added)
    (hholds : Holds d n strs doc added) :
    Holds d n strs { doc with table := doc.table ++ [[]] } doc' := by
  refine ⟨fun i b hi hb => ?_, fun e he => hholds.strings e ?_⟩
  · simp only [List.length_append, List.length_singleton] at hi
    exact hholds.table i b (by omega) (by rw [h.get_ne (by omega), hb])
  · rw [h.eq]
    exact he

theorem encode_table_inv {path : List Loop} {doc : Doc} {id : τ} {array : List (Value τ)}
    {dict : List (List UInt8 × Value τ)} {r : Doc × Cell}
    (h : encode stack path doc (.table id array dict) = .ok r) : stack.dump path = true ∧
      (do
        let (doc', cells) ← encodeArray stack (.array :: path)
            { doc with table := doc.table ++ [[]] } array
        let (doc', kvs) ← encodeDict stack (.dict :: path) doc' dict
        let body ← tableBytes cells kvs
        let ev ← packI4 doc.table.length
        return ({ doc' with table := doc'.table.set doc.table.length body }, 4, ev)) =
        Except.ok (ε := Fault) r := by
  rw [encode] at h
  split at h
  · exact ⟨‹_›, h⟩
  · cases h

mutual

theorem encode_ok (v : Value τ) (hv : v.Fits) {path : List Loop} {doc doc' : Doc} {c : Cell}
    (h : encode stack path doc v = .ok (doc', c)) : Grows doc doc' ∧
      ∃ w, Same v w ∧ ∀ d n strs, Holds d n strs doc doc' → Shown d n strs w c := by
  match v with
  | .integer m =>
    rw [encode] at h
    obtain ⟨rfl, rfl⟩ := Prod.mk.inj (Except.ok.inj h)
    exact ⟨Grows.refl doc, .integer m, by rw [Same], fun _ _ _ _ => by rw [Shown]⟩
  | .real bits =>
    rw [encode] at h
    split at h
    case h_1 m hm =>
      obtain ⟨rfl, rfl⟩ := Prod.mk.inj (Except.ok.inj h)
      exact ⟨Grows.refl doc, .integer m, by rw [Same]; exact .inr ⟨m, hm, rfl⟩,
        fun _ _ _ _ => by rw [Shown]⟩
    case h_2 =>
      obtain ⟨rfl, rfl⟩ := Prod.mk.inj (Except.ok.inj h)
      exact ⟨Grows.refl doc, .real bits, by rw [Same]; exact .inl rfl, fun _ _ _ _ => by rw [Shown]⟩
  | .boolean b =>
    rw [encode] at h
    obtain ⟨rfl, rfl⟩ := Prod.mk.inj (Except.ok.inj h)
    exact ⟨Grows.refl doc, .boolean b, by rw [Same], fun _ _ _ _ => by rw [Shown]⟩
  | .string s =>
    rw [encode] at h
    obtain ⟨off, hoff, rfl, hmem, hgrows⟩ := encodeString_ok h
    rw [Value.Fits] at hv
    exact ⟨hgrows, .string s, by rw [Same],
      fun d n strs hholds => by rw [Shown]; exact ⟨off, rfl, hholds.hasString hmem hoff hv⟩⟩
  | .table id array dict =>
    obtain ⟨-, h⟩ := encode_table_inv h
    rw [Value.Fits] at hv
    obtain ⟨harrayFits, hdictFits, hnodup⟩ := hv
    obtain ⟨⟨doc₁, cells⟩, harray, h⟩ := bind_ok h
    obtain ⟨⟨doc₂, kvs⟩, hdict, h⟩ := bind_ok h
    obtain ⟨body, hbody, h⟩ := bind_ok h
    obtain ⟨ev, hev, h⟩ := bind_ok h
    obtain ⟨hindex, rfl⟩ := packI4_ok hev
    obtain ⟨hdoc', rfl⟩ := Prod.mk.inj (Except.ok.inj h)
    obtain ⟨hgrows₁, array', hsameArray, hshowArray⟩ := encodeArray_ok array harrayFits harray
    obtain ⟨hgrows₂, dict', hsameDict, hshowDict⟩ := encodeDict_ok dict hdictFits hdict
    have hfilled : Filled doc doc₂ body doc' := ⟨hgrows₁.trans hgrows₂, hdoc'.symm⟩
    refine ⟨hfilled.outer, .table doc.table.length array' dict', ?_, fun d n strs hholds => ?_⟩
    · rw [Same]
      exact ⟨_, array', dict', rfl, hsameArray, hsameDict⟩
    · have hinner := hfilled.inner hholds
      obtain ⟨hlt, hlen, off, hoff, hat, hbytes⟩ :=
        hholds.table doc.table.length body le_rfl hfilled.get
      rw [Shown, hsameDict.keys]
      exact ⟨rfl, hnodup, cells, kvs, ⟨hlt, hindex, off, body, hoff, hat, hbytes, hlen, hbody⟩,
        hshowArray d n strs (hinner.left hgrows₂), hshowDict d n strs (hinner.right hgrows₁)⟩

theorem encodeArray_ok (vs : List (Value τ)) (hvs : ArrayFits vs) {path : List Loop}
    {doc doc' : Doc} {cells : List Cell} (h : encodeArray stack path doc vs = .ok (doc', cells)) :
    Grows doc doc' ∧
      ∃ ws, SameArray vs ws ∧
        ∀ d n strs, Holds d n strs doc doc' → ArrayShown d n strs ws cells := by
  match vs with
  | [] =>
    rw [encodeArray] at h
    obtain ⟨rfl, rfl⟩ := Prod.mk.inj (Except.ok.inj h)
    exact ⟨Grows.refl doc, [], by rw [SameArray], fun _ _ _ _ => by rw [ArrayShown]⟩
  | v :: vs =>
    rw [encodeArray] at h
    rw [ArrayFits] at hvs
    obtain ⟨⟨doc₁, c⟩, hc, h⟩ := bind_ok h
    obtain ⟨⟨doc₂, cells'⟩, hcells, h⟩ := bind_ok h
    obtain ⟨rfl, rfl⟩ := Prod.mk.inj (Except.ok.inj h)
    obtain ⟨hgrows, w, hsame, hshow⟩ := encode_ok v hvs.1 hc
    obtain ⟨hgrows', ws, hsames, hshows⟩ := encodeArray_ok vs hvs.2 hcells
    refine ⟨hgrows.trans hgrows', w :: ws, ?_, fun d n strs hholds => ?_⟩
    · rw [SameArray]
      exact ⟨w, ws, rfl, hsame, hsames⟩
    · rw [ArrayShown]
      exact ⟨c, cells', rfl, hshow d n strs (hholds.left hgrows'),
        hshows d n strs (hholds.right hgrows)⟩

theorem encodeDict_ok (es : List (List UInt8 × Value τ)) (hes : DictFits es)
    {path : List Loop} {doc doc' : Doc} {kvs : List (List UInt8 × Cell)}
    (h : encodeDict stack path doc es = .ok (doc', kvs)) : Grows doc doc' ∧
      ∃ fs, SameDict es fs ∧
        ∀ d n strs, Holds d n strs doc doc' → DictShown d n strs fs kvs := by
  match es with
  | [] =>
    rw [encodeDict] at h
    obtain ⟨rfl, rfl⟩ := Prod.mk.inj (Except.ok.inj h)
    exact ⟨Grows.refl doc, [], by rw [SameDict], fun _ _ _ _ => by rw [DictShown]⟩
  | (k, v) :: es =>
    rw [encodeDict] at h
    rw [DictFits] at hes
    obtain ⟨⟨doc₁, t, kv⟩, hkey, h⟩ := bind_ok h
    obtain ⟨⟨doc₂, c⟩, hc, h⟩ := bind_ok h
    obtain ⟨⟨doc₃, kvs'⟩, hkvs, h⟩ := bind_ok h
    obtain ⟨rfl, rfl⟩ := Prod.mk.inj (Except.ok.inj h)
    obtain ⟨off, hoff, heq, hmem, hgrows⟩ := encodeString_ok hkey
    obtain ⟨-, rfl⟩ := Prod.mk.inj heq
    obtain ⟨hgrows', w, hsame, hshow⟩ := encode_ok v hes.2.1 hc
    obtain ⟨hgrows'', fs, hsames, hshows⟩ := encodeDict_ok es hes.2.2 hkvs
    have hrest := hgrows'.trans hgrows''
    refine ⟨hgrows.trans hrest, (k, w) :: fs, ?_, fun d n strs hholds => ?_⟩
    · rw [SameDict]
      exact ⟨w, fs, rfl, hsame, hsames⟩
    · have hkeyString := hholds.hasString (hrest.strings _ hmem) hoff hes.1
      have hvalue := hholds.right hgrows
      rw [DictShown]
      exact ⟨off, c, kvs', rfl, hkeyString, hshow d n strs (hvalue.left hgrows''),
        hshows d n strs (hvalue.right hgrows')⟩

end

theorem encodeString_tables {doc doc' : Doc} {s : List UInt8} {c : Cell}
    (h : encodeString doc s = .ok (doc', c)) : doc'.table = doc.table := by
  rw [encodeString] at h
  obtain ⟨ev, -, h⟩ := bind_ok h
  rw [← (Prod.mk.inj (Except.ok.inj h)).1]
  split <;> rfl

mutual

theorem encode_tables (v : Value τ) {path : List Loop} {doc doc' : Doc} {c : Cell}
    (h : encode stack path doc v = .ok (doc', c)) :
    doc'.table.length = doc.table.length + v.tables := by
  match v with
  | .integer m =>
    obtain ⟨rfl, -⟩ := Prod.mk.inj (Except.ok.inj h)
    rfl
  | .real bits =>
    rw [encode] at h
    split at h
    · obtain ⟨rfl, -⟩ := Prod.mk.inj (Except.ok.inj h)
      rfl
    · obtain ⟨rfl, -⟩ := Prod.mk.inj (Except.ok.inj h)
      rfl
  | .boolean b =>
    obtain ⟨rfl, -⟩ := Prod.mk.inj (Except.ok.inj h)
    rfl
  | .string s =>
    rw [encode] at h
    rw [encodeString_tables h]
    rfl
  | .table id array dict =>
    obtain ⟨-, h⟩ := encode_table_inv h
    obtain ⟨⟨doc₁, cells⟩, harray, h⟩ := bind_ok h
    obtain ⟨⟨doc₂, kvs⟩, hdict, h⟩ := bind_ok h
    obtain ⟨body, -, h⟩ := bind_ok h
    obtain ⟨ev, -, h⟩ := bind_ok h
    obtain ⟨hdoc', -⟩ := Prod.mk.inj (Except.ok.inj h)
    have hlen₁ := encodeArray_tables array harray
    rw [List.length_append, List.length_singleton] at hlen₁
    rw [← hdoc', List.length_set, encodeDict_tables dict hdict, hlen₁, Value.tables]
    omega

theorem encodeArray_tables (vs : List (Value τ)) {path : List Loop} {doc doc' : Doc}
    {cells : List Cell} (h : encodeArray stack path doc vs = .ok (doc', cells)) :
    doc'.table.length = doc.table.length + arrayTables vs := by
  match vs with
  | [] =>
    obtain ⟨rfl, -⟩ := Prod.mk.inj (Except.ok.inj h)
    rfl
  | v :: vs =>
    rw [encodeArray] at h
    obtain ⟨⟨doc₁, c⟩, hc, h⟩ := bind_ok h
    obtain ⟨⟨doc₂, cells'⟩, hcells, h⟩ := bind_ok h
    obtain ⟨rfl, -⟩ := Prod.mk.inj (Except.ok.inj h)
    rw [encodeArray_tables vs hcells, encode_tables v hc, arrayTables, Nat.add_assoc]

theorem encodeDict_tables (es : List (List UInt8 × Value τ)) {path : List Loop} {doc doc' : Doc}
    {kvs : List (List UInt8 × Cell)} (h : encodeDict stack path doc es = .ok (doc', kvs)) :
    doc'.table.length = doc.table.length + dictTables es := by
  match es with
  | [] =>
    obtain ⟨rfl, -⟩ := Prod.mk.inj (Except.ok.inj h)
    rfl
  | (k, v) :: es =>
    rw [encodeDict] at h
    obtain ⟨⟨doc₁, t, kv⟩, hkey, h⟩ := bind_ok h
    obtain ⟨⟨doc₂, c⟩, hc, h⟩ := bind_ok h
    obtain ⟨⟨doc₃, kvs'⟩, hkvs, h⟩ := bind_ok h
    obtain ⟨rfl, -⟩ := Prod.mk.inj (Except.ok.inj h)
    rw [encodeDict_tables es hkvs, encode_tables v hc, encodeString_tables hkey, dictTables,
      Nat.add_assoc]

end

mutual

/-- A bound of the bytes that a value needs beside its cell. -/
def Value.weight : Value τ → Nat
  | .string s => s.length + 1
  | .table _ array dict => 15 + arrayWeight array + dictWeight dict
  | _ => 0

def arrayWeight : List (Value τ) → Nat
  | [] => 0
  | v :: vs => 5 + v.weight + arrayWeight vs

def dictWeight : List (List UInt8 × Value τ) → Nat
  | [] => 0
  | (k, v) :: es => 9 + (k.length + 1) + v.weight + dictWeight es

end

def Doc.size (doc : Doc) : Nat := doc.offset + 4 * doc.table.length + doc.table.flatten.length

theorem packI4_of_lt {m : Nat} (h : m < 2 ^ 31) : packI4 m = .ok (Bytes.le 4 m) := if_pos h

theorem packU4_of_lt {m : Nat} (h : m < 2 ^ 32) : packU4 m = .ok (Bytes.le 4 m) := if_pos h

theorem Laid.le {off : Nat} {es : List (List UInt8 × Nat)} (h : Laid off es) {e : List UInt8 × Nat}
    (he : e ∈ es) : e.2 ≤ off + pool es := by
  induction es generalizing off with
  | nil => cases he
  | cons f es ih =>
    rw [Laid] at h
    rw [pool, List.map_cons, List.sum_cons]
    obtain rfl | he := List.mem_cons.mp he
    · omega
    · have hle := ih h.2 he
      rw [pool] at hle
      omega

theorem intern_offset {doc : Doc} (hok : doc.Ok) (s : List UInt8) :
    (doc.intern s).2 ≤ doc.offset := by
  rw [Doc.intern]
  split
  case h_1 off h =>
    obtain ⟨l, l', heq, -⟩ := List.lookup_eq_some_iff.mp h
    have hle := hok.1.le (heq ▸ List.mem_append_right l List.mem_cons_self)
    rw [hok.2]
    simpa using hle
  case h_2 => exact le_rfl

theorem intern_size (doc : Doc) (s : List UInt8) :
    (doc.intern s).1.size ≤ doc.size + (s.length + 1) := by
  rw [Doc.intern]
  split
  case h_1 => exact Nat.le_add_right _ _
  case h_2 => simp only [Doc.size]; omega

theorem encodeString_total {doc : Doc} (hok : doc.Ok) {s : List UInt8}
    (h : doc.size + (s.length + 1) < 2 ^ 31) : ∃ doc' c, encodeString doc s = .ok (doc', c) ∧
      doc'.size ≤ doc.size + (s.length + 1) ∧ c.2.length = 4 := by
  have hoff := intern_offset hok s
  have hlt : (doc.intern s).2 < 2 ^ 32 := by
    rw [Doc.size] at h
    omega
  refine ⟨(doc.intern s).1, (5, Bytes.le 4 (doc.intern s).2), ?_, intern_size doc s,
    Bytes.le_length 4 _⟩
  simp only [encodeString, packU4_of_lt hlt]
  rfl

theorem length_flatten_set {table : List (List UInt8)} {i : Nat} (h : table[i]? = some [])
    (body : List UInt8) :
    (table.set i body).flatten.length = table.flatten.length + body.length := by
  induction table generalizing i with
  | nil => cases h
  | cons v table ih =>
    cases i with
    | zero =>
      cases h
      simp [Nat.add_comm]
    | succ i =>
      rw [List.set_cons_succ, List.flatten_cons, List.flatten_cons, List.length_append,
        List.length_append, ih h, Nat.add_assoc]

theorem length_flatten_eq {ws : List (List UInt8)} {k : Nat} (h : ∀ w ∈ ws, w.length = k) :
    ws.flatten.length = k * ws.length := by
  induction ws with
  | nil => rfl
  | cons w ws ih =>
    obtain ⟨hw, hws⟩ := List.forall_mem_cons.mp h
    rw [List.flatten_cons, List.length_append, hw, ih hws, List.length_cons, Nat.mul_succ,
      Nat.add_comm]

theorem tableBytes_total {cells : List Cell} {kvs : List (List UInt8 × Cell)}
    (hcells : ∀ c ∈ cells, c.2.length = 4) (hkvs : ∀ kv ∈ kvs, kv.1.length = 4 ∧ kv.2.2.length = 4)
    (h : cells.length + kvs.length < 2 ^ 31) : ∃ body, tableBytes cells kvs = .ok body ∧
      body.length ≤ 11 + 5 * cells.length + 9 * kvs.length := by
  have hwords : (cells.map Prod.snd).flatten.length = 4 * (cells.map Prod.snd).length :=
    length_flatten_eq fun w hw => by
      obtain ⟨c, hc, rfl⟩ := List.mem_map.mp hw
      exact hcells c hc
  have hpairs : (kvs.map fun kv => kv.1 ++ kv.2.2).flatten.length =
      8 * (kvs.map fun kv => kv.1 ++ kv.2.2).length :=
    length_flatten_eq fun w hw => by
      obtain ⟨kv, hkv, rfl⟩ := List.mem_map.mp hw
      obtain ⟨hk, hv⟩ := hkvs kv hkv
      rw [List.length_append, hk, hv]
  have hpadded := length_align (cells.map Prod.fst ++ kvs.map fun kv => kv.2.1)
  rw [tableBytes, packI4_of_lt (show cells.length < 2 ^ 31 by omega),
    packI4_of_lt (show kvs.length < 2 ^ 31 by omega)]
  refine ⟨_, rfl, ?_⟩
  simp only [List.length_append, Bytes.le_length, hwords, hpairs, List.length_map] at hpadded ⊢
  omega

mutual

theorem encode_total (v : Value τ) (hv : v.Fits) {path : List Loop}
    (hnests : v.Each (fun path _ => stack.dump path = true) (fun _ => True) path) {doc : Doc}
    (hok : doc.Ok) (h : doc.size + v.weight < 2 ^ 31) :
    ∃ doc' c, encode stack path doc v = .ok (doc', c) ∧
      doc'.size ≤ doc.size + v.weight ∧ c.2.length = 4 := by
  match v with
  | .integer m => exact ⟨doc, _, rfl, Nat.le_add_right _ _, Bytes.le_length 4 _⟩
  | .real bits =>
    rw [encode]
    split
    case h_1 => exact ⟨doc, _, rfl, Nat.le_add_right _ _, Bytes.le_length 4 _⟩
    case h_2 => exact ⟨doc, _, rfl, Nat.le_add_right _ _, Bytes.le_length 4 _⟩
  | .boolean b => exact ⟨doc, _, rfl, Nat.le_add_right _ _, by cases b <;> rfl⟩
  | .string s =>
    rw [Value.weight] at h ⊢
    rw [encode]
    exact encodeString_total hok h
  | .table id array dict =>
    rw [Value.Fits] at hv
    rw [Value.Each] at hnests
    obtain ⟨hroom, hnestsArray, hnestsDict⟩ := hnests
    rw [Value.weight] at h ⊢
    have hokPlace : Doc.Ok { doc with table := doc.table ++ [[]] } := hok
    have hplace : Doc.size { doc with table := doc.table ++ [[]] } = doc.size + 4 := by
      simp only [Doc.size, List.length_append, List.length_singleton, List.flatten_append,
        List.flatten_singleton, List.length_nil]
      omega
    obtain ⟨doc₁, cells, harray, hsize₁, hlen₁⟩ :=
      encodeArray_total array hv.1 hnestsArray hokPlace (by omega)
    obtain ⟨hgrows₁, -⟩ := encodeArray_ok array hv.1 harray
    obtain ⟨doc₂, kvs, hdict, hsize₂, hlen₂⟩ := encodeDict_total dict hv.2.1 hnestsDict
      (hgrows₁.ok hok) (by omega)
    obtain ⟨hgrows₂, -⟩ := encodeDict_ok dict hv.2.1 hdict
    obtain ⟨body, hbody, hbodyLen⟩ := tableBytes_total hlen₁ hlen₂ (by omega)
    have hindex : doc.table.length < 2 ^ 31 := by
      rw [Doc.size] at h
      omega
    refine ⟨{ doc₂ with table := doc₂.table.set doc.table.length body },
      (4, Bytes.le 4 doc.table.length), ?_, ?_, Bytes.le_length 4 _⟩
    · rw [encode, if_pos hroom, harray]
      simp only [ok_bind, hdict, hbody, packI4_of_lt hindex]
      rfl
    · have hempty : doc₂.table[doc.table.length]? = some [] :=
        (hgrows₁.trans hgrows₂).table _ _ (by simp)
      have hset := length_flatten_set hempty body
      rw [Doc.size] at hsize₂ ⊢
      simp only [List.length_set, hset]
      omega

theorem encodeArray_total (vs : List (Value τ)) (hvs : ArrayFits vs) {path : List Loop}
    (hnests : EachArray (fun path _ => stack.dump path = true) (fun _ => True) path vs) {doc : Doc}
    (hok : doc.Ok) (h : doc.size + arrayWeight vs < 2 ^ 31) : ∃ doc' cells,
      encodeArray stack path doc vs = .ok (doc', cells) ∧
      doc'.size + 5 * cells.length ≤ doc.size + arrayWeight vs ∧ ∀ c ∈ cells, c.2.length = 4 := by
  match vs with
  | [] => exact ⟨doc, [], rfl, le_rfl, by simp⟩
  | v :: vs =>
    rw [ArrayFits] at hvs
    rw [EachArray] at hnests
    rw [arrayWeight] at h ⊢
    obtain ⟨doc₁, c, hc, hsize₁, hlen⟩ := encode_total v hvs.1 hnests.1 hok (by omega)
    obtain ⟨hgrows, -⟩ := encode_ok v hvs.1 hc
    obtain ⟨doc₂, cells, hcells, hsize₂, hlens⟩ := encodeArray_total vs hvs.2 hnests.2
      (hgrows.ok hok) (by omega)
    refine ⟨doc₂, c :: cells, ?_, ?_, List.forall_mem_cons.mpr ⟨hlen, hlens⟩⟩
    · rw [encodeArray, hc]
      simp only [ok_bind, hcells]
      rfl
    · rw [List.length_cons]
      omega

theorem encodeDict_total (es : List (List UInt8 × Value τ)) (hes : DictFits es) {path : List Loop}
    (hnests : EachDict (fun path _ => stack.dump path = true) (fun _ => True) path es) {doc : Doc}
    (hok : doc.Ok) (h : doc.size + dictWeight es < 2 ^ 31) : ∃ doc' kvs,
      encodeDict stack path doc es = .ok (doc', kvs) ∧
      doc'.size + 9 * kvs.length ≤ doc.size + dictWeight es ∧
      ∀ kv ∈ kvs, kv.1.length = 4 ∧ kv.2.2.length = 4 := by
  match es with
  | [] => exact ⟨doc, [], rfl, le_rfl, by simp⟩
  | (k, v) :: es =>
    rw [DictFits] at hes
    rw [EachDict] at hnests
    rw [dictWeight] at h ⊢
    obtain ⟨doc₁, kv, hkey, hsize₁, hkeyLen⟩ := encodeString_total hok (s := k) (by omega)
    obtain ⟨-, -, -, -, hgrows₁⟩ := encodeString_ok hkey
    have hok₁ := hgrows₁.ok hok
    obtain ⟨doc₂, c, hc, hsize₂, hlen⟩ := encode_total v hes.2.1 hnests.2.1 hok₁
      (by omega)
    obtain ⟨hgrows₂, -⟩ := encode_ok v hes.2.1 hc
    obtain ⟨doc₃, kvs, hkvs, hsize₃, hlens⟩ := encodeDict_total es hes.2.2 hnests.2.2
      (hgrows₂.ok hok₁) (by omega)
    refine ⟨doc₃, (kv.2, c) :: kvs, ?_, ?_, List.forall_mem_cons.mpr ⟨⟨hkeyLen, hlen⟩, hlens⟩⟩
    · rw [encodeDict, hkey]
      simp only [ok_bind, hc, hkvs]
      rfl
    · rw [List.length_cons]
      omega

end

theorem packIndex_total {offset : Nat} {table : List (List UInt8)}
    (h : offset + table.flatten.length < 2 ^ 32) : ∃ r, packIndex offset table = .ok r := by
  induction table generalizing offset with
  | nil => exact ⟨_, rfl⟩
  | cons v table ih =>
    rw [List.flatten_cons, List.length_append, ← Nat.add_assoc] at h
    obtain ⟨⟨index, stop⟩, hrest⟩ := ih h
    rw [packIndex, packU4_of_lt (show offset < 2 ^ 32 by omega), hrest]
    exact ⟨_, rfl⟩

end XsServer.Datasheet
