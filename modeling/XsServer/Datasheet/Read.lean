import XsServer.Datasheet.Layout
import Mathlib.Data.List.Nodup

/-! Both readers read the value that a document shows. -/

namespace XsServer.Datasheet

open XsServer.Lib

variable {d : List UInt8} {n strs : Nat}

theorem setKey_of_notMem {α : Type} {dict : List (List UInt8 × α)} {e : List UInt8 × α}
    (h : e.1 ∉ dict.map Prod.fst) : setKey dict e = dict ++ [e] := by
  rw [setKey, List.filter_eq_self.mpr fun e' he' => ?_]
  exact decide_eq_true fun heq => h (heq ▸ List.mem_map_of_mem he')

theorem HasString.unpack {m : Nat} {s : List UInt8} (h : HasString d strs m s)
    (hlen : s.length < 2 ^ 31) : unpackZ d (strs + 1 + m) = some s := by
  rw [Nat.add_right_comm]
  exact At.unpackZ h.2.2 h.2.1 hlen

theorem toInt32_ofNat (m : Int32) : (UInt32.ofNat m.toUInt32.toNat).toInt32 = m := by
  rw [UInt32.ofNat_toNat, Int32.toInt32_toUInt32]

mutual

def Value.depth {τ : Type} : Value τ → Nat
  | .table _ array dict => 1 + max (arrayDepth array) (dictDepth dict)
  | _ => 0

def arrayDepth {τ : Type} : List (Value τ) → Nat
  | [] => 0
  | v :: vs => max v.depth (arrayDepth vs)

def dictDepth {τ : Type} : List (List UInt8 × Value τ) → Nat
  | [] => 0
  | (_, v) :: es => max v.depth (dictDepth es)

end

section Undump

/-- The index of a document, as `undump` reads it. -/
structure Indexed (d : List UInt8) (n : Nat) (index : List Nat) : Prop where
  read : (List.range n).mapM (fun i => unpackU4 d (9 + 4 * i)) = some index
  length : index.length = n
  get : ∀ i < n, index[i]? = unpackU4 d (9 + 4 * i)

theorem exists_indexed (h : ∀ i < n, ∃ m, unpackU4 d (9 + 4 * i) = some m) :
    ∃ index, Indexed d n index := by
  induction n with
  | zero => exact ⟨[], rfl, rfl, fun i hi => absurd hi (Nat.not_lt_zero i)⟩
  | succ n ih =>
    obtain ⟨index, hread, hlen, hget⟩ := ih fun i hi => h i (Nat.lt_succ_of_lt hi)
    obtain ⟨m, hm⟩ := h n (Nat.lt_succ_self n)
    refine ⟨index ++ [m], ?_, by simp [hlen], fun i hi => ?_⟩
    · rw [List.range_succ, List.mapM_append, hread]
      simp [hm]
    · obtain hlt | rfl := Nat.lt_succ_iff_lt_or_eq.mp hi
      · rw [List.getElem?_append_left (hlen ▸ hlt), hget i hlt]
      · rw [List.getElem?_append_right hlen.le, hlen, Nat.sub_self, hm]
        rfl

variable {index : List Nat} {stack : Stack}

theorem HasTable.decode (hindex : Indexed d n index) {i fuel : Nat} {path : List Loop}
    {results : Nat} (hresults : stack.undump path = some results) {cells : List Cell}
    {kvs : List (List UInt8 × Cell)} {array : List (Value Nat)}
    {dict : List (List UInt8 × Value Nat)} (h : HasTable d n i cells kvs)
    (hle : cells.length + kvs.length ≤ results)
    (hcells : (cells.map Prod.snd).flatten.length = 4 * cells.length)
    (harray : ∀ off, At d off (cells.map Prod.snd).flatten →
      decodeArray (decodeValue d (strs + 1)
        (decode d (strs + 1) stack index (4 + 4 + 4 * n + 1) fuel (.array :: path)))
        (cells.map Prod.fst) (off + 1) = some (array, off + 4 * cells.length + 1))
    (hdict : ∀ off, At d off (kvs.map fun kv => kv.1 ++ kv.2.2).flatten →
      decodeDict d (strs + 1) (decodeValue d (strs + 1)
        (Datasheet.decode d (strs + 1) stack index (4 + 4 + 4 * n + 1) fuel (.dict :: path)))
        (kvs.map fun kv => kv.2.1) (off + 1) [] = some dict) :
    Datasheet.decode d (strs + 1) stack index (4 + 4 + 4 * n + 1) (fuel + 1) path i =
      some (.table i array dict) := by
  obtain ⟨off, hoff, hat, ha, hd, htypes, hwords, hlen⟩ := h.parts
  have hoff32 : off < 2 ^ 32 := hoff.trans (by decide)
  have hword : index[i]? = some off := by
    rw [hindex.get i h.1, ← hat.unpack_le hoff32]
    congr 1
    omega
  rw [at_append, hcells] at hwords
  have hbs := htypes.unpackBs
  rw [List.length_append, List.length_map, List.length_map] at hbs
  -- positions begin at 1
  have hstart : off + (4 + 4 + 4 * n + 1) = 8 + 4 * n + off + 1 := by omega
  have hdict4 : 8 + 4 * n + off + 1 + 4 = 8 + 4 * n + off + 4 + 1 := by omega
  have htypes8 : 8 + 4 * n + off + 1 + 8 = 8 + 4 * n + off + 8 + 1 := by omega
  have hvalues : (cells.length + kvs.length + 8 + 3) / 4 * 4 + (8 + 4 * n + off + 1) =
      8 + 4 * n + off + 8 + (cells.length + kvs.length + 3) / 4 * 4 + 1 := by omega
  simp only [Datasheet.decode, hresults, if_neg (Nat.not_lt.mpr hle), hword, hstart,
    ha.unpack_le (show cells.length < 2 ^ 32 by omega),
    hdict4, hd.unpack_le (show kvs.length < 2 ^ 32 by omega), htypes8, hbs, hvalues,
    List.take_left' (List.length_map _), List.drop_left' (List.length_map _), Option.bind_eq_bind,
    Option.bind_some, harray _ hwords.1, hdict _ hwords.2]
  rfl

mutual

theorem Shown.decodeValue (hindex : Indexed d n index) (hn : n < 2 ^ 32) (v : Value Nat) {c : Cell}
    (h : Shown d n strs v c) {off : Nat} (hoff : At d off c.2) (fuel : Nat)
    (hfuel : v.depth ≤ fuel) {path : List Loop} (hreads : v.Reads stack path) :
    decodeValue d (strs + 1) (decode d (strs + 1) stack index (4 + 4 + 4 * n + 1) fuel path) c.1
      (off + 1) = some v := by
  match v with
  | .integer m =>
    rw [Shown] at h
    subst h
    rw [Datasheet.decodeValue, if_pos rfl, hoff.unpack_le (UInt32.toNat_lt _), Option.map_some,
      toInt32_ofNat]
  | .real bits =>
    rw [Shown] at h
    subst h
    simp [Datasheet.decodeValue, hoff.unpack_le (UInt32.toNat_lt _)]
  | .boolean b =>
    rw [Shown] at h
    subst h
    cases b with
    | true | false => simp [Datasheet.decodeValue, hoff.unpackU4 rfl, Bytes.ofLe]
  | .string s =>
    rw [Shown] at h
    obtain ⟨m, rfl, hs⟩ := h
    rw [Value.Reads, Value.Each] at hreads
    simp [Datasheet.decodeValue, hoff.unpack_le hs.1, hs.unpack hreads]
  | .table i array dict =>
    rw [Shown] at h
    obtain ⟨rfl, hnodup, cells, kvs, htable, harray, hdict⟩ := h
    rw [Value.Reads, Value.Each] at hreads
    obtain ⟨⟨results, hresults, hle⟩, hreadsArray, hreadsDict⟩ := hreads
    rw [harray.length_eq, hdict.length_eq] at hle
    obtain _ | fuel := fuel
    · simp [Value.depth] at hfuel
    · rw [Value.depth] at hfuel
      have hi : i < 2 ^ 32 := htable.1.trans hn
      simp only [Datasheet.decodeValue, hoff.unpack_le hi, Option.bind_some]
      refine htable.decode hindex hresults hle harray.length (fun off hoff => ?_)
        (fun off hoff => ?_)
      · exact ArrayShown.decodeArray hindex hn array harray hoff fuel (by omega) hreadsArray
      · exact DictShown.decodeDict hindex hn dict hdict hoff fuel (by omega) hreadsDict [] hnodup

theorem ArrayShown.decodeArray (hindex : Indexed d n index) (hn : n < 2 ^ 32)
    (vs : List (Value Nat)) {cells : List Cell} (h : ArrayShown d n strs vs cells)
    {off : Nat} (hoff : At d off (cells.map Prod.snd).flatten) (fuel : Nat)
    (hfuel : arrayDepth vs ≤ fuel) {path : List Loop} (hreads : EachArray
      (fun path k => ∃ results, stack.undump path = some results ∧ k ≤ results)
      (·.length < 2 ^ 31) path vs) :
    decodeArray (Datasheet.decodeValue d (strs + 1)
      (decode d (strs + 1) stack index (4 + 4 + 4 * n + 1) fuel path)) (cells.map Prod.fst)
      (off + 1) = some (vs, off + 4 * cells.length + 1) := by
  match vs with
  | [] =>
    rw [ArrayShown] at h
    subst h
    rfl
  | v :: vs =>
    rw [ArrayShown] at h
    obtain ⟨c, cells, rfl, hc, hrest⟩ := h
    rw [List.map_cons, List.flatten_cons, at_append, hc.length] at hoff
    rw [arrayDepth] at hfuel
    rw [EachArray] at hreads
    have hv := Shown.decodeValue hindex hn v hc hoff.1 fuel (by omega) hreads.1
    have hvs := ArrayShown.decodeArray hindex hn vs hrest hoff.2 fuel (by omega) hreads.2
    rw [show off + 4 + 1 = off + 1 + 4 by omega] at hvs
    simp [Datasheet.decodeArray, hv, hvs]
    omega

theorem DictShown.decodeDict (hindex : Indexed d n index) (hn : n < 2 ^ 32)
    (es : List (List UInt8 × Value Nat)) {kvs : List (List UInt8 × Cell)}
    (h : DictShown d n strs es kvs)
    {off : Nat} (hoff : At d off (kvs.map fun kv => kv.1 ++ kv.2.2).flatten) (fuel : Nat)
    (hfuel : dictDepth es ≤ fuel) {path : List Loop} (hreads : EachDict
      (fun path k => ∃ results, stack.undump path = some results ∧ k ≤ results)
      (·.length < 2 ^ 31) path es) (result : List (List UInt8 × Value Nat))
    (hnodup : ((result ++ es).map Prod.fst).Nodup) :
    decodeDict d (strs + 1) (Datasheet.decodeValue d (strs + 1)
      (decode d (strs + 1) stack index (4 + 4 + 4 * n + 1) fuel path)) (kvs.map fun kv => kv.2.1)
      (off + 1) result = some (result ++ es) := by
  match es with
  | [] =>
    rw [DictShown] at h
    subst h
    simp [Datasheet.decodeDict]
  | (k, v) :: es =>
    rw [DictShown] at h
    obtain ⟨m, c, kvs, rfl, hk, hc, hrest⟩ := h
    rw [List.map_cons, List.flatten_cons, at_append, at_append, List.length_append,
      Bytes.le_length, hc.length] at hoff
    obtain ⟨⟨hkey, hval⟩, hrests⟩ := hoff
    rw [dictDepth] at hfuel
    rw [EachDict] at hreads
    have hv := Shown.decodeValue hindex hn v hc hval fuel (by omega) hreads.2.1
    have hnew : k ∉ result.map Prod.fst := by
      rw [List.map_append, List.map_cons] at hnodup
      exact fun hmem => (List.nodup_append.mp hnodup).2.2 k hmem k List.mem_cons_self rfl
    have hes := DictShown.decodeDict hindex hn es hrest hrests fuel (by omega) hreads.2.2
      (result ++ [(k, v)]) (by simpa using hnodup)
    rw [show off + 4 + 1 = off + 1 + 4 by omega] at hv
    rw [show off + (4 + 4) + 1 = off + 1 + 8 by omega] at hes
    have hset := setKey_of_notMem (e := (k, v)) hnew
    simp [Datasheet.decodeDict, hkey.unpack_le hk.1, hk.unpack hreads.1, hv, hset, hes]

end

theorem Shown.undump (hhead : Headed d n strs) {array : List (Value Nat)}
    {dict : List (List UInt8 × Value Nat)}
    (h : Shown d n strs (.table 0 array dict) (4, Bytes.le 4 0)) {fuel : Nat}
    (hfuel : (Value.table 0 array dict).depth ≤ fuel) (hn : n ≤ stack.index)
    (hreads : (Value.table 0 array dict).Reads stack []) :
    undump stack fuel d = some (.table 0 array dict) := by
  have hwords : ∀ i < n, ∃ m, unpackU4 d (9 + 4 * i) = some m := by
    intro i hi
    obtain ⟨off, hoff, hat⟩ := hhead.index i hi
    rw [show 9 + 4 * i = 8 + 4 * i + 1 by omega]
    exact ⟨off, hat.unpack_le hoff⟩
  obtain ⟨index, hindex⟩ := exists_indexed hwords
  rw [Shown] at h
  obtain ⟨-, hnodup, cells, kvs, htable, harray, hdict⟩ := h
  rw [Value.Reads, Value.Each] at hreads
  obtain ⟨⟨results, hresults, hle⟩, hreadsArray, hreadsDict⟩ := hreads
  rw [harray.length_eq, hdict.length_eq] at hle
  obtain _ | fuel := fuel
  · simp [Value.depth] at hfuel
  · rw [Value.depth] at hfuel
    simp only [Datasheet.undump, hhead.strtbl.unpack_le hhead.strs_lt,
      hhead.count.unpack_le hhead.lt, if_neg (Nat.not_lt.mpr hn), hindex.read, Option.bind_eq_bind,
        Option.bind_some]
    refine htable.decode hindex hresults hle harray.length (fun off hoff => ?_) (fun off hoff => ?_)
    · exact ArrayShown.decodeArray hindex hhead.lt array harray hoff fuel (by omega) hreadsArray
    · exact DictShown.decodeDict hindex hhead.lt dict hdict hoff fuel (by omega) hreadsDict []
        hnodup

end Undump

/-! ### The proxies -/

def Value.leaf : Value Nat → LuaValue
  | .integer m => .integer m
  | .real bits => .number bits
  | .boolean b => .boolean b
  | .string s => .string s
  | .table i _ _ => .proxy i

theorem Headed.strtbl_eq (h : Headed d n strs) : Datasheet.strtbl d = some strs :=
  h.strtbl.unpack_le h.strs_lt

theorem Headed.count_eq (h : Headed d n strs) : Datasheet.count d = some n :=
  h.count.unpack_le h.lt

theorem HasTable.gettable (hhead : Headed d n strs) {i : Nat} {cells : List Cell}
    {kvs : List (List UInt8 × Cell)} (h : HasTable d n i cells kvs) :
    ∃ off, gettable d i = some (some (8 + 4 * n + off)) ∧
      TableAt d (8 + 4 * n + off) cells kvs := by
  obtain ⟨off, hoff, hat, hparts⟩ := h.parts
  have hoff32 : off < 2 ^ 32 := hoff.trans (by decide)
  refine ⟨off, ?_, hparts⟩
  have hword : getuint32 d (4 + 4 + 4 * i) = some off := hat.unpack_le hoff32
  rw [Datasheet.gettable, hword]
  simp only [Option.bind_eq_bind, Option.bind_some, if_neg hoff.ne, hhead.count_eq]
  congr 2
  omega

theorem Shown.pushvalue (hhead : Headed d n strs) {v : Value Nat} {c : Cell}
    (h : Shown d n strs v c) {off : Nat} (hoff : At d off c.2) :
    pushvalue d off c.1 = some v.leaf := by
  cases v with
  | integer m =>
    rw [Shown] at h
    subst h
    have hword : getuint32 d off = some m.toUInt32.toNat := hoff.unpack_le (UInt32.toNat_lt _)
    simp only [Datasheet.pushvalue, hword]
    rw [Option.map_some, toInt32_ofNat]
    rfl
  | real bits =>
    rw [Shown] at h
    subst h
    have hword : getuint32 d off = some bits.toNat := hoff.unpack_le (UInt32.toNat_lt _)
    simp [Datasheet.pushvalue, hword, Value.leaf]
  | boolean b =>
    rw [Shown] at h
    subst h
    cases b with
    | true | false =>
      simp [Datasheet.pushvalue, getuint32, hoff.unpackU4 rfl, Bytes.ofLe, Value.leaf]
  | string s =>
    rw [Shown] at h
    obtain ⟨m, rfl, hs⟩ := h
    have hword : getuint32 d off = some m := hoff.unpack_le hs.1
    have hread : cstring d (strs + m + 1) = some s := hs.2.2.cstring hs.2.1
    simp [Datasheet.pushvalue, hword, hhead.strtbl_eq, hread, Value.leaf]
  | table i array dict =>
    rw [Shown] at h
    obtain ⟨rfl, -, cells, kvs, htable, -⟩ := h
    have hword : getuint32 d off = some i := hoff.unpack_le (htable.1.trans hhead.lt)
    obtain ⟨m, ht, -⟩ := htable.gettable hhead
    have hproxy : createProxy d i = some (.proxy i) := by
      rw [createProxy, if_neg (Nat.not_le.mpr htable.2.1), ht]
      rfl
    simp [Datasheet.pushvalue, hword, hproxy, Value.leaf]

theorem ArrayShown.copyArray (hhead : Headed d n strs) {vs : List (Value Nat)} {cells : List Cell}
    (h : ArrayShown d n strs vs cells) {off : Nat} (hoff : At d off (cells.map Prod.snd).flatten) :
    copyArray d (cells.map Prod.fst) off = some (vs.map Value.leaf, off + 4 * cells.length) := by
  induction vs generalizing cells off with
  | nil =>
    rw [ArrayShown] at h
    subst h
    rfl
  | cons v vs ih =>
    rw [ArrayShown] at h
    obtain ⟨c, cells, rfl, hc, hrest⟩ := h
    rw [List.map_cons, List.flatten_cons, at_append, hc.length] at hoff
    have hv := hc.pushvalue hhead hoff.1
    have hvs := ih hrest hoff.2
    simp [Datasheet.copyArray, hv, hvs]
    omega

theorem HasString.pushvalue (hhead : Headed d n strs) {m off : Nat} {s : List UInt8}
    (h : HasString d strs m s) (hoff : At d off (Bytes.le 4 m)) :
    pushvalue d off 5 = some (.string s) :=
  Shown.pushvalue hhead (v := .string s) (c := (5, Bytes.le 4 m))
    (by rw [Shown]; exact ⟨m, rfl, h⟩) hoff

/-- The entries of a dictionary as a proxy's table has them. -/
def leaves (es : List (List UInt8 × Value Nat)) : List (List UInt8 × LuaValue) :=
  es.map fun e => (e.1, e.2.leaf)

theorem DictShown.copyDict (hhead : Headed d n strs) {es : List (List UInt8 × Value Nat)}
    {kvs : List (List UInt8 × Cell)} (h : DictShown d n strs es kvs) {off : Nat}
    (hoff : At d off (kvs.map fun kv => kv.1 ++ kv.2.2).flatten)
    (copied : List (List UInt8 × LuaValue))
    (hnodup : (copied.map Prod.fst ++ es.map Prod.fst).Nodup) :
    copyDict d (kvs.map fun kv => kv.2.1) off copied = some (copied ++ leaves es) := by
  induction es generalizing kvs off copied with
  | nil =>
    rw [DictShown] at h
    subst h
    simp [Datasheet.copyDict, leaves]
  | cons e es ih =>
    obtain ⟨k, v⟩ := e
    rw [DictShown] at h
    obtain ⟨m, c, kvs, rfl, hk, hc, hrest⟩ := h
    rw [List.map_cons, List.flatten_cons, at_append, at_append, List.length_append,
      Bytes.le_length, hc.length] at hoff
    obtain ⟨⟨hkey, hval⟩, hrests⟩ := hoff
    have hnew : k ∉ copied.map Prod.fst := by
      rw [List.map_cons] at hnodup
      exact fun hmem => (List.nodup_append.mp hnodup).2.2 k hmem k List.mem_cons_self rfl
    have hset := setKey_of_notMem (e := (k, v.leaf)) hnew
    have hes := ih hrest hrests (copied ++ [(k, v.leaf)]) (by simpa using hnodup)
    simp [Datasheet.copyDict, hk.pushvalue hhead hkey, hc.pushvalue hhead hval, hset, hes, leaves]

theorem Shown.copytable (hhead : Headed d n strs) {i : Nat} {array : List (Value Nat)}
    {dict : List (List UInt8 × Value Nat)} {c : Cell}
    (h : Shown d n strs (.table i array dict) c) :
    copytable d i = some ⟨array.map Value.leaf, leaves dict⟩ := by
  rw [Shown] at h
  obtain ⟨rfl, hnodup, cells, kvs, htable, harray, hdict⟩ := h
  obtain ⟨off, hget, ha, hd, htypes, hwords, hlen⟩ := htable.gettable hhead
  rw [at_append, harray.length] at hwords
  have hbs := htypes.unpackBs
  rw [List.length_append, List.length_map, List.length_map] at hbs
  have hbs' : (List.range (cells.length + kvs.length)).mapM
      (fun i => unpackB d (8 + 4 * n + off + 8 + i + 1)) =
        some (cells.map Prod.fst ++ kvs.map fun kv => kv.2.1) := by
    rw [← hbs]
    congr 1
    funext j
    congr 1
    omega
  have hn : ¬ n ≤ i := Nat.not_le.mpr htable.1
  have harray4 : getuint32 d (8 + 4 * n + off) = some cells.length := ha.unpack_le (by omega)
  have hdict4 : getuint32 d (8 + 4 * n + off + 4) = some kvs.length := hd.unpack_le (by omega)
  have hwrap : (cells.length + kvs.length + 3) % 2 ^ 32 = cells.length + kvs.length + 3 :=
    Nat.mod_eq_of_lt (by omega)
  have hvs := harray.copyArray hhead hwords.1
  have hes := hdict.copyDict hhead hwords.2 [] hnodup
  simp only [Datasheet.copytable, hhead.count_eq, Option.bind_eq_bind, Option.bind_some, if_neg hn,
    hget, harray4, hdict4, hbs', hwrap, List.take_left' (List.length_map _),
    List.drop_left' (List.length_map _), hvs, hes]
  rfl

/-! ### Paths -/

def Value.child : Value Nat → Key → Option (Value Nat)
  | .table _ array _, .index i => array[i]?
  | .table _ _ dict, .name s => dict.lookup s
  | _, _ => none

/-- What a path of keys leads to: `none` where something else than a table would be indexed. -/
def Value.path (v : Value Nat) : List Key → Option LuaValue
  | [] => some v.leaf
  | key :: keys =>
    match v with
    | .table .. =>
      match v.child key with
      | some w => w.path keys
      | none => if keys = [] then some .nil else none
    | _ => none

theorem lookup_leaves (es : List (List UInt8 × Value Nat)) (s : List UInt8) :
    (leaves es).lookup s = (es.lookup s).map Value.leaf := by
  induction es with
  | nil => rfl
  | cons e es ih =>
    rw [leaves, List.map_cons, List.lookup_cons, List.lookup_cons, ← leaves, ih]
    cases s == e.1 <;> rfl

theorem get_copied (i : Nat) (array : List (Value Nat)) (dict : List (List UInt8 × Value Nat))
    (key : Key) : Copied.get ⟨array.map Value.leaf, leaves dict⟩ key =
      (((Value.table i array dict).child key).map Value.leaf).getD .nil := by
  cases key with
  | index j => rw [Copied.get, Value.child, List.getElem?_map]
  | name s => rw [Copied.get, Value.child, lookup_leaves]

theorem ArrayShown.get {vs : List (Value Nat)} {cells : List Cell}
    (h : ArrayShown d n strs vs cells) {j : Nat} {w : Value Nat} (hw : vs[j]? = some w) :
    ∃ c, Shown d n strs w c := by
  induction vs generalizing cells j with
  | nil => cases hw
  | cons v vs ih =>
    rw [ArrayShown] at h
    obtain ⟨c, cells, rfl, hc, hrest⟩ := h
    cases j with
    | zero => exact ⟨c, Option.some.inj hw ▸ hc⟩
    | succ j => exact ih hrest hw

theorem DictShown.get {es : List (List UInt8 × Value Nat)} {kvs : List (List UInt8 × Cell)}
    (h : DictShown d n strs es kvs) {s : List UInt8} {w : Value Nat} (hw : es.lookup s = some w) :
    ∃ c, Shown d n strs w c := by
  induction es generalizing kvs with
  | nil => cases hw
  | cons e es ih =>
    obtain ⟨k, v⟩ := e
    rw [DictShown] at h
    obtain ⟨m, c, kvs, rfl, -, hc, hrest⟩ := h
    rw [List.lookup_cons] at hw
    split at hw
    · exact ⟨c, Option.some.inj hw ▸ hc⟩
    · exact ih hrest hw

theorem Shown.child {v w : Value Nat} {c : Cell} (h : Shown d n strs v c) {key : Key}
    (hw : v.child key = some w) : ∃ c, Shown d n strs w c := by
  cases v with
  | table i array dict =>
    rw [Shown] at h
    obtain ⟨-, -, cells, kvs, -, harray, hdict⟩ := h
    cases key with
    | index j => exact harray.get hw
    | name s => exact hdict.get hw
  | _ => cases key <;> cases hw

theorem readPath_nil {path : List Key} :
    readPath d .nil path = if path = [] then some .nil else none := by
  cases path <;> rfl

/-- The proxies show the value, whatever the path. -/
theorem Shown.readPath (hhead : Headed d n strs) {v : Value Nat} {c : Cell}
    (h : Shown d n strs v c) (path : List Key) : readPath d v.leaf path = v.path path := by
  induction path generalizing v c with
  | nil => rfl
  | cons key path ih =>
    cases v with
    | table i array dict =>
      have hcopy := h.copytable hhead
      simp only [Value.leaf, Datasheet.readPath, hcopy, Option.bind_some,
        get_copied i array dict key]
      cases hw : (Value.table i array dict).child key with
      | some w =>
        obtain ⟨c', hc'⟩ := h.child hw
        simp only [Value.path, hw]
        exact ih hc'
      | none =>
        simp only [Value.path, hw]
        exact readPath_nil
    | _ => rfl

end XsServer.Datasheet
