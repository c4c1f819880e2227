import XsServer.Seri.Writer
import XsServer.Seri.Accept

/-! What `luaseri_pack` writes, `luaseri_unpack` reads back. -/

namespace XsServer.Seri

open Lib.Bytes

mutual

/-- The same scalar, or a table with the same entries in some order. -/
inductive Same (heap : Heap) : LuaValue → LuaTree → Prop
  | scalar (s : Scalar) : Same heap (.scalar s) (.scalar s)
  | table {ref : Nat} {l : List (LuaValue × LuaValue)} {es : List (LuaTree × LuaTree)} :
      l.Perm (heap ref).entries → SameEntries heap l es → Same heap (.table ref) (.table es)

inductive SameEntries (heap : Heap) : List (LuaValue × LuaValue) → List (LuaTree × LuaTree) → Prop
  | nil : SameEntries heap [] []
  | cons {e : LuaValue × LuaValue} {f : LuaTree × LuaTree} {l : List (LuaValue × LuaValue)}
      {es : List (LuaTree × LuaTree)} : Same heap e.1 f.1 → Same heap e.2 f.2 →
      SameEntries heap l es → SameEntries heap (e :: l) (f :: es)

end

theorem hasTag_combineType : ∀ t < 7, ∀ n < 32,
    HasTag (combineType (UInt8.ofNat t) (UInt8.ofNat n)) (UInt8.ofNat t) (UInt8.ofNat n) := by
  unfold HasTag
  decide

theorem toNat_ofNat_cookie {n : Nat} (h : n < 32) : (UInt8.ofNat n).toNat = n := by
  rw [UInt8.toNat_ofNat', Nat.mod_eq_of_lt (by omega)]

theorem toNat_of_nonneg {v : Int64} (h : ¬ v < 0) : v.toInt = v.toUInt64.toNat := by
  have hle : 0 ≤ v := Int64.not_lt.mp h
  have hint : (0 : Int64).toInt ≤ v.toInt := Int64.le_iff_toInt_le.mp hle
  rw [Int64.toNat_toUInt64_of_le hle, Int64.toNatClampNeg]
  simp at hint
  omega

theorem integer_item (v : Int64) : ∃ tag c w, encodeInteger v = tag :: w ∧
    HasTag tag TYPE_NUMBER c ∧ c ≠ TYPE_NUMBER_REAL ∧ IntegerItem c w v := by
  unfold encodeInteger
  split
  · rename_i h
    subst h
    exact ⟨_, TYPE_NUMBER_ZERO, [], rfl, ⟨by decide, by decide⟩, by decide, IntegerItem.zero⟩
  split
  · have hitem := IntegerItem.qword (le_length 8 v.toUInt64.toNat)
    rw [ofLe_le_of_lt v.toUInt64.toNat_lt, UInt64.ofNat_toNat, Int64.toInt64_toUInt64] at hitem
    exact ⟨_, TYPE_NUMBER_QWORD, _, rfl, ⟨by decide, by decide⟩, by decide, hitem⟩
  rename_i hrange
  have hint32 : v.toInt32.toInt64 = v := (not_not.mp hrange).symm
  split
  · have hitem := IntegerItem.dword (le_length 4 v.toInt32.toUInt32.toNat)
    rw [ofLe_le_of_lt v.toInt32.toUInt32.toNat_lt, UInt32.ofNat_toNat, Int32.toInt32_toUInt32,
      hint32] at hitem
    exact ⟨_, TYPE_NUMBER_DWORD, _, rfl, ⟨by decide, by decide⟩, by decide, hitem⟩
  rename_i hneg
  have hnat := toNat_of_nonneg hneg
  have hof := ofNat_toInt hnat
  split
  · rename_i hlt
    have hint : v.toInt < 256 := Int64.lt_iff_toInt_lt.mp hlt
    have hbyte : v.toUInt64.toUInt8.toNat = v.toUInt64.toNat := by
      rw [UInt64.toNat_toUInt8, Nat.mod_eq_of_lt (by omega)]
    have hitem := IntegerItem.byte (le_length 1 v.toUInt64.toNat)
    rw [ofLe_le_of_lt (by omega), hof] at hitem
    rw [hbyte]
    exact ⟨_, TYPE_NUMBER_BYTE, _, rfl, ⟨by decide, by decide⟩, by decide, hitem⟩
  split
  · rename_i hlt
    have hint : v.toInt < 65536 := Int64.lt_iff_toInt_lt.mp hlt
    have hword : v.toUInt64.toUInt16.toNat = v.toUInt64.toNat := by
      rw [UInt64.toNat_toUInt16, Nat.mod_eq_of_lt (by omega)]
    have hitem := IntegerItem.word (le_length 2 v.toUInt64.toNat)
    rw [ofLe_le_of_lt (by omega), hof] at hitem
    rw [hword]
    exact ⟨_, TYPE_NUMBER_WORD, _, rfl, ⟨by decide, by decide⟩, by decide, hitem⟩
  · have hlt : v.toInt < 2 ^ 31 := by
      rw [← hint32, Int32.toInt_toInt64]
      exact v.toInt32.toInt_lt
    have hdword : v.toUInt64.toUInt32.toNat = v.toUInt64.toNat := by
      rw [UInt64.toNat_toUInt32, Nat.mod_eq_of_lt (by omega)]
    have hitem := IntegerItem.dword (le_length 4 v.toUInt64.toNat)
    rw [ofLe_le_of_lt (by omega), UInt32.toInt32_ofNat', toInt64_ofNat (by omega), hof] at hitem
    rw [hdword]
    exact ⟨_, TYPE_NUMBER_DWORD, _, rfl, ⟨by decide, by decide⟩, by decide, hitem⟩

theorem scalar_item {s : Scalar} (h : (encodeScalar s).length < 2 ^ 31) (n : Nat) :
    Item none (n + 1) (encodeScalar s) (.scalar s) := by
  cases s with
  | nil => exact ⟨_, _, rfl, Payload.nil _⟩
  | boolean b => cases b <;> exact ⟨_, _, rfl, Payload.boolean _⟩
  | integer v =>
    obtain ⟨tag, c, w, hw, htag, hne, hitem⟩ := integer_item v
    refine ⟨tag, w, hw, ?_⟩
    rw [htag.1, htag.2]
    exact Payload.integer hne hitem
  | number bits =>
    have hreal := @Payload.real (TableItem (fun _ => Item none n) none) _ (le_length 8 bits.toNat)
    rw [ofLe_le_of_lt bits.toNat_lt, UInt64.ofNat_toNat] at hreal
    exact ⟨_, _, rfl, hreal⟩
  | lightuserdata p =>
    have hpointer :=
      @Payload.userdata (TableItem (fun _ => Item none n) none) 0 _ (le_length 8 p.toNat)
    rw [ofLe_le_of_lt p.toNat_lt, UInt64.ofNat_toNat] at hpointer
    exact ⟨_, _, rfl, hpointer⟩
  | string s =>
    simp only [encodeScalar, encodeString] at h ⊢
    split_ifs at h ⊢ with h32 hword
    · have htag : HasTag (combineType TYPE_SHORT_STRING (UInt8.ofNat s.length)) TYPE_SHORT_STRING
          (UInt8.ofNat s.length) := hasTag_combineType 4 (by decide) s.length h32
      refine ⟨_, _, rfl, ?_⟩
      rw [htag.1, htag.2]
      exact Payload.short (toNat_ofNat_cookie h32).symm
    · exact ⟨_, _, rfl, Payload.word (le_length 2 _) (ofLe_le_of_lt (by omega)).symm⟩
    · simp only [List.length_cons, List.length_append, le_length] at h
      have hlen : ofLe (le 4 s.length) = s.length := ofLe_le_of_lt (by omega)
      exact ⟨_, _, rfl, Payload.dword (le_length 4 _) hlen.symm (by omega)⟩

theorem size_item {n : Nat} (h : n < 2 ^ 31) : ∃ tag w, encodeSize n = tag :: w ∧
    tag &&& 7 = TYPE_TABLE ∧ SizeItem (tag >>> 3).toNat w n := by
  unfold encodeSize
  split
  · rename_i h31
    have htag : HasTag (combineType TYPE_TABLE (UInt8.ofNat n)) TYPE_TABLE (UInt8.ofNat n) :=
      hasTag_combineType 6 (by decide) n (by omega)
    refine ⟨_, [], rfl, htag.1, ?_⟩
    rw [htag.2, toNat_ofNat_cookie (by omega)]
    exact SizeItem.short (by rw [MAX_COOKIE]; omega)
  · obtain ⟨tag, c, w, hw, htag, hne, hitem⟩ := integer_item (Int64.ofNat n)
    refine ⟨_, _, rfl, by decide, ?_⟩
    have hsize := SizeItem.long htag hne hitem
    rw [Int64.toInt32_ofNat', Int32.toInt_ofNat_of_lt h] at hsize
    rw [hw]
    exact hsize

/-! ### Tables -/

/-- The entries that the values from the index `i` on make. -/
def arrayEntries (i : Nat) : List LuaTree → List (LuaTree × LuaTree)
  | [] => []
  | v :: vs =>
    if v.isNil then arrayEntries (i + 1) vs
    else (.scalar (.integer (Int64.ofNat i)), v) :: arrayEntries (i + 1) vs

theorem isKey_integer_ne {i j : Nat} (hij : i < j) (hj : j < 2 ^ 63) :
    (LuaTree.scalar (.integer (Int64.ofNat i))).isKey (.integer (Int64.ofNat j)) = false := by
  refine decide_eq_false fun h => ?_
  have heq := congrArg Int64.toInt (Scalar.integer.inj h)
  rw [Int64.toInt_ofNat_of_lt (by omega), Int64.toInt_ofNat_of_lt hj] at heq
  omega

theorem setKey_fresh {t : List (LuaTree × LuaTree)} {key : Scalar}
    (h : ∀ e ∈ t, e.1.isKey key = false) (v : LuaTree) :
    setKey t key v = if v.isNil then t else t ++ [(.scalar key, v)] := by
  have hfilter : (t.filter fun e => !e.1.isKey key) = t :=
    List.filter_eq_self.mpr fun e he => by rw [h e he]; rfl
  rw [setKey, hfilter]

variable {vs : List LuaTree}

theorem fillArray_eq {t : List (LuaTree × LuaTree)} {i : Nat}
    (hlt : i + vs.length ≤ 2 ^ 63)
    (h : ∀ e ∈ t, ∀ j, i ≤ j → j < 2 ^ 63 → e.1.isKey (.integer (Int64.ofNat j)) = false) :
    fillArray t i vs = t ++ arrayEntries i vs := by
  induction vs generalizing t i with
  | nil => simp [fillArray, arrayEntries]
  | cons v vs ih =>
    rw [List.length_cons] at hlt
    rw [fillArray, arrayEntries, setKey_fresh fun e he => h e he i le_rfl (by omega)]
    split
    · exact ih (by omega) fun e he j hj => h e he j (by omega)
    · rw [ih (by omega), List.append_assoc, List.singleton_append]
      intro e he j hj hj63
      rcases List.mem_append.mp he with he | he
      · exact h e he j (by omega) hj63
      · rw [List.mem_singleton.mp he]
        exact isKey_integer_ne (by omega) hj63

/-- An entry that `lua_rawset` can store. -/
def Storable (e : LuaTree × LuaTree) : Prop :=
  e.2.isNil = false ∧ ∀ s, e.1 = .scalar s → s.toKey = some s

theorem fillHash_eq {es t : List (LuaTree × LuaTree)} (hstorable : ∀ e ∈ es, Storable e)
    (h : (t ++ es).Pairwise fun e f => ∀ s, f.1 = .scalar s → e.1.isKey s = false) :
    fillHash t es = some (t ++ es) := by
  induction es generalizing t with
  | nil => simp [fillHash]
  | cons e es ih =>
    obtain ⟨⟨hvalue, hkey⟩, hes⟩ := List.forall_mem_cons.mp hstorable
    have hset : rawset t e.1 e.2 = some (t ++ [e]) := by
      obtain ⟨k, v⟩ := e
      cases k with
      | table entries => simp only [rawset, hvalue, Bool.false_eq_true, if_false]
      | scalar s =>
        have hfresh : ∀ e ∈ t, e.1.isKey s = false := fun e he =>
          (List.pairwise_append.mp h).2.2 e he _ List.mem_cons_self s rfl
        rw [rawset, hkey s rfl, Option.map_some, setKey_fresh hfresh]
        simp only [hvalue, Bool.false_eq_true, if_false]
    rw [fillHash, hset, Option.bind_some, ih hes (by simpa using h)]
    simp

def LuaTable.arrayPart (t : LuaTable) (places : List Nat) : List (LuaValue × LuaValue) :=
  places.filterMap fun i =>
    if t.rawgeti (i + 1) = .scalar .nil then none
    else some (.scalar (.integer (Int64.ofNat (i + 1))), t.rawgeti (i + 1))

variable {e : LuaValue × LuaValue} {t : LuaTable}

theorem mem_arrayPart {places : List Nat} :
    e ∈ t.arrayPart places ↔ ∃ i ∈ places, t.rawgeti (i + 1) ≠ .scalar .nil ∧
      e = (.scalar (.integer (Int64.ofNat (i + 1))), t.rawgeti (i + 1)) := by
  simp only [LuaTable.arrayPart, List.mem_filterMap, Option.ite_none_left_eq_some,
    Option.some.injEq, @eq_comm _ _ e]

theorem mem_arrayPart_range :
    e ∈ t.arrayPart (List.range t.rawlen) ↔
      e ∈ t.entries.filter fun e => inArray t.rawlen e.1 := by
  have hraw := t.rawlen_lt
  rw [mem_arrayPart, List.mem_filter, inArray_iff]
  constructor
  · rintro ⟨i, hi, hne, rfl⟩
    rw [List.mem_range] at hi
    obtain ⟨⟨k, v⟩, he, hget, rfl⟩ := (rawgeti_cases t (i + 1)).resolve_right hne
    have hint : (Int64.ofNat (i + 1)).toInt = (i + 1 : Nat) := Int64.toInt_ofNat_of_lt (by omega)
    rw [hget]
    exact ⟨he, _, rfl, by omega, by omega⟩
  · obtain ⟨k, v⟩ := e
    rintro ⟨he, x, rfl, hpos, hle⟩
    have hx : x.toInt = (x.toInt.toNat - 1 + 1 : Nat) := by omega
    have hget := rawgeti_eq he hx
    refine ⟨x.toInt.toNat - 1, List.mem_range.mpr (by omega), ?_, ?_⟩
    · rw [hget]
      exact t.value_ne _ he
    · rw [hget, ofNat_toInt hx]

theorem nodup_arrayPart (t : LuaTable) : (t.arrayPart (List.range t.rawlen)).Nodup := by
  have hraw := t.rawlen_lt
  rw [LuaTable.arrayPart, List.Nodup, List.pairwise_filterMap]
  refine List.nodup_range.imp_of_mem fun hi hj hne e he f hf hef => hne ?_
  rw [List.mem_range] at hi hj
  simp only [Option.ite_none_left_eq_some, Option.some.injEq] at he hf
  rw [← he.2, ← hf.2] at hef
  have hkey := congrArg Int64.toInt (Scalar.integer.inj (LuaValue.scalar.inj (Prod.mk.inj hef).1))
  rw [Int64.toInt_ofNat_of_lt (by omega), Int64.toInt_ofNat_of_lt (by omega)] at hkey
  omega

theorem parts_perm (t : LuaTable) :
    (t.arrayPart (List.range t.rawlen) ++ t.hashPart).Perm t.entries := by
  have hentries : t.entries.Nodup :=
    List.Pairwise.of_map Prod.fst (fun e f h hef => h (by rw [hef])) t.nodup
  have hnodup := hentries.filter fun e => inArray t.rawlen e.1
  have harray : (t.arrayPart (List.range t.rawlen)).Perm
      (t.entries.filter fun e => inArray t.rawlen e.1) :=
    (List.perm_ext_iff_of_nodup (nodup_arrayPart t) hnodup).mpr fun e => mem_arrayPart_range
  exact (harray.append_right _).trans (List.filter_append_perm _ _)

variable {heap : Heap}

theorem sameEntries_iff {l : List (LuaValue × LuaValue)} {es : List (LuaTree × LuaTree)} :
    SameEntries heap l es ↔
      List.Forall₂ (fun e f => Same heap e.1 f.1 ∧ Same heap e.2 f.2) l es := by
  constructor
  · intro h
    induction l generalizing es with
    | nil => cases h; exact List.Forall₂.nil
    | cons e l ih =>
      cases h with
      | cons hk hv h => exact List.Forall₂.cons ⟨hk, hv⟩ (ih h)
  · intro h
    induction h with
    | nil => exact SameEntries.nil
    | cons h _ ih => exact SameEntries.cons h.1 h.2 ih

variable {v : LuaValue}

theorem Same.isNil_iff {x : LuaTree} (h : Same heap v x) :
    x.isNil = true ↔ v = .scalar .nil := by
  cases h with
  | scalar s => cases s <;> simp [LuaTree.isNil]
  | table => simp [LuaTree.isNil]

theorem Same.of_scalar {s : Scalar} (h : Same heap v (.scalar s)) :
    v = .scalar s := by
  cases h
  rfl

theorem sameEntries_array {start n : Nat}
    (h : List.Forall₂ (fun i v => Same heap (t.rawgeti (i + 1)) v) (List.range' start n) vs) :
    SameEntries heap (t.arrayPart (List.range' start n)) (arrayEntries (start + 1) vs) := by
  induction n generalizing start vs with
  | zero => cases h; exact SameEntries.nil
  | succ n ih =>
    rw [List.range'_succ] at h ⊢
    obtain ⟨v, vs', hv, hvs, rfl⟩ := List.forall₂_cons_left_iff.mp h
    rw [arrayEntries, LuaTable.arrayPart, List.filterMap_cons]
    by_cases hnil : v.isNil = true
    · rw [if_pos hnil, if_pos (hv.isNil_iff.mp hnil)]
      exact ih hvs
    · rw [if_neg hnil, if_neg fun h => hnil (hv.isNil_iff.mpr h)]
      exact SameEntries.cons (Same.scalar _) hv (ih hvs)

theorem pairwise_of_forall₂ {α β : Type} {R : α → β → Prop} {P : α → α → Prop} {Q : β → β → Prop}
    {l : List α} {l' : List β} (h : List.Forall₂ R l l') (hl : l.Pairwise P)
    (himp : ∀ a b a' b', R a a' → R b b' → P a b → Q a' b') : l'.Pairwise Q := by
  induction h with
  | nil => exact List.Pairwise.nil
  | cons ha h ih =>
    obtain ⟨hhead, htail⟩ := List.pairwise_cons.mp hl
    refine List.pairwise_cons.mpr ⟨fun b' hb' => ?_, ih htail⟩
    obtain ⟨i, hi, rfl⟩ := List.mem_iff_getElem.mp hb'
    have hi' := hi
    rw [← h.length_eq] at hi'
    exact himp _ _ _ _ ha (h.get hi' hi) (hhead _ (List.getElem_mem hi'))

theorem fill_table {n : Nat} {es : List (LuaTree × LuaTree)}
    (hn : n = t.rawlen)
    (harray : List.Forall₂ (fun i v => Same heap (t.rawgeti (i + 1)) v) (List.range n) vs)
    (hhash : SameEntries heap t.hashPart es) :
    ∃ l out, l.Perm t.entries ∧ SameEntries heap l out ∧
      fillHash (fillArray [] 1 vs) es = some out := by
  subst hn
  have hraw := t.rawlen_lt
  have hlen := harray.length_eq
  rw [List.length_range] at hlen
  rw [List.range_eq_range'] at harray
  have hparts := sameEntries_array harray
  rw [← List.range_eq_range'] at hparts
  have hperm := parts_perm t
  have hall : SameEntries heap (t.arrayPart (List.range t.rawlen) ++ t.hashPart)
      (arrayEntries 1 vs ++ es) :=
    sameEntries_iff.mpr (List.rel_append (sameEntries_iff.mp hparts) (sameEntries_iff.mp hhash))
  refine ⟨_, _, hperm, hall, ?_⟩
  rw [fillArray_eq (by omega) (by simp), List.nil_append]
  have hkeys := List.pairwise_map.mp ((hperm.map Prod.fst).nodup_iff.mpr t.nodup)
  refine fillHash_eq (fun f hf => ?_) (pairwise_of_forall₂ (sameEntries_iff.mp hall) hkeys ?_)
  · obtain ⟨i, hi, rfl⟩ := List.mem_iff_getElem.mp hf
    have hhash := sameEntries_iff.mp hhash
    have hi' := hi
    rw [← hhash.length_eq] at hi'
    have hmem : t.hashPart[i] ∈ t.entries := (List.mem_filter.mp (List.getElem_mem hi')).1
    obtain ⟨hk, hv⟩ := hhash.get hi' hi
    refine ⟨Bool.eq_false_iff.mpr fun h => t.value_ne _ hmem (hv.isNil_iff.mp h), fun s hs => ?_⟩
    have hkey := t.isKey _ hmem
    change Same heap t.hashPart[i].1 es[i].1 at hk
    rw [hs] at hk
    rwa [hk.of_scalar] at hkey
  · intro e f e' f' he hf hne s hs
    rw [hs] at hf
    refine Bool.eq_false_iff.mpr fun h => hne ?_
    cases he' : e'.1 with
    | table => rw [he'] at h; cases h
    | scalar s' =>
      rw [he'] at h he
      obtain rfl : s' = s := of_decide_eq_true h
      rw [he.1.of_scalar, hf.1.of_scalar]

variable {ws : List (List UInt8)}

theorem exists_seq {α β : Type} {R : α → List UInt8 → Prop} {P : List UInt8 → β → Prop}
    {S : α → β → Prop} {as : List α} (h : List.Forall₂ R as ws)
    (himp : ∀ a ∈ as, ∀ w ∈ ws, R a w → ∃ b, P w b ∧ S a b) :
    ∃ bs, Seq P ws.flatten bs ∧ List.Forall₂ S as bs := by
  induction h with
  | nil => exact ⟨[], Seq.nil, List.Forall₂.nil⟩
  | cons h _ ih =>
    obtain ⟨b, hb, hab⟩ := himp _ List.mem_cons_self _ List.mem_cons_self h
    obtain ⟨bs, hbs, habs⟩ := ih fun a ha w hw =>
      himp a (List.mem_cons_of_mem _ ha) w (List.mem_cons_of_mem _ hw)
    exact ⟨b :: bs, Seq.cons hb hbs, List.Forall₂.cons hab habs⟩

variable {enc : LuaValue → Option (List UInt8)} {item : List UInt8 → LuaTree → Prop}

variable {w : List UInt8}

theorem pair_item
    (hitem : ∀ v w, enc v = some w → w.length < 2 ^ 31 → ∃ x, item w x ∧ Same heap v x)
    (hkey : e.1.IsKey)
    (h : encodePair enc e = some w) (hlt : w.length < 2 ^ 31) :
    ∃ f, PairItem (fun _ => item) w f ∧ Same heap e.1 f.1 ∧ Same heap e.2 f.2 := by
  simp only [encodePair, Option.pure_def, Option.bind_eq_bind, Option.bind_eq_some_iff,
    Option.some.injEq] at h
  obtain ⟨wk, hk, wv, hv, rfl⟩ := h
  rw [List.length_append] at hlt
  obtain ⟨k, hkitem, hksame⟩ := hitem e.1 wk hk (by omega)
  obtain ⟨v, hvitem, hvsame⟩ := hitem e.2 wv hv (by omega)
  refine ⟨(k, v), ⟨wk, wv, rfl, hkitem, ?_, hvitem⟩, hksame, hvsame⟩
  refine Bool.eq_false_iff.mpr fun hnil => ?_
  rw [hksame.isNil_iff.mp hnil] at hkey
  cases hkey

theorem table_item (hpos : ∀ v w, enc v = some w → 0 < w.length)
    (hitem : ∀ v w, enc v = some w → w.length < 2 ^ 31 → ∃ x, item w x ∧ Same heap v x)
    (hnil : item [TYPE_NIL] (.scalar .nil)) {ref : Nat}
    (h : encodeTable enc (heap ref) = some w) (hlt : w.length < 2 ^ 31) :
    ∃ tag w' x, w = tag :: w' ∧ tag &&& 7 = TYPE_TABLE ∧
      TableItem (fun _ => item) none (tag >>> 3).toNat w' x ∧ Same heap (.table ref) x := by
  obtain ⟨array, hash, harray, hhash, rfl⟩ := encodeTable_eq_some.mp h
  simp only [List.length_append] at hlt
  have hraw := rawlen_le hpos harray
  obtain ⟨tag, ws, hws, htype, hsize⟩ := size_item (n := (heap ref).rawlen) (by omega)
  obtain ⟨vs, hvs, hsame⟩ := exists_seq (P := item) harray fun i _ w hw h =>
    hitem _ w h (lt_of_le_of_lt (length_le_of_mem hw) (by omega))
  obtain ⟨es, hes, hsame'⟩ := exists_seq (P := PairItem fun _ => item) hhash fun e he w hw h =>
    pair_item hitem ((heap ref).isKey e (List.mem_filter.mp he).1) h
      (lt_of_le_of_lt (length_le_of_mem hw) (by omega))
  obtain ⟨l, out, hperm, hentries, hfill⟩ := fill_table rfl hsame (sameEntries_iff.mpr hsame')
  have hlen := hsame.length_eq
  rw [List.length_range] at hlen
  refine ⟨tag, _, .table out, by rw [hws]; rfl, htype, ?_, Same.table hperm hentries⟩
  exact ⟨by decide, ws, _, _, vs, _, es, _, out, hsize, hvs, by omega, hes, hnil, hfill, rfl, rfl⟩

theorem encode_item {left : Nat} (h : encode heap left v = some w)
    (hlt : w.length < 2 ^ 31) : ∃ x, Item none (left + 1) w x ∧ Same heap v x := by
  induction left generalizing v w with
  | zero => cases h
  | succ left ih =>
    cases v with
    | scalar s =>
      obtain rfl : encodeScalar s = w := by simpa [encode] using h
      exact ⟨_, scalar_item hlt _, Same.scalar s⟩
    | other => cases h
    | table ref =>
      have hnil : Item none (left + 1) [TYPE_NIL] (.scalar .nil) :=
        scalar_item (s := .nil) (by decide) _
      obtain ⟨tag, w', x, rfl, htype, htable, hsame⟩ :=
        table_item (fun _ _ h => encode_pos h) (fun _ _ h hlt => ih h hlt) hnil h hlt
      refine ⟨x, ⟨tag, w', rfl, ?_⟩, hsame⟩
      rw [htype]
      exact Payload.table htable

/-! ### The whole list -/

/-- The value is written as the bytes `w`, and a round of the loop of `luaseri_unpack` reads these
bytes and no others, as `x`. -/
structure Transfers (heap : Heap) (v : LuaValue) (w : List UInt8) (x : LuaTree) : Prop where
  writes : Writes (fun b => packOne heap (MAX_DEPTH + 1) b v) w
  reads : ∀ fuel i n rb r, w.length ≤ fuel → At rb (w ++ r) → ∃ rb', At rb' r ∧
    unpackAll none fuel i (n + 1) rb = (do pure (x :: (← unpackAll none fuel (i + 1) n))) rb'
  same : Same heap v x

theorem not_blocked_none (i : Nat) : ¬Blocked none i := fun h => nomatch h.2

theorem encode_transfers
    (h : encode heap (MAX_DEPTH + 1) v = some w) (hlt : w.length < 2 ^ 31) :
    ∃ x, Transfers heap v w x := by
  obtain ⟨x, hitem, hsame⟩ := encode_item h hlt
  exact ⟨x, writes_packOne h hlt,
    fun fuel i n rb r hfuel hat => unpackAll_item (not_blocked_none i) hitem hat hfuel n, hsame⟩

variable {values : List LuaValue}

theorem exists_transfers
    (h : List.Forall₂ (fun v w => encode heap (MAX_DEPTH + 1) v = some w) values ws)
    (hlt : ws.flatten.length < 2 ^ 31) : ∃ xs, xs.length = ws.length ∧
      List.Forall₂ (fun v p => Transfers heap v p.1 p.2) values (ws.zip xs) := by
  induction h with
  | nil => exact ⟨[], rfl, List.Forall₂.nil⟩
  | cons h _ ih =>
    rw [List.flatten_cons, List.length_append] at hlt
    obtain ⟨x, hx⟩ := encode_transfers h (by omega)
    obtain ⟨xs, hlen, hxs⟩ := ih (by omega)
    exact ⟨x :: xs, congrArg (· + 1) hlen, List.Forall₂.cons hx hxs⟩

theorem unpackAll_transfers {parts : List (List UInt8 × LuaTree)}
    (h : List.Forall₂ (fun v p => Transfers heap v p.1 p.2) values parts) {fuel m : Nat}
    {rb : ReadBlock} (hat : At rb (parts.map Prod.fst).flatten)
    (hfuel : (parts.map Prod.fst).flatten.length ≤ fuel) (hm : parts.length < m) (i : Nat) :
    ∃ rb', unpackAll none fuel i m rb = .ok (parts.map Prod.snd) rb' := by
  induction h generalizing m rb i with
  | nil =>
    obtain ⟨m, rfl⟩ : ∃ k, m = k + 1 := ⟨m - 1, by omega⟩
    obtain ⟨rb', hrun, -⟩ := unpackAll_nil hat (not_blocked_none i) fuel m
    exact ⟨rb', hrun⟩
  | @cons v p values parts hp _ ih =>
    obtain ⟨m, rfl⟩ : ∃ k, m = k + 1 := ⟨m - 1, by omega⟩
    rw [List.map_cons, List.flatten_cons] at hat hfuel
    rw [List.length_append] at hfuel
    obtain ⟨rb', hat', hrun⟩ := hp.reads fuel i m rb _ (by omega) hat
    obtain ⟨rb'', hrun'⟩ := ih hat' (by omega) (by simpa using hm) (i + 1)
    refine ⟨rb'', ?_⟩
    rw [hrun]
    simp only [Bind.bind, EStateM.bind, hrun', Pure.pure, EStateM.pure, List.map_cons]

theorem unpack_transfers {xs : List LuaTree}
    (hlen : xs.length = ws.length) (hpos : ∀ w ∈ ws, 0 < w.length)
    (h : List.Forall₂ (fun v p => Transfers heap v p.1 p.2) values (ws.zip xs)) :
    ∃ rb, luaseriUnpack ws.flatten ws.flatten.length = .ok xs rb := by
  have hfst : (ws.zip xs).map Prod.fst = ws := List.map_fst_zip hlen.ge
  have hsnd : (ws.zip xs).map Prod.snd = xs := List.map_snd_zip hlen.le
  have hcount := length_le_flatten hpos
  unfold luaseriUnpack luaseriUnpackIn
  split
  · rename_i hzero
    obtain rfl : xs = [] := List.length_eq_zero_iff.mp (by omega)
    exact ⟨_, rfl⟩
  · have hat := At.start ws.flatten
    rw [← hfst] at hat
    obtain ⟨rb, hrun⟩ := unpackAll_transfers h hat (Nat.le_succ _)
      (m := ws.flatten.length + 1) (by rw [List.length_zip]; omega) 0
    rw [hfst, hsnd] at hrun
    exact ⟨rb, hrun⟩

/-- A list without a value of another type and without a value below more than 32 tables, whose
bytes are less than `2^31`, is unpacked as it was packed; any other list is not packed. -/
theorem pack_unpack (heap : Heap) (values : List LuaValue) :
    ((∀ v ∈ values, ¬ Refused heap (MAX_DEPTH + 1) v) → ∃ ws,
      List.Forall₂ (fun v w => encode heap (MAX_DEPTH + 1) v = some w) values ws ∧
      (ws.flatten.length < 2 ^ 31 → ∃ xs rb,
        luaseriPack heap values = .ok (ws.flatten, ws.flatten.length) ∧
        luaseriUnpack ws.flatten ws.flatten.length = .ok xs rb ∧
        List.Forall₂ (Same heap) values xs ∧
        List.Forall₂ (fun v p => Transfers heap v p.1 p.2) values (ws.zip xs))) ∧
    ((∃ v ∈ values, Refused heap (MAX_DEPTH + 1) v) → ∃ e, luaseriPack heap values = .error e) := by
  constructor
  · intro hvalues
    obtain ⟨ws, hws⟩ := exists_forall₂ fun v hv => encode_of_not_refused (hvalues v hv)
    refine ⟨ws, hws, fun hlt => ?_⟩
    obtain ⟨xs, hlen, hxs⟩ := exists_transfers hws hlt
    have hpos : ∀ w ∈ ws, 0 < w.length := by
      intro w hw
      obtain ⟨i, hi, rfl⟩ := List.mem_iff_getElem.mp hw
      exact encode_pos (hws.get (by rw [hws.length_eq]; exact hi) hi)
    obtain ⟨rb, hrun⟩ := unpack_transfers hlen hpos hxs
    have hsame : List.Forall₂ (Same heap) values ((ws.zip xs).map Prod.snd) :=
      List.forall₂_map_right_iff.mpr (hxs.imp fun _ _ h => h.same)
    rw [List.map_snd_zip hlen.le] at hsame
    exact ⟨xs, rb, luaseriPack_ok hws hlt, hrun, hsame, hxs⟩
  · rintro ⟨v, hv, h⟩
    exact luaseriPack_error hv h

def exampleHeap : Heap
  | 0 => {
      entries := [(.scalar (.integer 1), .scalar (.boolean false)),
        (.table 1, .scalar (.integer 300))]
      rawlen := 1
      isKey := by simp [LuaValue.IsKey, Scalar.toKey]
      value_ne := by decide
      nodup := by decide
      rawlen_lt := by decide
      border := by decide }
  | _ => {
      entries := []
      rawlen := 0
      isKey := by simp
      value_ne := by simp
      nodup := by decide
      rawlen_lt := by decide
      border := by decide }

theorem pack_unpack_two : ∃ xs rb,
    luaseriPack exampleHeap [.table 0, .scalar .nil] =
      .ok ([0x0e, 0x01, 0x06, 0x00, 0x12, 0x2c, 0x01, 0x00, 0x00], 9) ∧
    luaseriUnpack [0x0e, 0x01, 0x06, 0x00, 0x12, 0x2c, 0x01, 0x00, 0x00] 9 = .ok xs rb ∧
    List.Forall₂ (Same exampleHeap) [.table 0, .scalar .nil] xs := by
  have hscalar : ∀ s, ¬ Refused exampleHeap 32 (.scalar s) := @not_refused_scalar _ 31
  have hrefused : ∀ v ∈ [LuaValue.table 0, .scalar .nil],
      ¬ Refused exampleHeap (MAX_DEPTH + 1) v := by
    simp [MAX_DEPTH, refused_table, exampleHeap, hscalar, not_refused_scalar]
  obtain ⟨ws, hws, h⟩ := (pack_unpack exampleHeap [.table 0, .scalar .nil]).1 hrefused
  obtain ⟨w1, _, hw1, hws', rfl⟩ := List.forall₂_cons_left_iff.mp hws
  obtain ⟨w2, _, hw2, hws'', rfl⟩ := List.forall₂_cons_left_iff.mp hws'
  obtain rfl := List.forall₂_nil_left_iff.mp hws''
  obtain rfl : [0x0e, 0x01, 0x06, 0x00, 0x12, 0x2c, 0x01, 0x00] = w1 := Option.some.inj hw1
  obtain rfl : [0x00] = w2 := Option.some.inj hw2
  obtain ⟨xs, rb, hpack, hunpack, hsame, -⟩ := h (by decide)
  exact ⟨xs, rb, hpack, hunpack, hsame⟩

end XsServer.Seri
