import XsServer.Seri.Encode

/-! `luaseri_pack` writes the bytes of the format, or raises an error when a value has none: a
value of another type, or one below more than 32 tables. -/

namespace XsServer.Seri

open Lib.Bytes

theorem forall₂_imp_mem {α β : Type} {R S : α → β → Prop} {as : List α} {bs : List β}
    (h : List.Forall₂ R as bs) (himp : ∀ a ∈ as, ∀ b ∈ bs, R a b → S a b) :
    List.Forall₂ S as bs := by
  induction h with
  | nil => exact List.Forall₂.nil
  | cons hab _ ih =>
    refine List.Forall₂.cons (himp _ (by simp) _ (by simp) hab) (ih fun a ha b hb => ?_)
    exact himp a (List.mem_cons_of_mem _ ha) b (List.mem_cons_of_mem _ hb)

variable {w : List UInt8}

theorem length_le_of_mem {ws : List (List UInt8)} (h : w ∈ ws) :
    w.length ≤ ws.flatten.length :=
  (List.sublist_flatten_of_mem h).length_le

variable {enc : LuaValue → Option (List UInt8)} {one : Packer} {heap : Heap} {left : Nat}

variable {e : LuaValue × LuaValue}

theorem writes_pair (hone : ∀ v w, enc v = some w → w.length < 2 ^ 31 → Writes (fun b => one b v) w)
    (h : encodePair enc e = some w)
    (hlt : w.length < 2 ^ 31) :
    Writes (fun b => do
      let b ← one b e.1
      one b e.2) w := by
  simp only [encodePair, Option.pure_def, Option.bind_eq_bind, Option.bind_eq_some_iff,
    Option.some.injEq] at h
  obtain ⟨wk, hk, wv, hv, rfl⟩ := h
  rw [List.length_append] at hlt
  exact (hone e.1 wk hk (by omega)).andThen (hone e.2 wv hv (by omega))

variable {t : LuaTable}

theorem encodeTable_eq_some :
    encodeTable enc t = some w ↔ ∃ array hash,
      List.Forall₂ (fun i w => enc (t.rawgeti (i + 1)) = some w) (List.range t.rawlen) array ∧
      List.Forall₂ (fun e w => encodePair enc e = some w) t.hashPart hash ∧
      w = encodeSize t.rawlen ++ (array.flatten ++ (hash.flatten ++ [TYPE_NIL])) := by
  simp only [encodeTable, Option.pure_def, Option.bind_eq_bind, Option.bind_eq_some_iff,
    Option.some.injEq, mapM_eq_some]
  constructor
  · rintro ⟨array, harray, hash, hhash, rfl⟩
    exact ⟨array, hash, harray, hhash, rfl⟩
  · rintro ⟨array, hash, harray, hhash, rfl⟩
    exact ⟨array, harray, hash, hhash, rfl⟩

theorem rawlen_le (hpos : ∀ v w, enc v = some w → 0 < w.length)
    {array : List (List UInt8)}
    (h : List.Forall₂ (fun i w => enc (t.rawgeti (i + 1)) = some w) (List.range t.rawlen) array) :
    t.rawlen ≤ array.flatten.length := by
  have hlen := h.length_eq
  rw [List.length_range] at hlen
  rw [hlen]
  refine length_le_flatten fun w hw => ?_
  obtain ⟨i, hi, rfl⟩ := List.mem_iff_getElem.mp hw
  exact hpos _ _ (h.get (by rw [List.length_range, hlen]; exact hi) hi)

theorem writes_wbTable (hpos : ∀ v w, enc v = some w → 0 < w.length)
    (hone : ∀ v w, enc v = some w → w.length < 2 ^ 31 → Writes (fun b => one b v) w)
    (h : encodeTable enc t = some w) (hlt : w.length < 2 ^ 31) :
    Writes (fun b => wbTable one b t) w := by
  obtain ⟨array, hash, harray, hhash, rfl⟩ := encodeTable_eq_some.mp h
  simp only [List.length_append] at hlt
  have hraw := rawlen_le hpos harray
  have hlen : (Int32.ofNat t.rawlen).toInt = t.rawlen := Int32.toInt_ofNat_of_lt (by omega)
  have harray' : Writes (fun b => wbTableArray one b t (Int32.ofNat t.rawlen))
      (encodeSize t.rawlen ++ array.flatten) := by
    have hloop := writes_foldlM (forall₂_imp_mem harray fun i _ w hw h =>
      hone _ w h (lt_of_le_of_lt (length_le_of_mem hw) (by omega)))
    intro b
    obtain ⟨b', hb', hc'⟩ := hloop (wbTableSize b (Int32.ofNat t.rawlen))
    refine ⟨b', ?_, ?_⟩
    · simpa [wbTableArray, hlen] using hb'
    · rw [hc', contents_wbTableSize b (by omega), List.append_assoc]
  have hhash' : Writes (fun b => wbTableHash one b t (Int32.ofNat t.rawlen))
      (hash.flatten ++ [TYPE_NIL]) := by
    have hpairs : List.Forall₂ (fun e w => Writes (fun b => do
        let b ← one b e.1
        one b e.2) w) (t.entries.filter fun e => !inArray t.rawlen e.1) hash :=
      forall₂_imp_mem hhash fun e _ w hw h =>
        writes_pair hone h (lt_of_le_of_lt (length_le_of_mem hw) (by omega))
    intro b
    obtain ⟨b', hb', hc'⟩ := writes_foldlM_filter hpairs b
    refine ⟨wbNil b', ?_, ?_⟩
    · simp only at hb'
      simp only [wbTableHash, hlen]
      rw [hb']
      rfl
    · rw [wbNil, contents_wbPush, hc', List.append_assoc]
  have hall := harray'.andThen hhash'
  rwa [List.append_assoc] at hall

variable {v : LuaValue}

theorem writes_packOne (h : encode heap left v = some w)
    (hlt : w.length < 2 ^ 31) : Writes (fun b => packOne heap left b v) w := by
  induction left generalizing v w with
  | zero => cases h
  | succ left ih =>
    cases v with
    | scalar s =>
      obtain rfl : encodeScalar s = w := by simpa [encode] using h
      exact fun b => ⟨_, rfl, contents_wbScalar b hlt⟩
    | other => cases h
    | table ref =>
      exact writes_wbTable (fun _ _ h => encode_pos h) (fun _ _ h hlt => ih h hlt) h hlt

theorem luaseriPack_ok {values : List LuaValue} {ws : List (List UInt8)}
    (h : List.Forall₂ (fun v w => encode heap (MAX_DEPTH + 1) v = some w) values ws)
    (hlt : ws.flatten.length < 2 ^ 31) :
    luaseriPack heap values = .ok (ws.flatten, ws.flatten.length) := by
  have hloop := writes_foldlM (forall₂_imp_mem h fun v _ w hw h =>
    writes_packOne h (lt_of_le_of_lt (length_le_of_mem hw) hlt))
  obtain ⟨b, hb, hc⟩ := hloop wbInit
  have hpack : values.foldlM (packOne heap (MAX_DEPTH + 1)) wbInit = .ok b := hb
  have hcontents : b.contents = ws.flatten := hc
  have hlen : b.len = ws.flatten.length := by
    rw [b.len_eq, ← hcontents, WriteBlock.contents, List.length_append]
  unfold luaseriPack packFrom
  rw [hpack]
  change Except.ok (seri (b.full ++ [b.current]) b.len, b.len) = _
  rw [seri_chain, hcontents, hlen]

/-! ### Values that are refused -/

/-- The value `x` is the first one or below it, under `depth` tables. -/
inductive Contains (heap : Heap) : LuaValue → Nat → LuaValue → Prop
  | self (v : LuaValue) : Contains heap v 0 v
  | key {ref depth : Nat} {e : LuaValue × LuaValue} {x : LuaValue} : e ∈ (heap ref).entries →
      Contains heap e.1 depth x → Contains heap (.table ref) (depth + 1) x
  | value {ref depth : Nat} {e : LuaValue × LuaValue} {x : LuaValue} : e ∈ (heap ref).entries →
      Contains heap e.2 depth x → Contains heap (.table ref) (depth + 1) x

def LuaValue.IsOther : LuaValue → Prop
  | .other _ _ => True
  | _ => False

/-- Something that is not packed: a value of another type, or one at the depth `left` or
below. -/
def Refused (heap : Heap) (left : Nat) (v : LuaValue) : Prop :=
  ∃ depth x, Contains heap v depth x ∧ (x.IsOther ∨ left ≤ depth)

theorem foldlM_error {α : Type} {f : WriteBlock → α → Except PackError WriteBlock} {as : List α}
    {a : α} (ha : a ∈ as) (hf : ∀ b, ∃ e, f b a = .error e) (b : WriteBlock) :
    ∃ e, as.foldlM f b = .error e := by
  induction as generalizing b with
  | nil => cases ha
  | cons a' as ih =>
    change ∃ e, (f b a' >>= fun b => as.foldlM f b) = .error e
    cases hfb : f b a' with
    | error e => exact ⟨e, rfl⟩
    | ok b' =>
      rcases List.mem_cons.mp ha with rfl | ha
      · obtain ⟨e, he⟩ := hf b
        rw [hfb] at he
        cases he
      · exact ih ha b'

theorem refused_zero (v : LuaValue) : Refused heap 0 v :=
  ⟨0, v, Contains.self v, Or.inr (Nat.zero_le 0)⟩

theorem not_refused_scalar (s : Scalar) : ¬ Refused heap (left + 1) (.scalar s) := by
  rintro ⟨depth, x, hx, h⟩
  cases hx with
  | self => exact h.elim id fun h => absurd h (by omega)

theorem refused_table {ref : Nat} : Refused heap (left + 1) (.table ref) ↔
    ∃ e ∈ (heap ref).entries, Refused heap left e.1 ∨ Refused heap left e.2 := by
  constructor
  · rintro ⟨depth, x, hx, h⟩
    cases hx with
    | self => exact h.elim False.elim fun h => absurd h (by omega)
    | key he hx => exact ⟨_, he, Or.inl ⟨_, x, hx, h.imp_right Nat.le_of_succ_le_succ⟩⟩
    | value he hx => exact ⟨_, he, Or.inr ⟨_, x, hx, h.imp_right Nat.le_of_succ_le_succ⟩⟩
  · rintro ⟨e, he, ⟨depth, x, hx, h⟩ | ⟨depth, x, hx, h⟩⟩
    · exact ⟨depth + 1, x, Contains.key he hx, h.imp_right Nat.succ_le_succ⟩
    · exact ⟨depth + 1, x, Contains.value he hx, h.imp_right Nat.succ_le_succ⟩

theorem lookup_eq {l : List (LuaValue × LuaValue)} (hnodup : (l.map Prod.fst).Nodup)
    {k v : LuaValue} (h : (k, v) ∈ l) : l.lookup k = some v := by
  obtain ⟨l₁, l₂, rfl⟩ := List.append_of_mem h
  refine List.lookup_eq_some_iff.mpr ⟨l₁, l₂, rfl, fun p hp => ?_⟩
  rw [List.map_append, List.map_cons, List.nodup_append] at hnodup
  simpa using Ne.symm (hnodup.2.2 p.1 (List.mem_map_of_mem hp) k (by simp))

theorem ofNat_toInt {x : Int64} {i : Nat} (h : x.toInt = i) : Int64.ofNat i = x := by
  have hlt := x.toInt_lt
  rw [← Int64.toInt_inj, Int64.toInt_ofNat_of_lt (by omega), h]

theorem rawgeti_eq {x : Int64}
    (h : (.scalar (.integer x), v) ∈ t.entries) {i : Nat} (hx : x.toInt = i) :
    t.rawgeti i = v := by
  rw [LuaTable.rawgeti, ofNat_toInt hx, lookup_eq t.nodup h]
  rfl

theorem inArray_iff {n : Int} {k : LuaValue} : inArray n k = true ↔
    ∃ x : Int64, k = .scalar (.integer x) ∧ 0 < x.toInt ∧ x.toInt ≤ n := by
  cases k with
  | scalar s => cases s <;> simp [inArray]
  | _ => simp [inArray]

theorem wbTableArray_error (hone : ∀ v, Refused heap left v → ∀ b, ∃ e, one b v = .error e)
    (he : e ∈ t.entries)
    (h : Refused heap left e.1 ∨ Refused heap left e.2) {arraySize : Int32}
    (hin : inArray arraySize.toInt e.1 = true) (b : WriteBlock) :
    ∃ err, wbTableArray one b t arraySize = .error err := by
  obtain ⟨k, v⟩ := e
  obtain ⟨x, rfl, hpos, hle⟩ := inArray_iff.mp hin
  have hv : Refused heap left v := by
    rcases h with h | h
    · cases left with
      | zero => exact refused_zero v
      | succ left => exact (not_refused_scalar _ h).elim
    · exact h
  have hi : x.toInt.toNat - 1 ∈ List.range arraySize.toInt.toNat := by
    rw [List.mem_range]
    omega
  refine foldlM_error hi (fun b => ?_) _
  rw [rawgeti_eq he (by omega)]
  exact hone v hv b

theorem wbTable_error (hone : ∀ v, Refused heap left v → ∀ b, ∃ e, one b v = .error e)
    (he : e ∈ t.entries)
    (h : Refused heap left e.1 ∨ Refused heap left e.2) (b : WriteBlock) :
    ∃ err, wbTable one b t = .error err := by
  simp only [wbTable]
  cases harray : wbTableArray one b t (Int32.ofNat t.rawlen) with
  | error err => exact ⟨err, rfl⟩
  | ok b' =>
    change ∃ err, wbTableHash one b' t (Int32.ofNat t.rawlen) = .error err
    have hout : inArray (Int32.ofNat t.rawlen).toInt e.1 = false := by
      by_contra hin
      obtain ⟨err, herr⟩ := wbTableArray_error hone he h (Bool.eq_true_of_not_eq_false hin) b
      rw [harray] at herr
      cases herr
    obtain ⟨err, herr⟩ := foldlM_error (f := fun wb e =>
        if inArray (Int32.ofNat t.rawlen).toInt e.1 then pure wb else do
          let wb ← one wb e.1
          one wb e.2) he (fun b => by
      simp only [hout, Bool.false_eq_true, if_false]
      rcases h with h | h
      · obtain ⟨err, herr⟩ := hone e.1 h b
        exact ⟨err, by rw [herr]; rfl⟩
      · cases hkey : one b e.1 with
        | error err => exact ⟨err, rfl⟩
        | ok b1 => exact hone e.2 h b1) b'
    exact ⟨err, by rw [wbTableHash, herr]; rfl⟩

theorem packOne_error (h : Refused heap left v) (b : WriteBlock) :
    ∃ e, packOne heap left b v = .error e := by
  induction left generalizing v b with
  | zero => exact ⟨.tooDeep, rfl⟩
  | succ left ih =>
    cases v with
    | scalar s => exact (not_refused_scalar s h).elim
    | other type ref => exact ⟨.unsupported type, rfl⟩
    | table ref =>
      obtain ⟨e, he, h⟩ := refused_table.mp h
      exact wbTable_error (fun v h b => ih h b) he h b

theorem luaseriPack_error {values : List LuaValue} (hv : v ∈ values)
    (h : Refused heap (MAX_DEPTH + 1) v) : ∃ e, luaseriPack heap values = .error e := by
  obtain ⟨e, he⟩ := foldlM_error hv (fun b => packOne_error h b) wbInit
  exact ⟨e, by rw [luaseriPack, packFrom, he]; rfl⟩

theorem exists_forall₂ {α β : Type} {R : α → β → Prop} {as : List α}
    (h : ∀ a ∈ as, ∃ b, R a b) : ∃ bs, List.Forall₂ R as bs := by
  induction as with
  | nil => exact ⟨[], List.Forall₂.nil⟩
  | cons a as ih =>
    obtain ⟨ha, has⟩ := List.forall_mem_cons.mp h
    obtain ⟨b, hb⟩ := ha
    obtain ⟨bs, hbs⟩ := ih has
    exact ⟨b :: bs, List.Forall₂.cons hb hbs⟩

theorem rawgeti_cases (t : LuaTable) (i : Nat) :
    (∃ e ∈ t.entries, t.rawgeti i = e.2 ∧ e.1 = .scalar (.integer (Int64.ofNat i))) ∨
      t.rawgeti i = .scalar .nil := by
  cases h : t.entries.lookup (.scalar (.integer (Int64.ofNat i))) with
  | none => exact Or.inr (by rw [LuaTable.rawgeti, h]; rfl)
  | some v =>
    obtain ⟨l₁, l₂, hl, -⟩ := List.lookup_eq_some_iff.mp h
    exact Or.inl ⟨(.scalar (.integer (Int64.ofNat i)), v), by rw [hl]; simp,
      by rw [LuaTable.rawgeti, h]; rfl, rfl⟩

theorem encode_of_not_refused (h : ¬ Refused heap left v) :
    ∃ w, encode heap left v = some w := by
  induction left generalizing v with
  | zero => exact (h (refused_zero v)).elim
  | succ left ih =>
    cases v with
    | scalar s => exact ⟨_, rfl⟩
    | other type ref => exact (h ⟨0, _, Contains.self _, Or.inl trivial⟩).elim
    | table ref =>
      rw [refused_table] at h
      push Not at h
      obtain ⟨array, harray⟩ := @exists_forall₂ _ _
        (fun i w => encode heap left ((heap ref).rawgeti (i + 1)) = some w)
        (List.range (heap ref).rawlen) (fun i hi => by
          rcases rawgeti_cases (heap ref) (i + 1) with ⟨e, he, hget, -⟩ | hnil
          · rw [hget]; exact ih (h e he).2
          · -- the entry at the border shows that there is room for another level
            rw [hnil]
            rw [List.mem_range] at hi
            obtain ⟨e, he, -⟩ := List.mem_map.mp ((heap ref).border.resolve_left (by omega))
            cases left with
            | zero => exact ((h e he).1 (refused_zero _)).elim
            | succ left => exact ⟨_, rfl⟩)
      obtain ⟨hash, hhash⟩ := @exists_forall₂ _ _
        (fun e w => encodePair (encode heap left) e = some w) (heap ref).hashPart (fun e he => by
          have hmem : e ∈ (heap ref).entries := (List.mem_filter.mp he).1
          obtain ⟨wk, hk⟩ := ih (h e hmem).1
          obtain ⟨wv, hv⟩ := ih (h e hmem).2
          exact ⟨wk ++ wv, by simp [encodePair, hk, hv]⟩)
      exact ⟨_, encodeTable_eq_some.mpr ⟨array, hash, harray, hhash, rfl⟩⟩

end XsServer.Seri
