import XsServer.Seri.Reader

/-! The format that `lua-seri.c` reads, as a grammar of byte strings: which bytes are a value, and
which bytes lead to a value that the format or the Lua stack has no room for or a key that a table
cannot store.  The depth `n` bounds the nesting of tables; `item k` is for a value over `k` others.
The readers accept the grammar: they read the bytes of a value, and fail on bytes that lead to
something bad. -/

namespace XsServer.Seri

open Lib.Bytes

/-! ### The grammar -/

inductive Seq {α : Type} (P : List UInt8 → α → Prop) : List UInt8 → List α → Prop
  | nil : Seq P [] []
  | cons {w w' : List UInt8} {a : α} {as : List α} : P w a → Seq P w' as → Seq P (w ++ w') (a :: as)

/-- The integer after a tag with this cookie. -/
inductive IntegerItem : UInt8 → List UInt8 → Int64 → Prop
  | zero : IntegerItem TYPE_NUMBER_ZERO [] 0
  | byte {w : List UInt8} : w.length = 1 → IntegerItem TYPE_NUMBER_BYTE w (Int64.ofNat (ofLe w))
  | word {w : List UInt8} : w.length = 2 → IntegerItem TYPE_NUMBER_WORD w (Int64.ofNat (ofLe w))
  | dword {w : List UInt8} : w.length = 4 →
      IntegerItem TYPE_NUMBER_DWORD w (UInt32.ofNat (ofLe w)).toInt32.toInt64
  | qword {w : List UInt8} : w.length = 8 →
      IntegerItem TYPE_NUMBER_QWORD w (UInt64.ofNat (ofLe w)).toInt64

def HasTag (tag type cookie : UInt8) : Prop := tag &&& 7 = type ∧ tag >>> 3 = cookie

/-- The size of the array part, after the tag of a table with this cookie. -/
inductive SizeItem : Int → List UInt8 → Int → Prop
  | short {cookie : Int} : cookie ≠ MAX_COOKIE - 1 → SizeItem cookie [] cookie
  | long {tag cookie : UInt8} {w : List UInt8} {size : Int64} :
      HasTag tag TYPE_NUMBER cookie → cookie ≠ TYPE_NUMBER_REAL → IntegerItem cookie w size →
      SizeItem (MAX_COOKIE - 1) (tag :: w) size.toInt32.toInt

/-- The table with these values from the index `i` on. -/
def fillArray (t : List (LuaTree × LuaTree)) (i : Nat) : List LuaTree → List (LuaTree × LuaTree)
  | [] => t
  | v :: vs => fillArray (setKey t (.integer (Int64.ofNat i)) v) (i + 1) vs

/-- The table with these entries, in order, unless one cannot be stored. -/
def fillHash (t : List (LuaTree × LuaTree)) :
    List (LuaTree × LuaTree) → Option (List (LuaTree × LuaTree))
  | [] => some t
  | e :: es => (rawset t e.1 e.2).bind fun t => fillHash t es

/-- A key, which is not `nil`, and a value. -/
def PairItem (item : Nat → List UInt8 → LuaTree → Prop) (w : List UInt8) (e : LuaTree × LuaTree) :
    Prop :=
  ∃ wk wv, w = wk ++ wv ∧ item 1 wk e.1 ∧ e.1.isNil = false ∧ item 2 wv e.2

def TableItem (item : Nat → List UInt8 → LuaTree → Prop) (room : Room) (cookie : Int)
    (w : List UInt8) (v : LuaTree) : Prop :=
  ¬room.Full ∧ ∃ ws size wa vs wp es wn t, SizeItem cookie ws size ∧ Seq (item 1) wa vs ∧
    vs.length = size.toNat ∧ Seq (PairItem item) wp es ∧ item 1 wn (.scalar .nil) ∧
    fillHash (fillArray [] 1 vs) es = some t ∧ w = ws ++ (wa ++ (wp ++ wn)) ∧ v = .table t

/-- The bytes after a tag with this type and cookie. -/
inductive Payload (table : Int → List UInt8 → LuaTree → Prop) :
    UInt8 → UInt8 → List UInt8 → LuaTree → Prop
  | nil (c : UInt8) : Payload table TYPE_NIL c [] (.scalar .nil)
  | boolean (c : UInt8) : Payload table TYPE_BOOLEAN c [] (.scalar (.boolean (c ≠ 0)))
  | real {w : List UInt8} : w.length = 8 →
      Payload table TYPE_NUMBER TYPE_NUMBER_REAL w (.scalar (.number (UInt64.ofNat (ofLe w))))
  | integer {c : UInt8} {w : List UInt8} {n : Int64} : c ≠ TYPE_NUMBER_REAL → IntegerItem c w n →
      Payload table TYPE_NUMBER c w (.scalar (.integer n))
  | userdata (c : UInt8) {w : List UInt8} : w.length = 8 →
      Payload table TYPE_USERDATA c w (.scalar (.lightuserdata (UInt64.ofNat (ofLe w))))
  | short {c : UInt8} {w : List UInt8} : w.length = c.toNat →
      Payload table TYPE_SHORT_STRING c w (.scalar (.string w))
  | word {l w : List UInt8} : l.length = 2 → w.length = ofLe l →
      Payload table TYPE_LONG_STRING 2 (l ++ w) (.scalar (.string w))
  | dword {l w : List UInt8} : l.length = 4 → w.length = ofLe l → ofLe l < 2 ^ 31 →
      Payload table TYPE_LONG_STRING 4 (l ++ w) (.scalar (.string w))
  | table {c : UInt8} {w : List UInt8} {v : LuaTree} : table c.toNat w v →
      Payload table TYPE_TABLE c w v

def Item (room : Room) : Nat → List UInt8 → LuaTree → Prop
  | 0, _, _ => False
  | n + 1, w, v => ∃ tag w', w = tag :: w' ∧
      Payload (TableItem (fun k => Item (room.push k) n) room) (tag &&& 7) (tag >>> 3) w' v

def Blocked (room : Room) (i : Nat) : Prop := i % 8 = 7 ∧ (room.push i).Full

/-- Values of the stream from the `i`-th on. -/
inductive Values (room : Room) (n : Nat) : Nat → List UInt8 → List LuaTree → Prop
  | nil {i : Nat} : Values room n i [] []
  | cons {i : Nat} {w w' : List UInt8} {v : LuaTree} {vs : List LuaTree} : ¬Blocked room i →
      Item (room.push i) n w v → Values room n (i + 1) w' vs → Values room n i (w ++ w') (v :: vs)

/-- The entries of a table up to one whose key or value is bad, or whose key cannot be stored. -/
def BadPair (item : Nat → List UInt8 → LuaTree → Prop) (bad : Nat → List UInt8 → Prop)
    (w : List UInt8) : Prop :=
  bad 1 w ∨ ∃ wk k w', w = wk ++ w' ∧ item 1 wk k ∧ k.isNil = false ∧
    (bad 2 w' ∨ ∃ v, item 2 w' v ∧ rawset [] k v = none)

/-- The rest of a table for which the stack has no room, or up to something bad in its array part or
among its entries. -/
def BadTable (item : Nat → List UInt8 → LuaTree → Prop) (bad : Nat → List UInt8 → Prop)
    (room : Room) (cookie : Int) (w : List UInt8) : Prop :=
  (room.Full ∧ ∃ size, SizeItem cookie w size) ∨
    ¬room.Full ∧ ∃ ws size wa vs w', SizeItem cookie ws size ∧ Seq (item 1) wa vs ∧
      w = ws ++ (wa ++ w') ∧ (vs.length < size.toNat ∧ bad 1 w' ∨
        vs.length = size.toNat ∧ ∃ wp es we t, Seq (PairItem item) wp es ∧
          fillHash (fillArray [] 1 vs) es = some t ∧ w' = wp ++ we ∧ BadPair item bad we)

/-- A tag up to a length of `2^31` or more, or to something bad in a table. -/
def BadPayload (table : Int → List UInt8 → Prop) (type cookie : UInt8) (w : List UInt8) : Prop :=
  (type = TYPE_LONG_STRING ∧ cookie = 4 ∧ w.length = 4 ∧ 2 ^ 31 ≤ ofLe w) ∨
    (type = TYPE_TABLE ∧ table cookie.toNat w)

/-- The bytes of a value up to a string of `2^31` bytes or more, to a table key that is not a
number, or to a table for which the stack has no room. -/
def BadItem (room : Room) : Nat → List UInt8 → Prop
  | 0, _ => False
  | n + 1, w => ∃ tag w', w = tag :: w' ∧
      BadPayload (BadTable (fun k => Item (room.push k) n) (fun k => BadItem (room.push k) n) room)
        (tag &&& 7) (tag >>> 3) w'

/-! ### What the readers read -/

theorem ofNat_ofLe_singleton (tag : UInt8) : UInt8.ofNat (ofLe [tag]) = tag := by
  simp [ofLe]

variable {w : List UInt8}

theorem reads_getInteger {cookie : UInt8} {n : Int64}
    (h : IntegerItem cookie w n) : Reads (getInteger cookie) w n := by
  cases h with
  | zero => exact Reads.pure 0
  | byte h => exact (reads_rbReadOr 368 (by rw [h]; rfl) (by decide)).map
  | word h => exact (reads_rbReadOr 376 (by rw [h]; rfl) (by decide)).map
  | dword h => exact (reads_rbReadOr 384 (by rw [h]; rfl) (by decide)).map
  | qword h => exact (reads_rbReadOr 392 (by rw [h]; rfl) (by decide)).map

theorem reads_getBuffer {len : Int32} (h : len.toInt = w.length) :
    Reads (getBuffer len) w (.scalar (.string w)) := by
  refine (reads_rbReadOr 427 h (by simp)).bind_nil ?_
  rw [if_neg (by omega)]
  exact Reads.pure _

theorem fails_getBuffer {len : Int32} (h : len.toInt < 0) : Fails (getBuffer len) [] := by
  intro rb r hat
  have hlen := hat.len_eq
  have hnull : ¬ rb.len < len.toInt := by omega
  have hrun : ∃ rb', getBuffer len rb = .error .tooBig rb' := by
    simp only [getBuffer, rbReadOr, rbRead, Bind.bind, EStateM.bind, hnull, Pure.pure,
      EStateM.pure, if_false, if_pos h]
    exact ⟨_, rfl⟩
  obtain ⟨rb', hrun⟩ := hrun
  exact ⟨_, rb', hrun, Or.inl rfl⟩

theorem checkstack_eq {room : Room} (h : ¬room.Full) : checkstack room = pure () := if_neg h

theorem fails_checkstack {room : Room} (h : room.Full) : Fails (checkstack room) [] := by
  intro rb r _
  rw [checkstack, if_pos h]
  exact ⟨.stackOverflow, rb, rfl, Or.inr (Or.inr rfl)⟩

theorem reads_getArraySize {cookie size : Int} (h : SizeItem cookie w size) :
    Reads (getArraySize cookie) w size := by
  cases h with
  | short hne =>
    rw [getArraySize, if_neg hne]
    exact Reads.pure _
  | @long tag cookie w size htag hne hinteger =>
    rw [getArraySize, if_pos rfl]
    refine (reads_rbReadOr (w := [tag]) 440 rfl (by simp)).bind ?_
    simp only [ofNat_ofLe_singleton, htag.1, htag.2, ne_eq, not_true_eq_false, hne, or_self,
      if_false]
    exact (reads_getInteger hinteger).map

variable {N : Nat} {room : Room}

section Array

variable {item : List UInt8 → LuaTree → Prop} {bad : List UInt8 → Prop} {one : Reader LuaTree}

theorem reads_unpackArray (hone : ∀ w v, item w v → w.length < N → Reads one w v)
    {vs : List LuaTree} (h : Seq item w vs) (hlt : w.length < N)
    (t : List (LuaTree × LuaTree)) (i : Nat) :
    Reads (unpackArray one t i vs.length) w (fillArray t i vs) := by
  induction h generalizing t i with
  | nil => exact Reads.pure _
  | @cons w w' v vs hv hvs ih =>
    rw [List.length_append] at hlt
    exact (hone w v hv (by omega)).bind (ih (by omega) _ _)

theorem fails_unpackArray (hone : ∀ w v, item w v → w.length < N → Reads one w v)
    (hbad : ∀ w, bad w → w.length < N → Fails one w) {w w' : List UInt8} {vs : List LuaTree}
    (h : Seq item w vs) (hw' : bad w') (hlt : (w ++ w').length < N) {n : Nat}
    (hn : vs.length < n) (t : List (LuaTree × LuaTree)) (i : Nat) :
    Fails (unpackArray one t i n) (w ++ w') := by
  induction h generalizing t i n with
  | nil =>
    obtain ⟨n, rfl⟩ : ∃ m, n = m + 1 := ⟨n - 1, by omega⟩
    exact (hbad _ hw' hlt).bind _
  | @cons w1 w2 v vs hv hvs ih =>
    obtain ⟨n, rfl⟩ : ∃ m, n = m + 1 := ⟨n - 1, by omega⟩
    rw [List.append_assoc] at hlt ⊢
    rw [List.length_append] at hlt
    exact (hone w1 v hv (by omega)).bind_fails
      (ih (by omega) (by simpa using hn) _ _)

end Array

variable {item : Nat → List UInt8 → LuaTree → Prop} {bad : Nat → List UInt8 → Prop}
  {one : Nat → Reader LuaTree}

variable {t t' : List (LuaTree × LuaTree)}

theorem reads_unpackHash (hone : ∀ k w v, item k w v → w.length < N → Reads (one k) w v)
    {w wn : List UInt8} {es : List (LuaTree × LuaTree)} (h : Seq (PairItem item) w es)
    (hnil : item 1 wn (.scalar .nil)) (hlt : (w ++ wn).length < N) {fuel : Nat}
    (hfuel : es.length < fuel) (hfill : fillHash t es = some t') :
    Reads (unpackHash one t fuel) (w ++ wn) t' := by
  induction h generalizing t fuel with
  | nil =>
    obtain ⟨fuel, rfl⟩ : ∃ m, fuel = m + 1 := ⟨fuel - 1, by omega⟩
    obtain rfl : t = t' := by simpa [fillHash] using hfill
    exact (hone 1 wn _ hnil hlt).bind_nil (Reads.pure t)
  | @cons w1 w2 e es he hes ih =>
    obtain ⟨wk, wv, rfl, hk, hkey, hv⟩ := he
    obtain ⟨fuel, rfl⟩ : ∃ m, fuel = m + 1 := ⟨fuel - 1, by omega⟩
    obtain ⟨t1, ht1, hrest⟩ := Option.bind_eq_some_iff.mp hfill
    simp only [List.append_assoc] at hlt ⊢
    simp only [List.length_append] at hlt
    refine (hone 1 wk _ hk (by omega)).bind ?_
    simp only [hkey, Bool.false_eq_true, if_false]
    refine (hone 2 wv _ hv (by omega)).bind ?_
    simp only [ht1]
    exact ih (by rw [List.length_append]; omega) (by simpa using hfuel) hrest

theorem rawset_none {k v : LuaTree}
    (h : rawset t k v = none) : rawset t' k v = none := by
  cases k with
  | table es => simp [rawset] at h
  | scalar s => simpa [rawset] using h

theorem fails_unpackHash (hone : ∀ k w v, item k w v → w.length < N → Reads (one k) w v)
    (hbad : ∀ k w, bad k w → w.length < N → Fails (one k) w) {w we : List UInt8}
    {es : List (LuaTree × LuaTree)} (h : Seq (PairItem item) w es) (hwe : BadPair item bad we)
    (hlt : (w ++ we).length < N) {fuel : Nat} (hfuel : es.length < fuel)
    (hfill : fillHash t es = some t') :
    Fails (unpackHash one t fuel) (w ++ we) := by
  induction h generalizing t fuel with
  | nil =>
    obtain ⟨fuel, rfl⟩ : ∃ m, fuel = m + 1 := ⟨fuel - 1, by omega⟩
    rcases hwe with hwe | ⟨wk, k, w', rfl, hk, hkey, hw'⟩
    · exact (hbad 1 _ hwe hlt).bind _
    · simp only [List.nil_append, List.length_append] at hlt ⊢
      refine (hone 1 wk k hk (by omega)).bind_fails ?_
      simp only [hkey, Bool.false_eq_true, if_false]
      rcases hw' with hw' | ⟨v, hv, hnone⟩
      · exact (hbad 2 w' hw' (by omega)).bind _
      · refine (hone 2 w' v hv (by omega)).bind_fails_nil ?_
        simp only [rawset_none hnone]
        exact fun rb r _ => ⟨.indexIsNaN, rb, rfl, Or.inr (Or.inl rfl)⟩
  | @cons w1 w2 e es he hes ih =>
    obtain ⟨wk, wv, rfl, hk, hkey, hv⟩ := he
    obtain ⟨fuel, rfl⟩ : ∃ m, fuel = m + 1 := ⟨fuel - 1, by omega⟩
    obtain ⟨t1, ht1, hrest⟩ := Option.bind_eq_some_iff.mp hfill
    simp only [List.append_assoc] at hlt ⊢
    simp only [List.length_append] at hlt
    refine (hone 1 wk _ hk (by omega)).bind_fails ?_
    simp only [hkey, Bool.false_eq_true, if_false]
    refine (hone 2 wv _ hv (by omega)).bind_fails ?_
    simp only [ht1]
    exact ih (by rw [List.length_append]; omega) (by simpa using hfuel) hrest

theorem Seq.length_le {α : Type} {P : List UInt8 → α → Prop} (hpos : ∀ w a, P w a → 0 < w.length)
    {as : List α} (h : Seq P w as) : as.length ≤ w.length := by
  induction h with
  | nil => exact le_rfl
  | cons ha _ ih =>
    have := hpos _ _ ha
    rw [List.length_cons, List.length_append]
    omega

theorem PairItem.length_pos (hpos : ∀ k w v, item k w v → 0 < w.length)
    {e : LuaTree × LuaTree} (h : PairItem item w e) : 0 < w.length := by
  obtain ⟨wk, wv, rfl, hk, -, -⟩ := h
  have := hpos _ _ _ hk
  rw [List.length_append]
  omega

variable {v : LuaTree}

theorem reads_unpackTable (hpos : ∀ k w v, item k w v → 0 < w.length)
    (hone : ∀ k w v, item k w v → w.length < N → Reads (one k) w v) {cookie : Int}
    (h : TableItem item room cookie w v) (hlt : w.length < N) :
    Reads (unpackTable one room N cookie) w v := by
  obtain ⟨hroom, ws, size, wa, vs, wp, es, wn, t, hsize, harray, hlen, hhash, hnil, hfill,
    rfl, rfl⟩ := h
  simp only [List.length_append] at hlt
  have hcount := hhash.length_le fun w e he => he.length_pos hpos
  refine (reads_getArraySize hsize).bind ?_
  rw [checkstack_eq hroom, pure_bind, ← hlen]
  refine (reads_unpackArray (hone 1) harray (by omega) [] 1).bind ?_
  exact (reads_unpackHash hone hhash hnil (by rw [List.length_append]; omega) (by omega) hfill).map

theorem fails_unpackTable (hpos : ∀ k w v, item k w v → 0 < w.length)
    (hone : ∀ k w v, item k w v → w.length < N → Reads (one k) w v)
    (hbad : ∀ k w, bad k w → w.length < N → Fails (one k) w) {cookie : Int}
    (h : BadTable item bad room cookie w) (hlt : w.length < N) :
    Fails (unpackTable one room N cookie) w := by
  obtain ⟨hfull, size, hsize⟩ | ⟨hroom, ws, size, wa, vs, w', hsize, harray, rfl, h⟩ := h
  · exact (reads_getArraySize hsize).bind_fails_nil ((fails_checkstack hfull).bind _)
  simp only [List.length_append] at hlt
  refine (reads_getArraySize hsize).bind_fails ?_
  rw [checkstack_eq hroom, pure_bind]
  rcases h with ⟨hlen, hw'⟩ | ⟨hlen, wp, es, we, t, hhash, hfill, rfl, hwe⟩
  · refine Fails.bind _ (fails_unpackArray (hone 1) (hbad 1) harray hw' ?_ hlen [] 1)
    rw [List.length_append]
    omega
  · have hcount := hhash.length_le fun w e he => he.length_pos hpos
    rw [List.length_append] at hlt
    rw [← hlen]
    refine (reads_unpackArray (hone 1) harray (by omega) [] 1).bind_fails (Fails.bind _ ?_)
    exact fails_unpackHash hone hbad hhash hwe (by rw [List.length_append]; omega) (by omega) hfill

variable {table : Int → Reader LuaTree} {tableItem : Int → List UInt8 → LuaTree → Prop}
  {tableBad : Int → List UInt8 → Prop}

theorem reads_pushValue
    (htable : ∀ c w v, tableItem c w v → w.length < N → Reads (table c) w v)
    {type cookie : UInt8}
    (h : Payload tableItem type cookie w v) (hlt : w.length < N) :
    Reads (pushValue table type cookie) w v := by
  cases h with
  | nil | boolean => exact Reads.pure _
  | real hw => exact (reads_rbReadOr 407 (by rw [hw]; rfl) (by simp)).map.map
  | integer hne hinteger =>
    change Reads (if cookie = TYPE_NUMBER_REAL then _ else _) w _
    rw [if_neg hne]
    exact (reads_getInteger hinteger).map
  | userdata c hw => exact (reads_rbReadOr 417 (by rw [hw]; rfl) (by simp)).map.map
  | short hw =>
    have hc := cookie.toNat_lt
    exact reads_getBuffer (by rw [Int32.toInt_ofNat_of_lt (by omega), hw])
  | @word l w hl hw =>
    have hofLe := ofLe_lt l
    rw [hl] at hofLe
    refine (reads_rbReadOr 493 (by rw [hl]; rfl) (by simp)).bind (reads_getBuffer ?_)
    rw [Int32.toInt_ofNat_of_lt (by omega), hw]
  | @dword l w hl hw hbound =>
    refine (reads_rbReadOr 504 (by rw [hl]; rfl) (by simp)).bind (reads_getBuffer ?_)
    rw [Int32.toInt_ofNat_of_lt hbound, hw]
  | table h => exact htable _ _ _ h hlt

theorem toInt_ofNat_neg {n : Nat} (h : 2 ^ 31 ≤ n) (hlt : n < 2 ^ 32) :
    (Int32.ofNat n).toInt < 0 := by
  rw [Int32.toInt_ofNat', Int.bmod_def, Int32.size]
  omega

theorem fails_pushValue (htable : ∀ c w, tableBad c w → w.length < N → Fails (table c) w)
    {type cookie : UInt8} (h : BadPayload tableBad type cookie w)
    (hlt : w.length < N) : Fails (pushValue table type cookie) w := by
  rcases h with ⟨rfl, rfl, hw, hle⟩ | ⟨rfl, h⟩
  · have hofLe := ofLe_lt w
    rw [hw] at hofLe
    exact (reads_rbReadOr 504 (by rw [hw]; rfl) (by simp)).bind_fails_nil
      (fails_getBuffer (toInt_ofNat_neg hle (by omega)))
  · exact htable _ _ h hlt

theorem Item.length_pos {n : Nat} (h : Item room n w v) :
    0 < w.length := by
  cases n with
  | zero => exact h.elim
  | succ n =>
    obtain ⟨tag, w', rfl, -⟩ := h
    exact Nat.succ_pos _

variable {n fuel : Nat}

theorem reads_unpackOne (h : Item room n w v)
    (hlt : w.length < fuel) : Reads (unpackOne room fuel) w v := by
  induction n generalizing room fuel w v with
  | zero => exact h.elim
  | succ n ih =>
    obtain ⟨tag, w', rfl, hpayload⟩ := h
    obtain ⟨fuel, rfl⟩ : ∃ m, fuel = m + 1 := ⟨fuel - 1, by omega⟩
    rw [List.length_cons] at hlt
    refine (reads_rbReadOr (w := [tag]) 528 rfl (by simp)).bind ?_
    simp only [ofNat_ofLe_singleton]
    exact reads_pushValue (fun c w v h hlt => reads_unpackTable (fun _ _ _ h => h.length_pos)
      (fun k w v h hlt => ih h hlt) h hlt) hpayload (by omega)

theorem fails_unpackOne (h : BadItem room n w)
    (hlt : w.length < fuel) : Fails (unpackOne room fuel) w := by
  induction n generalizing room fuel w with
  | zero => exact h.elim
  | succ n ih =>
    obtain ⟨tag, w', rfl, hpayload⟩ := h
    obtain ⟨fuel, rfl⟩ : ∃ m, fuel = m + 1 := ⟨fuel - 1, by omega⟩
    rw [List.length_cons] at hlt
    refine (reads_rbReadOr (w := [tag]) 528 rfl (by simp)).bind_fails ?_
    simp only [ofNat_ofLe_singleton]
    exact fails_pushValue (fun c w h hlt => fails_unpackTable (fun _ _ _ h => h.length_pos)
      (fun k w v h hlt => reads_unpackOne h hlt) (fun k w h hlt => ih h hlt) h hlt) hpayload
      (by omega)

variable {i : Nat}

theorem unpackAll_succ (h : ¬Blocked room i) (fuel n : Nat) :
    unpackAll room fuel i (n + 1) = (do
      match ← rbRead 1 true with
      | none => pure []
      | some t =>
        let type := UInt8.ofNat (ofLe t)
        let table := unpackTable (fun k => unpackOne ((room.push i).push k) fuel) (room.push i) fuel
        let value ← pushValue table (type &&& 7) (type >>> 3)
        pure (value :: (← unpackAll room fuel (i + 1) n))) := by
  rw [unpackAll]
  by_cases hi : i % 8 = 7
  · simp only [if_pos hi, checkstack_eq fun hfull => h ⟨hi, hfull⟩]
    all_goals rfl
  · simp only [if_neg hi]
    all_goals rfl

theorem unpackAll_blocked (h : Blocked room i) (fuel n : Nat) (rb : ReadBlock) :
    unpackAll room fuel i (n + 1) rb = .error .stackOverflow rb := by
  rw [unpackAll]
  simp only [if_pos h.1, checkstack, if_pos h.2]
  rfl

variable {rb : ReadBlock}

theorem unpackAll_nil (h : At rb []) (hi : ¬Blocked room i) (fuel n : Nat) :
    ∃ rb', unpackAll room fuel i (n + 1) rb = .ok [] rb' ∧ At rb' [] := by
  obtain ⟨rb', hrb, hat⟩ := @rbRead_none _ _ 1 true h (by decide)
  refine ⟨rb', ?_, hat⟩
  simp [unpackAll_succ hi, Bind.bind, EStateM.bind, hrb, Pure.pure, EStateM.pure]

theorem unpackAll_cons {tag : UInt8} {r : List UInt8} (h : At rb (tag :: r))
    (hi : ¬Blocked room i) (fuel n : Nat) :
    ∃ rb', At rb' r ∧ unpackAll room fuel i (n + 1) rb =
      (do
        let table := unpackTable (fun k => unpackOne ((room.push i).push k) fuel) (room.push i) fuel
        let value ← pushValue table (tag &&& 7) (tag >>> 3)
        pure (value :: (← unpackAll room fuel (i + 1) n))) rb' := by
  obtain ⟨rb', hrb, hat⟩ := @rbRead_some _ [tag] _ 1 true h rfl (by simp)
  refine ⟨rb', hat, ?_⟩
  rw [unpackAll_succ hi]
  simp only [Bind.bind, EStateM.bind, hrb, ofNat_ofLe_singleton]

theorem unpackAll_item {w r : List UInt8} (hi : ¬Blocked room i)
    (h : Item (room.push i) n w v) (hat : At rb (w ++ r)) (hfuel : w.length ≤ fuel)
    (m : Nat) : ∃ rb', At rb' r ∧ unpackAll room fuel i (m + 1) rb =
      (do pure (v :: (← unpackAll room fuel (i + 1) m))) rb' := by
  cases n with
  | zero => exact h.elim
  | succ n =>
    obtain ⟨tag, w', rfl, hpayload⟩ := h
    obtain ⟨rb', hat', hrun⟩ := unpackAll_cons hat hi fuel m
    rw [List.length_cons] at hfuel
    have hread := reads_pushValue (N := fuel)
      (fun c w v h hlt => reads_unpackTable (fun _ _ _ h => h.length_pos)
        (fun k w v h hlt => reads_unpackOne h hlt) h hlt) hpayload (by omega)
    obtain ⟨rb'', hrun', hat''⟩ := hread rb' _ hat'
    exact ⟨rb'', hat'', by rw [hrun]; simp only [Bind.bind, EStateM.bind, hrun']⟩

end XsServer.Seri
