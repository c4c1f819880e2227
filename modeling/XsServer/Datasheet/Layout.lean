import XsServer.Datasheet.Undump
import XsServer.Lib.Results

/-! A document that shows a value: where its tables, values and strings lie. -/

namespace XsServer.Datasheet

open XsServer.Lib

/-! ### Bytes at an offset -/

/-- The bytes `w` are in the document from the offset on. -/
def At (d : List UInt8) (off : Nat) (w : List UInt8) : Prop := w <+: d.drop off

variable {d w : List UInt8} {off : Nat}

theorem at_append {a b : List UInt8} :
    At d off (a ++ b) ↔ At d off a ∧ At d (off + a.length) b := by
  rw [At, At, At, ← List.drop_drop]
  constructor
  · rintro ⟨t, ht⟩
    rw [← ht, List.append_assoc]
    exact ⟨List.prefix_append a _, by rw [List.drop_left]; exact List.prefix_append b t⟩
  · rintro ⟨⟨t, ht⟩, hb⟩
    rw [← ht, List.drop_left] at hb
    rw [← ht]
    exact (List.prefix_append_right_inj a).mpr hb

theorem At.unpackU4 (h : At d off w) (hw : w.length = 4) :
    unpackU4 d (off + 1) = some (Bytes.ofLe w) := by
  obtain ⟨t, ht⟩ := h
  rw [Datasheet.unpackU4, Nat.add_sub_cancel, ← ht, ← hw, List.take_left]
  simp [hw]

theorem At.unpack_le {n : Nat} (h : At d off (Bytes.le 4 n)) (hn : n < 2 ^ 32) :
    Datasheet.unpackU4 d (off + 1) = some n := by
  rw [h.unpackU4 (Bytes.le_length 4 n), Bytes.ofLe_le_of_lt hn]

theorem At.unpackB (h : At d off w) {i : Nat} (hi : i < w.length) :
    unpackB d (off + 1 + i) = some w[i] := by
  obtain ⟨t, ht⟩ := h
  have hget : (d.drop off)[i]? = some w[i] := by
    rw [← ht, List.getElem?_append_left hi, List.getElem?_eq_getElem hi]
  rw [List.getElem?_drop] at hget
  rw [Datasheet.unpackB, ← hget]
  congr 1
  omega

theorem At.unpackBs (h : At d off w) :
    (List.range w.length).mapM (fun i => Datasheet.unpackB d (off + 1 + i)) = some w := by
  have htaken (k : Nat) (hk : k ≤ w.length) :
      (List.range k).mapM (fun i => Datasheet.unpackB d (off + 1 + i)) = some (w.take k) := by
    induction k with
    | zero => simp
    | succ k ih =>
      have hlt : k < w.length := hk
      rw [List.range_succ, List.mapM_append, ih (Nat.le_of_lt hk), List.mapM_cons, h.unpackB hlt,
        List.take_succ_eq_append_getElem hlt]
      rfl
  rw [htaken w.length le_rfl, List.take_length]

theorem At.cstring {s : List UInt8} (h : At d off (s ++ [0])) (hs : 0 ∉ s) :
    cstring d (off + 1) = some s := by
  obtain ⟨t, ht⟩ := h
  have hnonzero : ∀ b ∈ s, decide (b ≠ 0) = true := by
    intro b hb
    exact decide_eq_true fun h0 => hs (h0 ▸ hb)
  rw [Datasheet.cstring, Nat.add_sub_cancel, ← ht, List.append_assoc,
    List.takeWhile_append_of_pos hnonzero]
  simp

theorem At.unpackZ {s : List UInt8} (h : At d off (s ++ [0])) (hs : 0 ∉ s)
    (hlen : s.length < 2 ^ 31) : unpackZ d (off + 1) = some s := by
  have hint : (Int32.ofNat s.length).toInt = s.length := Int32.toInt_ofNat_of_lt (by omega)
  rw [Datasheet.unpackZ, h.cstring hs, Option.bind_some, hint, if_neg (by omega), Int.toNat_natCast,
    List.take_length]

/-! ### The tables and strings of a value -/

section Each

variable {τ : Type} (p : List Loop → Nat → Prop) (q : List UInt8 → Prop)

mutual

/-- Every table of a value has the property, with its place and the number of its entries, and so
has every string with another one. -/
def Value.Each (path : List Loop) : Value τ → Prop
  | .string s => q s
  | .table _ array dict => p path (array.length + dict.length) ∧
      EachArray (.array :: path) array ∧ EachDict (.dict :: path) dict
  | _ => True

def EachArray (path : List Loop) : List (Value τ) → Prop
  | [] => True
  | v :: vs => v.Each path ∧ EachArray path vs

def EachDict (path : List Loop) : List (List UInt8 × Value τ) → Prop
  | [] => True
  | (k, v) :: es => q k ∧ v.Each path ∧ EachDict path es

end

end Each

section Stack

variable {τ : Type}

def Value.Nests (stack : Stack) (v : Value τ) : Prop :=
  v.Each (fun path _ => stack.dump path = true) (fun _ => True) []

/-- Tables can be read as deep as they are nested, with as many entries, and so can the strings. -/
def Value.Reads (stack : Stack) (path : List Loop) (v : Value τ) : Prop :=
  v.Each (fun path k => ∃ results, stack.undump path = some results ∧ k ≤ results)
    (·.length < 2 ^ 31) path

mutual

def Value.tables : Value τ → Nat
  | .table _ array dict => 1 + arrayTables array + dictTables dict
  | _ => 0

def arrayTables : List (Value τ) → Nat
  | [] => 0
  | v :: vs => v.tables + arrayTables vs

def dictTables : List (List UInt8 × Value τ) → Nat
  | [] => 0
  | (_, v) :: es => v.tables + dictTables es

end

end Stack

/-! ### Values -/

variable (d) (n strs : Nat)

structure Headed : Prop where
  lt : n < 2 ^ 32
  strs_lt : strs < 2 ^ 32
  strtbl : At d 0 (Bytes.le 4 strs)
  count : At d 4 (Bytes.le 4 n)
  index : ∀ i < n, ∃ off, off < 2 ^ 32 ∧ At d (8 + 4 * i) (Bytes.le 4 off)

def HasString (off : Nat) (s : List UInt8) : Prop :=
  off < 2 ^ 32 ∧ 0 ∉ s ∧ At d (strs + off) (s ++ [0])

/-- The table `i`, by its place in the index. -/
def HasTable (i : Nat) (cells : List Cell) (kvs : List (List UInt8 × Cell)) : Prop :=
  i < n ∧ i < 2 ^ 31 ∧ ∃ off body, off < INVALID_OFFSET ∧ At d (8 + 4 * i) (Bytes.le 4 off) ∧
    At d (8 + 4 * n + off) body ∧ body.length < 2 ^ 32 ∧ tableBytes cells kvs = .ok body

mutual

/-- The cell holds the value, whose tables are numbered as in the document. -/
def Shown : Value Nat → Cell → Prop
  | .integer m, c => c = (1, Bytes.le 4 m.toUInt32.toNat)
  | .real bits, c => c = (2, Bytes.le 4 bits.toNat)
  | .boolean b, c => c = (3, if b then [0, 0, 0, 1] else [0, 0, 0, 0])
  | .string s, c => ∃ off, c = (5, Bytes.le 4 off) ∧ HasString d strs off s
  | .table i array dict, c => c = (4, Bytes.le 4 i) ∧ (dict.map Prod.fst).Nodup ∧
      ∃ cells kvs, HasTable d n i cells kvs ∧ ArrayShown array cells ∧ DictShown dict kvs

def ArrayShown : List (Value Nat) → List Cell → Prop
  | [], cells => cells = []
  | v :: vs, cells => ∃ c cells', cells = c :: cells' ∧ Shown v c ∧ ArrayShown vs cells'

def DictShown : List (List UInt8 × Value Nat) → List (List UInt8 × Cell) → Prop
  | [], kvs => kvs = []
  | (k, v) :: es, kvs => ∃ off c kvs', kvs = (Bytes.le 4 off, c) :: kvs' ∧
      HasString d strs off k ∧ Shown v c ∧ DictShown es kvs'

end

variable {d n strs}

theorem Shown.length {v : Value Nat} {c : Cell} (h : Shown d n strs v c) : c.2.length = 4 := by
  cases v with
  | integer m | real bits => rw [Shown] at h; rw [h]; exact Bytes.le_length 4 _
  | boolean b => rw [Shown] at h; rw [h]; cases b <;> rfl
  | string s =>
    rw [Shown] at h
    obtain ⟨off, rfl, -⟩ := h
    exact Bytes.le_length 4 _
  | table i array dict =>
    rw [Shown] at h
    rw [h.1]
    exact Bytes.le_length 4 _

variable {cells : List Cell}

theorem ArrayShown.length {vs : List (Value Nat)}
    (h : ArrayShown d n strs vs cells) :
    (cells.map Prod.snd).flatten.length = 4 * cells.length := by
  induction vs generalizing cells with
  | nil => rw [ArrayShown] at h; rw [h]; rfl
  | cons v vs ih =>
    rw [ArrayShown] at h
    obtain ⟨c, cells', rfl, hc, hrest⟩ := h
    rw [List.map_cons, List.flatten_cons, List.length_append, hc.length, ih hrest, List.length_cons]
    omega

theorem ArrayShown.length_eq {vs : List (Value Nat)}
    (h : ArrayShown d n strs vs cells) : vs.length = cells.length := by
  induction vs generalizing cells with
  | nil => rw [ArrayShown] at h; rw [h]; rfl
  | cons v vs ih =>
    rw [ArrayShown] at h
    obtain ⟨c, cells', rfl, -, hrest⟩ := h
    rw [List.length_cons, List.length_cons, ih hrest]

variable {kvs : List (List UInt8 × Cell)}

theorem DictShown.length_eq {es : List (List UInt8 × Value Nat)}
    (h : DictShown d n strs es kvs) : es.length = kvs.length := by
  induction es generalizing kvs with
  | nil => rw [DictShown] at h; rw [h]; rfl
  | cons e es ih =>
    obtain ⟨k, v⟩ := e
    rw [DictShown] at h
    obtain ⟨off, c, kvs', rfl, -, -, hrest⟩ := h
    rw [List.length_cons, List.length_cons, ih hrest]

theorem packI4_ok {m : Nat} {bs : List UInt8} (h : packI4 m = .ok bs) :
    m < 2 ^ 31 ∧ bs = Bytes.le 4 m := by
  rw [packI4] at h
  split at h
  case isTrue hm => exact ⟨hm, (Except.ok.inj h).symm⟩
  case isFalse => cases h

theorem packU4_ok {m : Nat} {bs : List UInt8} (h : packU4 m = .ok bs) :
    m < 2 ^ 32 ∧ bs = Bytes.le 4 m := by
  rw [packU4] at h
  split at h
  case isTrue hm => exact ⟨hm, (Except.ok.inj h).symm⟩
  case isFalse => cases h

theorem length_align (typeset : List UInt8) :
    (typeset ++ align typeset).length = (typeset.length + 3) / 4 * 4 := by
  rw [align, List.length_append, List.length_replicate]
  omega

theorem tableBytes_ok {body : List UInt8}
    (h : tableBytes cells kvs = .ok body) :
    body = Bytes.le 4 cells.length ++ (Bytes.le 4 kvs.length ++
      (((cells.map Prod.fst ++ kvs.map fun kv => kv.2.1) ++
        align (cells.map Prod.fst ++ kvs.map fun kv => kv.2.1)) ++
          ((cells.map Prod.snd).flatten ++ (kvs.map fun kv => kv.1 ++ kv.2.2).flatten))) := by
  obtain ⟨array_n, ha, h⟩ := bind_ok h
  obtain ⟨dict_n, hd, h⟩ := bind_ok h
  obtain ⟨-, rfl⟩ := packI4_ok ha
  obtain ⟨-, rfl⟩ := packI4_ok hd
  have h := Except.ok.inj h
  simp only [← h, List.append_assoc]

/-- The table of a document that starts at an offset: its sizes, its types and its words. -/
structure TableAt (d : List UInt8) (off : Nat) (cells : List Cell)
    (kvs : List (List UInt8 × Cell)) : Prop where
  array : At d off (Bytes.le 4 cells.length)
  dict : At d (off + 4) (Bytes.le 4 kvs.length)
  types : At d (off + 8) (cells.map Prod.fst ++ kvs.map fun kv => kv.2.1)
  words : At d (off + 8 + (cells.length + kvs.length + 3) / 4 * 4)
    ((cells.map Prod.snd).flatten ++ (kvs.map fun kv => kv.1 ++ kv.2.2).flatten)
  lt : cells.length + kvs.length + 8 < 2 ^ 32

theorem HasTable.parts {i : Nat} (h : HasTable d n i cells kvs) :
    ∃ off, off < INVALID_OFFSET ∧ At d (8 + 4 * i) (Bytes.le 4 off) ∧
      TableAt d (8 + 4 * n + off) cells kvs := by
  obtain ⟨-, -, off, body, hoff, hindex, hbody, hlen, hbytes⟩ := h
  refine ⟨off, hoff, hindex, ?_⟩
  have hpadded := length_align (cells.map Prod.fst ++ kvs.map fun kv => kv.2.1)
  rw [tableBytes_ok hbytes] at hbody hlen
  rw [at_append, at_append, at_append, at_append, Bytes.le_length, Bytes.le_length, hpadded,
    List.length_append, List.length_map, List.length_map] at hbody
  obtain ⟨harray, hdict, ⟨htypes, -⟩, hwords⟩ := hbody
  simp only [List.length_append, Bytes.le_length, List.length_map] at hlen
  refine ⟨harray, hdict, htypes, hwords, by omega⟩

end XsServer.Datasheet
