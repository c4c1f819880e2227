import XsServer.Seri.Pack
import Mathlib.Data.List.Forall2

/-! The bytes of a value as the format means them, without blocks and without narrowing to `int`,
and that `luaseri_pack` writes them. -/

namespace XsServer.Seri

open Lib.Bytes

/-! ### The format -/

def encodeInteger (v : Int64) : List UInt8 :=
  if v = 0 then [combineType TYPE_NUMBER TYPE_NUMBER_ZERO]
  else if v ≠ v.toInt32.toInt64 then
    combineType TYPE_NUMBER TYPE_NUMBER_QWORD :: le 8 v.toUInt64.toNat
  else if v < 0 then
    combineType TYPE_NUMBER TYPE_NUMBER_DWORD :: le 4 v.toInt32.toUInt32.toNat
  else if v < 0x100 then
    combineType TYPE_NUMBER TYPE_NUMBER_BYTE :: le 1 v.toUInt64.toUInt8.toNat
  else if v < 0x10000 then
    combineType TYPE_NUMBER TYPE_NUMBER_WORD :: le 2 v.toUInt64.toUInt16.toNat
  else combineType TYPE_NUMBER TYPE_NUMBER_DWORD :: le 4 v.toUInt64.toUInt32.toNat

def encodeString (s : List UInt8) : List UInt8 :=
  if s.length < 32 then combineType TYPE_SHORT_STRING (UInt8.ofNat s.length) :: s
  else if s.length < 0x10000 then combineType TYPE_LONG_STRING 2 :: (le 2 s.length ++ s)
  else combineType TYPE_LONG_STRING 4 :: (le 4 s.length ++ s)

def encodeScalar : Scalar → List UInt8
  | .nil => [TYPE_NIL]
  | .boolean b => [combineType TYPE_BOOLEAN (if b then 1 else 0)]
  | .integer n => encodeInteger n
  | .number bits => combineType TYPE_NUMBER TYPE_NUMBER_REAL :: le 8 bits.toNat
  | .lightuserdata p => TYPE_USERDATA :: le 8 p.toNat
  | .string s => encodeString s

/-- The start of a table whose array part has `n` values. -/
def encodeSize (n : Nat) : List UInt8 :=
  if n < 31 then [combineType TYPE_TABLE (UInt8.ofNat n)]
  else combineType TYPE_TABLE 31 :: encodeInteger (Int64.ofNat n)

/-- The entries of a table that are not in its array part. -/
def LuaTable.hashPart (t : LuaTable) : List (LuaValue × LuaValue) :=
  t.entries.filter fun e => !inArray t.rawlen e.1

def encodePair (encode : LuaValue → Option (List UInt8)) (e : LuaValue × LuaValue) :
    Option (List UInt8) := do
  pure ((← encode e.1) ++ (← encode e.2))

def encodeTable (encode : LuaValue → Option (List UInt8)) (t : LuaTable) :
    Option (List UInt8) := do
  let array ← (List.range t.rawlen).mapM fun i => encode (t.rawgeti (i + 1))
  let hash ← t.hashPart.mapM (encodePair encode)
  pure (encodeSize t.rawlen ++ (array.flatten ++ (hash.flatten ++ [TYPE_NIL])))

/-- The bytes of a value with less than `left` levels, if all its parts have some. -/
def encode (heap : Heap) : Nat → LuaValue → Option (List UInt8)
  | 0, _ => none
  | _ + 1, .scalar s => some (encodeScalar s)
  | left + 1, .table ref => encodeTable (encode heap left) (heap ref)
  | _ + 1, .other _ _ => none

/-! ### The chain of blocks is a buffer -/

def WriteBlock.contents (b : WriteBlock) : List UInt8 := b.full.flatten ++ b.current

theorem contents_withRoom (b : WriteBlock) : (withRoom b).contents = b.contents := by
  unfold withRoom
  split
  · simp [nextBlock, WriteBlock.contents]
  · rfl

theorem contents_wbPush (b : WriteBlock) (buffer : List UInt8) :
    (wbPush b buffer).contents = b.contents ++ buffer := by
  fun_induction wbPush b buffer with
  | case1 b buffer h =>
    rw [← contents_withRoom b]
    simp [copyTo, WriteBlock.contents]
  | case2 b buffer h ih =>
    rw [ih, ← contents_withRoom b]
    simp [copyTo, WriteBlock.contents]

theorem seri_blocks (full : List (List UInt8)) (current : List UInt8)
    (hsize : ∀ blk ∈ full, blk.length = BLOCK_SIZE) :
    seri (full ++ [current]) (full.flatten.length + current.length) = full.flatten ++ current := by
  induction full with
  | nil =>
    simp only [List.nil_append, seri, List.flatten_nil, List.length_nil, Nat.zero_add]
    split <;> simp
  | cons blk full ih =>
    obtain ⟨hblk, hfull⟩ := List.forall_mem_cons.mp hsize
    have hlen : (blk :: full).flatten.length + current.length - BLOCK_SIZE =
        full.flatten.length + current.length := by
      rw [List.flatten_cons, List.length_append, hblk]
      omega
    rw [List.cons_append, seri, if_pos, hlen, ih hfull, List.flatten_cons, List.append_assoc]
    rw [List.flatten_cons, List.length_append, hblk]
    omega

theorem seri_chain (b : WriteBlock) : seri (b.full ++ [b.current]) b.len = b.contents := by
  rw [b.len_eq, WriteBlock.contents]
  exact seri_blocks b.full b.current b.full_size

/-- The step writes the bytes `w` whatever was written before. -/
def Writes (f : WriteBlock → Except PackError WriteBlock) (w : List UInt8) : Prop :=
  ∀ b, ∃ b', f b = .ok b' ∧ b'.contents = b.contents ++ w

theorem contents_wbInteger (b : WriteBlock) (v : Int64) :
    (wbInteger b v).contents = b.contents ++ encodeInteger v := by
  unfold wbInteger encodeInteger
  split_ifs <;> simp [contents_wbPush]

theorem ofInt_natCast (n : Nat) : UInt8.ofInt n = UInt8.ofNat n := by
  have hmod : ((n : Int) % 2 ^ 8).toNat = n % 256 := by omega
  rw [UInt8.ofInt, hmod, ← UInt8.toNat_inj, UInt8.toNat_ofNat', UInt8.toNat_ofNat']
  omega

theorem contents_wbString (b : WriteBlock) {str : List UInt8} (h : str.length < 2 ^ 31) :
    (wbString b str (Int32.ofNat str.length)).contents = b.contents ++ encodeString str := by
  have hlen : (Int32.ofNat str.length).toInt = str.length := Int32.toInt_ofNat_of_lt h
  unfold wbString encodeString
  simp only [hlen, MAX_COOKIE, Int.toNat_natCast, List.take_length]
  by_cases h32 : str.length < 32
  · rw [if_pos (by omega), if_pos h32]
    split
    · simp [contents_wbPush, ofInt_natCast]
    · have hnil : str = [] := List.length_eq_zero_iff.mp (by omega)
      rw [contents_wbPush, ofInt_natCast, hnil]
  · rw [if_neg (by omega), if_neg h32]
    split
    · rw [if_pos (by omega)]
      simp [contents_wbPush]
    · rw [if_neg (by omega)]
      simp [contents_wbPush]

theorem contents_wbScalar (b : WriteBlock) {s : Scalar} (h : (encodeScalar s).length < 2 ^ 31) :
    (wbScalar b s).contents = b.contents ++ encodeScalar s := by
  cases s with
  | nil | boolean => exact contents_wbPush ..
  | integer n => exact contents_wbInteger b n
  | number bits => simp [wbScalar, wbReal, encodeScalar, contents_wbPush]
  | lightuserdata p => simp [wbScalar, wbPointer, encodeScalar, contents_wbPush]
  | string s =>
    refine contents_wbString b (lt_of_le_of_lt ?_ h)
    simp only [encodeScalar, encodeString]
    split_ifs <;> simp only [List.length_cons, List.length_append] <;> omega

theorem mapM_eq_some {α β : Type} {f : α → Option β} {as : List α} {bs : List β} :
    as.mapM f = some bs ↔ List.Forall₂ (fun a b => f a = some b) as bs := by
  induction as generalizing bs with
  | nil => simp [eq_comm]
  | cons a as ih =>
    simp only [List.mapM_cons, Option.pure_def, Option.bind_eq_bind, Option.bind_eq_some_iff,
      Option.some.injEq, List.forall₂_cons_left_iff, ih]
    constructor
    · rintro ⟨b, hb, bs', hbs, rfl⟩
      exact ⟨b, bs', hb, hbs, rfl⟩
    · rintro ⟨b, bs', hb, hbs, rfl⟩
      exact ⟨b, hb, bs', hbs, rfl⟩

theorem Writes.andThen {f g : WriteBlock → Except PackError WriteBlock} {w w' : List UInt8}
    (hf : Writes f w) (hg : Writes g w') : Writes (fun b => f b >>= g) (w ++ w') := by
  intro b
  obtain ⟨b1, hb1, hc1⟩ := hf b
  obtain ⟨b2, hb2, hc2⟩ := hg b1
  refine ⟨b2, ?_, by rw [hc2, hc1, List.append_assoc]⟩
  change f b >>= g = _
  rw [hb1]
  exact hb2

theorem writes_foldlM {α : Type} {f : WriteBlock → α → Except PackError WriteBlock} {as : List α}
    {ws : List (List UInt8)} (h : List.Forall₂ (fun a w => Writes (fun b => f b a) w) as ws) :
    Writes (fun b => as.foldlM f b) ws.flatten := by
  induction h with
  | nil => exact fun b => ⟨b, rfl, by simp⟩
  | cons ha _ ih => exact ha.andThen ih

theorem writes_foldlM_filter {α : Type} {f : WriteBlock → α → Except PackError WriteBlock}
    {skip : α → Bool} {as : List α} {ws : List (List UInt8)}
    (h : List.Forall₂ (fun a w => Writes (fun b => f b a) w) (as.filter fun a => !skip a) ws) :
    Writes (fun b => as.foldlM (fun b a => if skip a then pure b else f b a) b) ws.flatten := by
  induction as generalizing ws with
  | nil =>
    cases h
    exact fun b => ⟨b, rfl, by simp⟩
  | cons a as ih =>
    by_cases hskip : skip a
    · rw [List.filter_cons_of_neg (by simpa using hskip)] at h
      intro b
      obtain ⟨b', hb', hc'⟩ := ih h b
      refine ⟨b', ?_, hc'⟩
      simpa [hskip] using hb'
    · rw [List.filter_cons_of_pos (by simpa using hskip)] at h
      obtain ⟨w, ws', hw, hws, rfl⟩ := List.forall₂_cons_left_iff.mp h
      have hone : Writes (fun b => if skip a then pure b else f b a) w := by
        simpa [hskip] using hw
      exact hone.andThen (ih hws)

theorem toInt64_ofNat {n : Nat} (h : n < 2 ^ 31) : (Int32.ofNat n).toInt64 = Int64.ofNat n := by
  rw [← Int64.toInt_inj, Int32.toInt_toInt64, Int32.toInt_ofNat_of_lt h,
    Int64.toInt_ofNat_of_lt (by omega)]

theorem contents_wbTableSize (b : WriteBlock) {n : Nat} (h : n < 2 ^ 31) :
    (wbTableSize b (Int32.ofNat n)).contents = b.contents ++ encodeSize n := by
  have hlen : (Int32.ofNat n).toInt = n := Int32.toInt_ofNat_of_lt h
  unfold wbTableSize encodeSize
  rw [hlen, MAX_COOKIE, toInt64_ofNat h]
  by_cases h31 : n < 31
  · rw [if_neg (by omega), if_pos h31, contents_wbPush, ofInt_natCast]
  · rw [if_pos (by omega), if_neg h31, contents_wbInteger, contents_wbPush]
    simp
    rfl

theorem encodeInteger_pos (v : Int64) : 0 < (encodeInteger v).length := by
  unfold encodeInteger
  split_ifs <;> exact Nat.succ_pos _

theorem encode_pos {heap : Heap} {left : Nat} {v : LuaValue} {w : List UInt8}
    (h : encode heap left v = some w) : 0 < w.length := by
  cases left with
  | zero => cases h
  | succ left =>
    cases v with
    | scalar s =>
      obtain rfl : encodeScalar s = w := by simpa [encode] using h
      cases s with
      | integer n => exact encodeInteger_pos n
      | string s =>
        simp only [encodeScalar, encodeString]
        split_ifs <;> exact Nat.succ_pos _
      | _ => exact Nat.succ_pos _
    | other => cases h
    | table ref =>
      simp only [encode, encodeTable, Option.pure_def, Option.bind_eq_bind,
        Option.bind_eq_some_iff, Option.some.injEq] at h
      obtain ⟨_, _, _, _, rfl⟩ := h
      simp only [List.length_append, List.length_singleton]
      omega

theorem length_le_flatten {α : Type} {ws : List (List α)} (h : ∀ w ∈ ws, 0 < w.length) :
    ws.length ≤ ws.flatten.length := by
  induction ws with
  | nil => exact le_rfl
  | cons w ws ih =>
    obtain ⟨hw, hws⟩ := List.forall_mem_cons.mp h
    have := ih hws
    rw [List.flatten_cons, List.length_append, List.length_cons]
    omega

end XsServer.Seri
