import XsServer.Sproto.Layout
import XsServer.Sproto.Pack

/-! `import_type`: a type as it is loaded from a schema in memory, where `maxn` is counted and tags
that do not grow are refused. -/

namespace XsServer.Sproto

open Lib

def wordAt (mem : Memory) (p : Nat) : Nat := toword (cells mem p SIZEOF_HEADER)

def dwordAt (mem : Memory) (p : Nat) : Nat := todword (cells mem p SIZEOF_LENGTH)

/-- The loop of `count_array`; with a size of 0 for an element it does not end. -/
def countElements (mem : Memory) : Nat → Nat → Nat → Nat → Option Nat
  | 0, _, _, _ => none
  | fuel + 1, stream, length, n =>
    if length > 0 then
      if length < SIZEOF_LENGTH then none
      else
        let nsz := addUint32 (dwordAt mem stream) SIZEOF_LENGTH
        if nsz > length then none
        else countElements mem fuel (stream + nsz) (length - nsz) (n + 1)
    else some n

def countArray (mem : Memory) (stream : Nat) : Option Nat :=
  let length := dwordAt mem stream
  countElements mem (length + 1) (stream + SIZEOF_LENGTH) length 0

/-- The loop of `struct_field` over the fields from the `i`-th on; whether their data is there. -/
def structData (mem : Memory) (field : Nat) : Nat → Nat → Nat → Nat → Bool
  | 0, _, _, _ => true
  | left + 1, i, stream, sz =>
    if wordAt mem (field + i * SIZEOF_FIELD) ≠ 0 then structData mem field left (i + 1) stream sz
    else if sz < SIZEOF_LENGTH then false
    else
      let dsz := addUint32 SIZEOF_LENGTH (dwordAt mem stream)
      if sz < dsz then false
      else structData mem field left (i + 1) (stream + dsz) (sz - dsz)

def structField (mem : Memory) (stream sz : Nat) : Option Nat :=
  if sz < SIZEOF_LENGTH then none
  else
    let fn := wordAt mem stream
    let header := SIZEOF_HEADER + SIZEOF_FIELD * fn
    if sz < header then none
    else
      let there := structData mem (stream + SIZEOF_HEADER) fn 0 (stream + header) (sz - header)
      if there then some fn else none

def importString (mem : Memory) (stream : Nat) : List UInt8 :=
  cells mem (stream + SIZEOF_LENGTH) (dwordAt mem stream)

/-- A product of `int`; one that overflows is not defined. -/
def mulInt (a b : Int) : Int := (a * b).bmod (2 ^ 32)

def calcPow (base : Int) (n : Nat) : Int :=
  if n = 0 then 1
  else
    let r := calcPow (mulInt base base) (n / 2)
    if n % 2 = 1 then mulInt r base else r
  termination_by n
  decreasing_by omega

/-- The types below `SPROTO_TSTRUCT`. -/
def buildin : Nat → Option Kind
  | 0 => some .integer
  | 1 => some .boolean
  | 2 => some .string
  | 3 => some .double
  | _ => none

/-- A `struct field` that is being filled, with `none` for -1 and `NULL`. -/
structure FieldVars where
  name : Option (List UInt8)
  tag : Option Nat
  type : Option Kind
  array : Bool
  st : Option Nat
  key : Int
  extra : Int

/-- The `switch` of `import_field`. -/
def setProperty (typeN : Nat) (f : FieldVars) (tag value : Nat) : Option FieldVars :=
  match tag with
  | 1 => (buildin value).map fun type => { f with type := some type }
  | 2 =>
    match f.type with
    | some .integer => some { f with extra := calcPow 10 value }
    | some .string => some { f with extra := value }
    | some _ => none
    | none =>
      if value ≥ typeN then none else some { f with type := some .struct, st := some value }
  | 3 => some { f with tag := some value }
  | 4 => some (if value ≠ 0 then { f with array := true } else f)
  | 5 => some { f with key := value }
  | _ => none

/-- The loop over the words of a field, from the `i`-th on; `tag` is that of the word before. -/
def importProperties (typeN : Nat) (mem : Memory) (stream fn : Nat) :
    Nat → Nat → Int → FieldVars → Option FieldVars
  | 0, _, _, f => some f
  | left + 1, i, last, f =>
    let tag := last + 1
    let value := wordAt mem (stream + SIZEOF_FIELD * i)
    if value % 2 = 1 then
      importProperties typeN mem stream fn left (i + 1) (tag + (value / 2 : Nat)) f
    else if tag = 0 then
      if value ≠ 0 then none
      else
        importProperties typeN mem stream fn left (i + 1) tag
          { f with name := some (importString mem (stream + fn * SIZEOF_FIELD)) }
    else if value = 0 then none
    else do
      let f ← setProperty typeN f tag.toNat (value / 2 - 1)
      importProperties typeN mem stream fn left (i + 1) tag f

def importField (typeN : Nat) (mem : Memory) (stream : Nat) : Option (Field × Nat) := do
  let sz := dwordAt mem stream
  let stream := stream + SIZEOF_LENGTH
  let fn ← structField mem stream sz
  let f ← importProperties typeN mem (stream + SIZEOF_HEADER) fn fn 0 (-1)
    ⟨none, none, none, false, none, -1, 0⟩
  let tag ← f.tag
  let type ← f.type
  let name ← f.name
  return (⟨name, tag, type, f.array, f.st, f.key, f.extra⟩, stream + sz)

/-- `struct sproto_type`, as it is filled. -/
structure Imported where
  name : List UInt8
  n : Nat
  base : Int
  maxn : Nat
  f : List Field

/-- The loop over the fields, with the last tag and `maxn`. -/
def importFields (typeN : Nat) (mem : Memory) :
    Nat → Nat → Int → Nat → Option (List Field × Nat)
  | 0, _, _, maxn => some ([], maxn)
  | left + 1, stream, last, maxn => do
    let (f, stream) ← importField typeN mem stream
    if (f.tag : Int) ≤ last then none
    else
      let maxn := if (f.tag : Int) > last + 1 then maxn + 1 else maxn
      let (fs, maxn) ← importFields typeN mem left stream f.tag maxn
      return (f :: fs, maxn)

/-- `base`, which is read from memory that is not set when there are no fields. -/
def importBase (stale : Int) : List Field → Int
  | [] => stale
  | f :: fs =>
    let last := (f :: fs).getLast (List.cons_ne_nil f fs)
    if (last.tag : Int) - f.tag + 1 ≠ (f :: fs).length then -1 else f.tag

def importType (typeN : Nat) (stale : Int) (mem : Memory) (stream : Nat) :
    Option (Imported × Nat) := do
  let sz := dwordAt mem stream
  let stream := stream + SIZEOF_LENGTH
  let result := stream + sz
  let fn ← structField mem stream sz
  if fn = 0 ∨ fn > 2 then none
  else if ∃ i < fn, wordAt mem (stream + SIZEOF_HEADER + i * SIZEOF_FIELD) ≠ 0 then none
  else
    let stream := stream + SIZEOF_HEADER + fn * SIZEOF_FIELD
    let name := importString mem stream
    if fn = 1 then return (⟨name, 0, 0, 0, []⟩, result)
    else
      let stream := stream + addUint32 (dwordAt mem stream) SIZEOF_LENGTH
      let n ← countArray mem stream
      let (f, maxn) ← importFields typeN mem n (stream + SIZEOF_LENGTH) (-1) n
      return (⟨name, n, importBase stale f, maxn, f⟩, result)

/-! ### What is loaded -/

variable {typeN n stream stream' maxn maxn' : Nat} {mem : Memory} {last : Int} {fs : List Field}

theorem wordAt_lt (mem : Memory) (p : Nat) : wordAt mem p < 2 ^ 16 := by
  have hlt := Bytes.ofLe_lt ((cells mem p SIZEOF_HEADER).take 2)
  have hle : ((cells mem p SIZEOF_HEADER).take 2).length ≤ 2 := List.length_take_le _ _
  exact hlt.trans_le (by simpa using Nat.pow_le_pow_right (show 0 < 256 by decide) hle)

/-- The tag of a field, if it is set, is half of a word minus one. -/
def FieldVars.Small (f : FieldVars) : Prop := ∀ tag, f.tag = some tag → tag < 0x7fff

theorem setProperty_small {f f' : FieldVars} {tag value : Nat} (hf : f.Small)
    (hvalue : value < 0x7fff) (h : setProperty typeN f tag value = some f') : f'.Small := by
  unfold setProperty at h
  split at h
  · obtain ⟨type, -, rfl⟩ := Option.map_eq_some_iff.mp h
    exact hf
  · split at h
    · obtain rfl := Option.some_inj.mp h
      exact hf
    · obtain rfl := Option.some_inj.mp h
      exact hf
    · cases h
    · split at h
      · cases h
      · obtain rfl := Option.some_inj.mp h
        exact hf
  · obtain rfl := Option.some_inj.mp h
    intro t ht
    obtain rfl := Option.some_inj.mp ht
    exact hvalue
  · obtain rfl := Option.some_inj.mp h
    split
    · exact hf
    · exact hf
  · obtain rfl := Option.some_inj.mp h
    exact hf
  · cases h

theorem importProperties_small {fn left i : Nat} {f f' : FieldVars} (hf : f.Small)
    (h : importProperties typeN mem stream fn left i last f = some f') : f'.Small := by
  induction left generalizing i last f with
  | zero =>
    obtain rfl := Option.some_inj.mp h
    exact hf
  | succ left ih =>
    rw [importProperties] at h
    split at h
    · exact ih hf h
    · split at h
      · split at h
        · cases h
        · exact ih (by exact hf) h
      · split at h
        · cases h
        · obtain ⟨g, hg, h⟩ := Option.bind_eq_some_iff.mp h
          have hword := wordAt_lt mem (stream + SIZEOF_FIELD * i)
          exact ih (setProperty_small hf (by omega) hg) h

theorem importField_tag_lt {f : Field} (h : importField typeN mem stream = some (f, stream')) :
    f.tag < 0x7fff := by
  obtain ⟨fn, -, h⟩ := Option.bind_eq_some_iff.mp h
  obtain ⟨g, hg, h⟩ := Option.bind_eq_some_iff.mp h
  obtain ⟨tag, htag, h⟩ := Option.bind_eq_some_iff.mp h
  obtain ⟨type, -, h⟩ := Option.bind_eq_some_iff.mp h
  obtain ⟨name, -, h⟩ := Option.bind_eq_some_iff.mp h
  obtain ⟨rfl, -⟩ := Prod.mk.inj (Option.some_inj.mp h)
  exact importProperties_small (fun _ h => by cases h) hg tag htag

theorem importFields_follow (hlast : -1 ≤ last)
    (h : importFields typeN mem n stream last maxn = some (fs, maxn')) :
    fs.length = n ∧ Follow last fs ∧ maxn' = maxn + gaps last fs := by
  induction n generalizing stream last maxn fs with
  | zero =>
    obtain ⟨rfl, rfl⟩ := Prod.mk.inj (Option.some_inj.mp h)
    exact ⟨rfl, ⟨hlast, by simp, .nil, by simp⟩, rfl⟩
  | succ n ih =>
    obtain ⟨⟨f, next⟩, hf, h⟩ := Option.bind_eq_some_iff.mp h
    simp only at h
    split at h
    · cases h
    · rename_i hgrows
      obtain ⟨⟨rest, m⟩, hrest, h⟩ := Option.bind_eq_some_iff.mp h
      simp only [Option.pure_def, Option.some_inj, Prod.mk.injEq] at h
      obtain ⟨rfl, rfl⟩ := h
      obtain ⟨hlen, hfollow, hmaxn⟩ := ih (by omega) hrest
      refine ⟨by rw [List.length_cons, hlen], ⟨hlast, ?_, ?_, ?_⟩, ?_⟩
      · refine List.forall_mem_cons.mpr ⟨by omega, fun x hx => ?_⟩
        have hafter := hfollow.after x hx
        omega
      · exact List.pairwise_cons.mpr
          ⟨fun x hx => Int.ofNat_lt.mp (hfollow.after x hx), hfollow.sorted⟩
      · exact List.forall_mem_cons.mpr ⟨importField_tag_lt hf, hfollow.tag_lt⟩
      · rw [hmaxn, gaps]
        split
        · omega
        · omega

theorem importBase_eq (st : SprotoType) (stale : Int) (hne : st.f ≠ []) :
    importBase stale st.f = st.base := by
  rw [SprotoType.base]
  cases hf : st.f with
  | nil => exact absurd hf hne
  | cons x rest =>
    simp only [importBase, ne_eq, ite_not]

theorem importType_eq {stale : Int} {t : Imported}
    (h : importType typeN stale mem stream = some (t, stream')) :
    ∃ st : SprotoType, t.name = st.name ∧ t.f = st.f ∧ t.n = st.f.length ∧ t.maxn = st.maxn ∧
      (t.f ≠ [] → t.base = st.base) := by
  obtain ⟨fn, -, h⟩ := Option.bind_eq_some_iff.mp h
  simp only at h
  split at h
  · cases h
  · split at h
    · cases h
    · split at h
      · obtain ⟨rfl, -⟩ := Prod.mk.inj (Option.some_inj.mp h)
        exact ⟨⟨_, [], .nil, by simp⟩, rfl, rfl, rfl, rfl, fun h => absurd rfl h⟩
      · obtain ⟨n, -, h⟩ := Option.bind_eq_some_iff.mp h
        obtain ⟨⟨f, m⟩, hfields, h⟩ := Option.bind_eq_some_iff.mp h
        simp only [Option.pure_def, Option.some_inj, Prod.mk.injEq] at h
        obtain ⟨rfl, -⟩ := h
        obtain ⟨hlen, hfollow, hmaxn⟩ := importFields_follow le_rfl hfields
        refine ⟨⟨_, f, hfollow.sorted, hfollow.tag_lt⟩, rfl, rfl, hlen.symm, ?_,
          importBase_eq ⟨_, f, hfollow.sorted, hfollow.tag_lt⟩ stale⟩
        rw [SprotoType.maxn, hlen]
        exact hmaxn

end XsServer.Sproto
