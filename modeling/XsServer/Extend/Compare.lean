import Mathlib.Data.List.AList
import Mathlib.Data.Rat.Defs

/-! `table.include`, `table.compare_deep` and `table.copy_deep` of `extend_table.lua`, for tables
without metatables.  A table is a reference into a heap, and two references to one table are equal,
whatever is in it; a float that is not a number is not equal to itself. -/

namespace XsServer.Extend

/-- A number by its value; an integer and a float of one value are equal. -/
inductive Number
  | finite (q : ℚ)
  | infinite (negative : Bool)
  | nan
  deriving DecidableEq

inductive LuaType
  | nil
  | boolean
  | number
  | string
  | function
  | userdata
  | thread
  | table
  deriving DecidableEq

inductive Value
  | nil
  | boolean (b : Bool)
  | number (x : Number)
  | string (s : List UInt8)
  | function (ref : Nat)
  | userdata (ref : Nat)
  | thread (ref : Nat)
  | table (ref : Nat)
  deriving DecidableEq

def Value.type : Value → LuaType
  | .nil => .nil
  | .boolean _ => .boolean
  | .number _ => .number
  | .string _ => .string
  | .function _ => .function
  | .userdata _ => .userdata
  | .thread _ => .thread
  | .table _ => .table

/-- `a == b` -/
def rawEqual (a b : Value) : Bool := a = b ∧ a ≠ .number .nan

/-- The fields of a table, in the order of `pairs`. -/
abbrev Fields (κ : Type) := AList fun _ : κ => Value

/-- The tables, with references below `size`; no field is `nil`. -/
structure Heap (κ : Type) where
  fields : Nat → Fields κ
  size : Nat
  present : ∀ t, ∀ e ∈ (fields t).entries, e.2 ≠ .nil

variable {κ : Type} [DecidableEq κ]

/-- `t[k]` -/
def Heap.get (h : Heap κ) (t : Nat) (k : κ) : Value := ((h.fields t).lookup k).getD .nil

/-- The loop of `include`, with the call in it. -/
def includeFields (call : Value → Value → Option Bool) (get : κ → Value) :
    List (Sigma fun _ : κ => Value) → Option Bool
  | [] => some true
  | ⟨ak, av⟩ :: rest =>
    if rawEqual av (get ak) then includeFields call get rest
    else
      match call av (get ak) with
      | some true => includeFields call get rest
      | some false => some false
      | none => none

/-- `table.include`; `none` is a call that has not ended. -/
def includes (h : Heap κ) : Nat → Value → Value → Option Bool
  | 0, _, _ => none
  | fuel + 1, a, b =>
    if rawEqual a b then some true
    else if a.type ≠ b.type then some false
    else
      match a, b with
      | .table a, .table b => includeFields (includes h fuel) (h.get b) (h.fields a).entries
      | _, _ => some false

def compareDeep (h : Heap κ) (fuel : Nat) (a b : Value) : Option Bool :=
  match includes h fuel a b with
  | some true =>
    match includes h fuel b a with
    | some true => some true
    | some false => some false
    | none => none
  | some false => some false
  | none => none

/-! ### Copies -/

/-- The fields after `t[k] = v`. -/
def assignField (fields : Fields κ) (k : κ) (v : Value) : Fields κ :=
  if v = .nil then fields.erase k else fields.insert k v

theorem assignField_present {fields : Fields κ} (hfields : ∀ e ∈ fields.entries, e.2 ≠ .nil)
    (k : κ) (v : Value) : ∀ e ∈ (assignField fields k v).entries, e.2 ≠ .nil := by
  intro e he
  rw [assignField] at he
  split at he
  · exact hfields e ((List.kerase_sublist k fields.entries).subset he)
  · rcases List.mem_cons.mp he with rfl | he
    · assumption
    · exact hfields e ((List.kerase_sublist k fields.entries).subset he)

omit [DecidableEq κ] in
theorem update_present (h : Heap κ) (t : Nat) {new : Fields κ}
    (hnew : ∀ e ∈ new.entries, e.2 ≠ .nil) :
    ∀ s, ∀ e ∈ (Function.update h.fields t new s).entries, e.2 ≠ .nil := by
  intro s
  rcases eq_or_ne s t with rfl | hne
  · rwa [Function.update_self]
  · rw [Function.update_of_ne hne]
    exact h.present s

/-- `t[k] = v` -/
def Heap.assign (h : Heap κ) (t : Nat) (k : κ) (v : Value) : Heap κ where
  fields := Function.update h.fields t (assignField (h.fields t) k v)
  size := h.size
  present := update_present h t (assignField_present (h.present t) k v)

/-- `table.clear(t)` -/
def Heap.clear (h : Heap κ) (t : Nat) : Heap κ where
  fields := Function.update h.fields t ∅
  size := h.size
  present := update_present h t (by simp)

/-- `{nil}` -/
def Heap.new (h : Heap κ) : Heap κ where
  fields := Function.update h.fields h.size ∅
  size := h.size + 1
  present := update_present h h.size (by simp)

/-- The loop of `copy_deep`, with the call in it. -/
def copyFields (call : Heap κ → Nat → Option (Heap κ × Nat)) (new : Nat) :
    List (Sigma fun _ : κ => Value) → Heap κ → Option (Heap κ)
  | [], h => some h
  | ⟨k, .table t⟩ :: rest, h =>
    match call h t with
    | some (h, copy) => copyFields call new rest (h.assign new k (.table copy))
    | none => none
  | ⟨k, v⟩ :: rest, h => copyFields call new rest (h.assign new k v)

/-- The heap after the call, and what is returned. -/
def copyDeep : Nat → Heap κ → Nat → Option Nat → Option (Heap κ × Nat)
  | 0, _, _, _ => none
  | fuel + 1, h, t, out =>
    let new := out.getD h.size
    let h := match out with
      | some out => h.clear out
      | none => h.new
    match copyFields (fun h t => copyDeep fuel h t none) new (h.fields t).entries h with
    | some h => some (h, new)
    | none => none

/-! ### What is to hold -/

/-- There are no references to tables that are not there. -/
def Heap.Closed (h : Heap κ) : Prop :=
  ∀ t, t < h.size → ∀ e ∈ (h.fields t).entries, ∀ s, e.2 = .table s → s < h.size

inductive Acyclic (h : Heap κ) : Value → Prop
  | leaf {v : Value} (hv : v.type ≠ .table) : Acyclic h v
  | table {t : Nat} (ht : ∀ e ∈ (h.fields t).entries, Acyclic h e.2) : Acyclic h (.table t)

inductive NoNan (h : Heap κ) : Value → Prop
  | leaf {v : Value} (hv : v.type ≠ .table) (hself : v ≠ .number .nan) : NoNan h v
  | table {t : Nat} (ht : ∀ e ∈ (h.fields t).entries, NoNan h e.2) : NoNan h (.table t)

/-- The same keys, equal leaves, and tables with the same trees. -/
inductive SameTree (h : Heap κ) : Value → Value → Prop
  | leaf {a b : Value} (ha : a.type ≠ .table) (hab : rawEqual a b = true) : SameTree h a b
  | table {a b : Nat} (hab : ∀ k, SameTree h (h.get a k) (h.get b k)) :
    SameTree h (.table a) (.table b)

inductive Equal (h : Heap κ) : Value → Value → Prop
  | raw {a b : Value} (hab : rawEqual a b = true) : Equal h a b
  | table {a b : Nat} (hab : ∀ k, Equal h (h.get a k) (h.get b k)) : Equal h (.table a) (.table b)

/-- What `include` finds: the fields of the one in the other. -/
inductive Includes (h : Heap κ) : Value → Value → Prop
  | raw {a b : Value} (hab : rawEqual a b = true) : Includes h a b
  | table {a b : Nat} (hab : ∀ e ∈ (h.fields a).entries, Includes h e.2 (h.get b e.1)) :
    Includes h (.table a) (.table b)

/-- What `compare_deep` returns. -/
def Compares (h : Heap κ) (a b : Value) (r : Bool) : Prop :=
  ∃ n, ∀ fuel, n ≤ fuel → compareDeep h fuel a b = some r

/-- A value and its copy, with the tables of the copy from `lo` to `hi` and those of the value
below `n`. -/
inductive Copied (h : Heap κ) (n lo hi : Nat) : Value → Value → Prop
  | leaf {v : Value} (hv : v.type ≠ .table) : Copied h n lo hi v v
  | table {new t : Nat} (hlo : lo ≤ new) (hhi : new < hi) (ht : t < n)
    (hfields : ∀ k, Copied h n lo hi (h.get new k) (h.get t k)) :
    Copied h n lo hi (.table new) (.table t)

variable {h : Heap κ} {a b c : Value}

theorem exists_table (h : a.type = .table) : ∃ t, a = .table t := by
  cases a with
  | table t => exact ⟨t, rfl⟩
  | _ => cases h

theorem rawEqual_iff : rawEqual a b = true ↔ a = b ∧ a ≠ .number .nan := by
  simp [rawEqual]

variable {t : Nat}

theorem get_of_mem {e : Sigma fun _ : κ => Value} (he : e ∈ (h.fields t).entries) :
    h.get t e.1 = e.2 := by
  have hlookup : e.2 ∈ (h.fields t).lookup e.1 := AList.mem_lookup_iff.mpr he
  rw [Heap.get, Option.mem_def.mp hlookup]
  rfl

theorem get_of_notMem {k : κ} (hk : k ∉ (h.fields t).entries.keys) :
    h.get t k = .nil := by
  rw [Heap.get, AList.lookup_eq_none.mpr hk]
  rfl

theorem get_cases (h : Heap κ) (t : Nat) (k : κ) :
    (∃ e ∈ (h.fields t).entries, e.1 = k ∧ h.get t k = e.2) ∨ h.get t k = .nil := by
  rw [Heap.get]
  cases hlookup : (h.fields t).lookup k with
  | none => exact .inr rfl
  | some v => exact .inl ⟨⟨k, v⟩, AList.mem_lookup_iff.mp hlookup, rfl, rfl⟩

theorem forall_get_iff {p : κ → Value → Prop} (hnil : ∀ k, p k .nil) :
    (∀ k, p k (h.get t k)) ↔ ∀ e ∈ (h.fields t).entries, p e.1 e.2 := by
  refine ⟨fun hall e he => get_of_mem he ▸ hall e.1, fun hall k => ?_⟩
  rcases get_cases h t k with ⟨e, he, rfl, hget⟩ | hget
  · rw [hget]
    exact hall e he
  · rw [hget]
    exact hnil k

theorem exists_bound {β : Type} (l : List β) {p : β → Nat → Prop}
    (hl : ∀ e ∈ l, ∃ n, ∀ fuel, n ≤ fuel → p e fuel) :
    ∃ n, ∀ e ∈ l, ∀ fuel, n ≤ fuel → p e fuel := by
  induction l with
  | nil => exact ⟨0, by simp⟩
  | cons e l ih =>
    rw [List.forall_mem_cons] at hl
    obtain ⟨⟨n, hn⟩, hrest⟩ := hl
    obtain ⟨m, hm⟩ := ih hrest
    refine ⟨max n m, List.forall_mem_cons.mpr ⟨fun fuel hle => hn fuel (by omega), ?_⟩⟩
    exact fun e he fuel hle => hm e he fuel (by omega)

theorem includeFields_ends {call : Value → Value → Option Bool} (get : κ → Value)
    {l : List (Sigma fun _ : κ => Value)}
    (hcall : ∀ e ∈ l, ∀ b, ∃ r, call e.2 b = some r ∧ (r = true ↔ Includes h e.2 b)) :
    ∃ r, includeFields call get l = some r ∧ (r = true ↔ ∀ e ∈ l, Includes h e.2 (get e.1)) := by
  induction l with
  | nil => exact ⟨true, rfl, by simp⟩
  | cons e l ih =>
    rw [List.forall_mem_cons] at hcall
    obtain ⟨r, hr, hiff⟩ := hcall.1 (get e.1)
    obtain ⟨rest, hrest, hall⟩ := ih hcall.2
    rw [includeFields]
    split
    case isTrue hraw => exact ⟨rest, hrest, by simp [Includes.raw hraw, hall]⟩
    case isFalse =>
      rw [hr]
      cases r with
      | true => exact ⟨rest, hrest, by simp [hiff.mp rfl, hall]⟩
      | false =>
        have hnot : ¬ Includes h e.2 (get e.1) := fun hin => Bool.false_ne_true (hiff.mpr hin)
        exact ⟨false, rfl, by simp [hnot]⟩

theorem not_includes (hraw : ¬ rawEqual a b = true) (htype : a.type ≠ .table ∨ b.type ≠ .table) :
    ¬ Includes h a b := by
  intro hin
  cases hin with
  | raw hab => exact hraw hab
  | table => exact htype.elim (fun h => h rfl) fun h => h rfl

theorem includes_raw (h : Heap κ) (fuel : Nat) (hraw : rawEqual a b = true) :
    includes h (fuel + 1) a b = some true := by
  unfold includes
  rw [if_pos hraw]

theorem includes_leaf (h : Heap κ) (fuel : Nat) (hraw : ¬ rawEqual a b = true)
    (htype : a.type ≠ .table ∨ b.type ≠ .table) :
    includes h (fuel + 1) a b = some false := by
  unfold includes
  rw [if_neg hraw]
  split
  case isTrue => rfl
  case isFalse =>
    cases a with
    | table => cases b with
      | table => simp [Value.type] at htype
      | _ => rfl
    | _ => rfl

theorem includes_table (h : Heap κ) (fuel : Nat) {a b : Nat} (hne : a ≠ b) :
    includes h (fuel + 1) (.table a) (.table b)
      = includeFields (includes h fuel) (h.get b) (h.fields a).entries := by
  rw [includes, if_neg (by simp [rawEqual, hne]), if_neg (by simp [Value.type])]

theorem includes_ends (ha : Acyclic h a) : ∃ n, ∀ fuel, n ≤ fuel → ∀ b, ∃ r,
    includes h fuel a b = some r ∧ (r = true ↔ Includes h a b) := by
  induction ha with
  | @leaf a hv =>
    refine ⟨1, fun fuel hle b => ?_⟩
    obtain ⟨fuel, rfl⟩ := Nat.exists_eq_add_of_le' hle
    by_cases hraw : rawEqual a b = true
    · exact ⟨true, includes_raw h fuel hraw, by simp [Includes.raw hraw]⟩
    · exact ⟨false, includes_leaf h fuel hraw (.inl hv), by simp [not_includes hraw (.inl hv)]⟩
  | @table t ht ih =>
    obtain ⟨n, hn⟩ := exists_bound _ ih
    refine ⟨n + 1, fun fuel hle b => ?_⟩
    obtain ⟨fuel, rfl⟩ := Nat.exists_eq_add_of_le' (show 1 ≤ fuel by omega)
    by_cases hraw : rawEqual (.table t) b = true
    · exact ⟨true, includes_raw h fuel hraw, by simp [Includes.raw hraw]⟩
    by_cases htype : b.type = .table
    · obtain ⟨b, rfl⟩ := exists_table htype
      have hne : t ≠ b := by simpa [rawEqual] using hraw
      obtain ⟨r, hr, hiff⟩ := includeFields_ends (h.get b)
        fun e he => hn e he fuel (by omega)
      refine ⟨r, by rw [includes_table h fuel hne, hr], hiff.trans ⟨.table, fun hin => ?_⟩⟩
      cases hin with
      | raw hab => exact absurd hab hraw
      | table hall => exact hall
    · exact ⟨false, includes_leaf h fuel hraw (.inr htype),
        by simp [not_includes hraw (.inr htype)]⟩

/-! ### Equal values -/

theorem Equal.symm (hab : Equal h a b) : Equal h b a := by
  induction hab with
  | raw hab =>
    obtain ⟨rfl, hself⟩ := rawEqual_iff.mp hab
    exact .raw (rawEqual_iff.mpr ⟨rfl, hself⟩)
  | table _ ih => exact .table ih

theorem Equal.trans (hab : Equal h a b) (hbc : Equal h b c) : Equal h a c := by
  induction hab generalizing c with
  | raw hab =>
    obtain ⟨rfl, -⟩ := rawEqual_iff.mp hab
    exact hbc
  | table hab ih =>
    cases hbc with
    | raw hbc =>
      obtain ⟨rfl, -⟩ := rawEqual_iff.mp hbc
      exact .table hab
    | table hbc => exact .table fun k => ih k (hbc k)

theorem Equal.includes (hab : Equal h a b) : Includes h a b := by
  induction hab with
  | raw hab => exact .raw hab
  | table _ ih => exact .table fun e he => get_of_mem he ▸ ih e.1

theorem eq_nil_of_includes (hin : Includes h a .nil) : a = .nil := by
  cases hin with
  | raw hab => exact (rawEqual_iff.mp hab).1

theorem equal_of_includes (ha : Acyclic h a) (hab : Includes h a b) (hba : Includes h b a) :
    Equal h a b := by
  induction ha generalizing b with
  | leaf hv =>
    cases hab with
    | raw hab => exact .raw hab
    | table => exact absurd rfl hv
  | @table t ht ih =>
    cases hab with
    | raw hab => exact .raw hab
    | @table _ s hab =>
      cases hba with
      | raw hba => exact Equal.symm (.raw hba)
      | table hba =>
        refine .table fun k => ?_
        rcases get_cases h t k with ⟨e, he, rfl, hget⟩ | hget
        · rw [hget]
          refine ih e he (hab e he) ?_
          rcases get_cases h s e.1 with ⟨f, hf, hkey, hget'⟩ | hget'
          · have hin := hba f hf
            rw [hkey, hget] at hin
            rwa [hget']
          · -- the other table has no such field
            have hin := hab e he
            rw [hget'] at hin
            exact absurd (eq_nil_of_includes hin) (h.present t e he)
        · rcases get_cases h s k with ⟨f, hf, rfl, -⟩ | hget'
          · have hin := hba f hf
            rw [hget] at hin
            exact absurd (eq_nil_of_includes hin) (h.present s f hf)
          · rw [hget, hget']
            exact .raw rfl

theorem compareDeep_ends (ha : Acyclic h a) (hb : Acyclic h b) :
    ∃ r, Compares h a b r ∧ (r = true ↔ Equal h a b) := by
  obtain ⟨n, hn⟩ := includes_ends ha
  obtain ⟨m, hm⟩ := includes_ends hb
  by_cases heq : Equal h a b
  · refine ⟨true, ⟨max n m, fun fuel hle => ?_⟩, by simp [heq]⟩
    obtain ⟨r, hr, hab⟩ := hn fuel (by omega) b
    obtain ⟨r', hr', hba⟩ := hm fuel (by omega) a
    rw [hab.mpr heq.includes] at hr
    rw [hba.mpr heq.symm.includes] at hr'
    rw [compareDeep, hr, hr']
  · refine ⟨false, ⟨max n m, fun fuel hle => ?_⟩, by simp [heq]⟩
    obtain ⟨r, hr, hab⟩ := hn fuel (by omega) b
    obtain ⟨r', hr', hba⟩ := hm fuel (by omega) a
    rw [compareDeep, hr]
    cases r with
    | false => rfl
    | true =>
      rw [hr']
      cases r' with
      | false => rfl
      | true => exact absurd (equal_of_includes ha (hab.mp rfl) (hba.mp rfl)) heq

theorem Compares.unique {r r' : Bool} (hr : Compares h a b r) (hr' : Compares h a b r') :
    r = r' := by
  obtain ⟨n, hn⟩ := hr
  obtain ⟨m, hm⟩ := hr'
  exact Option.some_inj.mp ((hn (max n m) (by omega)).symm.trans (hm (max n m) (by omega)))

theorem compares_iff (ha : Acyclic h a) (hb : Acyclic h b) :
    Compares h a b true ↔ Equal h a b := by
  obtain ⟨r, hr, hiff⟩ := compareDeep_ends ha hb
  refine ⟨fun htrue => hiff.mp (hr.unique htrue), fun heq => ?_⟩
  rwa [hiff.mpr heq] at hr

theorem SameTree.equal (hab : SameTree h a b) : Equal h a b := by
  induction hab with
  | leaf _ hab => exact .raw hab
  | table _ ih => exact .table ih

theorem noNan_table : NoNan h (.table t) ↔ ∀ k, NoNan h (h.get t k) := by
  rw [forall_get_iff (p := fun _ => NoNan h) fun _ => .leaf (by simp [Value.type]) (by simp)]
  refine ⟨fun hno => ?_, .table⟩
  cases hno with
  | leaf hv => exact absurd rfl hv
  | table ht => exact ht

theorem acyclic_table : Acyclic h (.table t) ↔ ∀ k, Acyclic h (h.get t k) := by
  rw [forall_get_iff (p := fun _ => Acyclic h) fun _ => .leaf (by simp [Value.type])]
  refine ⟨fun hno => ?_, .table⟩
  cases hno with
  | leaf hv => exact absurd rfl hv
  | table ht => exact ht

theorem NoNan.sameTree_self (ha : NoNan h a) : SameTree h a a := by
  induction ha with
  | leaf hv hself => exact .leaf hv (rawEqual_iff.mpr ⟨rfl, hself⟩)
  | table _ ih => exact .table ((forall_get_iff (p := fun _ v => SameTree h v v)
      fun _ => .leaf (by simp [Value.type]) rfl).mpr ih)

theorem NoNan.equal_iff (ha : NoNan h a) : Equal h a b ↔ SameTree h a b := by
  refine ⟨fun hab => ?_, SameTree.equal⟩
  induction hab with
  | raw hab =>
    obtain ⟨rfl, -⟩ := rawEqual_iff.mp hab
    exact ha.sameTree_self
  | table _ ih => exact .table fun k => ih k (noNan_table.mp ha k)

/-! ### What is copied -/

theorem get_congr {h h' : Heap κ} (ht : h'.fields t = h.fields t) (k : κ) :
    h'.get t k = h.get t k := by
  rw [Heap.get, Heap.get, ht]

theorem fields_assign_self (h : Heap κ) (t : Nat) (k : κ) (v : Value) :
    (h.assign t k v).fields t = assignField (h.fields t) k v :=
  Function.update_self ..

theorem get_assign_self (h : Heap κ) (t : Nat) (k : κ) (v : Value) :
    (h.assign t k v).get t k = v := by
  rw [Heap.get, fields_assign_self, assignField]
  split
  case isTrue hv => rw [AList.lookup_erase, hv]; rfl
  case isFalse => rw [AList.lookup_insert]; rfl

theorem get_assign_of_ne (h : Heap κ) (t : Nat) {k k' : κ} (v : Value) (hne : k' ≠ k) :
    (h.assign t k v).get t k' = h.get t k' := by
  rw [Heap.get, Heap.get, fields_assign_self, assignField]
  split
  · rw [AList.lookup_erase_ne hne]
  · rw [AList.lookup_insert_ne hne]

theorem fields_assign_of_ne (h : Heap κ) {t s : Nat} (k : κ) (v : Value) (hne : s ≠ t) :
    (h.assign t k v).fields s = h.fields s :=
  Function.update_of_ne hne _ _

theorem get_new (h : Heap κ) (k : κ) : h.new.get h.size k = .nil :=
  get_of_notMem (by simp [Heap.new])

omit [DecidableEq κ] in
theorem fields_new_of_lt (h : Heap κ) {s : Nat} (hs : s < h.size) :
    h.new.fields s = h.fields s :=
  Function.update_of_ne (Nat.ne_of_lt hs) _ _

theorem Copied.frame {h h' : Heap κ} {n lo hi lo' hi' : Nat} (hab : Copied h n lo hi a b)
    (hbelow : ∀ s, s < n → h'.fields s = h.fields s)
    (hcopy : ∀ s, lo ≤ s → s < hi → h'.fields s = h.fields s)
    (hlo : lo' ≤ lo) (hhi : hi ≤ hi') : Copied h' n lo' hi' a b := by
  induction hab with
  | leaf hv => exact .leaf hv
  | @table new t hfrom hto ht _ ih =>
    refine .table (by omega) (by omega) ht fun k => ?_
    rw [get_congr (hcopy new hfrom hto), get_congr (hbelow t ht)]
    exact ih k

variable {n lo hi : Nat}

theorem Copied.acyclic (hab : Copied h n lo hi a b) : Acyclic h a := by
  induction hab with
  | leaf hv => exact .leaf hv
  | table _ _ _ _ ih => exact acyclic_table.mpr ih

theorem Copied.acyclic_of (hab : Copied h n lo hi a b) : Acyclic h b := by
  induction hab with
  | leaf hv => exact .leaf hv
  | table _ _ _ _ ih => exact acyclic_table.mpr ih

theorem Copied.equal_iff (hab : Copied h n lo hi a b) (hlo : n ≤ lo) :
    Equal h a b ↔ NoNan h b := by
  induction hab with
  | @leaf v hv =>
    refine ⟨fun heq => ?_, fun hno => ?_⟩
    · cases heq with
      | raw hab => exact .leaf hv (rawEqual_iff.mp hab).2
      | table => exact absurd rfl hv
    · cases hno with
      | leaf _ hself => exact .raw (rawEqual_iff.mpr ⟨rfl, hself⟩)
      | table => exact absurd rfl hv
  | @table new t hfrom _ ht _ ih =>
    rw [noNan_table, ← forall_congr' ih]
    refine ⟨fun heq => ?_, .table⟩
    cases heq with
    | raw hab =>
      have hsame : new = t := by simpa using (rawEqual_iff.mp hab).1
      omega
    | table hall => exact hall

/-- What a call of `copy_deep` gives, from the heap `h` to `h'`. -/
structure Copies (n : Nat) (h : Heap κ) (t : Nat) (h' : Heap κ) : Prop where
  grows : h.size < h'.size
  below : ∀ s, s < h.size → h'.fields s = h.fields s
  copied : Copied h' n h.size h'.size (.table h.size) (.table t)

theorem copyFields_step {n : Nat} {call : Heap κ → Nat → Option (Heap κ × Nat)} (new : Nat)
    (h : Heap κ) (k : κ) (v : Value) (l : List (Sigma fun _ : κ => Value))
    (hcall : ∀ s, v = .table s → ∃ h', call h s = some (h', h.size) ∧ Copies n h s h') :
    ∃ h' w, copyFields call new (⟨k, v⟩ :: l) h = copyFields call new l (h'.assign new k w) ∧
      h.size ≤ h'.size ∧ (∀ s, s < h.size → h'.fields s = h.fields s) ∧
      Copied h' n h.size h'.size w v := by
  by_cases hv : v.type = .table
  · obtain ⟨s, rfl⟩ := exists_table hv
    obtain ⟨h', hrun, hcopies⟩ := hcall s rfl
    exact ⟨h', .table h.size, by rw [copyFields, hrun], hcopies.grows.le, hcopies.below,
      hcopies.copied⟩
  · refine ⟨h, v, ?_, le_rfl, fun _ _ => rfl, .leaf hv⟩
    cases v with
    | table => exact absurd rfl hv
    | _ => rfl

theorem copyFields_spec {old : Heap κ} {n new : Nat} {call : Heap κ → Nat → Option (Heap κ × Nat)}
    (hnew : n ≤ new) {l : List (Sigma fun _ : κ => Value)} (hl : l.NodupKeys)
    (hcall : ∀ e ∈ l, ∀ s, e.2 = .table s → ∀ h : Heap κ, n ≤ h.size →
      (∀ s, s < n → h.fields s = old.fields s) →
      ∃ h', call h s = some (h', h.size) ∧ Copies n h s h')
    (h : Heap κ) (hsize : new < h.size) (hold : ∀ s, s < n → h.fields s = old.fields s) :
    ∃ h', copyFields call new l h = some h' ∧ h.size ≤ h'.size ∧
      (∀ s, s < h.size → s ≠ new → h'.fields s = h.fields s) ∧
      (∀ e ∈ l, Copied h' n h.size h'.size (h'.get new e.1) e.2) ∧
      ∀ k, k ∉ l.keys → h'.get new k = h.get new k := by
  induction l generalizing h with
  | nil => exact ⟨h, rfl, le_rfl, fun _ _ _ => rfl, by simp, fun _ _ => rfl⟩
  | cons e l ih =>
    rw [List.nodupKeys_cons] at hl
    obtain ⟨k, v⟩ := e
    rw [List.forall_mem_cons] at hcall
    obtain ⟨h₁, w, hstep, hgrows, hbelow, hw⟩ := copyFields_step new h k v l
      fun s hs => hcall.1 s hs h (by omega) hold
    have hassign : ∀ s, s ≠ new → (h₁.assign new k w).fields s = h₁.fields s :=
      fun s hne => fields_assign_of_ne h₁ k w hne
    obtain ⟨h₂, hloop, hle, hframe, hcopied, hother⟩ := ih hl.2 hcall.2 (h₁.assign new k w)
      (hsize.trans_le hgrows)
      fun s hs => (hassign s (by omega)).trans ((hbelow s (by omega)).trans (hold s hs))
    have hfirst : h₂.get new k = w := (hother k hl.1).trans (get_assign_self h₁ new k w)
    have hkept : ∀ s, s < h₁.size → s ≠ new → h₂.fields s = h₁.fields s :=
      fun s hs hne => (hframe s hs hne).trans (hassign s hne)
    refine ⟨h₂, hstep.trans hloop, hgrows.trans hle,
      fun s hs hne => (hkept s (by omega) hne).trans (hbelow s hs), ?_, ?_⟩
    · refine List.forall_mem_cons.mpr ⟨?_, fun e he => (hcopied e he).frame (fun _ _ => rfl)
        (fun _ _ _ => rfl) hgrows le_rfl⟩
      rw [hfirst]
      exact hw.frame (fun s hs => hkept s (by omega) (by omega))
        (fun s hs hlt => hkept s hlt (by omega)) le_rfl hle
    · intro k' hk'
      rw [List.keys_cons, List.mem_cons, not_or] at hk'
      rw [hother k' hk'.2, get_assign_of_ne h₁ new w hk'.1, get_congr (hbelow new hsize)]

theorem copyDeep_ends {old : Heap κ} (hclosed : old.Closed) (ht : t < old.size)
    (ha : Acyclic old (.table t)) :
    ∃ n, ∀ fuel, n ≤ fuel → ∀ h : Heap κ, old.size ≤ h.size →
      (∀ s, s < old.size → h.fields s = old.fields s) →
      ∃ h', copyDeep fuel h t none = some (h', h.size) ∧ Copies old.size h t h' := by
  generalize hv : Value.table t = v at ha
  induction ha generalizing t with
  | leaf htype => exact absurd (hv ▸ rfl) htype
  | @table t' hfields ih =>
    obtain rfl : t = t' := by simpa using hv
    have hbound : ∀ e ∈ (old.fields t).entries, ∃ n, ∀ fuel, n ≤ fuel →
        ∀ s, e.2 = .table s → ∀ h : Heap κ, old.size ≤ h.size →
          (∀ s, s < old.size → h.fields s = old.fields s) →
          ∃ h', copyDeep fuel h s none = some (h', h.size) ∧ Copies old.size h s h' := by
      intro e he
      by_cases hs : ∃ s, e.2 = .table s
      · obtain ⟨s, hs⟩ := hs
        obtain ⟨n, hn⟩ := ih e he (hclosed t ht e he s hs) hs.symm
        refine ⟨n, fun fuel hle s' hs' => ?_⟩
        obtain rfl : s = s' := by simpa [hs] using hs'
        exact hn fuel hle
      · exact ⟨0, fun _ _ s hs' => absurd ⟨s, hs'⟩ hs⟩
    obtain ⟨n, hn⟩ := exists_bound _ hbound
    refine ⟨n + 1, fun fuel hle h hsize hold => ?_⟩
    obtain ⟨fuel, rfl⟩ := Nat.exists_eq_add_of_le' (show 1 ≤ fuel by omega)
    have hentries : (h.new.fields t).entries = (old.fields t).entries := by
      rw [fields_new_of_lt h (by omega), hold t ht]
    obtain ⟨h', hloop, hgrows, hframe, hcopied, hother⟩ := copyFields_spec (n := old.size) hsize
      (old.fields t).nodupKeys (fun e he => hn e he fuel (by omega)) h.new (Nat.lt_succ_self _)
      fun s hs => (fields_new_of_lt h (by omega)).trans (hold s hs)
    have hbelow : ∀ s, s < h.size → h'.fields s = h.fields s := fun s hs =>
      (hframe s (Nat.lt_succ_of_lt hs) hs.ne).trans (fields_new_of_lt h hs)
    refine ⟨h', ?_, hgrows, hbelow, .table le_rfl hgrows ht fun k => ?_⟩
    · unfold copyDeep
      simp only [Option.getD_none, hentries, hloop]
    · rw [get_congr ((hbelow t (by omega)).trans (hold t ht))]
      by_cases hk : k ∈ (old.fields t).entries.keys
      · obtain ⟨e, he, rfl⟩ := List.mem_map.mp hk
        rw [get_of_mem he]
        exact (hcopied e he).frame (fun _ _ => rfl) (fun _ _ _ => rfl) (Nat.le_succ _) le_rfl
      · rw [hother k hk, get_new, get_of_notMem hk]
        exact .leaf (by simp [Value.type])

theorem noNan_frame {h h' : Heap κ} (hclosed : h.Closed)
    (hbelow : ∀ s, s < h.size → h'.fields s = h.fields s) (ha : Acyclic h a)
    (hin : ∀ s, a = .table s → s < h.size) : NoNan h' a ↔ NoNan h a := by
  induction ha with
  | @leaf v hv =>
    refine ⟨fun hno => ?_, fun hno => ?_⟩
    · cases hno with
      | leaf _ hself => exact .leaf hv hself
      | table => exact absurd rfl hv
    · cases hno with
      | leaf _ hself => exact .leaf hv hself
      | table => exact absurd rfl hv
  | @table t _ ih =>
    have ht : t < h.size := hin t rfl
    rw [noNan_table, noNan_table]
    refine forall_congr' fun k => ?_
    rw [get_congr (hbelow t ht)]
    rcases get_cases h t k with ⟨e, he, -, hget⟩ | hget
    · rw [hget]
      exact ih e he fun s hs => hclosed t ht e he s hs
    · have hleaf : Value.nil.type ≠ .table := by simp [Value.type]
      rw [hget]
      exact ⟨fun _ => .leaf hleaf (by simp), fun _ => .leaf hleaf (by simp)⟩

/-- `compare_deep` on finite trees ends and is true exactly on equal ones, where a table is equal
to itself: it is reflexive, symmetric and transitive, and the equality of trees unless a leaf is
not equal to itself; a copy is equal to what it was made of exactly when there is no such leaf. -/
theorem compare_deep_iff (h : Heap κ) (hclosed : h.Closed) :
    (∀ a b, Acyclic h (.table a) → Acyclic h (.table b) →
      (∃ r, Compares h (.table a) (.table b) r) ∧
      (Compares h (.table a) (.table b) true ↔ Equal h (.table a) (.table b)) ∧
      (NoNan h (.table a) →
        (Compares h (.table a) (.table b) true ↔ SameTree h (.table a) (.table b)))) ∧
    (∀ a, Acyclic h (.table a) → Compares h (.table a) (.table a) true) ∧
    (∀ a b, Acyclic h (.table a) → Acyclic h (.table b) →
      Compares h (.table a) (.table b) true → Compares h (.table b) (.table a) true) ∧
    (∀ a b c, Acyclic h (.table a) → Acyclic h (.table b) → Acyclic h (.table c) →
      Compares h (.table a) (.table b) true → Compares h (.table b) (.table c) true →
      Compares h (.table a) (.table c) true) ∧
    ∀ a, a < h.size → Acyclic h (.table a) → ∃ n, ∀ fuel, n ≤ fuel → ∃ h',
      copyDeep fuel h a none = some (h', h.size) ∧
      (Compares h' (.table h.size) (.table a) true ↔ NoNan h (.table a)) := by
  refine ⟨fun a b ha hb => ?_, fun a ha => ?_, fun a b ha hb hab => ?_,
    fun a b c ha hb hc hab hbc => ?_, fun a hlt ha => ?_⟩
  · obtain ⟨r, hr, -⟩ := compareDeep_ends ha hb
    exact ⟨⟨r, hr⟩, compares_iff ha hb, fun hno => (compares_iff ha hb).trans hno.equal_iff⟩
  · exact (compares_iff ha ha).mpr (.raw (rawEqual_iff.mpr ⟨rfl, by simp⟩))
  · exact (compares_iff hb ha).mpr ((compares_iff ha hb).mp hab).symm
  · exact (compares_iff ha hc).mpr
      (((compares_iff ha hb).mp hab).trans ((compares_iff hb hc).mp hbc))
  · obtain ⟨n, hn⟩ := copyDeep_ends hclosed hlt ha
    refine ⟨n, fun fuel hle => ?_⟩
    obtain ⟨h', hrun, hcopies⟩ := hn fuel hle h le_rfl fun _ _ => rfl
    have hcopied := hcopies.copied
    refine ⟨h', hrun, (compares_iff hcopied.acyclic hcopied.acyclic_of).trans
      ((hcopied.equal_iff le_rfl).trans ?_)⟩
    exact noNan_frame hclosed hcopies.below ha fun s hs => by
      obtain rfl : a = s := by simpa using hs
      exact hlt

def twoFields (v : Number) (t : Nat) : Fields Nat :=
  if t < 2 then (∅ : Fields Nat).insert 1 (.number v) else ∅

theorem twoFields_leaf {v : Number} {e : Sigma fun _ : Nat => Value}
    (he : e ∈ (twoFields v t).entries) : e.2 = .number v := by
  rw [twoFields] at he
  split at he
  · simp_all
  · simp at he

/-- `{v}` and `{v}`. -/
def twoHeap (v : Number) : Heap Nat where
  fields := twoFields v
  size := 2
  present t e he := by simp [twoFields_leaf he]

theorem twoHeap_closed (v : Number) : (twoHeap v).Closed := by
  intro t _ e he s hs
  rw [twoFields_leaf he] at hs
  cases hs

theorem twoHeap_acyclic (v : Number) (t : Nat) : Acyclic (twoHeap v) (.table t) :=
  .table fun e he => .leaf (by simp [twoFields_leaf he, Value.type])

theorem compare_deep_iff_five :
    Compares (twoHeap (.finite 5)) (.table 0) (.table 1) true ∧
    ∃ n, ∀ fuel, n ≤ fuel → ∃ h', copyDeep fuel (twoHeap (.finite 5)) 0 none = some (h', 2) ∧
      Compares h' (.table 2) (.table 0) true := by
  obtain ⟨hpair, -, -, -, hcopy⟩ := compare_deep_iff _ (twoHeap_closed (.finite 5))
  have hno : ∀ t, NoNan (twoHeap (.finite 5)) (.table t) := fun t =>
    .table fun e he => .leaf (by simp [twoFields_leaf he, Value.type]) (by simp [twoFields_leaf he])
  have hacyclic := twoHeap_acyclic (.finite 5)
  refine ⟨((hpair 0 1 (hacyclic 0) (hacyclic 1)).2.1).mpr (.table fun k => ?_), ?_⟩
  · exact (noNan_table.mp (hno 0) k).sameTree_self.equal
  · obtain ⟨n, hn⟩ := hcopy 0 (by decide) (hacyclic 0)
    refine ⟨n, fun fuel hle => ?_⟩
    obtain ⟨h', hrun, hiff⟩ := hn fuel hle
    exact ⟨h', hrun, hiff.mpr (hno 0)⟩

/-- `{0/0}` differs from its copy. -/
theorem nan_differs : Acyclic (twoHeap .nan) (.table 0) ∧ ∃ h', ∀ fuel,
    copyDeep (fuel + 2) (twoHeap .nan) 0 none = some (h', 2) ∧
    compareDeep h' (fuel + 2) (.table 2) (.table 0) = some false :=
  ⟨twoHeap_acyclic .nan 0, _, fun _ => ⟨rfl, rfl⟩⟩

end XsServer.Extend
