import XsServer.Handle.Storage
import XsServer.Lib.Bytes
import XsServer.Lib.Results
import Mathlib.Data.List.Induction

/-! The directory of names of `skynet_handle.c`: the array `name` of `struct handle_storage`, sorted
by `strcmp`, with the names that are given to handles and that go with them. -/

namespace XsServer.Handle.Names

open Lib

/-- A C string: the bytes before the terminating zero. -/
structure CString where
  bytes : List UInt8
  terminated : 0 ∉ bytes
  deriving DecidableEq

def strcmpBytes : List UInt8 → List UInt8 → Int
  | [], [] => 0
  | [], b :: _ => 0 - b.toNat
  | a :: _, [] => a.toNat - 0
  | a :: as, b :: bs => if a = b then strcmpBytes as bs else (a.toNat : Int) - b.toNat

def strcmp (a b : CString) : Int := strcmpBytes a.bytes b.bytes

def MAX_SLOT_SIZE : Nat := 0x40000000

/-- `struct handle_name` -/
structure HandleName where
  name : CString
  handle : Nat

/-- How a call stops the process, or leaves what C defines. -/
inductive Stop
  /-- `assert(s->name_cap <= MAX_SLOT_SIZE)` -/
  | assertion
  /-- `name_cap *= 2` past the largest `int` -/
  | overflow
  /-- An access outside the array, or to an entry that was never written. -/
  | bounds
  deriving DecidableEq

variable {κ : Type}

/-- The fields of `struct handle_storage` that names need; `none` is an entry that was never
written. -/
structure Storage (κ : Type) where
  slot : List (Option κ)
  nameCap : Nat
  nameCount : Nat
  name : List (Option HandleName)

def skynetHandleInit : Storage κ where
  slot := List.replicate DEFAULT_SLOT_SIZE none
  nameCap := 2
  nameCount := 0
  name := List.replicate 2 none

def entryAt (name : List (Option HandleName)) (i : Nat) : Except Stop HandleName :=
  match name[i]? with
  | some (some n) => .ok n
  | _ => .error .bounds

def put (name : List (Option HandleName)) (i : Nat) (n : HandleName) :
    Except Stop (List (Option HandleName)) :=
  if i < name.length then .ok (name.set i (some n)) else .error .bounds

/-- What a search ends with: the handle of the name, or the last value of `begin`. -/
inductive Found
  | handle (handle : Nat)
  | missing (begin : Nat)

/-- The loop of `skynet_handle_findname` and of `_insert_name`. -/
def searchLoop (name : List (Option HandleName)) (key : CString) (begin : Nat) (last : Int) :
    Except Stop Found :=
  if (begin : Int) ≤ last then
    let mid := ((begin + last) / 2).toNat
    match entryAt name mid with
    | .error e => .error e
    | .ok n =>
      let c := strcmp n.name key
      if c = 0 then .ok (.handle n.handle)
      else if c < 0 then searchLoop name key (mid + 1) last
      else searchLoop name key begin (mid - 1)
  else .ok (.missing begin)
termination_by (last + 1 - begin).toNat
decreasing_by all_goals omega

def skynetHandleFindname (s : Storage κ) (name : CString) : Except Stop Nat := do
  match ← searchLoop s.name name 0 (s.nameCount - 1) with
  | .handle handle => return handle
  | .missing _ => return 0

/-- `for (i=first;i<last;i++) n[i+gap] = s->name[i]`, for so many rounds from `i` on. -/
def copyLoop (name : List (Option HandleName)) (gap : Nat) : Nat → Nat →
    List (Option HandleName) → Except Stop (List (Option HandleName))
  | 0, _, n => .ok n
  | rounds + 1, i, n => do
    let entry ← entryAt name i
    let n ← put n (i + gap) entry
    copyLoop name gap rounds (i + 1) n

/-- `for (;i>before;i--) s->name[i] = s->name[i-1]`, for so many rounds. -/
def shiftLoop (before : Nat) : Nat → List (Option HandleName) →
    Except Stop (List (Option HandleName))
  | 0, name => .ok name
  | rounds + 1, name => do
    let entry ← entryAt name (before + rounds)
    let name ← put name (before + rounds + 1) entry
    shiftLoop before rounds name

/-- The capacity after `name_cap *= 2` and the assertion. -/
def doubleCap (nameCap : Nat) : Except Stop Nat :=
  if INT_MAX < nameCap * 2 then .error .overflow
  else if nameCap * 2 ≤ MAX_SLOT_SIZE then .ok (nameCap * 2)
  else .error .assertion

/-- The array with room for the entry `before`. -/
def makeRoom (s : Storage κ) (before : Nat) : Except Stop (Storage κ) :=
  if s.nameCount ≥ s.nameCap then do
    let nameCap ← doubleCap s.nameCap
    let n ← copyLoop s.name 0 before 0 (List.replicate nameCap none)
    let n ← copyLoop s.name 1 (s.nameCount - before) before n
    return { s with nameCap := nameCap, name := n }
  else do
    let name ← shiftLoop before (s.nameCount - before) s.name
    return { s with name := name }

/-- `_insert_name_before` -/
def insertNameBefore (s : Storage κ) (name : CString) (handle before : Nat) :
    Except Stop (Storage κ) := do
  let s ← makeRoom s before
  let entries ← put s.name before ⟨name, handle⟩
  return { s with name := entries, nameCount := s.nameCount + 1 }

/-- `_insert_name`; `none` is `NULL`. -/
def insertName (s : Storage κ) (name : CString) (handle : Nat) :
    Except Stop (Option CString × Storage κ) := do
  match ← searchLoop s.name name 0 (s.nameCount - 1) with
  | .handle _ => return (none, s)
  | .missing begin =>
    let s ← insertNameBefore s name handle begin
    return (some name, s)

def skynetHandleNamehandle (handle : Nat) (name : CString) (s : Storage κ) :
    Except Stop (Option CString × Storage κ) :=
  insertName s name handle

/-- `if (i!=j) s->name[j] = s->name[i]` -/
def moveDown (i j : Nat) (n : HandleName) (name : List (Option HandleName)) :
    Except Stop (List (Option HandleName)) :=
  if i ≠ j then put name j n else .ok name

/-- The loop of `skynet_handle_retire` over the names, for the rounds that are left. -/
def retireLoop (handle : Nat) : Nat → Nat → Nat → List (Option HandleName) →
    Except Stop (Nat × List (Option HandleName))
  | 0, _, j, name => .ok (j, name)
  | rounds + 1, i, j, name => do
    let n ← entryAt name i
    if n.handle = handle then retireLoop handle rounds (i + 1) j name
    else
      let name ← moveDown i j n name
      retireLoop handle rounds (i + 1) (j + 1) name

def live (handleOf : κ → Nat) (handle : Nat) (slot : List (Option κ)) : Bool :=
  match slotAt slot (hash slot.length handle) with
  | some ctx => handleOf ctx = handle
  | none => false

/-- `ret`, and the storage after the call. -/
def skynetHandleRetire (handleOf : κ → Nat) (handle : Nat) (s : Storage κ) :
    Except Stop (Nat × Storage κ) :=
  if live handleOf handle s.slot then do
    let (j, name) ← retireLoop handle s.nameCount 0 0 s.name
    return (1,
      { s with
        slot := s.slot.set (hash s.slot.length handle) none
        nameCount := j
        name := name })
  else .ok (0, s)

theorem toNat_pos {b : UInt8} {bs : List UInt8} (h : 0 ∉ b :: bs) : 0 < b.toNat := by
  refine Nat.pos_of_ne_zero fun hb => h ?_
  rw [← UInt8.toNat_inj.mp (show b.toNat = (0 : UInt8).toNat from hb)]
  exact List.mem_cons_self

theorem strcmpBytes_eq_zero {as bs : List UInt8} (ha : 0 ∉ as) (hb : 0 ∉ bs) :
    strcmpBytes as bs = 0 ↔ as = bs := by
  fun_induction strcmpBytes as bs with
  | case1 => simp
  | case2 b bs =>
    have := toNat_pos hb
    exact iff_of_false (by omega) (by simp)
  | case3 a as =>
    have := toNat_pos ha
    exact iff_of_false (by omega) (by simp)
  | case4 a as bs ih =>
    rw [ih (fun h => ha (List.mem_cons_of_mem _ h)) (fun h => hb (List.mem_cons_of_mem _ h))]
    simp
  | case5 a as b bs hne =>
    have : a.toNat ≠ b.toNat := fun h => hne (UInt8.toNat_inj.mp h)
    exact iff_of_false (by omega) (by simp [hne])

theorem strcmpBytes_neg (as bs : List UInt8) : strcmpBytes as bs = - strcmpBytes bs as := by
  fun_induction strcmpBytes as bs with
  | case1 => rfl
  | case2 b bs | case3 a as => rw [strcmpBytes]; omega
  | case4 a as bs ih => rw [strcmpBytes, if_pos rfl, ih]
  | case5 a as b bs hne => rw [strcmpBytes, if_neg (Ne.symm hne)]; omega

theorem strcmpBytes_trans {as bs cs : List UInt8} (hc : 0 ∉ cs) (hab : strcmpBytes as bs < 0)
    (hbc : strcmpBytes bs cs < 0) : strcmpBytes as cs < 0 := by
  fun_induction strcmpBytes as bs generalizing cs with
  | case1 => exact absurd hab (by decide)
  | case2 b bs =>
    cases cs with
    | nil => rw [strcmpBytes] at hbc; omega
    | cons c cs =>
      have := toNat_pos hc
      rw [strcmpBytes]
      omega
  | case3 a as => omega
  | case4 a as bs ih =>
    cases cs with
    | nil => rw [strcmpBytes] at hbc; omega
    | cons c cs =>
      rw [strcmpBytes] at hbc ⊢
      split at hbc
      · rw [if_pos (by assumption)]
        exact ih (fun h => hc (List.mem_cons_of_mem _ h)) hab hbc
      · rwa [if_neg (by assumption)]
  | case5 a as b bs hne =>
    cases cs with
    | nil => rw [strcmpBytes] at hbc; omega
    | cons c cs =>
      have hlt : b.toNat ≤ c.toNat := by
        rw [strcmpBytes] at hbc
        split at hbc
        · rename_i hbc'
          exact hbc' ▸ Nat.le_refl _
        · omega
      have hac : a ≠ c := by
        rintro rfl
        omega
      rw [strcmpBytes, if_neg hac]
      omega

theorem strcmp_eq_zero {a b : CString} : strcmp a b = 0 ↔ a = b := by
  rw [strcmp, strcmpBytes_eq_zero a.terminated b.terminated]
  cases a
  cases b
  simp

theorem strcmp_neg (a b : CString) : strcmp a b = - strcmp b a := strcmpBytes_neg _ _

theorem strcmp_trans {a b c : CString} (hab : strcmp a b < 0) (hbc : strcmp b c < 0) :
    strcmp a c < 0 := strcmpBytes_trans c.terminated hab hbc

theorem entryAt_append {name : List (Option HandleName)} {n : HandleName} {i : Nat}
    (before after : List (Option HandleName)) (hname : name = before ++ some n :: after)
    (hi : i = before.length) : entryAt name i = .ok n := by
  subst hname hi
  rw [entryAt, List.getElem?_append_right (Nat.le_refl _), Nat.sub_self]
  rfl

theorem put_append {name : List (Option HandleName)} {i : Nat} (n : HandleName)
    (before : List (Option HandleName)) (x : Option HandleName)
    (after : List (Option HandleName)) (hname : name = before ++ x :: after)
    (hi : i = before.length) : put name i n = .ok (before ++ some n :: after) := by
  subst hname hi
  rw [put, if_pos (by simp), List.set_append_right _ _ (Nat.le_refl _), Nat.sub_self]
  rfl

/-- The entries from a position on move up by one, over whatever was behind them. -/
theorem shiftLoop_eq (before : List (Option HandleName)) (entries : List HandleName)
    (x : Option HandleName) (after : List (Option HandleName)) :
    ∃ y, shiftLoop before.length entries.length (before ++ (entries.map some ++ x :: after)) =
      .ok (before ++ y :: (entries.map some ++ after)) := by
  induction entries using List.reverseRecOn generalizing x after with
  | nil => exact ⟨x, rfl⟩
  | append_singleton entries n ih =>
    obtain ⟨y, hy⟩ := ih (some n) (some n :: after)
    have hread : entryAt (before ++ ((entries ++ [n]).map some ++ x :: after))
        (before.length + entries.length) = .ok n :=
      entryAt_append (before ++ entries.map some) (x :: after) (by simp) (by simp)
    have hput : put (before ++ ((entries ++ [n]).map some ++ x :: after))
        (before.length + entries.length + 1) n =
          .ok (before ++ (entries.map some ++ some n :: some n :: after)) := by
      rw [put_append n (before ++ (entries.map some ++ [some n])) x after (by simp)
        (by simp; omega)]
      simp
    refine ⟨y, ?_⟩
    rw [List.length_append, List.length_singleton, shiftLoop, hread, ok_bind, hput, ok_bind, hy]
    simp

theorem copyLoop_eq {name skipped rest front covered back : List (Option HandleName)} {gap i : Nat}
    (entries : List HandleName) (hname : name = skipped ++ (entries.map some ++ rest))
    (hi : i = skipped.length) (hfront : front.length = i + gap)
    (hcovered : covered.length = entries.length) :
    copyLoop name gap entries.length i (front ++ (covered ++ back)) =
      .ok (front ++ (entries.map some ++ back)) := by
  induction entries generalizing i skipped front covered with
  | nil =>
    rw [List.length_eq_zero_iff.mp hcovered]
    rfl
  | cons n entries ih =>
    obtain ⟨x, covered, rfl⟩ := List.exists_cons_of_length_eq_add_one hcovered
    have hread : entryAt name i = .ok n := entryAt_append _ _ hname hi
    have hput : put (front ++ (x :: covered ++ back)) (i + gap) n =
        .ok (front ++ some n :: (covered ++ back)) := put_append n _ x _ rfl hfront.symm
    have hname' : name = (skipped ++ [some n]) ++ (entries.map some ++ rest) := by
      rw [hname]
      simp
    have hi' : i + 1 = (skipped ++ [some n]).length := by simp [hi]
    have hfront' : (front ++ [some n]).length = i + 1 + gap := by
      rw [List.length_append, hfront, List.length_singleton]
      omega
    have hnext := ih hname' hi' hfront' (Nat.succ.inj hcovered)
    simp only [List.append_assoc, List.singleton_append] at hnext
    rw [List.length_cons, copyLoop, hread, ok_bind, hput, ok_bind, hnext]
    simp

theorem retireLoop_eq (handle : Nat) (kept entries : List HandleName)
    (dropped rest : List (Option HandleName)) :
    ∃ back, retireLoop handle entries.length (kept.length + dropped.length) kept.length
        (kept.map some ++ (dropped ++ (entries.map some ++ rest))) =
      .ok ((kept ++ entries.filter (·.handle ≠ handle)).length,
        (kept ++ entries.filter (·.handle ≠ handle)).map some ++ back) ∧
      (entries.filter (·.handle ≠ handle)).length + back.length =
        dropped.length + entries.length + rest.length := by
  induction entries generalizing kept dropped with
  | nil => exact ⟨dropped ++ rest, by simp [retireLoop], by simp⟩
  | cons n entries ih =>
    have hread : entryAt (kept.map some ++ (dropped ++ ((n :: entries).map some ++ rest)))
        (kept.length + dropped.length) = .ok n :=
      entryAt_append (kept.map some ++ dropped) (entries.map some ++ rest) (by simp) (by simp)
    rw [List.length_cons, retireLoop, hread, ok_bind]
    by_cases hn : n.handle = handle
    · obtain ⟨back, hback, hlen⟩ := ih kept (dropped ++ [some n])
      rw [if_pos hn, List.filter_cons_of_neg (by simpa using hn)]
      refine ⟨back, ?_, ?_⟩
      · rw [← hback, List.length_append, List.length_singleton, ← Nat.add_assoc]
        simp
      · rw [List.length_append, List.length_singleton] at hlen
        omega
    · rw [if_neg hn, List.filter_cons_of_pos (by simpa using hn)]
      cases dropped with
      | nil =>
        obtain ⟨back, hback, hlen⟩ := ih (kept ++ [n]) []
        refine ⟨back, ?_, ?_⟩
        · rw [List.length_nil, Nat.add_zero, moveDown, if_neg (not_not.mpr rfl), ok_bind]
          simpa using hback
        · simp only [List.length_nil, List.length_cons] at hlen ⊢
          omega
      | cons d dropped =>
        obtain ⟨back, hback, hlen⟩ := ih (kept ++ [n]) (dropped ++ [some n])
        have hput : put (kept.map some ++ (d :: dropped ++ ((n :: entries).map some ++ rest)))
            kept.length n =
              .ok (kept.map some ++ some n :: (dropped ++ ((n :: entries).map some ++ rest))) :=
          put_append n _ d _ rfl (by simp)
        refine ⟨back, ?_, ?_⟩
        · have hi : kept.length + (d :: dropped).length + 1 =
              (kept ++ [n]).length + (dropped ++ [some n]).length := by
            simp only [List.length_append, List.length_cons, List.length_nil]
            omega
          rw [moveDown, if_pos (by simp), hput, ok_bind, hi]
          simpa using hback
        · simp only [List.length_append, List.length_cons, List.length_nil] at hlen ⊢
          omega

def Sorted (names : List HandleName) : Prop :=
  names.Pairwise fun m n => strcmp m.name n.name < 0

variable {names : List HandleName}

theorem entryAt_names {name back : List (Option HandleName)}
    (hname : name = names.map some ++ back) {i : Nat} (hi : i < names.length) :
    entryAt name i = .ok names[i] := by
  rw [entryAt, hname, List.getElem?_append_left (by simpa using hi), List.getElem?_map,
    List.getElem?_eq_getElem hi]
  rfl

theorem forall_take_drop {α : Type*} {l : List α} {k : Nat} {P Q : α → Prop}
    (hlow : ∀ i (hi : i < l.length), i < k → P l[i])
    (hhigh : ∀ i (hi : i < l.length), k ≤ i → Q l[i]) :
    (∀ a ∈ l.take k, P a) ∧ ∀ a ∈ l.drop k, Q a := by
  constructor
  · intro a ha
    obtain ⟨i, hi, rfl⟩ := List.getElem_of_mem ha
    rw [List.length_take] at hi
    rw [List.getElem_take]
    exact hlow i (by omega) (by omega)
  · intro a ha
    obtain ⟨i, hi, rfl⟩ := List.getElem_of_mem ha
    rw [List.length_drop] at hi
    rw [List.getElem_drop]
    exact hhigh _ (by omega) (by omega)

variable {key : CString}

theorem searchLoop_spec {name back : List (Option HandleName)}
    {begin : Nat} {last : Int} (hname : name = names.map some ++ back)
    (hsorted : Sorted names) (hbegin : (begin : Int) ≤ last + 1) (hlast : last < names.length)
    (hlow : ∀ i (hi : i < names.length), i < begin → strcmp names[i].name key < 0)
    (hhigh : ∀ i (hi : i < names.length), last < (i : Int) → strcmp key names[i].name < 0) :
    (∃ n ∈ names, n.name = key ∧ searchLoop name key begin last = .ok (.handle n.handle)) ∨
      ∃ before after, names = before ++ after ∧ (∀ n ∈ before, strcmp n.name key < 0) ∧
        (∀ n ∈ after, strcmp key n.name < 0) ∧
        searchLoop name key begin last = .ok (.missing before.length) := by
  have hlt := List.pairwise_iff_getElem.mp hsorted
  fun_induction searchLoop name key begin last with
  | case1 begin last hle mid e he =>
    rw [entryAt_names hname (show mid < names.length by omega)] at he
    cases he
  | case2 begin last hle mid n hn c hzero =>
    have hmid : mid < names.length := by omega
    rw [entryAt_names hname hmid] at hn
    cases hn
    exact .inl ⟨names[mid], List.getElem_mem hmid, strcmp_eq_zero.mp hzero, rfl⟩
  | case3 begin last hle mid n hn c hne hless ih =>
    have hmid : mid < names.length := by omega
    rw [entryAt_names hname hmid] at hn
    cases hn
    refine ih (by omega) hlast (fun i hi hi' => ?_) hhigh
    obtain h | rfl := Nat.lt_or_eq_of_le (Nat.le_of_lt_succ hi')
    · exact strcmp_trans (hlt i mid hi hmid h) hless
    · exact hless
  | case4 begin last hle mid n hn c hne hnotless ih =>
    have hmid : mid < names.length := by omega
    rw [entryAt_names hname hmid] at hn
    cases hn
    have hgreater : strcmp key names[mid].name < 0 := by
      rw [strcmp_neg]
      omega
    refine ih (by omega) (by omega) hlow (fun i hi hi' => ?_)
    obtain h | rfl := Nat.lt_or_eq_of_le (show mid ≤ i by omega)
    · exact strcmp_trans hgreater (hlt mid i hmid hi h)
    · exact hgreater
  | case5 begin last hgt =>
    have hfrom : ∀ i (hi : i < names.length), begin ≤ i → strcmp key names[i].name < 0 :=
      fun i hi hle => hhigh i hi (by omega)
    obtain ⟨hbefore, hafter⟩ := forall_take_drop
      (P := fun n : HandleName => strcmp n.name key < 0)
      (Q := fun n : HandleName => strcmp key n.name < 0) hlow hfrom
    refine .inr ⟨names.take begin, names.drop begin, (List.take_append_drop ..).symm, hbefore,
      hafter, ?_⟩
    rw [List.length_take_of_le (by omega)]

/-! ### What the calls do to a directory -/

structure Holds (s : Storage κ) (names : List HandleName) : Prop where
  written : ∃ back, s.name = names.map some ++ back
  count : s.nameCount = names.length
  cap : s.name.length = s.nameCap
  form : ∃ k, 1 ≤ k ∧ k ≤ 30 ∧ s.nameCap = 2 ^ k
  sorted : Sorted names

theorem holds_init : Holds (skynetHandleInit : Storage κ) [] where
  written := ⟨_, rfl⟩
  count := rfl
  cap := rfl
  form := ⟨1, by decide, by decide, rfl⟩
  sorted := .nil

variable {s : Storage κ}

theorem Holds.search (h : Holds s names)
    (key : CString) :
    (∃ n ∈ names, n.name = key ∧
        searchLoop s.name key 0 (s.nameCount - 1) = .ok (.handle n.handle)) ∨
      ∃ before after, names = before ++ after ∧ (∀ n ∈ before, strcmp n.name key < 0) ∧
        (∀ n ∈ after, strcmp key n.name < 0) ∧
        searchLoop s.name key 0 (s.nameCount - 1) = .ok (.missing before.length) := by
  obtain ⟨back, hname⟩ := h.written
  rw [h.count]
  exact searchLoop_spec hname h.sorted (by omega) (by omega) (fun i hi hi' => by omega)
    (fun i hi hi' => by omega)

theorem Sorted.eq_of_name (h : Sorted names) {m n : HandleName}
    (hm : m ∈ names) (hn : n ∈ names) (hname : m.name = n.name) : m = n := by
  have hlt := List.pairwise_iff_getElem.mp h
  have hself : strcmp m.name n.name = 0 := strcmp_eq_zero.mpr hname
  have hself' : strcmp n.name m.name = 0 := strcmp_eq_zero.mpr hname.symm
  obtain ⟨i, hi, rfl⟩ := List.getElem_of_mem hm
  obtain ⟨j, hj, rfl⟩ := List.getElem_of_mem hn
  obtain hij | rfl | hij := Nat.lt_trichotomy i j
  · have := hlt i j hi hj hij
    omega
  · rfl
  · have := hlt j i hj hi hij
    omega

def lookup (names : List HandleName) (key : CString) : Option Nat :=
  (names.find? (·.name = key)).map (·.handle)

variable {handle : Nat}

theorem Sorted.lookup_eq_some (h : Sorted names) :
    lookup names key = some handle ↔ ⟨key, handle⟩ ∈ names := by
  rw [lookup, Option.map_eq_some_iff]
  constructor
  · rintro ⟨n, hn, rfl⟩
    have hname : n.name = key := by simpa using List.find?_some hn
    rw [← hname]
    exact List.mem_of_find?_eq_some hn
  · intro hmem
    cases hfind : names.find? (·.name = key) with
    | none =>
      have hne := List.find?_eq_none.mp hfind _ hmem
      simp at hne
    | some n =>
      have hname : n.name = key := by simpa using List.find?_some hfind
      have heq := h.eq_of_name (List.mem_of_find?_eq_some hfind) hmem hname
      exact ⟨n, rfl, by rw [heq]⟩

theorem lookup_eq_none :
    lookup names key = none ↔ ∀ n ∈ names, n.name ≠ key := by
  rw [lookup, Option.map_eq_none_iff, List.find?_eq_none]
  simp

variable {before after : List HandleName}

theorem lookup_between
    (hbefore : ∀ n ∈ before, strcmp n.name key < 0) (hafter : ∀ n ∈ after, strcmp key n.name < 0) :
    lookup (before ++ after) key = none := by
  rw [lookup_eq_none]
  rintro n hn rfl
  have hself : strcmp n.name n.name = 0 := strcmp_eq_zero.mpr rfl
  obtain hn | hn := List.mem_append.mp hn
  · have := hbefore n hn
    omega
  · have := hafter n hn
    omega

theorem Holds.findname (h : Holds s names)
    (key : CString) :
    skynetHandleFindname s key = .ok ((lookup names key).getD 0) := by
  obtain ⟨n, hn, rfl, hsearch⟩ | ⟨before, after, hnames, hbefore, hafter, hsearch⟩ := h.search key
  · rw [skynetHandleFindname, hsearch, h.sorted.lookup_eq_some.mpr hn]
    rfl
  · have hnone : lookup names key = none := hnames ▸ lookup_between hbefore hafter
    rw [skynetHandleFindname, hsearch, hnone]
    rfl

theorem Holds.length_le (h : Holds s names) :
    names.length ≤ s.nameCap := by
  obtain ⟨back, hname⟩ := h.written
  rw [← h.cap, hname, List.length_append, List.length_map]
  omega

theorem doubleCap_ok {nameCap : Nat} (h : nameCap ≤ 2 ^ 29) :
    doubleCap nameCap = .ok (nameCap * 2) := by
  have hmax : MAX_SLOT_SIZE = 2 ^ 30 := rfl
  have hint : INT_MAX = 2 ^ 31 - 1 := rfl
  rw [doubleCap, if_neg (by omega), if_pos (by omega)]

theorem copyLoop_both (before after : List HandleName) (m : Nat) :
    (copyLoop (before.map some ++ after.map some) 0 before.length 0
        (List.replicate (before.length + (1 + (after.length + m))) none) >>= fun n =>
      copyLoop (before.map some ++ after.map some) 1 after.length before.length n) =
      .ok (before.map some ++ none :: (after.map some ++ List.replicate m none)) := by
  have hnew : List.replicate (before.length + (1 + (after.length + m))) none =
      List.replicate before.length none ++
        (none :: (List.replicate after.length none ++ List.replicate m none) :
          List (Option HandleName)) := by
    rw [← List.replicate_append_replicate, ← List.replicate_append_replicate,
      ← List.replicate_append_replicate]
    rfl
  have hafter : before.map some ++ after.map some =
      before.map some ++ (after.map some ++ []) := by simp
  have hfirst : copyLoop (before.map some ++ after.map some) 0 before.length 0
      ([] ++ (List.replicate before.length none ++
        none :: (List.replicate after.length none ++ List.replicate m none))) =
        .ok ([] ++ (before.map some ++
          none :: (List.replicate after.length none ++ List.replicate m none))) :=
    copyLoop_eq before (List.nil_append _).symm rfl rfl (by simp)
  have hsecond : copyLoop (before.map some ++ after.map some) 1 after.length before.length
      ((before.map some ++ [none]) ++
        (List.replicate after.length none ++ List.replicate m none)) =
        .ok ((before.map some ++ [none]) ++ (after.map some ++ List.replicate m none)) :=
    copyLoop_eq after hafter (by simp) (by simp) (by simp)
  rw [List.nil_append, List.nil_append, ← hnew] at hfirst
  rw [List.append_assoc, List.append_assoc, List.singleton_append, List.singleton_append] at hsecond
  rw [hfirst, ok_bind, hsecond]

theorem Holds.makeRoom
    (h : Holds s (before ++ after)) (hroom : (before ++ after).length < MAX_SLOT_SIZE) :
    ∃ nameCap name x back, Names.makeRoom s before.length =
        .ok { s with nameCap := nameCap, name := name } ∧
      name = before.map some ++ x :: (after.map some ++ back) ∧ name.length = nameCap ∧
      ∃ k, 1 ≤ k ∧ k ≤ 30 ∧ nameCap = 2 ^ k := by
  obtain ⟨back, hname⟩ := h.written
  obtain ⟨k, hk, hk', hcap⟩ := h.form
  have hlen := h.cap
  have hcount := h.count
  have hafter : s.nameCount - before.length = after.length := by
    rw [hcount, List.length_append]
    omega
  rw [hname] at hlen
  simp only [List.length_append, List.length_map] at hlen hcount hroom
  have hmax : MAX_SLOT_SIZE = 2 ^ 30 := rfl
  by_cases hfull : s.nameCount ≥ s.nameCap
  · have hk30 : k < 30 := by
      have hlt : s.nameCap < 2 ^ 30 := by omega
      rw [hcap] at hlt
      exact (Nat.pow_lt_pow_iff_right (by decide)).mp hlt
    have hcap29 : 2 ^ k ≤ 2 ^ 29 := Nat.pow_le_pow_right (by decide) (by omega)
    have hpos : 0 < 2 ^ k := Nat.two_pow_pos k
    rw [← hcap] at hcap29 hpos
    obtain rfl : back = [] := List.length_eq_zero_iff.mp (by omega)
    obtain ⟨m, hm⟩ : ∃ m, s.nameCap * 2 = before.length + (1 + (after.length + m)) :=
      ⟨s.nameCap * 2 - before.length - 1 - after.length, by omega⟩
    have hcopy := copyLoop_both before after m
    rw [← hm, ← List.map_append, ← List.append_nil (List.map some _), ← hname] at hcopy
    refine ⟨s.nameCap * 2, _, none, List.replicate m none, ?_, rfl, ?_, k + 1, by omega,
      by omega, ?_⟩
    · rw [Names.makeRoom, if_pos hfull, doubleCap_ok hcap29, ok_bind, hafter]
      obtain ⟨n, hfirst, hsecond⟩ := bind_ok hcopy
      rw [hfirst, ok_bind, hsecond]
      rfl
    · simp only [List.length_append, List.length_map, List.length_cons, List.length_replicate]
      omega
    · rw [hcap, pow_succ]
  · cases back with
    | nil =>
      rw [List.length_nil] at hlen
      omega
    | cons x back =>
      obtain ⟨y, hy⟩ := shiftLoop_eq (before.map some) after x back
      refine ⟨s.nameCap, _, y, back, ?_, rfl, ?_, k, hk, hk', hcap⟩
      · rw [Names.makeRoom, if_neg hfull, hafter, hname, List.map_append, List.append_assoc]
        rw [List.length_map] at hy
        rw [hy]
        rfl
      · simp only [List.length_append, List.length_map, List.length_cons] at hlen ⊢
        omega

theorem Sorted.insert
    (h : Sorted (before ++ after)) (hbefore : ∀ n ∈ before, strcmp n.name key < 0)
    (hafter : ∀ n ∈ after, strcmp key n.name < 0) :
    Sorted (before ++ ⟨key, handle⟩ :: after) := by
  obtain ⟨hb, ha, hab⟩ := List.pairwise_append.mp h
  refine List.pairwise_append.mpr ⟨hb, List.pairwise_cons.mpr ⟨hafter, ha⟩, fun m hm n hn => ?_⟩
  obtain rfl | hn := List.mem_cons.mp hn
  · exact hbefore m hm
  · exact hab m hm n hn

theorem doubleCap_full {nameCap : Nat} (h : nameCap = MAX_SLOT_SIZE) :
    doubleCap nameCap = .error .overflow := by
  rw [doubleCap, h]
  exact if_pos (by decide)

theorem Holds.makeRoom_full (h : Holds s names)
    (hfull : MAX_SLOT_SIZE ≤ names.length) (before : Nat) :
    Names.makeRoom s before = .error .overflow := by
  obtain ⟨k, -, hk, hcap⟩ := h.form
  have hlen := h.length_le
  have hle : 2 ^ k ≤ 2 ^ 30 := Nat.pow_le_pow_right (by decide) hk
  have hmax : MAX_SLOT_SIZE = 2 ^ 30 := rfl
  rw [← hcap] at hle
  rw [Names.makeRoom, if_pos (by rw [h.count]; omega), doubleCap_full (by omega)]
  rfl

/-- What a call for a name does: nothing when the name is there, an insertion in its place when it
is not, and neither when there are as many names as the array may have. -/
inductive Named (s : Storage κ) (names : List HandleName) (handle : Nat) (key : CString) :
    Except Stop (Option CString × Storage κ) → Prop
  | present (h : lookup names key ≠ none) : Named s names handle key (.ok (none, s))
  | inserted {before after : List HandleName} {s' : Storage κ} (h : lookup names key = none)
    (hroom : names.length < MAX_SLOT_SIZE) (hnames : names = before ++ after)
    (holds : Holds s' (before ++ ⟨key, handle⟩ :: after)) (hslot : s'.slot = s.slot) :
    Named s names handle key (.ok (some key, s'))
  | full (h : lookup names key = none) (hfull : MAX_SLOT_SIZE ≤ names.length) :
    Named s names handle key (.error .overflow)

theorem Holds.namehandle (h : Holds s names)
    (handle : Nat) (key : CString) :
    Named s names handle key (skynetHandleNamehandle handle key s) := by
  obtain ⟨n, hn, rfl, hsearch⟩ | ⟨before, after, rfl, hbefore, hafter, hsearch⟩ := h.search key
  · rw [skynetHandleNamehandle, insertName, hsearch]
    refine .present ?_
    rw [h.sorted.lookup_eq_some.mpr hn]
    exact fun h => by cases h
  · have hnone := lookup_between hbefore hafter
    rw [skynetHandleNamehandle, insertName, hsearch, ok_bind]
    obtain hroom | hfull := Nat.lt_or_ge (before ++ after).length MAX_SLOT_SIZE
    · obtain ⟨nameCap, name, x, back, hmake, hname, hlen, hform⟩ := h.makeRoom hroom
      have hput : put name before.length ⟨key, handle⟩ =
          .ok (before.map some ++ some ⟨key, handle⟩ :: (after.map some ++ back)) :=
        put_append _ _ x _ hname (by simp)
      simp only
      rw [insertNameBefore, hmake, ok_bind]
      simp only
      rw [hput]
      refine .inserted hnone hroom rfl ⟨⟨back, by simp⟩, ?_, ?_, hform, ?_⟩ rfl
      · rw [h.count]
        simp only [List.length_append, List.length_cons]
        omega
      · rw [← hlen, hname]
        simp
      · exact h.sorted.insert hbefore hafter
    · simp only
      rw [insertNameBefore, h.makeRoom_full hfull]
      exact .full hnone hfull

/-- What retiring a handle does: its names go, and the others stay in their order. -/
inductive Retired (handleOf : κ → Nat) (s : Storage κ) (names : List HandleName) (handle : Nat) :
    Except Stop (Nat × Storage κ) → Prop
  | live {s' : Storage κ} (h : Names.live handleOf handle s.slot = true)
    (holds : Holds s' (names.filter (·.handle ≠ handle)))
    (hslot : s'.slot = s.slot.set (hash s.slot.length handle) none) :
    Retired handleOf s names handle (.ok (1, s'))
  | dead (h : Names.live handleOf handle s.slot = false) :
    Retired handleOf s names handle (.ok (0, s))

theorem Holds.retire (handleOf : κ → Nat) {s : Storage κ} {names : List HandleName}
    (h : Holds s names) (handle : Nat) :
    Retired handleOf s names handle (skynetHandleRetire handleOf handle s) := by
  rw [skynetHandleRetire]
  by_cases hlive : Names.live handleOf handle s.slot = true
  · obtain ⟨back, hname⟩ := h.written
    obtain ⟨back', hloop, hlen⟩ := retireLoop_eq handle [] names [] back
    have hcap := h.cap
    rw [hname, List.length_append, List.length_map] at hcap
    simp only [List.length_nil, List.map_nil, List.nil_append, Nat.zero_add] at hloop hlen
    rw [if_pos hlive, h.count, hname, hloop]
    refine .live hlive ⟨⟨back', rfl⟩, rfl, ?_, h.form, h.sorted.filter _⟩ rfl
    rw [List.length_append, List.length_map, ← hcap]
    exact hlen
  · rw [if_neg hlive]
    exact .dead (by simpa using hlive)

/-! ### Sequences of calls -/

/-- A call; the slots may change between the calls, by registrations. -/
inductive Call (κ : Type)
  | namehandle (handle : Nat) (name : CString)
  | retire (handle : Nat)
  | slots (slot : List (Option κ))

inductive Event
  | inserted (name : CString) (handle : Nat)
  | retired (handle : Nat)

/-- A call, with the events so far, the latest first. -/
def call (handleOf : κ → Nat) (s : Storage κ) (log : List Event) :
    Call κ → Except Stop (Storage κ × List Event)
  | .namehandle handle name => do
    let (result, s) ← skynetHandleNamehandle handle name s
    return (s, if result.isSome then .inserted name handle :: log else log)
  | .retire handle => do
    let (ret, s) ← skynetHandleRetire handleOf handle s
    return (s, if ret = 1 then .retired handle :: log else log)
  | .slots slot => .ok ({ s with slot := slot }, log)

def run (handleOf : κ → Nat) (s : Storage κ) (log : List Event) :
    List (Call κ) → Except Stop (Storage κ × List Event)
  | [] => .ok (s, log)
  | c :: calls => do
    let (s, log) ← call handleOf s log c
    run handleOf s log calls

/-- The handle that a name was last given, unless it has been retired since. -/
def bound : List Event → CString → Option Nat
  | [], _ => none
  | .inserted name handle :: log, key => if name = key then some handle else bound log key
  | .retired handle :: log, key => if bound log key = some handle then none else bound log key

variable {log : List Event}

theorem inserted_cons_iff {event : Event}
    (hne : event ≠ .inserted key handle) :
    (∃ since before, event :: log = since ++ .inserted key handle :: before ∧
        .retired handle ∉ since ∧ ∀ other, .inserted key other ∉ since) ↔
      event ≠ .retired handle ∧ (∀ other, event ≠ .inserted key other) ∧
        ∃ since before, log = since ++ .inserted key handle :: before ∧
          .retired handle ∉ since ∧ ∀ other, .inserted key other ∉ since := by
  constructor
  · rintro ⟨since, before, heq, hretired, hinserted⟩
    cases since with
    | nil => exact absurd (List.cons.inj heq).1 hne
    | cons e since =>
      obtain ⟨rfl, rfl⟩ := List.cons.inj heq
      refine ⟨fun h => hretired (by simp [h]), fun other h => hinserted other (by simp [h]),
        since, before, rfl, fun h => hretired (List.mem_cons_of_mem _ h),
        fun other h => hinserted other (List.mem_cons_of_mem _ h)⟩
  · rintro ⟨hretired, hinserted, since, before, rfl, hretired', hinserted'⟩
    refine ⟨event :: since, before, rfl, fun h => ?_, fun other h => ?_⟩
    · obtain h | h := List.mem_cons.mp h
      · exact hretired h.symm
      · exact hretired' h
    · obtain h | h := List.mem_cons.mp h
      · exact hinserted other h.symm
      · exact hinserted' other h

/-- The call that inserted the name is the last one that did, and its handle is not retired in what
follows it. -/
theorem bound_eq_some :
    bound log key = some handle ↔ ∃ since before, log = since ++ .inserted key handle :: before ∧
      .retired handle ∉ since ∧ ∀ other, .inserted key other ∉ since := by
  induction log with
  | nil => exact iff_of_false (by simp [bound]) (by simp)
  | cons event log ih =>
    have hcons : ∀ event : Event, event ≠ .inserted key handle →
        ((∃ since before, event :: log = since ++ .inserted key handle :: before ∧
          .retired handle ∉ since ∧ ∀ other, .inserted key other ∉ since) ↔
        event ≠ .retired handle ∧ (∀ other, event ≠ .inserted key other) ∧
          bound log key = some handle) := by
      intro event hne
      rw [ih]
      exact inserted_cons_iff hne
    cases event with
    | inserted name h =>
      rw [bound]
      by_cases hname : name = key
      · subst hname
        rw [if_pos rfl, Option.some.injEq]
        by_cases hh : h = handle
        · subst hh
          exact iff_of_true rfl ⟨[], log, rfl, by simp, by simp⟩
        · rw [hcons _ (by simpa using hh)]
          exact iff_of_false hh (by simp)
      · rw [if_neg hname, hcons _ (by simp [hname])]
        simp [hname]
    | retired h =>
      rw [bound, hcons _ (by simp)]
      by_cases hh : h = handle
      · subst hh
        refine iff_of_false ?_ (by simp)
        split
        · simp
        · assumption
      · split
        · rename_i hbound
          refine iff_of_false (by simp) ?_
          rw [hbound, Option.some.injEq]
          exact fun hall => hh hall.2.2
        · simp [hh]

structure Agrees (s : Storage κ) (log : List Event) (names : List HandleName) : Prop where
  holds : Holds s names
  lookup : ∀ key, lookup names key = bound log key

theorem agrees_init : Agrees (skynetHandleInit : Storage κ) [] [] := ⟨holds_init, fun _ => rfl⟩

theorem lookup_insert
    (h : Sorted (before ++ after)) (h' : Sorted (before ++ ⟨key, handle⟩ :: after))
    (hnone : lookup (before ++ after) key = none) (k : CString) :
    lookup (before ++ ⟨key, handle⟩ :: after) k =
      if key = k then some handle else lookup (before ++ after) k := by
  have hmid : ∀ n, n ∈ before ++ (⟨key, handle⟩ : HandleName) :: after ↔
      n = ⟨key, handle⟩ ∨ n ∈ before ++ after := by
    simp [or_left_comm]
  ext x
  rw [h'.lookup_eq_some, hmid]
  split
  · rename_i hk
    subst hk
    have habsent := lookup_eq_none.mp hnone
    constructor
    · rintro (heq | hmem)
      · simp [(HandleName.mk.inj heq).2]
      · exact absurd rfl (habsent _ hmem)
    · intro hx
      cases hx
      exact .inl rfl
  · rename_i hk
    rw [h.lookup_eq_some]
    exact or_iff_right fun heq => hk (HandleName.mk.inj heq).1.symm

theorem lookup_filter (h : Sorted names) (handle : Nat) (k : CString) :
    lookup (names.filter (·.handle ≠ handle)) k =
      if lookup names k = some handle then none else lookup names k := by
  have h' : Sorted (names.filter (·.handle ≠ handle)) := h.filter _
  ext x
  rw [h'.lookup_eq_some, List.mem_filter, ← h.lookup_eq_some]
  split
  · rename_i hk
    simp only [hk]
    refine iff_of_false (fun hx => ?_) (by simp)
    have hne := of_decide_eq_true hx.2
    exact hne (Option.some.inj hx.1).symm
  · rename_i hk
    refine and_iff_left_of_imp fun hx => decide_eq_true ?_
    rintro rfl
    exact hk hx

theorem Agrees.insert {s s' : Storage κ}
    (h : Agrees s log (before ++ after))
    (hnone : Names.lookup (before ++ after) key = none)
    (holds : Holds s' (before ++ ⟨key, handle⟩ :: after)) :
    Agrees s' (.inserted key handle :: log) (before ++ ⟨key, handle⟩ :: after) where
  holds := holds
  lookup k := by rw [lookup_insert h.holds.sorted holds.sorted hnone, bound, h.lookup]

/-- A call that returns keeps the agreement; one that does not is a call for a new name with as
many names as there may be. -/
theorem Agrees.call (handleOf : κ → Nat) {s : Storage κ} {log : List Event}
    {names : List HandleName} (h : Agrees s log names) (c : Call κ) :
    (∃ s' log' names', Names.call handleOf s log c = .ok (s', log') ∧ Agrees s' log' names') ∨
      ∃ handle key, c = .namehandle handle key ∧ Names.call handleOf s log c = .error .overflow ∧
        bound log key = none ∧ MAX_SLOT_SIZE ≤ names.length := by
  cases c with
  | namehandle handle key =>
    rw [Names.call]
    have hnamed := h.holds.namehandle handle key
    generalize skynetHandleNamehandle handle key s = result at hnamed ⊢
    cases hnamed with
    | present hpresent => exact .inl ⟨s, log, names, rfl, h⟩
    | @inserted before after s' hnone hroom hnames holds hslot =>
      subst hnames
      exact .inl ⟨s', .inserted key handle :: log, _, rfl, h.insert hnone holds⟩
    | full hnone hfull =>
      exact .inr ⟨handle, key, rfl, rfl, by rw [← h.lookup, hnone], hfull⟩
  | retire handle =>
    rw [Names.call]
    have hretired := h.holds.retire handleOf handle
    generalize skynetHandleRetire handleOf handle s = result at hretired ⊢
    cases hretired with
    | @live s' hlive holds hslot =>
      refine .inl ⟨s', .retired handle :: log, _, rfl, holds, fun k => ?_⟩
      rw [lookup_filter h.holds.sorted, bound, h.lookup]
    | dead hdead => exact .inl ⟨s, log, names, rfl, h⟩
  | slots slot =>
    refine .inl ⟨_, log, names, rfl, ⟨h.holds.written, h.holds.count, h.holds.cap, h.holds.form,
      h.holds.sorted⟩, h.lookup⟩

/-- The names are a map in the order of `strcmp`: a name stands for the handle of the call that
inserted it, unless that has been retired since; a call for a name that is there gives `NULL` and
changes nothing, one for another name inserts it in its place, as long as there are fewer than
`MAX_SLOT_SIZE` names; retiring a handle takes out its names and no others. -/
def SortedMap (handleOf : κ → Nat) (s : Storage κ) (log : List Event) : Prop :=
  ∃ names, s.name.take s.nameCount = names.map some ∧ s.nameCount = names.length ∧
    names.Pairwise (fun m n => strcmp m.name n.name < 0) ∧
    (∀ key handle, ⟨key, handle⟩ ∈ names ↔ ∃ since before,
      log = since ++ .inserted key handle :: before ∧ .retired handle ∉ since ∧
        ∀ other, .inserted key other ∉ since) ∧
    (∀ key handle, ⟨key, handle⟩ ∈ names → skynetHandleFindname s key = .ok handle) ∧
    (∀ key, (∀ n ∈ names, n.name ≠ key) → skynetHandleFindname s key = .ok 0) ∧
    (∀ handle key, Named s names handle key (skynetHandleNamehandle handle key s)) ∧
    ∀ handle, Retired handleOf s names handle (skynetHandleRetire handleOf handle s)

theorem Agrees.sortedMap (handleOf : κ → Nat)
    (h : Agrees s log names) : SortedMap handleOf s log := by
  obtain ⟨back, hname⟩ := h.holds.written
  refine ⟨names, ?_, h.holds.count, h.holds.sorted, fun key handle => ?_, fun key handle hmem => ?_,
    fun key habsent => ?_, h.holds.namehandle, h.holds.retire handleOf⟩
  · rw [hname, h.holds.count]
    exact List.take_left' (by simp)
  · rw [← h.holds.sorted.lookup_eq_some, h.lookup, bound_eq_some]
  · rw [h.holds.findname, h.holds.sorted.lookup_eq_some.mpr hmem]
    rfl
  · rw [h.holds.findname, lookup_eq_none.mpr habsent]
    rfl

/-- The calls come to one for a new name when there are `MAX_SLOT_SIZE` names. -/
def Overfull (handleOf : κ → Nat) (s : Storage κ) (log : List Event) (calls : List (Call κ)) :
    Prop :=
  ∃ before handle key rest s' log', calls = before ++ .namehandle handle key :: rest ∧
    run handleOf s log before = .ok (s', log') ∧ s'.nameCount = MAX_SLOT_SIZE ∧
    bound log' key = none

theorem Agrees.nameCount_le
    (h : Agrees s log names) : names.length ≤ MAX_SLOT_SIZE := by
  obtain ⟨k, -, hk, hcap⟩ := h.holds.form
  have hle : 2 ^ k ≤ 2 ^ 30 := Nat.pow_le_pow_right (by decide) hk
  exact h.holds.length_le.trans (hcap ▸ hle)

theorem Agrees.run (handleOf : κ → Nat)
    (calls : List (Call κ)) (h : Agrees s log names) :
    (∃ s' log' names', Names.run handleOf s log calls = .ok (s', log') ∧
        Agrees s' log' names') ∨
      Names.run handleOf s log calls = .error .overflow ∧ Overfull handleOf s log calls := by
  induction calls generalizing s log names with
  | nil => exact .inl ⟨s, log, names, rfl, h⟩
  | cons c calls ih =>
    obtain ⟨s₁, log₁, names₁, hcall, h₁⟩ | ⟨handle, key, rfl, hcall, hnone, hfull⟩ :=
      h.call handleOf c
    · rw [Names.run, hcall, ok_bind]
      obtain hok | ⟨herror, before, handle, key, rest, s', log', rfl, hrun, hcount, hnone⟩ :=
        ih h₁
      · exact .inl hok
      · refine .inr ⟨herror, c :: before, handle, key, rest, s', log', rfl, ?_, hcount, hnone⟩
        rw [Names.run, hcall, ok_bind]
        exact hrun
    · rw [Names.run, hcall]
      refine .inr ⟨rfl, [], handle, key, calls, s, log, rfl, rfl, ?_, hnone⟩
      rw [h.holds.count]
      exact Nat.le_antisymm h.nameCount_le hfull

/-- After any calls the names are a sorted map, unless the calls come to one for a new name when
there are as many as there may be: that one does not return. -/
theorem directory (handleOf : κ → Nat) (calls : List (Call κ)) :
    (∃ s log, run handleOf skynetHandleInit [] calls = .ok (s, log) ∧
        SortedMap handleOf s log) ∨
      run handleOf skynetHandleInit [] calls = .error .overflow ∧
        Overfull handleOf skynetHandleInit [] calls := by
  obtain ⟨s, log, names, hrun, h⟩ | herror := agrees_init.run handleOf calls
  · exact .inl ⟨s, log, hrun, h.sortedMap handleOf⟩
  · exact .inr herror

/-- The name of `k + 1` ones. -/
def ones (k : Nat) : CString :=
  ⟨List.replicate (k + 1) 1, fun h => absurd (List.eq_of_mem_replicate h) (by decide)⟩

def manyCalls (k : Nat) : List (Call Unit) := (List.range k).map fun i => .namehandle 1 (ones i)

theorem run_append (handleOf : κ → Nat) (s : Storage κ) (log : List Event)
    (calls more : List (Call κ)) : run handleOf s log (calls ++ more) = (do
      let (s, log) ← run handleOf s log calls
      run handleOf s log more) := by
  induction calls generalizing s log with
  | nil => rfl
  | cons c calls ih =>
    rw [List.cons_append, run, run]
    cases call handleOf s log c with
    | error e => rfl
    | ok r => exact ih r.1 r.2

theorem lookup_ones {k : Nat}
    (h : ∀ n ∈ names, n.name.bytes.length ≤ k) : lookup names (ones k) = none := by
  rw [lookup_eq_none]
  intro n hn heq
  have hle := h n hn
  rw [heq, ones, List.length_replicate] at hle
  omega

theorem run_manyCalls (k : Nat) (hk : k ≤ MAX_SLOT_SIZE) :
    ∃ s log names, run (fun _ => 1) skynetHandleInit [] (manyCalls k) = .ok (s, log) ∧
      Agrees s log names ∧ names.length = k ∧ ∀ n ∈ names, n.name.bytes.length ≤ k := by
  induction k with
  | zero => exact ⟨_, _, [], rfl, agrees_init, rfl, by simp⟩
  | succ k ih =>
    obtain ⟨s, log, names, hrun, h, hlen, hnames⟩ := ih (by omega)
    have hnone := lookup_ones hnames
    have hnamed := h.holds.namehandle 1 (ones k)
    rw [manyCalls, List.range_succ, List.map_append, ← manyCalls, run_append, hrun, ok_bind]
    simp only [List.map_cons, List.map_nil, Names.run, Names.call]
    generalize skynetHandleNamehandle 1 (ones k) s = result at hnamed ⊢
    cases hnamed with
    | present hpresent => exact absurd hnone hpresent
    | full _ hfull => omega
    | @inserted before after s' _ hroom hsplit holds hslot =>
      subst hsplit
      refine ⟨s', _, _, rfl, h.insert hnone holds, ?_, fun n hn => ?_⟩
      · simp only [List.length_append, List.length_cons] at hlen ⊢
        omega
      · rw [List.mem_append, List.mem_cons] at hn
        obtain hn | rfl | hn := hn
        · exact Nat.le_succ_of_le (hnames n (List.mem_append_left _ hn))
        · simp [ones]
        · exact Nat.le_succ_of_le (hnames n (List.mem_append_right _ hn))

/-- A name after `MAX_SLOT_SIZE` others: the call for it does not return. -/
theorem one_name_too_many : ∃ s log,
    run (fun _ => 1) skynetHandleInit [] (manyCalls MAX_SLOT_SIZE) = .ok (s, log) ∧
      bound log (ones MAX_SLOT_SIZE) = none ∧
      skynetHandleNamehandle 1 (ones MAX_SLOT_SIZE) s = .error .overflow := by
  obtain ⟨s, log, names, hrun, h, hlen, hnames⟩ := run_manyCalls MAX_SLOT_SIZE (Nat.le_refl _)
  have hnone := lookup_ones hnames
  refine ⟨s, log, hrun, by rw [← h.lookup, hnone], ?_⟩
  have hnamed := h.holds.namehandle 1 (ones MAX_SLOT_SIZE)
  generalize skynetHandleNamehandle 1 (ones MAX_SLOT_SIZE) s = result at hnamed ⊢
  cases hnamed with
  | present hpresent => exact absurd hnone hpresent
  | inserted _ hroom => omega
  | full => rfl

end XsServer.Handle.Names
