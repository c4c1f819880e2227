import XsServer.Lib.Chain
import XsServer.Lib.Bytes
import XsServer.Lib.Results

/-! The table of `hashid.h`, from the ids of connections to slots. -/

namespace XsServer.ServiceGate

open Lib

/-- What keeps a call from returning: an `int` that is too large, an assertion, or a list without an
end. -/
inductive HashidFault
  | overflow
  | assertion
  | endless
  deriving DecidableEq

/-- `struct hashid_node`; a pointer is an index. -/
structure HashidNode where
  id : Int
  next : Option Nat

/-- `struct hashid`. -/
structure Hashid where
  hashmod : Nat
  cap : Nat
  count : Int
  id : Nat → HashidNode
  hash : Nat → Option Nat

/-- The loop that looks for the size of `hash`. -/
def hashcapLoop (max hashcap : Nat) (hpos : 0 < hashcap) : Except HashidFault Nat :=
  if hashcap < max then
    if INT_MAX < hashcap * 2 then .error .overflow
    else hashcapLoop max (hashcap * 2) (Nat.mul_pos hpos Nat.two_pos)
  else .ok hashcap
  termination_by max - hashcap

def hashidInit (max : Nat) : Except HashidFault Hashid := do
  let hashcap ← hashcapLoop max 16 (by decide)
  return ⟨hashcap - 1, max, 0, fun _ => ⟨-1, none⟩, fun _ => none⟩

/-- The place of an id in `hash`. -/
def Hashid.bucket (hi : Hashid) (id : Nat) : Nat := id &&& hi.hashmod

/-- The loop of `hashid_lookup`; a list of more nodes than there are goes on forever. -/
def lookupLoop (hi : Hashid) (id : Nat) : Nat → Option Nat → Except HashidFault Int
  | _, none => .ok (-1)
  | 0, some _ => .error .endless
  | n + 1, some c => if (hi.id c).id = id then .ok c else lookupLoop hi id n (hi.id c).next

def hashidLookup (hi : Hashid) (id : Nat) : Except HashidFault Int :=
  lookupLoop hi id hi.cap (hi.hash (hi.bucket id))

/-- What follows the label `_clear`. -/
def removeClear (hi : Hashid) (c : Nat) : Hashid × Int :=
  ({ hi with id := Function.update hi.id c ⟨-1, none⟩, count := hi.count - 1 }, c)

/-- The loop of `hashid_remove`. -/
def removeLoop (hi : Hashid) (id : Nat) : Nat → Nat → Except HashidFault (Hashid × Int)
  | 0, _ => .error .endless
  | n + 1, c =>
    match (hi.id c).next with
    | none => .ok (hi, -1)
    | some temp =>
      if (hi.id temp).id = id then
        let c' := { hi.id c with next := (hi.id temp).next }
        .ok (removeClear { hi with id := Function.update hi.id c c' } temp)
      else removeLoop hi id n temp

def hashidRemove (hi : Hashid) (id : Nat) : Except HashidFault (Hashid × Int) :=
  let h := hi.bucket id
  match hi.hash h with
  | none => .ok (hi, -1)
  | some c =>
    if (hi.id c).id = id then
      .ok (removeClear { hi with hash := Function.update hi.hash h (hi.id c).next } c)
    else removeLoop hi id hi.cap c

/-- The loop of `hashid_insert` from `i` on, with `n` rounds to go. -/
def insertLoop (hi : Hashid) (id : Nat) : Nat → Nat → Except HashidFault Nat
  | 0, _ => .error .assertion
  | n + 1, i =>
    if INT_MAX < i + id then .error .overflow
    else
      let index := (i + id) % hi.cap
      if (hi.id index).id = -1 then .ok index else insertLoop hi id n (i + 1)

def hashidInsert (hi : Hashid) (id : Nat) : Except HashidFault (Hashid × Int) := do
  let c ← insertLoop hi id hi.cap 0
  if (hi.id c).next ≠ none then .error .assertion
  else
    let h := hi.bucket id
    let next := match hi.hash h with
      | some first => some first
      | none => (hi.id c).next
    return (⟨hi.hashmod, hi.cap, hi.count + 1, Function.update hi.id c ⟨id, next⟩,
      Function.update hi.hash h (some c)⟩, c)

def hashidFull (hi : Hashid) : Prop := hi.count = hi.cap

variable {hi hi' : Hashid} {id id' : Nat} {ids : List Nat}

/-- The list of a place of `hash`. -/
abbrev Hashid.Listed (hi : Hashid) (h : Nat) (l : List Nat) : Prop :=
  Chain (fun i => (hi.id i).next) (hi.hash h) l

/-- The table has exactly the ids `ids`, each in one node, which is in the list of its place. -/
structure Hashid.Has (hi : Hashid) (ids : List Nat) : Prop where
  listed : ∀ h, ∃ l, hi.Listed h l ∧ ∀ i ∈ l, i < hi.cap ∧ ∃ id ∈ ids, (hi.id i).id = id ∧
    hi.bucket id = h
  free : ∀ i < hi.cap, (hi.id i).id = -1 ∧ (hi.id i).next = none ∨
    ∃ id ∈ ids, (hi.id i).id = id ∧ ∃ l, hi.Listed (hi.bucket id) l ∧ i ∈ l
  node : ∀ id ∈ ids, ∃ i < hi.cap, (hi.id i).id = id
  alone : ∀ i < hi.cap, ∀ j < hi.cap, (hi.id i).id = (hi.id j).id → (hi.id i).id ≠ -1 → i = j
  nodup : ids.Nodup
  count : hi.count = ids.length

variable {l : List Nat}

theorem lookupLoop_chain {o : Option Nat} {n : Nat}
    (h : Chain (fun i => (hi.id i).next) o l) (hn : l.length ≤ n) :
    lookupLoop hi id n o =
      .ok (match l.find? fun i => (hi.id i).id = id with
        | some i => i
        | none => -1) := by
  induction h generalizing n with
  | nil =>
    cases n with
    | zero | succ n => rfl
  | @cons i l h ih =>
    cases n with
    | zero => exact absurd hn (Nat.not_succ_le_zero _)
    | succ n =>
      rw [lookupLoop, List.find?_cons]
      by_cases hid : (hi.id i).id = id
      · rw [if_pos hid, decide_eq_true hid]
      · rw [if_neg hid, decide_eq_false hid]
        exact ih (Nat.le_of_succ_le_succ hn)

theorem length_le_cap {h : Nat} (hl : hi.Listed h l) (hlt : ∀ i ∈ l, i < hi.cap) :
    l.length ≤ hi.cap := by
  have hsub : l ⊆ List.range hi.cap := fun i hi => List.mem_range.mpr (hlt i hi)
  have hle := (List.subperm_of_subset hl.nodup hsub).length_le
  rwa [List.length_range] at hle

theorem Hashid.Has.lookup_node (h : hi.Has ids) {i : Nat} (hlt : i < hi.cap)
    (hnode : (hi.id i).id = id) : hashidLookup hi id = .ok i := by
  have hne : (hi.id i).id ≠ -1 := by omega
  obtain ⟨hfree, -⟩ | ⟨id', hid', heq, l, hl, hmem⟩ := h.free i hlt
  · exact absurd hfree hne
  · obtain rfl : id = id' := by omega
    obtain ⟨l', hl', hall⟩ := h.listed (hi.bucket id)
    obtain rfl := hl.unique hl'
    rw [hashidLookup, lookupLoop_chain hl (length_le_cap hl fun j hj => (hall j hj).1)]
    cases hfind : l.find? fun i => (hi.id i).id = id with
    | none =>
      have hnone := List.find?_eq_none.mp hfind i hmem
      rw [hnode, decide_eq_true rfl] at hnone
      exact absurd rfl hnone
    | some j =>
      have hj := List.find?_some hfind
      have hlt' := (hall j (List.mem_of_find?_eq_some hfind)).1
      have heq : j = i := h.alone j hlt' i hlt (by rw [of_decide_eq_true hj, hnode])
        (by rw [of_decide_eq_true hj]; omega)
      rw [heq]

theorem Hashid.Has.lookup_absent (h : hi.Has ids) (hid : id ∉ ids) :
    hashidLookup hi id = .ok (-1) := by
  obtain ⟨l, hl, hall⟩ := h.listed (hi.bucket id)
  rw [hashidLookup, lookupLoop_chain hl (length_le_cap hl fun j hj => (hall j hj).1)]
  have hnone : (l.find? fun i => (hi.id i).id = id) = none := by
    rw [List.find?_eq_none]
    intro i hmem hdec
    obtain ⟨-, id', hid', heq, -⟩ := hall i hmem
    have hsame : (hi.id i).id = id := of_decide_eq_true hdec
    obtain rfl : id = id' := by omega
    exact hid hid'
  rw [hnone]

variable {c : Nat}

theorem Hashid.Has.not_mem (h : hi.Has ids) (hnode : ∀ id ∈ ids, (hi.id c).id = id →
    hi.bucket id ≠ id') (hl : hi.Listed id' l) : c ∉ l := by
  intro hmem
  obtain ⟨l', hl', hall⟩ := h.listed id'
  obtain rfl := hl.unique hl'
  obtain ⟨-, id, hid, heq, hbucket⟩ := hall c hmem
  exact hnode id hid heq hbucket

/-- The table after an id went to a free node. -/
def Hashid.inserted (hi : Hashid) (id c : Nat) : Hashid :=
  ⟨hi.hashmod, hi.cap, hi.count + 1, Function.update hi.id c ⟨id, hi.hash (hi.bucket id)⟩,
    Function.update hi.hash (hi.bucket id) (some c)⟩

theorem hashidInsert_ok (hloop : insertLoop hi id hi.cap 0 = .ok c)
    (hnext : (hi.id c).next = none) : hashidInsert hi id = .ok (hi.inserted id c, c) := by
  rw [hashidInsert, hloop, ok_bind, if_neg (not_not.mpr hnext), Hashid.inserted]
  dsimp only
  cases hhash : hi.hash (hi.bucket id) with
  | none => rw [hnext]; rfl
  | some first => rfl

theorem Hashid.Has.inserted (h : hi.Has ids) (hid : id ∉ ids) {c : Nat} (hc : c < hi.cap)
    (hfree : (hi.id c).id = -1) : (hi.inserted id c).Has (id :: ids) := by
  have hself : (hi.inserted id c).id c = ⟨id, hi.hash (hi.bucket id)⟩ := Function.update_self ..
  have hother : ∀ j, j ≠ c → (hi.inserted id c).id j = hi.id j := fun j hj =>
    Function.update_of_ne hj ..
  have hout : ∀ h l, hi.Listed h l → c ∉ l := fun k l hl =>
    h.not_mem (fun id _ heq => absurd (hfree.symm.trans heq) (by omega)) hl
  have hhead : ∀ l, hi.Listed (hi.bucket id) l →
      (hi.inserted id c).Listed (hi.bucket id) (c :: l) := by
    intro l hl
    rw [Hashid.Listed, show (hi.inserted id c).hash (hi.bucket id) = some c from
      Function.update_self ..]
    apply hl.push (hout _ l hl)
    · rw [hself]
    · intro j hj
      rw [hother j hj]
  have hrest : ∀ k l, k ≠ hi.bucket id → hi.Listed k l → (hi.inserted id c).Listed k l := by
    intro k l hk hl
    rw [Hashid.Listed, show (hi.inserted id c).hash k = hi.hash k from Function.update_of_ne hk ..]
    apply hl.congr
    intro j hj
    rw [hother j (ne_of_mem_of_not_mem hj (hout k l hl))]
  constructor
  · intro k
    obtain ⟨l, hl, hall⟩ := h.listed k
    have hold : ∀ i ∈ l, i < hi.cap ∧ ∃ id' ∈ id :: ids, ((hi.inserted id c).id i).id = id' ∧
        hi.bucket id' = k := by
      intro i hmem
      obtain ⟨hlt, id', hid', heq, hbucket⟩ := hall i hmem
      rw [hother i (ne_of_mem_of_not_mem hmem (hout k l hl))]
      exact ⟨hlt, id', List.mem_cons_of_mem _ hid', heq, hbucket⟩
    by_cases hk : k = hi.bucket id
    · subst hk
      refine ⟨c :: l, hhead l hl, List.forall_mem_cons.mpr ⟨⟨hc, id, List.mem_cons_self, ?_, rfl⟩,
        hold⟩⟩
      rw [hself]
    · exact ⟨l, hrest k l hk hl, hold⟩
  · intro i hlt
    by_cases hic : i = c
    · subst hic
      obtain ⟨l, hl, -⟩ := h.listed (hi.bucket id)
      right
      refine ⟨id, List.mem_cons_self, ?_, i :: l, hhead l hl, List.mem_cons_self⟩
      rw [hself]
    · rw [hother i hic]
      obtain hnone | ⟨id', hid', heq, l, hl, hmem⟩ := h.free i hlt
      · exact .inl hnone
      · right
        refine ⟨id', List.mem_cons_of_mem _ hid', heq, ?_⟩
        by_cases hk : hi.bucket id' = hi.bucket id
        · rw [show (hi.inserted id c).bucket id' = hi.bucket id from hk]
          rw [hk] at hl
          exact ⟨c :: l, hhead l hl, List.mem_cons_of_mem _ hmem⟩
        · exact ⟨l, hrest _ l hk hl, hmem⟩
  · intro id' hid'
    obtain rfl | hid' := List.mem_cons.mp hid'
    · exact ⟨c, hc, by rw [hself]⟩
    · obtain ⟨i, hlt, heq⟩ := h.node id' hid'
      refine ⟨i, hlt, ?_⟩
      rw [hother i ?_]
      · exact heq
      · rintro rfl
        omega
  · have hnew : ∀ i < hi.cap, i ≠ c → (hi.id i).id ≠ id := by
      intro i hlt hne heq
      obtain ⟨hfree', -⟩ | ⟨id', hid', heq', -⟩ := h.free i hlt
      · omega
      · obtain rfl : id = id' := by omega
        exact hid hid'
    intro i hlt j hlt' heq hne
    by_cases hic : i = c
    · subst hic
      by_cases hjc : j = i
      · exact hjc.symm
      · rw [hself, hother j hjc] at heq
        exact absurd heq.symm (hnew j hlt' hjc)
    · by_cases hjc : j = c
      · subst hjc
        rw [hself, hother i hic] at heq
        exact absurd heq (hnew i hlt hic)
      · rw [hother i hic, hother j hjc] at heq
        rw [hother i hic] at hne
        exact h.alone i hlt j hlt' heq hne
  · exact List.nodup_cons.mpr ⟨hid, h.nodup⟩
  · show hi.count + 1 = _
    rw [h.count, List.length_cons]
    rfl

/-! ### Removing -/

/-- The node `i` is out of its list, and still has its id. -/
structure Unlinked (hi hi' : Hashid) (id i : Nat) : Prop where
  hashmod : hi'.hashmod = hi.hashmod
  cap : hi'.cap = hi.cap
  count : hi'.count = hi.count
  node : ∀ j, (hi'.id j).id = (hi.id j).id
  free : ∀ j, (hi.id j).id = -1 → (hi'.id j).next = (hi.id j).next
  list : ∃ l₁ l₂, hi.Listed (hi.bucket id) (l₁ ++ i :: l₂) ∧ hi'.Listed (hi.bucket id) (l₁ ++ l₂)
  other : ∀ k l, k ≠ hi.bucket id → hi.Listed k l → hi'.Listed k l

theorem Hashid.Has.removed (h : hi.Has ids) {i : Nat} (hid : id ∈ ids) (hlt : i < hi.cap)
    (hnode : (hi.id i).id = id) (hun : Unlinked hi hi' id i) :
    (removeClear hi' i).1.Has (ids.erase id) := by
  obtain ⟨l₁, l₂, hl, hl'⟩ := hun.list
  have hself : (removeClear hi' i).1.id i = ⟨-1, none⟩ := Function.update_self ..
  have hother : ∀ j, j ≠ i → (removeClear hi' i).1.id j = hi'.id j := fun j hj =>
    Function.update_of_ne hj ..
  have hbucket : ∀ id, (removeClear hi' i).1.bucket id = hi.bucket id := fun id => by
    rw [Hashid.bucket, Hashid.bucket, ← hun.hashmod]
    rfl
  have hnot : i ∉ l₁ ++ l₂ := by
    have hnodup := hl.nodup
    rw [List.nodup_middle] at hnodup
    exact (List.nodup_cons.mp hnodup).1
  have hout : ∀ k l, k ≠ hi.bucket id → hi.Listed k l → i ∉ l := by
    intro k l hk hl
    refine h.not_mem ?_ hl
    intro id' hid' heq
    obtain rfl : id = id' := by omega
    exact hk.symm
  have hkeep : ∀ k l, i ∉ l → hi'.Listed k l → (removeClear hi' i).1.Listed k l := by
    intro k l hnot hl
    apply hl.congr
    intro j hj
    rw [hother j (ne_of_mem_of_not_mem hj hnot)]
  have hkept : ∀ j ≠ i, j < hi.cap → ∀ id' ∈ ids, (hi.id j).id = id' → id' ∈ ids.erase id := by
    intro j hne hj id' hid' heq
    apply (List.mem_erase_of_ne _).mpr hid'
    rintro rfl
    exact hne (h.alone j hj i hlt (by rw [heq, hnode]) (by omega))
  have hold : ∀ k j, j ≠ i →
      (j < hi.cap ∧ ∃ id' ∈ ids, (hi.id j).id = id' ∧ hi.bucket id' = k) →
      j < (removeClear hi' i).1.cap ∧ ∃ id' ∈ ids.erase id,
        ((removeClear hi' i).1.id j).id = id' ∧ (removeClear hi' i).1.bucket id' = k := by
    rintro k j hne ⟨hltj, id', hid', heq, hb⟩
    refine ⟨hltj.trans_eq hun.cap.symm, id', hkept j hne hltj id' hid' heq, ?_,
      (hbucket id').trans hb⟩
    rw [hother j hne, hun.node, heq]
  constructor
  · intro k
    obtain ⟨l, hlk, hall⟩ := h.listed k
    by_cases hk : k = hi.bucket id
    · subst hk
      obtain rfl := hlk.unique hl
      refine ⟨l₁ ++ l₂, hkeep _ _ hnot hl', fun j hj => ?_⟩
      apply hold _ j (ne_of_mem_of_not_mem hj hnot)
      apply hall
      rw [List.mem_append] at hj ⊢
      exact hj.imp_right (List.mem_cons_of_mem _)
    · have hnot := hout k l hk hlk
      refine ⟨l, hkeep k l hnot (hun.other k l hk hlk), fun j hj => ?_⟩
      exact hold k j (ne_of_mem_of_not_mem hj hnot) (hall j hj)
  · intro j hj
    have hj' : j < hi.cap := hj.trans_eq hun.cap
    by_cases hne : j = i
    · subst hne
      rw [hself]
      exact .inl ⟨rfl, rfl⟩
    · rw [hother j hne, hun.node]
      obtain ⟨hfree, hnext⟩ | ⟨id', hid', heq, l, hlj, hmem⟩ := h.free j hj'
      · left
        rw [hun.free j hfree]
        exact ⟨hfree, hnext⟩
      · right
        refine ⟨id', hkept j hne hj' id' hid' heq, heq, ?_⟩
        rw [hbucket]
        by_cases hk : hi.bucket id' = hi.bucket id
        · rw [hk] at hlj ⊢
          obtain rfl := hlj.unique hl
          refine ⟨l₁ ++ l₂, hkeep _ _ hnot hl', ?_⟩
          rw [List.mem_append, List.mem_cons] at hmem
          rw [List.mem_append]
          tauto
        · exact ⟨l, hkeep _ l (hout _ l hk hlj) (hun.other _ l hk hlj), hmem⟩
  · intro id' hid'
    obtain ⟨hne, hmem⟩ := h.nodup.mem_erase_iff.mp hid'
    obtain ⟨j, hj, heq⟩ := h.node id' hmem
    refine ⟨j, hj.trans_eq hun.cap.symm, ?_⟩
    rw [hother j, hun.node, heq]
    rintro rfl
    omega
  · intro j hj j' hj' heq hne
    have hji : j ≠ i := by
      rintro rfl
      rw [hself] at hne
      exact hne rfl
    have hji' : j' ≠ i := by
      rintro rfl
      rw [heq, hself] at hne
      exact hne rfl
    rw [hother j hji, hother j' hji', hun.node, hun.node] at heq
    rw [hother j hji, hun.node] at hne
    exact h.alone j (hj.trans_eq hun.cap) j' (hj'.trans_eq hun.cap) heq hne
  · exact h.nodup.erase id
  · have hpos := List.length_pos_of_mem hid
    show hi'.count - 1 = _
    rw [hun.count, h.count, List.length_erase_of_mem hid]
    omega

theorem removeLoop_chain {c : Nat} {l : List Nat} {n : Nat}
    (h : Chain (fun i => (hi.id i).next) (some c) (c :: l)) (hn : l.length < n) :
    (removeLoop hi id n c = .ok (hi, -1) ∧ ∀ i ∈ l, (hi.id i).id ≠ id) ∨
      ∃ l₁ p i l₂, c :: l = l₁ ++ p :: i :: l₂ ∧ (hi.id i).id = id ∧
        removeLoop hi id n c =
          .ok (removeClear { hi with
            id := Function.update hi.id p { hi.id p with next := (hi.id i).next } } i) := by
  induction n generalizing c l with
  | zero => exact absurd hn (Nat.not_lt_zero _)
  | succ n ih =>
    cases h with
    | cons h =>
      rw [removeLoop]
      cases l with
      | nil =>
        rw [show (hi.id c).next = none from h.start]
        exact .inl ⟨rfl, List.forall_mem_nil _⟩
      | cons temp l =>
        have hstart : (hi.id c).next = some temp := h.start
        rw [hstart] at h ⊢
        dsimp only
        by_cases hid : (hi.id temp).id = id
        · rw [if_pos hid]
          exact .inr ⟨[], c, temp, l, rfl, hid, rfl⟩
        · rw [if_neg hid]
          obtain ⟨hloop, hall⟩ | ⟨l₁, p, i, l₂, heq, hnode, hloop⟩ :=
            ih h (Nat.lt_of_succ_lt_succ hn)
          · exact .inl ⟨hloop, List.forall_mem_cons.mpr ⟨hid, hall⟩⟩
          · exact .inr ⟨c :: l₁, p, i, l₂, by rw [heq]; rfl, hnode, hloop⟩

theorem hashidRemove_nil (h : hi.hash (hi.bucket id) = none) :
    hashidRemove hi id = .ok (hi, -1) := by
  rw [hashidRemove, h]

theorem hashidRemove_cons (h : hi.hash (hi.bucket id) = some c) :
    hashidRemove hi id =
      if (hi.id c).id = id then
        .ok (removeClear
          { hi with hash := Function.update hi.hash (hi.bucket id) (hi.id c).next } c)
      else removeLoop hi id hi.cap c := by
  rw [hashidRemove, h]

theorem unlinked_first (hl : hi.Listed (hi.bucket id) (c :: l)) :
    Unlinked hi { hi with hash := Function.update hi.hash (hi.bucket id) (hi.id c).next } id c := by
  refine ⟨rfl, rfl, rfl, fun _ => rfl, fun _ _ => rfl, ⟨[], l, hl, ?_⟩, ?_⟩
  · rw [Hashid.Listed]
    dsimp only
    rw [Function.update_self]
    exact hl.tail
  · intro k l hk hlk
    rw [Hashid.Listed]
    dsimp only
    rwa [Function.update_of_ne hk]

theorem Hashid.Has.unlinked_after (h : hi.Has ids) {p i : Nat} {l₁ l₂ : List Nat}
    (hl : hi.Listed (hi.bucket id) (l₁ ++ p :: i :: l₂)) :
    Unlinked hi { hi with id := Function.update hi.id p { hi.id p with next := (hi.id i).next } }
      id i := by
  obtain ⟨l, hl₀, hall⟩ := h.listed (hi.bucket id)
  obtain rfl := hl₀.unique hl
  obtain ⟨-, id', -, hidp, hbucketp⟩ := hall p (List.mem_append_right _ List.mem_cons_self)
  have hnodup := hl.nodup
  rw [List.nodup_middle] at hnodup
  have hp : p ∉ l₁ ++ i :: l₂ := (List.nodup_cons.mp hnodup).1
  refine ⟨rfl, rfl, rfl, ?_, ?_, ⟨l₁ ++ [p], l₂, ?_, ?_⟩, ?_⟩
  · intro j
    dsimp only
    by_cases hj : j = p
    · rw [hj, Function.update_self]
    · rw [Function.update_of_ne hj]
  · intro j hj
    dsimp only
    rw [Function.update_of_ne]
    rintro rfl
    omega
  · rwa [List.append_assoc]
  · rw [Hashid.Listed, List.append_assoc]
    apply hl.splice
    · intro j hj
      dsimp only
      rw [Function.update_of_ne (ne_of_mem_of_not_mem (List.mem_append_left _ hj) hp)]
    · dsimp only
      rw [Function.update_self]
      have hrest : Chain (fun i => (hi.id i).next) (hi.id i).next l₂ :=
        @Chain.rest _ _ (hi.hash (hi.bucket id)) i (l₁ ++ [p]) l₂ (by rwa [List.append_assoc])
      apply hrest.congr
      intro j hj
      have hmem : j ∈ l₁ ++ i :: l₂ := List.mem_append_right _ (List.mem_cons_of_mem _ hj)
      rw [Function.update_of_ne (ne_of_mem_of_not_mem hmem hp)]
  · intro k l' hk hlk
    have hnot : p ∉ l' := by
      refine h.not_mem ?_ hlk
      intro id'' _ heq
      obtain rfl : id' = id'' := by omega
      rw [hbucketp]
      exact hk.symm
    apply hlk.congr
    intro j hj
    dsimp only
    rw [Function.update_of_ne (ne_of_mem_of_not_mem hj hnot)]

theorem Hashid.Has.remove_mem (h : hi.Has ids) (hid : id ∈ ids) :
    ∃ i < hi.cap, (hi.id i).id = id ∧ ∃ hi', Unlinked hi hi' id i ∧
      hashidRemove hi id = .ok (removeClear hi' i) := by
  obtain ⟨l, hl, hall⟩ := h.listed (hi.bucket id)
  have hlen := length_le_cap hl fun j hj => (hall j hj).1
  obtain ⟨i₀, hlt₀, hnode₀⟩ := h.node id hid
  have hmem₀ : i₀ ∈ l := by
    obtain ⟨hfree, -⟩ | ⟨id', -, heq, l', hl', hmem⟩ := h.free i₀ hlt₀
    · omega
    · obtain rfl : id = id' := by omega
      rwa [hl.unique hl']
  cases l with
  | nil => exact absurd hmem₀ List.not_mem_nil
  | cons c l =>
    have hstart : hi.hash (hi.bucket id) = some c := hl.start
    have hchain := hl
    rw [Hashid.Listed, hstart] at hchain
    rw [hashidRemove_cons hstart]
    by_cases hc : (hi.id c).id = id
    · rw [if_pos hc]
      exact ⟨c, (hall c List.mem_cons_self).1, hc, _, unlinked_first hl, rfl⟩
    · rw [if_neg hc]
      obtain ⟨-, hnone⟩ | ⟨l₁, p, i, l₂, heq, hnode, hloop⟩ :=
        @removeLoop_chain hi id c l _ hchain hlen
      · obtain rfl | hmem := List.mem_cons.mp hmem₀
        · exact absurd hnode₀ hc
        · exact absurd hnode₀ (hnone i₀ hmem)
      · rw [heq] at hl hall
        have hi := hall i (List.mem_append_right _ (List.mem_cons_of_mem _ List.mem_cons_self))
        exact ⟨i, hi.1, hnode, _, h.unlinked_after hl, hloop⟩

theorem Hashid.Has.remove_absent (h : hi.Has ids) (hid : id ∉ ids) :
    hashidRemove hi id = .ok (hi, -1) := by
  obtain ⟨l, hl, hall⟩ := h.listed (hi.bucket id)
  have hnone : ∀ i ∈ l, (hi.id i).id ≠ id := by
    intro i hmem heq
    obtain ⟨-, id', hid', heq', -⟩ := hall i hmem
    obtain rfl : id = id' := by omega
    exact hid hid'
  have hlen := length_le_cap hl fun j hj => (hall j hj).1
  cases l with
  | nil => exact hashidRemove_nil hl.start
  | cons c l =>
    have hstart : hi.hash (hi.bucket id) = some c := hl.start
    rw [hashidRemove_cons hstart, if_neg (hnone c List.mem_cons_self)]
    rw [Hashid.Listed, hstart] at hl
    obtain ⟨hloop, -⟩ | ⟨l₁, p, i, l₂, heq, hnode, -⟩ := @removeLoop_chain hi id c l _ hl hlen
    · exact hloop
    · refine absurd hnode (hnone i ?_)
      rw [heq]
      exact List.mem_append_right _ (List.mem_cons_of_mem _ List.mem_cons_self)

/-- A free node is reached from the `i`-th round on, in one of `n` rounds, before the sum
overflows. -/
def Hashid.Reaches (hi : Hashid) (id i n : Nat) : Prop :=
  ∃ k < n, i + k + id ≤ INT_MAX ∧ (hi.id ((i + k + id) % hi.cap)).id = -1

theorem insertLoop_ok {n i : Nat} (hcap : 0 < hi.cap) (h : hi.Reaches id i n) :
    ∃ c, insertLoop hi id n i = .ok c ∧ c < hi.cap ∧ (hi.id c).id = -1 := by
  induction n generalizing i with
  | zero =>
    obtain ⟨k, hk, -⟩ := h
    exact absurd hk (Nat.not_lt_zero k)
  | succ n ih =>
    obtain ⟨k, hk, hsum, hfree⟩ := h
    rw [insertLoop, if_neg (by omega)]
    dsimp only
    by_cases hone : (hi.id ((i + id) % hi.cap)).id = -1
    · rw [if_pos hone]
      exact ⟨_, rfl, Nat.mod_lt _ hcap, hone⟩
    · rw [if_neg hone]
      apply ih
      cases k with
      | zero => exact absurd hfree hone
      | succ k =>
        refine ⟨k, Nat.lt_of_succ_lt_succ hk, by omega, ?_⟩
        rwa [show i + 1 + k = i + (k + 1) by omega]

theorem insertLoop_fault {n i : Nat} (h : ¬hi.Reaches id i n) :
    ∃ e, insertLoop hi id n i = .error e := by
  induction n generalizing i with
  | zero => exact ⟨_, rfl⟩
  | succ n ih =>
    rw [insertLoop]
    by_cases hsum : INT_MAX < i + id
    · rw [if_pos hsum]
      exact ⟨_, rfl⟩
    · rw [if_neg hsum]
      have hone : (hi.id ((i + id) % hi.cap)).id ≠ -1 := fun hone =>
        h ⟨0, Nat.succ_pos n, Nat.not_lt.mp hsum, hone⟩
      dsimp only
      rw [if_neg hone]
      apply ih
      rintro ⟨k, hk, hle, hfree⟩
      refine h ⟨k + 1, Nat.succ_lt_succ hk, by omega, ?_⟩
      rwa [show i + (k + 1) = i + 1 + k by omega]

theorem hashcapLoop_ok {max hashcap k : Nat} (hpos : 0 < hashcap) (hmax : max ≤ 2 ^ 30)
    (h : hashcap * 2 ^ k = 2 ^ 30) : ∃ n, hashcapLoop max hashcap hpos = .ok n := by
  induction k generalizing hashcap with
  | zero =>
    rw [hashcapLoop, if_neg (by omega)]
    exact ⟨_, rfl⟩
  | succ k ih =>
    rw [Nat.pow_succ, Nat.mul_comm (2 ^ k), ← Nat.mul_assoc] at h
    have hle : hashcap * 2 ≤ 2 ^ 30 := by
      rw [← h]
      exact Nat.le_mul_of_pos_right _ (Nat.two_pow_pos k)
    rw [hashcapLoop]
    split
    · rw [if_neg (by unfold INT_MAX; omega)]
      exact ih _ h
    · exact ⟨_, rfl⟩

theorem hashcapLoop_fault {max hashcap k : Nat} (hpos : 0 < hashcap) (hmax : 2 ^ 30 < max)
    (h : hashcap * 2 ^ k = 2 ^ 30) : hashcapLoop max hashcap hpos = .error .overflow := by
  induction k generalizing hashcap with
  | zero => rw [hashcapLoop, if_pos (by omega), if_pos (by unfold INT_MAX; omega)]
  | succ k ih =>
    rw [Nat.pow_succ, Nat.mul_comm (2 ^ k), ← Nat.mul_assoc] at h
    have hle : hashcap * 2 ≤ 2 ^ 30 := by
      rw [← h]
      exact Nat.le_mul_of_pos_right _ (Nat.two_pow_pos k)
    rw [hashcapLoop, if_pos (by omega), if_neg (by unfold INT_MAX; omega)]
    exact ih _ h

theorem Hashid.has_nil (hashmod cap : Nat) :
    Hashid.Has ⟨hashmod, cap, 0, fun _ => ⟨-1, none⟩, fun _ => none⟩ [] where
  listed _ := ⟨[], .nil, List.forall_mem_nil _⟩
  free _ _ := .inl ⟨rfl, rfl⟩
  node := List.forall_mem_nil _
  alone _ _ _ _ _ hne := absurd rfl hne
  nodup := List.nodup_nil
  count := rfl

variable {max : Nat}

theorem hashidInit_ok (hmax : max ≤ 2 ^ 30) :
    ∃ hi, hashidInit max = .ok hi ∧ hi.cap = max ∧ hi.Has [] := by
  obtain ⟨hashcap, hloop⟩ := @hashcapLoop_ok max 16 26 (by decide) hmax (by decide)
  rw [hashidInit, hloop]
  exact ⟨_, rfl, rfl, Hashid.has_nil _ _⟩

theorem hashidInit_fault (hmax : 2 ^ 30 < max) :
    hashidInit max = .error .overflow := by
  rw [hashidInit, @hashcapLoop_fault max 16 26 (by decide) hmax (by decide)]
  rfl

/-! ### Sequences of calls -/

inductive HashidCall
  | insert (id : Nat)
  | remove (id : Nat)
  deriving DecidableEq

def HashidCall.run (hi : Hashid) : HashidCall → Except HashidFault (Hashid × Int)
  | .insert id => hashidInsert hi id
  | .remove id => hashidRemove hi id

/-- The ids that are present after the call. -/
def HashidCall.after (ids : List Nat) : HashidCall → List Nat
  | .insert id => id :: ids
  | .remove id => ids.erase id

/-- An id of an `int` is inserted that is not present, while the table is not full, or one is
removed. -/
def HashidCall.Valid (max : Nat) (ids : List Nat) : HashidCall → Prop
  | .insert id => id ≤ INT_MAX ∧ id ∉ ids ∧ ids.length < max
  | .remove id => id ≤ INT_MAX

/-- Every call is valid with the ids that are present then. -/
def ValidCalls (max : Nat) : List Nat → List HashidCall → Prop
  | _, [] => True
  | ids, call :: calls => call.Valid max ids ∧ ValidCalls max (call.after ids) calls

/-- The table maps the ids to slots below `max`, each to one of its own. -/
structure Maps (max : Nat) (ids : List Nat) (hi : Hashid) : Prop where
  present : ∀ id ∈ ids, ∃ slot < max, hashidLookup hi id = .ok slot
  absent : ∀ id, id ∉ ids → hashidLookup hi id = .ok (-1)
  distinct : ∀ id ∈ ids, ∀ id' ∈ ids, hashidLookup hi id = hashidLookup hi id' → id = id'
  count : hi.count = ids.length
  full : hashidFull hi ↔ hi.count = max

/-- The call returns the slot of its id, and the other ids keep theirs. -/
def Keeps (ids : List Nat) (hi hi' : Hashid) (r : Int) (call : HashidCall) : Prop :=
  (match call with
    | .insert id => hashidLookup hi' id = .ok r
    | .remove id => hashidLookup hi id = .ok r) ∧
  ∀ id ∈ ids, id ∈ call.after ids → hashidLookup hi' id = hashidLookup hi id

/-- Every call returns, and the table is right before and after it. -/
def Correct (max : Nat) : List Nat → Hashid → List HashidCall → Prop
  | ids, hi, [] => Maps max ids hi
  | ids, hi, call :: calls => Maps max ids hi ∧ ∃ hi' r, call.run hi = .ok (hi', r) ∧
    Keeps ids hi hi' r call ∧ Correct max (call.after ids) hi' calls

/-- The table is right from the start, through all of the calls. -/
def HashidCorrect (max : Nat) (calls : List HashidCall) : Prop :=
  ∃ hi, hashidInit max = .ok hi ∧ Correct max [] hi calls

/-- Every id that is inserted finds a free node before the sum of the loop overflows. -/
def InReach : Hashid → List HashidCall → Prop
  | _, [] => True
  | hi, call :: calls =>
    (match call with
      | .insert id => hi.Reaches id 0 hi.cap
      | .remove _ => True) ∧
    ∀ hi' r, call.run hi = .ok (hi', r) → InReach hi' calls

theorem Hashid.Has.maps (h : hi.Has ids) (hcap : hi.cap = max) : Maps max ids hi where
  present id hid := by
    obtain ⟨i, hlt, hnode⟩ := h.node id hid
    exact ⟨i, hlt.trans_eq hcap, h.lookup_node hlt hnode⟩
  absent id hid := h.lookup_absent hid
  distinct id hid id' hid' heq := by
    obtain ⟨i, hlt, hnode⟩ := h.node id hid
    obtain ⟨j, hlt', hnode'⟩ := h.node id' hid'
    rw [h.lookup_node hlt hnode, h.lookup_node hlt' hnode'] at heq
    obtain rfl : i = j := by
      have := Except.ok.inj heq
      omega
    omega
  count := h.count
  full := by rw [hashidFull, hcap]

theorem Hashid.Has.lookup_kept {ids' : List Nat} (h : hi.Has ids) (h' : hi'.Has ids')
    (hcap : hi'.cap = hi.cap) (hid : id ∈ ids)
    (hnode : ∀ i < hi.cap, (hi.id i).id = id → (hi'.id i).id = id) :
    hashidLookup hi' id = hashidLookup hi id := by
  obtain ⟨i, hlt, heq⟩ := h.node id hid
  rw [h.lookup_node hlt heq, h'.lookup_node (hlt.trans_eq hcap.symm) (hnode i hlt heq)]

theorem insert_step (h : hi.Has ids) (hcap : hi.cap = max)
    (hvalid : (HashidCall.insert id).Valid max ids) (hreach : hi.Reaches id 0 hi.cap) :
    ∃ hi' r, hashidInsert hi id = .ok (hi', r) ∧ Keeps ids hi hi' r (.insert id) ∧
      hi'.Has (id :: ids) ∧ hi'.cap = max := by
  obtain ⟨-, hid, hlen⟩ := hvalid
  obtain ⟨c, hloop, hc, hfree⟩ := insertLoop_ok (by omega) hreach
  have hnext : (hi.id c).next = none := by
    obtain ⟨-, hnext⟩ | ⟨id', -, heq, -⟩ := h.free c hc
    · exact hnext
    · omega
  have hself : ((hi.inserted id c).id c).id = id := by
    rw [Hashid.inserted]
    dsimp only
    rw [Function.update_self]
  have hhas := h.inserted hid hc hfree
  refine ⟨_, _, hashidInsert_ok hloop hnext, ⟨hhas.lookup_node hc hself, ?_⟩, hhas, hcap⟩
  intro id' hid' _
  apply h.lookup_kept hhas rfl hid'
  intro i _ heq
  rw [Hashid.inserted]
  dsimp only
  rw [Function.update_of_ne, heq]
  rintro rfl
  omega

theorem remove_step (h : hi.Has ids) (hcap : hi.cap = max) (id : Nat) :
    ∃ hi' r, hashidRemove hi id = .ok (hi', r) ∧ Keeps ids hi hi' r (.remove id) ∧
      hi'.Has (ids.erase id) ∧ hi'.cap = max := by
  by_cases hid : id ∈ ids
  · obtain ⟨i, hlt, hnode, hi', hun, hremove⟩ := h.remove_mem hid
    have hhas := h.removed hid hlt hnode hun
    refine ⟨_, _, hremove, ⟨h.lookup_node hlt hnode, ?_⟩, hhas, hun.cap.trans hcap⟩
    intro id' hid' hafter
    apply h.lookup_kept hhas hun.cap hid'
    intro j _ heq
    rw [removeClear]
    dsimp only
    rw [Function.update_of_ne, hun.node, heq]
    rintro rfl
    obtain rfl : id = id' := by omega
    exact (h.nodup.mem_erase_iff.mp hafter).1 rfl
  · refine ⟨hi, -1, h.remove_absent hid, ⟨h.lookup_absent hid, fun _ _ _ => rfl⟩, ?_, hcap⟩
    rwa [List.erase_of_not_mem hid]

theorem correct_iff_inReach (calls : List HashidCall) (h : hi.Has ids)
    (hcap : hi.cap = max) (hvalid : ValidCalls max ids calls) :
    Correct max ids hi calls ↔ InReach hi calls := by
  induction calls generalizing hi ids with
  | nil => exact iff_of_true (h.maps hcap) trivial
  | cons call calls ih =>
    obtain ⟨hcall, hcalls⟩ := hvalid
    have hnext : (∃ hi' r, call.run hi = .ok (hi', r) ∧ Keeps ids hi hi' r call ∧
        hi'.Has (call.after ids) ∧ hi'.cap = max) →
        (Correct max ids hi (call :: calls) ↔ ∀ hi' r, call.run hi = .ok (hi', r) →
          InReach hi' calls) := by
      rintro ⟨hi', r, hrun, hkeeps, hhas, hcap'⟩
      have hrest := ih hhas hcap' hcalls
      constructor
      · rintro ⟨-, hi₁, r₁, hrun₁, -, hcorrect⟩ hi₂ r₂ hrun₂
        rw [hrun] at hrun₁ hrun₂
        cases hrun₁
        cases hrun₂
        exact hrest.mp hcorrect
      · intro hall
        exact ⟨h.maps hcap, hi', r, hrun, hkeeps, hrest.mpr (hall hi' r hrun)⟩
    cases call with
    | insert id =>
      by_cases hreach : hi.Reaches id 0 hi.cap
      · rw [InReach, and_iff_right hreach]
        exact hnext (insert_step h hcap hcall hreach)
      · obtain ⟨e, hfault⟩ := insertLoop_fault hreach
        apply iff_of_false
        · rintro ⟨-, hi', r, hrun, -⟩
          rw [HashidCall.run, hashidInsert, hfault] at hrun
          cases hrun
        · exact fun hin => hreach hin.1
    | remove id =>
      rw [InReach, and_iff_right trivial]
      exact hnext (remove_step h hcap id)

/-- The table is right through valid calls exactly when it is not too large and every id that is
inserted finds a free node before the sum overflows. -/
theorem hashid_correct_iff (max : Nat) (calls : List HashidCall)
    (hvalid : ValidCalls max [] calls) :
    HashidCorrect max calls ↔
      max ≤ 2 ^ 30 ∧ ∀ hi, hashidInit max = .ok hi → InReach hi calls := by
  by_cases hmax : max ≤ 2 ^ 30
  · obtain ⟨hi, hinit, hcap, hhas⟩ := hashidInit_ok hmax
    have hiff := correct_iff_inReach calls hhas hcap hvalid
    rw [and_iff_right hmax]
    constructor
    · rintro ⟨hi₁, hinit₁, hcorrect⟩ hi₂ hinit₂
      rw [hinit] at hinit₁ hinit₂
      cases hinit₁
      cases hinit₂
      exact hiff.mp hcorrect
    · intro hall
      exact ⟨hi, hinit, hiff.mpr (hall hi hinit)⟩
  · apply iff_of_false
    · rintro ⟨hi, hinit, -⟩
      rw [hashidInit_fault (Nat.lt_of_not_le hmax)] at hinit
      cases hinit
    · exact fun h => hmax h.1

theorem hashidInit_small (h : max ≤ 16) :
    hashidInit max = .ok ⟨15, max, 0, fun _ => ⟨-1, none⟩, fun _ => none⟩ := by
  rw [hashidInit, hashcapLoop, if_neg (Nat.not_lt.mpr h)]
  rfl

/-- The second id finds its first node taken. -/
theorem hashid_correct_two : HashidCorrect 2 [.insert 1, .insert 3, .remove 1] := by
  apply (hashid_correct_iff 2 [.insert 1, .insert 3, .remove 1] ?_).mpr
  · refine ⟨by decide, fun hi hinit => ?_⟩
    rw [hashidInit_small (by decide)] at hinit
    obtain rfl := Except.ok.inj hinit
    refine ⟨⟨0, by decide, by decide, rfl⟩, fun hi' r hrun => ?_⟩
    obtain ⟨rfl, rfl⟩ := Prod.mk.inj (Except.ok.inj hrun)
    refine ⟨⟨1, by decide, by decide, rfl⟩, fun hi' r hrun => ⟨trivial, fun _ _ _ => trivial⟩⟩
  · simp [ValidCalls, HashidCall.Valid, HashidCall.after, INT_MAX]

/-- The largest id finds its first node taken, and the sum for the next one is no `int`; wrapped, it
is `-2 ^ 31`, whose remainder by 3 is the index -2. -/
theorem hashid_overflow_three :
    ¬∀ (max : Nat) (calls : List HashidCall), 0 < max → ValidCalls max [] calls →
      HashidCorrect max calls := by
  intro h
  have hvalid : ValidCalls 3 [] [.insert 1, .insert (2 ^ 31 - 1)] := by
    simp [ValidCalls, HashidCall.Valid, HashidCall.after, INT_MAX]
  obtain ⟨hi, hinit, -, hi₁, r₁, hrun₁, -, -, hi₂, r₂, hrun₂, -⟩ :=
    h 3 [.insert 1, .insert (2 ^ 31 - 1)] (by decide) hvalid
  rw [hashidInit_small (by decide)] at hinit
  obtain rfl := Except.ok.inj hinit
  obtain ⟨rfl, rfl⟩ := Prod.mk.inj (Except.ok.inj hrun₁)
  have hfault : (HashidCall.insert (2 ^ 31 - 1)).run
      ⟨15, 3, 1, Function.update (fun _ => ⟨-1, none⟩) 1 ⟨1, none⟩,
        Function.update (fun _ => none) 1 (some 1)⟩ = .error .overflow := rfl
  have := hfault.symm.trans hrun₂
  cases this

end XsServer.ServiceGate
