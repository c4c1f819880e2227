import Mathlib.Data.List.Nodup
import Mathlib.Data.List.Perm.Subperm
import Mathlib.Data.List.Range

/-! Hash tables with as many slots as keys.  First a key is placed in its home slot if that is free;
then each of the others goes into some free slot and is linked behind the slot of its home. -/

namespace XsServer.Lib

structure Slot (κ α : Type*) where
  key : κ
  next : Option Nat
  value : α
  /-- Nothing was linked behind the slot. -/
  alone : Bool
  deriving DecidableEq

variable {κ α : Type*}

abbrev Slots (κ α : Type*) := Nat → Option (Slot κ α)

namespace Slots

variable {home : κ → Nat} {size : Nat} {s : Slots κ α}

/-- The slots that are visited from one on. -/
inductive Chain (s : Slots κ α) : Option Nat → List Nat → Prop
  | nil : Chain s none []
  | cons {i : Nat} {n : Slot κ α} {l : List Nat} (h : s i = some n) (hl : Chain s n.next l) :
    Chain s (some i) (i :: l)

theorem Chain.filled {o : Option Nat} {l : List Nat} (h : Chain s o l) :
    ∀ j ∈ l, ∃ n, s j = some n := by
  induction h with
  | nil => exact fun _ hj => absurd hj List.not_mem_nil
  | cons h hl ih => exact List.forall_mem_cons.mpr ⟨⟨_, h⟩, ih⟩

/-- A chain depends on its own slots only. -/
theorem Chain.congr {s' : Slots κ α} {o : Option Nat} {l : List Nat} (h : Chain s o l)
    (heq : ∀ j ∈ l, s' j = s j) : Chain s' o l := by
  induction h with
  | nil => exact .nil
  | cons h hl ih =>
    rw [List.forall_mem_cons] at heq
    exact .cons (heq.1.trans h) (ih heq.2)

/-- What follows a slot in a chain is the chain of that slot. -/
theorem Chain.suffix {o : Option Nat} {l : List Nat} (h : Chain s o l) {i : Nat} (hi : i ∈ l) :
    ∃ l', Chain s (some i) l' ∧ l'.Sublist l := by
  induction h with
  | nil => exact absurd hi List.not_mem_nil
  | @cons j n l h hl ih =>
    obtain rfl | hi := List.mem_cons.mp hi
    · exact ⟨_, .cons h hl, List.Sublist.refl _⟩
    · obtain ⟨l', hl', hsub⟩ := ih hi
      exact ⟨l', hl', hsub.cons j⟩

/-- After some keys had the chance to go to their home slots. -/
structure Placed (home : κ → Nat) (size : Nat) (s : Slots κ α) (done : List κ) : Prop where
  slot : ∀ {i n}, s i = some n →
    i < size ∧ home n.key = i ∧ n.key ∈ done ∧ n.next = none ∧ n.alone = true
  taken : ∀ k ∈ done, ∃ n, s (home k) = some n

theorem Placed.empty (home : κ → Nat) (size : Nat) :
    Placed home size (fun _ => none : Slots κ α) [] :=
  ⟨fun h => (by cases h), fun _ h => absurd h List.not_mem_nil⟩

theorem Placed.place {done : List κ} (h : Placed home size s done) {k : κ}
    (hlt : home k < size) (value : α) :
    Placed home size (Function.update s (home k) (some ⟨k, none, value, true⟩)) (done ++ [k]) where
  slot := by
    intro i n hn
    by_cases hi : i = home k
    · subst hi
      rw [Function.update_self] at hn
      cases hn
      exact ⟨hlt, rfl, List.mem_append_right _ (List.mem_singleton.mpr rfl), rfl, rfl⟩
    · rw [Function.update_of_ne hi] at hn
      obtain ⟨h1, h2, h3, h4⟩ := h.slot hn
      exact ⟨h1, h2, List.mem_append_left _ h3, h4⟩
  taken := by
    intro k' hk'
    by_cases hi : home k' = home k
    · rw [hi, Function.update_self]
      exact ⟨_, rfl⟩
    · rw [Function.update_of_ne hi]
      obtain hk' | hk' := List.mem_append.mp hk'
      · exact h.taken k' hk'
      · rw [List.mem_singleton.mp hk'] at hi
        exact absurd rfl hi

theorem Placed.skip {done : List κ} (h : Placed home size s done) {k : κ} {n : Slot κ α}
    (htaken : s (home k) = some n) : Placed home size s (done ++ [k]) where
  slot hn := by
    obtain ⟨h1, h2, h3, h4⟩ := h.slot hn
    exact ⟨h1, h2, List.mem_append_left _ h3, h4⟩
  taken := by
    intro k' hk'
    obtain hk' | hk' := List.mem_append.mp hk'
    · exact h.taken k' hk'
    · rw [List.mem_singleton.mp hk']
      exact ⟨n, htaken⟩

/-! ### Linking -/

/-- After some keys had the chance to be linked: every home slot has a key at home there, from which
a chain leads to exactly the keys with this home. -/
structure Linked (home : κ → Nat) (size : Nat) (s : Slots κ α) (all done : List κ) : Prop where
  lt : ∀ {i n}, s i = some n → i < size
  mem : ∀ {i n}, s i = some n → n.key ∈ all
  inj : ∀ {i j n m}, s i = some n → s j = some m → n.key = m.key → i = j
  main : ∀ k ∈ all, ∃ n, s (home k) = some n ∧ home n.key = home k
  held : ∀ k ∈ done, ∃ i n, s i = some n ∧ n.key = k
  stray : ∀ {i n}, s i = some n → home n.key ≠ i → n.key ∈ done
  chain : ∀ {i n}, s i = some n → home n.key = i →
    ∃ l, Chain s (some i) l ∧ l.Nodup ∧ ∀ j, j ∈ l ↔ ∃ m, s j = some m ∧ home m.key = i
  alone : ∀ {i n}, s i = some n → n.alone = true → home n.key = i ∧ n.next = none

theorem Placed.linked {all : List κ} (h : Placed home size s all) : Linked home size s all [] where
  lt hn := (h.slot hn).1
  mem hn := (h.slot hn).2.2.1
  inj hn hm heq := by rw [← (h.slot hn).2.1, ← (h.slot hm).2.1, heq]
  main k hk := by
    obtain ⟨n, hn⟩ := h.taken k hk
    exact ⟨n, hn, (h.slot hn).2.1⟩
  held _ hk := absurd hk List.not_mem_nil
  stray hn hne := absurd (h.slot hn).2.1 hne
  chain := by
    intro i n hn hi
    refine ⟨[i], .cons hn (by rw [(h.slot hn).2.2.2.1]; exact .nil), List.nodup_singleton i, ?_⟩
    intro j
    rw [List.mem_singleton]
    constructor
    · rintro rfl
      exact ⟨n, hn, hi⟩
    · rintro ⟨m, hm, hj⟩
      rw [← (h.slot hm).2.1, hj]
  alone hn _ := ⟨(h.slot hn).2.1, (h.slot hn).2.2.2.1⟩

variable {all done : List κ}

theorem Linked.skip (h : Linked home size s all done) {k : κ} {i : Nat} {n : Slot κ α}
    (hn : s i = some n) (hk : n.key = k) : Linked home size s all (done ++ [k]) :=
  { h with
    held := fun k' hk' => (List.mem_append.mp hk').elim (h.held k') fun hk' =>
      ⟨i, n, hn, hk.trans (List.mem_singleton.mp hk').symm⟩
    stray := fun hn hne => List.mem_append_left _ (h.stray hn hne) }

/-- A key that is not at home and was not linked is in no slot. -/
theorem Linked.not_held (h : Linked home size s all done) {k : κ} (hk : k ∉ done)
    {m : Slot κ α} (hm : s (home k) = some m) (hne : m.key ≠ k) {i : Nat} {n : Slot κ α}
    (hn : s i = some n) : n.key ≠ k := by
  rintro rfl
  by_cases hi : home n.key = i
  · rw [hi, hn] at hm
    cases hm
    exact hne rfl
  · exact hk (h.stray hn hi)

/-- The slots that are filled are fewer than the keys as long as a key is in none. -/
theorem Linked.exists_free (h : Linked home size s all done) (hsize : size = all.length) {k : κ}
    (hk : k ∈ all) (hfree : ∀ {i n}, s i = some n → n.key ≠ k) : ∃ i < size, s i = none := by
  classical
  by_contra! hnone
  have hslot : ∀ i < size, ∃ k' n, s i = some n ∧ n.key = k' := fun i hi =>
    let ⟨n, hn⟩ := Option.ne_none_iff_exists'.mp (hnone i hi)
    ⟨n.key, n, hn, rfl⟩
  have : Nonempty κ := ⟨k⟩
  choose! key hkey using hslot
  have hnodup : ((List.range size).map key).Nodup := by
    refine List.Nodup.map_on (fun i hi j hj heq => ?_) List.nodup_range
    obtain ⟨n, hn, hni⟩ := hkey i (List.mem_range.mp hi)
    obtain ⟨m, hm, hmj⟩ := hkey j (List.mem_range.mp hj)
    exact h.inj hn hm (by rw [hni, hmj, heq])
  have hsub : (List.range size).map key ⊆ all.erase k := by
    intro k' hk'
    obtain ⟨i, hi, rfl⟩ := List.mem_map.mp hk'
    obtain ⟨n, hn, hni⟩ := hkey i (List.mem_range.mp hi)
    rw [← hni]
    exact (List.mem_erase_of_ne (hfree hn)).mpr (h.mem hn)
  have hle := (hnodup.subperm hsub).length_le
  rw [List.length_map, List.length_range, List.length_erase_of_mem hk] at hle
  have := List.length_pos_of_mem hk
  omega

/-- In the end no slot is free. -/
theorem Linked.full (h : Linked home size s all done) (hall : ∀ k ∈ all, k ∈ done)
    (hnodup : all.Nodup) (hsize : size = all.length) {i : Nat} (hi : i < size) :
    ∃ n, s i = some n := by
  classical
  have hheld : ∀ k ∈ all, ∃ j, ∃ n, s j = some n ∧ n.key = k := fun k hk => h.held k (hall k hk)
  choose! place hplace using hheld
  have hmap : (all.map place).Nodup := by
    refine List.Nodup.map_on (fun k hk k' hk' heq => ?_) hnodup
    obtain ⟨n, hn, rfl⟩ := hplace k hk
    obtain ⟨n', hn', rfl⟩ := hplace k' hk'
    rw [heq, hn'] at hn
    cases hn
    rfl
  have hsub : all.map place ⊆ List.range size := by
    intro j hj
    obtain ⟨k, hk, rfl⟩ := List.mem_map.mp hj
    obtain ⟨n, hn, -⟩ := hplace k hk
    exact List.mem_range.mpr (h.lt hn)
  have hperm := (hmap.subperm hsub).perm_of_length_le (by
    rw [List.length_range, List.length_map, hsize])
  obtain ⟨k, hk, rfl⟩ := List.mem_map.mp (hperm.mem_iff.mpr (List.mem_range.mpr hi))
  obtain ⟨n, hn, -⟩ := hplace k hk
  exact ⟨n, hn⟩

/-- A key goes into a free slot, which is linked behind the slot of its home. -/
def link (s : Slots κ α) (i f : Nat) (n : Slot κ α) (k : κ) (value : α) : Slots κ α :=
  Function.update (Function.update s f (some ⟨k, n.next, value, false⟩)) i
    (some { n with next := some f, alone := false })

section Link

variable {i f : Nat} {n : Slot κ α} (hi : s i = some n) (hf : s f = none) (k : κ) (value : α)

include hi hf

theorem link_ne : i ≠ f := by
  rintro rfl
  rw [hi] at hf
  cases hf

omit hi hf in
theorem link_home : link s i f n k value i = some { n with next := some f, alone := false } :=
  Function.update_self ..

theorem link_free : link s i f n k value f = some ⟨k, n.next, value, false⟩ := by
  rw [link, Function.update_of_ne (link_ne hi hf).symm, Function.update_self]

omit hi hf in
theorem link_of_ne {j : Nat} (hji : j ≠ i) (hjf : j ≠ f) : link s i f n k value j = s j := by
  rw [link, Function.update_of_ne hji, Function.update_of_ne hjf]

omit hi in
theorem link_filled {j : Nat} (h : ∃ m, s j = some m) : j ≠ f := by
  rintro rfl
  obtain ⟨m, hm⟩ := h
  rw [hf] at hm
  cases hm

/-- A slot after linking: the new one, or one from before with the same key and value. -/
theorem link_cases {j : Nat} {m : Slot κ α} (h : link s i f n k value j = some m) :
    (j = f ∧ m = ⟨k, n.next, value, false⟩) ∨
      ∃ m', s j = some m' ∧ m.key = m'.key ∧ m.value = m'.value ∧
        (j = i ∧ m.alone = false ∨ j ≠ i ∧ m = m') := by
  by_cases hji : j = i
  · subst hji
    rw [link_home] at h
    cases h
    exact .inr ⟨n, hi, rfl, rfl, .inl ⟨rfl, rfl⟩⟩
  · by_cases hjf : j = f
    · subst hjf
      rw [link_free hi hf] at h
      cases h
      exact .inl ⟨rfl, rfl⟩
    · rw [link_of_ne k value hji hjf] at h
      exact .inr ⟨m, h, rfl, rfl, .inr ⟨hji, rfl⟩⟩

/-- A slot from before keeps its key and value. -/
theorem link_kept {j : Nat} {m : Slot κ α} (h : s j = some m) :
    ∃ m', link s i f n k value j = some m' ∧ m'.key = m.key ∧ m'.value = m.value := by
  by_cases hji : j = i
  · subst hji
    rw [hi] at h
    cases h
    exact ⟨_, link_home k value, rfl, rfl⟩
  · have hjf : j ≠ f := by
      rintro rfl
      rw [hf] at h
      cases h
    exact ⟨m, (link_of_ne k value hji hjf).trans h, rfl, rfl⟩

end Link

theorem Linked.link (h : Linked home size s all done) {k : κ} (hk : k ∈ all) (hnew : k ∉ done)
    {n : Slot κ α} (hn : s (home k) = some n) (hne : n.key ≠ k) {f : Nat} (hlt : f < size)
    (hf : s f = none) (value : α) :
    Linked home size (Slots.link s (home k) f n k value) all (done ++ [k]) := by
  have hhome : home n.key = home k := by
    obtain ⟨m, hm, hmain⟩ := h.main k hk
    rw [hn] at hm
    cases hm
    exact hmain
  have hfh := link_ne hn hf
  have hkey : ∀ {j m}, Slots.link s (home k) f n k value j = some m →
      j = f ∧ m.key = k ∨ j ≠ f ∧ ∃ m', s j = some m' ∧ m.key = m'.key := by
    intro j m hm
    obtain ⟨rfl, rfl⟩ | ⟨m', hm', hkey, -⟩ := link_cases hn hf k value hm
    · exact .inl ⟨rfl, rfl⟩
    · refine .inr ⟨?_, m', hm', hkey⟩
      rintro rfl
      rw [hf] at hm'
      cases hm'
  refine ⟨?_, ?_, ?_, ?_, ?_, ?_, ?_, ?_⟩
  · intro j m hm
    obtain ⟨rfl, -⟩ | ⟨-, m', hm', -⟩ := hkey hm
    · exact hlt
    · exact h.lt hm'
  · intro j m hm
    obtain ⟨-, hmk⟩ | ⟨-, m', hm', hmk⟩ := hkey hm
    · rw [hmk]
      exact hk
    · rw [hmk]
      exact h.mem hm'
  · intro j j' m m' hm hm' heq
    obtain ⟨rfl, hmk⟩ | ⟨-, p, hp, hmk⟩ := hkey hm
    · obtain ⟨rfl, -⟩ | ⟨-, p', hp', hmk'⟩ := hkey hm'
      · rfl
      · exact absurd (hmk'.symm.trans (heq.symm.trans hmk)) (h.not_held hnew hn hne hp')
    · obtain ⟨rfl, hmk'⟩ | ⟨-, p', hp', hmk'⟩ := hkey hm'
      · exact absurd (hmk.symm.trans (heq.trans hmk')) (h.not_held hnew hn hne hp)
      · exact h.inj hp hp' (by rw [← hmk, ← hmk', heq])
  · intro k' hk'
    obtain ⟨m, hm, hmain⟩ := h.main k' hk'
    obtain ⟨m', hm', hmk, -⟩ := link_kept hn hf k value hm
    exact ⟨m', hm', by rw [hmk, hmain]⟩
  · intro k' hk'
    obtain hk' | hk' := List.mem_append.mp hk'
    · obtain ⟨j, m, hm, hmk⟩ := h.held k' hk'
      obtain ⟨m', hm', hmk', -⟩ := link_kept hn hf k value hm
      exact ⟨j, m', hm', hmk'.trans hmk⟩
    · rw [List.mem_singleton.mp hk']
      exact ⟨f, _, link_free hn hf k value, rfl⟩
  · intro j m hm hstray
    obtain ⟨rfl, hmk⟩ | ⟨-, m', hm', hmk⟩ := hkey hm
    · rw [hmk]
      exact List.mem_append_right _ (List.mem_singleton.mpr rfl)
    · rw [hmk] at hstray ⊢
      exact List.mem_append_left _ (h.stray hm' hstray)
  · intro j m hm hj
    have hmem : ∀ x, (∃ p, Slots.link s (home k) f n k value x = some p ∧ home p.key = j) ↔
        x = f ∧ home k = j ∨ ∃ p, s x = some p ∧ home p.key = j := by
      intro x
      constructor
      · rintro ⟨p, hp, hpj⟩
        obtain ⟨rfl, hpk⟩ | ⟨-, p', hp', hpk⟩ := hkey hp
        · exact .inl ⟨rfl, hpk ▸ hpj⟩
        · exact .inr ⟨p', hp', hpk ▸ hpj⟩
      · rintro (⟨rfl, hkj⟩ | ⟨p, hp, hpj⟩)
        · exact ⟨_, link_free hn hf k value, hkj⟩
        · obtain ⟨p', hp', hpk, -⟩ := link_kept hn hf k value hp
          exact ⟨p', hp', by rw [hpk, hpj]⟩
    simp only [hmem]
    obtain ⟨rfl, hmk⟩ | ⟨-, m', hm', hmk⟩ := hkey hm
    · rw [hmk] at hj
      exact absurd hj hfh
    rw [hmk] at hj
    obtain ⟨l, hl, hnodup, hlmem⟩ := h.chain hm' hj
    have hnf : ∀ x ∈ l, x ≠ f := fun x hx => link_filled hf (hl.filled x hx)
    by_cases hjk : j = home k
    · subst hjk
      cases hl with
      | @cons _ n' l hn' hl =>
        rw [hn] at hn'
        cases hn'
        rw [List.nodup_cons] at hnodup
        refine ⟨home k :: f :: l, ?_, ?_, fun x => ?_⟩
        · refine .cons (link_home k value) (.cons (link_free hn hf k value) (hl.congr ?_))
          intro x hx
          exact link_of_ne k value (fun hxk => hnodup.1 (hxk ▸ hx))
            (hnf x (List.mem_cons_of_mem _ hx))
        · refine List.nodup_cons.mpr ⟨?_, List.nodup_cons.mpr ⟨?_, hnodup.2⟩⟩
          · exact fun hmem' => (List.mem_cons.mp hmem').elim hfh hnodup.1
          · exact fun hfl => hnf f (List.mem_cons_of_mem _ hfl) rfl
        · rw [← hlmem, List.mem_cons, List.mem_cons, List.mem_cons, and_iff_left rfl]
          exact or_left_comm
    · refine ⟨l, hl.congr fun x hx => link_of_ne k value ?_ (hnf x hx), hnodup, fun x => ?_⟩
      · rintro rfl
        obtain ⟨p, hp, hpj⟩ := (hlmem _).mp hx
        rw [hn] at hp
        cases hp
        exact hjk (hpj.symm.trans hhome)
      · rw [hlmem, or_iff_right fun hx => hjk hx.2.symm]
  · intro j m hm halone
    obtain ⟨-, rfl⟩ | ⟨m', hm', -, -, ⟨-, hfalse⟩ | ⟨-, rfl⟩⟩ := link_cases hn hf k value hm
    · cases halone
    · rw [hfalse] at halone
      cases halone
    · exact h.alone hm' halone

/-- What a search finds: a slot, nothing, or that it does not end in the table. -/
inductive Look
  | found (i : Nat)
  | absent
  | broken
  deriving DecidableEq, Repr

/-- The first slot of a chain whose key is the one that is looked for, after as many steps at
most. -/
def chase (s : Slots κ α) (p : κ → Bool) : Nat → Nat → Look
  | 0, _ => .broken
  | fuel + 1, i => match s i with
    | none => .broken
    | some n =>
      if p n.key then .found i
      else match n.next with
        | none => .absent
        | some j => chase s p fuel j

variable {p : κ → Bool}

theorem chase_absent {l : List Nat} {i : Nat} (h : Chain s (some i) l)
    (hp : ∀ j ∈ l, ∀ n, s j = some n → p n.key = false) {fuel : Nat} (hfuel : l.length ≤ fuel) :
    chase s p fuel i = .absent := by
  induction l generalizing i fuel with
  | nil => cases h
  | cons j l ih =>
    cases h with
    | @cons _ n _ hn hl =>
      obtain ⟨fuel, rfl⟩ : ∃ f, fuel = f + 1 :=
        ⟨fuel - 1, by rw [List.length_cons] at hfuel; omega⟩
      rw [chase, hn]
      simp only [hp _ List.mem_cons_self n hn, Bool.false_eq_true, if_false]
      cases hnext : n.next with
      | none => rfl
      | some j' =>
        rw [hnext] at hl
        exact ih hl (fun x hx => hp x (List.mem_cons_of_mem _ hx)) (Nat.le_of_succ_le_succ hfuel)

theorem chase_found {l : List Nat} {i : Nat} (h : Chain s (some i) l) {f : Nat} (hf : f ∈ l)
    (hp : ∀ j ∈ l, ∀ n, s j = some n → (p n.key = true ↔ j = f)) {fuel : Nat}
    (hfuel : l.length ≤ fuel) : chase s p fuel i = .found f := by
  induction l generalizing i fuel with
  | nil => cases h
  | cons j l ih =>
    cases h with
    | @cons _ n _ hn hl =>
      obtain ⟨fuel, rfl⟩ : ∃ f, fuel = f + 1 :=
        ⟨fuel - 1, by rw [List.length_cons] at hfuel; omega⟩
      rw [chase, hn]
      by_cases hi : j = f
      · simp only [(hp _ List.mem_cons_self n hn).mpr hi, if_true, hi]
      · have hfl : f ∈ l := (List.mem_cons.mp hf).resolve_left (Ne.symm hi)
        have hfalse := mt (hp _ List.mem_cons_self n hn).mp hi
        simp only [hfalse]
        cases hnext : n.next with
        | none =>
          rw [hnext] at hl
          cases hl
          exact absurd hfl List.not_mem_nil
        | some j' =>
          rw [hnext] at hl
          exact ih hl hfl (fun x hx => hp x (List.mem_cons_of_mem _ hx))
            (Nat.le_of_succ_le_succ hfuel)

/-- From every slot a chain leads to other slots of the table, each once. -/
theorem Linked.exists_chain (h : Linked home size s all done) {i : Nat} {n : Slot κ α}
    (hn : s i = some n) : ∃ l, Chain s (some i) l ∧ l.length ≤ size := by
  obtain ⟨m, hm, hmain⟩ := h.main n.key (h.mem hn)
  obtain ⟨l, hl, hnodup, hmem⟩ := h.chain hm hmain
  obtain ⟨l', hl', hsub⟩ := hl.suffix ((hmem i).mpr ⟨n, hn, rfl⟩)
  refine ⟨l', hl', ?_⟩
  have hrange : l' ⊆ List.range size := by
    intro j hj
    obtain ⟨p, hp⟩ := hl'.filled j hj
    exact List.mem_range.mpr (h.lt hp)
  have hle := ((hnodup.sublist hsub).subperm hrange).length_le
  rwa [List.length_range] at hle

/-- A key that is in a slot is found from its home. -/
theorem Linked.chase_held (h : Linked home size s all done) {k : κ}
    (hp : ∀ k' ∈ all, p k' = true ↔ k' = k)
    {f : Nat} {n : Slot κ α} (hn : s f = some n) (hk : n.key = k) {fuel : Nat}
    (hfuel : size ≤ fuel) : chase s p fuel (home k) = .found f := by
  subst hk
  obtain ⟨m, hm, hmain⟩ := h.main n.key (h.mem hn)
  obtain ⟨l, hl, hnodup, hmem⟩ := h.chain hm hmain
  have hrange : l ⊆ List.range size := by
    intro j hj
    obtain ⟨p, hp⟩ := hl.filled j hj
    exact List.mem_range.mpr (h.lt hp)
  have hle := (hnodup.subperm hrange).length_le
  rw [List.length_range] at hle
  refine chase_found hl ((hmem f).mpr ⟨n, hn, rfl⟩) (fun j _ n' hn' => ?_) (hle.trans hfuel)
  rw [hp _ (h.mem hn')]
  refine ⟨fun heq => h.inj hn' hn heq, ?_⟩
  rintro rfl
  rw [hn] at hn'
  cases hn'
  rfl

/-- A key that is in none is not found from any slot. -/
theorem Linked.chase_absent (h : Linked home size s all done) (hp : ∀ k ∈ all, p k = false)
    {i : Nat} {n : Slot κ α} (hn : s i = some n) {fuel : Nat} (hfuel : size ≤ fuel) :
    chase s p fuel i = .absent := by
  obtain ⟨l, hl, hle⟩ := h.exists_chain hn
  exact Slots.chase_absent hl (fun j _ m hm => hp _ (h.mem hm)) (hle.trans hfuel)

end Slots

end XsServer.Lib
