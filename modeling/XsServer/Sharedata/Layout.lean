import XsServer.Sharedata.Table

/-! The two passes that lay out a table find a slot for every key, when its integer keys are in the
range of an `int`. -/

namespace XsServer.Sharedata

open XsServer.Lib

variable {ρ α : Type}

/-! ### Strings and keys -/

theorem stringindex_grows (S : Strings) (s : List UInt8) : S <+: (stringindex S s).2 := by
  unfold stringindex
  split
  · exact List.prefix_refl S
  · exact List.prefix_append S [s]

theorem stringindex_mem (S : Strings) (s : List UInt8) : s ∈ (stringindex S s).2 := by
  unfold stringindex
  split
  case isTrue hs => exact hs
  case isFalse hs => exact List.mem_append_right _ (List.mem_singleton.mpr rfl)

theorem stringindex_index (S : Strings) (s : List UInt8) :
    (stringindex S s).1 = (stringindex S s).2.idxOf s + 2 := by
  unfold stringindex
  split
  case isTrue hs => rfl
  case isFalse hs =>
    simp only [List.idxOf_append_of_notMem hs, List.idxOf_cons_self]

def Known (S : Strings) : Key → Prop
  | .int _ => True
  | .str s => s ∈ S

/-- The key of a node for a key whose string is known. -/
def hashKeyOf (S : Strings) : Key → HashKey
  | .int n => integerKey (Int32.ofInt n)
  | .str s => ⟨.string (S.idxOf s + 2), calchash s⟩

variable {S S' : Strings}

theorem Known.mono {k : Key} (h : Known S k) (hS : S <+: S') : Known S' k := by
  cases k with
  | int n => trivial
  | str s => exact hS.subset h

theorem hashKeyOf_mono {k : Key} (h : Known S k) (hS : S <+: S') :
    hashKeyOf S' k = hashKeyOf S k := by
  cases k with
  | int n => rfl
  | str s =>
    obtain ⟨t, rfl⟩ := hS
    simp only [hashKeyOf, List.idxOf_append_of_mem h]

def Key.InRange : Key → Prop
  | .int n => -2 ^ 31 ≤ n ∧ n < 2 ^ 31
  | .str _ => True

theorem ofInt_toInt {n : Int} (h : (Key.int n).InRange) : (Int32.ofInt n).toInt = n :=
  Int32.toInt_ofInt_of_le h.1 h.2

theorem hashKeyOf_injective {k k' : Key} (hk : k.InRange) (hk' : k'.InRange)
    (hs : Known S k) (hs' : Known S k') (h : (hashKeyOf S k).key = (hashKeyOf S k').key) :
    k = k' := by
  cases k with
  | int n =>
    cases k' with
    | int n' =>
      injection h with h
      rw [← ofInt_toInt hk, ← ofInt_toInt hk', h]
    | str s' => cases h
  | str s =>
    cases k' with
    | int n' => cases h
    | str s' =>
      injection h with h
      have hidx : S.idxOf s = S.idxOf s' := by omega
      rw [List.idxOf_inj hs] at hidx
      rw [hidx]

def isHash (b : Nat) : Key → Prop
  | .int n => ¬ inArray b n
  | .str _ => True

instance (b : Nat) : DecidablePred (isHash b)
  | .int n => inferInstanceAs (Decidable (¬ inArray b n))
  | .str _ => inferInstanceAs (Decidable True)

theorem ishashkey_array {b : Nat} {n : Int} (h : (Key.int n).InRange) (hn : inArray b n)
    (S : Strings) : ishashkey b S (.int n) = (.inl n.toNat, S) := by
  simp only [ishashkey, ofInt_toInt h, if_pos hn]

theorem ishashkey_hash {b : Nat} {k : Key} (h : k.InRange) (hk : isHash b k) (S : Strings) :
    ∃ S', ishashkey b S k = (.inr (hashKeyOf S' k), S') ∧ S <+: S' ∧ Known S' k ∧
      (Known S k → S' = S) := by
  cases k with
  | int n =>
    refine ⟨S, ?_, List.prefix_refl S, trivial, fun _ => rfl⟩
    simp only [ishashkey, ofInt_toInt h, if_neg (show ¬ inArray b n from hk), hashKeyOf]
  | str s =>
    refine ⟨(stringindex S s).2, ?_, stringindex_grows S s, stringindex_mem S s, fun hs => ?_⟩
    · simp only [ishashkey, hashKeyOf, ← stringindex_index]
    · rw [stringindex, if_pos (show s ∈ S from hs)]

def hashKeys (b : Nat) (S : Strings) (es : Entries ρ) : List HashKey :=
  (es.filter fun e => isHash b e.1).map fun e => hashKeyOf S e.1

variable {es : Entries ρ}

theorem mem_hashKeys {b : Nat} {hk : HashKey} :
    hk ∈ hashKeys b S es ↔ ∃ e ∈ es, isHash b e.1 ∧ hashKeyOf S e.1 = hk := by
  simp only [hashKeys, List.mem_map, List.mem_filter, decide_eq_true_eq, and_assoc]

theorem hashKeys_append (b : Nat) (S : Strings) (es es' : Entries ρ) :
    hashKeys b S (es ++ es') = hashKeys b S es ++ hashKeys b S es' := by
  rw [hashKeys, List.filter_append, List.map_append]
  rfl

theorem hashKeys_mono {b : Nat}
    (h : ∀ e ∈ es, Known S e.1) (hS : S <+: S') : hashKeys b S' es = hashKeys b S es :=
  List.map_congr_left fun e he => hashKeyOf_mono (h e (List.mem_of_mem_filter he)) hS

variable {e : Key × LuaValue ρ}

theorem hashKeys_single_hash {b : Nat} (S : Strings) (h : isHash b e.1) :
    hashKeys b S [e] = [hashKeyOf S e.1] := by
  rw [hashKeys, List.filter_singleton, decide_eq_true h]
  rfl

theorem hashKeys_single_array {b : Nat} (S : Strings)
    (h : ¬ isHash b e.1) : hashKeys b S [e] = [] := by
  rw [hashKeys, List.filter_singleton, decide_eq_false h]
  rfl

def home (size : Nat) (hk : HashKey) : Nat := hk.keyhash.toNat % size

section Passes

variable (conv : LuaValue ρ → Strings → Except Fault (α × Strings))

/-- The cell was made of the value, at a time when no other strings were known. -/
def Made (S : Strings) (v : LuaValue ρ) (c : α) : Prop :=
  ∃ S0 S1, conv v S0 = .ok (c, S1) ∧ S1 <+: S

variable {conv}

theorem Made.mono {v : LuaValue ρ} {c : α} (h : Made conv S v c)
    (hS : S <+: S') : Made conv S' v c :=
  let ⟨S0, S1, hv, h1⟩ := h
  ⟨S0, S1, hv, h1.trans hS⟩

variable {b size : Nat}

structure ArrayDone (conv : LuaValue ρ → Strings → Except Fault (α × Strings)) (b : Nat)
    (S : Strings) (array : Nat → Option α) (es : Entries ρ) : Prop where
  made : ∀ {i c}, array i = some c →
    inArray b (i + 1) ∧ ∃ v, (Key.int (i + 1), v) ∈ es ∧ Made conv S v c
  filled : ∀ {n v}, (Key.int n, v) ∈ es → inArray b n → ∃ c, array (n.toNat - 1) = some c

variable {array : Nat → Option α}

theorem ArrayDone.mono
    (h : ArrayDone conv b S array es) (hS : S <+: S') : ArrayDone conv b S' array es :=
  ⟨fun hc => let ⟨hi, v, hv, hm⟩ := h.made hc
    ⟨hi, v, hv, hm.mono hS⟩, h.filled⟩

theorem ArrayDone.set
    (h : ArrayDone conv b S array es) {n : Int} {v : LuaValue ρ} {c : α} (hn : inArray b n)
    (hS : S <+: S') (hm : Made conv S' v c) :
    ArrayDone conv b S' (Function.update array (n.toNat - 1) (some c)) (es ++ [(.int n, v)]) where
  made := by
    intro i c' hc
    by_cases hi : i = n.toNat - 1
    · subst hi
      rw [Function.update_self] at hc
      cases hc
      have heq : ((n.toNat - 1 : Nat) : Int) + 1 = n := by
        have := hn.1
        omega
      rw [heq]
      exact ⟨hn, v, List.mem_append_right _ (List.mem_singleton.mpr rfl), hm⟩
    · rw [Function.update_of_ne hi] at hc
      obtain ⟨hi, v', hv, hm'⟩ := h.made hc
      exact ⟨hi, v', List.mem_append_left _ hv, hm'.mono hS⟩
  filled := by
    intro n' v' hmem hn'
    by_cases hi : n'.toNat - 1 = n.toNat - 1
    · rw [hi, Function.update_self]
      exact ⟨c, rfl⟩
    · rw [Function.update_of_ne hi]
      obtain hmem | hmem := List.mem_append.mp hmem
      · exact h.filled hmem hn'
      · rw [List.mem_singleton] at hmem
        cases hmem
        exact absurd rfl hi

theorem ArrayDone.skip
    (h : ArrayDone conv b S array es) (he : isHash b e.1) :
    ArrayDone conv b S array (es ++ [e]) where
  made hc := let ⟨hi, v, hv, hm⟩ := h.made hc
    ⟨hi, v, List.mem_append_left _ hv, hm⟩
  filled := by
    intro n v hmem hn
    obtain hmem | hmem := List.mem_append.mp hmem
    · exact h.filled hmem hn
    · rw [List.mem_singleton] at hmem
      subst hmem
      exact absurd hn he

def HashMade (conv : LuaValue ρ → Strings → Except Fault (α × Strings)) (b : Nat)
    (S : Strings) (hash : Slots HashKey α) (es : Entries ρ) : Prop :=
  ∀ i n, hash i = some n →
    ∃ e ∈ es, isHash b e.1 ∧ hashKeyOf S e.1 = n.key ∧ Made conv S e.2 n.value

variable {hash : Slots HashKey α}

theorem HashMade.mono {es es' : Entries ρ}
    (h : HashMade conv b S hash es) (hS : S <+: S') (hknown : ∀ e ∈ es, Known S e.1)
    (hsub : es ⊆ es') : HashMade conv b S' hash es' := by
  intro i n hn
  obtain ⟨e, he, hhash, hkey, hm⟩ := h i n hn
  exact ⟨e, hsub he, hhash, (hashKeyOf_mono (hknown e he) hS).trans hkey, hm.mono hS⟩

theorem HashMade.set
    (h : HashMade conv b S hash es) (hS : S <+: S') (hknown : ∀ e ∈ es, Known S e.1)
    (he : isHash b e.1) {j : Nat} {n : Slot HashKey α}
    (hkey : hashKeyOf S' e.1 = n.key) (hm : Made conv S' e.2 n.value) :
    HashMade conv b S' (Function.update hash j (some n)) (es ++ [e]) := by
  intro i m hi
  by_cases hij : i = j
  · rw [hij, Function.update_self] at hi
    cases hi
    exact ⟨e, List.mem_append_right _ (List.mem_singleton.mpr rfl), he, hkey, hm⟩
  · rw [Function.update_of_ne hij] at hi
    exact h.mono hS hknown (List.subset_append_left _ _) i m hi

structure Placing (conv : LuaValue ρ → Strings → Except Fault (α × Strings)) (b size : Nat)
    (st : Fill α) (done : Entries ρ) : Prop where
  sizearray : st.table.sizearray = b
  sizehash : st.table.sizehash = size
  known : ∀ e ∈ done, Known st.strings e.1
  array : ArrayDone conv b st.strings st.table.array done
  placed : Slots.Placed (home size) size st.table.hash (hashKeys b st.strings done)
  made : HashMade conv b st.strings st.table.hash done

/-- A pass ends well, or with the error of a conversion. -/
def Passes (conv : LuaValue ρ → Strings → Except Fault (α × Strings)) (es : Entries ρ)
    (r : Except Fault (Fill α)) (good : Fill α → Prop) : Prop :=
  (∃ st, r = .ok st ∧ good st) ∨
    ∃ e ∈ es, ∃ S err, conv e.2 S = .error err ∧ r = .error err

theorem Passes.cons {es : Entries ρ} {r : Except Fault (Fill α)} {good : Fill α → Prop}
    (h : Passes conv es r good) (e : Key × LuaValue ρ) : Passes conv (e :: es) r good :=
  h.imp_right fun ⟨e', he', h'⟩ => ⟨e', List.mem_cons_of_mem _ he', h'⟩

variable (hconv : ∀ v S c S', conv v S = .ok (c, S') → S <+: S')

include hconv

variable {st : Fill α}

theorem fillnocolliding_passes (hsize : 0 < size) {done : Entries ρ}
    (h : Placing conv b size st done) (hrange : ∀ e ∈ es, e.1.InRange) :
    Passes conv es (fillnocolliding conv es st)
      fun st' => Placing conv b size st' (done ++ es) := by
  induction es generalizing done st with
  | nil =>
    refine .inl ⟨st, rfl, ?_⟩
    rw [List.append_nil]
    exact h
  | cons e es ih =>
    obtain ⟨k, v⟩ := e
    rw [List.forall_mem_cons] at hrange
    have hdone : done ++ (k, v) :: es = done ++ [(k, v)] ++ es := by
      rw [List.append_assoc, List.singleton_append]
    rw [hdone, fillnocolliding, h.sizearray]
    by_cases hk : isHash b k
    · obtain ⟨S1, hkey, hS1, hknown, -⟩ := ishashkey_hash hrange.1 hk st.strings
      rw [hkey]
      have hmain : st.mainpos (hashKeyOf S1 k) = home size (hashKeyOf S1 k) := by
        rw [Fill.mainpos, h.sizehash, home]
      have hall : ∀ {S2 : Strings}, S1 <+: S2 → ∀ e ∈ done ++ [(k, v)], Known S2 e.1 := by
        intro S2 hS2 e he
        obtain he | he := List.mem_append.mp he
        · exact (h.known e he).mono (hS1.trans hS2)
        · rw [List.mem_singleton.mp he]
          exact hknown.mono hS2
      have hplaced : Slots.Placed (home size) size st.table.hash (hashKeys b S1 done) := by
        rw [hashKeys_mono h.known hS1]
        exact h.placed
      simp only [hmain]
      cases hslot : st.table.hash (home size (hashKeyOf S1 k)) with
      | some n =>
        have hstep : Placing conv b size { st with strings := S1 } (done ++ [(k, v)]) :=
          { sizearray := h.sizearray
            sizehash := h.sizehash
            known := hall (List.prefix_refl S1)
            array := (h.array.mono hS1).skip hk
            placed := by
              rw [hashKeys_append, hashKeys_single_hash _ hk]
              exact hplaced.skip hslot
            made := HashMade.mono h.made hS1 h.known (List.subset_append_left _ _) }
        exact (ih hstep hrange.2).cons _
      | none =>
        cases hv : conv v S1 with
        | error err =>
          exact .inr ⟨_, List.mem_cons_self, S1, err, hv, rfl⟩
        | ok r =>
          obtain ⟨c, S2⟩ := r
          have hS2 := hconv _ _ _ _ hv
          have hS := hS1.trans hS2
          have hkey2 := hashKeyOf_mono hknown hS2
          have hstep : Placing conv b size
              (st.sethash (Function.update st.table.hash (home size (hashKeyOf S1 k))
                (some ⟨hashKeyOf S1 k, none, c, true⟩)) S2) (done ++ [(k, v)]) :=
            { sizearray := h.sizearray
              sizehash := h.sizehash
              known := hall hS2
              array := (h.array.mono hS).skip hk
              placed := by
                change Slots.Placed (home size) size _ (hashKeys b S2 (done ++ [(k, v)]))
                rw [hashKeys_append, hashKeys_single_hash _ hk, hkey2,
                  hashKeys_mono h.known hS, ← hashKeys_mono h.known hS1]
                exact hplaced.place (Nat.mod_lt _ hsize) c
              made := by
                exact h.made.set hS h.known hk hkey2 ⟨_, _, hv, List.prefix_refl _⟩ }
          exact (ih hstep hrange.2).cons _
    · cases k with
      | str s => exact absurd trivial hk
      | int n =>
        have hn : inArray b n := not_not.mp hk
        rw [ishashkey_array hrange.1 hn]
        cases hv : conv v st.strings with
        | error err =>
          exact .inr ⟨_, List.mem_cons_self, st.strings, err, hv, by simp only [hv]; rfl⟩
        | ok r =>
          obtain ⟨c, S'⟩ := r
          have hS := hconv _ _ _ _ hv
          have hstep : Placing conv b size (st.setarray n.toNat c S') (done ++ [(.int n, v)]) :=
            { sizearray := h.sizearray
              sizehash := h.sizehash
              known := fun e he => (List.mem_append.mp he).elim
                (fun he => (h.known e he).mono hS) fun he => by
                  rw [List.mem_singleton.mp he]
                  trivial
              array := h.array.set hn hS ⟨_, _, hv, List.prefix_refl _⟩
              placed := by
                change Slots.Placed (home size) size st.table.hash
                  (hashKeys b S' (done ++ [(.int n, v)]))
                rw [hashKeys_append, hashKeys_single_array _ hk, List.append_nil,
                  hashKeys_mono h.known hS]
                exact h.placed
              made := HashMade.mono h.made hS h.known (List.subset_append_left _ _) }
          simp only [hv]
          exact (ih hstep hrange.2).cons _

omit hconv in
theorem findEmpty_spec {t : ConfTable α} {emptyslot : Nat}
    (hfree : ∃ i < t.sizehash, t.hash i = none)
    (hbelow : ∀ i < emptyslot, ∃ n, t.hash i = some n) :
    ∃ f < t.sizehash, findEmpty t emptyslot = some f ∧ t.hash f = none ∧
      ∀ i < f, ∃ n, t.hash i = some n := by
  cases hfind : findEmpty t emptyslot with
  | none =>
    obtain ⟨i, hi, hnone⟩ := hfree
    have hge : emptyslot ≤ i := by
      by_contra! hlt
      obtain ⟨n, hn⟩ := hbelow i hlt
      rw [hnone] at hn
      cases hn
    have hall := List.find?_range'_eq_none.mp hfind i hge (by omega)
    rw [hnone] at hall
    cases hall
  | some f =>
    obtain ⟨hnone, hmem, hbefore⟩ := List.find?_range'_eq_some.mp hfind
    rw [List.mem_range'_1] at hmem
    refine ⟨f, by omega, rfl, Option.isNone_iff_eq_none.mp hnone, fun i hi => ?_⟩
    by_cases hlt : i < emptyslot
    · exact hbelow i hlt
    · have hi' := hbefore i (by omega) hi
      exact Option.ne_none_iff_exists'.mp fun heq => by simp [heq] at hi'

/-- The second pass has seen some of all the entries. -/
structure Linking (conv : LuaValue ρ → Strings → Except Fault (α × Strings)) (b size : Nat)
    (st : Fill α) (all done : Entries ρ) : Prop where
  sizearray : st.table.sizearray = b
  sizehash : st.table.sizehash = size
  known : ∀ e ∈ all, Known st.strings e.1
  array : ArrayDone conv b st.strings st.table.array all
  linked : Slots.Linked (home size) size st.table.hash (hashKeys b st.strings all)
    (hashKeys b st.strings done)
  made : HashMade conv b st.strings st.table.hash all

omit hconv in
theorem Placing.linking {all : Entries ρ} (h : Placing conv b size st all) :
    Linking conv b size st all [] :=
  { h with linked := h.placed.linked }

omit hconv in
theorem HashMade.link
    (h : HashMade conv b S hash es) (hS : S <+: S') (hknown : ∀ e ∈ es, Known S e.1)
    (he : e ∈ es) (hhash : isHash b e.1) {c : α} (hm : Made conv S' e.2 c)
    {i f : Nat} {n : Slot HashKey α} (hi : hash i = some n) (hf : hash f = none) :
    HashMade conv b S' (Slots.link hash i f n (hashKeyOf S' e.1) c) es := by
  intro j m hj
  obtain ⟨-, rfl⟩ | ⟨m', hm', hkey, hvalue, -⟩ := Slots.link_cases hi hf _ _ hj
  · exact ⟨e, he, hhash, rfl, hm⟩
  · rw [hkey, hvalue]
    exact h.mono hS hknown (List.Subset.refl es) j m' hm'

omit hconv in
theorem hashKeys_nodup (hrange : ∀ e ∈ es, e.1.InRange)
    (hknown : ∀ e ∈ es, Known S e.1) (hnodup : (es.map Prod.fst).Nodup) :
    (hashKeys b S es).Nodup := by
  have hes := List.Nodup.of_map _ hnodup
  refine List.Nodup.map_on (fun e he e' he' heq => ?_) (hes.filter _)
  have hmem := List.mem_of_mem_filter he
  have hmem' := List.mem_of_mem_filter he'
  exact List.inj_on_of_nodup_map hnodup hmem hmem' (hashKeyOf_injective (hrange e hmem)
    (hrange e' hmem') (hknown e hmem) (hknown e' hmem') (congrArg HashKey.key heq))

theorem fillcolliding_passes {all : Entries ρ} (hrange : ∀ e ∈ all, e.1.InRange)
    (hnodup : (all.map Prod.fst).Nodup)
    (hsize : ∀ S : Strings, size = (hashKeys b S all).length) {es done : Entries ρ}
    (hall : all = done ++ es) {emptyslot : Nat}
    (h : Linking conv b size st all done)
    (hbelow : ∀ i < emptyslot, ∃ n, st.table.hash i = some n) :
    Passes conv es (fillcolliding conv es emptyslot st)
      fun st' => Linking conv b size st' all all := by
  induction es generalizing done st emptyslot with
  | nil =>
    rw [List.append_nil] at hall
    subst hall
    exact .inl ⟨st, rfl, h⟩
  | cons e es ih =>
    obtain ⟨k, v⟩ := e
    have hall' : all = done ++ [(k, v)] ++ es := by
      rw [hall, List.append_assoc, List.singleton_append]
    have hmem : (k, v) ∈ all := by
      rw [hall]
      exact List.mem_append_right _ List.mem_cons_self
    have hk := hrange _ hmem
    have hknown := h.known _ hmem
    rw [fillcolliding, h.sizearray]
    by_cases hhash : isHash b k
    · obtain ⟨S1, hkey, -, -, hsame⟩ := ishashkey_hash hk hhash st.strings
      obtain rfl := hsame hknown
      rw [hkey]
      have hmain : st.mainpos (hashKeyOf st.strings k) = home size (hashKeyOf st.strings k) := by
        rw [Fill.mainpos, h.sizehash, home]
      have hin : hashKeyOf st.strings k ∈ hashKeys b st.strings all :=
        mem_hashKeys.mpr ⟨_, hmem, hhash, rfl⟩
      have hsingle := hashKeys_single_hash st.strings (e := (k, v)) hhash
      obtain ⟨n, hn, -⟩ := h.linked.main _ hin
      simp only [hmain, hn]
      by_cases hsame : n.key.key = (hashKeyOf st.strings k).key
      · rw [if_pos hsame]
        have hnk : n.key = hashKeyOf st.strings k := by
          obtain ⟨e', he', -, hkey', -⟩ := h.made _ n hn
          rw [← hkey'] at hsame ⊢
          rw [hashKeyOf_injective (hrange _ he') hk (h.known _ he') hknown hsame]
        refine (ih hall' { h with linked := ?_ } hbelow).cons _
        rw [hashKeys_append, hsingle]
        exact h.linked.skip hn hnk
      · rw [if_neg hsame]
        have hne : n.key ≠ hashKeyOf st.strings k := fun heq => hsame (congrArg HashKey.key heq)
        have hnew : hashKeyOf st.strings k ∉ hashKeys b st.strings done := by
          have hkeys := hashKeys_nodup (b := b) hrange h.known hnodup
          rw [hall', hashKeys_append, hashKeys_append, hsingle] at hkeys
          have hdone := (List.nodup_append.mp (List.nodup_append.mp hkeys).1).2.2
          exact fun hmem => hdone _ hmem _ (List.mem_singleton.mpr rfl) rfl
        obtain ⟨f, hf, hfind, hfree, hbefore⟩ := findEmpty_spec (t := st.table) (by
          rw [h.sizehash]
          exact h.linked.exists_free (hsize _) hin fun hi => h.linked.not_held hnew hn hne hi)
          hbelow
        rw [h.sizehash] at hf
        simp only [hfind]
        cases hv : conv v st.strings with
        | error err => exact .inr ⟨_, List.mem_cons_self, st.strings, err, hv, rfl⟩
        | ok r =>
          obtain ⟨c, S'⟩ := r
          have hS := hconv _ _ _ _ hv
          have hkey' := hashKeyOf_mono hknown hS
          have hdone : ∀ e ∈ done ++ [(k, v)], Known st.strings e.1 := fun e he =>
            h.known e (hall' ▸ List.mem_append_left _ he)
          have hlink := h.linked.link hin hnew hn hne hf hfree c
          have hbelow' : ∀ i < f + 1, ∃ m, Slots.link st.table.hash
              (home size (hashKeyOf st.strings k)) f n (hashKeyOf st.strings k) c i = some m := by
            intro i hi
            obtain hi | rfl := Nat.lt_succ_iff_lt_or_eq.mp hi
            · obtain ⟨m, hm⟩ := hbefore i hi
              obtain ⟨m', hm', -⟩ := Slots.link_kept hn hfree (hashKeyOf st.strings k) c hm
              exact ⟨m', hm'⟩
            · exact ⟨_, Slots.link_free hn hfree _ c⟩
          refine (ih hall' ?_ hbelow').cons _
          · refine ⟨h.sizearray, h.sizehash, fun e he => (h.known e he).mono hS,
              h.array.mono hS, ?_, ?_⟩
            · change Slots.Linked (home size) size _ (hashKeys b S' all)
                (hashKeys b S' (done ++ [(k, v)]))
              rw [hashKeys_mono h.known hS, hashKeys_mono hdone hS, hashKeys_append, hsingle]
              exact hlink
            · have hmade := h.made.link hS h.known hmem hhash
                ⟨_, _, hv, List.prefix_refl _⟩ hn hfree
              rw [hkey'] at hmade
              exact hmade
    · cases k with
      | str s => exact absurd trivial hhash
      | int n =>
        rw [ishashkey_array hk (not_not.mp hhash)]
        refine (ih hall' { h with linked := ?_ } hbelow).cons _
        rw [hashKeys_append, hashKeys_single_array _ hhash, List.append_nil]
        exact h.linked

end Passes

end XsServer.Sharedata
