import XsServer.Lib.Results
import XsServer.Sharedata.Layout

/-! `convtable` lays out every table whose integer keys are in the range of an `int`, or fails with
the conversion of a value. -/

namespace XsServer.Sharedata

open XsServer.Lib

variable {ρ α : Type} {conv : LuaValue ρ → Strings → Except Fault (α × Strings)}

def hashcount (b : Nat) (es : Entries ρ) : Nat := es.countP fun e => isHash b e.1

theorem length_hashKeys (b : Nat) (S : Strings) (es : Entries ρ) :
    (hashKeys b S es).length = hashcount b es := by
  rw [hashKeys, List.length_map, hashcount, List.countP_eq_length_filter]

/-- The counters and indices stay in the range of an `int`. -/
structure Fits (b : Nat) (es : Entries ρ) : Prop where
  count : hashcount b es.dropLast < INT_MAX
  index : b = INT_MAX → hashcount b es ≠ 0

theorem countsize_step (b : Nat) (e : Key × LuaValue ρ) (es : Entries ρ) (n : Nat) :
    countsize b (e :: es) n = if INT_MAX ≤ n then .error .undefined
      else countsize b es (n + hashcount b [e]) := by
  obtain ⟨k, v⟩ := e
  cases k with
  | int m =>
    by_cases hm : inArray b m
    · simp [countsize, hashcount, isHash, hm]
    · simp [countsize, hashcount, isHash, hm]
  | str s =>
    rw [show hashcount b [(Key.str s, v)] = 1 from rfl]
    simp only [countsize]

theorem hashcount_cons (b : Nat) (e : Key × LuaValue ρ) (es : Entries ρ) :
    hashcount b (e :: es) = hashcount b [e] + hashcount b es := by
  rw [← List.singleton_append, hashcount, List.countP_append]
  rfl

variable {es : Entries ρ}

theorem countsize_eq {b : Nat} {n : Nat} (hn : n < INT_MAX ∨ es = []) :
    countsize b es n = if n + hashcount b es.dropLast < INT_MAX ∨ es = [] then
      .ok (n + hashcount b es) else .error .undefined := by
  induction es generalizing n with
  | nil => rw [if_pos (.inr rfl)]; rfl
  | cons e es ih =>
    have hlt : n < INT_MAX := hn.resolve_right (List.cons_ne_nil e es)
    rw [countsize_step, if_neg (Nat.not_le.mpr hlt)]
    cases es with
    | nil =>
      rw [if_pos (.inl hlt)]
      rfl
    | cons e' es =>
      rw [List.dropLast_cons_cons, hashcount_cons b e (e' :: es),
        hashcount_cons b e (List.dropLast _)]
      by_cases hle : n + hashcount b [e] < INT_MAX
      · rw [ih (.inl hle), Nat.add_assoc, Nat.add_assoc]
        simp only [List.cons_ne_nil, or_false]
      · rw [countsize_step, if_pos (Nat.not_lt.mp hle), if_neg]
        simp only [List.cons_ne_nil, or_false]
        omega

theorem countsize_zero (b : Nat) (es : Entries ρ) :
    countsize b es 0 = if hashcount b es.dropLast < INT_MAX then .ok (hashcount b es)
      else .error .undefined := by
  rw [countsize_eq (.inl (by decide)), Nat.zero_add, Nat.zero_add]
  by_cases hes : es = []
  · subst hes
    rfl
  · simp only [hes, or_false]

/-! ### Strings and sizes through a pass -/

def Adds (P : List UInt8 → Prop) : Strings → Strings → Prop :=
  Relation.ReflTransGen fun S S' => ∃ s, P s ∧ S' = (stringindex S s).2

section Keep

variable {P : List UInt8 → Prop} {S S' : Strings}

theorem adds_stringindex (S : Strings) {s : List UInt8} (h : P s) : Adds P S (stringindex S s).2 :=
  .single ⟨s, h, rfl⟩

theorem Adds.grows (h : Adds P S S') : S <+: S' := by
  induction h with
  | refl => exact List.prefix_refl S
  | tail _ hs ih =>
    obtain ⟨s, -, rfl⟩ := hs
    exact ih.trans (stringindex_grows _ s)

theorem Adds.nodup (h : Adds P S S') (hS : S.Nodup) : S'.Nodup := by
  induction h with
  | refl => exact hS
  | tail _ hs ih =>
    obtain ⟨s, -, rfl⟩ := hs
    unfold stringindex
    split
    · exact ih
    · rename_i hnew
      exact List.nodup_append.mpr ⟨ih, List.nodup_singleton s, fun a ha b hb heq =>
        hnew (List.mem_singleton.mp hb ▸ heq ▸ ha)⟩

theorem Adds.mem (h : Adds P S S') {s : List UInt8} (hs : s ∈ S') : s ∈ S ∨ P s := by
  induction h with
  | refl => exact .inl hs
  | tail _ hs' ih =>
    obtain ⟨s', hP, rfl⟩ := hs'
    unfold stringindex at hs
    split at hs
    · exact ih hs
    · rcases List.mem_append.mp hs with hs | hs
      · exact ih hs
      · exact .inr (List.mem_singleton.mp hs ▸ hP)

theorem Adds.mono {Q : List UInt8 → Prop} (h : Adds P S S') (hPQ : ∀ s, P s → Q s) : Adds Q S S' :=
  Relation.ReflTransGen.mono (fun _ _ ⟨s, hs, heq⟩ => ⟨s, hPQ s hs, heq⟩) _ _ h

theorem ishashkey_adds (b : Nat) (S : Strings) {k : Key} (hk : ∀ s, k = .str s → P s) :
    Adds P S (ishashkey b S k).2 := by
  cases k with
  | int n =>
    simp only [ishashkey]
    split <;> exact .refl
  | str s => exact adds_stringindex S (hk s rfl)

/-- A pass only adds such strings, and keeps the size of the array. -/
def Keeps (P : List UInt8 → Prop) (st st' : Fill α) : Prop :=
  Adds P st.strings st'.strings ∧ st'.table.sizearray = st.table.sizearray

/-- The strings that are keys, or come of a value, have the property. -/
structure Supplies (conv : LuaValue ρ → Strings → Except Fault (α × Strings))
    (P : List UInt8 → Prop) (e : Key × LuaValue ρ) : Prop where
  key : ∀ s, e.1 = .str s → P s
  value : ∀ S c S', conv e.2 S = .ok (c, S') → Adds P S S'

variable {st st' : Fill α}

theorem fillnocolliding_keeps (hes : ∀ e ∈ es, Supplies conv P e)
    (h : fillnocolliding conv es st = .ok st') : Keeps P st st' := by
  induction es generalizing st with
  | nil =>
    cases h
    exact ⟨.refl, rfl⟩
  | cons e es ih =>
    obtain ⟨he, htail⟩ := List.forall_mem_cons.mp hes
    obtain ⟨k, v⟩ := e
    rw [fillnocolliding] at h
    have hS := ishashkey_adds st.table.sizearray st.strings he.key
    generalize ishashkey st.table.sizearray st.strings k = r at h hS
    obtain ⟨key, S1⟩ := r
    cases key with
    | inl key =>
      cases hv : conv v S1 with
      | error err => simp only [hv] at h; cases h
      | ok r =>
        simp only [hv] at h
        have hrest := ih htail h
        exact ⟨(hS.trans (he.value _ _ _ hv)).trans hrest.1, hrest.2⟩
    | inr hk =>
      cases hslot : st.table.hash (st.mainpos hk) with
      | some n =>
        simp only [hslot] at h
        have hrest := ih htail h
        exact ⟨hS.trans hrest.1, hrest.2⟩
      | none =>
        cases hv : conv v S1 with
        | error err => simp only [hslot, hv] at h; cases h
        | ok r =>
          simp only [hslot, hv] at h
          have hrest := ih htail h
          exact ⟨(hS.trans (he.value _ _ _ hv)).trans hrest.1, hrest.2⟩

theorem fillcolliding_keeps (hes : ∀ e ∈ es, Supplies conv P e) {emptyslot : Nat}
    (h : fillcolliding conv es emptyslot st = .ok st') : Keeps P st st' := by
  induction es generalizing st emptyslot with
  | nil =>
    cases h
    exact ⟨.refl, rfl⟩
  | cons e es ih =>
    obtain ⟨he, htail⟩ := List.forall_mem_cons.mp hes
    obtain ⟨k, v⟩ := e
    rw [fillcolliding] at h
    have hS := ishashkey_adds st.table.sizearray st.strings he.key
    generalize ishashkey st.table.sizearray st.strings k = r at h hS
    obtain ⟨key, S1⟩ := r
    cases key with
    | inl key =>
      have hrest := ih htail h
      exact ⟨hS.trans hrest.1, hrest.2⟩
    | inr hk =>
      cases hslot : st.table.hash (st.mainpos hk) with
      | none => simp only [hslot] at h; cases h
      | some n =>
        simp only [hslot] at h
        split at h
        · have hrest := ih htail h
          exact ⟨hS.trans hrest.1, hrest.2⟩
        · cases hfind : findEmpty st.table emptyslot with
          | none => simp only [hfind] at h; cases h
          | some i =>
            cases hv : conv v S1 with
            | error err => simp only [hfind, hv] at h; cases h
            | ok r =>
              simp only [hfind, hv] at h
              have hrest := ih htail h
              exact ⟨(hS.trans (he.value _ _ _ hv)).trans hrest.1, hrest.2⟩

theorem mem_of_lookup {entries : Entries ρ} {k : Key} {v : LuaValue ρ}
    (h : entries.lookup k = some v) : (k, v) ∈ entries := by
  obtain ⟨l, l', rfl, -⟩ := List.lookup_eq_some_iff.mp h
  exact List.mem_append_right l List.mem_cons_self

theorem fillarray_keeps {entries : Entries ρ} (hes : ∀ e ∈ entries, Supplies conv P e) {i n : Nat}
    (h : fillarray conv entries i n st = .ok st') : Keeps P st st' := by
  induction n generalizing i st with
  | zero =>
    cases h
    exact ⟨.refl, rfl⟩
  | succ n ih =>
    rw [fillarray] at h
    cases hlookup : entries.lookup (.int i) with
    | none => simp only [hlookup] at h; exact ih h
    | some v =>
      cases hv : conv v st.strings with
      | error err => simp only [hlookup, hv] at h; cases h
      | ok r =>
        simp only [hlookup, hv] at h
        have hrest := ih h
        exact ⟨((hes _ (mem_of_lookup hlookup)).value _ _ _ hv).trans hrest.1, hrest.2⟩

end Keep

/-! ### Whole tables -/

def start (sizearray size : Nat) (S : Strings) : Fill α :=
  ⟨⟨sizearray, fun _ => none, size, fun _ => none⟩, S⟩

/-- The steps of `convtable` once the sizes are known. -/
def fill (conv : LuaValue ρ → Strings → Except Fault (α × Strings)) (es : Entries ρ)
    (sizearray size : Nat) (S : Strings) : Except Fault (Fill α) :=
  if size ≠ 0 then do
    let st ← fillnocolliding conv es (start sizearray size S)
    fillcolliding conv es 0 st
  else if sizearray = INT_MAX then .error .undefined
  else fillarray conv es 1 sizearray (start sizearray size S)

theorem convtable_eq {b : Nat} (hb : ¬ (Int32.ofNat b).toInt < 0) (es : Entries ρ) (S : Strings) :
    convtable conv b es S = do
      let size ← countsize (Int32.ofNat b).toInt.toNat es 0
      let st ← fill conv es (Int32.ofNat b).toInt.toNat size S
      return (st.table, st.strings) := by
  unfold convtable
  simp only [hb, if_false]
  congr 1
  funext size
  unfold fill
  by_cases hsize : size = 0
  · by_cases hmax : (Int32.ofNat b).toInt.toNat = INT_MAX
    · simp only [hsize, hmax, ne_eq, not_true, if_true, if_false]
      rfl
    · simp only [hsize, hmax, ne_eq, not_true, if_false]
      rfl
  · simp only [hsize, ne_eq, not_false_eq_true, if_true, bind_assoc]
    rfl

variable {t : ConfTable α}

theorem convtable_inv {b : Nat} {S S' : Strings}
    (h : convtable conv b es S = .ok (t, S')) :
    ∃ size st, countsize (Int32.ofNat b).toInt.toNat es 0 = .ok size ∧
      fill conv es (Int32.ofNat b).toInt.toNat size S = .ok st ∧ t = st.table ∧
      S' = st.strings := by
  by_cases hb : (Int32.ofNat b).toInt < 0
  · unfold convtable at h
    simp only [hb, if_true] at h
    cases h
  rw [convtable_eq hb] at h
  obtain ⟨size, hcount, h⟩ := bind_ok h
  obtain ⟨st, hfill, h⟩ := bind_ok h
  cases h
  exact ⟨size, st, hcount, hfill, rfl, rfl⟩

theorem convtable_keeps {P : List UInt8 → Prop} {b : Nat}
    (hes : ∀ e ∈ es, Supplies conv P e) {S S' : Strings}
    (h : convtable conv b es S = .ok (t, S')) :
    Adds P S S' ∧ t.sizearray = (Int32.ofNat b).toInt.toNat := by
  obtain ⟨size, st, -, hfill, rfl, rfl⟩ := convtable_inv h
  unfold fill at hfill
  split at hfill
  · obtain ⟨st1, hst, hfill⟩ := bind_ok hfill
    have hkeep := fillnocolliding_keeps hes hst
    have hkeep' := fillcolliding_keeps hes hfill
    exact ⟨hkeep.1.trans hkeep'.1, hkeep'.2.trans hkeep.2⟩
  · split at hfill
    · cases hfill
    · exact fillarray_keeps hes hfill

/-- How a table is laid out, given the strings so far. -/
structure Laid (conv : LuaValue ρ → Strings → Except Fault (α × Strings)) (b : Nat)
    (es : Entries ρ) (S : Strings) (t : ConfTable α) : Prop where
  sizearray : t.sizearray = b
  sizehash : t.sizehash = hashcount b es
  known : ∀ e ∈ es, Known S e.1
  array : ArrayDone conv b S t.array es
  linked : Slots.Linked (home t.sizehash) t.sizehash t.hash (hashKeys b S es) (hashKeys b S es)
  made : HashMade conv b S t.hash es

theorem Laid.mono {b : Nat} {S S' : Strings}
    (h : Laid conv b es S t) (hS : S <+: S') : Laid conv b es S' t where
  sizearray := h.sizearray
  sizehash := h.sizehash
  known e he := (h.known e he).mono hS
  array := h.array.mono hS
  linked := by
    rw [hashKeys_mono h.known hS]
    exact h.linked
  made := h.made.mono hS h.known (List.Subset.refl es)

theorem ArrayDone.empty (conv : LuaValue ρ → Strings → Except Fault (α × Strings)) (b : Nat)
    (S : Strings) : ArrayDone conv b S (fun _ => none) [] where
  made hc := by cases hc
  filled h := absurd h List.not_mem_nil

theorem ArrayDone.congr {b : Nat} {S : Strings} {array : Nat → Option α} {es es' : Entries ρ}
    (h : ArrayDone conv b S array es) (hsub : es ⊆ es') (hsub' : es' ⊆ es) :
    ArrayDone conv b S array es' where
  made hc := let ⟨hi, v, hv, hm⟩ := h.made hc
    ⟨hi, v, hsub hv, hm⟩
  filled hv := h.filled (hsub' hv)

section Fill

variable {b : Nat} {entries : Entries ρ} (hnodup : (entries.map Prod.fst).Nodup)

include hnodup

theorem lookup_of_mem {k : Key} {v : LuaValue ρ} (h : (k, v) ∈ entries) :
    entries.lookup k = some v := by
  cases hlookup : entries.lookup k with
  | none =>
    have := List.lookup_eq_none_iff.mp hlookup _ h
    simp at this
  | some v' =>
    obtain ⟨l, l', rfl, -⟩ := List.lookup_eq_some_iff.mp hlookup
    have heq := List.inj_on_of_nodup_map hnodup h
      (List.mem_append_right l List.mem_cons_self) rfl
    cases heq
    rfl

structure Filling (conv : LuaValue ρ → Strings → Except Fault (α × Strings)) (b : Nat)
    (entries : Entries ρ) (i : Nat) (st : Fill α) (done : Entries ρ) : Prop where
  sizearray : st.table.sizearray = b
  sizehash : st.table.sizehash = 0
  hash : st.table.hash = fun _ => none
  array : ArrayDone conv b st.strings st.table.array done
  sub : done ⊆ entries
  covers : ∀ {n : Nat} {v}, (Key.int n, v) ∈ entries → 0 < n → n < i → (Key.int n, v) ∈ done

theorem fillarray_passes (hconv : ∀ v S c S', conv v S = .ok (c, S') → S <+: S') {i n : Nat}
    (hi : 0 < i) (hn : i + n = b + 1) {st : Fill α} {done : Entries ρ}
    (h : Filling conv b entries i st done) :
    Passes conv entries (fillarray conv entries i n st)
      fun st' => ∃ done', Filling conv b entries (b + 1) st' done' := by
  induction n generalizing i st done with
  | zero =>
    obtain rfl : i = b + 1 := hn
    exact .inl ⟨st, rfl, done, h⟩
  | succ n ih =>
    rw [fillarray]
    have hcover : ∀ {done' : Entries ρ}, done ⊆ done' →
        (∀ v, (Key.int i, v) ∈ entries → (Key.int i, v) ∈ done') →
        ∀ {m : Nat} {v}, (Key.int m, v) ∈ entries → 0 < m → m < i + 1 → (Key.int m, v) ∈ done' := by
      intro done' hsub hlast m v hm hpos hlt
      obtain hlt | rfl := Nat.lt_succ_iff_lt_or_eq.mp hlt
      · exact hsub (h.covers hm hpos hlt)
      · exact hlast v hm
    cases hlookup : entries.lookup (.int i) with
    | none =>
      refine ih i.succ_pos (by omega) { h with covers := hcover (List.Subset.refl _) ?_ }
      intro v hv
      rw [lookup_of_mem hnodup hv] at hlookup
      cases hlookup
    | some v =>
      have hmem := mem_of_lookup hlookup
      cases hv : conv v st.strings with
      | error err => exact .inr ⟨_, hmem, st.strings, err, hv, by simp only [hv]; rfl⟩
      | ok r =>
        obtain ⟨c, S'⟩ := r
        have hS := hconv _ _ _ _ hv
        have hin : inArray b i := ⟨by omega, by omega⟩
        have hset := h.array.set hin hS ⟨_, _, hv, List.prefix_refl _⟩
        rw [Int.toNat_natCast] at hset
        simp only [hv]
        have hnext : Filling conv b entries (i + 1) (st.setarray i c S')
            (done ++ [(.int i, v)]) := by
          refine ⟨h.sizearray, h.sizehash, h.hash, hset, ?_,
            hcover (List.subset_append_left _ _) ?_⟩
          · intro e he
            obtain he | he := List.mem_append.mp he
            · exact h.sub he
            · rw [List.mem_singleton.mp he]
              exact hmem
          · intro v' hv'
            have heq := List.inj_on_of_nodup_map hnodup hmem hv' rfl
            cases heq
            exact List.mem_append_right _ (List.mem_singleton.mpr rfl)
        exact ih i.succ_pos (by omega) hnext

theorem fill_passes (hconv : ∀ v S c S', conv v S = .ok (c, S') → S <+: S')
    (hrange : ∀ e ∈ entries, e.1.InRange) (hfits : Fits b entries) {S : Strings} :
    Passes conv entries (fill conv entries b (hashcount b entries) S)
      fun st => Laid conv b entries st.strings st.table := by
  unfold fill
  by_cases hsize : hashcount b entries = 0
  · rw [if_neg (not_not.mpr hsize), if_neg fun hmax => hfits.index hmax hsize]
    have hall : ∀ e ∈ entries, ¬ isHash b e.1 := by
      rw [hashcount, List.countP_eq_zero] at hsize
      exact fun e he hhash => hsize e he (decide_eq_true hhash)
    have hfirst : Filling conv b entries 1 (start b (hashcount b entries) S) [] :=
      ⟨rfl, hsize, rfl, ArrayDone.empty conv b S, List.nil_subset _,
        fun _ hpos hlt => absurd hlt (by omega)⟩
    refine (fillarray_passes hnodup hconv Nat.one_pos (Nat.add_comm 1 b) hfirst).imp_left ?_
    rintro ⟨st, hst, done, h⟩
    have hkeys : ∀ S, hashKeys b S entries = [] := fun S => by
      rw [hashKeys, List.filter_eq_nil_iff.mpr fun e he => by simp [hall e he]]
      rfl
    have hcovers : entries ⊆ done := by
      rintro ⟨k, v⟩ he
      have hk := hall _ he
      cases k with
      | str s => exact absurd trivial hk
      | int n =>
        obtain ⟨hpos, hle⟩ := not_not.mp hk
        lift n to Nat using hpos.le
        exact h.covers he (by omega) (by omega)
    refine ⟨st, hst, h.sizearray, h.sizehash.trans hsize.symm, fun e he => ?_,
      h.array.congr h.sub hcovers, ?_, ?_⟩
    · obtain ⟨k, v⟩ := e
      cases k with
      | str s => exact absurd trivial (hall _ he)
      | int n => trivial
    · rw [h.hash, hkeys]
      exact (Slots.Placed.empty _ _).linked
    · intro i n hn
      rw [h.hash] at hn
      cases hn
  · rw [if_pos hsize]
    have hfirst : Placing conv b (hashcount b entries)
        (start b (hashcount b entries) S : Fill α) [] :=
      ⟨rfl, rfl, fun _ h => absurd h List.not_mem_nil, ArrayDone.empty conv b S,
        Slots.Placed.empty _ _, fun _ _ hn => by cases hn⟩
    obtain ⟨st, hst, h⟩ | ⟨e, he, S1, err, hv, hst⟩ :=
      fillnocolliding_passes hconv (Nat.pos_of_ne_zero hsize) hfirst hrange
    · rw [hst]
      have hlinking := Placing.linking h
      have hnone : ∀ i < 0, ∃ n, st.table.hash i = some n := fun i hi => absurd hi i.not_lt_zero
      refine (fillcolliding_passes hconv hrange hnodup
        (fun S => (length_hashKeys b S entries).symm) rfl hlinking hnone).imp_left ?_
      rintro ⟨st', hst', h'⟩
      refine ⟨st', hst', h'.sizearray, h'.sizehash, h'.known, h'.array, ?_, h'.made⟩
      rw [h'.sizehash]
      exact h'.linked
    · exact .inr ⟨e, he, S1, err, hv, by rw [hst]; rfl⟩

end Fill

theorem convtable_passes (hconv : ∀ v S c S', conv v S = .ok (c, S') → S <+: S') {b : Nat}
    (hb : (b : Int) < 2 ^ 31) (hnodup : (es.map Prod.fst).Nodup)
    (hrange : ∀ e ∈ es, e.1.InRange) (hfits : Fits b es) {S : Strings} :
    (∃ t S', convtable conv b es S = .ok (t, S') ∧ Laid conv b es S' t) ∨
      ∃ e ∈ es, ∃ S' err, conv e.2 S' = .error err ∧
        convtable conv b es S = .error err := by
  have hint := Int32.toInt_ofNat_of_lt (Int.ofNat_lt.mp hb)
  rw [convtable_eq (by rw [hint]; omega), hint, Int.toNat_natCast, countsize_zero,
    if_pos hfits.count]
  obtain ⟨st, hst, h⟩ | ⟨e, he, S1, err, hv, hst⟩ := fill_passes hnodup hconv hrange hfits
  · refine .inl ⟨st.table, st.strings, ?_, h⟩
    change (fill conv es b (hashcount b es) S >>= _) = _
    rw [hst]
    rfl
  · refine .inr ⟨e, he, S1, err, hv, ?_⟩
    change (fill conv es b (hashcount b es) S >>= _) = _
    rw [hst]
    rfl

theorem convtable_fits {b : Nat} (hb : (b : Int) < 2 ^ 31) {S S' : Strings}
    (h : convtable conv b es S = .ok (t, S')) : Fits b es := by
  obtain ⟨size, st, hcount, hfill, -, -⟩ := convtable_inv h
  rw [Int32.toInt_ofNat_of_lt (Int.ofNat_lt.mp hb), Int.toNat_natCast] at hcount hfill
  rw [countsize_zero] at hcount
  split at hcount
  case isFalse => cases hcount
  case isTrue hlt =>
    cases hcount
    refine ⟨hlt, fun hmax hzero => ?_⟩
    rw [fill, if_neg (not_not.mpr hzero), if_pos hmax] at hfill
    cases hfill

end XsServer.Sharedata
