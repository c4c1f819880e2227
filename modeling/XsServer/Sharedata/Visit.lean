import XsServer.Sharedata.Lookup

/-! `lnextkey` visits the keys of the array, then the slots of the hash part in order. -/

namespace XsServer.Sharedata

open XsServer.Lib

variable {ρ α : Type} {conv : LuaValue ρ → Strings → Except Fault (α × Strings)}

section NextArray

variable (S : Strings) {t : ConfTable α} {i : Nat}

theorem nextArray_some (hi : i < t.sizearray) {c : α} (h : t.array i = some c) :
    nextArray S t i = .ok (some (.int (i + 1))) := by
  obtain ⟨n, hn⟩ : ∃ n, t.sizearray - i = n + 1 := ⟨t.sizearray - i - 1, by omega⟩
  rw [nextArray, hn, List.range'_succ, List.find?_cons_of_pos (by rw [h]; rfl)]

theorem nextArray_none (hi : i < t.sizearray) (h : t.array i = none) :
    nextArray S t i = nextArray S t (i + 1) := by
  obtain ⟨n, hn⟩ : ∃ n, t.sizearray - i = n + 1 := ⟨t.sizearray - i - 1, by omega⟩
  rw [nextArray, hn, List.range'_succ, List.find?_cons_of_neg (by rw [h]; exact Bool.false_ne_true),
    nextArray, show t.sizearray - (i + 1) = n by omega]

theorem nextArray_end (hi : t.sizearray ≤ i) : nextArray S t i = pushfirsthash S t := by
  rw [nextArray, Nat.sub_eq_zero_of_le hi]
  rfl

end NextArray

def arrayKeys (t : ConfTable α) (i n : Nat) : List Key :=
  ((List.range' i n).filter fun i => (t.array i).isSome).map fun i : Nat => .int (i + 1)

theorem mem_arrayKeys {t : ConfTable α} {i n : Nat} {k : Key} :
    k ∈ arrayKeys t i n ↔ ∃ j c, i ≤ j ∧ j < i + n ∧ t.array j = some c ∧ k = .int (j + 1) := by
  simp only [arrayKeys, List.mem_map, List.mem_filter, List.mem_range'_1, Option.isSome_iff_exists]
  constructor
  · rintro ⟨j, ⟨⟨hij, hjn⟩, c, hc⟩, rfl⟩
    exact ⟨j, c, hij, hjn, hc, rfl⟩
  · rintro ⟨j, c, hij, hjn, hc, rfl⟩
    exact ⟨j, ⟨⟨hij, hjn⟩, c, hc⟩, rfl⟩

theorem nodup_arrayKeys (t : ConfTable α) (i n : Nat) : (arrayKeys t i n).Nodup := by
  refine List.Nodup.map_on (fun j _ j' _ heq => ?_) (List.Nodup.filter _ List.nodup_range')
  injection heq with heq
  omega

section Laid

variable {b : Nat} {es : Entries ρ} {S : Strings} {t : ConfTable α} (h : Laid conv b es S t)
  (hrange : ∀ e ∈ es, e.1.InRange) (hnodup : (es.map Prod.fst).Nodup)

include h hrange hnodup

theorem Laid.full {i : Nat} (hi : i < t.sizehash) : ∃ n, t.hash i = some n :=
  h.linked.full (fun _ hmem => hmem) (hashKeys_nodup hrange h.known hnodup)
    (h.sizehash.trans (length_hashKeys b S es).symm) hi

theorem Laid.exists_key :
    ∃ key : Nat → Key, ∀ i < t.sizehash, ∃ e ∈ es, isHash b e.1 ∧ e.1 = key i ∧
      ∃ n, t.hash i = some n ∧ n.key = hashKeyOf S (key i) := by
  have hslot : ∀ i < t.sizehash, ∃ k, ∃ e ∈ es, isHash b e.1 ∧ e.1 = k ∧
      ∃ n, t.hash i = some n ∧ n.key = hashKeyOf S k := by
    intro i hi
    obtain ⟨n, hn⟩ := h.full hrange hnodup hi
    obtain ⟨e, he, hhash, hkey, -⟩ := h.made i n hn
    exact ⟨e.1, e, he, hhash, rfl, n, hn, hkey.symm⟩
  have : Nonempty Key := ⟨.int 0⟩
  choose! key hkey using hslot
  exact ⟨key, hkey⟩

omit hnodup

variable {key : Nat → Key} (hkey : ∀ i < t.sizehash, ∃ e ∈ es, isHash b e.1 ∧ e.1 = key i ∧
  ∃ n, t.hash i = some n ∧ n.key = hashKeyOf S (key i))

include hkey

theorem Laid.keyAt_eq {i : Nat} (hi : i < t.sizehash) : keyAt S t i = .ok (some (key i)) := by
  obtain ⟨e, he, -, heq, n, hn, hnk⟩ := hkey i hi
  have hknown := h.known e he
  rw [keyAt, hn]
  simp only [pushkey, hnk]
  rw [heq] at hknown
  have hr := hrange e he
  rw [heq] at hr
  cases hk : key i with
  | int m =>
    rw [hk] at hr
    simp only [hashKeyOf, integerKey, ofInt_toInt hr]
    rfl
  | str s =>
    rw [hk] at hknown
    simp only [hashKeyOf, stringAt_idxOf (show s ∈ S from hknown)]
    rfl

theorem Laid.lnextkey_hash {i : Nat} (hi : i < t.sizehash) :
    lnextkey S t (some (key i)) =
      if i + 1 = t.sizehash then .ok none else keyAt S t (i + 1) := by
  obtain ⟨e, he, hhash, heq, n, hn, hnk⟩ := hkey i hi
  obtain ⟨j, m, hm, hmk, hlookup⟩ := h.lookupKey_held hrange he hhash
  have hij : j = i := h.linked.inj hm hn (by rw [hmk, hnk, heq])
  subst hij
  rw [← heq, lnextkey, h.sizearray]
  simp only [arrayIndex_hash (hrange e he) hhash, hlookup]

theorem Laid.visits_hash {i n : Nat} (hn : i + 1 + n = t.sizehash) :
    Visits S t (some (key i)) ((List.range' (i + 1) n).map key) := by
  induction n generalizing i with
  | zero =>
    apply Visits.done
    rw [h.lnextkey_hash hrange hkey (by omega), if_pos (by omega)]
  | succ n ih =>
    rw [List.range'_succ, List.map_cons]
    refine .next ?_ (ih (by omega))
    rw [h.lnextkey_hash hrange hkey (by omega), if_neg (by omega),
      h.keyAt_eq hrange hkey (by omega)]

theorem Laid.visits_array {i n : Nat} (hn : i + n = b) {k : Option Key}
    (hk : lnextkey S t k = nextArray S t i) :
    Visits S t k (arrayKeys t i n ++ (List.range t.sizehash).map key) := by
  induction n generalizing i k with
  | zero =>
    rw [nextArray_end S (by rw [h.sizearray]; omega), pushfirsthash] at hk
    by_cases hsize : t.sizehash = 0
    · rw [if_neg (not_not.mpr hsize)] at hk
      rw [hsize]
      exact .done hk
    · rw [if_pos hsize, h.keyAt_eq hrange hkey (Nat.pos_of_ne_zero hsize)] at hk
      obtain ⟨m, hm⟩ : ∃ m, t.sizehash = m + 1 := ⟨t.sizehash - 1, by omega⟩
      rw [hm, List.range_eq_range', List.range'_succ, List.map_cons]
      exact .next hk (h.visits_hash hrange hkey (by omega))
  | succ n ih =>
    have hi : i < t.sizearray := by
      rw [h.sizearray]
      omega
    rw [arrayKeys, List.range'_succ]
    cases hc : t.array i with
    | none =>
      rw [nextArray_none S hi hc] at hk
      rw [List.filter_cons_of_neg (by rw [hc]; exact Bool.false_ne_true)]
      exact ih (by omega) hk
    | some c =>
      rw [nextArray_some S hi hc] at hk
      rw [List.filter_cons_of_pos (by rw [hc]; rfl), List.map_cons, List.cons_append]
      refine .next hk (ih (by omega) ?_)
      obtain ⟨hin, v, hv, -⟩ := h.array.made hc
      rw [lnextkey, h.sizearray]
      simp only [arrayIndex_array (hrange _ hv) hin]
      congr 1

end Laid

section Laid

variable {b : Nat} {es : Entries ρ} {S : Strings} {t : ConfTable α}

theorem Laid.visits (h : Laid conv b es S t) (hrange : ∀ e ∈ es, e.1.InRange)
    (hnodup : (es.map Prod.fst).Nodup) :
    ∃ l, Visits S t none l ∧ l.Perm (es.map Prod.fst) := by
  obtain ⟨key, hkey⟩ := h.exists_key hrange hnodup
  refine ⟨_, h.visits_array hrange hkey (Nat.zero_add b) rfl, ?_⟩
  have hhashkeys : ((List.range t.sizehash).map key).Nodup := by
    refine List.Nodup.map_on (fun i hi j hj heq => ?_) List.nodup_range
    obtain ⟨-, -, -, -, n, hn, hnk⟩ := hkey i (List.mem_range.mp hi)
    obtain ⟨-, -, -, -, m, hm, hmk⟩ := hkey j (List.mem_range.mp hj)
    exact h.linked.inj hn hm (by rw [hnk, hmk, heq])
  have hall : (arrayKeys t 0 b ++ (List.range t.sizehash).map key).Nodup := by
    rw [List.nodup_append]
    refine ⟨nodup_arrayKeys t 0 b, hhashkeys, ?_⟩
    rintro _ hk k hk' rfl
    obtain ⟨j, c, -, -, hc, heq⟩ := mem_arrayKeys.mp hk
    obtain ⟨i, hi, rfl⟩ := List.mem_map.mp hk'
    obtain ⟨e, -, hhash, hei, -⟩ := hkey i (List.mem_range.mp hi)
    rw [hei, heq] at hhash
    exact hhash (h.array.made hc).1
  refine (List.perm_ext_iff_of_nodup hall hnodup).mpr fun k => ?_
  rw [List.mem_append, mem_arrayKeys]
  constructor
  · rintro (⟨j, c, -, -, hc, rfl⟩ | hk)
    · obtain ⟨-, v, hv, -⟩ := h.array.made hc
      exact List.mem_map_of_mem hv
    · obtain ⟨i, hi, rfl⟩ := List.mem_map.mp hk
      obtain ⟨e, he, -, hei, -⟩ := hkey i (List.mem_range.mp hi)
      rw [← hei]
      exact List.mem_map_of_mem he
  · intro hk
    obtain ⟨e, he, rfl⟩ := List.mem_map.mp hk
    by_cases hhash : isHash b e.1
    · obtain ⟨i, n, hn, hnk, -⟩ := h.lookupKey_held hrange he hhash
      have hi := h.linked.lt hn
      obtain ⟨e', he', -, hei, m, hm, hmk⟩ := hkey i hi
      rw [hn] at hm
      cases hm
      have heq := hashKeyOf_injective (hrange _ he') (hrange _ he) (h.known _ he')
        (h.known _ he) (congrArg HashKey.key (by rw [hei, ← hmk, hnk]))
      exact .inr (List.mem_map.mpr ⟨i, List.mem_range.mpr hi, hei.symm.trans heq⟩)
    · obtain ⟨k, v⟩ := e
      cases k with
      | str s => exact absurd trivial hhash
      | int n =>
        have hn : inArray b n := not_not.mp hhash
        obtain ⟨c, hc⟩ := h.array.filled he hn
        obtain ⟨hpos, hle⟩ := hn
        refine .inl ⟨n.toNat - 1, c, Nat.zero_le _, by omega, hc, ?_⟩
        rw [show ((n.toNat - 1 : Nat) : Int) + 1 = n by omega]

end Laid

theorem Visits.inRange {S : Strings} {t : ConfTable α} (hsize : (t.sizearray : Int) < 2 ^ 31)
    {k : Option Key} {l : List Key} (h : Visits S t k l) : ∀ k' ∈ l, k'.InRange := by
  have hat : ∀ {i k}, keyAt S t i = .ok (some k) → k.InRange := by
    intro i k hk
    rw [keyAt] at hk
    cases hn : t.hash i with
    | none => simp only [hn] at hk; cases hk
    | some n =>
      simp only [hn, pushkey] at hk
      cases hnk : n.key.key with
      | integer key =>
        simp only [hnk] at hk
        cases hk
        exact ⟨Int32.le_toInt key, Int32.toInt_lt key⟩
      | string index =>
        simp only [hnk] at hk
        cases hs : stringAt S index with
        | none => simp only [hs] at hk; cases hk
        | some s =>
          simp only [hs] at hk
          cases hk
          trivial
  have harray : ∀ {i k}, nextArray S t i = .ok (some k) → k.InRange := by
    intro i k hk
    rw [nextArray] at hk
    split at hk
    case h_1 j hj =>
      cases hk
      have hmem := List.mem_range'_1.mp (List.mem_of_find?_eq_some hj)
      constructor <;> omega
    case h_2 =>
      rw [pushfirsthash] at hk
      split at hk
      · exact hat hk
      · cases hk
  induction h with
  | done h => exact fun _ hk => absurd hk List.not_mem_nil
  | @next key k l h hl ih =>
    refine List.forall_mem_cons.mpr ⟨?_, ih⟩
    cases key with
    | none => exact harray h
    | some key =>
      rw [lnextkey] at h
      split at h
      · exact harray h
      · split at h
        · split at h
          · cases h
          · exact hat h
        · cases h
        · cases h

end XsServer.Sharedata
