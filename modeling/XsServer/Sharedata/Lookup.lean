import XsServer.Sharedata.Convert

/-! In a table that is laid out, every key in the range of an `int` is found, others are not, and
`lnextkey` visits each key once. -/

namespace XsServer.Sharedata

open XsServer.Lib

variable {ρ α : Type} {conv : LuaValue ρ → Strings → Except Fault (α × Strings)}

theorem stringAt_idxOf {S : Strings} {s : List UInt8} (h : s ∈ S) :
    stringAt S (S.idxOf s + 2) = some s := by
  rw [stringAt, Nat.add_sub_cancel]
  exact List.getElem?_idxOf h

theorem isNode_iff {S : Strings} {k k' : Key} (hk : k.InRange) (hk' : k'.InRange)
    (hs : Known S k') : isNode S k.query (hashKeyOf S k') = true ↔ k' = k := by
  cases k with
  | int n =>
    cases k' with
    | int n' =>
      simp only [isNode, Key.query, hashKeyOf, integerKey, Query.keyhash, Bool.and_eq_true,
        decide_eq_true_eq, Key.int.injEq]
      constructor
      · rintro ⟨-, heq⟩
        rw [← ofInt_toInt hk, ← ofInt_toInt hk', heq]
      · rintro rfl
        exact ⟨decide_eq_true rfl, rfl⟩
    | str s' => simp [isNode, Key.query, hashKeyOf]
  | str s =>
    cases k' with
    | int n' => simp [isNode, Key.query, hashKeyOf, integerKey]
    | str s' =>
      simp only [isNode, Key.query, hashKeyOf, Query.keyhash, Bool.and_eq_true, decide_eq_true_eq,
        stringAt_idxOf (show s' ∈ S from hs), Option.some.injEq, Key.str.injEq]
      constructor
      · exact fun h => h.2
      · rintro rfl
        exact ⟨decide_eq_true rfl, rfl⟩

theorem arrayIndex_hash {b : Nat} {k : Key} (hk : k.InRange) (hhash : isHash b k) :
    arrayIndex b k.query = none := by
  cases k with
  | int n =>
    simp only [arrayIndex, Key.query, ofInt_toInt hk]
    exact if_neg hhash
  | str s => rfl

theorem arrayIndex_array {b : Nat} {n : Int} (hk : (Key.int n).InRange) (hn : inArray b n) :
    arrayIndex b (Key.int n).query = some (n.toNat - 1) := by
  simp only [arrayIndex, Key.query, ofInt_toInt hk]
  exact if_pos hn

theorem home_hashKeyOf (size : Nat) (S : Strings) (k : Key) :
    home size (hashKeyOf S k) = k.query.keyhash.toNat % size := by
  cases k with
  | int n | str s => rfl

/-- The key that C computes with. -/
def narrow : Key → Key
  | .int n => .int (Int32.ofInt n).toInt
  | .str s => .str s

theorem narrow_query (k : Key) : (narrow k).query = k.query := by
  cases k with
  | int n => simp only [narrow, Key.query, Int32.ofInt_toInt]
  | str s => rfl

theorem lindexconf_narrow (S : Strings) (t : ConfTable α) (k : Key) :
    lindexconf S t k = lindexconf S t (narrow k) := by
  rw [lindexconf, lindexconf, narrow_query]

theorem narrow_inRange (k : Key) : (narrow k).InRange := by
  cases k with
  | int n => exact ⟨Int32.le_toInt _, Int32.toInt_lt _⟩
  | str s => trivial

section Laid

variable {b : Nat} {es : Entries ρ} {S : Strings} {t : ConfTable α} (h : Laid conv b es S t)
  (hrange : ∀ e ∈ es, e.1.InRange)

include h hrange

theorem Laid.isNode_iff {k : Key} (hk : k.InRange) {hk' : HashKey} (hmem : hk' ∈ hashKeys b S es) :
    isNode S k.query hk' = true ↔ hk' = hashKeyOf S k ∧ ∃ e ∈ es, e.1 = k := by
  obtain ⟨e, he, -, rfl⟩ := mem_hashKeys.mp hmem
  rw [Sharedata.isNode_iff hk (hrange e he) (h.known e he)]
  constructor
  · rintro rfl
    exact ⟨rfl, e, he, rfl⟩
  · rintro ⟨heq, e', he', rfl⟩
    exact hashKeyOf_injective (hrange e he) (hrange e' he') (h.known e he) (h.known e' he')
      (congrArg HashKey.key heq)

theorem Laid.lookupKey_held {e : Key × LuaValue ρ} (he : e ∈ es) (hhash : isHash b e.1) :
    ∃ i n, t.hash i = some n ∧ n.key = hashKeyOf S e.1 ∧
      lookupKey S t e.1.query = .found i := by
  have hk := hrange e he
  obtain ⟨i, n, hn, hnk⟩ := h.linked.held _ (mem_hashKeys.mpr ⟨e, he, hhash, rfl⟩)
  refine ⟨i, n, hn, hnk, ?_⟩
  have hp : ∀ hk' ∈ hashKeys b S es, isNode S e.1.query hk' = true ↔ hk' = hashKeyOf S e.1 :=
    fun hk' hmem => (h.isNode_iff hrange hk hmem).trans (and_iff_left ⟨e, he, rfl⟩)
  have hchase := h.linked.chase_held hp hn hnk (Nat.le_refl _)
  have hlt := h.linked.lt hn
  obtain ⟨m, hm, -⟩ := h.linked.main _ (mem_hashKeys.mpr ⟨e, he, hhash, rfl⟩)
  rw [home_hashKeyOf] at hchase hm
  rw [lookupKey, if_neg (by omega)]
  simp only [hm]
  rw [if_neg, hchase]
  -- a slot without followers that is not the one cannot lead to it
  rintro ⟨hne, halone⟩
  obtain ⟨size, hsize⟩ : ∃ size, t.sizehash = size + 1 := ⟨t.sizehash - 1, by omega⟩
  have hnot : isNode S e.1.query m.key = false := by
    simp only [isNode, decide_eq_false hne, Bool.false_and]
  rw [hsize, Slots.chase, ← hsize, hm] at hchase
  simp only [hnot, (h.linked.alone hm halone).2] at hchase
  cases hchase

theorem Laid.lookupKey_absent (hnodup : (es.map Prod.fst).Nodup) {k : Key} (hk : k.InRange)
    (habsent : ∀ e ∈ es, e.1 ≠ k) : lookupKey S t k.query = .absent := by
  rw [lookupKey]
  by_cases hsize : t.sizehash = 0
  · rw [if_pos hsize]
  rw [if_neg hsize]
  have hp : ∀ hk' ∈ hashKeys b S es, isNode S k.query hk' = false := by
    intro hk' hmem
    rw [Bool.eq_false_iff, ne_eq, h.isNode_iff hrange hk hmem]
    rintro ⟨-, e, he, heq⟩
    exact habsent e he heq
  obtain ⟨n, hn⟩ := h.linked.full (fun _ hmem => hmem) (hashKeys_nodup hrange h.known hnodup)
    (h.sizehash.trans (length_hashKeys b S es).symm)
    (Nat.mod_lt k.query.keyhash.toNat (Nat.pos_of_ne_zero hsize))
  simp only [hn]
  rw [h.linked.chase_absent hp hn (Nat.le_refl _), ite_self]

theorem Laid.lindexconf_held {k : Key} {v : LuaValue ρ} (hnodup : (es.map Prod.fst).Nodup)
    (he : (k, v) ∈ es) : ∃ c, lindexconf S t k = .ok (some c) ∧ Made conv S v c := by
  have hk := hrange _ he
  rw [lindexconf, h.sizearray]
  by_cases hhash : isHash b k
  · obtain ⟨i, n, hn, hnk, hlookup⟩ := h.lookupKey_held hrange he hhash
    obtain ⟨e', he', -, hkey, hmade⟩ := h.made i n hn
    have heq := hashKeyOf_injective (hrange _ he') hk (h.known _ he') (h.known _ he)
      (congrArg HashKey.key (hkey.trans hnk))
    have hsame := List.inj_on_of_nodup_map hnodup he' he heq
    subst hsame
    simp only [arrayIndex_hash hk hhash, hlookup, hn]
    exact ⟨n.value, rfl, hmade⟩
  · cases k with
    | str s => exact absurd trivial hhash
    | int n =>
      have hn : inArray b n := not_not.mp hhash
      obtain ⟨c, hc⟩ := h.array.filled he hn
      obtain ⟨-, v', hv', hmade⟩ := h.array.made hc
      have hpos := hn.1
      rw [show ((n.toNat - 1 : Nat) : Int) + 1 = n by omega] at hv'
      have hsame := List.inj_on_of_nodup_map hnodup hv' he rfl
      cases hsame
      simp only [arrayIndex_array hk hn, hc]
      exact ⟨c, rfl, hmade⟩

theorem Laid.lindexconf_absent (hnodup : (es.map Prod.fst).Nodup) {k : Key} (hk : k.InRange)
    (habsent : ∀ e ∈ es, e.1 ≠ k) : lindexconf S t k = .ok none := by
  rw [lindexconf, h.sizearray]
  by_cases hhash : isHash b k
  · simp only [arrayIndex_hash hk hhash, h.lookupKey_absent hrange hnodup hk habsent]
  · cases k with
    | str s => exact absurd trivial hhash
    | int n =>
      have hn : inArray b n := not_not.mp hhash
      simp only [arrayIndex_array hk hn]
      cases hc : t.array (n.toNat - 1) with
      | none => rfl
      | some c =>
        obtain ⟨-, v, hv, -⟩ := h.array.made hc
        have hpos := hn.1
        rw [show ((n.toNat - 1 : Nat) : Int) + 1 = n by omega] at hv
        exact absurd rfl (habsent _ hv)

end Laid

end XsServer.Sharedata
