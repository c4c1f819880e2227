import XsServer.Mahjong.Algor
import XsServer.Mahjong.Melds
import Mathlib.Data.Nat.Digits.Lemmas
import Mathlib.Data.List.GetD

/-! The counts of a class from its least to its greatest value, which are the digits of the number
that `isChannel` looks up, as far as they are digits; and the table `mapHuCards`, as the loops of
`mahjong/cbat.lua` print it: its numbers are the counts of one to five melds of values from 1 to 9,
with or without a pair. -/

namespace XsServer.Mahjong

variable {s : Multiset Nat} {v : Nat}

theorem least_mem (h : s ≠ 0) : least s ∈ s := by
  rw [← Multiset.mem_sort (r := (· ≤ ·)), least]
  cases hs : s.sort with
  | nil => exact absurd (by rw [← Multiset.sort_eq s (· ≤ ·), hs]; rfl) h
  | cons x l => exact List.mem_cons_self

theorem least_le (h : v ∈ s) : least s ≤ v := by
  have hsorted := Multiset.pairwise_sort s (· ≤ ·)
  rw [← Multiset.mem_sort (r := (· ≤ ·))] at h
  rw [least]
  cases hs : s.sort with
  | nil => exact Nat.zero_le v
  | cons x l =>
    rw [hs] at h hsorted
    obtain rfl | hl := List.mem_cons.mp h
    · exact Nat.le_refl v
    · exact List.rel_of_pairwise_cons hsorted hl

theorem greatest_mem (h : s ≠ 0) : greatest s ∈ s := by
  rw [← Multiset.mem_sort (r := (· ≤ ·)), greatest]
  have hs : s.sort ≠ [] := by
    intro hnil
    exact h (by rw [← Multiset.sort_eq s (· ≤ ·), hnil]; rfl)
  rw [List.getLastD_eq_getLast?, List.getLast?_eq_some_getLast hs]
  exact List.getLast_mem hs

theorem le_greatest (h : v ∈ s) : v ≤ greatest s := by
  have hsorted := Multiset.pairwise_sort s (· ≤ ·)
  rw [← Multiset.mem_sort (r := (· ≤ ·))] at h
  have hs : s.sort ≠ [] := List.ne_nil_of_mem h
  rw [greatest, List.getLastD_eq_getLast?, List.getLast?_eq_some_getLast hs]
  rw [← List.dropLast_append_getLast hs] at h hsorted
  obtain hd | hl := List.mem_append.mp h
  · exact (List.pairwise_append.mp hsorted).2.2 v hd _ (by simp)
  · exact le_of_eq (List.mem_singleton.mp hl)

theorem least_eq (h : v ∈ s) (hle : ∀ w ∈ s, v ≤ w) : least s = v := by
  apply le_antisymm (least_le h)
  exact hle _ (least_mem fun h0 => by simp [h0] at h)

theorem greatest_eq (h : v ∈ s) (hle : ∀ w ∈ s, w ≤ v) : greatest s = v := by
  apply le_antisymm _ (le_greatest h)
  exact hle _ (greatest_mem fun h0 => by simp [h0] at h)

/-- The counts from the least to the greatest value. -/
def code (s : Multiset Nat) : List Nat :=
  (List.range' (least s) (greatest s - least s + 1)).map s.count

@[simp] theorem length_code (s : Multiset Nat) : (code s).length = greatest s - least s + 1 := by
  simp [code]

theorem sum_pow_eq_ofDigits (f : Nat → Nat) (min n : Nat) :
    ((List.range' min n).map fun v => 10 ^ (min + n - 1 - v) * f v).sum =
      Nat.ofDigits 10 ((List.range' min n).map f).reverse := by
  induction n generalizing min with
  | zero => rfl
  | succ n ih =>
    have hrest : ((List.range' (min + 1) n).map fun v => 10 ^ (min + (n + 1) - 1 - v) * f v) =
        (List.range' (min + 1) n).map fun v => 10 ^ (min + 1 + n - 1 - v) * f v := by
      rw [show min + (n + 1) - 1 = min + 1 + n - 1 by omega]
    rw [List.range'_succ, List.map_cons, List.sum_cons, hrest, ih, List.map_cons,
      List.reverse_cons, Nat.ofDigits_append, Nat.ofDigits_singleton, List.length_reverse,
      List.length_map, List.length_range', show min + (n + 1) - 1 - min = n by omega]
    ring

theorem channel_eq (s : Multiset Nat) : channel s = Nat.ofDigits 10 (code s).reverse := by
  rw [code, ← sum_pow_eq_ofDigits, channel]
  apply congrArg List.sum
  apply List.map_congr_left
  intro v hv
  obtain ⟨hlow, hhigh⟩ := List.mem_range'_1.mp hv
  dsimp only
  rw [show greatest s - least s + 1 - (v - least s + 1) =
    least s + (greatest s - least s + 1) - 1 - v by omega]
  split
  · rfl
  · next hc => rw [Nat.eq_zero_of_not_pos hc, Nat.mul_zero]

theorem head_code (s : Multiset Nat) : (code s).head? = some (s.count (least s)) := by
  rw [code, List.range'_succ]
  rfl

theorem getLast_code (h : s ≠ 0) : (code s).getLast? = some (s.count (greatest s)) := by
  have hle := le_greatest (least_mem h)
  rw [code, List.range'_concat, List.map_append, List.map_singleton, List.getLast?_append]
  simp only [List.getLast?_singleton, Option.some_or, Nat.one_mul]
  rw [show least s + (greatest s - least s) = greatest s by omega]

/-! ### Back from the counts -/

/-- The tiles that a list counts, of the value 0 on. -/
def ofCode : List Nat → Multiset Nat
  | [] => 0
  | c :: cs => Multiset.replicate c 0 + (ofCode cs).map (· + 1)

theorem card_ofCode (r : List Nat) : (ofCode r).card = r.sum := by
  induction r with
  | nil => rfl
  | cons c cs ih => simp [ofCode, ih]

theorem count_ofCode (r : List Nat) (k : Nat) : (ofCode r).count k = r.getD k 0 := by
  induction r generalizing k with
  | nil => simp [ofCode]
  | cons c cs ih =>
    rw [ofCode, Multiset.count_add]
    cases k with
    | zero =>
      simp
    | succ k =>
      rw [Multiset.count_map_eq_count' (· + 1) _ (add_left_injective 1), ih]
      simp [Multiset.count_replicate]

theorem count_map_add (t : Multiset Nat) (n k : Nat) : (t.map (· + n)).count (k + n) = t.count k :=
  Multiset.count_map_eq_count' (· + n) t (add_left_injective n) k

theorem getD_code (k : Nat) : (code s).getD k 0 = s.count (k + least s) := by
  rw [List.getD_eq_getElem?_getD, code, List.getElem?_map]
  by_cases hk : k < greatest s - least s + 1
  · rw [List.getElem?_eq_getElem (by simpa using hk), List.getElem_range']
    simp [Nat.add_comm]
  · rw [List.getElem?_eq_none (by simpa using hk)]
    refine (Multiset.count_eq_zero.mpr fun hmem => ?_).symm
    have := le_greatest hmem
    omega

theorem map_ofCode_code (s : Multiset Nat) : (ofCode (code s)).map (· + least s) = s := by
  ext v
  by_cases hv : least s ≤ v
  · obtain ⟨k, rfl⟩ := Nat.exists_eq_add_of_le' hv
    rw [count_map_add, count_ofCode, getD_code]
  · rw [Multiset.count_eq_zero.mpr fun hmem => hv (least_le hmem)]
    refine Multiset.count_eq_zero.mpr fun hmem => ?_
    obtain ⟨k, -, rfl⟩ := Multiset.mem_map.mp hmem
    omega

theorem sum_code (s : Multiset Nat) : (code s).sum = s.card := by
  rw [← card_ofCode, ← Multiset.card_map (· + least s), map_ofCode_code]

theorem divides_ofCode_code {joint : Bool} :
    Divides joint (ofCode (code s)) ↔ Divides joint s := by
  rw [← divides_map_add (least s), map_ofCode_code]

theorem mem_ofCode_lt {r : List Nat} (h : v ∈ ofCode r) : v < r.length := by
  by_contra hv
  rw [← Multiset.count_ne_zero, count_ofCode, List.getD_eq_default _ _ (by omega)] at h
  exact h rfl

theorem code_map_ofCode {r : List Nat} (n : Nat) (hnil : r ≠ []) (hhead : r.head? ≠ some 0)
    (hlast : r.getLast? ≠ some 0) : code ((ofCode r).map (· + n)) = r := by
  have hlen : 0 < r.length := List.length_pos_iff.mpr hnil
  have hmem (k : Nat) (hk : k < r.length) (hne : r[k] ≠ 0) :
      k + n ∈ (ofCode r).map (· + n) := by
    rw [← Multiset.count_ne_zero, count_map_add, count_ofCode, List.getD_eq_getElem _ _ hk]
    exact hne
  have hbound : ∀ w ∈ (ofCode r).map (· + n), n ≤ w ∧ w ≤ r.length - 1 + n := by
    intro w hw
    obtain ⟨k, hk, rfl⟩ := Multiset.mem_map.mp hw
    have := mem_ofCode_lt hk
    omega
  have hleast : least ((ofCode r).map (· + n)) = n := by
    apply least_eq _ fun w hw => (hbound w hw).1
    have h0 := hmem 0 hlen fun h0 => hhead (by rw [List.head?_eq_getElem?]; simp [hlen, h0])
    rwa [Nat.zero_add] at h0
  have hgreatest : greatest ((ofCode r).map (· + n)) = r.length - 1 + n := by
    apply greatest_eq _ fun w hw => (hbound w hw).2
    refine hmem (r.length - 1) (by omega) fun h0 => hlast ?_
    rw [List.getLast?_eq_getElem?, List.getElem?_eq_getElem (by omega), h0]
  apply List.ext_getElem
  · rw [length_code, hleast, hgreatest]
    omega
  · intro k hk hkr
    have hget := getD_code (s := (ofCode r).map (· + n)) k
    rw [List.getD_eq_getElem _ _ hk, hleast, count_map_add, count_ofCode,
      List.getD_eq_getElem _ _ hkr] at hget
    exact hget

/-- The number of values with five tiles, `c5`. -/
def fives (maps : Multiset Nat) : Nat := maps.dedup.countP fun v => maps.count v = 5

/-- The counts concatenated, which are digits, or 0. -/
def cbatID (maps : Multiset Nat) : Nat :=
  if (∀ v ∈ maps, maps.count v ≤ 5) ∧ fives maps ≤ 1 then
    (code maps).foldl (fun n c => 10 * n + c) 0
  else 0

def mahjongSnaps : List (Multiset Nat) :=
  ((List.range' 1 9).map fun v => {v, v, v}) ++ (List.range' 1 7).map fun v => {v, v + 1, v + 2}

def jiangs : List (Multiset Nat) := (List.range' 1 9).map fun v => {v, v}

def snapLoops (body : (snap1 snap2 snap3 snap4 snap5 : Multiset Nat) → List Nat) : List Nat :=
  mahjongSnaps.flatMap fun snap1 =>
  mahjongSnaps.flatMap fun snap2 =>
  mahjongSnaps.flatMap fun snap3 =>
  mahjongSnaps.flatMap fun snap4 =>
  mahjongSnaps.flatMap fun snap5 => body snap1 snap2 snap3 snap4 snap5

def normat : List Nat :=
  snapLoops fun snap1 snap2 snap3 snap4 snap5 =>
    [cbatID snap1,
      cbatID (snap1 + snap2),
      cbatID (snap1 + snap2 + snap3),
      cbatID (snap1 + snap2 + snap3 + snap4),
      cbatID (snap1 + snap2 + snap3 + snap4 + snap5)]

def normatJiang : List Nat :=
  snapLoops fun snap1 snap2 snap3 snap4 snap5 =>
    jiangs.flatMap fun jiang =>
      [cbatID (snap1 + jiang),
        cbatID (snap1 + snap2 + jiang),
        cbatID (snap1 + snap2 + snap3 + jiang),
        cbatID (snap1 + snap2 + snap3 + snap4 + jiang),
        cbatID (snap1 + snap2 + snap3 + snap4 + snap5 + jiang)]

/-- A table with the numbers that the two functions print. -/
def Printed (mapHuCards : Nat → Bool) : Prop :=
  ∀ n, mapHuCards n = true ↔ n ∈ normat ∨ n ∈ normatJiang

variable {s : Multiset Nat} {n : Nat}

theorem mem_snapLoops {body} : n ∈ snapLoops body ↔
    ∃ snap1 ∈ mahjongSnaps, ∃ snap2 ∈ mahjongSnaps, ∃ snap3 ∈ mahjongSnaps,
      ∃ snap4 ∈ mahjongSnaps, ∃ snap5 ∈ mahjongSnaps, n ∈ body snap1 snap2 snap3 snap4 snap5 := by
  simp only [snapLoops, List.mem_flatMap]

def Snapped (s : Multiset Nat) : Prop :=
  ∃ l : List (Multiset Nat), 0 < l.length ∧ l.length ≤ 5 ∧ (∀ m ∈ l, m ∈ mahjongSnaps) ∧ l.sum = s

theorem mem_snapLoops_sums (f : Multiset Nat → Nat) :
    n ∈ snapLoops (fun snap1 snap2 snap3 snap4 snap5 =>
      [f snap1, f (snap1 + snap2), f (snap1 + snap2 + snap3), f (snap1 + snap2 + snap3 + snap4),
        f (snap1 + snap2 + snap3 + snap4 + snap5)]) ↔ ∃ s, Snapped s ∧ n = f s := by
  rw [mem_snapLoops]
  constructor
  · rintro ⟨s1, h1, s2, h2, s3, h3, s4, h4, s5, h5, hn⟩
    simp only [List.mem_cons, List.not_mem_nil, or_false] at hn
    rcases hn with hn | hn | hn | hn | hn
    · exact ⟨_, ⟨[s1], by simp [*]⟩, hn⟩
    · exact ⟨_, ⟨[s1, s2], by simp [*]⟩, hn⟩
    · exact ⟨_, ⟨[s1, s2, s3], by simp [*, add_assoc]⟩, hn⟩
    · exact ⟨_, ⟨[s1, s2, s3, s4], by simp [*, add_assoc]⟩, hn⟩
    · exact ⟨_, ⟨[s1, s2, s3, s4, s5], by simp [*, add_assoc]⟩, hn⟩
  · rintro ⟨s, ⟨l, hpos, hlen, hl, rfl⟩, rfl⟩
    have hfirst : {1, 1, 1} ∈ mahjongSnaps := by decide
    match l, hpos, hlen, hl with
    | [s1], _, _, hl =>
      exact ⟨s1, hl s1 (by simp), _, hfirst, _, hfirst, _, hfirst, _, hfirst, by simp⟩
    | [s1, s2], _, _, hl =>
      exact ⟨s1, hl s1 (by simp), s2, hl s2 (by simp), _, hfirst, _, hfirst, _, hfirst, by simp⟩
    | [s1, s2, s3], _, _, hl =>
      exact ⟨s1, hl s1 (by simp), s2, hl s2 (by simp), s3, hl s3 (by simp), _, hfirst, _, hfirst,
        by simp [add_assoc]⟩
    | [s1, s2, s3, s4], _, _, hl =>
      exact ⟨s1, hl s1 (by simp), s2, hl s2 (by simp), s3, hl s3 (by simp), s4, hl s4 (by simp), _,
        hfirst, by simp [add_assoc]⟩
    | [s1, s2, s3, s4, s5], _, _, hl =>
      exact ⟨s1, hl s1 (by simp), s2, hl s2 (by simp), s3, hl s3 (by simp), s4, hl s4 (by simp), s5,
        hl s5 (by simp), by simp [add_assoc]⟩

theorem mem_normat : n ∈ normat ↔ ∃ s, Snapped s ∧ n = cbatID s :=
  mem_snapLoops_sums cbatID

theorem mem_normatJiang :
    n ∈ normatJiang ↔ ∃ s, Snapped s ∧ ∃ jiang ∈ jiangs, n = cbatID (s + jiang) := by
  have hswap : n ∈ normatJiang ↔ ∃ jiang ∈ jiangs, n ∈ snapLoops
      (fun snap1 snap2 snap3 snap4 snap5 =>
        [cbatID (snap1 + jiang), cbatID (snap1 + snap2 + jiang),
          cbatID (snap1 + snap2 + snap3 + jiang), cbatID (snap1 + snap2 + snap3 + snap4 + jiang),
          cbatID (snap1 + snap2 + snap3 + snap4 + snap5 + jiang)]) := by
    rw [normatJiang, mem_snapLoops]
    simp only [mem_snapLoops, List.mem_flatMap]
    constructor
    · rintro ⟨s1, h1, s2, h2, s3, h3, s4, h4, s5, h5, j, hj, hn⟩
      exact ⟨j, hj, s1, h1, s2, h2, s3, h3, s4, h4, s5, h5, hn⟩
    · rintro ⟨j, hj, s1, h1, s2, h2, s3, h3, s4, h4, s5, h5, hn⟩
      exact ⟨s1, h1, s2, h2, s3, h3, s4, h4, s5, h5, j, hj, hn⟩
  rw [hswap]
  constructor
  · rintro ⟨jiang, hj, hn⟩
    obtain ⟨s, hs, hn⟩ := (mem_snapLoops_sums fun s => cbatID (s + jiang)).mp hn
    exact ⟨s, hs, jiang, hj, hn⟩
  · rintro ⟨s, hs, jiang, hj, hn⟩
    exact ⟨jiang, hj, (mem_snapLoops_sums fun s => cbatID (s + jiang)).mpr ⟨s, hs, hn⟩⟩

def Counted (s : Multiset Nat) : Prop := ∀ v ∈ s, 1 ≤ v ∧ v ≤ 9

theorem mem_mahjongSnaps {m : Multiset Nat} : m ∈ mahjongSnaps ↔ Meld true m ∧ Counted m := by
  simp only [mahjongSnaps, List.mem_append, List.mem_map, List.mem_range'_1, Counted]
  constructor
  · rintro (⟨v, hv, rfl⟩ | ⟨v, hv, rfl⟩)
    · refine ⟨.inl ⟨v, rfl⟩, fun w hw => ?_⟩
      obtain rfl : w = v := by simpa using hw
      omega
    · refine ⟨.inr ⟨rfl, v, rfl⟩, fun w hw => ?_⟩
      obtain hw | hw | hw : w = v ∨ w = v + 1 ∨ w = v + 2 := by simpa using hw
      all_goals omega
  · rintro ⟨⟨v, rfl⟩ | ⟨-, v, rfl⟩, hcounted⟩
    · have hv := hcounted v (by simp)
      exact .inl ⟨v, by omega, rfl⟩
    · have hv := hcounted v (by simp)
      have hv2 := hcounted (v + 2) (by simp)
      exact .inr ⟨v, by omega, rfl⟩

theorem snapped_iff :
    Snapped s ↔ Melds true s ∧ Counted s ∧ 3 ≤ s.card ∧ s.card ≤ 15 := by
  constructor
  · rintro ⟨l, hpos, hlen, hl, rfl⟩
    have hjoin : (l : Multiset (Multiset Nat)).join = l.sum := Multiset.sum_coe l
    have hmelds : ∀ m ∈ (l : Multiset (Multiset Nat)), Meld true m := fun m hm =>
      (mem_mahjongSnaps.mp (hl m hm)).1
    have hcard := Lib.Splits.card_join fun m hm => (hmelds m hm).card
    rw [hjoin, Multiset.coe_card] at hcard
    refine ⟨⟨l, hmelds, hjoin⟩, fun v hv => ?_, by omega, by omega⟩
    obtain ⟨m, hm, hvm⟩ := Multiset.mem_join.mp (hjoin ▸ hv)
    exact (mem_mahjongSnaps.mp (hl m hm)).2 v hvm
  · rintro ⟨⟨P, hP, rfl⟩, hcounted, hthree, hmost⟩
    have hcard := Lib.Splits.card_join fun m hm => (hP m hm).card
    refine ⟨P.toList, ?_, ?_, fun m hm => mem_mahjongSnaps.mpr ?_, Multiset.sum_toList P⟩
    · rw [Multiset.length_toList]
      omega
    · rw [Multiset.length_toList]
      omega
    · have hmP := Multiset.mem_toList.mp hm
      exact ⟨hP m hmP, fun v hv => hcounted v (Multiset.mem_join.mpr ⟨m, hmP, hv⟩)⟩

structure Looped (s : Multiset Nat) : Prop where
  divides : Divides true s
  counted : Counted s
  three : 3 ≤ s.card
  most : s.card ≤ 17

theorem looped_iff : Looped s ↔ Snapped s ∨ ∃ t, Snapped t ∧ ∃ jiang ∈ jiangs, s = t + jiang := by
  constructor
  · rintro ⟨h | ⟨v, t, ht, rfl⟩, hcounted, hthree, hmost⟩
    · have hcard := h.card
      exact .inl (snapped_iff.mpr ⟨h, hcounted, hthree, by omega⟩)
    · have hcard := ht.card
      rw [Multiset.card_add, Multiset.card_pair] at hthree hmost
      refine .inr ⟨t, snapped_iff.mpr ⟨ht, fun w hw => ?_, by omega, by omega⟩, {v, v}, ?_,
        add_comm _ _⟩
      · exact hcounted w (Multiset.mem_add.mpr (.inr hw))
      · have hv := hcounted v (by simp)
        exact List.mem_map.mpr ⟨v, List.mem_range'_1.mpr (by omega), rfl⟩
  · rintro (h | ⟨t, ht, jiang, hj, rfl⟩)
    · obtain ⟨hmelds, hcounted, hthree, hmost⟩ := snapped_iff.mp h
      exact ⟨.inl hmelds, hcounted, hthree, by omega⟩
    · obtain ⟨hmelds, hcounted, hthree, hmost⟩ := snapped_iff.mp ht
      obtain ⟨v, hv, rfl⟩ := List.mem_map.mp hj
      have hv := List.mem_range'_1.mp hv
      have hcard : (t + {v, v}).card = t.card + 2 := by simp
      refine ⟨.inr ⟨v, t, hmelds, add_comm _ _⟩, fun w hw => ?_, by omega, by omega⟩
      obtain hw | hw := Multiset.mem_add.mp hw
      · exact hcounted w hw
      · obtain rfl : w = v := by simpa using hw
        omega

/-- The digits of the numbers in the table, which divide as counts do. -/
structure Listed (r : List Nat) : Prop where
  copies : ∀ c ∈ r, c ≤ 5
  five : r.count 5 ≤ 1
  span : r.length ≤ 9
  three : 3 ≤ r.sum
  most : r.sum ≤ 17
  last : r.getLast? ≠ some 0
  divides : Divides true (ofCode r)

theorem count_five_code (s : Multiset Nat) : (code s).count 5 = fives s := by
  rw [code, List.count, List.countP_map]
  change (List.range' _ _).countP (fun v => decide (s.count v = 5)) = _
  rw [fives, ← Multiset.coe_countP, Multiset.countP_eq_card_filter, Multiset.countP_eq_card_filter]
  apply congrArg Multiset.card
  apply (Multiset.Nodup.ext _ _).mpr
  · intro v
    simp only [Multiset.mem_filter, Multiset.mem_coe, List.mem_range'_1, Multiset.mem_dedup]
    constructor
    · rintro ⟨-, hv⟩
      exact ⟨Multiset.count_pos.mp (by omega), hv⟩
    · rintro ⟨hmem, hv⟩
      have hlow := least_le hmem
      have hhigh := le_greatest hmem
      exact ⟨by omega, hv⟩
  · exact Multiset.Nodup.filter _ (Multiset.coe_nodup.mpr List.nodup_range')
  · exact Multiset.Nodup.filter _ (Multiset.nodup_dedup s)

theorem foldl_eq_ofDigits (r : List Nat) :
    r.foldl (fun n c => 10 * n + c) 0 = Nat.ofDigits 10 r.reverse := by
  rw [Nat.ofDigits_eq_foldr, List.foldr_reverse]
  simp [add_comm]

theorem digits_code (hs : s ≠ 0) (h : ∀ v, s.count v ≤ 9) :
    Nat.digits 10 (Nat.ofDigits 10 (code s).reverse) = (code s).reverse := by
  apply Nat.digits_ofDigits 10 (by decide)
  · intro c hc
    obtain ⟨v, -, rfl⟩ := List.mem_map.mp (List.mem_reverse.mp hc)
    exact Nat.lt_succ_of_le (h v)
  · intro hnil h0
    have hhead := head_code s
    rw [← List.getLast?_reverse, List.getLast?_eq_some_getLast hnil, h0] at hhead
    exact Multiset.count_ne_zero.mpr (least_mem hs) (Option.some.inj hhead).symm

theorem Looped.listed (h : Looped s) (hcount : ∀ v ∈ s, s.count v ≤ 5) (hfives : fives s ≤ 1) :
    Listed (code s) := by
  have hs : s ≠ 0 := by
    rintro rfl
    exact absurd h.three (by decide)
  constructor
  · intro c hc
    obtain ⟨v, -, rfl⟩ := List.mem_map.mp hc
    by_cases hv : v ∈ s
    · exact hcount v hv
    · rw [Multiset.count_eq_zero.mpr hv]
      exact Nat.zero_le 5
  · rw [count_five_code]
    exact hfives
  · have hlow := h.counted _ (least_mem hs)
    have hhigh := h.counted _ (greatest_mem hs)
    rw [length_code]
    omega
  · rw [sum_code]
    exact h.three
  · rw [sum_code]
    exact h.most
  · rw [getLast_code hs]
    exact fun h0 => Multiset.count_ne_zero.mpr (greatest_mem hs) (Option.some.inj h0)
  · exact divides_ofCode_code.mpr h.divides

theorem Listed.looped {r : List Nat} (h : Listed r) : Looped ((ofCode r).map (· + 1)) := by
  have hcard : ((ofCode r).map (· + 1)).card = r.sum := by rw [Multiset.card_map, card_ofCode]
  refine ⟨(divides_map_add 1).mpr h.divides, fun v hv => ?_, hcard ▸ h.three, hcard ▸ h.most⟩
  obtain ⟨k, hk, rfl⟩ := Multiset.mem_map.mp hv
  have hlt := mem_ofCode_lt hk
  have hspan := h.span
  omega

theorem printed_iff {mapHuCards : Nat → Bool} (h : Printed mapHuCards) (hn : n ≠ 0) :
    mapHuCards n = true ↔ Listed (Nat.digits 10 n).reverse := by
  have hloop : mapHuCards n = true ↔ ∃ s, Looped s ∧ n = cbatID s := by
    rw [h n, mem_normat, mem_normatJiang]
    constructor
    · rintro (⟨s, hs, hns⟩ | ⟨t, ht, jiang, hj, hns⟩)
      · exact ⟨s, looped_iff.mpr (.inl hs), hns⟩
      · exact ⟨_, looped_iff.mpr (.inr ⟨t, ht, jiang, hj, rfl⟩), hns⟩
    · rintro ⟨s, hs, hns⟩
      obtain hs | ⟨t, ht, jiang, hj, rfl⟩ := looped_iff.mp hs
      · exact .inl ⟨s, hs, hns⟩
      · exact .inr ⟨t, ht, jiang, hj, hns⟩
  rw [hloop]
  constructor
  · rintro ⟨s, hs, rfl⟩
    rw [cbatID] at hn ⊢
    split at hn
    · next hc =>
      have hs0 : s ≠ 0 := by
        rintro rfl
        exact absurd hs.three (by decide)
      rw [if_pos hc, foldl_eq_ofDigits, digits_code hs0, List.reverse_reverse]
      · exact hs.listed hc.1 hc.2
      · intro v
        by_cases hv : v ∈ s
        · exact (hc.1 v hv).trans (by decide)
        · rw [Multiset.count_eq_zero.mpr hv]
          exact Nat.zero_le 9
    · exact absurd rfl hn
  · intro hr
    refine ⟨_, hr.looped, ?_⟩
    have hdigits : Nat.digits 10 n ≠ [] := Nat.digits_ne_nil_iff_ne_zero.mpr hn
    have hnil : (Nat.digits 10 n).reverse ≠ [] := by simpa using hdigits
    have hhead : (Nat.digits 10 n).reverse.head? ≠ some 0 := by
      rw [List.head?_reverse, List.getLast?_eq_some_getLast hdigits]
      exact fun h0 => Nat.getLast_digit_ne_zero 10 hn (Option.some.inj h0)
    have hcode := code_map_ofCode 1 hnil hhead hr.last
    have hcopies : ∀ v ∈ (ofCode (Nat.digits 10 n).reverse).map (· + 1),
        ((ofCode (Nat.digits 10 n).reverse).map (· + 1)).count v ≤ 5 := by
      intro v hv
      obtain ⟨k, hk, rfl⟩ := Multiset.mem_map.mp hv
      have hlt := mem_ofCode_lt hk
      rw [count_map_add, count_ofCode, List.getD_eq_getElem _ _ hlt]
      exact hr.copies _ (List.getElem_mem hlt)
    rw [cbatID, if_pos, hcode, foldl_eq_ofDigits, List.reverse_reverse, Nat.ofDigits_digits]
    refine ⟨hcopies, ?_⟩
    rw [← count_five_code, hcode]
    exact hr.five

end XsServer.Mahjong
