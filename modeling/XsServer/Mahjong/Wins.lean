import XsServer.Mahjong.Unify
import XsServer.Mahjong.Melds

/-! Winning hands, class by class. -/

namespace XsServer.Mahjong.Algor

variable {a : Algor} {n : Nat} {s t : Multiset Nat}

/-- Three equal tiles, or three consecutive ones of one joint class. -/
def IsMeld (a : Algor) (m : Multiset Nat) : Prop :=
  (∃ mj, m = {mj, mj, mj}) ∨
    ∃ mj ji, m = {mj, mj + 1, mj + 2} ∧ a.isJoint ji = some true ∧
      ∀ x ∈ m, a.getSupportClassID x = some ji

/-- One pair and `k` melds. -/
def Wins (a : Algor) (hand : Multiset Nat) (k : Nat) : Prop :=
  ∃ mj, ∃ melds : Multiset (Multiset Nat), melds.card = k ∧ (∀ m ∈ melds, a.IsMeld m) ∧
    hand = {mj, mj} + melds.join

def Known (a : Algor) (s : Multiset Nat) : Prop := ∀ mj ∈ s, (a.getSupportClassID mj).isSome

def joint (a : Algor) (ji : Nat) : Bool := a.isJoint ji == some true

theorem joint_eq_true {ji : Nat} : a.joint ji = true ↔ a.isJoint ji = some true := by
  simp [joint]

theorem IsMeld.card {m : Multiset Nat} (h : a.IsMeld m) : m.card = 3 := by
  obtain ⟨mj, rfl⟩ | ⟨mj, ji, rfl, -⟩ := h <;> rfl

theorem held_add (s t : Multiset Nat) (ji : Nat) :
    a.held (s + t) ji = a.held s ji + a.held t ji := by
  simp [held, Multiset.filter_add]

theorem getColor_eq (h : Classed a n) {x y ji : Nat} (hx : a.getSupportClassID x = some ji)
    (hy : a.getSupportClassID y = some ji) : getColor x = getColor y := by
  simp only [getSupportClassID, Option.map_eq_some_iff, Prod.exists, exists_and_right,
    exists_eq_right] at hx hy
  obtain ⟨u, hu⟩ := hx
  obtain ⟨w, hw⟩ := hy
  obtain rfl : u = w := Option.some.inj ((h.mclass hu).symm.trans (h.mclass hw))
  rw [h.color hu, h.color hw]

theorem getValue_succ {x : Nat} (h : getColor (x + 1) = getColor x) :
    getValue (x + 1) = getValue x + 1 := by
  simp only [getColor, getValue] at h ⊢
  omega

/-! ### One class -/

section Class

variable {ji : Nat}

theorem exists_map_getCard (h : Classed a n) (s : Multiset Nat) (ji : Nat) :
    ∃ color, (a.held s ji).map (getCard color) =
      s.filter (fun mj => a.getSupportClassID mj = some ji) := by
  have hself (color : Nat)
      (hcolor : ∀ x ∈ s.filter (fun mj => a.getSupportClassID mj = some ji), getColor x = color) :
      (a.held s ji).map (getCard color) =
        s.filter (fun mj => a.getSupportClassID mj = some ji) := by
    rw [held, Multiset.map_map]
    refine (Multiset.map_congr rfl fun x hx => ?_).trans (Multiset.map_id _)
    rw [Function.comp_apply, ← hcolor x hx, getCard_getValue, id]
  by_cases hs : s.filter (fun mj => a.getSupportClassID mj = some ji) = 0
  · exact ⟨0, hself 0 (by simp [hs])⟩
  · obtain ⟨y, hy⟩ := Multiset.exists_mem_of_ne_zero hs
    refine ⟨getColor y, hself _ fun x hx => ?_⟩
    exact getColor_eq h (Multiset.mem_filter.mp hx).2 (Multiset.mem_filter.mp hy).2

theorem splits_class_iff (h : Classed a n) :
    Lib.Splits a.IsMeld (s.filter fun mj => a.getSupportClassID mj = some ji) ↔
      Melds (a.joint ji) (a.held s ji) := by
  constructor
  · intro hs
    refine Lib.Splits.map hs getValue fun g hsub hg => ?_
    obtain ⟨mj, rfl⟩ | ⟨mj, jk, rfl, hjoint, hclass⟩ := hg
    · exact .inl ⟨getValue mj, rfl⟩
    · have hmj := (Multiset.mem_filter.mp (hsub mj (by simp))).2
      have h0 := hclass mj (by simp)
      have h1 := hclass (mj + 1) (by simp)
      have h2 := hclass (mj + 2) (by simp)
      obtain rfl : ji = jk := Option.some.inj (hmj.symm.trans h0)
      have hv1 := getValue_succ (getColor_eq h h1 h0)
      have hv2 := getValue_succ (getColor_eq h h2 h1)
      refine .inr ⟨joint_eq_true.mpr hjoint, getValue mj, ?_⟩
      simp [hv1, hv2]
  · intro hs
    obtain ⟨color, hcolor⟩ := exists_map_getCard h s ji
    rw [← hcolor]
    refine Lib.Splits.map hs (getCard color) fun g hsub hg => ?_
    obtain ⟨v, rfl⟩ | ⟨hjoint, v, rfl⟩ := hg
    · exact .inl ⟨getCard color v, rfl⟩
    · refine .inr ⟨getCard color v, ji, ?_, joint_eq_true.mp hjoint, fun x hx => ?_⟩
      · simp [getCard, add_assoc]
      · obtain ⟨w, hw, rfl⟩ := Multiset.mem_map.mp hx
        have hmem := Multiset.mem_map_of_mem (getCard color) (hsub w hw)
        rw [hcolor] at hmem
        exact (Multiset.mem_filter.mp hmem).2

end Class

theorem splits_iff (h : Classed a n) (hknown : a.Known s) :
    Lib.Splits a.IsMeld s ↔ ∀ ji, Melds (a.joint ji) (a.held s ji) := by
  rw [Lib.Splits.iff_filter a.getSupportClassID]
  · constructor
    · exact fun hs ji => (splits_class_iff h).mp (hs (some ji))
    · rintro hs (_ | ji)
      · rw [Multiset.filter_eq_nil.mpr fun mj hmj hnone => ?_]
        · exact Lib.Splits.zero
        · have hsome := hknown mj hmj
          rw [hnone] at hsome
          cases hsome
      · exact (splits_class_iff h).mpr (hs ji)
  · rintro g (⟨mj, rfl⟩ | ⟨mj, ji, -, -, hclass⟩)
    · exact ⟨a.getSupportClassID mj, by simp⟩
    · exact ⟨some ji, hclass⟩

theorem held_pair {mj j0 : Nat} (hmj : a.getSupportClassID mj = some j0) (ji : Nat) :
    a.held {mj, mj} ji = if j0 = ji then {getValue mj, getValue mj} else 0 := by
  change a.held (mj ::ₘ mj ::ₘ 0) ji = _
  rw [held_cons, held_cons, hmj]
  by_cases hji : j0 = ji
  · simp [hji]
  · simp [hji]

theorem exists_pair (h : Classed a n) {j0 : Nat} (hp : Paired (a.joint j0) (a.held s j0)) :
    ∃ mj rest, s = {mj, mj} + rest ∧ a.getSupportClassID mj = some j0 ∧
      Melds (a.joint j0) (a.held rest j0) := by
  obtain ⟨v, t, ht, hheld⟩ := hp
  obtain ⟨color, hcolor⟩ := exists_map_getCard h s j0
  have hv : getValue (getCard color v) = v := by
    have hvs : v ∈ a.held s j0 := by
      rw [hheld]
      simp
    obtain ⟨x, -, rfl⟩ := Multiset.mem_map.mp hvs
    exact getValue_getCard (Nat.mod_lt x (by decide))
  rw [hheld, Multiset.map_add] at hcolor
  have hclass : a.getSupportClassID (getCard color v) = some j0 := by
    have hmem : getCard color v ∈ s.filter (fun mj => a.getSupportClassID mj = some j0) := by
      rw [← hcolor]
      simp
    exact (Multiset.mem_filter.mp hmem).2
  have hle : ({getCard color v, getCard color v} : Multiset Nat) ≤ s :=
    calc ({getCard color v, getCard color v} : Multiset Nat)
        ≤ _ := Multiset.le_add_right _ (t.map (getCard color))
      _ = _ := hcolor
      _ ≤ s := Multiset.filter_le _ s
  obtain ⟨rest, rfl⟩ := Multiset.le_iff_exists_add.mp hle
  refine ⟨_, rest, rfl, hclass, ?_⟩
  rw [held_add, held_pair hclass, if_pos rfl, hv] at hheld
  rwa [add_left_cancel hheld]

/-- Only one class has two tiles over a multiple of three. -/
def OneOver (a : Algor) (s : Multiset Nat) : Prop :=
  ∀ ji jk, (a.held s ji).card % 3 = 2 → (a.held s jk).card % 3 = 2 → ji = jk

theorem Wins.divides (h : Classed a n) (hknown : a.Known s) {k : Nat} (hwins : a.Wins s k) :
    (∀ ji, Divides (a.joint ji) (a.held s ji)) ∧ a.OneOver s := by
  obtain ⟨mj, melds, -, hmelds, rfl⟩ := hwins
  obtain ⟨j0, hj0⟩ := Option.isSome_iff_exists.mp (hknown mj (by simp))
  have hrest := (splits_iff h fun x hx => hknown x (by simp [hx])).mp ⟨melds, hmelds, rfl⟩
  have hheld (ji : Nat) : a.held ({mj, mj} + melds.join) ji =
      (if j0 = ji then {getValue mj, getValue mj} else 0) + a.held melds.join ji := by
    rw [held_add, held_pair hj0]
  have hother (ji : Nat) (hne : j0 ≠ ji) :
      Melds (a.joint ji) (a.held ({mj, mj} + melds.join) ji) := by
    rw [hheld, if_neg hne, zero_add]
    exact hrest ji
  have honly (ji : Nat) (hcard : (a.held ({mj, mj} + melds.join) ji).card % 3 = 2) : j0 = ji := by
    by_contra hne
    rw [(hother ji hne).card] at hcard
    cases hcard
  refine ⟨fun ji => ?_, fun ji jk hi hk => (honly ji hi).symm.trans (honly jk hk)⟩
  by_cases hji : j0 = ji
  · refine .inr ⟨getValue mj, _, hrest ji, ?_⟩
    rw [hheld, if_pos hji]
  · exact .inl (hother ji hji)

theorem wins_of_divides (h : Classed a n) (hknown : a.Known s) {k : Nat}
    (hsize : s.card = 3 * k + 2) (hdivides : ∀ ji, Divides (a.joint ji) (a.held s ji))
    (hone : a.OneOver s) : a.Wins s k := by
  -- some class has a pair, or all tiles would be in melds
  obtain ⟨j0, hp⟩ : ∃ j0, Paired (a.joint j0) (a.held s j0) := by
    by_contra hnone
    have hmelds := (splits_iff h hknown).mpr fun ji =>
      (hdivides ji).resolve_right fun hp => hnone ⟨ji, hp⟩
    obtain ⟨P, hP, rfl⟩ := hmelds
    rw [Lib.Splits.card_join fun m hm => (hP m hm).card] at hsize
    omega
  have hcard := hp.card
  obtain ⟨mj, rest, rfl, hmj, hrest⟩ := exists_pair h hp
  have hmelds (ji : Nat) : Melds (a.joint ji) (a.held rest ji) := by
    by_cases hji : j0 = ji
    · exact hji ▸ hrest
    · have hsame : a.held ({mj, mj} + rest) ji = a.held rest ji := by
        rw [held_add, held_pair hmj, if_neg hji, zero_add]
      rw [← hsame]
      exact (hdivides ji).resolve_right fun hpi => hji (hone j0 ji hcard hpi.card)
  obtain ⟨P, hP, rfl⟩ :=
    (splits_iff h fun x hx => hknown x (Multiset.mem_add.mpr (.inr hx))).mpr hmelds
  refine ⟨mj, P, ?_, hP, rfl⟩
  rw [Multiset.card_add, Multiset.card_pair,
    Lib.Splits.card_join fun m hm => (hP m hm).card] at hsize
  omega

theorem wins_iff (h : Classed a n) (hknown : a.Known s) {k : Nat} (hsize : s.card = 3 * k + 2) :
    a.Wins s k ↔ (∀ ji, Divides (a.joint ji) (a.held s ji)) ∧ a.OneOver s :=
  ⟨Wins.divides h hknown, fun hd => wins_of_divides h hknown hsize hd.1 hd.2⟩

end XsServer.Mahjong.Algor
