import XsServer.Lib.Splits

/-! How the values of one class divide: into melds, or into melds and one pair. -/

namespace XsServer.Mahjong

/-- Three equal values, or three consecutive ones where the class is joint. -/
def Meld (joint : Bool) (m : Multiset Nat) : Prop :=
  (∃ v, m = {v, v, v}) ∨ joint = true ∧ ∃ v, m = {v, v + 1, v + 2}

def Melds (joint : Bool) : Multiset Nat → Prop := Lib.Splits (Meld joint)

def Paired (joint : Bool) (s : Multiset Nat) : Prop := ∃ v t, Melds joint t ∧ s = {v, v} + t

def Divides (joint : Bool) (s : Multiset Nat) : Prop := Melds joint s ∨ Paired joint s

variable {joint : Bool} {s : Multiset Nat}

theorem Meld.card {m : Multiset Nat} (h : Meld joint m) : m.card = 3 := by
  rcases h with ⟨v, rfl⟩ | ⟨-, v, rfl⟩ <;> rfl

theorem Melds.card (h : Melds joint s) : s.card % 3 = 0 := by
  apply Nat.mod_eq_zero_of_dvd
  exact Lib.Splits.dvd h (f := Multiset.card) rfl Multiset.card_add fun g hg => hg.card ▸ dvd_rfl

theorem Paired.card (h : Paired joint s) : s.card % 3 = 2 := by
  obtain ⟨v, t, ht, rfl⟩ := h
  have hcard := ht.card
  simp only [Multiset.card_add, Multiset.card_pair]
  omega

theorem Divides.card (h : Divides joint s) : s.card % 3 ≠ 1 := by
  obtain h | h := h
  · rw [h.card]; decide
  · rw [h.card]; decide

theorem Meld.map {m : Multiset Nat} (h : Meld joint m) {f : Nat → Nat}
    (hf : ∀ v ∈ m, f (v + 1) = f v + 1) : Meld joint (m.map f) := by
  obtain ⟨v, rfl⟩ | ⟨hjoint, v, rfl⟩ := h
  · exact .inl ⟨f v, rfl⟩
  · refine .inr ⟨hjoint, f v, ?_⟩
    simp [hf v (by simp), hf (v + 1) (by simp)]

theorem Melds.map (h : Melds joint s) {f : Nat → Nat} (hf : ∀ v ∈ s, f (v + 1) = f v + 1) :
    Melds joint (s.map f) :=
  Lib.Splits.map h f fun _ hsub hg => hg.map fun v hv => hf v (hsub v hv)

theorem Divides.map (h : Divides joint s) {f : Nat → Nat} (hf : ∀ v ∈ s, f (v + 1) = f v + 1) :
    Divides joint (s.map f) := by
  obtain h | ⟨v, t, ht, rfl⟩ := h
  · exact .inl (h.map hf)
  · refine .inr ⟨f v, t.map f, ?_, by simp⟩
    exact ht.map fun w hw => hf w (Multiset.mem_add.mpr (.inr hw))

theorem divides_map_add (n : Nat) : Divides joint (s.map (· + n)) ↔ Divides joint s := by
  constructor
  · intro h
    have hback := h.map (f := (· - n)) fun v hv => by
      obtain ⟨w, -, rfl⟩ := Multiset.mem_map.mp hv
      omega
    simpa [Multiset.map_map, Function.comp_def] using hback
  · intro h
    exact h.map fun v _ => by omega

/-- At most one value is left with two tiles when the triplets are taken off. -/
def OnePair (s : Multiset Nat) : Prop :=
  ∀ v w, s.count v % 3 = 2 → s.count w % 3 = 2 → v = w

theorem melds_replicate (v n : Nat) : Melds joint (Multiset.replicate (3 * n) v) := by
  induction n with
  | zero => exact Lib.Splits.zero
  | succ n ih =>
    rw [Nat.mul_succ, Multiset.replicate_add]
    exact Lib.Splits.add ih (Lib.Splits.of (.inl ⟨v, rfl⟩))

theorem melds_false_iff : Melds false s ↔ ∀ v, s.count v % 3 = 0 := by
  constructor
  · intro h v
    apply Nat.mod_eq_zero_of_dvd
    refine Lib.Splits.dvd h (f := Multiset.count v) (Multiset.count_zero v)
      (Multiset.count_add v) fun g hg => ?_
    obtain ⟨w, rfl⟩ | ⟨hfalse, -⟩ := hg
    · by_cases hv : v = w <;> simp [hv]
    · cases hfalse
  · intro h
    refine Lib.Splits.of_filter id fun v => ?_
    obtain ⟨n, hn⟩ := Nat.dvd_of_mod_eq_zero (h v)
    have hfilter : s.filter (fun x => id x = v) = Multiset.replicate (3 * n) v := by
      rw [← hn]
      exact Multiset.filter_eq' s v
    rw [hfilter]
    exact melds_replicate v n

theorem paired_false_iff :
    Paired false s ↔ ∃ v, s.count v % 3 = 2 ∧ ∀ w, w ≠ v → s.count w % 3 = 0 := by
  have hpair (v w : Nat) : Multiset.count w {v, v} = if w = v then 2 else 0 := by
    by_cases hw : w = v <;> simp [hw]
  constructor
  · rintro ⟨v, t, ht, rfl⟩
    have hcount := melds_false_iff.mp ht
    refine ⟨v, ?_, fun w hw => ?_⟩
    · have := hcount v
      simp only [Multiset.count_add, hpair, if_true]
      omega
    · simp [hw, hcount w]
  · rintro ⟨v, hv, hrest⟩
    have hle : ({v, v} : Multiset Nat) ≤ s := by
      apply Multiset.le_iff_count.mpr
      intro w
      rw [hpair]
      split
      · next hw => subst hw; omega
      · exact Nat.zero_le _
    refine ⟨v, s - {v, v}, melds_false_iff.mpr fun w => ?_, (add_tsub_cancel_of_le hle).symm⟩
    rw [Multiset.count_sub, hpair]
    split
    · next hw => subst hw; omega
    · next hw => exact hrest w hw

theorem divides_false_iff :
    Divides false s ↔ (∀ v, s.count v % 3 ≠ 1) ∧ OnePair s := by
  rw [Divides, melds_false_iff, paired_false_iff]
  constructor
  · rintro (h | ⟨v, hv, hrest⟩)
    · exact ⟨fun v => by rw [h v]; decide, fun v _ hv => by rw [h v] at hv; cases hv⟩
    · have honly (w : Nat) (hw : s.count w % 3 ≠ 0) : w = v := by
        by_contra hne
        exact hw (hrest w hne)
      refine ⟨fun w hw => ?_, fun w x hw hx => ?_⟩
      · rw [honly w (by omega)] at hw
        omega
      · rw [honly w (by omega), honly x (by omega)]
  · rintro ⟨hone, hpair⟩
    by_cases h : ∃ v, s.count v % 3 = 2
    · obtain ⟨v, hv⟩ := h
      refine .inr ⟨v, hv, fun w hw => ?_⟩
      have h1 := hone w
      have h2 : s.count w % 3 ≠ 2 := fun h2 => hw (hpair w v h2 hv)
      omega
    · refine .inl fun v => ?_
      have h1 := hone v
      have h2 : s.count v % 3 ≠ 2 := fun h2 => h ⟨v, h2⟩
      omega

end XsServer.Mahjong
