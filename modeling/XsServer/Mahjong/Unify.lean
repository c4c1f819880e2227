import XsServer.Mahjong.Algor

/-! What `setSupportClasss` and `getUnifyHands` leave behind: units with their classes, and the
values that a hand holds of each class. -/

namespace XsServer.Mahjong

@[simp] theorem getValue_getCard {color value : Nat} (h : value < 16) :
    getValue (getCard color value) = value := by
  simp only [getValue, getCard]
  omega

@[simp] theorem getColor_getCard {color value : Nat} (h : value < 16) :
    getColor (getCard color value) = color := by
  simp only [getColor, getCard]
  omega

theorem getCard_getValue (mj : Nat) : getCard (getColor mj) (getValue mj) = mj := by
  simp only [getCard, getColor, getValue]
  omega

namespace Algor

variable {a : Algor} {hands : List Nat}

/-! ### The units -/

/-- Nothing has been classed yet. -/
structure Unclassed (a : Algor) : Prop where
  classs : ∀ mj, a.support_classs mj = none
  mclass : ∀ idx, a.support_mclass idx = none

/-- Every class below `n` is one unit, and its tiles have that unit's colour. -/
structure Classed (a : Algor) (n : Nat) : Prop where
  mclass : ∀ {mj idx unit}, a.support_classs mj = some (idx, unit) →
    a.support_mclass idx = some unit
  color : ∀ {mj idx unit}, a.support_classs mj = some (idx, unit) → getColor mj = unit.color
  below : ∀ {idx unit}, a.support_mclass idx = some unit → idx < n

/-- While the values of `unit` are added, the class `idx` is this unit or empty. -/
structure Adding (a : Algor) (idx : Nat) (unit : MjUnit) : Prop extends Classed a (idx + 1) where
  current : ∀ {u}, a.support_mclass idx = some u → u = unit

theorem Adding.addTile {idx : Nat} {unit : MjUnit} (h : Adding a idx unit) {value : Nat}
    (hv : value < 16) : Adding (addTile idx unit a value) idx unit := by
  constructor
  · constructor
    · intro mj i u hmj
      simp only [Algor.addTile, Function.update_apply] at hmj ⊢
      split at hmj
      · simp_all
      · have hu := h.mclass hmj
        split
        · next hi =>
          subst hi
          rw [h.current hu]
        · exact hu
    · intro mj i u hmj
      simp only [Algor.addTile, Function.update_apply] at hmj
      split at hmj
      · next hc =>
        obtain ⟨-, rfl⟩ : idx = i ∧ unit = u := by simpa using hmj
        rw [hc, getColor_getCard hv]
      · exact h.color hmj
    · intro i u hi
      simp only [Algor.addTile, Function.update_apply] at hi
      split at hi
      · omega
      · exact h.below hi
  · intro u hu
    simpa [Algor.addTile, eq_comm] using hu

theorem Adding.addTiles {idx : Nat} {unit : MjUnit} {values : List Nat}
    (hv : ∀ value ∈ values, value < 16) (h : Adding a idx unit) :
    Adding (values.foldl (Algor.addTile idx unit) a) idx unit := by
  induction values generalizing a with
  | nil => exact h
  | cons value values ih =>
    rw [List.foldl_cons]
    apply ih fun v hmem => hv v (List.mem_cons_of_mem _ hmem)
    exact h.addTile (hv value List.mem_cons_self)

theorem Classed.adding {idx : Nat} (h : Classed a idx) (unit : MjUnit) : Adding a idx unit := by
  refine ⟨⟨h.mclass, h.color, fun hi => ?_⟩, fun hu => ?_⟩
  · exact (h.below hi).trans (Nat.lt_succ_self idx)
  · exact absurd (h.below hu) (Nat.lt_irrefl idx)

theorem lt_of_mem_values {unit : MjUnit} {value : Nat} (h : value ∈ unit.values) :
    value < 16 := by
  have hhex := unit.hex
  obtain ⟨hstart, hclose⟩ := List.mem_range'_1.mp h
  omega

theorem Classed.addUnits {idx : Nat} (h : Classed a idx) (ts : List MjUnit) :
    Classed (a.addUnits idx ts) (idx + ts.length) := by
  induction ts generalizing a idx with
  | nil => exact h
  | cons unit ts ih =>
    have hadd : Adding (unit.values.foldl (addTile idx unit) a) idx unit :=
      (h.adding unit).addTiles fun _ hv => lt_of_mem_values hv
    have hrest := ih hadd.toClassed
    rwa [Nat.add_right_comm, Nat.add_assoc] at hrest

theorem Unclassed.setSupportClasss (h : Unclassed a) (ts : List MjUnit) :
    Classed (a.setSupportClasss ts) (1 + ts.length) := by
  refine Classed.addUnits ⟨fun hmj => ?_, fun hmj => ?_, fun hi => ?_⟩ ts
  · rw [h.classs] at hmj; cases hmj
  · rw [h.classs] at hmj; cases hmj
  · rw [h.mclass] at hi; cases hi

/-- Two checks with the same switches and wild tiles. -/
structure SameRules (a b : Algor) : Prop where
  pairs7 : a.support_7pairs = b.support_7pairs
  laizi4 : a.support_4laizi = b.support_4laizi
  laizis : a.support_laizis = b.support_laizis

theorem addTiles_rules (idx : Nat) (unit : MjUnit) (values : List Nat) :
    SameRules (values.foldl (addTile idx unit) a) a := by
  induction values generalizing a with
  | nil => exact ⟨rfl, rfl, rfl⟩
  | cons value values ih =>
    have h := ih (a := addTile idx unit a value)
    exact ⟨h.pairs7, h.laizi4, h.laizis⟩

theorem addUnits_rules (idx : Nat) (ts : List MjUnit) : SameRules (a.addUnits idx ts) a := by
  induction ts generalizing a idx with
  | nil => exact ⟨rfl, rfl, rfl⟩
  | cons unit ts ih =>
    have hunit := addTiles_rules (a := a) idx unit unit.values
    have h := ih (a := unit.values.foldl (addTile idx unit) a) (idx + 1)
    exact ⟨h.pairs7.trans hunit.pairs7, h.laizi4.trans hunit.laizi4, h.laizis.trans hunit.laizis⟩

theorem setSupportClasss_rules (ts : List MjUnit) : SameRules (a.setSupportClasss ts) a :=
  addUnits_rules 1 ts

/-! ### The hand -/

def held (a : Algor) (s : Multiset Nat) (ji : Nat) : Multiset Nat :=
  (s.filter fun mj => a.getSupportClassID mj = some ji).map getValue

@[simp] theorem held_zero (ji : Nat) : a.held 0 ji = 0 := rfl

theorem held_cons (mj : Nat) (s : Multiset Nat) (ji : Nat) :
    a.held (mj ::ₘ s) ji =
      if a.getSupportClassID mj = some ji then getValue mj ::ₘ a.held s ji else a.held s ji := by
  by_cases h : a.getSupportClassID mj = some ji
  · simp [held, h]
  · simp [held, h]

/-- What the tiles of `s` change of a hand. -/
structure Unified (a : Algor) (s : Multiset Nat) (ufy ufy' : Unify) : Prop where
  spcount : ufy'.spcount = ufy.spcount
  lzcount : (∀ mj ∈ s, a.ifRuffian mj = false) → ufy'.lzcount = ufy.lzcount
  mjClass : ∀ ji, ufy'.mjClass ji = a.held s ji + ufy.mjClass ji
  num : ∀ ji, (ufy'.mjGapls ji).num = (a.held s ji).card + (ufy.mjGapls ji).num

theorem unify_some (ufy : Unify) {mj ji : Nat} (h : a.getSupportClassID mj = some ji)
    (hji : ji ∈ classIDs) : ∃ ufy', a.unify ufy mj = some ufy' ∧ a.Unified {mj} ufy ufy' := by
  have hheld (k : Nat) : a.held {mj} k = if ji = k then {getValue mj} else 0 := by
    rw [← Multiset.cons_zero, held_cons, h]
    simp
  refine ⟨_, by rw [unify, h]; exact if_pos hji, ?_⟩
  constructor
  · split <;> rfl
  · intro htame
    rw [htame mj (Multiset.mem_singleton_self mj)]
    rfl
  · intro k
    rw [hheld]
    by_cases hk : k = ji
    · subst hk
      split <;> simp
    · split <;> simp [hk, Ne.symm hk]
  · intro k
    rw [hheld]
    by_cases hk : k = ji
    · subst hk
      split <;> simp [MjGap.add] <;> omega
    · split <;> simp [hk, Ne.symm hk]

theorem Unified.cons {mj : Nat} {s : Multiset Nat} {ufy ufy₁ ufy₂ : Unify}
    (h₁ : a.Unified {mj} ufy ufy₁) (h₂ : a.Unified s ufy₁ ufy₂) :
    a.Unified (mj ::ₘ s) ufy ufy₂ := by
  have hheld (k : Nat) : a.held (mj ::ₘ s) k = a.held s k + a.held {mj} k := by
    simp [held, ← Multiset.singleton_add, Multiset.filter_add, Multiset.add_comm]
  constructor
  · exact h₂.spcount.trans h₁.spcount
  · intro htame
    rw [h₂.lzcount fun x hx => htame x (Multiset.mem_cons_of_mem hx)]
    exact h₁.lzcount fun x hx =>
      htame x (Multiset.mem_singleton.mp hx ▸ Multiset.mem_cons_self mj s)
  · intro k
    rw [h₂.mjClass, h₁.mjClass, hheld, Multiset.add_assoc]
  · intro k
    rw [h₂.num, h₁.num, hheld, Multiset.card_add]
    omega

theorem foldlM_unify (ufy : Unify)
    (h : ∀ mj ∈ hands, ∃ ji ∈ classIDs, a.getSupportClassID mj = some ji) :
    ∃ ufy', hands.foldlM a.unify ufy = some ufy' ∧ a.Unified hands ufy ufy' := by
  induction hands generalizing ufy with
  | nil => exact ⟨ufy, rfl, rfl, fun _ => rfl, fun _ => by simp, fun _ => by simp⟩
  | cons mj hands ih =>
    obtain ⟨ji, hji, hmj⟩ := h mj List.mem_cons_self
    obtain ⟨ufy₁, hstep, h₁⟩ := unify_some ufy hmj hji
    obtain ⟨ufy₂, hrest, h₂⟩ := ih ufy₁ fun x hx => h x (List.mem_cons_of_mem _ hx)
    refine ⟨ufy₂, ?_, Multiset.cons_coe mj hands ▸ h₁.cons h₂⟩
    rw [List.foldlM_cons, hstep]
    exact hrest

theorem getUnifyHands_some
    (h : ∀ mj ∈ hands, ∃ ji ∈ classIDs, a.getSupportClassID mj = some ji) :
    ∃ ufy, a.getUnifyHands hands = some ufy ∧ a.Unified hands (Unify.init hands) ufy := by
  obtain ⟨ufy, hfold, hufy⟩ := foldlM_unify (Unify.init hands) h
  refine ⟨_, by rw [getUnifyHands, hfold]; rfl, ?_⟩
  exact ⟨hufy.spcount, hufy.lzcount, hufy.mjClass, hufy.num⟩

theorem getUnifyHands_none {mj : Nat} (hmj : mj ∈ hands)
    (h : ∀ ji ∈ classIDs, a.getSupportClassID mj ≠ some ji) : a.getUnifyHands hands = none := by
  have hstep (ufy : Unify) : a.unify ufy mj = none := by
    rw [unify]
    split
    · rfl
    · next ji hji => exact if_neg fun hmem => h ji hmem hji
  have hfold (ufy : Unify) : hands.foldlM a.unify ufy = none := by
    induction hands generalizing ufy with
    | nil => cases hmj
    | cons x hands ih =>
      rw [List.foldlM_cons]
      obtain rfl | hrest := List.mem_cons.mp hmj
      · rw [hstep]
        rfl
      · cases a.unify ufy x with
        | none => rfl
        | some ufy' => exact ih hrest ufy'
  rw [getUnifyHands, hfold]
  rfl

end Algor

end XsServer.Mahjong
