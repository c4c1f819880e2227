import Mathlib.Algebra.Ring.Nat
import Mathlib.Data.List.Basic

/-! Threads as stacks of frames.  In a step, the top frame of one thread is replaced. -/

namespace XsServer.Lib

variable {φ κ : Type*}

/-- A thread with the frame on top runs, and has other frames in its place after that. -/
def Replaces (ts : List (List φ)) (f : φ) (fs : List φ) (ts' : List (List φ)) : Prop :=
  ∃ l st r, ts = l ++ (f :: st) :: r ∧ ts' = l ++ (fs ++ st) :: r

/-- How often the frames have something to do with `c`. -/
def tally [BEq κ] (p : φ → Option κ) (ts : List (List φ)) (c : κ) : Nat :=
  (ts.flatten.filterMap p).count c

variable {ts ts' : List (List φ)} {f : φ} {fs : List φ}

theorem Replaces.mem (h : Replaces ts f fs ts') : f ∈ ts.flatten := by
  obtain ⟨l, st, r, rfl, -⟩ := h
  simp

theorem Replaces.of_mem (h : Replaces ts f fs ts') {g : φ} (hg : g ∈ ts'.flatten) :
    g ∈ fs ∨ g ∈ ts.flatten := by
  obtain ⟨l, st, r, rfl, rfl⟩ := h
  simp only [List.flatten_append, List.flatten_cons, List.mem_append, List.mem_cons] at hg ⊢
  tauto

/-! ### Weights -/

/-- The sum of the weights of the frames. -/
def weight (w : φ → Nat) (ts : List (List φ)) : Nat := (ts.flatten.map w).sum

theorem weight_append (w : φ → Nat) (ts ts' : List (List φ)) :
    weight w (ts ++ ts') = weight w ts + weight w ts' := by
  rw [weight, List.flatten_append, List.map_append, List.sum_append]
  rfl

theorem Replaces.weight (h : Replaces ts f fs ts') (w : φ → Nat) :
    weight w ts' + w f = weight w ts + (fs.map w).sum := by
  obtain ⟨l, st, r, rfl, rfl⟩ := h
  simp only [Lib.weight, List.flatten_append, List.flatten_cons, List.map_append, List.sum_append,
    List.map_cons, List.sum_cons]
  omega

theorem weight_le {w w' : φ → Nat} (h : ∀ f, w f ≤ w' f) (ts : List (List φ)) :
    weight w ts ≤ weight w' ts := by
  unfold weight
  induction ts.flatten with
  | nil => exact Nat.le_refl 0
  | cons f l ih =>
    simp only [List.map_cons, List.sum_cons]
    have := h f
    omega

theorem weight_add (w w' : φ → Nat) (ts : List (List φ)) :
    weight (fun f => w f + w' f) ts = weight w ts + weight w' ts := by
  unfold weight
  induction ts.flatten with
  | nil => rfl
  | cons f l ih =>
    simp only [List.map_cons, List.sum_cons]
    omega

theorem le_weight (w : φ → Nat) (hf : f ∈ ts.flatten) : w f ≤ weight w ts := by
  unfold weight
  generalize ts.flatten = l at hf
  induction l with
  | nil => cases hf
  | cons g l ih =>
    simp only [List.map_cons, List.sum_cons]
    obtain rfl | hf := List.mem_cons.mp hf
    · omega
    · have := ih hf
      omega

/-- The frame has all of one weight, and none of the other. -/
theorem weight_eq_zero {w w' : φ → Nat} (h : ∀ g, w' g ≤ w g) (hf : f ∈ ts.flatten)
    (hle : weight w ts ≤ w f) (hzero : w' f = 0) : weight w' ts = 0 := by
  have hadd := weight_add w' (fun g => w g - w' g) ts
  have hsum : (fun g => w' g + (w g - w' g)) = w := by
    funext g
    exact Nat.add_sub_cancel' (h g)
  rw [hsum] at hadd
  have hrest := le_weight (fun g => w g - w' g) hf
  simp only [hzero] at hrest
  omega

theorem weight_nil (w : φ → Nat) (h : ts.flatten = []) : weight w ts = 0 := by
  rw [weight, h]
  rfl

variable [BEq κ]

theorem Replaces.tally (h : Replaces ts f fs ts') (p : φ → Option κ) (c : κ) :
    tally p ts' c + ([f].filterMap p).count c = tally p ts c + (fs.filterMap p).count c := by
  obtain ⟨l, st, r, rfl, rfl⟩ := h
  have hcons : (f :: st).filterMap p = [f].filterMap p ++ st.filterMap p :=
    List.filterMap_append (l := [f])
  simp only [Lib.tally, List.flatten_append, List.flatten_cons, List.filterMap_append,
    List.count_append, hcons]
  omega

theorem tally_pos [LawfulBEq κ] {p : φ → Option κ} {c : κ} (hf : f ∈ ts.flatten)
    (hp : p f = some c) : 0 < tally p ts c :=
  List.count_pos_iff.mpr (List.mem_filterMap.mpr ⟨f, hf, hp⟩)

theorem tally_le_weight [LawfulBEq κ] {p : φ → Option κ} {c : κ} {w : φ → Nat}
    (h : ∀ f ∈ ts.flatten, p f = some c → 0 < w f) : tally p ts c ≤ weight w ts := by
  unfold tally weight
  generalize ts.flatten = l at h
  induction l with
  | nil => exact Nat.le_refl 0
  | cons f l ih =>
    have ih := ih fun g hg => h g (List.mem_cons_of_mem _ hg)
    rw [List.map_cons, List.sum_cons]
    cases hp : p f with
    | none =>
      rw [List.filterMap_cons_none hp]
      omega
    | some d =>
      rw [List.filterMap_cons_some hp, List.count_cons]
      split
      case isTrue hd =>
        have := h f List.mem_cons_self (hp.trans (congrArg some (eq_of_beq hd)))
        omega
      case isFalse => omega

theorem tally_two [LawfulBEq κ] {p : φ → Option κ} {c : κ} {g : φ} (hf : f ∈ ts.flatten)
    (hg : g ∈ ts.flatten) (hne : f ≠ g) (hpf : p f = some c) (hpg : p g = some c) :
    2 ≤ tally p ts c := by
  obtain ⟨l, r, hlr⟩ := List.append_of_mem hf
  rw [tally, hlr, List.filterMap_append, List.filterMap_cons_some hpf, List.count_append,
    List.count_cons_self]
  rw [hlr] at hg
  have hpos : ∀ {l : List φ}, g ∈ l → 0 < (l.filterMap p).count c := fun hmem =>
    List.count_pos_iff.mpr (List.mem_filterMap.mpr ⟨g, hmem, hpg⟩)
  obtain hg | hg := List.mem_append.mp hg
  · have := hpos hg
    omega
  · have := hpos ((List.mem_cons.mp hg).resolve_left hne.symm)
    omega

end XsServer.Lib
