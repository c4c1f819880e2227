import Mathlib.Data.List.Induction
import Mathlib.Logic.Relation

/-! Runs of labelled transition systems, and the induction that carries an invariant along them. -/

namespace XsServer.Lib

variable {σ ε : Type*}

/-- The steps labelled `es`, in order, lead from the first state to the second. -/
inductive Run (step : σ → ε → σ → Prop) : σ → List ε → σ → Prop
  | nil (s : σ) : Run step s [] s
  | snoc {s t u : σ} {es : List ε} {e : ε} : Run step s es t → step t e u → Run step s (es ++ [e]) u

/-- The steps that start in a state where `ok` allows their label. -/
def Guarded (ok : σ → ε → Prop) (step : σ → ε → σ → Prop) (s : σ) (e : ε) (t : σ) : Prop :=
  ok s e ∧ step s e t

variable {step step' : σ → ε → σ → Prop}

variable {s t : σ} {e : ε}

theorem Guarded.of_step {ok : σ → ε → Prop} (h : step s e t) (hok : ok s e) :
    Guarded ok step s e t := ⟨hok, h⟩

theorem Run.single (h : step s e t) : Run step s [e] t :=
  Run.snoc (Run.nil s) h

theorem Run.trans {s t u : σ} {es fs : List ε} (h1 : Run step s es t) (h2 : Run step t fs u) :
    Run step s (es ++ fs) u := by
  induction h2 with
  | nil => rwa [List.append_nil]
  | snoc _ hstep ih =>
    rw [← List.append_assoc]
    exact ih.snoc hstep

theorem Run.cons {s t u : σ} {e : ε} {es : List ε} (h : step s e t) (h' : Run step t es u) :
    Run step s (e :: es) u :=
  (Run.single h).trans h'

theorem Run.split {s u : σ} {es fs : List ε} (h : Run step s (es ++ fs) u) :
    ∃ t, Run step s es t ∧ Run step t fs u := by
  generalize hgs : es ++ fs = gs at h
  induction h generalizing fs with
  | nil =>
    obtain ⟨rfl, rfl⟩ := List.append_eq_nil_iff.mp hgs
    exact ⟨_, Run.nil _, Run.nil _⟩
  | @snoc v u gs e hrun hstep ih =>
    obtain rfl | ⟨fs, f, rfl⟩ := List.eq_nil_or_concat fs
    · rw [List.append_nil] at hgs
      exact ⟨u, hgs ▸ hrun.snoc hstep, Run.nil u⟩
    · rw [List.concat_eq_append, ← List.append_assoc] at hgs
      obtain ⟨hfront, hlast⟩ := List.append_inj' hgs rfl
      obtain rfl := List.singleton_inj.mp hlast
      obtain ⟨t, hes, hfs⟩ := ih hfront
      rw [List.concat_eq_append]
      exact ⟨t, hes, hfs.snoc hstep⟩

variable {es : List ε}

theorem Run.of_nil (h : Run step s es t) (hes : es = []) : t = s := by
  cases h with
  | nil => rfl
  | snoc => exact absurd hes (by simp)

theorem Run.of_cons {s u : σ} (h : Run step s (e :: es) u) :
    ∃ t, step s e t ∧ Run step t es u := by
  have happend : Run step s ([e] ++ es) u := h
  obtain ⟨t, hone, hrest⟩ := happend.split
  refine ⟨t, ?_, hrest⟩
  generalize hfs : [e] = fs at hone
  cases hone with
  | nil => cases hfs
  | @snoc v _ gs f hrun hstep =>
    obtain ⟨hgs, he⟩ := List.append_inj' (show [] ++ [e] = gs ++ [f] from hfs) rfl
    obtain rfl := List.singleton_inj.mp he
    rwa [← hrun.of_nil hgs.symm]

/-- What holds at first and is kept by every step holds at the end of every run. -/
theorem Run.invariant {I : σ → Prop} (h : Run step s es t) (h0 : I s)
    (hstep : ∀ s e t, I s → step s e t → I t) : I t := by
  induction h with
  | nil => exact h0
  | snoc _ hs ih => exact hstep _ _ _ ih hs

theorem Run.mono (h : Run step s es t)
    (himp : ∀ s e t, step s e t → step' s e t) : Run step' s es t := by
  induction h with
  | nil => exact Run.nil _
  | snoc _ hs ih => exact ih.snoc (himp _ _ _ hs)

/-- The property `p` is lost in a step that `ok` does not allow, and does not come back: a run ends
with it exactly if all of its steps are allowed. -/
theorem Run.guarded_iff {ok : σ → ε → Prop} {I J p : σ → Prop}
    (h : Run step s es t) (hI : I s) (hJ : J s) (hp : p s) (hkeep : ∀ s e t, J s → step s e t → J t)
    (hback : ∀ s e t, J s → step s e t → p t → p s)
    (hstep : ∀ s e t, I s → step s e t → (p t ↔ p s ∧ ok s e) ∧ (ok s e → I t)) :
    p t ↔ Run (Guarded ok step) s es t := by
  have hguarded : ∀ {es : List ε} {t : σ}, Run (Guarded ok step) s es t → I t ∧ p t := fun hr =>
    hr.invariant (I := fun t => I t ∧ p t) ⟨hI, hp⟩ fun s e t ⟨hI, hp⟩ ⟨hok, hs⟩ =>
      ⟨(hstep s e t hI hs).2 hok, (hstep s e t hI hs).1.mpr ⟨hp, hok⟩⟩
  refine ⟨fun hp' => ?_, fun hr => (hguarded hr).2⟩
  induction h with
  | nil => exact Run.nil _
  | @snoc t u es e hr hs ih =>
    have hrun := ih (hback t e u (hr.invariant hJ hkeep) hs hp')
    exact hrun.snoc ⟨((hstep t e u (hguarded hrun).1 hs).1.mp hp').2, hs⟩

/-! ### Runs of a function -/

section Along

variable {ω : Type*} {next : σ → ε → σ × ω} {p : σ → ε → Prop}

/-- The state after the events `es`. -/
def after (next : σ → ε → σ × ω) (s : σ) : List ε → σ
  | [] => s
  | e :: es => after next (next s e).1 es

/-- The events `es`, each with what it gives. -/
def logged (next : σ → ε → σ × ω) (s : σ) : List ε → List (ε × ω)
  | [] => []
  | e :: es => (e, (next s e).2) :: logged next (next s e).1 es

/-- Each event meets `p` in the state in which it comes. -/
def Along (next : σ → ε → σ × ω) (p : σ → ε → Prop) (s : σ) : List ε → Prop
  | [] => True
  | e :: es => p s e ∧ Along next p (next s e).1 es

instance Along.decidable [∀ s e, Decidable (p s e)] (s : σ) :
    (es : List ε) → Decidable (Along next p s es)
  | [] => .isTrue trivial
  | _ :: es => @instDecidableAnd _ _ _ (Along.decidable _ es)

theorem Along.run {step : σ → ε × ω → σ → Prop}
    (hstep : ∀ s e, p s e → step s (e, (next s e).2) (next s e).1) {s : σ}
    (h : Along next p s es) : Run step s (logged next s es) (after next s es) := by
  induction es generalizing s with
  | nil => exact .nil s
  | cons e es ih => exact .cons (hstep s e h.1) (ih h.2)

theorem after_snoc (s : σ) (es : List ε) (e : ε) :
    after next s (es ++ [e]) = (next (after next s es) e).1 := by
  induction es generalizing s with
  | nil => rfl
  | cons _ es ih => exact ih _

theorem along_snoc {s : σ} :
    Along next p s (es ++ [e]) ↔ Along next p s es ∧ p (after next s es) e := by
  induction es generalizing s with
  | nil => simp [Along, after]
  | cons _ es ih => simp only [List.cons_append, Along, after, ih, and_assoc]

/-- What holds at first and is kept by the events that meet `p` gives `G` after each of them, and an
event that does not meet `p` breaks `G`: then `G` holds all along a run if and only if its events
meet `p`. -/
theorem along_iff {I G : List ε → σ → Prop} {s : σ} (h0 : I [] s)
    (hstep : ∀ es s e, I es s → p s e → I (es ++ [e]) (next s e).1)
    (hgood : ∀ es s, I es s → G es s)
    (hbad : ∀ es s e, I es s → ¬ p s e → ¬ G (es ++ [e]) (next s e).1) (es : List ε) :
    (∀ pre, pre <+: es → G pre (after next s pre)) ↔ Along next p s es := by
  have hinv : ∀ es, Along next p s es → I es (after next s es) := by
    intro es
    induction es using List.reverseRecOn with
    | nil => exact fun _ => h0
    | append_singleton es e ih =>
      intro h
      obtain ⟨hes, he⟩ := along_snoc.mp h
      rw [after_snoc]
      exact hstep _ _ _ (ih hes) he
  constructor
  · intro h
    induction es using List.reverseRecOn with
    | nil => trivial
    | append_singleton es e ih =>
      have hes := ih fun pre hpre => h pre (hpre.trans (List.prefix_append _ _))
      refine along_snoc.mpr ⟨hes, ?_⟩
      by_contra he
      have hlast := h (es ++ [e]) (List.prefix_refl _)
      rw [after_snoc] at hlast
      exact hbad _ _ _ (hinv es hes) he hlast
  · rintro h pre ⟨post, rfl⟩
    refine hgood _ _ (hinv pre ?_)
    clear hinv h0
    induction pre generalizing s with
    | nil => trivial
    | cons _ pre ih => exact ⟨h.1, ih h.2⟩

end Along

end XsServer.Lib
