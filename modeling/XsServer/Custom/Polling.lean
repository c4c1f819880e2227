import XsServer.Custom.Timer

/-! The polling chain of a timer: `poling` asks for the next wake-up before its loop, so one wake-up
is out at any time, unless the timer is paused.  A timer that goes on before the wake-up from before
the pause has come back gets a second chain. -/

namespace XsServer.Custom.Timer

open XsServer.Lib

variable {κ ν : Type*} {t u : Timer κ ν}

/-- The clock, the pause, the wake-ups and the loops are as they were. -/
structure Kept (t u : Timer κ ν) : Prop where
  now : u.now = t.now
  pauset : u.pauset = t.pauset
  wakeups : u.wakeups = t.wakeups
  polls : u.polls = t.polls

theorem Kept.refl (t : Timer κ ν) : Kept t t := ⟨rfl, rfl, rfl, rfl⟩

theorem Kept.trans {v : Timer κ ν} (h1 : Kept t u) (h2 : Kept u v) : Kept t v :=
  ⟨h2.now.trans h1.now, h2.pauset.trans h1.pauset, h2.wakeups.trans h1.wakeups,
    h2.polls.trans h1.polls⟩

theorem kept_append (t : Timer κ ν) (elapse : Nat) (count : Option Int) (call : κ) :
    Kept t (t.append elapse count call).2 := by
  unfold append get
  split <;> exact ⟨rfl, rfl, rfl, rfl⟩

theorem kept_dropName (t : Timer κ ν) (name : ν) : Kept t (t.dropName name) := by
  unfold dropName
  split <;> exact ⟨rfl, rfl, rfl, rfl⟩

/-- At most one wake-up is out, and one if the timer is neither paused nor in a loop. -/
def OneChain (t : Timer κ ν) : Prop :=
  t.wakeups ≤ 1 ∧ (t.pauset = none → t.polls = 0 → t.wakeups = 1)

/-- A paused timer goes on only when no wake-up is out. -/
def Drained (t : Timer κ ν) (e : Event κ ν) : Prop :=
  e = .uPause → t.pauset ≠ none → t.wakeups = 0

def Armed (t : Timer κ ν) : Prop := t.wakeups ≤ 1 ∧ (t.pauset = none → t.wakeups = 1)

theorem Armed.oneChain (h : Armed t) : OneChain t := ⟨h.1, fun hpauset _ => h.2 hpauset⟩

theorem Armed.kept (h : Armed t) (hk : Kept t u) : Armed u := by
  unfold Armed
  rw [hk.wakeups, hk.pauset]
  exact h

theorem Armed.uPause (h : Armed t) : Armed t.uPause ∨ t.pauset ≠ none ∧ t.wakeups = 1 := by
  unfold Timer.uPause
  cases hpauset : t.pauset with
  | none => exact Or.inl h
  | some pause =>
    obtain hzero | hone : t.wakeups = 0 ∨ t.wakeups = 1 := by have := h.1; omega
    · refine Or.inl ⟨?_, fun _ => ?_⟩
      · show t.wakeups + 1 ≤ 1
        omega
      · show t.wakeups + 1 = 1
        omega
    · exact Or.inr ⟨by simp, hone⟩

theorem not_oneChain_uPause (hpauset : t.pauset ≠ none) (hout : 0 < t.wakeups) :
    ¬ OneChain t.uPause := by
  obtain ⟨pause, hpause⟩ := Option.ne_none_iff_exists'.mp hpauset
  rintro ⟨hle, -⟩
  rw [Timer.uPause, hpause] at hle
  have : t.wakeups + 1 ≤ 1 := hle
  omega

variable [DecidableEq ν]

theorem kept_appendBy (t : Timer κ ν) (name : ν) (elapse : Nat) (count : Option Int) (call : κ) :
    Kept t (t.appendBy name elapse count call).2 := by
  have h := (t.kept_dropName name).trans ((t.dropName name).kept_append elapse count call)
  exact ⟨h.now, h.pauset, h.wakeups, h.polls⟩

theorem kept_clearName (t : Timer κ ν) (iden : Int) : Kept t (t.clearName iden) := by
  unfold clearName
  split <;> exact ⟨rfl, rfl, rfl, rfl⟩

theorem kept_remove (t : Timer κ ν) (iden : Int) : Kept t (t.remove iden) := by
  unfold remove
  split
  · refine Kept.trans ?_ (kept_clearName _ _)
    exact ⟨rfl, rfl, rfl, rfl⟩
  · exact Kept.refl t

theorem kept_execute (t : Timer κ ν) (rede : Option (Node Nat Nat)) :
    Kept t (t.execute rede).2 := by
  unfold execute
  split
  · exact Kept.refl t
  · split
    · simp only
      split
      · refine Kept.trans ?_ (kept_clearName _ _)
        exact ⟨rfl, rfl, rfl, rfl⟩
      · exact ⟨rfl, rfl, rfl, rfl⟩
    · exact Kept.refl t

theorem Armed.step {e : Event κ ν} (h : Armed t) (hstep : Step t e u) (hclear : Drained t e) :
    Armed u := by
  cases hstep with
  | clock => exact h
  | expire hout =>
    have hone : t.wakeups = 1 := by have := h.1; omega
    unfold Timer.expire poling
    split
    case h_1 pause hpauset =>
      refine ⟨?_, fun hnone => absurd (hpauset.symm.trans hnone) (by simp)⟩
      show t.wakeups - 1 ≤ 1
      omega
    case h_2 =>
      refine ⟨?_, fun _ => ?_⟩
      · show t.wakeups - 1 + 1 ≤ 1
        omega
      · show t.wakeups - 1 + 1 = 1
        omega
  | called rede call _ _ _ => exact h.kept (t.kept_execute (some rede))
  | idle rede _ _ _ =>
    have hkept := h.kept (t.kept_execute rede)
    exact hkept
  | append elapse count call => exact h.kept (t.kept_append elapse count call)
  | appendBy name elapse count call => exact h.kept (t.kept_appendBy name elapse count call)
  | remove iden => exact h.kept (t.kept_remove iden)
  | pause =>
    unfold Timer.pause
    split
    · exact ⟨h.1, fun hnone => absurd hnone (by simp)⟩
    · exact h
  | uPause =>
    obtain harmed | ⟨hpauset, hone⟩ := h.uPause
    · exact harmed
    · have hzero := hclear rfl hpauset
      omega

/-- While a paused timer goes on only without a wake-up out, the timer has one chain, and a step
keeps this if and only if it meets that. -/
theorem one_chain {now : Nat} {items : Nat → Item κ} {es : List (Event κ ν)}
    (hrun : Run (Guarded Drained Step) (new now items) es t) :
    OneChain t ∧ ∀ e u, Step t e u → (OneChain u ↔ Drained t e) := by
  have harmed : Armed t :=
    hrun.invariant ⟨Nat.le_refl 1, fun _ => rfl⟩ fun s e u hs hstep => hs.step hstep.2 hstep.1
  refine ⟨harmed.oneChain, fun e u hstep => ⟨fun hone he hpauset => ?_, fun hclear =>
    (harmed.step hstep hclear).oneChain⟩⟩
  subst he
  cases hstep
  by_contra hout
  exact not_oneChain_uPause hpauset (Nat.pos_of_ne_zero hout) hone

/-- A pause that ends at once. -/
theorem two_chains : ∃ t : Timer Unit Unit,
    Run Step (new 0 fun _ => ⟨0, none, ()⟩) [.pause, .uPause] t ∧ t.wakeups = 2 ∧ ¬ OneChain t := by
  refine ⟨_, .cons .pause <| .cons .uPause <| .nil _, rfl, ?_⟩
  exact fun h => absurd h.1 (by decide)

/-- A pause that lasts until the wake-up comes back. -/
theorem one_chain_paused : ∃ t : Timer Unit Unit,
    Run (Guarded Drained Step) (new 0 fun _ => ⟨0, none, ()⟩) [.pause, .expire, .uPause] t ∧
      OneChain t := by
  have hrun : Run (Guarded Drained Step) (new 0 fun _ => (⟨0, none, ()⟩ : Item Unit))
      [(.pause : Event Unit Unit), .expire, .uPause] _ :=
    .cons (.of_step .pause (by intro h; cases h)) <|
    .cons (.of_step (.expire (by decide)) (by intro h; cases h)) <|
    .cons (.of_step .uPause fun _ _ => rfl) <| .nil _
  exact ⟨_, hrun, (one_chain hrun).1⟩

end XsServer.Custom.Timer
