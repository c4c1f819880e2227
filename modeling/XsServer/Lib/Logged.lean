/-! Computations that log what they do and may stop, and what the log and the end of one are to be:
a rule for each way of putting them together. -/

namespace XsServer.Lib

/-- What was done, and the value or why the computation stopped. -/
structure Logged (ε σ α : Type) where
  events : List ε
  result : Except σ α

namespace Logged

variable {ε σ α β : Type}

def log (e : ε) : Logged ε σ Unit := ⟨[e], .ok ()⟩

def stop (s : σ) : Logged ε σ α := ⟨[], .error s⟩

def bind (x : Logged ε σ α) (f : α → Logged ε σ β) : Logged ε σ β :=
  match x.result with
  | .ok a => ⟨x.events ++ (f a).events, (f a).result⟩
  | .error s => ⟨x.events, .error s⟩

instance : Monad (Logged ε σ) where
  pure a := ⟨[], .ok a⟩
  bind := bind

variable {x : Logged ε σ α} {f : α → Logged ε σ β} {a : α} {s late : σ} {fine : ε → Prop}
  {enough : Prop} {P : α → Prop} {Q : β → Prop}

theorem pure_bind (a : α) (f : α → Logged ε σ β) : Pure.pure a >>= f = f a := rfl

theorem bind_of_ok (h : x.result = .ok a) :
    x >>= f = ⟨x.events ++ (f a).events, (f a).result⟩ := by
  change bind x f = _
  rw [bind, h]

theorem bind_of_error (h : x.result = .error s) : x >>= f = ⟨x.events, .error s⟩ := by
  change bind x f = _
  rw [bind, h]

theorem bind_ok {b : β} (h : (x >>= f).result = .ok b) :
    ∃ a, x.result = .ok a ∧ (f a).result = .ok b := by
  cases hx : x.result with
  | error s =>
    rw [bind_of_error hx] at h
    cases h
  | ok a =>
    rw [bind_of_ok hx] at h
    exact ⟨a, rfl, h⟩

/-- Everything that was done is fine. -/
def Clean (fine : ε → Prop) (x : Logged ε σ α) : Prop := ∀ e ∈ x.events, fine e

end Logged

/-- How a computation is to go: to its end, to a stop, or to something that is not fine. -/
inductive Verdict
  | done
  | stopped
  | violated
  deriving DecidableEq

def Verdict.andThen : Verdict → Verdict → Verdict
  | .done, w => w
  | v, _ => v

/-- The computation goes as the verdict says; when there is not `enough` of what bounds it, it may
also stop because it is `late`. -/
inductive Agrees {ε σ α : Type} (fine : ε → Prop) (late : σ) (enough : Prop) (P : α → Prop) :
    Verdict → Logged ε σ α → Prop
  | late {v : Verdict} {x : Logged ε σ α} (h : ¬ enough) (hx : x.result = .error late) :
    Agrees fine late enough P v x
  | done {x : Logged ε σ α} {a : α} (h : x.Clean fine) (hx : x.result = .ok a) (ha : P a) :
    Agrees fine late enough P .done x
  | stopped {x : Logged ε σ α} {s : σ} (h : x.Clean fine) (hx : x.result = .error s)
    (hs : s ≠ late) : Agrees fine late enough P .stopped x
  | violated {x : Logged ε σ α} {e : ε} (he : e ∈ x.events) (h : ¬ fine e) :
    Agrees fine late enough P .violated x

namespace Agrees

variable {ε σ α β : Type} {x : Logged ε σ α} {f : α → Logged ε σ β} {a : α} {e : ε} {s late : σ}
  {fine : ε → Prop} {enough enough' : Prop} {P R : α → Prop} {Q : β → Prop} {v w : Verdict}

theorem mono (h : Agrees fine late enough P v x) (hP : ∀ a, P a → R a)
    (henough : enough' → enough) : Agrees fine late enough' R v x := by
  cases h with
  | late h hx => exact .late (mt henough h) hx
  | done h hx ha => exact .done h hx (hP _ ha)
  | stopped h hx hs => exact .stopped h hx hs
  | violated he h => exact .violated he h

theorem and_result (h : Agrees fine late enough P v x) (hP : ∀ a, x.result = .ok a → R a) :
    Agrees fine late enough (fun a => P a ∧ R a) v x := by
  cases h with
  | late h hx => exact .late h hx
  | done h hx ha => exact .done h hx ⟨ha, hP _ hx⟩
  | stopped h hx hs => exact .stopped h hx hs
  | violated he h => exact .violated he h

/-- One computation and then another one. -/
theorem bind (h : Agrees fine late enough P v x)
    (hf : ∀ a, P a → Agrees fine late enough Q w (f a)) :
    Agrees fine late enough Q (v.andThen w) (x >>= f) := by
  cases h with
  | late h hx =>
    rw [Logged.bind_of_error hx]
    exact .late h rfl
  | stopped h hx hs =>
    rw [Logged.bind_of_error hx]
    exact .stopped h rfl hs
  | violated he h =>
    cases hx : x.result with
    | error s =>
      rw [Logged.bind_of_error hx]
      exact .violated he h
    | ok a =>
      rw [Logged.bind_of_ok hx]
      exact .violated (List.mem_append_left _ he) h
  | @done _ a h hx ha =>
    rw [Logged.bind_of_ok hx]
    have hfa := hf a ha
    generalize f a = y at hfa
    change Agrees _ _ _ _ w _
    cases hfa with
    | late hnot hy => exact .late hnot hy
    | done hy hok hb => exact .done (List.forall_mem_append.mpr ⟨h, hy⟩) hok hb
    | stopped hy herr hs => exact .stopped (List.forall_mem_append.mpr ⟨h, hy⟩) herr hs
    | violated he hbad => exact .violated (List.mem_append_right _ he) hbad

/-- A computation that comes to its end goes on as the next one. -/
theorem next (h : Agrees fine late enough P .done x)
    (hf : ∀ a, P a → Agrees fine late enough Q w (f a)) :
    Agrees fine late enough Q w (x >>= f) :=
  h.bind hf

/-- The next computation only makes something of the value. -/
theorem followed (h : Agrees fine late enough P v x)
    (hf : ∀ a, P a → Agrees fine late enough Q .done (f a)) :
    Agrees fine late enough Q v (x >>= f) := by
  have hbind := h.bind hf
  cases v with
  | done | stopped | violated => exact hbind

/-- What comes behind a computation that does not come to its end does not matter. -/
theorem bind_of_ne (h : Agrees fine late enough P v x) (hv : v ≠ .done) :
    Agrees fine late enough Q v (x >>= f) := by
  have hnone : Agrees fine late enough (fun _ => False) v x := by
    cases h with
    | late h hx => exact .late h hx
    | done => exact absurd rfl hv
    | stopped h hx hs => exact .stopped h hx hs
    | violated he h => exact .violated he h
  exact hnone.followed nofun

theorem pure (ha : P a) : Agrees fine late enough P .done (Pure.pure a : Logged ε σ α) :=
  .done (fun _ he => absurd he List.not_mem_nil) rfl ha

theorem stop (hs : s ≠ late) : Agrees fine late enough P .stopped (Logged.stop s : Logged ε σ α) :=
  .stopped (fun _ he => absurd he List.not_mem_nil) rfl hs

theorem log (he : fine e) :
    Agrees fine late enough (fun _ => True) .done (Logged.log e : Logged ε σ Unit) :=
  .done (List.forall_mem_singleton.mpr he) rfl trivial

theorem log_bad (he : ¬ fine e) {P : Unit → Prop} :
    Agrees fine late enough P .violated (Logged.log e : Logged ε σ Unit) :=
  .violated (List.mem_singleton_self e) he

/-- A computation with bounds that grow ends with everything fine exactly when nothing else is to
happen. -/
theorem safe_iff {run : Nat → Logged ε σ α} {k : Nat}
    (h : ∀ n, Agrees fine late (k ≤ n) P v (run n)) :
    (∃ n, (run n).Clean fine ∧ (run n).result ≠ .error late) ↔ v ≠ .violated := by
  constructor
  · rintro ⟨n, hclean, hend⟩ rfl
    cases h n with
    | late _ hx => exact hend hx
    | violated he hbad => exact hbad (hclean _ he)
  · intro hv
    refine ⟨k, ?_⟩
    cases h k with
    | late hk => exact absurd (Nat.le_refl k) hk
    | done hclean hx =>
      rw [hx]
      exact ⟨hclean, nofun⟩
    | stopped hclean hx hs =>
      rw [hx]
      exact ⟨hclean, fun heq => hs (Except.error.inj heq)⟩
    | violated => exact absurd rfl hv

end Agrees

end XsServer.Lib
