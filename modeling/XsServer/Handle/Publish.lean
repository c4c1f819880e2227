import XsServer.Handle.Register
import XsServer.Lib.Run

/-! Concurrent creation of contexts.  `skynet_context_new` stores the handle in the context after
`skynet_handle_register` has returned and released its lock, so another registration may double
the table in between.  It then moves the context by the handle 0 that it still reads. -/

namespace XsServer.Handle

open Lib

variable {κ : Type*}

/-- The table, the field `handle` of the contexts, the handle that the registration of a context
returned to its thread, whether the thread has stored it in the field, and whether the context has
been retired. -/
structure Node (κ : Type*) where
  storage : HandleStorage κ
  handle : κ → Nat
  returned : κ → Option Nat
  stored : κ → Bool
  retired : κ → Bool

def Node.init (harbor : Nat) : Node κ :=
  ⟨skynetHandleInit harbor, fun _ => 0, fun _ => none, fun _ => false, fun _ => false⟩

/-- The steps of the threads: the lock sections of the table, and the store that follows a
registration. -/
inductive Action (κ : Type*)
  | register (ctx : κ)
  | store (ctx : κ)
  | retire (handle : Nat)
  | grab (handle : Nat)

/-- `ctx->handle = 0` and the registration that returned `handle`. -/
def Node.registered [DecidableEq κ] (w : Node κ) (ctx : κ) (handle : Nat) (s : HandleStorage κ) :
    Node κ :=
  { w with
    storage := s
    handle := Function.update w.handle ctx 0
    returned := Function.update w.returned ctx (some handle) }

/-- `ctx->handle = handle` -/
def Node.withHandle [DecidableEq κ] (w : Node κ) (ctx : κ) (handle : Nat) : Node κ :=
  { w with
    handle := Function.update w.handle ctx handle
    stored := Function.update w.stored ctx true }

inductive Node.Step [DecidableEq κ] : Node κ → Action κ → Node κ → Prop
  | register {w : Node κ} {ctx : κ} {handle : Nat} {s : HandleStorage κ} :
      w.returned ctx = none →
      skynetHandleRegister (Function.update w.handle ctx 0) ctx w.storage = .ok (handle, s) →
      Step w (.register ctx) (w.registered ctx handle s)
  | store {w : Node κ} {ctx : κ} {handle : Nat} :
      w.returned ctx = some handle → w.stored ctx = false →
      Step w (.store ctx) (w.withHandle ctx handle)
  | retire {w : Node κ} {handle : Nat} {ctx : κ} {s : HandleStorage κ} :
      skynetHandleRetire w.handle handle w.storage = (some ctx, s) →
      Step w (.retire handle)
        { w with storage := s, retired := Function.update w.retired ctx true }
  | retireNone {w : Node κ} {handle : Nat} {s : HandleStorage κ} :
      skynetHandleRetire w.handle handle w.storage = (none, s) →
      Step w (.retire handle) { w with storage := s }
  | grab {w : Node κ} {handle : Nat} : Step w (.grab handle) w

/-- A context that is in the table but does not hold its handle yet. -/
def Node.Pending (w : Node κ) (ctx : κ) (handle : Nat) : Prop :=
  w.returned ctx = some handle ∧ w.stored ctx = false ∧ w.retired ctx = false

/-- A registration that doubles the table finds no pending context, except for one whose handle
shares slot 0 of the doubled table with the handle 0. -/
def Action.Settled (w : Node κ) : Action κ → Prop
  | .register _ => Full w.storage → ∀ ctx handle, w.Pending ctx handle →
      handle &&& (w.storage.slotSize * 2 - 1) = 0
  | _ => True

/-- Every context that holds its handle is found under it, and every context that has been
registered and not retired has a slot of its own. -/
structure Node.Addressable (w : Node κ) : Prop where
  grab : ∀ ctx, w.stored ctx = true → w.retired ctx = false →
    skynetHandleGrab w.handle (w.handle ctx) w.storage = some ctx
  slot : ∀ ctx, w.returned ctx ≠ none → w.retired ctx = false →
    ∃! i, slotAt w.storage.slot i = some ctx

def Node.assigned (w : Node κ) (ctx : κ) : Nat := (w.returned ctx).getD 0

/-- Every context of the table is in the slot of the handle its thread was given, whether or not the
thread has stored it. -/
structure Node.Inv (w : Node κ) : Prop where
  placed : Placed w.storage w.assigned
  mem : ∀ ctx, some ctx ∈ w.storage.slot ↔ w.returned ctx ≠ none ∧ w.retired ctx = false
  returned : ∀ ctx, w.stored ctx = true → w.returned ctx ≠ none
  fresh : ∀ ctx, w.returned ctx = none → w.retired ctx = false
  field : ∀ ctx, w.returned ctx ≠ none →
    w.handle ctx = if w.stored ctx then w.assigned ctx else 0

theorem Node.inv_init (harbor : Nat) : (Node.init harbor : Node κ).Inv := by
  have hslot : (Node.init harbor : Node κ).storage.slot = List.replicate DEFAULT_SLOT_SIZE none :=
    rfl
  refine ⟨⟨?_, ?_⟩, ?_, ?_, fun _ _ => rfl, ?_⟩
  · intro i ctx h
    rw [hslot, slotAt_replicate] at h
    cases h
  · intro ctx h
    rw [hslot] at h
    cases List.eq_of_mem_replicate h
  · intro ctx
    constructor
    · intro h
      rw [hslot] at h
      cases List.eq_of_mem_replicate h
    · rintro ⟨h, -⟩
      exact absurd rfl h
  · intro ctx h
    cases h
  · intro ctx h
    exact absurd rfl h

theorem Node.Inv.register [DecidableEq κ] {w : Node κ} {ctx : κ} {handle : Nat}
    {s : HandleStorage κ} (hi : w.Inv) (hset : (Action.register ctx).Settled w)
    (hnew : w.returned ctx = none)
    (hreg : skynetHandleRegister (Function.update w.handle ctx 0) ctx w.storage = .ok (handle, s)) :
    (w.registered ctx handle s).Inv := by
  have hnotin : some ctx ∉ w.storage.slot := fun h => ((hi.mem ctx).mp h).1 hnew
  have hne : ∀ {c}, some c ∈ w.storage.slot → c ≠ ctx := by
    rintro c hc rfl
    exact hnotin hc
  -- a pending context is moved by the handle 0, which the condition allows
  have hread : Full w.storage → ∀ c, some c ∈ w.storage.slot →
      hash (w.storage.slotSize * 2) (Function.update w.handle ctx 0 c) =
        hash (w.storage.slotSize * 2) (w.assigned c) := by
    intro hfull c hc
    obtain ⟨hret, hlive⟩ := (hi.mem c).mp hc
    rw [Function.update_of_ne (hne hc), hi.field c hret]
    cases hst : w.stored c with
    | true => rfl
    | false =>
      obtain ⟨h, hh⟩ := Option.ne_none_iff_exists'.mp hret
      have hzero := hset hfull c h ⟨hh, hst, hlive⟩
      simpa [hash, Node.assigned, hh] using hzero.symm
  have hr := register_ok ctx hi.placed hread hreg
  have hassigned : (w.registered ctx handle s).assigned =
      Function.update w.assigned ctx handle := by
    funext c
    by_cases hc : c = ctx
    · subst hc
      simp [Node.assigned, Node.registered]
    · simp [Node.assigned, Node.registered, hc]
  refine ⟨by rw [hassigned]; exact hi.placed.register hnotin hr, ?_, ?_, ?_, ?_⟩
  · intro c
    simp only [Node.registered, hr.mem_iff, hi.mem]
    by_cases hc : c = ctx
    · subst hc
      simp [hi.fresh c hnew]
    · simp [hc]
  · intro c hst
    by_cases hc : c = ctx
    · subst hc
      simp [Node.registered]
    · simpa [Node.registered, hc] using hi.returned c hst
  · intro c hret
    by_cases hc : c = ctx
    · subst hc
      simp [Node.registered] at hret
    · exact hi.fresh c (by simpa [Node.registered, hc] using hret)
  · intro c hret
    rw [hassigned]
    by_cases hc : c = ctx
    · subst hc
      have hst : w.stored c = false := by
        by_contra h
        exact hi.returned c (by simpa using h) hnew
      simp [Node.registered, hst]
    · simpa [Node.registered, hc] using hi.field c (by simpa [Node.registered, hc] using hret)

theorem Node.Inv.store [DecidableEq κ] {w : Node κ} {ctx : κ} {handle : Nat} (hi : w.Inv)
    (hret : w.returned ctx = some handle) : (w.withHandle ctx handle).Inv := by
  have hassigned : (w.withHandle ctx handle).assigned = w.assigned := rfl
  refine ⟨hi.placed, hi.mem, ?_, hi.fresh, ?_⟩
  · intro c hst
    by_cases hc : c = ctx
    · subst hc
      simp [Node.withHandle, hret]
    · exact hi.returned c (by simpa [Node.withHandle, hc] using hst)
  · intro c hc'
    rw [hassigned]
    by_cases hc : c = ctx
    · subst hc
      simp [Node.withHandle, Node.assigned, hret]
    · simpa [Node.withHandle, hc] using hi.field c hc'

theorem Node.Inv.retire [DecidableEq κ] {w : Node κ} {handle : Nat} {ctx : κ} (hi : w.Inv)
    (hctx : slotAt w.storage.slot (hash w.storage.slotSize handle) = some ctx) :
    Node.Inv { w with
      storage := clear w.storage handle
      retired := Function.update w.retired ctx true } := by
  have hmem := (hi.mem ctx).mp (mem_iff_slotAt.mpr ⟨_, hctx⟩)
  refine ⟨hi.placed.clear handle, ?_, hi.returned, ?_, hi.field⟩
  · intro c
    simp only [hi.placed.mem_clear hctx, hi.mem]
    by_cases hc : c = ctx
    · subst hc
      simp
    · simp [hc]
  · intro c hret
    by_cases hc : c = ctx
    · subst hc
      exact absurd hret hmem.1
    · simpa [hc] using hi.fresh c hret

theorem Node.inv_step [DecidableEq κ] {w w' : Node κ} {a : Action κ} (hi : w.Inv)
    (hstep : Guarded Action.Settled Node.Step w a w') : w'.Inv := by
  obtain ⟨hset, hstep⟩ := hstep
  cases hstep with
  | register hnew hreg => exact hi.register hset hnew hreg
  | store hret _ => exact hi.store hret
  | @retire handle ctx s h =>
    rcases retire_cases w.handle handle w.storage with ⟨c, hr, hslot, -⟩ | ⟨hr, -⟩
    · cases hr.symm.trans h
      exact hi.retire hslot
    · cases hr.symm.trans h
  | @retireNone handle s h =>
    rcases retire_cases w.handle handle w.storage with ⟨c, hr, -, -⟩ | ⟨hr, -⟩
    · cases hr.symm.trans h
    · cases hr.symm.trans h
      exact hi
  | grab => exact hi

theorem Node.Inv.addressable {w : Node κ} (hi : w.Inv) : w.Addressable := by
  constructor
  · intro ctx hst hlive
    have hret := hi.returned ctx hst
    have hfield := hi.field ctx hret
    rw [hst, if_pos rfl] at hfield
    have hat := hi.placed.slotAt_hash ((hi.mem ctx).mpr ⟨hret, hlive⟩)
    rw [← hfield] at hat
    exact grab_eq_some.mpr ⟨hat, rfl⟩
  · intro ctx hret hlive
    refine ⟨_, hi.placed.slotAt_hash ((hi.mem ctx).mpr ⟨hret, hlive⟩), ?_⟩
    intro i hat
    exact (hi.placed.slot_of hat).symm

/-- As long as the table is not doubled while a context is pending, every context is found under its
handle from its store on. -/
theorem creation_addressable [DecidableEq κ] (harbor : Nat) (actions : List (Action κ))
    (w : Node κ) (hrun : Run (Guarded Action.Settled Node.Step) (Node.init harbor) actions w) :
    w.Addressable :=
  (hrun.invariant (Node.inv_init harbor) fun _ _ _ hi hs => Node.inv_step hi hs).addressable

theorem creation_addressable_two : ∃ w : Node Nat,
    Run (Guarded Action.Settled Node.Step) (Node.init 0) [.register 5, .register 6, .store 5] w ∧
      w.Addressable := by
  have hfree : ∀ {w : Node Nat} {ctx : Nat}, slotAt w.storage.slot 0 = none →
      (Action.register ctx).Settled w := by
    intro w ctx h hfull
    exact absurd h (hfull 0 (by have := w.storage.size_two_le; omega))
  obtain ⟨w, hrun⟩ : ∃ w, Run (Guarded Action.Settled Node.Step) (Node.init 0 : Node Nat)
      [.register 5, .register 6, .store 5] w :=
    ⟨_, Run.cons ⟨hfree rfl, .register rfl rfl⟩ (Run.cons ⟨hfree rfl, .register rfl rfl⟩
      (Run.single ⟨trivial, .store rfl rfl⟩))⟩
  exact ⟨w, hrun, creation_addressable 0 _ w hrun⟩

/-- Contexts 1 to 3 are registered and hold their handles; 4 is registered, 5 is registered and
doubles the table, and then 4 stores its handle: it sits in slot 0 and is not found. -/
theorem creation_lost : ∃ w : Node Nat,
    Run Node.Step (Node.init 0) [.register 1, .store 1, .register 2, .store 2, .register 3,
      .store 3, .register 4, .register 5, .store 4] w ∧
      w.stored 4 = true ∧ w.retired 4 = false ∧
      skynetHandleGrab w.handle (w.handle 4) w.storage = none := by
  refine ⟨_, Run.cons (.register rfl rfl) (Run.cons (.store rfl rfl) (Run.cons (.register rfl rfl)
    (Run.cons (.store rfl rfl) (Run.cons (.register rfl rfl) (Run.cons (.store rfl rfl)
    (Run.cons (.register rfl rfl) (Run.cons (.register rfl rfl)
    (Run.single (.store rfl rfl))))))))), rfl, rfl, rfl⟩

end XsServer.Handle
