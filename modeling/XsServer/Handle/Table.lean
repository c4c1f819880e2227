import XsServer.Handle.Register
import XsServer.Lib.Run

/-! The handle table as a finite map, when the field `handle` of a context is set together with its
registration.  A registration in a table with a hole reads the handle of a null context; every
other one registers its context, or finds all handles in use. -/

namespace XsServer.Handle

open Lib

variable {κ : Type*}

/-- The table and the field `handle` of the contexts. -/
structure World (κ : Type*) where
  storage : HandleStorage κ
  handle : κ → Nat

inductive Op (κ : Type*)
  | register (ctx : κ)
  | retire (handle : Nat)

/-- A registration stores the handle in the context; a retirement does not change the context. -/
def World.step [DecidableEq κ] (w : World κ) : Op κ → Except Fault (World κ)
  | .register ctx =>
    (skynetHandleRegister w.handle ctx w.storage).map fun r =>
      ⟨r.2, Function.update w.handle ctx r.1⟩
  | .retire handle => .ok { w with storage := (skynetHandleRetire w.handle handle w.storage).2 }

/-- A context is registered only while it is not in the table. -/
def Op.Fresh (w : World κ) : Op κ → Prop
  | .register ctx => some ctx ∉ w.storage.slot
  | .retire _ => True

def Step [DecidableEq κ] (w : World κ) (op : Op κ) (w' : World κ) : Prop :=
  op.Fresh w ∧ w.step op = .ok w'

/-- The table is the map from the handles of the live contexts to these contexts. -/
structure World.IsMap (w : World κ) : Prop where
  slot : ∀ ctx, some ctx ∈ w.storage.slot → ∀ i,
    slotAt w.storage.slot i = some ctx ↔ i = w.handle ctx &&& (w.storage.slotSize - 1)
  distinct : ∀ a b, some a ∈ w.storage.slot → some b ∈ w.storage.slot →
    w.handle a = w.handle b → a = b
  low : ∀ ctx, some ctx ∈ w.storage.slot → w.handle ctx &&& HANDLE_MASK ≠ 0
  grab : ∀ handle ctx, skynetHandleGrab w.handle handle w.storage = some ctx ↔
    some ctx ∈ w.storage.slot ∧ w.handle ctx = handle

/-- A registration in the table returns a handle, doubling the table only when it is full, or finds
that the table cannot be doubled any more. -/
def World.RegisterSafe (w : World κ) (ctx : κ) : Prop :=
  (∃ handle s', skynetHandleRegister w.handle ctx w.storage = .ok (handle, s') ∧
    (s'.slotSize ≠ w.storage.slotSize → Full w.storage)) ∨
  skynetHandleRegister w.handle ctx w.storage = .error .tableFull ∧
    HANDLE_MASK < w.storage.slotSize * 2 - 1

theorem placed_init (harbor : Nat) (handle : κ → Nat) :
    Placed (skynetHandleInit harbor : HandleStorage κ) handle := by
  constructor
  · intro i ctx h
    rw [show (skynetHandleInit harbor : HandleStorage κ).slot =
      List.replicate DEFAULT_SLOT_SIZE none from rfl, slotAt_replicate] at h
    cases h
  · intro ctx h
    cases List.eq_of_mem_replicate h

theorem placed_step [DecidableEq κ] {w w' : World κ} {op : Op κ}
    (hp : Placed w.storage w.handle) (hstep : Step w op w') : Placed w'.storage w'.handle := by
  obtain ⟨hfresh, hok⟩ := hstep
  cases op with
  | register ctx =>
    cases hreg : skynetHandleRegister w.handle ctx w.storage with
    | error e =>
      simp only [World.step, hreg, Except.map] at hok
      cases hok
    | ok r =>
      simp only [World.step, hreg, Except.map] at hok
      cases hok
      exact hp.register hfresh (register_ok ctx hp (fun _ _ _ => rfl) hreg)
  | retire handle =>
    cases hok
    rcases retire_cases w.handle handle w.storage with ⟨ctx, hr, -, -⟩ | ⟨hr, -⟩
    · rw [hr]
      exact hp.clear handle
    · rwa [hr]

theorem isMap_of_placed {w : World κ} (hp : Placed w.storage w.handle) : w.IsMap := by
  have hslot : ∀ ctx i, slotAt w.storage.slot i = some ctx ↔
      some ctx ∈ w.storage.slot ∧ hash w.storage.slotSize (w.handle ctx) = i :=
    fun ctx i => hp.slotAt_iff i ctx
  refine ⟨?_, ?_, ?_, ?_⟩
  · intro ctx hmem i
    rw [hslot, and_iff_right hmem, eq_comm]
    rfl
  · intro a b ha hb heq
    have h1 := hp.slotAt_hash ha
    have h2 := hp.slotAt_hash hb
    rw [heq, h2] at h1
    cases h1
    rfl
  · intro ctx hmem
    obtain ⟨low, hpos, hle, heq⟩ := hp.form hmem
    have hmask : w.handle ctx &&& HANDLE_MASK = low := by
      rw [heq, show HANDLE_MASK = 2 ^ HANDLE_REMOTE_SHIFT - 1 from rfl,
        Nat.and_two_pow_sub_one_eq_mod]
      exact or_harbor_low w.storage hle
    omega
  · intro handle ctx
    rw [grab_eq_some, hslot]
    constructor
    · rintro ⟨⟨hmem, -⟩, hh⟩
      exact ⟨hmem, hh⟩
    · rintro ⟨hmem, rfl⟩
      exact ⟨⟨hmem, rfl⟩, rfl⟩

theorem registerSafe_iff {w : World κ} (hp : Placed w.storage w.handle) (ctx : κ) :
    w.RegisterSafe ctx ↔ ¬ Hole w.storage := by
  constructor
  · rintro (⟨handle, s', hok, -⟩ | ⟨herr, -⟩) hhole
    · rw [register_hole w.handle ctx hhole] at hok
      cases hok
    · rw [register_hole w.handle ctx hhole] at herr
      cases herr
  · intro hhole
    rcases register_outcome ctx hp (fun _ _ _ => rfl) hhole with ⟨handle, s', hs', hr⟩ | he
    · refine Or.inl ⟨handle, s', hs', fun hne => ?_⟩
      rcases hr.size with hsame | ⟨hfull, -⟩
      · exact absurd hsame hne
      · exact hfull
    · exact Or.inr he

/-- In every state that registrations and retirements reach, the table is a map, and the next
registration is safe exactly when the table has no hole. -/
theorem handle_table_is_map [DecidableEq κ] (harbor : Nat) (handle : κ → Nat) (ops : List (Op κ))
    (w : World κ) (hrun : Run Step ⟨skynetHandleInit harbor, handle⟩ ops w) :
    w.IsMap ∧ ∀ ctx, some ctx ∉ w.storage.slot → (w.RegisterSafe ctx ↔ ¬ Hole w.storage) := by
  have hp : Placed w.storage w.handle :=
    hrun.invariant (placed_init harbor handle) fun _ _ _ h hs => placed_step h hs
  exact ⟨isMap_of_placed hp, fun ctx _ => registerSafe_iff hp ctx⟩

theorem handle_table_is_map_five : ∃ w : World Nat, Run Step ⟨skynetHandleInit 1, fun _ => 0⟩
      [.register 7, .register 8, .register 9, .register 10, .register 11, .retire 0x1000002] w ∧
    w.storage.slotSize = 8 ∧ skynetHandleGrab w.handle 0x1000005 w.storage = some 11 ∧
    skynetHandleGrab w.handle 0x1000002 w.storage = none ∧ w.IsMap := by
  have hrun : ∃ w : World Nat, Run Step ⟨skynetHandleInit 1, fun _ => 0⟩
        [.register 7, .register 8, .register 9, .register 10, .register 11, .retire 0x1000002] w ∧
      w.storage.slot = [none, some 7, none, some 9, some 10, some 11, none, none] ∧
      w.handle 11 = 0x1000005 := by
    refine ⟨_, Run.cons (t := _) ⟨?_, rfl⟩ (Run.cons ⟨?_, rfl⟩ (Run.cons ⟨?_, rfl⟩
      (Run.cons ⟨?_, rfl⟩ (Run.cons ⟨?_, rfl⟩ (Run.single ⟨trivial, rfl⟩))))), rfl, rfl⟩
    · show some 7 ∉ List.replicate 4 (none : Option Nat)
      decide
    · show some 8 ∉ [none, some 7, none, none]
      decide
    · show some 9 ∉ [none, some 7, some 8, none]
      decide
    · show some 10 ∉ [none, some 7, some 8, some 9]
      decide
    · show some 11 ∉ [some 10, some 7, some 8, some 9]
      decide
  obtain ⟨w, hrun, hslot, hhandle⟩ := hrun
  have hmap := (handle_table_is_map 1 (fun _ => 0) _ w hrun).1
  have hsize : w.storage.slotSize = 8 := by
    rw [HandleStorage.slotSize, hslot]
    rfl
  refine ⟨w, hrun, hsize, (hmap.grab _ _).mpr ⟨?_, hhandle⟩, ?_, hmap⟩
  · rw [hslot]
    decide
  · rw [skynetHandleGrab, hsize, hslot]
    rfl

/-- Contexts 1, 2 and 3 in the slots of handles 1, 2 and 3, after the registration and retirement of
another context under the handle `4 * k`. -/
def holeStorage (k : Nat) (hk : 4 * k ≤ HANDLE_MASK) : HandleStorage Nat where
  harbor := 0
  handleIndex := 4 * k + 1
  slot := [none, some 1, some 2, some 3]
  name := []
  harbor_form := ⟨0, by decide, rfl⟩
  index_pos := Nat.succ_pos _
  index_le := Nat.succ_le_succ hk
  size_form := ⟨2, by decide, by decide, rfl⟩

def holeWorld (k : Nat) (hk : 4 * k ≤ HANDLE_MASK) : World Nat :=
  ⟨holeStorage k hk, Function.update
    (Function.update (Function.update (Function.update (fun _ => 0) 1 1) 2 2) 3 3) 0 (4 * k)⟩

theorem hole_start : Run Step (⟨skynetHandleInit 0, fun _ => 0⟩ : World Nat)
    [.register 1, .register 2, .register 3, .register 0, .retire 4] (holeWorld 1 (by decide)) := by
  refine Run.cons (t := _) ⟨?_, rfl⟩ (Run.cons ⟨?_, rfl⟩ (Run.cons ⟨?_, rfl⟩
    (Run.cons ⟨?_, rfl⟩ (Run.single ⟨trivial, rfl⟩))))
  · show some 1 ∉ List.replicate 4 (none : Option Nat)
    decide
  · show some 2 ∉ [none, some 1, none, none]
    decide
  · show some 3 ∉ [none, some 1, some 2, none]
    decide
  · show some 0 ∉ [none, some 1, some 2, some 3]
    decide

theorem hole_probe (k : Nat) (hk : 4 * (k + 1) ≤ HANDLE_MASK) :
    probe (holeStorage k (by omega)).slot 4 (4 * k + 1) = some (4 * k + 4) := by
  have hwrap : ∀ i, i ≤ 4 → wrapHandle (4 * k + i) = 4 * k + i := fun i hi => if_neg (by omega)
  have hhash : ∀ i, hash 4 (4 * k + i) = i % 4 := fun i => by
    rw [show (4 : Nat) = 2 ^ 2 from rfl, hash_two_pow]
    omega
  simp [probe, holeStorage, hwrap, hhash, slotAt, Nat.add_assoc]

theorem hole_cycle (k : Nat) (hk : 4 * (k + 1) ≤ HANDLE_MASK) :
    Run Step (holeWorld k (by omega)) [.register 0, .retire (4 * (k + 1))]
      (holeWorld (k + 1) hk) := by
  have hzero : hash 4 (4 * k + 4) = 0 := by
    rw [show (4 : Nat) = 2 ^ 2 from rfl, hash_two_pow]
    omega
  have hreg := @registerLoop_some _ (holeWorld k (by omega)).handle 0 1 _
    (holeStorage k (by omega)) (hole_probe k hk)
  have hslot : (place (holeStorage k (by omega)) 0 (4 * k + 4) hk).slot =
      [some 0, some 1, some 2, some 3] := by
    show List.set _ (hash 4 (4 * k + 4)) _ = _
    rw [hzero]
    rfl
  refine Run.cons ⟨by show some 0 ∉ [none, some 1, some 2, some 3]; decide,
    congrArg (Except.map _) hreg⟩ (Run.single ⟨trivial, ?_⟩)
  have hret : (skynetHandleRetire (holeWorld (k + 1) hk).handle (4 * (k + 1))
      (place (holeStorage k (by omega)) 0 (4 * k + 4) hk)).2 = holeStorage (k + 1) hk := by
    have hsize : (place (holeStorage k (by omega)) 0 (4 * k + 4) hk).slotSize = 4 := by
      rw [HandleStorage.slotSize, hslot]
      rfl
    have hat : slotAt (place (holeStorage k (by omega)) 0 (4 * k + 4) hk).slot
        (hash (place (holeStorage k (by omega)) 0 (4 * k + 4) hk).slotSize (4 * (k + 1))) =
        some 0 := by
      rw [hsize, hslot, Nat.mul_succ, hzero]
      rfl
    simp only [skynetHandleRetire, hat]
    rw [if_pos (by simp [holeWorld])]
    refine HandleStorage.ext rfl rfl ?_ rfl
    simp only [clear, hsize, hslot, Nat.mul_succ, hzero]
    rfl
  have hhandle : Function.update (holeWorld k (by omega)).handle 0 (4 * k + 4) =
      (holeWorld (k + 1) hk).handle := Function.update_idem _ _ _
  simp only [World.step, holeStorage, Nat.or_zero] at *
  rw [hhandle]
  exact congrArg Except.ok (congrArg (World.mk · _) hret)

/-- After enough registrations and retirements, the next registration reads a null context. -/
theorem register_null_at_wrap : ∃ (ops : List (Op Nat)) (w : World Nat),
    Run Step ⟨skynetHandleInit 0, fun _ => 0⟩ ops w ∧ some 0 ∉ w.storage.slot ∧
      skynetHandleRegister w.handle 0 w.storage = .error .nullContext := by
  have hcycles : ∀ n, ∀ hn : 4 * (n + 1) ≤ HANDLE_MASK, ∃ ops,
      Run Step (⟨skynetHandleInit 0, fun _ => 0⟩ : World Nat) ops (holeWorld (n + 1) hn) := by
    intro n
    induction n with
    | zero => exact fun _ => ⟨_, hole_start⟩
    | succ n ih =>
      intro hn
      obtain ⟨ops, hrun⟩ := ih (by omega)
      exact ⟨_, hrun.trans (hole_cycle (n + 1) hn)⟩
  obtain ⟨ops, hrun⟩ := hcycles (0x3ffffe) (by decide)
  exact ⟨ops, _, hrun, by decide, rfl⟩

end XsServer.Handle
