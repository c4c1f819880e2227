import XsServer.Lib.Run
import Mathlib.Algebra.Ring.Int.Defs
import Mathlib.Algebra.Ring.Nat
import Mathlib.Data.List.Basic

/-! The lock of `rwlock.h` between any number of threads that lock and unlock it in pairs.  In a
step one thread calls a function of the lock, or makes one access to `write` or `read`. -/

namespace XsServer.Rwlock

open Lib

/-- `struct rwlock` -/
structure Lock where
  write : Int
  read : Int

inductive Place
  /-- It is outside the lock, and may call `rwlock_rlock` or `rwlock_wlock`. -/
  | outside
  -- `rwlock_rlock`: `while(lock->write)`, the addition, `if (lock->write)`, and the subtraction
  | spinning
  | announcing
  | checking
  | withdrawing
  /-- It is between `rwlock_rlock` and `rwlock_runlock`. -/
  | reading
  -- `rwlock_wlock`: `__sync_lock_test_and_set`, and `while(lock->read)`
  | exchanging
  | draining
  /-- It is between `rwlock_wlock` and `rwlock_wunlock`. -/
  | writing
  deriving DecidableEq

/-- An `int`. -/
def int (n : Int) : Int := n.bmod (2 ^ 32)

/-- A call, or one access: the lock and the place of the thread after it. -/
inductive Act (lock : Lock) : Place → Lock → Place → Prop
  | rlock : Act lock .outside lock .spinning
  | spin (h : lock.write ≠ 0) : Act lock .spinning lock .spinning
  | seen (h : lock.write = 0) : Act lock .spinning lock .announcing
  | announce : Act lock .announcing { lock with read := int (lock.read + 1) } .checking
  | refused (h : lock.write ≠ 0) : Act lock .checking lock .withdrawing
  | checked (h : lock.write = 0) : Act lock .checking lock .reading
  | withdraw : Act lock .withdrawing { lock with read := int (lock.read - 1) } .spinning
  | runlock : Act lock .reading { lock with read := int (lock.read - 1) } .outside
  | wlock : Act lock .outside lock .exchanging
  | raised (h : lock.write ≠ 0) : Act lock .exchanging { lock with write := 1 } .exchanging
  | raise (h : lock.write = 0) : Act lock .exchanging { lock with write := 1 } .draining
  | wait (h : lock.read ≠ 0) : Act lock .draining lock .draining
  | drained (h : lock.read = 0) : Act lock .draining lock .writing
  | wunlock : Act lock .writing { lock with write := 0 } .outside

structure State where
  lock : Lock
  threads : List Place

/-- `rwlock_init`, and `n` threads. -/
def State.init (n : Nat) : State := ⟨⟨0, 0⟩, List.replicate n .outside⟩

/-- One thread acts from its place, with which the step is labelled. -/
def Step (s : State) (place : Place) (t : State) : Prop :=
  ∃ l r place', s.threads = l ++ place :: r ∧ Act s.lock place t.lock place' ∧
    t.threads = l ++ place' :: r

/-- The thread is counted in `read`. -/
def Place.announced : Place → Bool
  | .checking | .withdrawing | .reading => true
  | _ => false

/-- The thread has set `write`. -/
def Place.flagged : Place → Bool
  | .draining | .writing => true
  | _ => false

/-- The thread holds the lock as a reader, or attempts to. -/
def Place.reader : Place → Bool
  | .spinning | .announcing | .checking | .withdrawing | .reading => true
  | _ => false

def State.count (s : State) (p : Place → Bool) : Nat := s.threads.countP p

/-- What the lock is for: no thread writes while another one writes or reads. -/
structure Excludes (s : State) : Prop where
  writers : s.count (· = .writing) ≤ 1
  readers : s.count (· = .writing) = 0 ∨ s.count (· = .reading) = 0
  nonneg : 0 ≤ s.lock.read
  zero : s.count Place.reader = 0 → s.lock.read = 0

/-- No reader announces itself when the counter is full. -/
def Room (s : State) (place : Place) : Prop :=
  place = .announcing → s.count Place.announced < 2 ^ 31 - 1

/-! ### The invariant -/

attribute [irreducible] int

structure Inv (s : State) : Prop where
  write : s.lock.write = s.count Place.flagged ∧ s.count Place.flagged ≤ 1
  read : s.lock.read = s.count Place.announced ∧ s.count Place.announced ≤ 2 ^ 31 - 1
  excluded : s.count (· = .writing) = 0 ∨ s.count (· = .reading) = 0

theorem int_eq {n : Int} (h0 : -2 ^ 31 ≤ n) (h1 : n < 2 ^ 31) : int n = n := by
  rw [int, Int.bmod_eq_of_le] <;> omega

theorem State.count_le {p q : Place → Bool} (h : ∀ x, p x = true → q x = true) (s : State) :
    s.count p ≤ s.count q :=
  List.countP_mono_left fun x _ => h x

theorem reading_announced (x : Place) (hx : decide (x = .reading) = true) :
    x.announced = true := by
  cases of_decide_eq_true hx
  rfl

theorem writing_flagged (x : Place) (hx : decide (x = .writing) = true) : x.flagged = true := by
  cases of_decide_eq_true hx
  rfl

theorem announced_reader (x : Place) (hx : x.announced = true) : x.reader = true := by
  cases x <;> simp_all [Place.announced, Place.reader]

theorem Step.count {s t : State} {place : Place} (h : Step s place t) :
    ∃ place', Act s.lock place t.lock place' ∧ ∀ p : Place → Bool,
      t.count p + (p place).toNat = s.count p + (p place').toNat ∧ (p place).toNat ≤ s.count p := by
  obtain ⟨l, r, place', hs, hact, ht⟩ := h
  refine ⟨place', hact, fun p => ?_⟩
  have hcons : ∀ x, (x :: r).countP p = r.countP p + (p x).toNat := by
    intro x
    cases hx : p x <;> simp [hx]
  simp only [State.count, hs, ht, List.countP_append, hcons]
  omega

theorem Inv.init (n : Nat) : Inv (.init n) := by
  constructor <;> simp [State.init, State.count, List.countP_replicate, Place.flagged,
    Place.announced]

variable {place : Place} {s t : State}

theorem Inv.write_step (h : Inv s) (hstep : Step s place t) :
    t.lock.write = t.count Place.flagged ∧ t.count Place.flagged ≤ 1 := by
  obtain ⟨hw, hw1⟩ := h.write
  obtain ⟨place', hact, hcount⟩ := hstep.count
  obtain ⟨hflag, hle⟩ := hcount Place.flagged
  generalize t.lock = lock' at hact
  cases hact <;> simp only [Place.flagged, Bool.toNat_true, Bool.toNat_false] at hflag hle ⊢ <;>
    omega

theorem Inv.read_step (h : Inv s) (hroom : Room s place)
    (hstep : Step s place t) :
    t.lock.read = t.count Place.announced ∧ t.count Place.announced ≤ 2 ^ 31 - 1 := by
  obtain ⟨hr, hr1⟩ := h.read
  obtain ⟨place', hact, hcount⟩ := hstep.count
  obtain ⟨hann, hle⟩ := hcount Place.announced
  generalize t.lock = lock' at hact
  cases hact
  case announce =>
    have hlt := hroom rfl
    simp only [Place.announced, Bool.toNat_true, Bool.toNat_false] at hann ⊢
    rw [int_eq] <;> omega
  case withdraw | runlock =>
    simp only [Place.announced, Bool.toNat_true, Bool.toNat_false] at hann hle ⊢
    rw [int_eq] <;> omega
  all_goals
    simp only [Place.announced, Bool.toNat_true, Bool.toNat_false] at hann ⊢
    omega

/-- While a thread writes, `write` is set, so no thread begins to read; and a thread begins to write
when no other one has announced itself. -/
theorem Inv.excluded_step (h : Inv s) (hstep : Step s place t) :
    t.count (· = .writing) = 0 ∨ t.count (· = .reading) = 0 := by
  obtain ⟨⟨hw, hw1⟩, ⟨hr, hr1⟩, hx⟩ := h
  obtain ⟨place', hact, hcount⟩ := hstep.count
  have hflag := s.count_le writing_flagged
  have hann := s.count_le reading_announced
  obtain ⟨hwr, hwle⟩ := hcount (· = .writing)
  obtain ⟨hrd, hrle⟩ := hcount (· = .reading)
  generalize t.lock = lock' at hact
  cases hact <;> simp at hwr hrd hwle hrle <;> omega

theorem Inv.step {s t : State} {place : Place} (h : Inv s)
    (hstep : Guarded Room Step s place t) : Inv t :=
  ⟨h.write_step hstep.2, h.read_step hstep.1 hstep.2, h.excluded_step hstep.2⟩

theorem Inv.excludes {s : State} (h : Inv s) : Excludes s := by
  obtain ⟨⟨hw, hw1⟩, ⟨hr, hr1⟩, hx⟩ := h
  have hflag := s.count_le writing_flagged
  have hann := s.count_le announced_reader
  exact ⟨by omega, hx, by omega, by omega⟩

theorem Step.length (h : Step s place t) :
    t.threads.length = s.threads.length := by
  obtain ⟨l, r, place', hs, -, ht⟩ := h
  simp [hs, ht]

theorem room_of_length (h : Step s place t)
    (hlt : s.threads.length < 2 ^ 31) : Room s place := by
  rintro rfl
  obtain ⟨l, r, place', hs, -, -⟩ := h
  have hl := l.countP_le_length (p := Place.announced)
  have hr := r.countP_le_length (p := Place.announced)
  simp only [hs, List.length_append, List.length_cons] at hlt
  simp only [State.count, hs, List.countP_append, List.countP_cons, Place.announced,
    Bool.false_eq_true, if_false]
  omega

theorem guarded_of_length {n : Nat} {es : List Place} {s : State} (h : Run Step (.init n) es s)
    (hn : n < 2 ^ 31) : Run (Guarded Room Step) (.init n) es s ∧ s.threads.length = n := by
  induction h with
  | nil => exact ⟨.nil _, List.length_replicate⟩
  | snoc _ hstep ih =>
    obtain ⟨hrun, hlen⟩ := ih
    exact ⟨hrun.snoc ⟨room_of_length hstep (by omega), hstep⟩, hstep.length.trans hlen⟩

/-- Some steps of `n` threads lead to the state. -/
def Reached (n : Nat) (s : State) : Prop := ∃ es, Run Step (.init n) es s

theorem Reached.act {n : Nat} {lock lock' : Lock} {l r : List Place} {place place' : Place}
    (h : Reached n ⟨lock, l ++ place :: r⟩) (hact : Act lock place lock' place') :
    Reached n ⟨lock', l ++ place' :: r⟩ := by
  obtain ⟨es, hrun⟩ := h
  exact ⟨_, hrun.snoc ⟨l, r, place', rfl, hact, rfl⟩⟩

/-- The lock excludes whenever no reader announces itself while `2^31 - 1` threads have, and so for
every number of threads below `2^31`. -/
theorem rwlock_excludes (n : Nat) (es : List Place) (s : State) :
    (Run (Guarded Room Step) (.init n) es s → Excludes s) ∧
      (n < 2 ^ 31 → Run Step (.init n) es s → Excludes s) := by
  have hguarded : Run (Guarded Room Step) (.init n) es s → Excludes s := by
    intro h
    exact (h.invariant (Inv.init n) fun _ _ _ => Inv.step).excludes
  exact ⟨hguarded, fun hn h => hguarded (guarded_of_length h hn).1⟩

/-- One thread reads, and another one waits for it to write. -/
theorem rwlock_excludes_two : Excludes ⟨⟨1, 1⟩, [.reading, .draining]⟩ := by
  have h : Reached 2 ⟨⟨0, 0⟩, [] ++ .outside :: [.outside]⟩ := ⟨[], .nil _⟩
  have hreader := (((h.act .rlock).act (.seen rfl)).act .announce).act (.checked rfl)
  rw [int_eq (by decide) (by decide)] at hreader
  have hwriter := (Reached.act (l := [.reading]) hreader .wlock).act (.raise rfl)
  obtain ⟨es, hrun⟩ := hwriter
  exact (rwlock_excludes 2 es _).2 (by decide) hrun

theorem int_add (n m : Int) : int (int n + m) = int (n + m) := by
  simp only [int, Int.bmod_add_bmod]

theorem readers_reached (n k : Nat) (hk : k ≤ n) : Reached n
    ⟨⟨0, int k⟩, List.replicate k .reading ++ List.replicate (n - k) .outside⟩ := by
  induction k with
  | zero =>
    rw [show int (0 : Nat) = 0 from int_eq (by decide) (by decide)]
    exact ⟨[], .nil _⟩
  | succ k ih =>
    have hsplit : n - k = n - (k + 1) + 1 := by omega
    have h := ih (by omega)
    rw [hsplit, List.replicate_succ] at h
    have hread := (((h.act .rlock).act (.seen rfl)).act .announce).act (.checked rfl)
    rw [int_add] at hread
    rwa [List.replicate_succ', List.append_assoc]

theorem negative_reached (n : Nat) (hint : int n < 0) : ∃ s, Reached n s ∧ s.lock.read < 0 :=
  ⟨_, readers_reached n n (Nat.le_refl n), hint⟩

theorem writer_reached (n k : Nat) (hk : k < n) (hint : int k = 0) :
    ∃ s, Reached n s ∧ s.count (· = .writing) = 1 ∧ s.count (· = .reading) = k := by
  have h := readers_reached n k (by omega)
  have hsplit : n - k = n - (k + 1) + 1 := by omega
  rw [hsplit, List.replicate_succ] at h
  have hwrite := ((h.act .wlock).act (.raise rfl)).act (.drained hint)
  refine ⟨_, hwrite, ?_, ?_⟩ <;> simp [State.count, List.countP_replicate]

/-- With `2^31` readers `read` is negative; with `2^32` of them it is 0, and a writer gets the
lock. -/
theorem readers_overflow :
    (∃ s, Reached (2 ^ 31) s ∧ s.lock.read < 0) ∧
      ∃ s, Reached (2 ^ 32 + 1) s ∧ s.count (· = .writing) = 1 ∧
        s.count (· = .reading) = 2 ^ 32 :=
  ⟨negative_reached _ (by decide +kernel),
    writer_reached _ _ (Nat.lt_succ_self _) (by decide +kernel)⟩

end XsServer.Rwlock
