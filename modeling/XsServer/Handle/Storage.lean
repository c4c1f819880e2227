import Mathlib.Data.Nat.Bitwise
import Mathlib.Tactic.Ring
import Mathlib.Data.List.Count

/-! The handle table, `struct handle_storage` of `skynet_handle.c`: the slots of the contexts, with
the registration, retirement and lookup of a handle.  Contexts are of any type `κ`; the function
`handleOf` reads their field `handle`, as `skynet_context_handle` does.

A round of probes of `skynet_handle_register` that finds no slot has seen every slot, except slot 0
where the handles wrap during the round; and doubling a full table moves every context to the slot
of its handle. -/

namespace XsServer.Handle

def HANDLE_MASK : Nat := 0xffffff
def HANDLE_REMOTE_SHIFT : Nat := 24
def DEFAULT_SLOT_SIZE : Nat := 4

variable {κ : Type*}

/-- How `skynet_handle_register` stops the process. -/
inductive Fault
  /-- `assert((s->slot_size*2 - 1) <= HANDLE_MASK)` -/
  | tableFull
  /-- `skynet_context_handle(s->slot[i])` where `s->slot[i]` is `NULL` -/
  | nullContext
  /-- `assert(new_slot[hash] == NULL)` -/
  | slotTaken
  /-- The loop of the model stopped before the one of the source. -/
  | outOfFuel
  deriving DecidableEq, Repr

/-- The context in slot `i`, or `none` for `NULL`. -/
def slotAt (slot : List (Option κ)) (i : Nat) : Option κ := (slot[i]?).join

/-- `handle & (size - 1)` -/
def hash (size handle : Nat) : Nat := handle &&& (size - 1)

/-- `struct handle_storage`.  The number of slots is a power of two and the index a handle or the
one after the last. -/
@[ext] structure HandleStorage (κ : Type*) where
  harbor : Nat
  handleIndex : Nat
  slot : List (Option κ)
  name : List (String × Nat)
  harbor_form : ∃ h < 256, harbor = h <<< HANDLE_REMOTE_SHIFT
  index_pos : 0 < handleIndex
  index_le : handleIndex ≤ HANDLE_MASK + 1
  size_form : ∃ k, 2 ≤ k ∧ k ≤ HANDLE_REMOTE_SHIFT ∧ slot.length = 2 ^ k

def HandleStorage.slotSize (s : HandleStorage κ) : Nat := s.slot.length

def skynetHandleInit (harbor : Nat) : HandleStorage κ where
  harbor := (harbor &&& 0xff) <<< HANDLE_REMOTE_SHIFT
  handleIndex := 1
  slot := List.replicate DEFAULT_SLOT_SIZE none
  name := []
  harbor_form := ⟨_, by have := Nat.and_lt_two_pow harbor (y := 0xff) (n := 8) (by decide); omega,
    rfl⟩
  index_pos := by decide
  index_le := by decide
  size_form := ⟨2, by decide, by decide, rfl⟩

/-- The handle to try: past the mask the handles start again at 1, since 0 is reserved. -/
def wrapHandle (handle : Nat) : Nat := if HANDLE_MASK < handle then 1 else handle

theorem wrapHandle_bounds (h : 0 < handle) :
    0 < wrapHandle handle ∧ wrapHandle handle ≤ HANDLE_MASK := by
  unfold wrapHandle
  split
  · decide
  · omega

/-- The loop over the slots from `handle` on: the first handle whose slot is free. -/
def probe (slot : List (Option κ)) : Nat → Nat → Option Nat
  | 0, _ => none
  | n + 1, handle =>
    if (slotAt slot (hash slot.length (wrapHandle handle))).isNone then some (wrapHandle handle)
    else probe slot n (wrapHandle handle + 1)

variable {slot : List (Option κ)} {n start handle : Nat}

theorem probe_bounds (hs : 0 < start)
    (h : probe slot n start = some handle) : 0 < handle ∧ handle ≤ HANDLE_MASK := by
  induction n generalizing start with
  | zero => cases h
  | succ n ih =>
    simp only [probe] at h
    split at h
    · cases h
      exact wrapHandle_bounds hs
    · exact ih (Nat.succ_pos _) h

/-- The loop that moves the contexts to the slots of the larger table `new`. -/
def rehash (handleOf : κ → Nat) : List (Option κ) → List (Option κ) →
    Except Fault (List (Option κ))
  | [], new => .ok new
  | none :: _, _ => .error .nullContext
  | some ctx :: rest, new =>
    let i := hash new.length (handleOf ctx)
    if (slotAt new i).isNone then rehash handleOf rest (new.set i (some ctx))
    else .error .slotTaken

theorem rehash_length {handleOf : κ → Nat} {old new slot : List (Option κ)}
    (h : rehash handleOf old new = .ok slot) : slot.length = new.length := by
  induction old generalizing new with
  | nil => cases h; rfl
  | cons entry old ih =>
    cases entry with
    | none => cases h
    | some ctx =>
      simp only [rehash] at h
      split at h
      · rw [ih h, List.length_set]
      · cases h

def grow (handleOf : κ → Nat) (s : HandleStorage κ) : Except Fault (HandleStorage κ) :=
  if hsize : s.slotSize * 2 - 1 ≤ HANDLE_MASK then
    match hslot : rehash handleOf s.slot (List.replicate (s.slotSize * 2) none) with
    | .ok slot => .ok
      { s with
        slot := slot
        size_form := by
          obtain ⟨k, hk, -, hlen⟩ := s.size_form
          rw [HandleStorage.slotSize, hlen, ← pow_succ] at hsize
          refine ⟨k + 1, by omega, ?_, ?_⟩
          · have hlt : 2 ^ (k + 1) < 2 ^ 25 := by simp only [HANDLE_MASK] at hsize; omega
            have := (Nat.pow_lt_pow_iff_right (a := 2) (by decide)).mp hlt
            simp only [HANDLE_REMOTE_SHIFT]
            omega
          · rw [rehash_length hslot, List.length_replicate, HandleStorage.slotSize, hlen,
              pow_succ] }
    | .error e => .error e
  else .error .tableFull

/-- The table with `ctx` in the slot of `handle`. -/
def place (s : HandleStorage κ) (ctx : κ) (handle : Nat) (hle : handle ≤ HANDLE_MASK) :
    HandleStorage κ :=
  { s with
    slot := s.slot.set (hash s.slotSize handle) (some ctx)
    handleIndex := handle + 1
    index_pos := Nat.succ_pos handle
    index_le := Nat.succ_le_succ hle
    size_form := by simpa using s.size_form }

/-- The loop `for (;;)` of `skynet_handle_register`. -/
def registerLoop (handleOf : κ → Nat) (ctx : κ) : Nat → HandleStorage κ →
    Except Fault (Nat × HandleStorage κ)
  | 0, _ => .error .outOfFuel
  | n + 1, s =>
    match h : probe s.slot s.slotSize s.handleIndex with
    | some handle => .ok (handle ||| s.harbor, place s ctx handle (probe_bounds s.index_pos h).2)
    | none =>
      match grow handleOf s with
      | .ok s => registerLoop handleOf ctx n s
      | .error e => .error e

/-- The handle and the table after the registration.  The loop ends in its second round at the
latest (`register_outcome`). -/
def skynetHandleRegister (handleOf : κ → Nat) (ctx : κ) (s : HandleStorage κ) :
    Except Fault (Nat × HandleStorage κ) :=
  registerLoop handleOf ctx 2 s

/-- The table without the context of `handle` and without its names. -/
def clear (s : HandleStorage κ) (handle : Nat) : HandleStorage κ :=
  { s with
    slot := s.slot.set (hash s.slotSize handle) none
    name := s.name.filter fun n => n.2 ≠ handle
    size_form := by simpa using s.size_form }

/-- The context to release, if the handle was registered, and the table without it. -/
def skynetHandleRetire (handleOf : κ → Nat) (handle : Nat) (s : HandleStorage κ) :
    Option κ × HandleStorage κ :=
  match slotAt s.slot (hash s.slotSize handle) with
  | some ctx => if handleOf ctx = handle then (some ctx, clear s handle) else (none, s)
  | none => (none, s)

def skynetHandleGrab (handleOf : κ → Nat) (handle : Nat) (s : HandleStorage κ) : Option κ :=
  match slotAt s.slot (hash s.slotSize handle) with
  | some ctx => if handleOf ctx = handle then some ctx else none
  | none => none

theorem slotAt_set {i : Nat} (x : Option κ) (j : Nat)
    (hi : i < slot.length) : slotAt (slot.set i x) j = if i = j then x else slotAt slot j := by
  unfold slotAt
  rw [List.getElem?_set]
  split
  · rfl
  · rfl

@[simp] theorem slotAt_replicate (n i : Nat) :
    slotAt (List.replicate n (none : Option κ)) i = none := by
  unfold slotAt
  rw [List.getElem?_replicate]
  split <;> rfl

theorem slotAt_lt {i : Nat} {ctx : κ} (h : slotAt slot i = some ctx) :
    i < slot.length := by
  by_contra hi
  rw [slotAt, List.getElem?_eq_none (by omega)] at h
  cases h

theorem mem_iff_slotAt {slot : List (Option κ)} {ctx : κ} :
    some ctx ∈ slot ↔ ∃ i, slotAt slot i = some ctx := by
  simp only [List.mem_iff_getElem?, slotAt, Option.join_eq_some_iff]

theorem hash_two_pow (k handle : Nat) : hash (2 ^ k) handle = handle % 2 ^ k :=
  Nat.and_two_pow_sub_one_eq_mod handle k

theorem hash_lt {size : Nat} (handle : Nat) (h : ∃ k, size = 2 ^ k) : hash size handle < size := by
  obtain ⟨k, rfl⟩ := h
  rw [hash_two_pow]
  exact Nat.mod_lt _ (Nat.two_pow_pos k)

theorem HandleStorage.size_pow (s : HandleStorage κ) : ∃ k, s.slotSize = 2 ^ k := by
  obtain ⟨k, -, -, h⟩ := s.size_form
  exact ⟨k, h⟩

theorem HandleStorage.hash_lt (s : HandleStorage κ) (handle : Nat) :
    hash s.slotSize handle < s.slot.length :=
  Handle.hash_lt handle s.size_pow

theorem or_harbor_mod (s : HandleStorage κ) (handle : Nat) {k : Nat}
    (hk : k ≤ HANDLE_REMOTE_SHIFT) :
    (handle ||| s.harbor) % 2 ^ k = handle % 2 ^ k := by
  obtain ⟨h, -, hh⟩ := s.harbor_form
  have hzero : s.harbor % 2 ^ k = 0 := by
    rw [hh, Nat.shiftLeft_eq]
    exact Nat.mod_eq_zero_of_dvd (Nat.dvd_mul_left_of_dvd (Nat.pow_dvd_pow 2 hk) h)
  rw [Nat.or_mod_two_pow, hzero, Nat.or_zero]

theorem or_harbor_low (s : HandleStorage κ) (h : handle ≤ HANDLE_MASK) :
    (handle ||| s.harbor) % 2 ^ HANDLE_REMOTE_SHIFT = handle := by
  rw [or_harbor_mod s handle (Nat.le_refl _)]
  exact Nat.mod_eq_of_lt (Nat.lt_succ_of_le h)

/-! ### A round of probes -/

theorem probe_some
    (h : probe slot n start = some handle) : slotAt slot (hash slot.length handle) = none := by
  induction n generalizing start with
  | zero => cases h
  | succ n ih =>
    simp only [probe] at h
    split at h
    · cases h
      exact Option.isNone_iff_eq_none.mp ‹_›
    · exact ih h

theorem probe_none_before {n start : Nat} (h : probe slot n start = none)
    (i : Nat) (hi : i < n) (hle : start + i ≤ HANDLE_MASK) :
    slotAt slot (hash slot.length (start + i)) ≠ none := by
  induction n generalizing start i with
  | zero => omega
  | succ n ih =>
    have hwrap : wrapHandle start = start := if_neg (by omega)
    simp only [probe, hwrap] at h
    split at h
    · cases h
    · rename_i hocc
      cases i with
      | zero => simpa using hocc
      | succ i =>
        rw [show start + (i + 1) = start + 1 + i by omega] at hle ⊢
        exact ih h i (by omega) hle

theorem probe_none_after {n start : Nat} (h : probe slot n start = none)
    (hstart : start ≤ HANDLE_MASK + 1) (i : Nat) (hi : i < n) (hlt : HANDLE_MASK < start + i)
    (hle : start + i ≤ 2 * HANDLE_MASK) :
    slotAt slot (hash slot.length (start + i - HANDLE_MASK)) ≠ none := by
  induction n generalizing start i with
  | zero => omega
  | succ n ih =>
    simp only [probe] at h
    split at h
    · cases h
    · rename_i hocc
      by_cases hs : HANDLE_MASK < start
      · have hwrap : wrapHandle start = 1 := if_pos hs
        rw [hwrap] at h hocc
        cases i with
        | zero =>
          rw [show start + 0 - HANDLE_MASK = 1 by omega]
          simpa using hocc
        | succ i =>
          have := probe_none_before h i (by omega) (by omega)
          rwa [show start + (i + 1) - HANDLE_MASK = 1 + 1 + i by omega]
      · have hwrap : wrapHandle start = start := if_neg hs
        rw [hwrap] at h
        cases i with
        | zero => omega
        | succ i =>
          rw [show start + (i + 1) = start + 1 + i by omega] at hlt hle ⊢
          exact ih h (by omega) i (by omega) hlt hle

/-- Slot 0 is not among the slots of the handles from `start` on: the handle that would take it is
the one after the mask, which is skipped. -/
def SkipsZero (size start : Nat) : Prop := start ≤ HANDLE_MASK ∧ HANDLE_MASK + 1 < start + size

theorem exists_offset {size : Nat} (start r : Nat) (hr : r < size) :
    ∃ i < size, (start + i) % size = r := by
  refine ⟨(r + size - start % size) % size, Nat.mod_lt _ (by omega), ?_⟩
  have hlt : start % size < size := Nat.mod_lt _ (by omega)
  have hdiv := Nat.mod_add_div start size
  rw [Nat.add_mod_mod]
  rw [show start + (r + size - start % size) = r + size * (start / size + 1) by
    rw [Nat.mul_add, Nat.mul_one]; omega]
  rw [Nat.add_mul_mod_self_left, Nat.mod_eq_of_lt hr]

theorem probe_none_full {s : HandleStorage κ}
    (h : probe s.slot s.slotSize s.handleIndex = none) {r : Nat} (hr : r < s.slotSize)
    (hzero : r = 0 → ¬ SkipsZero s.slotSize s.handleIndex ∧ s.slotSize < 2 ^ HANDLE_REMOTE_SHIFT) :
    slotAt s.slot r ≠ none := by
  obtain ⟨k, -, hk, hsize⟩ := s.size_form
  have hsize' : s.slotSize = 2 ^ k := hsize
  obtain ⟨m, hm⟩ : s.slotSize ∣ HANDLE_MASK + 1 := by
    rw [hsize']
    exact Nat.pow_dvd_pow 2 hk
  have hhash : ∀ handle, hash s.slot.length handle = handle % s.slotSize := by
    intro handle
    rw [hsize, hash_two_pow, hsize']
  have hle := s.index_le
  have hsizeLe : s.slotSize ≤ HANDLE_MASK + 1 := Nat.le_of_dvd (Nat.succ_pos _) ⟨m, hm⟩
  obtain ⟨i, hi, hmod⟩ := exists_offset s.handleIndex r hr
  by_cases hbefore : s.handleIndex + i ≤ HANDLE_MASK
  · have hocc := probe_none_before h i hi hbefore
    rwa [hhash, hmod] at hocc
  · -- the handle at this offset would be the one after the mask plus `r`
    have hsum : s.handleIndex + i = HANDLE_MASK + 1 + r := by
      have hrest : (s.handleIndex + i - (HANDLE_MASK + 1)) % s.slotSize = r := by
        rw [← hmod, hm, Nat.sub_mul_mod (by omega)]
      rw [Nat.mod_eq_of_lt (by omega)] at hrest
      omega
    by_cases hr0 : r = 0
    · obtain ⟨hskip, hlt⟩ := hzero hr0
      have hstart : s.handleIndex = HANDLE_MASK + 1 := by
        unfold SkipsZero at hskip
        omega
      have hltMask : s.slotSize ≤ HANDLE_MASK := Nat.le_of_lt_succ hlt
      have hocc := probe_none_after h hle (s.slotSize - 1) (by omega) (by omega) (by omega)
      rw [hhash, show s.handleIndex + (s.slotSize - 1) - HANDLE_MASK = s.slotSize by omega,
        Nat.mod_self] at hocc
      rwa [hr0]
    · have hocc := probe_none_after h hle (i - 1) (by omega) (by omega) (by omega)
      rwa [hhash, show s.handleIndex + (i - 1) - HANDLE_MASK = r by omega,
        Nat.mod_eq_of_lt hr] at hocc

theorem probe_tried
    (h : probe slot n start = some handle) (hstart : start ≤ HANDLE_MASK + 1)
    (hn : start + n ≤ 2 * HANDLE_MASK + 1) :
    ∃ i < n, handle = start + i ∧ handle ≤ HANDLE_MASK ∨
      HANDLE_MASK < start + i ∧ handle = start + i - HANDLE_MASK := by
  induction n generalizing start with
  | zero => cases h
  | succ n ih =>
    simp only [probe] at h
    by_cases hs : start ≤ HANDLE_MASK
    · have hwrap : wrapHandle start = start := if_neg (by omega)
      rw [hwrap] at h
      split at h
      · cases h
        exact ⟨0, Nat.succ_pos n, Or.inl ⟨rfl, hs⟩⟩
      · obtain ⟨i, hi, hcase⟩ := ih h (by omega) (by omega)
        refine ⟨i + 1, by omega, ?_⟩
        rcases hcase with ⟨h1, h2⟩ | ⟨h1, h2⟩
        · exact Or.inl ⟨by omega, h2⟩
        · exact Or.inr ⟨by omega, by omega⟩
    · have hwrap : wrapHandle start = 1 := if_pos (by omega)
      rw [hwrap] at h
      split at h
      · cases h
        exact ⟨0, Nat.succ_pos n, Or.inr ⟨by omega, by omega⟩⟩
      · obtain ⟨i, hi, hcase⟩ := ih h (by decide) (by omega)
        refine ⟨i + 1, by omega, ?_⟩
        rcases hcase with ⟨h1, h2⟩ | ⟨h1, h2⟩
        · exact Or.inr ⟨by omega, by omega⟩
        · omega

theorem probe_skips_zero {s : HandleStorage κ}
    (hskip : SkipsZero s.slotSize s.handleIndex)
    (h : probe s.slot s.slotSize s.handleIndex = some handle) : hash s.slotSize handle ≠ 0 := by
  obtain ⟨k, -, hk, hsize⟩ := s.size_form
  have hsize' : s.slotSize = 2 ^ k := hsize
  obtain ⟨m, hm⟩ : s.slotSize ∣ HANDLE_MASK + 1 := by
    rw [hsize']
    exact Nat.pow_dvd_pow 2 hk
  have hsizeLe : s.slotSize ≤ HANDLE_MASK + 1 := Nat.le_of_dvd (Nat.succ_pos _) ⟨m, hm⟩
  obtain ⟨hle, hlt⟩ := hskip
  have hpos := s.index_pos
  rw [hsize', hash_two_pow, ← hsize']
  obtain ⟨i, hi, ⟨heq, hmask⟩ | ⟨hmask, heq⟩⟩ := probe_tried h s.index_le (by omega)
  · -- `handle` lies strictly between the last two multiples of the size
    have hrest : (HANDLE_MASK + 1 - handle) % s.slotSize = HANDLE_MASK + 1 - handle :=
      Nat.mod_eq_of_lt (by omega)
    intro hzero
    obtain ⟨q, hq⟩ := Nat.dvd_of_mod_eq_zero hzero
    have hdvd : s.slotSize ∣ HANDLE_MASK + 1 - handle := Nat.dvd_sub ⟨m, hm⟩ ⟨q, hq⟩
    have := Nat.le_of_dvd (by omega) hdvd
    omega
  · rw [Nat.mod_eq_of_lt (by omega)]
    omega

theorem none_not_mem_of_rehash {handleOf : κ → Nat} {old new slot : List (Option κ)}
    (h : rehash handleOf old new = .ok slot) : none ∉ old := by
  induction old generalizing new with
  | nil => exact List.not_mem_nil
  | cons entry old ih =>
    cases entry with
    | none => cases h
    | some ctx =>
      simp only [rehash] at h
      split at h
      · simp [ih h]
      · cases h

/-- Moving the contexts of a full table to slots that are free and distinct puts each of them in the
slot of its handle, beside those that were there. -/
theorem rehash_ok {handleOf : κ → Nat} {old new : List (Option κ)} (hfull : none ∉ old)
    (hsize : ∃ k, new.length = 2 ^ k)
    (hfree : ∀ ctx, some ctx ∈ old → slotAt new (hash new.length (handleOf ctx)) = none)
    (hdistinct : old.Pairwise fun x y => ∀ a b, x = some a → y = some b →
      hash new.length (handleOf a) ≠ hash new.length (handleOf b)) :
    ∃ slot, rehash handleOf old new = .ok slot ∧ ∀ i ctx, slotAt slot i = some ctx ↔
      slotAt new i = some ctx ∨ some ctx ∈ old ∧ hash new.length (handleOf ctx) = i := by
  induction old generalizing new with
  | nil => exact ⟨new, rfl, by simp⟩
  | cons entry old ih =>
    cases entry with
    | none => simp at hfull
    | some ctx =>
      have hi := hash_lt (handleOf ctx) hsize
      have hnone := hfree ctx (by simp)
      rw [List.pairwise_cons] at hdistinct
      obtain ⟨hhead, htail⟩ := hdistinct
      simp only [rehash, hnone, Option.isNone_none, if_true]
      obtain ⟨slot, hslot, hspec⟩ := @ih (new.set (hash new.length (handleOf ctx)) (some ctx))
        (fun hmem => hfull (List.mem_cons_of_mem _ hmem)) (by simpa using hsize)
        (fun other hother => by
          rw [List.length_set, slotAt_set _ _ hi,
            if_neg (hhead _ hother ctx other rfl rfl)]
          exact hfree other (List.mem_cons_of_mem _ hother))
        (by simpa using htail)
      refine ⟨slot, hslot, fun i other => ?_⟩
      rw [hspec, slotAt_set _ _ hi, List.length_set, List.mem_cons]
      by_cases heq : hash new.length (handleOf ctx) = i
      · subst heq
        rw [if_pos rfl, hnone]
        constructor
        · rintro (h | h)
          · cases h
            exact Or.inr ⟨Or.inl rfl, rfl⟩
          · exact Or.inr ⟨Or.inr h.1, h.2⟩
        · rintro (h | ⟨h | h, hh⟩)
          · cases h
          · exact Or.inl h.symm
          · exact Or.inr ⟨h, hh⟩
      · rw [if_neg heq]
        constructor
        · rintro (h | h)
          · exact Or.inl h
          · exact Or.inr ⟨Or.inr h.1, h.2⟩
        · rintro (h | ⟨h | h, hh⟩)
          · exact Or.inl h
          · cases h
            exact absurd hh heq
          · exact Or.inr ⟨h, hh⟩

end XsServer.Handle
