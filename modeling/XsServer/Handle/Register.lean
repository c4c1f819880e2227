import XsServer.Handle.Storage

/-! What `skynet_handle_register` does to a table in which every context is in the slot of its
handle. -/

namespace XsServer.Handle

variable {κ : Type*}

/-- Every context of the table is in the slot of the handle assigned to it, which is a low part
from 1 to the mask together with the harbor. -/
structure Placed (s : HandleStorage κ) (assigned : κ → Nat) : Prop where
  slot_of : ∀ {i ctx}, slotAt s.slot i = some ctx → hash s.slotSize (assigned ctx) = i
  form : ∀ {ctx}, some ctx ∈ s.slot →
    ∃ low, 0 < low ∧ low ≤ HANDLE_MASK ∧ assigned ctx = low ||| s.harbor

def Full (s : HandleStorage κ) : Prop := ∀ i < s.slotSize, slotAt s.slot i ≠ none

/-- The only free slot is slot 0 and the next round of probes does not see it, while the table may
still be doubled. -/
def Hole (s : HandleStorage κ) : Prop :=
  slotAt s.slot 0 = none ∧ (∀ i < s.slotSize, 0 < i → slotAt s.slot i ≠ none) ∧
    SkipsZero s.slotSize s.handleIndex ∧ s.slotSize * 2 - 1 ≤ HANDLE_MASK

theorem Placed.slotAt_hash {s : HandleStorage κ} {assigned : κ → Nat} (hp : Placed s assigned)
    {ctx : κ} (h : some ctx ∈ s.slot) :
    slotAt s.slot (hash s.slotSize (assigned ctx)) = some ctx := by
  obtain ⟨i, hi⟩ := mem_iff_slotAt.mp h
  rwa [hp.slot_of hi]

theorem HandleStorage.size_two_le (s : HandleStorage κ) : 2 ≤ s.slotSize := by
  obtain ⟨k, hk, -, hlen⟩ := s.size_form
  have : 2 ^ 1 ≤ 2 ^ k := Nat.pow_le_pow_right (by decide) (by omega)
  rw [HandleStorage.slotSize, hlen]
  omega

theorem full_iff {s : HandleStorage κ} : Full s ↔ none ∉ s.slot := by
  constructor
  · intro h hmem
    obtain ⟨i, hi, hget⟩ := List.mem_iff_getElem.mp hmem
    exact h i hi (by simp [slotAt, List.getElem?_eq_getElem hi, hget])
  · intro h i hi hnone
    have hlen : i < s.slot.length := hi
    refine h (List.mem_iff_getElem.mpr ⟨i, hlen, ?_⟩)
    simpa [slotAt, List.getElem?_eq_getElem hlen] using hnone

theorem pairwise_hash {s : HandleStorage κ} {assigned : κ → Nat} (hp : Placed s assigned) :
    s.slot.Pairwise fun x y => ∀ a b, x = some a → y = some b →
      hash (s.slotSize * 2) (assigned a) ≠ hash (s.slotSize * 2) (assigned b) := by
  rw [List.pairwise_iff_getElem]
  intro i j hi hj hlt a b ha hb heq
  have hia : hash s.slotSize (assigned a) = i :=
    hp.slot_of (by simp [slotAt, List.getElem?_eq_getElem hi, ha])
  have hjb : hash s.slotSize (assigned b) = j :=
    hp.slot_of (by simp [slotAt, List.getElem?_eq_getElem hj, hb])
  obtain ⟨k, hk⟩ := s.size_pow
  rw [hk, hash_two_pow] at hia hjb
  rw [hk, ← pow_succ, hash_two_pow, hash_two_pow] at heq
  have hmod := congrArg (· % 2 ^ k) heq
  simp only [Nat.mod_mod_of_dvd _ (Nat.pow_dvd_pow 2 (Nat.le_succ k))] at hmod
  omega

theorem grow_ok {s : HandleStorage κ} {handleOf assigned : κ → Nat} (hp : Placed s assigned)
    (hfull : Full s) (hsize : s.slotSize * 2 - 1 ≤ HANDLE_MASK)
    (hread : ∀ ctx, some ctx ∈ s.slot →
      hash (s.slotSize * 2) (handleOf ctx) = hash (s.slotSize * 2) (assigned ctx)) :
    ∃ s', grow handleOf s = .ok s' ∧ s'.slotSize = s.slotSize * 2 ∧ s'.harbor = s.harbor ∧
      s'.name = s.name ∧ ∀ i ctx, slotAt s'.slot i = some ctx ↔
        some ctx ∈ s.slot ∧ hash (s.slotSize * 2) (assigned ctx) = i := by
  obtain ⟨k, hk⟩ := s.size_pow
  obtain ⟨slot, hslot, hspec⟩ := @rehash_ok _ handleOf s.slot
    (List.replicate (s.slotSize * 2) none) (full_iff.mp hfull)
    ⟨k + 1, by rw [List.length_replicate, hk, pow_succ]⟩ (fun _ _ => slotAt_replicate _ _)
    (by
      rw [List.length_replicate]
      refine (pairwise_hash hp).imp_of_mem fun {x y} hx hy hne a b hxa hyb => ?_
      subst hxa hyb
      rw [hread a hx, hread b hy]
      exact hne a b rfl rfl)
  unfold grow
  rw [dif_pos hsize]
  split
  · rename_i slot' hslot'
    cases hslot.symm.trans hslot'
    refine ⟨_, rfl, (rehash_length hslot).trans List.length_replicate, rfl, rfl, ?_⟩
    intro i ctx
    rw [hspec, slotAt_replicate, List.length_replicate]
    constructor
    · rintro (h | ⟨hmem, hh⟩)
      · cases h
      · exact ⟨hmem, (hread ctx hmem).symm.trans hh⟩
    · rintro ⟨hmem, hh⟩
      exact Or.inr ⟨hmem, (hread ctx hmem).trans hh⟩
  · rename_i e he
    cases hslot.symm.trans he

theorem grow_full {s s' : HandleStorage κ} {handleOf : κ → Nat} (h : grow handleOf s = .ok s') :
    Full s ∧ s.slotSize * 2 - 1 ≤ HANDLE_MASK := by
  unfold grow at h
  split at h
  · split at h
    · rename_i hsize _ hslot
      exact ⟨full_iff.mpr (none_not_mem_of_rehash hslot), hsize⟩
    · cases h
  · cases h

theorem grow_probe {s s' : HandleStorage κ} {assigned : κ → Nat} (hp : Placed s assigned)
    (hsize : s'.slotSize = s.slotSize * 2)
    (hspec : ∀ i ctx, slotAt s'.slot i = some ctx ↔
      some ctx ∈ s.slot ∧ hash (s.slotSize * 2) (assigned ctx) = i) :
    probe s'.slot s'.slotSize s'.handleIndex ≠ none := by
  intro hnone
  have htwo := s.size_two_le
  obtain ⟨k, hk⟩ := s.size_pow
  have hocc : ∀ i, 0 < i → i < s.slotSize * 2 →
      ∃ ctx, some ctx ∈ s.slot ∧ hash (s.slotSize * 2) (assigned ctx) = i := by
    intro i hi hlt
    have hne := probe_none_full hnone (r := i) (by omega) (fun h => by omega)
    obtain ⟨ctx, hctx⟩ := Option.ne_none_iff_exists'.mp hne
    exact ⟨ctx, (hspec i ctx).mp hctx⟩
  -- slots 1 and `1 + size` would hold the same context of slot 1 of the old table
  obtain ⟨a, ha, hha⟩ := hocc 1 (by decide) (by omega)
  obtain ⟨b, hb, hhb⟩ := hocc (1 + s.slotSize) (by omega) (by omega)
  rw [hk, ← pow_succ, hash_two_pow] at hha hhb
  have hmod : ∀ x, x % 2 ^ k = x % 2 ^ (k + 1) % 2 ^ k := fun x =>
    (Nat.mod_mod_of_dvd x (Nat.pow_dvd_pow 2 (Nat.le_succ k))).symm
  have hsa := hp.slotAt_hash ha
  have hsb := hp.slotAt_hash hb
  rw [hk, hash_two_pow, hmod, hha] at hsa
  rw [hk, hash_two_pow, hmod, hhb, Nat.add_mod_right, hsa] at hsb
  cases hsb
  omega

variable {handle : Nat}

theorem place_slotAt (s : HandleStorage κ) (ctx : κ) (hle : handle ≤ HANDLE_MASK)
    (i : Nat) : slotAt (place s ctx handle hle).slot i =
      if hash s.slotSize handle = i then some ctx else slotAt s.slot i :=
  slotAt_set _ _ (s.hash_lt handle)

theorem hash_or_harbor (s : HandleStorage κ) (handle : Nat) :
    hash s.slotSize (handle ||| s.harbor) = hash s.slotSize handle := by
  obtain ⟨k, -, hk, hlen⟩ := s.size_form
  rw [HandleStorage.slotSize, hlen, hash_two_pow, hash_two_pow, or_harbor_mod s handle hk]

/-- A registered context takes a free slot of the table or of the doubled one. -/
structure Registered (s : HandleStorage κ) (assigned : κ → Nat) (ctx : κ) (handle : Nat)
    (s' : HandleStorage κ) : Prop where
  size : s'.slotSize = s.slotSize ∨ Full s ∧ s'.slotSize = s.slotSize * 2
  harbor : s'.harbor = s.harbor
  form : ∃ low, 0 < low ∧ low ≤ HANDLE_MASK ∧ handle = low ||| s.harbor
  slot : ∀ i c, slotAt s'.slot i = some c ↔
    c = ctx ∧ hash s'.slotSize handle = i ∨
      some c ∈ s.slot ∧ hash s'.slotSize (assigned c) = i

theorem Placed.slotAt_iff {s : HandleStorage κ} {assigned : κ → Nat} (hp : Placed s assigned)
    (i : Nat) (ctx : κ) : slotAt s.slot i = some ctx ↔
      some ctx ∈ s.slot ∧ hash s.slotSize (assigned ctx) = i := by
  constructor
  · intro h
    exact ⟨mem_iff_slotAt.mpr ⟨i, h⟩, hp.slot_of h⟩
  · rintro ⟨hmem, rfl⟩
    exact hp.slotAt_hash hmem

/-- The registration of `ctx` in `s`, which holds the contexts of `s0` in the slots of their
handles. -/
theorem registered_place {s0 s : HandleStorage κ} {assigned : κ → Nat} (ctx : κ)
    (hsize : s.slotSize = s0.slotSize ∨ Full s0 ∧ s.slotSize = s0.slotSize * 2)
    (hharbor : s.harbor = s0.harbor)
    (hspec : ∀ i c, slotAt s.slot i = some c ↔
      some c ∈ s0.slot ∧ hash s.slotSize (assigned c) = i)
    (hprobe : probe s.slot s.slotSize s.handleIndex = some handle) (hle : handle ≤ HANDLE_MASK) :
    Registered s0 assigned ctx (handle ||| s.harbor) (place s ctx handle hle) := by
  have hplaceSize : (place s ctx handle hle).slotSize = s.slotSize := List.length_set
  refine ⟨by rwa [hplaceSize], hharbor,
    ⟨handle, (probe_bounds s.index_pos hprobe).1, hle, by rw [hharbor]⟩, ?_⟩
  intro i c
  rw [place_slotAt, hplaceSize, hash_or_harbor, ← hspec]
  by_cases hi : hash s.slotSize handle = i
  · have hfree : slotAt s.slot i = none := by
      rw [← hi]
      exact probe_some hprobe
    rw [if_pos hi, hfree]
    simp [hi, eq_comm]
  · simp [hi]

theorem registerLoop_some {handleOf : κ → Nat} {ctx : κ} {n handle : Nat} {s : HandleStorage κ}
    (h : probe s.slot s.slotSize s.handleIndex = some handle) :
    registerLoop handleOf ctx (n + 1) s =
      .ok (handle ||| s.harbor, place s ctx handle (probe_bounds s.index_pos h).2) := by
  unfold registerLoop
  split
  · rename_i handle' h'
    cases h.symm.trans h'
    rfl
  · rename_i h'
    cases h.symm.trans h'

theorem registerLoop_none {handleOf : κ → Nat} {ctx : κ} {n : Nat} {s : HandleStorage κ}
    (h : probe s.slot s.slotSize s.handleIndex = none) :
    registerLoop handleOf ctx (n + 1) s = (grow handleOf s).bind (registerLoop handleOf ctx n) := by
  rw [registerLoop]
  split
  · rename_i handle' h'
    cases h.symm.trans h'
  · cases grow handleOf s <;> rfl

/-- A round without success in a table without a hole, which may still be doubled, means that the
table is full. -/
theorem full_of_probe {s : HandleStorage κ} (hhole : ¬ Hole s)
    (hsize : s.slotSize * 2 - 1 ≤ HANDLE_MASK)
    (hprobe : probe s.slot s.slotSize s.handleIndex = none) : Full s := by
  have hlt : s.slotSize < 2 ^ HANDLE_REMOTE_SHIFT := by
    have := s.size_two_le
    simp only [HANDLE_MASK] at hsize
    simp only [HANDLE_REMOTE_SHIFT]
    omega
  have hpos : ∀ i < s.slotSize, 0 < i → slotAt s.slot i ≠ none := fun i hi h0 =>
    probe_none_full hprobe hi fun h => by omega
  intro i hi
  by_cases h0 : i = 0
  · subst h0
    by_cases hskip : SkipsZero s.slotSize s.handleIndex
    · intro hnone
      exact hhole ⟨hnone, hpos, hskip, hsize⟩
    · exact probe_none_full hprobe hi fun _ => ⟨hskip, hlt⟩
  · exact hpos i hi (by omega)

section Outcome

variable {s : HandleStorage κ} {handleOf assigned : κ → Nat} (ctx : κ) (hp : Placed s assigned)
  (hread : Full s → ∀ c, some c ∈ s.slot →
    hash (s.slotSize * 2) (handleOf c) = hash (s.slotSize * 2) (assigned c))

include hp hread

theorem register_full (hfull : Full s) (hsize : s.slotSize * 2 - 1 ≤ HANDLE_MASK)
    (hprobe : probe s.slot s.slotSize s.handleIndex = none) :
    ∃ handle s', skynetHandleRegister handleOf ctx s = .ok (handle, s') ∧
      Registered s assigned ctx handle s' := by
  obtain ⟨s', hgrow, hsize', hharbor, -, hspec⟩ := grow_ok hp hfull hsize (hread hfull)
  obtain ⟨handle, hprobe'⟩ := Option.ne_none_iff_exists'.mp (grow_probe hp hsize' hspec)
  unfold skynetHandleRegister
  rw [registerLoop_none hprobe, hgrow]
  exact ⟨_, _, registerLoop_some hprobe',
    registered_place ctx (Or.inr ⟨hfull, hsize'⟩) hharbor (by rwa [hsize']) hprobe' _⟩

theorem register_ok {s' : HandleStorage κ}
    (h : skynetHandleRegister handleOf ctx s = .ok (handle, s')) :
    Registered s assigned ctx handle s' := by
  cases hprobe : probe s.slot s.slotSize s.handleIndex with
  | some handle =>
    rw [skynetHandleRegister, registerLoop_some hprobe] at h
    cases h
    exact registered_place ctx (Or.inl rfl) rfl hp.slotAt_iff hprobe _
  | none =>
    cases hgrow : grow handleOf s with
    | error e =>
      rw [skynetHandleRegister, registerLoop_none hprobe, hgrow] at h
      cases h
    | ok s1 =>
      obtain ⟨hfull, hsize⟩ := grow_full hgrow
      obtain ⟨handle', s2, hreg, hr⟩ := register_full ctx hp hread hfull hsize hprobe
      cases h.symm.trans hreg
      exact hr

theorem register_outcome (hhole : ¬ Hole s) :
    (∃ handle s', skynetHandleRegister handleOf ctx s = .ok (handle, s') ∧
      Registered s assigned ctx handle s') ∨
    skynetHandleRegister handleOf ctx s = .error .tableFull ∧ HANDLE_MASK < s.slotSize * 2 - 1 := by
  cases hprobe : probe s.slot s.slotSize s.handleIndex with
  | some handle =>
    exact Or.inl ⟨_, _, registerLoop_some hprobe,
      registered_place ctx (Or.inl rfl) rfl hp.slotAt_iff hprobe _⟩
  | none =>
    by_cases hsize : s.slotSize * 2 - 1 ≤ HANDLE_MASK
    · exact Or.inl (register_full ctx hp hread (full_of_probe hhole hsize hprobe) hsize hprobe)
    · right
      refine ⟨?_, by omega⟩
      have hgrow : grow handleOf s = .error .tableFull := dif_neg hsize
      rw [skynetHandleRegister, registerLoop_none hprobe, hgrow]
      rfl

end Outcome

theorem register_hole {s : HandleStorage κ} (handleOf : κ → Nat) (ctx : κ) (h : Hole s) :
    skynetHandleRegister handleOf ctx s = .error .nullContext := by
  obtain ⟨hzero, hpos, hskip, hsize⟩ := h
  have hprobe : probe s.slot s.slotSize s.handleIndex = none := by
    rw [Option.eq_none_iff_forall_ne_some]
    intro handle hsome
    have hlt : hash s.slotSize handle < s.slotSize := s.hash_lt handle
    exact hpos _ hlt (Nat.pos_of_ne_zero (probe_skips_zero hskip hsome)) (probe_some hsome)
  have hgrow : grow handleOf s = .error .nullContext := by
    have hhead : ∃ rest, s.slot = none :: rest := by
      have := s.size_two_le
      cases hslot : s.slot with
      | nil => simp [HandleStorage.slotSize, hslot] at this
      | cons entry rest =>
        rw [hslot] at hzero
        cases hzero
        exact ⟨rest, rfl⟩
    obtain ⟨rest, hrest⟩ := hhead
    have hrehash : rehash handleOf s.slot (List.replicate (s.slotSize * 2) none) =
        .error .nullContext := by
      rw [hrest]
      rfl
    unfold grow
    rw [dif_pos hsize]
    split
    · rename_i slot hslot
      cases hrehash.symm.trans hslot
    · rename_i e he
      cases hrehash.symm.trans he
      rfl
  rw [skynetHandleRegister, registerLoop_none hprobe, hgrow]
  rfl

theorem Placed.register {s s' : HandleStorage κ} {assigned : κ → Nat} [DecidableEq κ] {ctx : κ}
    (hp : Placed s assigned) (hnew : some ctx ∉ s.slot)
    (hr : Registered s assigned ctx handle s') :
    Placed s' (Function.update assigned ctx handle) := by
  have hold : ∀ {c}, some c ∈ s.slot → Function.update assigned ctx handle c = assigned c := by
    intro c hc
    refine Function.update_of_ne ?_ _ _
    rintro rfl
    exact hnew hc
  constructor
  · intro i c hc
    rcases (hr.slot i c).mp hc with ⟨rfl, hi⟩ | ⟨hmem, hi⟩
    · rwa [Function.update_self]
    · rwa [hold hmem]
  · intro c hc
    obtain ⟨i, hi⟩ := mem_iff_slotAt.mp hc
    rcases (hr.slot i c).mp hi with ⟨rfl, -⟩ | ⟨hmem, -⟩
    · rw [Function.update_self, hr.harbor]
      exact hr.form
    · rw [hold hmem, hr.harbor]
      exact hp.form hmem

theorem Registered.mem_iff {s s' : HandleStorage κ} {assigned : κ → Nat} {ctx : κ}
    (hr : Registered s assigned ctx handle s') (c : κ) :
    some c ∈ s'.slot ↔ c = ctx ∨ some c ∈ s.slot := by
  simp only [@mem_iff_slotAt _ s'.slot, hr.slot]
  constructor
  · rintro ⟨i, ⟨h, -⟩ | ⟨h, -⟩⟩
    · exact Or.inl h
    · exact Or.inr h
  · rintro (h | h)
    · exact ⟨_, Or.inl ⟨h, rfl⟩⟩
    · exact ⟨_, Or.inr ⟨h, rfl⟩⟩

theorem clear_slotAt (s : HandleStorage κ) (handle i : Nat) :
    slotAt (clear s handle).slot i =
      if hash s.slotSize handle = i then none else slotAt s.slot i :=
  slotAt_set _ _ (s.hash_lt handle)

theorem retire_cases (handleOf : κ → Nat) (handle : Nat) (s : HandleStorage κ) :
    (∃ ctx, skynetHandleRetire handleOf handle s = (some ctx, clear s handle) ∧
      slotAt s.slot (hash s.slotSize handle) = some ctx ∧ handleOf ctx = handle) ∨
    skynetHandleRetire handleOf handle s = (none, s) ∧
      ∀ ctx, slotAt s.slot (hash s.slotSize handle) = some ctx → handleOf ctx ≠ handle := by
  cases hslot : slotAt s.slot (hash s.slotSize handle) with
  | none =>
    right
    exact ⟨by simp only [skynetHandleRetire, hslot], by simp⟩
  | some ctx =>
    by_cases hh : handleOf ctx = handle
    · left
      exact ⟨ctx, by simp only [skynetHandleRetire, hslot, if_pos hh], rfl, hh⟩
    · right
      refine ⟨by simp only [skynetHandleRetire, hslot, if_neg hh], ?_⟩
      rintro c hc
      cases hc
      exact hh

theorem Placed.clear {s : HandleStorage κ} {assigned : κ → Nat} (hp : Placed s assigned)
    (handle : Nat) : Placed (clear s handle) assigned := by
  have hsize : (Handle.clear s handle).slotSize = s.slotSize := List.length_set
  have hkeep : ∀ {i c}, slotAt (Handle.clear s handle).slot i = some c →
      slotAt s.slot i = some c := by
    intro i c h
    rw [clear_slotAt] at h
    split at h
    · cases h
    · exact h
  constructor
  · intro i c h
    rw [hsize]
    exact hp.slot_of (hkeep h)
  · intro c hc
    obtain ⟨i, hi⟩ := mem_iff_slotAt.mp hc
    exact hp.form (mem_iff_slotAt.mpr ⟨i, hkeep hi⟩)

theorem Placed.mem_clear {s : HandleStorage κ} {assigned : κ → Nat} (hp : Placed s assigned)
    {ctx : κ} (hctx : slotAt s.slot (hash s.slotSize handle) = some ctx) (c : κ) :
    some c ∈ (Handle.clear s handle).slot ↔ some c ∈ s.slot ∧ c ≠ ctx := by
  simp only [mem_iff_slotAt, clear_slotAt]
  constructor
  · rintro ⟨i, hi⟩
    split at hi
    · cases hi
    · rename_i hne
      refine ⟨⟨i, hi⟩, ?_⟩
      rintro rfl
      exact hne ((hp.slot_of hctx).symm.trans (hp.slot_of hi))
  · rintro ⟨⟨i, hi⟩, hne⟩
    refine ⟨i, ?_⟩
    rw [if_neg, hi]
    rintro rfl
    rw [hctx] at hi
    cases hi
    exact hne rfl

theorem grab_eq_some {handleOf : κ → Nat} {s : HandleStorage κ} {ctx : κ} :
    skynetHandleGrab handleOf handle s = some ctx ↔
      slotAt s.slot (hash s.slotSize handle) = some ctx ∧ handleOf ctx = handle := by
  unfold skynetHandleGrab
  cases slotAt s.slot (hash s.slotSize handle) with
  | none => simp
  | some c =>
    by_cases hh : handleOf c = handle
    · simp only [if_pos hh, Option.some.injEq]
      constructor
      · rintro rfl
        exact ⟨rfl, hh⟩
      · exact And.left
    · simp only [if_neg hh]
      constructor
      · intro h
        cases h
      · rintro ⟨h, h'⟩
        cases h
        exact absurd h' hh

end XsServer.Handle
