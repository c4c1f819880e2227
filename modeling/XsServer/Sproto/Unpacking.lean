import XsServer.Sproto.Pack

/-! `sproto_unpack` stays inside its buffer, its result does not depend on the room there, and it
gives back what was packed. -/

namespace XsServer.Sproto

open Lib

/-- What was written of the bytes `out` to a buffer of `n` bytes. -/
structure Filled (n : Int) (m : Memory) (out : List UInt8) (st : UnpackState) : Prop where
  size : st.size = out.length
  sync : (st.buffer : Int) + st.bufsz = n
  bound : ∀ i : Nat, n ≤ i → st.mem i = m i
  room : (out.length : Int) ≤ n → st.buffer = out.length ∧ Holds st.mem 0 out

variable {n : Int} {m : Memory} {out : List UInt8} {st : UnpackState}

theorem Filled.congr (h : Filled n m out st) {st' : UnpackState} (hsize : st'.size = st.size)
    (hmem : st'.mem = st.mem) (hbuffer : st'.buffer = st.buffer) (hbufsz : st'.bufsz = st.bufsz) :
    Filled n m out st' where
  size := hsize.trans h.size
  sync := by rw [hbuffer, hbufsz, h.sync]
  bound := by
    rw [hmem]
    exact h.bound
  room := by
    rw [hmem, hbuffer]
    exact h.room

theorem Filled.write (h : Filled n m out st) (l : List UInt8) {st' : UnpackState}
    (hsize : st'.size = st.size + l.length)
    (hmem : st'.mem = if st.bufsz ≥ l.length then Lib.write st.mem st.buffer l else st.mem)
    (hsync : (st'.buffer : Int) + st'.bufsz = n)
    (hbuffer : st.bufsz ≥ l.length → st'.buffer = st.buffer + l.length) :
    Filled n m (out ++ l) st' where
  size := by rw [hsize, h.size, List.length_append]
  sync := hsync
  bound i hi := by
    have hb := h.sync
    rw [hmem]
    split
    · rw [write_after (by omega)]
      exact h.bound i hi
    · exact h.bound i hi
  room hroom := by
    rw [List.length_append] at hroom ⊢
    have hb := h.sync
    obtain ⟨hat, hholds⟩ := h.room (by omega)
    have hge : st.bufsz ≥ l.length := by omega
    rw [hmem, if_pos hge, hbuffer hge, hat]
    refine ⟨rfl, Holds.append (hholds.write (.inl (by omega))) ?_⟩
    rw [Nat.zero_add]
    exact holds_write _ _ _

theorem Filled.put (h : Filled n m out st) (b : UInt8) (src : Nat) (srcsz : Int) :
    Filled n m (out ++ [b])
      { st.put b with src := src, srcsz := srcsz, size := (st.put b).size + 1 } := by
  have hsync := h.sync
  have hpos : st.bufsz ≥ ([b] : List UInt8).length ↔ st.bufsz > 0 := by
    rw [List.length_singleton]
    omega
  refine h.write [b] rfl ?_ ?_ fun hge => ?_
  · simp only [UnpackState.put, hpos]
  · simp only [UnpackState.put]
    split
    · omega
    · exact hsync
  · simp only [UnpackState.put, if_pos (hpos.mp hge)]
    rfl

/-! ### Any input -/

theorem unpackBits_filled (y : Memory) (header : UInt8) (k : Nat) (h : Filled n m out st) :
    ∃ l, Filled n m (out ++ l) (unpackBits y header k st).1 := by
  induction k generalizing st out with
  | zero => exact ⟨[], by rwa [List.append_nil]⟩
  | succ k ih =>
    rw [unpackBits]
    split
    · split
      · exact ⟨[], by rwa [List.append_nil]⟩
      · obtain ⟨l, hl⟩ := ih (h.put (y st.src) (st.src + 1) (st.srcsz - 1))
        exact ⟨_, by rwa [List.append_assoc] at hl⟩
    · obtain ⟨l, hl⟩ := ih (h.put 0 st.src st.srcsz)
      exact ⟨_, by rwa [List.append_assoc] at hl⟩

theorem cells_length (y : Memory) (i k : Nat) : (cells y i k).length = k := by
  rw [cells, List.length_map, List.length_range]

theorem Filled.block (h : Filled n m out st) (y : Memory) (k : Nat) :
    Filled n m (out ++ cells y (st.src + 1) k)
      ⟨st.src + 1 + k, st.srcsz - (k + 1),
        if st.bufsz ≥ k then Lib.write st.mem st.buffer (cells y (st.src + 1) k) else st.mem,
        st.buffer + k, st.bufsz - k, st.size + k⟩ := by
  have hlen := cells_length y (st.src + 1) k
  have hsync := h.sync
  refine h.write _ ?_ ?_ ?_ fun _ => ?_
  · rw [hlen]
  · rw [hlen]
  · dsimp only
    omega
  · rw [hlen]

theorem unpackFf_filled (y : Memory) (h : Filled n m out st) :
    ∃ l, Filled n m (out ++ l) (unpackFf y st).1 := by
  unfold unpackFf
  dsimp only
  split
  · exact ⟨[], by rwa [List.append_nil]⟩
  · split
    · exact ⟨[], by rwa [List.append_nil]⟩
    · exact ⟨_, h.block y (((y st.src).toNat + 1) * 8)⟩

theorem unpackRound_filled (y : Memory) (h : Filled n m out st) :
    ∃ l, Filled n m (out ++ l) (unpackRound y st).1 := by
  have hnext : Filled n m out { st with srcsz := st.srcsz - 1, src := st.src + 1 } :=
    h.congr rfl rfl rfl rfl
  unfold unpackRound
  dsimp only
  split
  · exact unpackFf_filled y hnext
  · exact unpackBits_filled y _ 8 hnext

theorem unpackLoop_bound (y : Memory) (h : Filled n m out st) :
    ∀ i : Nat, n ≤ i → (unpackLoop y st).1 i = m i := by
  fun_induction unpackLoop y st generalizing out with
  | case1 st hmore hok ih =>
    obtain ⟨l, hl⟩ := unpackRound_filled y h
    exact ih hl
  | case2 st hmore hbad =>
    obtain ⟨l, hl⟩ := unpackRound_filled y h
    exact hl.bound
  | case3 st hdone => exact h.bound

/-- Two states that read the same, with buffers of their own. -/
def UnpackState.Agrees (st st' : UnpackState) : Prop :=
  st'.src = st.src ∧ st'.srcsz = st.srcsz ∧ st'.size = st.size

theorem unpackBits_agrees (y : Memory) (header : UInt8) (k : Nat) {st st' : UnpackState}
    (h : st.Agrees st') : (unpackBits y header k st).1.Agrees (unpackBits y header k st').1 ∧
      (unpackBits y header k st').2 = (unpackBits y header k st).2 := by
  induction k generalizing st st' with
  | zero => exact ⟨h, rfl⟩
  | succ k ih =>
    obtain ⟨hsrc, hsrcsz, hsize⟩ := h
    rw [unpackBits, unpackBits, hsrcsz]
    split
    · split
      · exact ⟨⟨hsrc, hsrcsz, hsize⟩, rfl⟩
      · exact ih ⟨congrArg (· + 1) hsrc, congrArg (· - 1) hsrcsz, congrArg (· + 1) hsize⟩
    · exact ih ⟨hsrc, hsrcsz, congrArg (· + 1) hsize⟩

theorem unpackRound_agrees (y : Memory) {st st' : UnpackState} (h : st.Agrees st') :
    (unpackRound y st).1.Agrees (unpackRound y st').1 ∧
      (unpackRound y st').2 = (unpackRound y st).2 := by
  obtain ⟨hsrc, hsrcsz, hsize⟩ := h
  have hnext : UnpackState.Agrees { st with srcsz := st.srcsz - 1, src := st.src + 1 }
      { st' with srcsz := st'.srcsz - 1, src := st'.src + 1 } :=
    ⟨congrArg (· + 1) hsrc, congrArg (· - 1) hsrcsz, hsize⟩
  unfold unpackRound
  dsimp only
  rw [hsrc, hsrcsz]
  rw [hsrc, hsrcsz] at hnext
  split
  · unfold unpackFf
    dsimp only
    split
    · exact ⟨hnext, rfl⟩
    · split
      · exact ⟨hnext, rfl⟩
      · refine ⟨⟨rfl, rfl, ?_⟩, rfl⟩
        dsimp only
        rw [hsize]
  · exact unpackBits_agrees y _ 8 hnext

theorem unpackLoop_agrees (y : Memory) {st st' : UnpackState} (h : st.Agrees st') :
    (unpackLoop y st').2 = (unpackLoop y st).2 := by
  fun_induction unpackLoop y st generalizing st' with
  | case1 st hmore hok ih =>
    obtain ⟨hagrees, hflag⟩ := unpackRound_agrees y h
    rw [unpackLoop, if_pos (h.2.1 ▸ hmore), if_pos (hflag.trans hok)]
    exact ih hagrees
  | case2 st hmore hbad =>
    obtain ⟨-, hflag⟩ := unpackRound_agrees y h
    rw [unpackLoop, if_pos (h.2.1 ▸ hmore), if_neg (hflag ▸ hbad)]
  | case3 st hdone =>
    rw [unpackLoop, if_neg (h.2.1 ▸ hdone), h.2.2]

theorem unpackBits_seg (y : Memory) (header : UInt8) (seg : List UInt8) (h : Filled n m out st)
    (hlen : seg.length ≤ 8)
    (hbits : ∀ j b, seg[j]? = some b →
      (header >>> UInt8.ofNat (8 - seg.length + j) &&& 1 ≠ 0 ↔ b ≠ 0))
    (hsrc : Holds y st.src (nonzero seg)) (hsrcsz : ((nonzero seg).length : Int) ≤ st.srcsz) :
    ∃ st', unpackBits y header seg.length st = (st', true) ∧ Filled n m (out ++ seg) st' ∧
      st'.src = st.src + (nonzero seg).length ∧ st'.srcsz = st.srcsz - (nonzero seg).length := by
  induction seg generalizing st out with
  | nil =>
    refine ⟨st, rfl, ?_, rfl, ?_⟩
    · rwa [List.append_nil]
    · simp [nonzero]
  | cons b seg ih =>
    rw [List.length_cons] at hlen
    have hbit := hbits 0 b rfl
    have hrest : ∀ j b, seg[j]? = some b →
        (header >>> UInt8.ofNat (8 - seg.length + j) &&& 1 ≠ 0 ↔ b ≠ 0) := fun j b hj => by
      have hj' := hbits (j + 1) b hj
      rwa [List.length_cons,
        show 8 - (seg.length + 1) + (j + 1) = 8 - seg.length + j by omega] at hj'
    rw [List.length_cons, Nat.add_zero, show 8 - (seg.length + 1) = 7 - seg.length by omega] at hbit
    rw [List.length_cons, unpackBits]
    by_cases hb : b = 0
    · have hnz : nonzero (b :: seg) = nonzero seg := List.filter_cons_of_neg (by simp [hb])
      rw [hnz] at hsrc hsrcsz ⊢
      rw [if_neg fun hbad => hbit.mp hbad hb]
      obtain ⟨st', hrun, hfilled, hsrc', hsrcsz'⟩ :=
        ih (h.put 0 st.src st.srcsz) (by omega) hrest hsrc hsrcsz
      refine ⟨st', hrun, ?_, hsrc', hsrcsz'⟩
      rwa [List.append_assoc, List.singleton_append, ← hb] at hfilled
    · have hnz : nonzero (b :: seg) = b :: nonzero seg := List.filter_cons_of_pos (by simp [hb])
      rw [hnz] at hsrc hsrcsz ⊢
      rw [List.length_cons] at hsrcsz ⊢
      rw [if_pos (hbit.mpr hb), if_neg (by omega)]
      obtain ⟨st', hrun, hfilled, hsrc', hsrcsz'⟩ :=
        ih (h.put b (st.src + 1) (st.srcsz - 1)) (by omega) hrest hsrc.tail (by dsimp only; omega)
      dsimp only at hsrc' hsrcsz'
      refine ⟨st', ?_, ?_, by omega, by omega⟩
      · rw [← hrun, hsrc.head]
        rfl
      · rwa [List.append_assoc, List.singleton_append] at hfilled

theorem unpackRound_block {q l : List UInt8} (hq : Block q l) (y : Memory) (h : Filled n m out st)
    (hsrc : Holds y st.src q) (hsrcsz : (q.length : Int) ≤ st.srcsz) :
    ∃ st', unpackRound y st = (st', true) ∧ Filled n m (out ++ l) st' ∧
      st'.src = st.src + q.length ∧ st'.srcsz = st.srcsz - q.length := by
  have hnext : Filled n m out { st with srcsz := st.srcsz - 1, src := st.src + 1 } :=
    h.congr rfl rfl rfl rfl
  unfold unpackRound
  dsimp only
  cases hq with
  | seg hlen hzero =>
    have hbits : ∀ j b, l[j]? = some b →
        (header l 0 >>> UInt8.ofNat (8 - l.length + j) &&& 1 ≠ 0 ↔ b ≠ 0) := fun j b hj => by
      have hlt := (List.getElem?_eq_some_iff.mp hj).1
      rw [hlen, Nat.sub_self, Nat.zero_add, bit_iff _ (hlen ▸ hlt), testBit_header l (by omega),
        Nat.sub_zero, hj]
      simp
    have hlength : (segBlock l).length = (nonzero l).length + 1 := List.length_cons
    rw [hlength] at hsrcsz ⊢
    have hhead : y st.src = header l 0 := hsrc.head
    rw [hhead, if_neg (header_ne hlen hzero)]
    obtain ⟨st', hrun, hfilled, hsrc', hsrcsz'⟩ :=
      unpackBits_seg y (header l 0) l hnext hlen.le hbits hsrc.tail (by dsimp only; omega)
    dsimp only at hsrc' hsrcsz'
    rw [hlen] at hrun
    exact ⟨st', hrun, hfilled, by omega, by omega⟩
  | @ff run k hlen hk =>
    have hlength : (ffBlock l).length = l.length + 2 := rfl
    have hcount : l.length / 8 - 1 = k := by omega
    rw [hlength] at hsrcsz ⊢
    have hhead : y st.src = 0xff := hsrc.head
    have hnum : y (st.src + 1) = UInt8.ofNat k := by
      rw [← hcount]
      exact hsrc.tail.head
    have hnum' : (y (st.src + 1)).toNat = k := by
      rw [hnum, UInt8.toNat_ofNat']
      omega
    have hcells : cells y (st.src + 1 + 1) ((k + 1) * 8) = l := by
      rw [← hlen]
      exact hsrc.tail.tail.cells
    have hblock := hnext.block y ((k + 1) * 8)
    dsimp only at hblock
    rw [hcells] at hblock
    rw [if_pos hhead]
    unfold unpackFf
    dsimp only
    rw [hnum', if_neg (by omega), if_neg (by omega), hcells]
    exact ⟨_, rfl, hblock, by dsimp only; omega, by dsimp only; omega⟩

theorem unpackLoop_packed {p l : List UInt8} (hp : Packed p l) (y : Memory) (h : Filled n m out st)
    (hsrc : Holds y st.src p) (hsrcsz : st.srcsz = p.length) :
    (unpackLoop y st).2 = some (out ++ l).length ∧
      (((out ++ l).length : Int) ≤ n → Holds (unpackLoop y st).1 0 (out ++ l)) := by
  induction hp generalizing st out with
  | nil =>
    rw [unpackLoop, if_neg (by rw [hsrcsz]; decide), List.append_nil]
    exact ⟨congrArg some h.size, fun hroom => (h.room hroom).2⟩
  | @cons q p l' x hq _ ih =>
    rw [List.length_append] at hsrcsz
    have hpos : 0 < q.length := by
      cases hq with
      | seg _ _ | ff _ _ => exact Nat.succ_pos _
    obtain ⟨st', hrun, hfilled, hsrc', hsrcsz'⟩ := unpackRound_block hq y h hsrc.left (by omega)
    have hround : (unpackRound y st).1 = st' := congrArg Prod.fst hrun
    rw [unpackLoop, if_pos (by omega), if_pos (congrArg Prod.snd hrun), hround, ← List.append_assoc]
    exact ih hfilled (hsrc' ▸ hsrc.right) (by omega)

theorem Filled.start (n : Int) (m : Memory) (srcsz : Int) :
    Filled n m [] ⟨0, srcsz, m, 0, n, 0⟩ where
  size := rfl
  sync := Int.zero_add n
  bound _ _ := rfl
  room _ := ⟨rfl, holds_nil _ _⟩

theorem sprotoUnpack_bound (y : Memory) (srcsz : Nat) (m : Memory) (n : Int) :
    (∀ i : Nat, n ≤ i → (sprotoUnpack y srcsz m n).1 i = m i) ∧
      ∀ m' n', (sprotoUnpack y srcsz m' n').2 = (sprotoUnpack y srcsz m n).2 :=
  ⟨unpackLoop_bound y (.start n m srcsz), fun _ _ => unpackLoop_agrees y ⟨rfl, rfl, rfl⟩⟩

theorem sprotoUnpack_packed {p x : List UInt8} (hp : Packed p x) {y : Memory} (hy : Holds y 0 p)
    (m : Memory) (n : Int) :
    (sprotoUnpack y p.length m n).2 = some x.length ∧
      ((x.length : Int) ≤ n → cells (sprotoUnpack y p.length m n).1 0 x.length = x) := by
  obtain ⟨hresult, hholds⟩ := unpackLoop_packed hp y (.start n m p.length) hy rfl
  exact ⟨hresult, fun hroom => (hholds hroom).cells⟩

end XsServer.Sproto
