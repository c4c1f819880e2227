import XsServer.Sproto.Packing

/-! `sproto_pack` and `sproto_unpack` count in C `int`s, and what they do after one of them leaves
its range is undefined.  As long as none does, packing loses nothing. -/

namespace XsServer.Sproto

open Lib

/-- The loop of `sproto_pack` with its `int`s: the end of the segment, the size of the buffer that
`pack_seg` counts down, and after the segment both sizes. -/
def packLoopInt (x : List UInt8) (i : Nat) (st : PackState) : Option PackState :=
  if i < x.length then
    if i + 8 < 2 ^ 31 ∧ -2 ^ 31 ≤ st.bufsz - 1 then
      (packRound x i st).bind fun st =>
        if st.size < 2 ^ 31 ∧ -2 ^ 31 ≤ st.bufsz then packLoopInt x (i + 8) st else none
    else none
  else some st
  termination_by x.length - i

/-- `sproto_pack` with its `int`s. -/
def sprotoPackInt (x : List UInt8) (mem : Memory) (bufsz : Int) : Option (Memory × Nat) := do
  let st ← packLoopInt x 0 ⟨mem, bufsz, .srcv 0, 0, 0, 0, 0⟩
  let mem ← if st.ffN > 0 then flushFf x st.ffSrcstart st.mem st.ffDesstart st.ffN st.bufsz
    else some st.mem
  return (mem, st.size)

/-- The loop of `sproto_unpack` with its `int`s.  Within a round `size` only grows and `bufsz` only
falls. -/
def unpackLoopInt (y : Memory) (st : UnpackState) : Option (Memory × Option Nat) :=
  if st.srcsz > 0 then
    if (unpackRound y st).1.size < 2 ^ 31 ∧ -2 ^ 31 ≤ (unpackRound y st).1.bufsz then
      if (unpackRound y st).2 then unpackLoopInt y (unpackRound y st).1
      else some ((unpackRound y st).1.mem, none)
    else none
  else some (st.mem, some st.size)
  termination_by st.srcsz.toNat
  decreasing_by
    have := unpackRound_srcsz y st
    omega

/-- `sproto_unpack` with its `int`s. -/
def sprotoUnpackInt (y : Memory) (srcsz : Nat) (mem : Memory) (bufsz : Int) :
    Option (Memory × Option Nat) :=
  unpackLoopInt y ⟨0, srcsz, mem, 0, bufsz, 0⟩

theorem add_flush_le (bs : Blocks) (seg : List UInt8) :
    bs.flush.length ≤ (bs.add seg).flush.length := by
  by_cases hrun : bs.run = []
  · have hdone : bs.flush = bs.done := if_pos hrun
    rw [hdone, Blocks.add, if_pos hrun]
    split
    · unfold Blocks.flush
      split
      · exact Nat.le_refl _
      · exact (List.sublist_append_left ..).length_le
    · rw [flush_nil]
      exact (List.sublist_append_left ..).length_le
  · have hflush : bs.flush = bs.done ++ ffBlock bs.run := if_neg hrun
    rw [Blocks.add, if_neg hrun]
    split
    · rw [hflush, List.length_append, ffBlock_length]
      split
      · rw [flush_nil, List.length_append, ffBlock_length, List.length_append]
        omega
      · rw [flush_run fun hbad => hrun (List.append_eq_nil_iff.mp hbad).1, List.length_append,
          ffBlock_length, List.length_append]
        omega
    · rw [flush_nil]
      exact (List.sublist_append_left ..).length_le

theorem addSegments_flush_le (x : List UInt8) (i : Nat) (bs : Blocks) :
    bs.flush.length ≤ (addSegments x i bs).flush.length := by
  fun_induction addSegments x i bs with
  | case1 i bs _ ih => exact (add_flush_le bs _).trans ih
  | case2 => exact Nat.le_refl _

variable {x : List UInt8} {n : Int} {m : Memory} {i : Nat} {bs : Blocks}

theorem packLoopInt_eq {st : PackState} (h : Packs x n m i bs st) (hn : 0 ≤ n ∧ n < 2 ^ 31)
    (hdvd : 8 ∣ i) (hle : i ≤ (padded x).length) (hi : i < 2 ^ 31)
    (hsize : bs.flush.length < 2 ^ 31) :
    packLoopInt x i st =
      if (padded x).length < 2 ^ 31 ∧ (addSegments x i bs).flush.length < 2 ^ 31
      then packLoop x i st else none := by
  fun_induction addSegments x i bs generalizing st with
  | case1 i bs hlt ih =>
    obtain ⟨st1, hround, hpacks⟩ := packRound_packs h hlt hdvd
    have hend := segment_le hlt hdvd
    have hst := h.size
    have hst1 := hpacks.size
    have hbufsz := h.bufsz
    have hbufsz1 := hpacks.bufsz
    rw [packLoopInt, packLoop, if_pos hlt, if_pos hlt, hround, Option.bind_some, Option.bind_some]
    by_cases hnext : i + 8 < 2 ^ 31
    · rw [if_pos ⟨hnext, by omega⟩]
      by_cases hfits : (bs.add (segment x i)).flush.length < 2 ^ 31
      · rw [if_pos ⟨by omega, by omega⟩]
        exact ih hpacks (Nat.dvd_add hdvd (Nat.dvd_refl 8)) hend hnext hfits
      · have hgrows := addSegments_flush_le x (i + 8) (bs.add (segment x i))
        rw [if_neg fun hbad => hfits (by omega), if_neg fun hbad => by omega]
    · rw [if_neg fun hbad => hnext hbad.1, if_neg fun hbad => by omega]
  | case2 i bs hge =>
    have hpad := padded_length x
    rw [packLoopInt, packLoop, if_neg hge, if_neg hge, if_pos ⟨by omega, hsize⟩]

/-- `sproto_pack` is defined exactly if the padded string and what is packed of it fit into an
`int`. -/
theorem sprotoPackInt_eq (x : List UInt8) (m : Memory) (hn : 0 ≤ n ∧ n < 2 ^ 31) :
    sprotoPackInt x m n =
      if (padded x).length < 2 ^ 31 ∧ (packed x).length < 2 ^ 31
      then sprotoPack x m n else none := by
  have hstart : Packs x n m 0 ⟨[], []⟩ ⟨m, n, .srcv 0, 0, 0, 0, 0⟩ := .start x n m
  unfold sprotoPackInt sprotoPack packed
  rw [packLoopInt_eq hstart hn (Nat.dvd_zero 8) (Nat.zero_le _) (by decide) (by decide)]
  split
  · rfl
  · rfl

/-! ### Unpacking -/

/-- A step counts, and takes no more of the room than it counts. -/
def UnpackState.Takes (st st' : UnpackState) : Prop :=
  st.size ≤ st'.size ∧ (st.size : Int) + st.bufsz ≤ st'.size + st'.bufsz

theorem UnpackState.Takes.trans {st st' st'' : UnpackState} (h : st.Takes st')
    (h' : st'.Takes st'') : st.Takes st'' :=
  ⟨h.1.trans h'.1, h.2.trans h'.2⟩

theorem put_takes (st : UnpackState) (b : UInt8) (src : Nat) (srcsz : Int) :
    st.Takes { st.put b with src := src, srcsz := srcsz, size := (st.put b).size + 1 } := by
  unfold UnpackState.Takes UnpackState.put
  dsimp only
  split <;> omega

theorem unpackBits_takes (y : Memory) (header : UInt8) (k : Nat) (st : UnpackState) :
    st.Takes (unpackBits y header k st).1 := by
  induction k generalizing st with
  | zero => exact ⟨Nat.le_refl _, Int.le_refl _⟩
  | succ k ih =>
    rw [unpackBits]
    split
    · split
      · exact ⟨Nat.le_refl _, Int.le_refl _⟩
      · exact (put_takes st (y st.src) (st.src + 1) (st.srcsz - 1)).trans (ih _)
    · exact (put_takes st 0 st.src st.srcsz).trans (ih _)

theorem unpackRound_takes (y : Memory) (st : UnpackState) : st.Takes (unpackRound y st).1 := by
  unfold unpackRound
  dsimp only
  split
  · unfold unpackFf UnpackState.Takes
    dsimp only
    split
    · exact ⟨Nat.le_refl _, Int.le_refl _⟩
    · split
      · exact ⟨Nat.le_refl _, Int.le_refl _⟩
      · dsimp only
        omega
  · exact unpackBits_takes y _ 8 { st with srcsz := st.srcsz - 1, src := st.src + 1 }

/-- No more of the room is taken than was counted. -/
def UnpackState.Room (st : UnpackState) : Prop := 0 ≤ (st.size : Int) + st.bufsz

theorem UnpackState.Takes.room {st st' : UnpackState} (h : st.Takes st') (hroom : st.Room) :
    st'.Room :=
  Int.le_trans hroom h.2

variable {st : UnpackState}

theorem UnpackState.Room.fits_iff (h : st.Room) :
    st.size < 2 ^ 31 ∧ -2 ^ 31 ≤ st.bufsz ↔ st.size < 2 ^ 31 := by
  unfold UnpackState.Room at h
  omega

variable {y : Memory}

theorem unpackLoop_size {k : Nat} (h : (unpackLoop y st).2 = some k) :
    st.size ≤ k := by
  fun_induction unpackLoop y st with
  | case1 st _ _ ih => exact (unpackRound_takes y st).1.trans (ih h)
  | case2 => cases h
  | case3 st => exact (Option.some.inj h).le

theorem unpackLoopInt_some {r : Memory × Option Nat}
    (h : unpackLoopInt y st = some r) : unpackLoop y st = r := by
  fun_induction unpackLoopInt y st with
  | case1 st hmore _ hok ih =>
    rw [unpackLoop, if_pos hmore, if_pos hok]
    exact ih h
  | case2 st hmore _ hbad =>
    rw [unpackLoop, if_pos hmore, if_neg hbad]
    exact Option.some.inj h
  | case3 => cases h
  | case4 st hdone =>
    rw [unpackLoop, if_neg hdone]
    exact Option.some.inj h

theorem unpackLoopInt_result {k : Nat} (hroom : st.Room)
    (h : (unpackLoop y st).2 = some k) (hk : k < 2 ^ 31) :
    unpackLoopInt y st = some (unpackLoop y st) := by
  fun_induction unpackLoop y st with
  | case1 st hmore hok ih =>
    have hnext := (unpackRound_takes y st).room hroom
    have hsize := unpackLoop_size h
    rw [unpackLoopInt, if_pos hmore, if_pos (hnext.fits_iff.mpr (by omega)), if_pos hok]
    exact ih hnext h
  | case2 => cases h
  | case3 st hdone => rw [unpackLoopInt, if_neg hdone]

theorem unpackLoopInt_agrees {st st' : UnpackState} (h : st.Agrees st') (hroom : st.Room)
    (hroom' : st'.Room) :
    (unpackLoopInt y st').map Prod.snd = (unpackLoopInt y st).map Prod.snd := by
  fun_induction unpackLoopInt y st generalizing st' with
  | case1 st hmore hint hok ih =>
    obtain ⟨hagrees, hflag⟩ := unpackRound_agrees y h
    have hnext := (unpackRound_takes y st).room hroom
    have hnext' := (unpackRound_takes y st').room hroom'
    have hsize := hnext.fits_iff.mp hint
    rw [unpackLoopInt, if_pos (h.2.1 ▸ hmore),
      if_pos (hnext'.fits_iff.mpr (hagrees.2.2 ▸ hsize)), if_pos (hflag.trans hok)]
    exact ih hagrees hnext hnext'
  | case2 st hmore hint hbad =>
    obtain ⟨hagrees, hflag⟩ := unpackRound_agrees y h
    have hsize := ((unpackRound_takes y st).room hroom).fits_iff.mp hint
    have hnext' := (unpackRound_takes y st').room hroom'
    rw [unpackLoopInt, if_pos (h.2.1 ▸ hmore),
      if_pos (hnext'.fits_iff.mpr (hagrees.2.2 ▸ hsize)), if_neg (hflag ▸ hbad)]
    rfl
  | case3 st hmore hint =>
    obtain ⟨hagrees, -⟩ := unpackRound_agrees y h
    have hnext := (unpackRound_takes y st).room hroom
    have hnext' := (unpackRound_takes y st').room hroom'
    rw [unpackLoopInt, if_pos (h.2.1 ▸ hmore), if_neg fun hbad => hint (hnext.fits_iff.mpr
      (hagrees.2.2 ▸ hnext'.fits_iff.mp hbad))]
  | case4 st hdone =>
    rw [unpackLoopInt, if_neg (h.2.1 ▸ hdone)]
    exact congrArg (some ∘ some) h.2.2

/-- Packing loses nothing, of a string that fits into an `int` with its zeros and packed: the packed
bytes, which do not depend on the buffer, unpack to the string with zeros up to a multiple of eight
bytes. The results do not depend on the room in a buffer, and nothing is written after it, whatever
is unpacked. -/
theorem pack_lossless (x : List UInt8) (hpadded : (padded x).length < 2 ^ 31)
    (hpacked : (packed x).length < 2 ^ 31) :
    (∀ (n : Int) (m : Memory), 0 ≤ n ∧ n < 2 ^ 31 →
        ∃ m', sprotoPackInt x m n = some (m', (packed x).length) ∧ (∀ j : Nat, n ≤ j → m' j = m j) ∧
          (((packed x).length : Int) ≤ n → cells m' 0 (packed x).length = packed x)) ∧
      (∀ (y : Memory), cells y 0 (packed x).length = packed x → ∀ (n : Int) (m : Memory),
        0 ≤ n ∧ n < 2 ^ 31 → ∃ m', sprotoUnpackInt y (packed x).length m n =
            some (m', some (padded x).length) ∧ (∀ j : Nat, n ≤ j → m' j = m j) ∧
          (((padded x).length : Int) ≤ n → cells m' 0 (padded x).length = padded x)) ∧
      ∀ (y : Memory) (srcsz : Nat) (n : Int) (m : Memory) (r : Memory × Option Nat),
        0 ≤ n ∧ n < 2 ^ 31 → sprotoUnpackInt y srcsz m n = some r →
          (∀ j : Nat, n ≤ j → r.1 j = m j) ∧ ∀ (n' : Int) (m' : Memory), 0 ≤ n' ∧ n' < 2 ^ 31 →
            ∃ r', sprotoUnpackInt y srcsz m' n' = some r' ∧ r'.2 = r.2 := by
  have hroom (srcsz : Nat) (n : Int) (m : Memory) (hn : 0 ≤ n ∧ n < 2 ^ 31) :
      UnpackState.Room ⟨0, srcsz, m, 0, n, 0⟩ := by unfold UnpackState.Room; dsimp only; omega
  refine ⟨fun n m hn => ?_, fun y hy n m hn => ?_, fun y srcsz n m r hn hrun => ?_⟩
  · obtain ⟨m', hpack, hbound, hholds⟩ := sprotoPack_packed x n m
    refine ⟨m', ?_, hbound, fun hfits => (hholds hfits).cells⟩
    rw [sprotoPackInt_eq x m hn, if_pos ⟨hpadded, hpacked⟩, hpack]
  · obtain ⟨hresult, hcells⟩ := sprotoUnpack_packed (packed_stands x) (hy ▸ holds_cells y 0 _) m n
    have hrun := unpackLoopInt_result (hroom (packed x).length n m hn) hresult hpadded
    refine ⟨(sprotoUnpack y (packed x).length m n).1, hrun.trans ?_,
      (sprotoUnpack_bound y _ m n).1, hcells⟩
    rw [← hresult]
    rfl
  · have heq : sprotoUnpack y srcsz m n = r := unpackLoopInt_some hrun
    refine ⟨heq ▸ (sprotoUnpack_bound y srcsz m n).1, fun n' m' hn' => ?_⟩
    have hagrees : (sprotoUnpackInt y srcsz m' n').map Prod.snd =
        (sprotoUnpackInt y srcsz m n).map Prod.snd :=
      unpackLoopInt_agrees ⟨rfl, rfl, rfl⟩ (hroom srcsz n m hn) (hroom srcsz n' m' hn')
    rw [hrun] at hagrees
    exact Option.map_eq_some_iff.mp hagrees

/-- Nine bytes in two segments. -/
theorem pack_lossless_nine : ∃ y m', cells y 0 4 = [0x05, 1, 2, 0] ∧
    sprotoUnpackInt y 4 (fun _ => 7) 16 = some (m', some 16) ∧
    cells m' 0 16 = [1, 0, 2, 0, 0, 0, 0, 0, 0, 0, 0, 0, 0, 0, 0, 0] := by
  have hpacked : packed [1, 0, 2, 0, 0, 0, 0, 0, 0] = [0x05, 1, 2, 0] := by
    simp [packed, addSegments, segment, Blocks.add, nonzero, segBlock, header, Blocks.flush]
    decide
  have hpadded : padded [1, 0, 2, 0, 0, 0, 0, 0, 0] =
      [1, 0, 2, 0, 0, 0, 0, 0, 0, 0, 0, 0, 0, 0, 0, 0] :=
    rfl
  obtain ⟨-, hunpack, -⟩ := pack_lossless [1, 0, 2, 0, 0, 0, 0, 0, 0] (by rw [hpadded]; decide)
    (by rw [hpacked]; decide)
  rw [hpacked, hpadded] at hunpack
  let y : Memory := fun j => ([0x05, 1, 2, 0] : List UInt8).getD j 0
  obtain ⟨m', hrun, -, hcells⟩ := hunpack y (by decide) 16 (fun _ => 7) (by decide)
  exact ⟨y, m', by decide, hrun, hcells (by decide)⟩

/-- For the last of 2 ^ 31 - 7 bytes the loop counts to 2 ^ 31. -/
theorem pack_overflows : (List.replicate (2 ^ 31 - 7) (0 : UInt8)).length < 2 ^ 31 ∧
    ∀ (n : Int) (m : Memory), 0 ≤ n ∧ n < 2 ^ 31 →
      sprotoPackInt (List.replicate (2 ^ 31 - 7) 0) m n = none := by
  refine ⟨by rw [List.length_replicate]; decide, fun n m hn => ?_⟩
  rw [sprotoPackInt_eq _ m hn, padded_length, List.length_replicate]
  exact if_neg fun hbad => absurd hbad.1 (by decide)

end XsServer.Sproto
