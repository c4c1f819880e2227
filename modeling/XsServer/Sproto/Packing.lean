import XsServer.Sproto.Unpacking

/-! `sproto_pack` writes what packing makes of a string, inside its buffer. -/

namespace XsServer.Sproto

open Lib

/-- What the loop of `pack_seg` has written of the bytes `out`, from `buffer` on. -/
structure Putting (m : Memory) (buffer : Nat) (sz : Int) (out : List UInt8) (st : PackBytes) :
    Prop where
  sync : (st.buffer : Int) + st.sz = buffer + sz
  before : ∀ j < buffer, st.mem j = m j
  le : buffer ≤ st.buffer
  after : ∀ j : Nat, (buffer : Int) + sz ≤ j → st.mem j = m j
  room : (out.length : Int) ≤ sz → st.buffer = buffer + out.length ∧ Holds st.mem buffer out

theorem packBytes_putting {m : Memory} {buffer : Nat} {sz : Int} {out : List UInt8}
    (seg : List UInt8) (i : Nat) {st : PackBytes} (h : Putting m buffer sz out st) :
    Putting m buffer sz (out ++ nonzero seg) (packBytes seg i st) := by
  induction seg generalizing i out st with
  | nil => rwa [nonzero, List.filter_nil, List.append_nil]
  | cons b seg ih =>
    rw [packBytes]
    split
    · rename_i hb
      have hnz : nonzero (b :: seg) = [b] ++ nonzero seg := List.filter_cons_of_pos (by simp [hb])
      rw [hnz, ← List.append_assoc]
      apply ih
      obtain ⟨hsync, hbefore, hle, hafter, hroom⟩ := h
      by_cases hpos : st.sz > 0
      · simp only [if_pos hpos]
        constructor
        · dsimp only
          omega
        · intro j hj
          dsimp only
          rw [write_before (by omega)]
          exact hbefore j hj
        · dsimp only
          omega
        · intro j hj
          dsimp only
          rw [write_after (by rw [List.length_singleton]; omega)]
          exact hafter j hj
        · intro hlen
          rw [List.length_append, List.length_singleton] at hlen ⊢
          obtain ⟨hat, hholds⟩ := hroom (by omega)
          dsimp only
          refine ⟨by omega, Holds.append (hholds.write (.inl (by omega))) ?_⟩
          rw [hat]
          exact holds_write _ _ _
      · simp only [if_neg hpos]
        refine ⟨hsync, hbefore, hle, hafter, fun hlen => ?_⟩
        rw [List.length_append, List.length_singleton] at hlen
        obtain ⟨hat, -⟩ := hroom (by omega)
        omega
    · rename_i hb
      have hnz : nonzero (b :: seg) = nonzero seg := List.filter_cons_of_neg (by simpa using hb)
      rw [hnz]
      exact ih _ h

theorem packBytes_header (seg : List UInt8) (i : Nat) (st : PackBytes) :
    (packBytes seg i st).header = st.header ||| header seg i ∧
      (packBytes seg i st).notzero = st.notzero + (nonzero seg).length := by
  induction seg generalizing i st with
  | nil => exact ⟨UInt8.or_zero.symm, rfl⟩
  | cons b seg ih =>
    rw [packBytes, header]
    split
    · rename_i hb
      have hnz : nonzero (b :: seg) = b :: nonzero seg := List.filter_cons_of_pos (by simp [hb])
      obtain ⟨hheader, hnotzero⟩ :=
        ih (i + 1) ⟨if st.sz > 0 then write st.mem st.buffer [b] else st.mem,
        if st.sz > 0 then st.buffer + 1 else st.buffer, if st.sz > 0 then st.sz - 1 else st.sz,
        st.header ||| 1 <<< UInt8.ofNat i, st.notzero + 1⟩
      refine ⟨?_, ?_⟩
      · rw [hheader, UInt8.or_assoc]
      · rw [hnotzero, hnz, List.length_cons]
        dsimp only
        omega
    · rename_i hb
      have hnz : nonzero (b :: seg) = nonzero seg := List.filter_cons_of_neg (by simpa using hb)
      obtain ⟨hheader, hnotzero⟩ := ih (i + 1) st
      refine ⟨?_, ?_⟩
      · rw [hheader, UInt8.zero_or]
      · rw [hnotzero, hnz]

/-- What `pack_seg` comes to. -/
structure PackedSeg (seg : List UInt8) (m : Memory) (buffer : Nat) (sz : Int) (n : Nat)
    (r : Memory × Nat) : Prop where
  before : ∀ j < buffer, r.1 j = m j
  after : ∀ j : Nat, (buffer : Int) + sz ≤ j → r.1 j = m j
  result : r.2 = if n > 0 ∧ (nonzero seg).length ≥ 6 then 8
    else if (nonzero seg).length = 8 then 10 else (segBlock seg).length
  block : (n = 0 ∨ (nonzero seg).length < 6) → (nonzero seg).length ≠ 8 →
    ((segBlock seg).length : Int) ≤ sz → Holds r.1 buffer (segBlock seg)

theorem packSeg_packed (seg : List UInt8) (hlen : seg.length = 8) (m : Memory) (buffer : Nat)
    (sz : Int) (n : Nat) : PackedSeg seg m buffer sz n (packSeg seg m buffer sz n) := by
  have hstart : Putting m (buffer + 1) (sz - 1) [] ⟨m, buffer + 1, sz - 1, 0, 0⟩ :=
    ⟨rfl, fun _ _ => rfl, Nat.le_refl _, fun _ _ => rfl, fun _ => ⟨rfl, holds_nil _ _⟩⟩
  have hput := packBytes_putting seg 0 hstart
  obtain ⟨hheader, hnotzero⟩ := packBytes_header seg 0 ⟨m, buffer + 1, sz - 1, 0, 0⟩
  have hle : (nonzero seg).length ≤ 8 := hlen ▸ List.length_filter_le ..
  have hblock : (segBlock seg).length = (nonzero seg).length + 1 := List.length_cons
  rw [List.nil_append] at hput
  dsimp only at hheader hnotzero
  rw [UInt8.zero_or] at hheader
  rw [Nat.zero_add] at hnotzero
  unfold packSeg
  dsimp only
  generalize packBytes seg 0 ⟨m, buffer + 1, sz - 1, 0, 0⟩ = st at hput hheader hnotzero
  rw [hheader, hnotzero]
  obtain ⟨-, hbefore, -, hafter, hroom⟩ := hput
  have hafter' : ∀ j : Nat, (buffer : Int) + sz ≤ j → st.mem j = m j := fun j hj => by
    apply hafter
    rw [Nat.cast_add]
    omega
  by_cases hff : (if ((nonzero seg).length = 7 ∨ (nonzero seg).length = 6) ∧ n > 0 then 8
      else (nonzero seg).length) = 8
  · rw [if_pos hff]
    refine ⟨fun j hj => hbefore j (by omega), hafter', ?_, fun hn hne => ?_⟩
    · split at hff
      · split_ifs <;> omega
      · split_ifs <;> omega
    · split at hff <;> omega
  · rw [if_neg hff]
    have hcount : (if ((nonzero seg).length = 7 ∨ (nonzero seg).length = 6) ∧ n > 0 then 8
        else (nonzero seg).length) = (nonzero seg).length := if_neg fun hbad => hff (if_pos hbad)
    have hne : (nonzero seg).length ≠ 8 := hcount ▸ hff
    have hshort : ¬ (n > 0 ∧ (nonzero seg).length ≥ 6) := fun hbad => by
      split at hff <;> omega
    rw [hcount]
    refine ⟨fun j hj => ?_, fun j hj => ?_, ?_, fun _ _ hsz => ?_⟩
    · dsimp only
      split
      · exact hbefore j (by omega)
      · rw [write_before hj]
        exact hbefore j (by omega)
    · dsimp only
      split
      · exact hafter' j hj
      · rw [write_after (by rw [List.length_singleton]; omega)]
        exact hafter' j hj
    · rw [if_neg hshort, if_neg hne, hblock]
    · rw [hblock] at hsz
      dsimp only
      rw [if_neg (by omega)]
      refine Holds.append (l := [header seg 0]) (holds_write _ _ _) ?_
      exact (hroom (by omega)).2.write (.inr (Nat.le_refl _))

/-- The `k` segments from `i` on. -/
def part (x : List UInt8) (i k : Nat) : List UInt8 := ((padded x).drop i).take (k * 8)

theorem part_length {x : List UInt8} {i k : Nat} (hend : i + k * 8 ≤ (padded x).length) :
    (part x i k).length = k * 8 := by
  rw [part, List.length_take, List.length_drop]
  omega

theorem ffBlock_length (run : List UInt8) : (ffBlock run).length = run.length + 2 := rfl

theorem writeFf_holds {x : List UInt8} {i k : Nat} (hi : i ≤ x.length)
    (hend : i + k * 8 ≤ (padded x).length) (m : Memory) (des : Nat) :
    ∃ m', writeFf x (.srcv i) m des k = some m' ∧ (∀ j < des, m' j = m j) ∧
      (∀ j, des + (ffBlock (part x i k)).length ≤ j → m' j = m j) ∧
      Holds m' des (ffBlock (part x i k)) := by
  have hlen := part_length hend
  have hpart := padded_part hi hend
  change part x i k = _ at hpart
  have hhead : ffBlock (part x i k) = [0xff, UInt8.ofNat (k - 1)] ++ part x i k := by
    rw [ffBlock, hlen, Nat.mul_div_cancel _ (by decide)]
    rfl
  have hblock := ffBlock_length (part x i k)
  rw [hlen] at hblock
  rw [hblock]
  unfold writeFf
  dsimp only
  split
  · rename_i hfit
    have hdata : (x.drop i).take (k * 8) = part x i k := by
      rw [hpart, show i + k * 8 - x.length = 0 by omega, List.replicate_zero, List.append_nil]
    refine ⟨_, rfl, fun j hj => ?_, fun j hj => ?_, ?_⟩
    · rw [write_before (by omega), write_before hj]
    · rw [hdata, write_after (by omega), write_after (by dsimp only [List.length]; omega)]
    · rw [hdata, hhead]
      exact Holds.append ((holds_write _ _ _).write (.inl (Nat.le_refl _))) (holds_write _ _ _)
  · rename_i hfit
    have hrest : (x.drop i).length = x.length - i := List.length_drop
    have hdata : part x i k = x.drop i ++ List.replicate (k * 8 - (x.length - i)) 0 := by
      rw [hpart, List.take_of_length_le (by omega)]
      congr 2
      omega
    refine ⟨_, rfl, fun j hj => ?_, fun j hj => ?_, ?_⟩
    · rw [write_before (by omega), write_before (by omega), write_before hj]
    · rw [write_after (by rw [List.length_replicate]; omega), write_after (by omega),
        write_after (by dsimp only [List.length]; omega)]
    · rw [hhead, hdata]
      refine Holds.append (((holds_write _ _ _).write (.inl (Nat.le_refl _))).write (.inl ?_)) ?_
      · dsimp only [List.length]
        omega
      · refine Holds.append ((holds_write _ _ _).write (.inl ?_)) ?_
        · omega
        · rw [hrest]
          exact holds_write _ _ _

theorem nonzero_segment {x : List UInt8} {i : Nat} (hi : i < x.length)
    (h : (nonzero (segment x i)).length = 8) : i + 8 ≤ x.length := by
  by_contra hbad
  have hall : nonzero (segment x i) = segment x i :=
    (List.filter_sublist).eq_of_length (h.trans (segment_length hi).symm)
  have hzero : (0 : UInt8) ∈ segment x i := by
    apply List.mem_append_right
    rw [List.mem_replicate]
    exact ⟨by omega, rfl⟩
  have hne := List.filter_eq_self.mp hall 0 hzero
  exact absurd rfl (of_decide_eq_true hne)

/-! ### The loop -/

/-- The state of `sproto_pack` with a buffer of `n` bytes, when `bs` was packed of the first `i`. -/
structure Packs (x : List UInt8) (n : Int) (m : Memory) (i : Nat) (bs : Blocks) (st : PackState) :
    Prop where
  run : bs.run.length = st.ffN * 8
  size : st.size = bs.flush.length
  buffer : st.buffer = st.size
  bufsz : st.bufsz = n - st.size
  ff : st.ffN > 0 → st.ffDesstart = bs.done.length ∧
    ∃ k, st.ffSrcstart = .srcv k ∧ k + st.ffN * 8 = i ∧ bs.run = part x k st.ffN
  bound : ∀ j : Nat, n ≤ j → st.mem j = m j
  done : (st.size : Int) ≤ n → Holds st.mem 0 bs.done

theorem flush_nil (done : List UInt8) : Blocks.flush ⟨done, []⟩ = done := if_pos rfl

theorem flush_run {done run : List UInt8} (h : run ≠ []) :
    Blocks.flush ⟨done, run⟩ = done ++ ffBlock run := if_neg h

variable {x : List UInt8} {n : Int} {m : Memory} {i : Nat} {bs : Blocks} {st : PackState}

theorem Packs.run_nil (h : Packs x n m i bs st) : bs.run = [] ↔ st.ffN = 0 := by
  rw [← List.length_eq_zero_iff, h.run]
  omega

theorem part_succ {k l : Nat} (hi : k + l * 8 < x.length) (hdvd : 8 ∣ k) :
    part x k (l + 1) = part x k l ++ segment x (k + l * 8) := by
  rw [segment_eq hi (by omega), part, part, Nat.succ_mul, List.take_add, List.drop_drop]

theorem flush_mem {k l des size : Nat} {bufsz : Int} {mem : Memory} (hk : k ≤ x.length)
    (hend : k + l * 8 ≤ (padded x).length) (hsize : bufsz = n - size)
    (hroom : des + (l * 8 + 2) ≤ size) (hbound : ∀ j : Nat, n ≤ j → mem j = m j) :
    ∃ mem', flushFf x (.srcv k) mem des l bufsz = some mem' ∧
      (∀ j < des, mem' j = mem j) ∧ (∀ j, des + (l * 8 + 2) ≤ j → mem' j = mem j) ∧
      (∀ j : Nat, n ≤ j → mem' j = m j) ∧
      (bufsz ≥ 0 → Holds mem' des (ffBlock (part x k l))) := by
  have hlen : (ffBlock (part x k l)).length = l * 8 + 2 := by rw [ffBlock_length, part_length hend]
  unfold flushFf
  by_cases hpos : bufsz ≥ 0
  · rw [if_pos hpos]
    obtain ⟨mem', hwrite, hbefore, hafter, hholds⟩ := writeFf_holds hk hend mem des
    rw [hlen] at hafter
    refine ⟨mem', hwrite, hbefore, hafter, fun j hj => ?_, fun _ => hholds⟩
    rw [hafter j (by omega)]
    exact hbound j hj
  · rw [if_neg hpos]
    exact ⟨mem, rfl, fun _ _ => rfl, fun _ _ => rfl, hbound, fun hbad => absurd hbad hpos⟩

theorem segment_le (hi : i < x.length) (hdvd : 8 ∣ i) : i + 8 ≤ (padded x).length := by
  rw [padded_length]
  omega

theorem packRound_packs (h : Packs x n m i bs st) (hi : i < x.length) (hdvd : 8 ∣ i) :
    ∃ st', packRound x i st = some st' ∧ Packs x n m (i + 8) (bs.add (segment x i)) st' := by
  have hseg := packSeg_packed (segment x i) (segment_length hi) st.mem st.buffer st.bufsz st.ffN
  have hpad := segment_le hi hdvd
  have hlen := segment_length hi
  have hsync : (st.buffer : Int) + st.bufsz = n := by
    rw [h.buffer, h.bufsz]
    omega
  unfold packRound
  generalize packSeg (segment x i) st.mem st.buffer st.bufsz st.ffN = r at hseg
  obtain ⟨mem, k⟩ := r
  obtain ⟨hbefore, hafter, hresult, hblock⟩ := hseg
  dsimp only at hbefore hafter hresult hblock ⊢
  have hbound : ∀ j : Nat, n ≤ j → mem j = m j := fun j hj => by
    rw [hafter j (by omega)]
    exact h.bound j hj
  have hkeep : ∀ l : List UInt8, l.length ≤ st.size → Holds st.mem 0 l → Holds mem 0 l :=
    fun l hl hholds => hholds.congr fun j _ hj => hbefore j (by rw [h.buffer]; omega)
  have hle : (nonzero (segment x i)).length ≤ 8 := hlen ▸ List.length_filter_le ..
  have hseglen : (segBlock (segment x i)).length = (nonzero (segment x i)).length + 1 :=
    List.length_cons
  have hsize := h.size
  have hbuffer := h.buffer
  have hbufsz := h.bufsz
  by_cases hrun : bs.run = []
  · have hffN := h.run_nil.mp hrun
    have hdone : bs.flush = bs.done := if_pos hrun
    rw [hdone] at hsize
    by_cases hfull : (nonzero (segment x i)).length = 8
    · -- the first of whole segments
      have hk : k = 10 := by rw [hresult, if_neg (by omega), if_pos hfull]
      have hinside := nonzero_segment hi hfull
      have hadd : bs.add (segment x i) = ⟨bs.done, segment x i⟩ := by
        rw [Blocks.add, if_pos hrun, if_pos hfull]
      have hne : segment x i ≠ [] := fun hbad => by
        rw [hbad] at hlen
        exact absurd hlen (by decide)
      rw [if_pos hk, if_neg (by omega), hadd]
      refine ⟨_, rfl, ?_⟩
      constructor
      · exact hlen
      · dsimp only
        rw [flush_run hne, List.length_append, ffBlock_length, hlen, hk, hsize]
      · dsimp only
        omega
      · dsimp only
        omega
      · intro _
        refine ⟨by dsimp only; omega, i, rfl, rfl, ?_⟩
        dsimp only
        rw [segment_eq hi hdvd]
        rfl
      · exact hbound
      · intro hroom
        dsimp only at hroom
        exact hkeep _ hsize.ge (h.done (by omega))
    · have hk : k = (segBlock (segment x i)).length := by
        rw [hresult, if_neg (by omega), if_neg hfull]
      have hadd : bs.add (segment x i) = ⟨bs.done ++ segBlock (segment x i), []⟩ := by
        rw [Blocks.add, if_pos hrun, if_neg hfull]
      rw [if_neg (by omega), if_neg (by omega), if_neg (by omega), hadd]
      refine ⟨_, rfl, ?_⟩
      constructor
      · dsimp only
        rw [hffN]
        rfl
      · dsimp only
        rw [flush_nil, List.length_append, hk, hsize]
      · dsimp only
        omega
      · dsimp only
        omega
      · dsimp only
        exact fun hbad => absurd hffN (by omega)
      · exact hbound
      · intro hroom
        dsimp only at hroom ⊢
        refine (hkeep _ hsize.ge (h.done (by omega))).append ?_
        have hholds := hblock (.inl hffN) hfull (by omega)
        rwa [Nat.zero_add, ← hsize, ← hbuffer]
  · have hpos : st.ffN > 0 := Nat.pos_of_ne_zero fun hbad => hrun (h.run_nil.mpr hbad)
    obtain ⟨hdes, k0, hsrc, hk0, hpart⟩ := h.ff hpos
    have hflush : bs.flush = bs.done ++ ffBlock bs.run := if_neg hrun
    have hrunlen := h.run
    rw [hflush, List.length_append, ffBlock_length, hrunlen] at hsize
    rw [hsrc, hdes]
    by_cases hfull : (nonzero (segment x i)).length ≥ 6
    · have hk : k = 8 := by rw [hresult, if_pos ⟨hpos, hfull⟩]
      have hnext : part x k0 (st.ffN + 1) = bs.run ++ segment x i := by
        rw [part_succ (by omega) (by omega), ← hpart, hk0]
      rw [if_neg (by omega), if_pos ⟨hk, hpos⟩]
      by_cases hlast : st.ffN + 1 = 256
      · -- the last that one block can hold
        have hadd : bs.add (segment x i) = ⟨bs.done ++ ffBlock (bs.run ++ segment x i), []⟩ := by
          rw [Blocks.add, if_neg hrun, if_pos hfull, if_pos (by omega)]
        obtain ⟨mem', hwrite, hbefore', -, hbound', hholds⟩ :=
          @flush_mem x n m k0 256 bs.done.length (st.size + k) (st.bufsz - k) mem (by omega)
            (by omega) (by omega) (by omega) hbound
        rw [hlast] at hnext
        rw [if_pos hlast, hwrite, hadd]
        refine ⟨_, rfl, ?_⟩
        constructor
        · rfl
        · dsimp only
          rw [flush_nil, List.length_append, ffBlock_length, List.length_append, hlen, hrunlen]
          omega
        · dsimp only
          omega
        · dsimp only
          omega
        · exact fun hbad => absurd hbad (Nat.lt_irrefl 0)
        · exact hbound'
        · intro hroom
          dsimp only at hroom ⊢
          refine Holds.append ?_ ?_
          · refine (hkeep _ (by omega) (h.done (by omega))).congr fun j _ hj =>
              hbefore' j (by omega)
          · rw [Nat.zero_add, ← hnext]
            exact hholds (by omega)
      · have hadd : bs.add (segment x i) = ⟨bs.done, bs.run ++ segment x i⟩ := by
          rw [Blocks.add, if_neg hrun, if_pos hfull, if_neg (by omega)]
        have hne : bs.run ++ segment x i ≠ [] := fun hbad => hrun (List.append_eq_nil_iff.mp hbad).1
        rw [if_neg hlast, hadd]
        refine ⟨_, rfl, ?_⟩
        constructor
        · dsimp only
          rw [List.length_append, hrunlen, hlen]
          omega
        · dsimp only
          rw [flush_run hne, List.length_append, ffBlock_length, List.length_append, hlen, hrunlen]
          omega
        · dsimp only
          omega
        · dsimp only
          omega
        · exact fun _ => ⟨rfl, k0, rfl, by dsimp only; omega, hnext.symm⟩
        · exact hbound
        · intro hroom
          dsimp only at hroom ⊢
          exact hkeep _ (by omega) (h.done (by omega))
    · have hk : k = (segBlock (segment x i)).length := by
        rw [hresult, if_neg (by omega), if_neg (by omega)]
      have hadd : bs.add (segment x i) = ⟨bs.flush ++ segBlock (segment x i), []⟩ := by
        rw [Blocks.add, if_neg hrun, if_neg hfull]
      obtain ⟨mem', hwrite, hbefore', hafter', hbound', hholds⟩ :=
        @flush_mem x n m k0 st.ffN bs.done.length (st.size + k) (st.bufsz - k) mem (by omega)
          (by omega) (by omega) (by omega) hbound
      rw [if_neg (by omega), if_neg (by omega), if_pos hpos, hwrite, hadd]
      refine ⟨_, rfl, ?_⟩
      constructor
      · rfl
      · dsimp only
        rw [flush_nil, List.length_append, hflush, List.length_append, ffBlock_length, hrunlen, hk]
        omega
      · dsimp only
        omega
      · dsimp only
        omega
      · exact fun hbad => absurd hbad (Nat.lt_irrefl 0)
      · exact hbound'
      · intro hroom
        dsimp only at hroom ⊢
        rw [hflush]
        refine Holds.append (Holds.append ?_ ?_) ?_
        · exact (hkeep _ (by omega) (h.done (by omega))).congr fun j _ hj => hbefore' j (by omega)
        · rw [Nat.zero_add, hpart]
          exact hholds (by omega)
        · rw [Nat.zero_add, List.length_append, ffBlock_length, hrunlen]
          have hnew := hblock (.inr (by omega)) (by omega) (by omega)
          have hat : st.buffer = bs.done.length + (st.ffN * 8 + 2) := by omega
          rw [hat] at hnew
          exact hnew.congr fun j hj _ => hafter' j hj

theorem packLoop_packs (h : Packs x n m i bs st) (hdvd : 8 ∣ i) (hle : i ≤ (padded x).length) :
    ∃ st' j, packLoop x i st = some st' ∧ j ≤ (padded x).length ∧ x.length ≤ j ∧
      Packs x n m j (addSegments x i bs) st' := by
  fun_induction addSegments x i bs generalizing st with
  | case1 i bs hi ih =>
    obtain ⟨st1, hround, hpacks⟩ := packRound_packs h hi hdvd
    obtain ⟨st', j, hloop, hj⟩ :=
      ih hpacks (Nat.dvd_add hdvd (Nat.dvd_refl 8)) (segment_le hi hdvd)
    refine ⟨st', j, ?_, hj⟩
    rw [packLoop, if_pos hi, hround]
    exact hloop
  | case2 i bs hi =>
    refine ⟨st, i, ?_, hle, by omega, h⟩
    rw [packLoop, if_neg hi]

theorem Packs.start (x : List UInt8) (n : Int) (m : Memory) :
    Packs x n m 0 ⟨[], []⟩ ⟨m, n, .srcv 0, 0, 0, 0, 0⟩ :=
  ⟨rfl, rfl, rfl, (Int.sub_zero n).symm, fun hbad => absurd hbad (Nat.lt_irrefl 0), fun _ _ => rfl,
    fun _ => holds_nil _ _⟩

theorem sprotoPack_packed (x : List UInt8) (n : Int) (m : Memory) :
    ∃ m', sprotoPack x m n = some (m', (packed x).length) ∧ (∀ j : Nat, n ≤ j → m' j = m j) ∧
      (((packed x).length : Int) ≤ n → Holds m' 0 (packed x)) := by
  obtain ⟨st, i, hloop, hle, hend, h⟩ :=
    packLoop_packs (.start x n m) (Nat.dvd_zero 8) (Nat.zero_le _)
  have hsize := h.size
  have hbufsz := h.bufsz
  have hrunlen := h.run
  have hpad := padded_length x
  change st.size = (packed x).length at hsize
  unfold sprotoPack
  rw [hloop]
  dsimp only [bind, Option.bind]
  unfold packed at hsize ⊢
  generalize addSegments x 0 ⟨[], []⟩ = bs at h hsize hrunlen ⊢
  by_cases hpos : st.ffN > 0
  · obtain ⟨hdes, k, hsrc, hk, hpart⟩ := h.ff hpos
    have hne : bs.run ≠ [] := fun hbad => absurd (h.run_nil.mp hbad) (by omega)
    have hflush : bs.flush = bs.done ++ ffBlock bs.run := if_neg hne
    rw [hflush, List.length_append, ffBlock_length, hrunlen] at hsize
    obtain ⟨mem', hwrite, hbefore, -, hbound, hholds⟩ :=
      @flush_mem x n m k st.ffN bs.done.length st.size st.bufsz st.mem (by omega) (by omega)
        (by omega) (by omega) h.bound
    rw [if_pos hpos, hsrc, hdes, hwrite]
    refine ⟨mem', ?_, hbound, fun hroom => ?_⟩
    · rw [hflush, List.length_append, ffBlock_length, hrunlen, hsize]
      rfl
    · rw [hflush, List.length_append, ffBlock_length, hrunlen] at hroom
      rw [hflush]
      refine Holds.append ((h.done (by omega)).congr fun j _ hj => hbefore j (by omega)) ?_
      rw [Nat.zero_add, hpart]
      exact hholds (by omega)
  · have hnil : bs.run = [] := h.run_nil.mpr (by omega)
    have hflush : bs.flush = bs.done := if_pos hnil
    rw [if_neg hpos]
    refine ⟨st.mem, ?_, h.bound, fun hroom => ?_⟩
    · rw [← hsize]
      rfl
    · rw [hflush]
      rw [← hsize] at hroom
      exact h.done hroom

end XsServer.Sproto
