import XsServer.Lib.Memory
import Mathlib.Tactic.Ring
import Mathlib.Data.List.TakeDrop

/-! `sproto_pack` and `sproto_unpack`: zero bytes are left out of segments of eight bytes.  The
blocks of packed bytes and what they stand for, and packing as a function of lists. -/

namespace XsServer.Sproto

open Lib

abbrev Memory := Nat → UInt8

/-! ### `sproto_pack` -/

/-- The loop of `pack_seg`: where it writes, how many bytes it may write, the header and the number
of bytes that are not zero. -/
structure PackBytes where
  mem : Memory
  buffer : Nat
  sz : Int
  header : UInt8
  notzero : Nat

/-- The loop of `pack_seg` over the bytes of a segment, from the `i`-th on. -/
def packBytes : List UInt8 → Nat → PackBytes → PackBytes
  | [], _, st => st
  | b :: bs, i, st =>
    packBytes bs (i + 1)
      (if b ≠ 0 then
        { mem := if st.sz > 0 then write st.mem st.buffer [b] else st.mem
          buffer := if st.sz > 0 then st.buffer + 1 else st.buffer
          sz := if st.sz > 0 then st.sz - 1 else st.sz
          header := st.header ||| 1 <<< UInt8.ofNat i
          notzero := st.notzero + 1 }
      else st)

/-- `pack_seg`, with the eight bytes at `src`. -/
def packSeg (src : List UInt8) (mem : Memory) (buffer : Nat) (sz : Int) (n : Nat) : Memory × Nat :=
  let st := packBytes src 0 ⟨mem, buffer + 1, sz - 1, 0, 0⟩
  let notzero := if (st.notzero = 7 ∨ st.notzero = 6) ∧ n > 0 then 8 else st.notzero
  if notzero = 8 then (st.mem, if n > 0 then 8 else 10)
  else (if sz - 1 < 0 then st.mem else write st.mem buffer [st.header], notzero + 1)

/-- Where the loop reads: in the source, or in the copy of the last segment. -/
inductive Source
  | srcv (i : Nat)
  | tmp
  deriving DecidableEq

/-- `write_ff`; the end of the source is not compared with the copy. -/
def writeFf (x : List UInt8) (src : Source) (mem : Memory) (des n : Nat) : Option Memory :=
  match src with
  | .tmp => none
  | .srcv i =>
    let mem := write mem des [0xff, UInt8.ofNat (n - 1)]
    if i + n * 8 ≤ x.length then some (write mem (des + 2) ((x.drop i).take (n * 8)))
    else
      let sz := x.length - i
      some (write (write mem (des + 2) (x.drop i)) (des + 2 + sz) (List.replicate (n * 8 - sz) 0))

/-- `write_ff`, unless the buffer is full. -/
def flushFf (x : List UInt8) (src : Source) (mem : Memory) (des n : Nat) (bufsz : Int) :
    Option Memory :=
  if bufsz ≥ 0 then writeFf x src mem des n else some mem

/-- The variables of `sproto_pack`. -/
structure PackState where
  mem : Memory
  bufsz : Int
  ffSrcstart : Source
  ffDesstart : Nat
  ffN : Nat
  buffer : Nat
  size : Nat

/-- The segment at `i`, where the last one is filled with zeros. -/
def segment (x : List UInt8) (i : Nat) : List UInt8 :=
  (x.drop i).take 8 ++ List.replicate (i + 8 - x.length) 0

/-- One round of the loop of `sproto_pack`. -/
def packRound (x : List UInt8) (i : Nat) (st : PackState) : Option PackState := do
  let src := if i + 8 > x.length then .tmp else .srcv i
  let (mem, n) := packSeg (segment x i) st.mem st.buffer st.bufsz st.ffN
  let bufsz := st.bufsz - n
  let buffer := st.buffer + n
  let size := st.size + n
  if n = 10 then
    return ⟨mem, bufsz, src, st.buffer, 1, buffer, size⟩
  else if n = 8 ∧ st.ffN > 0 then
    if st.ffN + 1 = 256 then
      let mem ← flushFf x st.ffSrcstart mem st.ffDesstart 256 bufsz
      return ⟨mem, bufsz, st.ffSrcstart, st.ffDesstart, 0, buffer, size⟩
    else return ⟨mem, bufsz, st.ffSrcstart, st.ffDesstart, st.ffN + 1, buffer, size⟩
  else if st.ffN > 0 then
    let mem ← flushFf x st.ffSrcstart mem st.ffDesstart st.ffN bufsz
    return ⟨mem, bufsz, st.ffSrcstart, st.ffDesstart, 0, buffer, size⟩
  else return ⟨mem, bufsz, st.ffSrcstart, st.ffDesstart, st.ffN, buffer, size⟩

/-- The loop of `sproto_pack`, from `i` on. -/
def packLoop (x : List UInt8) (i : Nat) (st : PackState) : Option PackState :=
  if i < x.length then (packRound x i st).bind (packLoop x (i + 8)) else some st
  termination_by x.length - i

/-- `sproto_pack`: the memory at the buffer after it, and its result. -/
def sprotoPack (x : List UInt8) (mem : Memory) (bufsz : Int) : Option (Memory × Nat) := do
  let st ← packLoop x 0 ⟨mem, bufsz, .srcv 0, 0, 0, 0, 0⟩
  let mem ← if st.ffN > 0 then flushFf x st.ffSrcstart st.mem st.ffDesstart st.ffN st.bufsz
    else some st.mem
  return (mem, st.size)

/-! ### `sproto_unpack` -/

/-- The variables of `sproto_unpack`. -/
structure UnpackState where
  src : Nat
  srcsz : Int
  mem : Memory
  buffer : Nat
  bufsz : Int
  size : Nat

/-- A byte of the segment is written, if there is room. -/
def UnpackState.put (st : UnpackState) (b : UInt8) : UnpackState :=
  { st with
    mem := if st.bufsz > 0 then write st.mem st.buffer [b] else st.mem
    buffer := if st.bufsz > 0 then st.buffer + 1 else st.buffer
    bufsz := if st.bufsz > 0 then st.bufsz - 1 else st.bufsz }

/-- The loop over the bits of a header, with `k` bits to go: the state, and whether it comes to its
end. -/
def unpackBits (y : Memory) (header : UInt8) : Nat → UnpackState → UnpackState × Bool
  | 0, st => (st, true)
  | k + 1, st =>
    if header >>> UInt8.ofNat (7 - k) &&& 1 ≠ 0 then
      if st.srcsz < 0 then (st, false)
      else
        let st := st.put (y st.src)
        unpackBits y header k
          { st with src := st.src + 1, srcsz := st.srcsz - 1, size := st.size + 1 }
    else
      let st := st.put 0
      unpackBits y header k { st with size := st.size + 1 }

/-- A block of whole segments, after its header. -/
def unpackFf (y : Memory) (st : UnpackState) : UnpackState × Bool :=
  if st.srcsz < 0 then (st, false)
  else
    let n := ((y st.src).toNat + 1) * 8
    if st.srcsz < n + 1 then (st, false)
    else
      (⟨st.src + 1 + n, st.srcsz - (n + 1),
        if st.bufsz ≥ n then write st.mem st.buffer (cells y (st.src + 1) n) else st.mem,
        st.buffer + n, st.bufsz - n, st.size + n⟩, true)

/-- One round of the loop of `sproto_unpack`. -/
def unpackRound (y : Memory) (st : UnpackState) : UnpackState × Bool :=
  let header := y st.src
  let st := { st with srcsz := st.srcsz - 1, src := st.src + 1 }
  if header = 0xff then unpackFf y st else unpackBits y header 8 st

theorem unpackBits_srcsz (y : Memory) (header : UInt8) (k : Nat) (st : UnpackState) :
    (unpackBits y header k st).1.srcsz ≤ st.srcsz := by
  induction k generalizing st with
  | zero => exact Int.le_refl _
  | succ k ih =>
    rw [unpackBits]
    split
    · split
      · exact Int.le_refl _
      · exact (ih _).trans (Int.sub_le_self _ (by decide))
    · exact ih _

theorem unpackRound_srcsz (y : Memory) (st : UnpackState) :
    (unpackRound y st).1.srcsz < st.srcsz := by
  have hlt : st.srcsz - 1 < st.srcsz := by omega
  unfold unpackRound
  dsimp only
  split
  · unfold unpackFf
    dsimp only
    split
    · exact hlt
    · split
      · exact hlt
      · dsimp only
        omega
  · exact (unpackBits_srcsz ..).trans_lt hlt

/-- The loop of `sproto_unpack`: the memory at the buffer, and the result, where `none` is -1. -/
def unpackLoop (y : Memory) (st : UnpackState) : Memory × Option Nat :=
  if st.srcsz > 0 then
    if (unpackRound y st).2 then unpackLoop y (unpackRound y st).1
    else ((unpackRound y st).1.mem, none)
  else (st.mem, some st.size)
  termination_by st.srcsz.toNat
  decreasing_by
    have := unpackRound_srcsz y st
    omega

/-- `sproto_unpack` of the `srcsz` bytes at `y`. -/
def sprotoUnpack (y : Memory) (srcsz : Nat) (mem : Memory) (bufsz : Int) : Memory × Option Nat :=
  unpackLoop y ⟨0, srcsz, mem, 0, bufsz, 0⟩

/-! ### Blocks -/

/-- The bit of each byte that is not zero, from bit `i` on. -/
def header : List UInt8 → Nat → UInt8
  | [], _ => 0
  | b :: bs, i => (if b ≠ 0 then 1 <<< UInt8.ofNat i else 0) ||| header bs (i + 1)

def nonzero (seg : List UInt8) : List UInt8 := seg.filter (· ≠ 0)

def segBlock (seg : List UInt8) : List UInt8 := header seg 0 :: nonzero seg

def ffBlock (run : List UInt8) : List UInt8 := 0xff :: UInt8.ofNat (run.length / 8 - 1) :: run

inductive Block : List UInt8 → List UInt8 → Prop
  | seg {seg : List UInt8} (hlen : seg.length = 8) (hzero : (nonzero seg).length ≠ 8) :
      Block (segBlock seg) seg
  | ff {run : List UInt8} {n : Nat} (hlen : run.length = (n + 1) * 8) (hn : n < 256) :
      Block (ffBlock run) run

inductive Packed : List UInt8 → List UInt8 → Prop
  | nil : Packed [] []
  | cons {q p y x : List UInt8} (hq : Block q y) (hp : Packed p x) : Packed (q ++ p) (y ++ x)

theorem Packed.append {p q x y : List UInt8} (hp : Packed p x) (hq : Packed q y) :
    Packed (p ++ q) (x ++ y) := by
  induction hp with
  | nil => exact hq
  | cons hblock _ ih =>
    rw [List.append_assoc, List.append_assoc]
    exact .cons hblock ih

theorem Packed.snoc {p q x y : List UInt8} (hp : Packed p x) (hq : Block q y) :
    Packed (p ++ q) (x ++ y) := by
  apply hp.append
  have h := Packed.cons hq .nil
  rwa [List.append_nil, List.append_nil] at h

theorem bit_iff (h : UInt8) {j : Nat} (hj : j < 8) :
    h >>> UInt8.ofNat j &&& 1 ≠ 0 ↔ h.toNat.testBit j = true := by
  have hshift : (UInt8.ofNat j).toNat % 8 = j := by
    rw [UInt8.toNat_ofNat']
    omega
  rw [Ne, ← UInt8.toNat_inj, UInt8.toNat_and, UInt8.toNat_shiftRight, hshift, Nat.testBit,
    Nat.and_comm]
  simp

variable {i : Nat}

theorem toNat_bit (hi : i < 8) : ((1 : UInt8) <<< UInt8.ofNat i).toNat = 2 ^ i := by
  have hshift : (UInt8.ofNat i).toNat % 8 = i := by
    rw [UInt8.toNat_ofNat']
    omega
  have hlt : 2 ^ i < 2 ^ 8 := Nat.pow_lt_pow_right (by decide) hi
  have hone : (1 : UInt8).toNat = 1 := rfl
  rw [UInt8.toNat_shiftLeft, hshift, hone, Nat.one_shiftLeft]
  exact Nat.mod_eq_of_lt hlt

theorem testBit_header (seg : List UInt8) (hi : i + seg.length ≤ 8) (j : Nat) :
    (header seg i).toNat.testBit j = true ↔ i ≤ j ∧ ∃ b, seg[j - i]? = some b ∧ b ≠ 0 := by
  induction seg generalizing i with
  | nil => simp [header]
  | cons b seg ih =>
    rw [List.length_cons] at hi
    rw [header, UInt8.toNat_or, Nat.testBit_or, Bool.or_eq_true, ih (by omega)]
    have hfirst : (if b ≠ 0 then (1 : UInt8) <<< UInt8.ofNat i else 0).toNat.testBit j = true ↔
        b ≠ 0 ∧ j = i := by
      split
      · rename_i hb
        rw [toNat_bit (by omega), Nat.testBit_two_pow]
        simp [hb, eq_comm]
      · rename_i hb
        simp [hb]
    rw [hfirst]
    constructor
    · rintro (⟨hb, rfl⟩ | ⟨hle, b', hget, hb'⟩)
      · exact ⟨Nat.le_refl _, b, by rw [Nat.sub_self]; rfl, hb⟩
      · refine ⟨by omega, b', ?_, hb'⟩
        rw [show j - i = j - (i + 1) + 1 by omega, List.getElem?_cons_succ]
        exact hget
    · rintro ⟨hle, b', hget, hb'⟩
      by_cases hj : j = i
      · subst hj
        rw [Nat.sub_self] at hget
        cases hget
        exact .inl ⟨hb', rfl⟩
      · refine .inr ⟨by omega, b', ?_, hb'⟩
        rw [show j - i = j - (i + 1) + 1 by omega, List.getElem?_cons_succ] at hget
        exact hget

theorem header_ne {seg : List UInt8} (hlen : seg.length = 8) (hzero : (nonzero seg).length ≠ 8) :
    header seg 0 ≠ 0xff := by
  intro hbad
  apply hzero
  rw [← hlen]
  refine congrArg List.length (List.filter_eq_self.mpr fun b hb => ?_)
  obtain ⟨j, hj, rfl⟩ := List.mem_iff_getElem.mp hb
  have hbit : (header seg 0).toNat.testBit j = true := by
    rw [hbad]
    have hcases : ∀ j < 8, (0xff : UInt8).toNat.testBit j = true := by decide
    exact hcases j (hlen ▸ hj)
  obtain ⟨-, b, hget, hb'⟩ := (testBit_header seg (by omega) j).mp hbit
  rw [Nat.sub_zero, List.getElem?_eq_getElem hj] at hget
  cases hget
  exact decide_eq_true hb'

/-! ### Packing -/

/-- The blocks that are complete, and whole segments that are held back. -/
structure Blocks where
  done : List UInt8
  run : List UInt8

def Blocks.flush (st : Blocks) : List UInt8 :=
  if st.run = [] then st.done else st.done ++ ffBlock st.run

def Blocks.add (st : Blocks) (seg : List UInt8) : Blocks :=
  if st.run = [] then
    if (nonzero seg).length = 8 then ⟨st.done, seg⟩ else ⟨st.done ++ segBlock seg, []⟩
  else if (nonzero seg).length ≥ 6 then
    if st.run.length + 8 = 256 * 8 then ⟨st.done ++ ffBlock (st.run ++ seg), []⟩
    else ⟨st.done, st.run ++ seg⟩
  else ⟨st.flush ++ segBlock seg, []⟩

/-- The segments from `i` on. -/
def addSegments (x : List UInt8) (i : Nat) (st : Blocks) : Blocks :=
  if i < x.length then addSegments x (i + 8) (st.add (segment x i)) else st
  termination_by x.length - i

/-- What `sproto_pack` makes of a string. -/
def packed (x : List UInt8) : List UInt8 := (addSegments x 0 ⟨[], []⟩).flush

/-- A string with zeros up to a multiple of eight bytes. -/
def padded (x : List UInt8) : List UInt8 := x ++ List.replicate ((8 - x.length % 8) % 8) 0

theorem padded_length (x : List UInt8) : (padded x).length = (x.length + 7) / 8 * 8 := by
  rw [padded, List.length_append, List.length_replicate]
  omega

variable {x : List UInt8}

theorem segment_length (hi : i < x.length) : (segment x i).length = 8 := by
  rw [segment, List.length_append, List.length_take, List.length_drop, List.length_replicate]
  omega

theorem padded_part {i n : Nat} (hi : i ≤ x.length) (hend : i + n ≤ (padded x).length) :
    ((padded x).drop i).take n = (x.drop i).take n ++ List.replicate (i + n - x.length) 0 := by
  rw [padded, List.length_append, List.length_replicate] at hend
  rw [padded, List.drop_append_of_le_length hi, List.take_append, List.take_replicate,
    List.length_drop]
  congr 2
  omega

theorem segment_eq (hi : i < x.length) (hdvd : 8 ∣ i) :
    segment x i = ((padded x).drop i).take 8 := by
  rw [padded_part hi.le (by rw [padded_length]; omega)]
  rfl

/-- What was packed of the first `i` bytes. -/
structure Blocks.Stands (st : Blocks) (x : List UInt8) (i : Nat) : Prop where
  packed : ∃ l, Packed st.done l ∧ l ++ st.run = (padded x).take i
  run : ∃ k, k < 256 ∧ st.run.length = k * 8

variable {st : Blocks}

theorem Blocks.Stands.flush (h : st.Stands x i) :
    Packed st.flush ((padded x).take i) := by
  obtain ⟨⟨l, hl, heq⟩, k, hk, hrun⟩ := h
  unfold Blocks.flush
  split
  · rename_i hnil
    rwa [← heq, hnil, List.append_nil]
  · rename_i hne
    have hpos := List.length_pos_iff.mpr hne
    rw [← heq]
    exact hl.snoc (.ff (n := k - 1) (by omega) (by omega))

theorem Blocks.Stands.add (h : st.Stands x i)
    (hi : i < x.length) (hdvd : 8 ∣ i) : (st.add (segment x i)).Stands x (i + 8) := by
  have hlen := segment_length hi
  have htake : (padded x).take (i + 8) = (padded x).take i ++ segment x i := by
    rw [segment_eq hi hdvd, List.take_add]
  have hflush := h.flush
  obtain ⟨⟨l, hl, heq⟩, k, hk, hrun⟩ := h
  unfold Blocks.add
  split
  · rename_i hnil
    rw [hnil, List.append_nil] at heq
    split
    · exact ⟨⟨l, hl, by rw [htake, heq]⟩, 1, by decide, hlen⟩
    · rename_i hzero
      refine ⟨⟨l ++ segment x i, hl.snoc (.seg hlen hzero), ?_⟩, 0, by decide, rfl⟩
      rw [htake, heq, List.append_nil]
  · rename_i hne
    split
    · split
      · rename_i hfull
        refine ⟨⟨l ++ (st.run ++ segment x i), hl.snoc (.ff (n := 255) ?_ (by decide)), ?_⟩,
          0, by decide, rfl⟩
        · rw [List.length_append, hlen, hfull]
        · rw [htake, ← heq, List.append_nil, List.append_assoc]
      · refine ⟨⟨l, hl, by rw [htake, ← heq, List.append_assoc]⟩, k + 1, by omega, ?_⟩
        rw [List.length_append, hlen, hrun]
        omega
    · rename_i hzero
      refine ⟨⟨(padded x).take i ++ segment x i, hflush.snoc (.seg hlen (by omega)), ?_⟩,
        0, by decide, rfl⟩
      rw [htake, List.append_nil]

theorem addSegments_stands (h : st.Stands x i) (hdvd : 8 ∣ i) :
    Packed (addSegments x i st).flush (padded x) := by
  fun_induction addSegments x i st with
  | case1 i st hi ih => exact ih (h.add hi hdvd) (Nat.dvd_add hdvd (Nat.dvd_refl 8))
  | case2 i st hi =>
    have hflush := h.flush
    rwa [List.take_of_length_le (by rw [padded_length]; omega)] at hflush

theorem packed_stands (x : List UInt8) : Packed (packed x) (padded x) := by
  apply addSegments_stands _ (Nat.dvd_zero 8)
  exact ⟨⟨[], .nil, rfl⟩, 0, by decide, rfl⟩

end XsServer.Sproto
