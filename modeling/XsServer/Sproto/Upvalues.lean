import XsServer.Sproto.Packing

/-! `pack` and `unpack` of `lsproto.c`: the functions for Lua, with a buffer that they keep. -/

namespace XsServer.Sproto

open Lib

def ENCODE_BUFFERSIZE : Nat := 2050
def ENCODE_MAXSIZE : Nat := 0x1000000

/-- The loop of `expand_buffer`; `none` is an `int` that overflows, or a loop that never ends. -/
def doubled (osz nsz : Nat) : Option Nat :=
  if osz = 0 ∨ 2 ^ 31 ≤ osz * 2 then none
  else if osz * 2 < nsz then doubled (osz * 2) nsz else some (osz * 2)
  termination_by 2 ^ 31 - osz

theorem doubled_some {osz nsz n : Nat} (h : doubled osz nsz = some n) :
    ∃ k, n = osz * 2 ^ (k + 1) ∧ nsz ≤ n ∧ (osz < nsz → osz * 2 ^ k < nsz) := by
  fun_induction doubled osz nsz with
  | case1 => cases h
  | case2 osz hsz hlt ih =>
    obtain ⟨k, rfl, hle, hleast⟩ := ih h
    refine ⟨k + 1, ?_, hle, fun _ => ?_⟩
    · rw [pow_succ' _ (k + 1), mul_assoc]
    · rw [pow_succ', ← mul_assoc]
      exact hleast hlt
  | case3 osz hsz hge =>
    cases h
    exact ⟨0, by rw [pow_one], by omega, fun hlt => by rwa [pow_zero, mul_one]⟩

/-- The userdata, and its size, which has been doubled a number of times. -/
structure Upvalues where
  output : Memory
  osz : Nat
  size : ∃ k, osz = ENCODE_BUFFERSIZE * 2 ^ k
  le : osz ≤ ENCODE_MAXSIZE

theorem Upvalues.size_doubled (up : Upvalues) {nsz n : Nat} (h : doubled up.osz nsz = some n) :
    ∃ k, n = ENCODE_BUFFERSIZE * 2 ^ k := by
  obtain ⟨k, hk⟩ := up.size
  obtain ⟨j, rfl, -⟩ := doubled_some h
  exact ⟨k + (j + 1), by rw [hk, mul_assoc, ← pow_add]⟩

inductive Result
  | string (s : List UInt8)
  | tooLarge
  | packingError (bytes : Nat)
  | invalidStream

namespace Upvalues

def new (output : Memory) : Upvalues := ⟨output, ENCODE_BUFFERSIZE, ⟨0, rfl⟩, by decide⟩

/-- `expand_buffer`, with what is in the new userdata; the inner `none` is its error. -/
def expandBuffer (up : Upvalues) (fresh : Memory) (nsz : Nat) : Option (Option Upvalues) :=
  match h : doubled up.osz nsz with
  | none => none
  | some osz =>
    some (if hle : osz ≤ ENCODE_MAXSIZE then some ⟨fresh, osz, up.size_doubled h, hle⟩ else none)

/-- `maxsz` of `lpack` -/
def maxsz (sz : Nat) : Nat := (sz + 2047) / 2048 * 2 + sz + 2

/-- `lpack` with a buffer of this size. -/
def pack (up : Upvalues) (buffer : List UInt8) (maxsz : Nat) : Option (Result × Upvalues) := do
  let (output, bytes) ← sprotoPack buffer up.output maxsz
  some (if bytes > maxsz then .packingError bytes else .string (cells output 0 bytes),
    { up with output })

def lpack (up : Upvalues) (fresh : Memory) (buffer : List UInt8) : Option (Result × Upvalues) := do
  let maxsz := maxsz buffer.length
  match ← if up.osz < maxsz then up.expandBuffer fresh maxsz else some (some up) with
  | none => some (.tooLarge, up)
  | some up => up.pack buffer maxsz

/-- `lunpack` with a result of `sproto_unpack`. -/
def unpacked (up : Upvalues) (r : Memory × Option Nat) : Result × Upvalues :=
  (r.2.elim .invalidStream fun n => .string (cells r.1 0 n), { up with output := r.1 })

def lunpack (up : Upvalues) (fresh buffer : Memory) (sz : Nat) : Option (Result × Upvalues) := do
  let r := sprotoUnpack buffer sz up.output up.osz
  let n := r.2.getD 0
  if n > up.osz then
    match ← up.expandBuffer fresh n with
    | none => some (.tooLarge, { up with output := r.1 })
    | some up => some (up.unpacked (sprotoUnpack buffer sz up.output n))
  else some (up.unpacked r)

end Upvalues

open Upvalues (maxsz)

theorem flush_length (st : Blocks) :
    st.flush.length ≤ st.done.length + st.run.length + 2 ∧
      (st.run = [] → st.flush.length = st.done.length) := by
  unfold Blocks.flush
  split
  · exact ⟨by omega, fun _ => rfl⟩
  · rw [List.length_append, ffBlock_length]
    exact ⟨by omega, fun h => absurd h (by assumption)⟩

/-- What the first `i` bytes took, with `q` runs of 256 segments, each of which takes two bytes
more.  A shorter run takes them too, but the segment after it takes two bytes less. -/
def Blocks.Bounded (st : Blocks) (i : Nat) : Prop :=
  ∃ q, 2048 * q + st.run.length ≤ i ∧ st.done.length + st.run.length ≤ i + 2 * q

theorem Blocks.Bounded.add {st : Blocks} {i n : Nat} {seg : List UInt8} (h : st.Bounded i)
    (hlen : seg.length = 8) (hzero : (nonzero seg).length ≤ n) (hn : 0 < n) (hn' : n ≤ 8) :
    (n = 8 → (st.add seg).Bounded (i + 8)) ∧ (st.add seg).flush.length ≤ maxsz (i + n) := by
  obtain ⟨q, hq, hdone⟩ := h
  have hflush := flush_length st
  have hlast := flush_length (st.add seg)
  have hblock : (segBlock seg).length = (nonzero seg).length + 1 := rfl
  have hle : (nonzero seg).length ≤ 8 := hlen ▸ List.length_filter_le ..
  have hnone : st.run = [] → st.run.length = 0 := List.length_eq_zero_iff.mpr
  unfold Blocks.Bounded maxsz
  unfold Blocks.add at hlast ⊢
  split_ifs at hlast ⊢ with hnil hall hsix hfull <;>
    simp only [List.length_append, List.length_nil, ffBlock_length, true_implies] at hlast ⊢
  · have := hnone hnil
    exact ⟨fun _ => ⟨q, by omega, by omega⟩, by omega⟩
  · have := hnone hnil
    exact ⟨fun _ => ⟨q, by omega, by omega⟩, by omega⟩
  · exact ⟨fun _ => ⟨q + 1, by omega, by omega⟩, by omega⟩
  · exact ⟨fun _ => ⟨q, by omega, by omega⟩, by omega⟩
  · exact ⟨fun _ => ⟨q, by omega, by omega⟩, by omega⟩

theorem addSegments_length {x : List UInt8} {i : Nat} {st : Blocks} (h : st.Bounded i)
    (hi : i ≤ x.length) : (addSegments x i st).flush.length ≤ maxsz x.length := by
  fun_induction addSegments x i st with
  | case1 i st hlt ih =>
    have hzero : (nonzero (segment x i)).length ≤ min 8 (x.length - i) := by
      rw [nonzero, segment, List.filter_append, List.filter_replicate_of_neg (by simp),
        List.append_nil, ← List.length_drop, ← List.length_take]
      exact List.length_filter_le ..
    obtain ⟨hstep, hlast⟩ := h.add (segment_length hlt) hzero (by omega) (by omega)
    by_cases hfull : i + 8 ≤ x.length
    · exact ih (hstep (by omega)) hfull
    · rw [addSegments, if_neg (by omega)]
      rwa [show i + min 8 (x.length - i) = x.length by omega] at hlast
  | case2 i st hge =>
    obtain ⟨q, hq, hdone⟩ := h
    have := (flush_length st).1
    unfold maxsz
    omega

theorem packed_length (x : List UInt8) : (packed x).length ≤ maxsz x.length :=
  addSegments_length ⟨0, by simp⟩ (Nat.zero_le _)

/-! ### The size of the buffer -/

def LARGEST : Nat := ENCODE_BUFFERSIZE * 2 ^ 12

theorem size_mono {i j : Nat} (h : i ≤ j) : ENCODE_BUFFERSIZE * 2 ^ i ≤ ENCODE_BUFFERSIZE * 2 ^ j :=
  Nat.mul_le_mul_left _ (Nat.pow_le_pow_right Nat.two_pos h)

theorem size_iff {k : Nat} : ENCODE_BUFFERSIZE * 2 ^ k ≤ ENCODE_MAXSIZE ↔ k ≤ 12 := by
  refine ⟨fun h => ?_, fun h => (size_mono h).trans (by decide)⟩
  by_contra hk
  exact absurd ((size_mono (Nat.lt_of_not_le hk)).trans h) (by decide)

theorem doubled_isSome {osz nsz : Nat} (hpos : 0 < osz) (hlt : osz < nsz) (hle : nsz ≤ 2 ^ 30) :
    ∃ n, doubled osz nsz = some n := by
  fun_induction doubled osz nsz with
  | case1 osz hsz => omega
  | case2 osz hsz hlt' ih => exact ih (by omega) hlt'
  | case3 osz hsz hge => exact ⟨_, rfl⟩

namespace Upvalues

variable (up : Upvalues) (fresh : Memory)

theorem osz_le : up.osz ≤ LARGEST := by
  obtain ⟨k, hk⟩ := up.size
  rw [hk]
  exact size_mono (size_iff.mp (hk ▸ up.le))

theorem expandBuffer_eq {nsz : Nat} (hlt : up.osz < nsz) (hle : nsz ≤ 2 ^ 30) :
    ∃ u, up.expandBuffer fresh nsz = some (if nsz ≤ LARGEST then some u else none) := by
  obtain ⟨k, hk⟩ := up.size
  obtain ⟨n, hn⟩ := doubled_isSome (hk ▸ Nat.mul_pos (by decide) (Nat.two_pow_pos k)) hlt hle
  obtain ⟨j, hj, hge, hleast⟩ := doubled_some hn
  have hleast := hleast hlt
  rw [hk, mul_assoc, ← pow_add] at hj
  rw [hk, mul_assoc, ← pow_add] at hleast
  have hfits : n ≤ ENCODE_MAXSIZE ↔ nsz ≤ LARGEST := by
    rw [hj, size_iff]
    refine ⟨fun h => (hj ▸ hge).trans (size_mono h), fun h => ?_⟩
    by_contra hbig
    exact absurd (h.trans (size_mono (by omega))) (Nat.not_le.mpr hleast)
  unfold expandBuffer
  split
  case h_1 h => cases hn.symm.trans h
  case h_2 osz h =>
    cases hn.symm.trans h
    by_cases hmax : n ≤ ENCODE_MAXSIZE
    · exact ⟨_, by rw [dif_pos hmax, if_pos (hfits.mp hmax)]⟩
    · exact ⟨up, by rw [dif_neg hmax, if_neg (mt hfits.mpr hmax)]⟩

theorem pack_eq (x : List UInt8) :
    ∃ up', up.pack x (maxsz x.length) = some (.string (packed x), up') := by
  have hlen := packed_length x
  obtain ⟨m, hm, -, hholds⟩ := sprotoPack_packed x (maxsz x.length) up.output
  refine ⟨{ up with output := m }, ?_⟩
  simp only [pack, hm, Option.bind_eq_bind, Option.bind_some, if_neg (Nat.not_lt.mpr hlen),
    (hholds (by exact_mod_cast hlen)).cells]

theorem unpacked_eq {x : List UInt8} {y : Memory} (hy : cells y 0 (packed x).length = packed x)
    {n : Nat} (hn : (padded x).length ≤ n) :
    ∃ up', up.unpacked (sprotoUnpack y (packed x).length up.output n) =
      (.string (padded x), up') := by
  obtain ⟨hresult, hcells⟩ :=
    sprotoUnpack_packed (packed_stands x) (hy ▸ holds_cells y 0 _) up.output n
  refine ⟨_, Prod.ext ?_ rfl⟩
  simp only [unpacked, hresult, Option.elim_some, hcells (by exact_mod_cast hn)]

/-- Whatever a buffer was used for before, `pack` never finds too little room in it, and `unpack`
gives the string back with its zeros; there are errors for strings that are too large, and no
others. -/
theorem unpack_pack {x : List UInt8} (hx : x.length ≤ 2 ^ 27) :
    (∃ up', up.lpack fresh x =
      some (if maxsz x.length ≤ LARGEST then .string (packed x) else .tooLarge, up')) ∧
    ∀ y : Memory, cells y 0 (packed x).length = packed x →
      ∃ up', up.lunpack fresh y (packed x).length =
        some (if (padded x).length ≤ LARGEST then .string (padded x) else .tooLarge, up') := by
  have hosz := up.osz_le
  refine ⟨?_, fun y hy => ?_⟩
  · unfold lpack
    by_cases hlt : up.osz < maxsz x.length
    · have hle : maxsz x.length ≤ 2 ^ 30 := by
        unfold maxsz
        omega
      obtain ⟨u, hu⟩ := up.expandBuffer_eq fresh hlt hle
      by_cases hfit : maxsz x.length ≤ LARGEST
      · simpa [hlt, hu, hfit] using u.pack_eq x
      · simp [hlt, hu, hfit]
    · simpa [hlt, (Nat.not_lt.mp hlt).trans hosz] using up.pack_eq x
  · have hresult := (sprotoUnpack_packed (packed_stands x) (hy ▸ holds_cells y 0 _) up.output
      up.osz).1
    simp only [lunpack, hresult, Option.getD_some, gt_iff_lt]
    by_cases hlt : up.osz < (padded x).length
    · have hle : (padded x).length ≤ 2 ^ 30 := by
        rw [padded_length]
        omega
      obtain ⟨u, hu⟩ := up.expandBuffer_eq fresh hlt hle
      by_cases hfit : (padded x).length ≤ LARGEST
      · simpa [hlt, hu, hfit] using u.unpacked_eq hy le_rfl
      · simp [hlt, hu, hfit]
    · simpa [hlt, (Nat.not_lt.mp hlt).trans hosz] using up.unpacked_eq hy (Nat.not_lt.mp hlt)

theorem unpack_pack_new : ∃ up', (new fun _ => 0).lpack (fun _ => 0) [0, 7] =
    some (if 6 ≤ LARGEST then .string (packed [0, 7]) else .tooLarge, up') :=
  (unpack_pack (new fun _ => 0) (fun _ => 0) (by decide)).1

end Upvalues

end XsServer.Sproto
