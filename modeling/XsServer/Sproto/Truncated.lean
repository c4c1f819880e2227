import XsServer.Sproto.Pack

/-! What `sproto_unpack` reads of arbitrary bytes, and where it says that they are truncated.  It
compares what is left with -1 and not with 0 before it reads, so that it goes one byte too far. -/

namespace XsServer.Sproto

open Lib

/-- The positions that `unpackBits` reads. -/
def readsBits (y : Memory) (header : UInt8) : Nat → UnpackState → List Nat
  | 0, _ => []
  | k + 1, st =>
    if header >>> UInt8.ofNat (7 - k) &&& 1 ≠ 0 then
      if st.srcsz < 0 then []
      else
        let put := st.put (y st.src)
        -- `*buffer = *src`
        (if st.bufsz > 0 then [st.src] else []) ++ readsBits y header k
          { put with src := put.src + 1, srcsz := put.srcsz - 1, size := put.size + 1 }
    else
      let put := st.put 0
      readsBits y header k { put with size := put.size + 1 }

/-- The positions that `unpackFf` reads: the number of segments, and the bytes that are copied. -/
def readsFf (y : Memory) (st : UnpackState) : List Nat :=
  if st.srcsz < 0 then []
  else
    let n := ((y st.src).toNat + 1) * 8
    st.src :: if st.srcsz < n + 1 then []
      else if st.bufsz ≥ n then List.range' (st.src + 1) n else []

def readsRound (y : Memory) (st : UnpackState) : List Nat :=
  let header := y st.src
  let next := { st with srcsz := st.srcsz - 1, src := st.src + 1 }
  st.src :: if header = 0xff then readsFf y next else readsBits y header 8 next

def readsLoop (y : Memory) (st : UnpackState) : List Nat :=
  if st.srcsz > 0 then
    readsRound y st ++ if (unpackRound y st).2 then readsLoop y (unpackRound y st).1 else []
  else []
  termination_by st.srcsz.toNat
  decreasing_by
    have := unpackRound_srcsz y st
    omega

/-- The positions that `sproto_unpack` reads. -/
def unpackReads (y : Memory) (srcsz : Nat) (mem : Memory) (bufsz : Int) : List Nat :=
  readsLoop y ⟨0, srcsz, mem, 0, bufsz, 0⟩

/-- The last `k` bits of a header, the lowest first: for each, whether there is a byte for it. -/
def bits (header : UInt8) : Nat → List Bool
  | 0 => []
  | k + 1 => (header >>> UInt8.ofNat (7 - k) &&& 1 != 0) :: bits header k

/-- The number of bits before the one that has no byte, where there are `n` bytes. -/
def due : Nat → List Bool → Nat
  | _, [] => 0
  | 0, true :: _ => 0
  | n + 1, true :: bs => due n bs + 1
  | n, false :: bs => due n bs + 1

/-- How bytes end: with a whole segment or block, with a header 0xff, in the block after one, or in
a segment, with the number of bytes that are missing there and the place of the first of them. -/
inductive Ending
  | whole
  | header
  | block
  | segment (missing place : Nat)
  deriving DecidableEq

/-- The end of bytes, where those before stand for `size` bytes. -/
def ending (src : List UInt8) (size : Nat) : Ending :=
  match src with
  | [] => .whole
  | header :: src =>
    if header = 0xff then
      match src with
      | [] => .header
      | count :: src =>
        let n := (count.toNat + 1) * 8
        if src.length < n then .block else ending (src.drop n) (size + n)
    else
      let n := (bits header 8).count true
      if src.length < n then .segment (n - src.length) (size + due src.length (bits header 8))
      else ending (src.drop n) (size + 8)
  termination_by src.length
  decreasing_by all_goals simp only [List.length_drop, List.length_cons]; omega

def Truncated (src : List UInt8) : Prop := ending src 0 ≠ .whole

/-- Whatever lies behind the bytes, only they are read, and the result is -1 if they are
truncated. -/
def UnpacksInside (src : List UInt8) (bufsz : Int) : Prop :=
  ∀ (y mem : Memory), Holds y 0 src →
    (∀ i ∈ unpackReads y src.length mem bufsz, i < src.length) ∧
      (Truncated src → (sprotoUnpack y src.length mem bufsz).2 = none)

/-! ### Segments -/

variable {y : Memory} {header : UInt8} {n : Int} {st : UnpackState}

/-- The room that is left in a buffer of `n` bytes, as long as there is some. -/
def Roomy (n : Int) (st : UnpackState) : Prop := 0 < st.bufsz ∨ st.size < n → st.bufsz = n - st.size

theorem Roomy.pos_iff (h : Roomy n st) : 0 < st.bufsz ↔ st.size < n := by
  constructor
  · intro hpos
    have := h (.inl hpos)
    omega
  · intro hlt
    have := h (.inr hlt)
    omega

def UnpackState.take (y : Memory) (st : UnpackState) : UnpackState :=
  { st.put (y st.src) with src := st.src + 1, srcsz := st.srcsz - 1, size := st.size + 1 }

def UnpackState.zero (st : UnpackState) : UnpackState := { st.put 0 with size := st.size + 1 }

@[simp] theorem UnpackState.take_src (y : Memory) (st : UnpackState) :
    (st.take y).src = st.src + 1 := rfl

@[simp] theorem UnpackState.take_srcsz (y : Memory) (st : UnpackState) :
    (st.take y).srcsz = st.srcsz - 1 := rfl

@[simp] theorem UnpackState.take_size (y : Memory) (st : UnpackState) :
    (st.take y).size = st.size + 1 := rfl

@[simp] theorem UnpackState.zero_src (st : UnpackState) : st.zero.src = st.src := rfl

@[simp] theorem UnpackState.zero_size (st : UnpackState) : st.zero.size = st.size + 1 := rfl

theorem Roomy.next (h : Roomy n st) {st' : UnpackState} (hsize : st'.size = st.size + 1)
    (hbufsz : st'.bufsz = if st.bufsz > 0 then st.bufsz - 1 else st.bufsz) : Roomy n st' := by
  have hpos := h.pos_iff
  unfold Roomy at h ⊢
  rw [hsize, hbufsz]
  split
  · omega
  · omega

theorem Roomy.take (h : Roomy n st) : Roomy n (st.take y) := h.next rfl rfl

theorem Roomy.zero (h : Roomy n st) : Roomy n st.zero := h.next rfl rfl

variable {k : Nat}

structure One (y : Memory) (header : UInt8) (k : Nat) (st : UnpackState) : Prop where
  bits : bits header (k + 1) = true :: bits header k
  reads : ¬st.srcsz < 0 → readsBits y header (k + 1) st =
    (if st.bufsz > 0 then [st.src] else []) ++ readsBits y header k (st.take y)
  unpack : ¬st.srcsz < 0 → unpackBits y header (k + 1) st = unpackBits y header k (st.take y)
  passed : st.srcsz < 0 →
    readsBits y header (k + 1) st = [] ∧ unpackBits y header (k + 1) st = (st, false)

structure Zero (y : Memory) (header : UInt8) (k : Nat) (st : UnpackState) : Prop where
  bits : bits header (k + 1) = false :: bits header k
  reads : readsBits y header (k + 1) st = readsBits y header k st.zero
  unpack : unpackBits y header (k + 1) st = unpackBits y header k st.zero

theorem bit_cases (y : Memory) (header : UInt8) (k : Nat) (st : UnpackState) :
    One y header k st ∨ Zero y header k st := by
  by_cases hbit : header >>> UInt8.ofNat (7 - k) &&& 1 ≠ 0
  · left
    refine ⟨?_, fun h => ?_, fun h => ?_, fun h => ⟨?_, ?_⟩⟩
    · rw [bits, bne_iff_ne.mpr hbit]
    · rw [readsBits, if_pos hbit, if_neg h]
      rfl
    · rw [unpackBits, if_pos hbit, if_neg h]
      rfl
    · rw [readsBits, if_pos hbit, if_pos h]
    · rw [unpackBits, if_pos hbit, if_pos h]
  · right
    refine ⟨?_, ?_, ?_⟩
    · rw [bits, bne_eq_false_iff_eq.mpr (not_not.mp hbit)]
    · rw [readsBits, if_neg hbit]
      rfl
    · rw [unpackBits, if_neg hbit]
      rfl

theorem mem_room {i : Nat} (hi : i ∈ if st.bufsz > 0 then [st.src] else []) : i = st.src := by
  split at hi
  · exact List.mem_singleton.mp hi
  · cases hi

theorem bits_passed (y : Memory) (header : UInt8) (k : Nat) (h : st.srcsz < 0) :
    readsBits y header k st = [] ∧
      ((unpackBits y header k st).2 = true ↔ (bits header k).count true = 0) ∧
      (unpackBits y header k st).1.srcsz < 0 := by
  induction k generalizing st with
  | zero => exact ⟨rfl, iff_of_true rfl rfl, h⟩
  | succ k ih =>
    obtain hone | hzero := bit_cases y header k st
    · obtain ⟨hreads, hunpack⟩ := hone.passed h
      rw [hreads, hunpack, hone.bits, List.count_cons_self]
      exact ⟨rfl, iff_of_false nofun (Nat.succ_ne_zero _), h⟩
    · rw [hzero.reads, hzero.unpack, hzero.bits, List.count_cons_of_ne (by decide)]
      exact ih h

/-- What a segment does whose bytes are there. -/
structure BitsWhole (y : Memory) (header : UInt8) (k : Nat) (n : Int) (st : UnpackState) (r : Nat) :
    Prop where
  reads : ∀ i ∈ readsBits y header k st, i < st.src + r
  ok : (unpackBits y header k st).2 = true
  src : (unpackBits y header k st).1.src = st.src + (bits header k).count true
  srcsz : (unpackBits y header k st).1.srcsz = r - (bits header k).count true
  size : (unpackBits y header k st).1.size = st.size + k
  roomy : Roomy n (unpackBits y header k st).1

theorem bits_whole (y : Memory) (header : UInt8) (k : Nat) {r : Nat} (hr : st.srcsz = r)
    (hroom : Roomy n st) (h : (bits header k).count true ≤ r) : BitsWhole y header k n st r := by
  induction k generalizing st r with
  | zero =>
    refine ⟨List.forall_mem_nil _, rfl, rfl, ?_, rfl, hroom⟩
    simp only [unpackBits, bits, List.count_nil, hr]
    omega
  | succ k ih =>
    obtain hone | hzero := bit_cases y header k st
    · rw [hone.bits, List.count_cons_self] at h
      have hfull : ¬st.srcsz < 0 := by omega
      have hnext : BitsWhole y header k n (st.take y) (r - 1) :=
        ih (by rw [UnpackState.take_srcsz]; omega) hroom.take (by omega)
      have hsrc := hnext.src
      have hsrcsz := hnext.srcsz
      have hsize := hnext.size
      rw [UnpackState.take_src] at hsrc
      rw [UnpackState.take_size] at hsize
      constructor
      · rw [hone.reads hfull]
        intro i hi
        obtain hi | hi := List.mem_append.mp hi
        · rw [mem_room hi]
          omega
        · have hlt := hnext.reads i hi
          rw [UnpackState.take_src] at hlt
          omega
      · rw [hone.unpack hfull]
        exact hnext.ok
      · rw [hone.unpack hfull, hone.bits, List.count_cons_self]
        omega
      · rw [hone.unpack hfull, hone.bits, List.count_cons_self]
        omega
      · rw [hone.unpack hfull]
        omega
      · rw [hone.unpack hfull]
        exact hnext.roomy
    · rw [hzero.bits, List.count_cons_of_ne (by decide)] at h
      have hnext : BitsWhole y header k n st.zero r := ih hr hroom.zero h
      constructor
      · rw [hzero.reads]
        exact hnext.reads
      · rw [hzero.unpack]
        exact hnext.ok
      · rw [hzero.unpack, hzero.bits, List.count_cons_of_ne (by decide)]
        exact hnext.src
      · rw [hzero.unpack, hzero.bits, List.count_cons_of_ne (by decide)]
        exact hnext.srcsz
      · rw [hzero.unpack, hnext.size, UnpackState.zero_size]
        omega
      · rw [hzero.unpack]
        exact hnext.roomy

/-- What a segment does that is not whole: the first byte that is missing is read if there is room
for it, and it takes a second one to be found. -/
structure BitsShort (y : Memory) (header : UInt8) (k : Nat) (n : Int) (st : UnpackState) (r : Nat) :
    Prop where
  reads : (∀ i ∈ readsBits y header k st, i < st.src + r) ↔ n ≤ st.size + due r (bits header k)
  ok : (unpackBits y header k st).2 = true ↔ (bits header k).count true = r + 1
  srcsz : (unpackBits y header k st).1.srcsz < 0

theorem bits_short (y : Memory) (header : UInt8) (k : Nat) {r : Nat} (hr : st.srcsz = r)
    (hroom : Roomy n st) (h : r < (bits header k).count true) : BitsShort y header k n st r := by
  induction k generalizing st r with
  | zero => exact absurd h (Nat.not_lt_zero r)
  | succ k ih =>
    obtain hone | hzero := bit_cases y header k st
    · rw [hone.bits, List.count_cons_self] at h
      have hfull : ¬st.srcsz < 0 := by omega
      have hpos := hroom.pos_iff
      cases r with
      | zero =>
        obtain ⟨hreads, hok, hsrcsz⟩ := @bits_passed (st.take y) y header k
          (by rw [UnpackState.take_srcsz]; omega)
        constructor
        · rw [hone.reads hfull, hreads, hone.bits, due, List.append_nil]
          split
          · rw [List.forall_mem_singleton]
            omega
          · exact iff_of_true (List.forall_mem_nil _) (by omega)
        · rw [hone.unpack hfull, hok, hone.bits, List.count_cons_self]
          omega
        · rw [hone.unpack hfull]
          exact hsrcsz
      | succ r =>
        have hnext : BitsShort y header k n (st.take y) r :=
          ih (by rw [UnpackState.take_srcsz]; omega) hroom.take (by omega)
        have hreads := hnext.reads
        have hsrc : st.src + 1 + r = st.src + (r + 1) := by omega
        rw [UnpackState.take_src, UnpackState.take_size, hsrc] at hreads
        have hfirst : ∀ i ∈ if st.bufsz > 0 then [st.src] else [], i < st.src + (r + 1) := by
          intro i hi
          rw [mem_room hi]
          omega
        constructor
        · rw [hone.reads hfull, hone.bits, due, List.forall_mem_append, and_iff_right hfirst,
            hreads]
          omega
        · rw [hone.unpack hfull, hnext.ok, hone.bits, List.count_cons_self]
          omega
        · rw [hone.unpack hfull]
          exact hnext.srcsz
    · rw [hzero.bits, List.count_cons_of_ne (by decide)] at h
      have hnext : BitsShort y header k n st.zero r := ih hr hroom.zero h
      have hreads := hnext.reads
      rw [UnpackState.zero_src, UnpackState.zero_size] at hreads
      constructor
      · rw [hzero.reads, hzero.bits, due, hreads]
        omega
      · rw [hzero.unpack, hnext.ok, hzero.bits, List.count_cons_of_ne (by decide)]
      · rw [hzero.unpack]
        exact hnext.srcsz

/-! ### Blocks and rounds -/

structure Left (y : Memory) (n : Int) (st : UnpackState) (src : List UInt8) : Prop where
  srcsz : st.srcsz = src.length
  holds : Holds y st.src src
  roomy : Roomy n st

def ReadsInside (y : Memory) (st : UnpackState) (src : List UInt8) : Prop :=
  ∀ i ∈ readsLoop y st, i < st.src + src.length

/-- What becomes of the bytes that are left, by the way in which they end. -/
def Outcome (y : Memory) (n : Int) (st : UnpackState) (src : List UInt8) : Prop :=
  match ending src st.size with
  | .whole => ReadsInside y st src ∧ (unpackLoop y st).2 ≠ none
  | .header => ¬ReadsInside y st src
  | .block => ReadsInside y st src ∧ (unpackLoop y st).2 = none
  | .segment missing place =>
    (ReadsInside y st src ↔ n ≤ place) ∧ ((unpackLoop y st).2 = none ↔ missing ≠ 1)

variable {src src' : List UInt8} {st' : UnpackState}

def UnpackState.skip (st : UnpackState) : UnpackState :=
  { st with srcsz := st.srcsz - 1, src := st.src + 1 }

@[simp] theorem UnpackState.skip_src (st : UnpackState) : st.skip.src = st.src + 1 := rfl

@[simp] theorem UnpackState.skip_srcsz (st : UnpackState) : st.skip.srcsz = st.srcsz - 1 := rfl

theorem unpackRound_ff (h : y st.src = 0xff) : unpackRound y st = unpackFf y st.skip := if_pos h

theorem readsRound_ff (h : y st.src = 0xff) : readsRound y st = st.src :: readsFf y st.skip :=
  congrArg (List.cons st.src) (if_pos h)

theorem unpackRound_bits (h : y st.src ≠ 0xff) :
    unpackRound y st = unpackBits y (y st.src) 8 st.skip := if_neg h

theorem readsRound_bits (h : y st.src ≠ 0xff) :
    readsRound y st = st.src :: readsBits y (y st.src) 8 st.skip :=
  congrArg (List.cons st.src) (if_neg h)

theorem readsInside_cons (hpos : 0 < st.srcsz) :
    ReadsInside y st src ↔ (∀ i ∈ readsRound y st, i < st.src + src.length) ∧
      ((unpackRound y st).2 = true →
        ∀ i ∈ readsLoop y (unpackRound y st).1, i < st.src + src.length) := by
  rw [ReadsInside, readsLoop, if_pos hpos, List.forall_mem_append]
  apply and_congr_right
  intro _
  split
  case isTrue hok => rw [imp_iff_right hok]
  case isFalse hfail => exact iff_of_true (List.forall_mem_nil _) fun hok => absurd hok hfail

theorem unpackLoop_next (hpos : 0 < st.srcsz) (hok : (unpackRound y st).2 = true) :
    unpackLoop y st = unpackLoop y (unpackRound y st).1 := by
  rw [unpackLoop, if_pos hpos, if_pos hok]

theorem unpackLoop_failed (hpos : 0 < st.srcsz) (hfail : ¬(unpackRound y st).2 = true) :
    (unpackLoop y st).2 = none := by
  rw [unpackLoop, if_pos hpos, if_neg hfail]

theorem unpackLoop_done (h : ¬0 < st.srcsz) : readsLoop y st = [] ∧ (unpackLoop y st).2 ≠ none := by
  rw [readsLoop, if_neg h, unpackLoop, if_neg h]
  exact ⟨rfl, nofun⟩

theorem Outcome.step (hpos : 0 < st.srcsz) (hok : (unpackRound y st).2 = true)
    (hreads : ∀ i ∈ readsRound y st, i < st.src + src.length)
    (hplace : (unpackRound y st).1.src + src'.length = st.src + src.length)
    (hending : ending src st.size = ending src' (unpackRound y st).1.size)
    (h : Outcome y n (unpackRound y st).1 src') : Outcome y n st src := by
  have hinside : ReadsInside y st src ↔ ReadsInside y (unpackRound y st).1 src' := by
    rw [readsInside_cons hpos, and_iff_right hreads, imp_iff_right hok, ReadsInside, hplace]
  unfold Outcome at h ⊢
  rw [hending, unpackLoop_next hpos hok]
  simp only [hinside]
  exact h

theorem ending_segment {header : UInt8} (hff : header ≠ 0xff) (size : Nat) :
    ending (header :: src) size =
      if src.length < (bits header 8).count true then
        .segment ((bits header 8).count true - src.length)
          (size + due src.length (bits header 8))
      else ending (src.drop ((bits header 8).count true)) (size + 8) := by
  rw [ending.eq_def]
  exact if_neg hff

theorem ending_header (size : Nat) : ending [0xff] size = .header := by
  rw [ending.eq_def]
  exact if_pos rfl

theorem ending_block (count : UInt8) (size : Nat) :
    ending (0xff :: count :: src) size =
      if src.length < (count.toNat + 1) * 8 then .block
      else ending (src.drop ((count.toNat + 1) * 8)) (size + (count.toNat + 1) * 8) := by
  rw [ending]
  exact if_pos rfl

theorem readsFf_cons {count : Nat} (hcount : (y st.src).toNat = count) (hsrcsz : ¬st.srcsz < 0) :
    readsFf y st = st.src :: if st.srcsz < ((count + 1) * 8 : Nat) + 1 then []
      else if st.bufsz ≥ ((count + 1) * 8 : Nat) then List.range' (st.src + 1) ((count + 1) * 8)
      else [] := by
  rw [readsFf, if_neg hsrcsz, hcount]

theorem Left.next (h : Left y n st (header :: src)) :
    0 < st.srcsz ∧ y st.src = header ∧ st.skip.srcsz = src.length ∧ Holds y st.skip.src src ∧
      Roomy n st.skip := by
  have hsrcsz := h.srcsz
  rw [List.length_cons] at hsrcsz
  refine ⟨by omega, h.holds.head, ?_, h.holds.tail, h.roomy⟩
  rw [UnpackState.skip_srcsz]
  omega

theorem outcome_segment (h : Left y n st (header :: src)) (hff : header ≠ 0xff)
    (ih : ∀ src' st', src'.length < (header :: src).length → Left y n st' src' →
      Outcome y n st' src') : Outcome y n st (header :: src) := by
  obtain ⟨hpos, hhead, hsrcsz, hholds, hroomy⟩ := h.next
  have hread : y st.src ≠ 0xff := by rwa [hhead]
  have hround := unpackRound_bits hread
  have hreads := readsRound_bits hread
  rw [hhead] at hround hreads
  have hplace : st.skip.src + src.length = st.src + (header :: src).length := by
    rw [List.length_cons, UnpackState.skip_src]
    omega
  by_cases hshort : src.length < (bits header 8).count true
  · have hbits := bits_short y header 8 hsrcsz hroomy hshort
    have hinside : ReadsInside y st (header :: src) ↔
        n ≤ (st.size + due src.length (bits header 8) : Nat) := by
      have hdone := (@unpackLoop_done y _ (Int.not_lt.mpr hbits.srcsz.le)).1
      rw [readsInside_cons hpos, hround, hreads, List.forall_mem_cons, hdone, ← hplace,
        hbits.reads]
      constructor
      · rintro ⟨⟨-, hle⟩, -⟩
        exact hle
      · intro hle
        refine ⟨⟨?_, hle⟩, fun _ => List.forall_mem_nil _⟩
        rw [UnpackState.skip_src]
        omega
    unfold Outcome
    rw [ending_segment hff, if_pos hshort]
    refine ⟨hinside, ?_⟩
    by_cases hok : (unpackRound y st).2 = true
    · rw [unpackLoop_next hpos hok]
      rw [hround] at hok ⊢
      have hone := hbits.ok.mp hok
      have hdone := (@unpackLoop_done y _ (Int.not_lt.mpr hbits.srcsz.le)).2
      exact iff_of_false hdone (by omega)
    · apply iff_of_true (unpackLoop_failed hpos hok)
      rw [hround] at hok
      intro hone
      exact hok (hbits.ok.mpr (by omega))
  · have hbits := bits_whole y header 8 hsrcsz hroomy (Nat.not_lt.mp hshort)
    have hsrc := hbits.src
    have hleft : Left y n (unpackRound y st).1 (src.drop ((bits header 8).count true)) := by
      rw [hround]
      refine ⟨?_, ?_, hbits.roomy⟩
      · rw [hbits.srcsz, List.length_drop]
        omega
      · rw [hsrc]
        rw [← List.take_append_drop ((bits header 8).count true) src] at hholds
        have hright := hholds.right
        rwa [List.length_take, Nat.min_eq_left (Nat.not_lt.mp hshort)] at hright
    refine Outcome.step hpos ?_ ?_ ?_ ?_ (ih _ _ ?_ hleft)
    · rw [hround]
      exact hbits.ok
    · rw [hreads, List.forall_mem_cons, ← hplace]
      refine ⟨?_, hbits.reads⟩
      rw [UnpackState.skip_src]
      omega
    · rw [hround, hsrc, ← hplace, List.length_drop]
      omega
    · rw [ending_segment hff, if_neg hshort, hround, hbits.size]
      rfl
    · rw [List.length_drop, List.length_cons]
      omega

theorem outcome_header (h : Left y n st [0xff]) : Outcome y n st [0xff] := by
  obtain ⟨hpos, hhead, hsrcsz, -, -⟩ := h.next
  unfold Outcome
  rw [ending_header, readsInside_cons hpos, readsRound_ff hhead]
  rintro ⟨hreads, -⟩
  have hlt := hreads st.skip.src (List.mem_cons_of_mem _ (by
    rw [readsFf, if_neg (by rw [hsrcsz]; exact Int.not_lt.mpr (Int.natCast_nonneg _))]
    exact List.mem_cons_self))
  exact absurd hlt (Nat.lt_irrefl _)

theorem outcome_block {count : UInt8} (h : Left y n st (0xff :: count :: src))
    (ih : ∀ src' st', src'.length < (0xff :: count :: src).length → Left y n st' src' →
      Outcome y n st' src') : Outcome y n st (0xff :: count :: src) := by
  obtain ⟨hpos, hhead, hsrcsz, hholds, hroomy⟩ := h.next
  have hcount : (y st.skip.src).toNat = count.toNat := by rw [hholds.head]
  rw [List.length_cons] at hsrcsz
  have hfull : ¬st.skip.srcsz < 0 := by omega
  have hround := unpackRound_ff hhead
  have hreads := readsRound_ff hhead
  rw [readsFf_cons hcount hfull] at hreads
  rw [unpackFf, if_neg hfull, hcount] at hround
  dsimp only at hround
  have hskip : st.skip.src = st.src + 1 := rfl
  by_cases hshort : src.length < (count.toNat + 1) * 8
  · have hlt : st.skip.srcsz < ((count.toNat + 1) * 8 : Nat) + 1 := by omega
    rw [if_pos hlt] at hround hreads
    have hfailed : ¬(unpackRound y st).2 = true := by
      rw [hround]
      exact Bool.false_ne_true
    unfold Outcome
    rw [ending_block, if_pos hshort]
    refine ⟨(readsInside_cons hpos).mpr ⟨?_, fun hok => absurd hok hfailed⟩,
      unpackLoop_failed hpos hfailed⟩
    rw [hreads]
    intro i hi
    simp only [List.mem_cons, List.not_mem_nil, or_false] at hi
    simp only [List.length_cons]
    omega
  · have hge : ¬st.skip.srcsz < ((count.toNat + 1) * 8 : Nat) + 1 := by omega
    rw [if_neg hge] at hround hreads
    have hleft : Left y n (unpackRound y st).1 (src.drop ((count.toNat + 1) * 8)) := by
      rw [hround]
      refine ⟨?_, ?_, ?_⟩
      · dsimp only
        rw [List.length_drop]
        omega
      · have htail := hholds.tail
        rw [← List.take_append_drop ((count.toNat + 1) * 8) src] at htail
        have hright := htail.right
        rwa [List.length_take, Nat.min_eq_left (Nat.not_lt.mp hshort)] at hright
      · unfold Roomy at hroomy ⊢
        dsimp only
        omega
    refine Outcome.step hpos ?_ ?_ ?_ ?_ (ih _ _ ?_ hleft)
    · rw [hround]
    · rw [hreads]
      intro i hi
      simp only [List.mem_cons] at hi
      simp only [List.length_cons]
      obtain hi | hi | hi := hi
      · omega
      · omega
      · split at hi
        · rw [List.mem_range'_1] at hi
          omega
        · cases hi
    · rw [hround, List.length_drop]
      simp only [List.length_cons]
      omega
    · rw [ending_block, if_neg hshort, hround]
      rfl
    · simp only [List.length_drop, List.length_cons]
      omega

theorem outcome_of_left (src : List UInt8) (st : UnpackState) (h : Left y n st src) :
    Outcome y n st src := by
  induction hlen : src.length using Nat.strong_induction_on generalizing src st with
  | _ len ih =>
    subst hlen
    have hnext : ∀ src' st', src'.length < src.length → Left y n st' src' → Outcome y n st' src' :=
      fun src' st' hlt hleft => ih _ hlt src' st' hleft rfl
    match src, h, hnext with
    | [], h, _ =>
      obtain ⟨hreads, hresult⟩ := @unpackLoop_done y st (by
        rw [h.srcsz]
        exact Int.lt_irrefl 0)
      unfold Outcome
      rw [ending, ReadsInside, hreads]
      exact ⟨List.forall_mem_nil _, hresult⟩
    | header :: src, h, hnext =>
      by_cases hff : header = 0xff
      · subst hff
        match src, h, hnext with
        | [], h, _ => exact outcome_header h
        | count :: src, h, hnext => exact outcome_block h hnext
      · exact outcome_segment h hff hnext

/-- Where truncated bytes are found out, and nothing is read behind them: they do not end with a
header 0xff, and a segment that is not whole lacks more than one byte and has no room for the first
of them. -/
def FoundOut (bufsz : Int) : Ending → Prop
  | .whole | .block => True
  | .header => False
  | .segment missing place => missing ≠ 1 ∧ bufsz ≤ place

/-- Unpacking is safe, with whatever lies behind the bytes and in the buffer, exactly for the bytes
that are whole or end where that is found out. -/
theorem unpacks_inside_iff (src : List UInt8) (bufsz : Int) :
    UnpacksInside src bufsz ↔ FoundOut bufsz (ending src 0) := by
  have hleft (y mem : Memory) (hholds : Holds y 0 src) :
      Left y bufsz ⟨0, src.length, mem, 0, bufsz, 0⟩ src :=
    ⟨rfl, hholds, fun _ => by simp⟩
  have hinside (y mem : Memory) : ReadsInside y ⟨0, src.length, mem, 0, bufsz, 0⟩ src ↔
      ∀ i ∈ unpackReads y src.length mem bufsz, i < src.length := by
    rw [ReadsInside, Nat.zero_add, unpackReads]
  constructor
  · intro h
    let y : Memory := fun i => src.getD i 0
    have hholds : Holds y 0 src := by
      intro k a hk
      simp [y, List.getD_eq_getElem?_getD, hk]
    obtain ⟨hreads, hresult⟩ := h y y hholds
    have houtcome := outcome_of_left src _ (hleft y y hholds)
    unfold Outcome at houtcome
    rw [Truncated] at hresult
    rw [← hinside] at hreads
    cases hending : ending src 0 with
    | whole | block => trivial
    | header =>
      rw [hending] at houtcome
      exact houtcome hreads
    | segment missing place =>
      rw [hending] at houtcome hresult
      exact ⟨houtcome.2.mp (hresult nofun), houtcome.1.mp hreads⟩
  · intro h y mem hholds
    have houtcome := outcome_of_left src _ (hleft y mem hholds)
    unfold Outcome at houtcome
    rw [Truncated, ← hinside]
    cases hending : ending src 0 with
    | whole =>
      rw [hending] at houtcome
      exact ⟨houtcome.1, fun hne => absurd rfl hne⟩
    | block =>
      rw [hending] at houtcome
      exact ⟨houtcome.1, fun _ => houtcome.2⟩
    | header =>
      rw [hending] at h
      exact h.elim
    | segment missing place =>
      rw [hending] at houtcome h
      exact ⟨houtcome.1.mpr h.2, fun _ => houtcome.2.mpr h.1⟩

/-- A header of one byte, and nothing behind it: a byte is read there, and the result is 8. -/
theorem unpacks_outside_one :
    ¬∀ (src : List UInt8) (bufsz : Int), UnpacksInside src bufsz := by
  intro h
  have hholds : Holds (fun _ => (1 : UInt8)) 0 [1] := by
    intro k a hk
    obtain ⟨hlt, rfl⟩ := List.getElem?_eq_some_iff.mp hk
    simp at hlt
    simp
  have hresult := (h [1] 8 (fun _ => 1) (fun _ => 0) hholds).2
  have hending : ending [1] 0 = .segment 1 0 := by
    rw [ending_segment (by decide), if_pos (by decide)]
    rfl
  rw [Truncated, hending] at hresult
  have hrun : (sprotoUnpack (fun _ => 1) 1 (fun _ => 0) 8).2 = some 8 := by
    rw [sprotoUnpack, unpackLoop, if_pos (by decide), if_pos (by decide), unpackLoop,
      if_neg (by decide)]
    rfl
  exact absurd (hresult nofun) (by
    rw [show ([1] : List UInt8).length = 1 from rfl, hrun]
    exact nofun)

end XsServer.Sproto
