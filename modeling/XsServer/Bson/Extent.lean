import XsServer.Bson.Decode

/-! When decoding stays in the buffer: what the functions of the reader do in a window that lies
in it, and a scan of the values that decoding comes to, with the least length that each type
needs. -/

namespace XsServer.Bson

open Lib XsServer.ServiceGate

/-- A read of bytes of the buffer, a length that is not negative, or a round that comes further. -/
def Event.Fine (len : Int) : Event → Prop
  | .read pos n => 0 ≤ pos ∧ pos + n ≤ len
  | .handed n => 0 ≤ n
  | .round start finish => start < finish

abbrev Goes {α : Type} (len : Int) (enough : Prop) (P : α → Prop) (v : Verdict) (x : Decode α) :
    Prop :=
  Agrees (Event.Fine len) Stop.unfinished enough P v x

/-- The reader of the bytes from `p` to `hi`. -/
def window (p hi : Int) : BsonReader := ⟨p, hi - p⟩

structure Window (len p hi : Int) : Prop where
  nonneg : 0 ≤ p
  le : p ≤ hi
  le_len : hi ≤ len
  len_lt : len < 2 ^ 31

variable {mem : Memory} {len p hi k : Int} {enough : Prop} {α : Type} {v : α}

@[simp] theorem window_ptr : (window p hi).ptr = p := rfl

@[simp] theorem window_size : (window p hi).size = hi - p := rfl

theorem Window.move (hw : Window len p hi) (h0 : 0 ≤ k) (h : p + k ≤ hi) :
    Window len (p + k) hi :=
  ⟨Int.add_nonneg hw.nonneg h0, h, hw.le_len, hw.len_lt⟩

theorem Window.skip (hw : Window len p hi) (h0 : 0 ≤ k) (h : p + k ≤ hi) :
    (window p hi).skip k = window (p + k) hi := by
  have := hw.nonneg
  have := hw.le_len
  have := hw.len_lt
  have hsize : int32 (hi - p - k) = hi - (p + k) := by
    unfold int32
    rw [Int.bmod_eq_of_le (by omega) (by omega)]
    omega
  rw [BsonReader.skip, window_ptr, window_size, hsize]
  rfl

theorem checkReader_done (h : p + k ≤ hi) :
    Goes len enough (fun _ => True) .done (checkReader (window p hi) k) := by
  rw [checkReader, window_size, if_neg (by omega)]
  exact .pure trivial

theorem checkReader_stopped (h : hi < p + k) {P : Unit → Prop} :
    Goes len enough P .stopped (checkReader (window p hi) k) := by
  rw [checkReader, window_size, if_pos (by omega)]
  exact .stop nofun

/-- A value of `k` bytes. -/
def fixed (br : BsonReader) (k : Int) (v : α) : Decode (α × BsonReader) := do
  checkReader br k
  .log (.read br.ptr k)
  return (v, br.skip k)

theorem fixed_done (hw : Window len p hi) (h0 : 0 ≤ k) (h : p + k ≤ hi) :
    Goes len enough (fun r => r = (v, window (p + k) hi)) .done (fixed (window p hi) k v) := by
  apply (checkReader_done h).next
  intro _ _
  have hread : (Event.read p k).Fine len := ⟨hw.nonneg, h.trans hw.le_len⟩
  apply (Agrees.log hread).next
  intro _ _
  exact .pure (by rw [hw.skip h0 h])

theorem fixed_stopped (h : hi < p + k) {P : α × BsonReader → Prop} :
    Goes len enough P .stopped (fixed (window p hi) k v) :=
  (checkReader_stopped (P := fun _ => True) h).bind_of_ne nofun

theorem readBytes_done (hw : Window len p hi) (h0 : 0 ≤ k) (h : p + k ≤ hi) :
    Goes len enough (fun r => r = (p, window (p + k) hi)) .done (readBytes (window p hi) k) := by
  apply (Agrees.log (show (Event.handed k).Fine len from h0)).next
  intro _ _
  apply (checkReader_done h).next
  intro _ _
  exact .pure (by rw [hw.skip h0 h, window_ptr])

theorem readBytes_stopped (h0 : 0 ≤ k) (h : hi < p + k) {P : Int × BsonReader → Prop} :
    Goes len enough P .stopped (readBytes (window p hi) k) := by
  apply (Agrees.log (show (Event.handed k).Fine len from h0)).next
  intro _ _
  exact (checkReader_stopped (P := fun _ => True) h).bind_of_ne nofun

theorem readBytes_violated (h : k < 0) {br : BsonReader} {P : Int × BsonReader → Prop} :
    Goes len enough P .violated (readBytes br k) := by
  have hbad : ¬ (Event.handed k).Fine len := Int.not_le.mpr h
  exact (Agrees.log_bad (P := fun _ => True) hbad).bind_of_ne nofun

theorem cstringLoop_lt {n i j : Nat} (h : cstringLoop mem p n i = some j) : j < i + n := by
  induction n generalizing i with
  | zero => cases h
  | succ n ih =>
    rw [cstringLoop] at h
    split at h
    · cases h
      omega
    · have := ih h
      omega

theorem readCstring_done (hw : Window len p hi) {i : Nat}
    (h : cstringLoop mem p (hi - p).toNat 0 = some i) :
    Goes len enough (fun r => r = (p, i, window (p + (i + 1)) hi)) .done
      (readCstring mem (window p hi)) := by
  have hlt := cstringLoop_lt h
  have := hw.le_len
  have hread : (Event.read p (i + 1)).Fine len := ⟨hw.nonneg, by omega⟩
  rw [readCstring, window_ptr, window_size, h]
  apply (Agrees.log hread).next
  intro _ _
  exact .pure (by rw [hw.skip (by omega) (by omega)])

theorem readCstring_stopped (hw : Window len p hi)
    (h : cstringLoop mem p (hi - p).toNat 0 = none) {P : Int × Nat × BsonReader → Prop} :
    Goes len enough P .stopped (readCstring mem (window p hi)) := by
  have := hw.le
  have := hw.le_len
  have hread : (Event.read p (hi - p).toNat).Fine len := ⟨hw.nonneg, by omega⟩
  rw [readCstring, window_ptr, window_size, h]
  apply (Agrees.log hread).next
  intro _ _
  exact .stop nofun

theorem addlstring_done {b : List UInt8} (hp : 0 ≤ p) (h0 : 0 ≤ k) (h : p + k ≤ len) :
    Goes len enough (fun _ => True) .done (addlstring mem b p k) := by
  apply (Agrees.log (show (Event.handed k).Fine len from h0)).next
  intro _ _
  rw [if_neg (by omega)]
  apply (Agrees.log (show (Event.read p k).Fine len from ⟨hp, h⟩)).next
  intro _ _
  exact .pure trivial

theorem makeObject_done {bt : BsonType} (hp : 0 ≤ p) (h0 : 0 ≤ k) (h : p + k ≤ len) :
    Goes len enough (fun _ => True) .done (makeObject mem bt p k) := by
  apply (addlstring_done hp h0 h).next
  intro _ _
  exact .pure trivial

/-- `unpack_dict` or `lmakeindex`. -/
inductive Mode
  | decode
  | index
  deriving DecidableEq

/-- The form of a value: some bytes; two strings; a length, and behind the first `k` bytes as many
as the length and `add` say; a string with its zero; a document. -/
inductive Form
  | plain (k : Nat)
  | strings
  | counted (k : Nat) (add : Int)
  | text
  | document

def form : Mode → BsonType → Form
  | _, .real | _, .date | _, .timestamp | _, .int64 => .plain 8
  | _, .boolean => .plain 1
  | _, .int32 => .plain 4
  | _, .objectid => .plain 12
  | _, .null | _, .minkey | _, .maxkey => .plain 0
  | _, .regex => .strings
  | _, .jscode | _, .symbol => .counted 4 0
  | _, .codews => .counted 4 (-4)
  | _, .dbpointer => .counted 4 12
  | .decode, .string => .text
  | .decode, .binary => .counted 5 0
  | .decode, .document | .decode, .array => .document
  | .index, .string => .counted 4 0
  | .index, .binary => .counted 4 1
  | .index, .document | .index, .array => .counted 4 (-4)

/-- What stands behind a key: a value of some bytes, a value that is cut off or not valid, or a
length below the least one of its type. -/
inductive Extent
  | bytes (n : Nat)
  | cut
  | short
  deriving DecidableEq

/-- The value of a form from `p` on, where the bytes end with `hi`. -/
def extent (mem : Memory) (p hi : Int) : Form → Extent
  | .plain k => if p + k ≤ hi then .bytes k else .cut
  | .strings =>
    match cstringLoop mem p (hi - p).toNat 0 with
    | none => .cut
    | some i =>
      match cstringLoop mem (p + (i + 1)) (hi - (p + (i + 1))).toNat 0 with
      | none => .cut
      | some j => .bytes (i + 1 + (j + 1))
  | .counted k add =>
    let sz := int32 (getLength mem p + add)
    if hi < p + k then .cut
    else if sz < 0 then .short
    else if p + k + sz ≤ hi then .bytes (k + sz.toNat)
    else .cut
  | .text =>
    let sz := getLength mem p
    if p + 4 ≤ hi ∧ 0 < sz ∧ p + 4 + sz ≤ hi then .bytes (4 + sz.toNat) else .cut
  | .document =>
    let sz := int32 (getLength mem p - 5)
    if hi < p + 4 then .cut
    else if sz < 0 then .short
    else if p + 4 + sz < hi ∧ mem (p + 4 + sz) = 0 then .bytes (4 + sz.toNat + 1)
    else .cut

variable {mem : Memory} {mode : Mode} {bt : BsonType} {p hi lo : Int} {n : Nat}

theorem extent_le {form : Form} (h : extent mem p hi form = .bytes n) : p + n ≤ hi := by
  cases form with
  | plain k =>
    rw [extent] at h
    split at h
    · cases h
      assumption
    · cases h
  | strings =>
    rw [extent] at h
    split at h
    · cases h
    · rename_i i hi'
      split at h
      · cases h
      · rename_i j hj
        have := cstringLoop_lt hi'
        have := cstringLoop_lt hj
        cases h
        omega
  | counted k add =>
    simp only [extent] at h
    generalize int32 (getLength mem p + add) = sz at h
    split_ifs at h
    have := Extent.bytes.inj h
    omega
  | text =>
    simp only [extent] at h
    generalize getLength mem p = sz at h
    split_ifs at h
    have := Extent.bytes.inj h
    omega
  | document =>
    simp only [extent] at h
    generalize int32 (getLength mem p - 5) = sz at h
    split_ifs at h
    have := Extent.bytes.inj h
    omega

/-- How decoding goes from `lo` to `hi`: it stops at what is cut off or not valid, and fails at a
length that is too short. -/
def scan (mem : Memory) (mode : Mode) (lo hi : Int) : Verdict :=
  if _hlt : lo < hi then
    match _hkey : cstringLoop mem (lo + 1) (hi - (lo + 1)).toNat 0 with
    | none => .stopped
    | some i =>
      let p := lo + 1 + (i + 1)
      match BsonType.ofCode (mem lo) with
      | none => .stopped
      | some bt =>
        match _hvalue : extent mem p hi (form mode bt) with
        | .cut => .stopped
        | .short => .violated
        | .bytes n =>
          (match form mode bt with
            | .document => scan mem mode (p + 4) (p + n - 1)
            | _ => .done).andThen (scan mem mode (p + n) hi)
  else .done
  termination_by (hi - lo).toNat
  decreasing_by
    all_goals
      have := extent_le _hvalue
      omega

/-- The verdict on a value, where `f` is the one on what is in it. -/
def Extent.andThen : Extent → (Nat → Verdict) → Verdict
  | .bytes n, f => f n
  | .cut, _ => .stopped
  | .short, _ => .violated

/-- The verdict on what is in a value of `n` bytes. -/
def inside (mem : Memory) (mode : Mode) (p : Int) (n : Nat) : Form → Verdict
  | .document => scan mem mode (p + 4) (p + n - 1)
  | _ => .done

theorem scan_end (h : hi ≤ lo) : scan mem mode lo hi = .done := by
  rw [scan, dif_neg (Int.not_lt.mpr h)]

theorem scan_key (h : lo < hi)
    (hkey : cstringLoop mem (lo + 1) (hi - (lo + 1)).toNat 0 = none) :
    scan mem mode lo hi = .stopped := by
  rw [scan, dif_pos h]
  split
  · rfl
  · rename_i i hi'
    rw [hkey] at hi'
    cases hi'

theorem scan_type (h : lo < hi) (htype : BsonType.ofCode (mem lo) = none) :
    scan mem mode lo hi = .stopped := by
  rw [scan, dif_pos h]
  split
  · rfl
  · simp only [htype]

theorem scan_value {i : Nat} (h : lo < hi)
    (hkey : cstringLoop mem (lo + 1) (hi - (lo + 1)).toNat 0 = some i)
    (htype : BsonType.ofCode (mem lo) = some bt) :
    scan mem mode lo hi = (extent mem (lo + 1 + (i + 1)) hi (form mode bt)).andThen fun n =>
      (inside mem mode (lo + 1 + (i + 1)) n (form mode bt)).andThen
        (scan mem mode (lo + 1 + (i + 1) + n) hi) := by
  rw [scan, dif_pos h]
  split
  · rename_i hnone
    rw [hkey] at hnone
    cases hnone
  · rename_i j hj
    obtain rfl : i = j := Option.some.inj (hkey.symm.trans hj)
    simp only [htype]
    split
    · rename_i hcut
      rw [hcut, Extent.andThen]
    · rename_i hshort
      rw [hshort, Extent.andThen]
    · rename_i n hbytes
      rw [hbytes, Extent.andThen]
      rfl

/-! ### Values -/

theorem int32_getLength (mem : Memory) (p : Int) : int32 (getLength mem p) = getLength mem p := by
  rw [getLength, int32, int32, Int.bmod_bmod]

section

variable {len : Int} {enough : Prop} {α : Type} {e : Extent} {f : Nat → Verdict} {br : BsonReader}
  {add : Int} {x : Decode (α × BsonReader)}

abbrev Behind (p hi : Int) (e : Extent) (r : α × BsonReader) : Prop :=
  ∀ n, e = .bytes n → r.2 = window (p + n) hi

theorem goes_bytes (h : Goes len enough (fun r => r.2 = window (p + n) hi) (f n) x) :
    Goes len enough (Behind p hi (.bytes n)) ((Extent.bytes n).andThen f) x := by
  apply h.mono _ id
  rintro r hr _ ⟨⟩
  exact hr

theorem goes_cut (h : Goes len enough (fun _ => True) .stopped x) :
    Goes len enough (Behind p hi .cut) (Extent.cut.andThen f) x :=
  h.mono (fun _ _ _ h => nomatch h) id

theorem goes_short (h : Goes len enough (fun _ => True) .violated x) :
    Goes len enough (Behind p hi .short) (Extent.short.andThen f) x :=
  h.mono (fun _ _ _ h => nomatch h) id

theorem plain_goes {β : Type} {k : Nat} {v : β} {g : β → BsonReader → Decode (α × BsonReader)}
    (hw : Window len p hi)
    (hg : p + k ≤ hi → Goes len enough (fun r => r.2 = window (p + k) hi) .done
      (g v (window (p + k) hi))) :
    Goes len enough (Behind p hi (extent mem p hi (.plain k)))
      ((extent mem p hi (.plain k)).andThen fun _ => .done)
      (do
        let (v, br) ← fixed (window p hi) k v
        g v br) := by
  rw [extent]
  by_cases hle : p + k ≤ hi
  · rw [if_pos hle]
    apply goes_bytes
    apply (fixed_done hw (Int.natCast_nonneg k) hle).next
    rintro _ rfl
    exact hg hle
  · rw [if_neg hle]
    apply goes_cut
    exact (fixed_stopped (P := fun _ => True) (Int.not_le.mp hle)).bind_of_ne nofun

theorem readInt32_done (hw : Window len p hi) (h : p + 4 ≤ hi) :
    Goes len enough (fun r => r = (getLength mem p, window (p + 4) hi)) .done
      (readInt32 mem (window p hi)) :=
  fixed_done hw (by decide) h

theorem readInt32_stopped (h : hi < p + 4) {P : Int × BsonReader → Prop} :
    Goes len enough P .stopped (readInt32 mem (window p hi)) :=
  fixed_stopped h

theorem taken_goes {k : Nat} {g : Int → BsonReader → Decode (α × BsonReader)}
    (hw : Window len p hi)
    (hg : p + k ≤ hi → Goes len enough (fun r => r.2 = window (p + k) hi) .done
      (g p (window (p + k) hi))) :
    Goes len enough (Behind p hi (extent mem p hi (.plain k)))
      ((extent mem p hi (.plain k)).andThen fun _ => .done)
      (do
        let (q, br) ← readBytes (window p hi) k
        g q br) := by
  rw [extent]
  by_cases hle : p + k ≤ hi
  · rw [if_pos hle]
    apply goes_bytes
    apply (readBytes_done hw (Int.natCast_nonneg k) hle).next
    rintro _ rfl
    exact hg hle
  · rw [if_neg hle]
    apply goes_cut
    exact (readBytes_stopped (P := fun _ => True) (Int.natCast_nonneg k)
      (Int.not_le.mp hle)).bind_of_ne nofun

theorem empty_goes {v : α} (hw : Window len p hi) :
    Goes len enough (Behind p hi (extent mem p hi (.plain 0)))
      ((extent mem p hi (.plain 0)).andThen fun _ => .done)
      (pure (v, window p hi)) := by
  rw [extent, if_pos (by simpa using hw.le)]
  apply goes_bytes
  apply Agrees.pure
  exact congrArg (window · hi) (Int.add_zero p).symm

theorem pair_goes {g : Int → Int → BsonReader → Decode (α × BsonReader)} (hw : Window len p hi)
    (hg : ∀ m n, Goes len enough (fun r => r.2 = window (p + 8) hi) .done
      (g m n (window (p + 8) hi))) :
    Goes len enough (Behind p hi (extent mem p hi (.plain 8)))
      ((extent mem p hi (.plain 8)).andThen fun _ => .done)
      (do
        let (m, br) ← readInt32 mem (window p hi)
        let (n, br) ← readInt32 mem br
        g m n br) := by
  rw [extent]
  by_cases h4 : p + 4 ≤ hi
  · have hw4 := hw.move (by decide) h4
    by_cases h8 : p + 4 + 4 ≤ hi
    · rw [if_pos (by omega)]
      apply goes_bytes
      apply (readInt32_done hw h4).next
      rintro _ rfl
      apply (readInt32_done hw4 h8).next
      rintro _ rfl
      dsimp only
      rw [Int.add_assoc]
      exact hg ..
    · rw [if_neg (by omega)]
      apply goes_cut
      apply (readInt32_done hw h4).next
      rintro _ rfl
      exact (readInt32_stopped (P := fun _ => True) (Int.not_le.mp h8)).bind_of_ne nofun
  · rw [if_neg (by omega)]
    apply goes_cut
    exact (readInt32_stopped (P := fun _ => True) (Int.not_le.mp h4)).bind_of_ne nofun

theorem counted_goes {f : Int → Int} {g : Int → Int → BsonReader → Decode (α × BsonReader)}
    (hw : Window len p hi) (hf : f (getLength mem p) = int32 (getLength mem p + add))
    (hg : ∀ sz, sz = int32 (getLength mem p + add) → 0 ≤ sz → p + 4 + sz ≤ hi →
      Goes len enough (fun r => r.2 = window (p + 4 + sz) hi) .done
        (g (getLength mem p) (p + 4) (window (p + 4 + sz) hi))) :
    Goes len enough (Behind p hi (extent mem p hi (.counted 4 add)))
      ((extent mem p hi (.counted 4 add)).andThen fun _ => .done)
      (do
        let (sz, br) ← readInt32 mem (window p hi)
        let (q, br) ← readBytes br (f sz)
        g sz q br) := by
  simp only [extent]
  generalize hsz : int32 (getLength mem p + add) = sz at hf hg
  by_cases h4 : hi < p + 4
  · rw [if_pos (by exact_mod_cast h4)]
    apply goes_cut
    exact (readInt32_stopped (P := fun _ => True) h4).bind_of_ne nofun
  · have hfour := Int.not_lt.mp h4
    have hw4 := hw.move (by decide) hfour
    rw [if_neg (by exact_mod_cast h4)]
    by_cases hneg : sz < 0
    · rw [if_pos hneg]
      apply goes_short
      apply (readInt32_done hw hfour).next
      rintro _ rfl
      refine Agrees.bind_of_ne (readBytes_violated ?_ (P := fun _ => True)) nofun
      rw [hf]
      exact hneg
    · rw [if_neg hneg]
      by_cases hle : p + 4 + sz ≤ hi
      · rw [if_pos (by exact_mod_cast hle)]
        apply goes_bytes
        apply (readInt32_done hw hfour).next
        rintro _ rfl
        refine (readBytes_done hw4 ?_ ?_).next ?_
        · rw [hf]
          exact Int.not_lt.mp hneg
        · rw [hf]
          exact hle
        · rintro _ rfl
          have hn : p + ((4 + sz.toNat : Nat) : Int) = p + 4 + sz := by omega
          dsimp only
          rw [hn, hf]
          exact hg sz rfl (Int.not_lt.mp hneg) hle
      · rw [if_neg (by exact_mod_cast hle)]
        apply goes_cut
        apply (readInt32_done hw hfour).next
        rintro _ rfl
        refine Agrees.bind_of_ne (readBytes_stopped ?_ ?_ (P := fun _ => True)) nofun
        · rw [hf]
          exact Int.not_lt.mp hneg
        · rw [hf]
          exact Int.not_le.mp hle

theorem strings_goes {g : Int → Nat → Int → Nat → BsonReader → Decode (α × BsonReader)}
    (hw : Window len p hi)
    (hg : ∀ i j : Nat, p + (i + 1) + (j + 1) ≤ hi →
      Goes len enough (fun r => r.2 = window (p + (i + 1) + (j + 1)) hi) .done
        (g p i (p + (i + 1)) j (window (p + (i + 1) + (j + 1)) hi))) :
    Goes len enough (Behind p hi (extent mem p hi .strings))
      ((extent mem p hi .strings).andThen fun _ => .done)
      (do
        let (p₁, n₁, br) ← readCstring mem (window p hi)
        let (p₂, n₂, br) ← readCstring mem br
        g p₁ n₁ p₂ n₂ br) := by
  rw [extent]
  cases hone : cstringLoop mem p (hi - p).toNat 0 with
  | none =>
    apply goes_cut
    exact (readCstring_stopped (P := fun _ => True) hw hone).bind_of_ne nofun
  | some i =>
    have hlt := cstringLoop_lt hone
    have hw' : Window len (p + (i + 1)) hi := hw.move (by omega) (by omega)
    cases htwo : cstringLoop mem (p + (i + 1)) (hi - (p + (i + 1))).toNat 0 with
    | none =>
      dsimp only
      rw [htwo]
      apply goes_cut
      apply (readCstring_done hw hone).next
      rintro _ rfl
      exact (readCstring_stopped (P := fun _ => True) hw' htwo).bind_of_ne nofun
    | some j =>
      have hlt' := cstringLoop_lt htwo
      dsimp only
      rw [htwo]
      apply goes_bytes
      apply (readCstring_done hw hone).next
      rintro _ rfl
      apply (readCstring_done hw' htwo).next
      rintro _ rfl
      have hn : p + ((i + 1 + (j + 1) : Nat) : Int) = p + (i + 1) + (j + 1) := by omega
      rw [hn]
      exact hg i j (by omega)

theorem text_goes {g : List UInt8 → BsonReader → Decode (α × BsonReader)} (hw : Window len p hi)
    (hg : ∀ s q, Goes len enough (fun r => r.2 = window q hi) .done (g s (window q hi))) :
    Goes len enough (Behind p hi (extent mem p hi .text))
      ((extent mem p hi .text).andThen fun _ => .done)
      (do
        let (sz, br) ← readInt32 mem (window p hi)
        if sz ≤ 0 then .stop (.error s!"Invalid bson string , length = {sz}")
        else do
          let (q, br) ← readBytes br sz
          let s ← pushlstring mem q (sz - 1)
          g s br) := by
  simp only [extent]
  by_cases h4 : p + 4 ≤ hi
  · have hw4 := hw.move (by decide) h4
    by_cases hpos : 0 < getLength mem p
    · by_cases hle : p + 4 + getLength mem p ≤ hi
      · rw [if_pos ⟨h4, hpos, hle⟩]
        apply goes_bytes
        apply (readInt32_done hw h4).next
        rintro _ rfl
        dsimp only
        rw [if_neg (Int.not_le.mpr hpos)]
        apply (readBytes_done hw4 hpos.le hle).next
        rintro _ rfl
        have hlen := hw.le_len
        have hpush : Goes len enough (fun _ => True) .done
            (pushlstring mem (p + 4) (getLength mem p - 1)) :=
          addlstring_done hw4.nonneg (by omega) (by omega)
        apply hpush.next
        intro s _
        have hn : p + ((4 + (getLength mem p).toNat : Nat) : Int) = p + 4 + getLength mem p := by
          omega
        rw [hn]
        exact hg ..
      · rw [if_neg fun h => hle h.2.2]
        apply goes_cut
        apply (readInt32_done hw h4).next
        rintro _ rfl
        dsimp only
        rw [if_neg (Int.not_le.mpr hpos)]
        exact (readBytes_stopped hpos.le (Int.not_le.mp hle) (P := fun _ => True)).bind_of_ne nofun
    · rw [if_neg fun h => hpos h.2.1]
      apply goes_cut
      apply (readInt32_done hw h4).next
      rintro _ rfl
      dsimp only
      rw [if_pos (Int.not_lt.mp hpos)]
      exact .stop nofun
  · rw [if_neg fun h => h4 h.1]
    apply goes_cut
    exact (readInt32_stopped (P := fun _ => True) (Int.not_le.mp h4)).bind_of_ne nofun

end

end XsServer.Bson
