import XsServer.Lib.Results
import XsServer.Sproto.Decode

/-! What `sproto_decode` reads of arbitrary bytes.  The size of a field is compared with the bytes
that are left after four is added in 32 bits, so that the four largest sizes pass for 0 to 3. -/

namespace XsServer.Sproto

open Lib

variable {σ : Type} {cb : Collect σ} {arg : Arg} {x : Field} {st : SprotoType} {s : σ}
  {data stream : List UInt8}

/-- Whatever the callback does, nothing outside of the bytes is read or handed to it, and no more
bytes than there are have been consumed. -/
def DecodesInside (st : SprotoType) (data : List UInt8) : Prop :=
  ∀ (σ : Type) (cb : Collect σ) (s : σ),
    match sprotoDecode st data cb s with
    | .ok r => r.2 ≤ data.length
    | .error .failed => True
    | .error .outside => False

/-- The size of the value, with its own four bytes, comes out too small. -/
def Wraps (data : List UInt8) : Prop := 2 ^ 32 - 4 ≤ todword data

/-- The value of a size that wraps is read, or handed on. -/
def Exposed (x : Field) (data : List UInt8) : Prop :=
  Wraps data ∧
    if x.array then
      match x.type with
      | .integer | .double =>
        data.drop 4 = [] ∨ (data.drop 4).head? = some 4 ∧ todword data = 2 ^ 32 - 3
      | .boolean => True
      | .string | .struct => False
    else x.type = .string ∨ x.type = .struct

/-- The elements of an array, each with its size, take up all of its bytes. -/
def Elements (stream : List UInt8) (sz : Nat) : Prop :=
  if sz = 0 then True
  else if _h : sz < 4 then False
  else
    let hsz := todword stream
    hsz ≤ sz - 4 ∧ Elements (stream.drop (4 + hsz)) (sz - 4 - hsz)
  termination_by sz
  decreasing_by omega

/-- An array of integers has a width, and whole elements. -/
def Integers (stream : List UInt8) (sz : Nat) : Prop :=
  ∃ b rest, stream = b :: rest ∧
    (b.toNat = SIZEOF_INT32 ∧ (sz - 1) % SIZEOF_INT32 = 0 ∨
      b.toNat = SIZEOF_INT64 ∧ (sz - 1) % SIZEOF_INT64 = 0)

/-- The value is taken, if the callback takes its parts. -/
def Accepted (x : Field) (data : List UInt8) : Prop :=
  let sz := todword data
  if x.array then
    sz = 0 ∨
      match x.type with
      | .integer | .double => Integers (data.drop 4) sz
      | .boolean => True
      | .string | .struct => 2 ^ 31 ≤ sz ∨ Elements (data.drop 4) sz
  else
    match x.type with
    | .integer | .double => sz = SIZEOF_INT32 ∨ sz = SIZEOF_INT64
    | .string | .struct => True
    | .boolean => False

/-- In the order of the records, up to the first field that is not taken, no value of a size that
wraps is read or handed on. -/
def NoExposed (st : SprotoType) : List Nat → Int → List UInt8 → Prop
  | [], _, _ => True
  | value :: records, tag, data =>
    let tag := tag + 1
    if value % 2 = 1 then NoExposed st records (tag + value / 2) data
    else if value = 0 then
      let sz := addUint32 (todword data) SIZEOF_LENGTH
      if data.length < SIZEOF_LENGTH ∨ data.length < sz then True
      else
        match findtag st tag with
        | none => NoExposed st records tag (data.drop sz)
        | some x => ¬Exposed x data ∧ (Accepted x data → NoExposed st records tag (data.drop sz))
    else
      match findtag st tag with
      | none => NoExposed st records tag data
      | some x =>
        x.array = false ∧ (x.type = .integer ∨ x.type = .boolean) → NoExposed st records tag data

/-- The records of the message are there, and no value of a size that wraps is read or handed on. -/
def Sheltered (st : SprotoType) (data : List UInt8) : Prop :=
  SIZEOF_HEADER + toword data * SIZEOF_FIELD ≤ data.length →
    NoExposed st (words (toword data) (data.drop SIZEOF_HEADER)) (-1)
      (data.drop (SIZEOF_HEADER + toword data * SIZEOF_FIELD))

theorem readBytes_of_le {n : Nat} (h : n ≤ data.length) : readBytes data n = .ok (data.take n) :=
  if_neg (by omega)

theorem readBytes_of_lt {n : Nat} (h : data.length < n) : readBytes data n = .error .outside :=
  if_pos h

theorem readDword_of_le (h : 4 ≤ data.length) : readDword data = .ok (todword data) := by
  rw [readDword, readBytes_of_le h]
  rfl

theorem todword_lt (data : List UInt8) : todword data < 2 ^ 32 := by
  have hlt := Bytes.ofLe_lt (data.take 4)
  have hpow : 256 ^ (data.take 4).length ≤ 256 ^ 4 :=
    Nat.pow_le_pow_right (by decide) (by rw [List.length_take]; omega)
  unfold todword
  omega

/-! ### Arrays -/

theorem decodeArrayObject_inside (cb : Collect σ) (arg : Arg) (stream : List UInt8) (sz index : Nat)
    (s : σ) (h : sz ≤ stream.length) :
    decodeArrayObject cb arg stream sz index s ≠ .error .outside ∧
      ∀ s', decodeArrayObject cb arg stream sz index s = .ok s' → Elements stream sz := by
  induction sz using Nat.strong_induction_on generalizing stream index s with
  | _ sz ih =>
    rw [decodeArrayObject, Elements]
    by_cases hzero : sz = 0
    · rw [if_pos hzero, if_pos hzero]
      exact ⟨nofun, fun _ _ => trivial⟩
    · rw [if_neg hzero, if_neg hzero]
      by_cases hfour : sz < 4
      · rw [dif_pos hfour]
        exact ⟨nofun, nofun⟩
      · rw [dif_neg hfour, dif_neg hfour, readDword_of_le (by omega), ok_bind]
        by_cases hlong : todword stream > sz - 4
        · rw [if_pos hlong]
          exact ⟨nofun, nofun⟩
        · rw [if_neg hlong, readBytes_of_le (by rw [List.length_drop]; omega), ok_bind,
            List.drop_drop]
          dsimp only
          split
          · obtain ⟨hinside, hwhole⟩ := ih (sz - 4 - todword stream) (by omega)
              (stream.drop (4 + todword stream)) (index + 1) _ (by rw [List.length_drop]; omega)
            exact ⟨hinside, fun s' hs' => ⟨by omega, hwhole s' hs'⟩⟩
          · exact ⟨nofun, nofun⟩

def takeAll : Collect σ := fun _ _ s => (s, true)

theorem decodeArrayObject_takeAll {sz : Nat} (index : Nat) (hlen : sz ≤ stream.length)
    (h : Elements stream sz) : ∃ s', decodeArrayObject takeAll arg stream sz index s = .ok s' := by
  induction sz using Nat.strong_induction_on generalizing stream index s with
  | _ sz ih =>
    rw [decodeArrayObject]
    rw [Elements] at h
    by_cases hzero : sz = 0
    · rw [if_pos hzero]
      exact ⟨s, rfl⟩
    · rw [if_neg hzero] at h ⊢
      by_cases hfour : sz < 4
      · rw [dif_pos hfour] at h
        exact h.elim
      · rw [dif_neg hfour] at h ⊢
        obtain ⟨hle, hrest⟩ := h
        rw [readDword_of_le (by omega), ok_bind, if_neg (by omega),
          readBytes_of_le (by rw [List.length_drop]; omega), ok_bind, List.drop_drop]
        exact ih _ (by omega) (index + 1) (by rw [List.length_drop]; omega) hrest

theorem decodeIntegers_ok {width : Nat} (expand : Nat → Nat) {n : Nat} (index : Nat)
    (h : n * width ≤ stream.length) :
    ∃ s', decodeIntegers cb arg width expand n index stream s = .ok s' := by
  induction n generalizing index stream s with
  | zero => exact ⟨s, rfl⟩
  | succ n ih =>
    rw [Nat.succ_mul] at h
    rw [decodeIntegers, readBytes_of_le (by omega), ok_bind]
    exact ih (index + 1) (by rw [List.length_drop]; omega)

theorem decodeIntegers_outside {width : Nat} (expand : Nat → Nat) {n : Nat} (index : Nat)
    (h : stream.length < n * width) :
    decodeIntegers cb arg width expand n index stream s = .error .outside := by
  induction n generalizing index stream s with
  | zero => omega
  | succ n ih =>
    rw [Nat.succ_mul] at h
    rw [decodeIntegers]
    by_cases hlen : stream.length < width
    · rw [readBytes_of_lt hlen]
      rfl
    · rw [readBytes_of_le (by omega), ok_bind]
      exact ih (index + 1) (by rw [List.length_drop]; omega)

theorem decodeArray_empty (h4 : 4 ≤ data.length) (hsz : todword data = 0) :
    decodeArray cb arg data s = .ok (cb { arg with index := -1 } [] s).1 := by
  rw [decodeArray, readDword_of_le h4, ok_bind]
  exact if_pos hsz

theorem decodeArray_boolean (htype : arg.type = .boolean) (h4 : 4 ≤ data.length)
    (hsz : todword data ≠ 0) :
    decodeArray cb arg data s =
      decodeIntegers cb arg 1 id (todword data) 1 (data.drop 4) s := by
  rw [decodeArray, readDword_of_le h4, ok_bind, if_neg hsz, htype]

theorem decodeArray_object (htype : arg.type = .string ∨ arg.type = .struct) (h4 : 4 ≤ data.length)
    (hsz : todword data ≠ 0) :
    decodeArray cb arg data s =
      if todword data < 2 ^ 31 then
        decodeArrayObject cb arg (data.drop 4) (todword data) 1 s
      else .ok s := by
  rw [decodeArray, readDword_of_le h4, ok_bind, if_neg hsz]
  obtain htype | htype := htype <;> rw [htype]

theorem decodeArray_outside (htype : arg.type = .integer ∨ arg.type = .double)
    (h4 : 4 ≤ data.length) (hsz : todword data ≠ 0) (hnil : data.drop 4 = []) :
    decodeArray cb arg data s = .error .outside := by
  rw [decodeArray, readDword_of_le h4, ok_bind, if_neg hsz]
  obtain htype | htype := htype <;> rw [htype, hnil] <;> rfl

theorem decodeArray_integers_cons (htype : arg.type = .integer ∨ arg.type = .double)
    (h4 : 4 ≤ data.length) (hsz : todword data ≠ 0) {b : UInt8} {rest : List UInt8}
    (hcons : data.drop 4 = b :: rest) :
    decodeArray cb arg data s =
      if b.toNat = SIZEOF_INT32 then
        if (todword data - 1) % SIZEOF_INT32 ≠ 0 then .error .failed
        else decodeIntegers cb arg 4 expand64 ((todword data - 1) / SIZEOF_INT32) 1 rest s
      else if b.toNat = SIZEOF_INT64 then
        if (todword data - 1) % SIZEOF_INT64 ≠ 0 then .error .failed
        else decodeIntegers cb arg 8 id ((todword data - 1) / SIZEOF_INT64) 1 rest s
      else .error .failed := by
  have hone : readBytes (b :: rest) 1 = .ok [b] := readBytes_of_le (Nat.le_add_left 1 _)
  have hbyte : Bytes.ofLe [b] = b.toNat := Nat.add_zero _
  rw [decodeArray, readDword_of_le h4, ok_bind, if_neg hsz]
  obtain htype | htype := htype <;> rw [htype, hcons] <;>
    simp only [hone, ok_bind, hbyte, List.drop_one, List.tail_cons]

/-! ### Fields -/

/-- The size of the value lies inside of the bytes, or wraps. -/
def Sized (data : List UInt8) : Prop :=
  4 ≤ data.length ∧ data.length < 2 ^ 31 ∧ (todword data + 4 ≤ data.length ∨ Wraps data)

theorem sized_of_le (h4 : SIZEOF_LENGTH ≤ data.length) (hlen : data.length ≤ INT_MAX)
    (h : addUint32 (todword data) SIZEOF_LENGTH ≤ data.length) : Sized data := by
  have hlt := todword_lt data
  unfold INT_MAX at hlen
  unfold SIZEOF_LENGTH at h4
  unfold addUint32 SIZEOF_LENGTH at h
  refine ⟨h4, by omega, ?_⟩
  unfold Wraps
  omega

/-- An array of integers whose size wraps is read only where it has the narrow width and whole
elements. -/
theorem integers_inside (h : Sized data) (htype : arg.type = .integer ∨ arg.type = .double)
    (hsz : todword data ≠ 0)
    (hexp : Wraps data →
      data.drop 4 ≠ [] ∧ ((data.drop 4).head? = some 4 → todword data ≠ 2 ^ 32 - 3)) :
    decodeArray cb arg data s ≠ .error .outside ∧
      ∀ s', decodeArray cb arg data s = .ok s' → Integers (data.drop 4) (todword data) := by
  obtain ⟨h4, hlen, hfit⟩ := h
  have hlt := todword_lt data
  have hdrop : (data.drop 4).length = data.length - 4 := List.length_drop
  have hne : data.drop 4 ≠ [] := by
    obtain hfit | hwraps := hfit
    · exact List.ne_nil_of_length_pos (by omega)
    · exact (hexp hwraps).1
  obtain ⟨b, rest, hcons⟩ := List.exists_cons_of_ne_nil hne
  rw [hcons, List.length_cons] at hdrop
  rw [hcons, List.head?_cons, Option.some.injEq] at hexp
  rw [decodeArray_integers_cons htype h4 hsz hcons, hcons]
  unfold Wraps at hfit hexp
  by_cases h32 : b.toNat = SIZEOF_INT32
  · rw [if_pos h32]
    by_cases hmod : (todword data - 1) % SIZEOF_INT32 = 0
    · rw [if_neg (not_not.mpr hmod)]
      unfold SIZEOF_INT32 at h32 hmod ⊢
      have hfit : todword data + 4 ≤ data.length := by
        refine hfit.resolve_right fun hwraps => (hexp hwraps).2 ?_ (by omega)
        rwa [← UInt8.toNat_inj]
      obtain ⟨s', hs'⟩ := @decodeIntegers_ok _ cb arg s rest 4 expand64 ((todword data - 1) / 4) 1
        (by omega)
      rw [hs']
      exact ⟨nofun, fun _ _ => ⟨b, rest, rfl, .inl ⟨h32, hmod⟩⟩⟩
    · rw [if_pos hmod]
      exact ⟨nofun, nofun⟩
  · rw [if_neg h32]
    by_cases h64 : b.toNat = SIZEOF_INT64
    · rw [if_pos h64]
      by_cases hmod : (todword data - 1) % SIZEOF_INT64 = 0
      · rw [if_neg (not_not.mpr hmod)]
        unfold SIZEOF_INT64 at h64 hmod ⊢
        obtain ⟨s', hs'⟩ := @decodeIntegers_ok _ cb arg s rest 8 id ((todword data - 1) / 8) 1
          (by omega)
        rw [hs']
        exact ⟨nofun, fun _ _ => ⟨b, rest, rfl, .inr ⟨h64, hmod⟩⟩⟩
      · rw [if_pos hmod]
        exact ⟨nofun, nofun⟩
    · rw [if_neg h64]
      exact ⟨nofun, nofun⟩

theorem objects_inside (h : Sized data) (htype : arg.type = .string ∨ arg.type = .struct)
    (hsz : todword data ≠ 0) :
    decodeArray cb arg data s ≠ .error .outside ∧
      ∀ s', decodeArray cb arg data s = .ok s' →
        2 ^ 31 ≤ todword data ∨ Elements (data.drop 4) (todword data) := by
  obtain ⟨h4, hlen, hfit⟩ := h
  rw [decodeArray_object htype h4 hsz]
  split
  case isTrue hlt =>
    unfold Wraps at hfit
    have hinside := decodeArrayObject_inside cb arg (data.drop 4) (todword data) 1 s
      (by rw [List.length_drop]; omega)
    exact hinside.imp_right fun hok s' hs' => .inr (hok s' hs')
  case isFalse hge => exact ⟨nofun, fun _ _ => .inl (by omega)⟩

theorem decodeArray_inside (h : Sized data) (harray : x.array = true) (hexp : ¬Exposed x data) :
    decodeArray cb (x.arg 0) data s ≠ .error .outside ∧
      ∀ s', decodeArray cb (x.arg 0) data s = .ok s' → Accepted x data := by
  simp only [Exposed, Accepted, harray, if_true] at hexp ⊢
  by_cases hsz : todword data = 0
  · rw [decodeArray_empty h.1 hsz]
    exact ⟨nofun, fun _ _ => .inl hsz⟩
  cases htype : x.type with
  | integer =>
    rw [htype] at hexp
    refine (integers_inside h (.inl htype) hsz fun hwraps => ?_).imp_right
      fun hok s' hs' => .inr (hok s' hs')
    tauto
  | double =>
    rw [htype] at hexp
    refine (integers_inside h (.inr htype) hsz fun hwraps => ?_).imp_right
      fun hok s' hs' => .inr (hok s' hs')
    tauto
  | boolean =>
    rw [htype] at hexp
    have hfit := h.2.2.resolve_right fun hwraps => hexp ⟨hwraps, trivial⟩
    obtain ⟨s', hs'⟩ := @decodeIntegers_ok _ cb (x.arg 0) s (data.drop 4) 1 id (todword data) 1
      (by rw [List.length_drop]; omega)
    rw [decodeArray_boolean htype h.1 hsz, hs']
    exact ⟨nofun, fun _ _ => .inr trivial⟩
  | string =>
    exact (objects_inside h (.inl htype) hsz).imp_right fun hok s' hs' => .inr (hok s' hs')
  | struct =>
    exact (objects_inside h (.inr htype) hsz).imp_right fun hok s' hs' => .inr (hok s' hs')

theorem decodeArray_exposed (h : Sized data) (harray : x.array = true) (hexp : Exposed x data) :
    decodeArray cb (x.arg 0) data s = .error .outside := by
  obtain ⟨h4, hlen, -⟩ := h
  simp only [Exposed, harray, if_true] at hexp
  obtain ⟨hwraps, hexp⟩ := hexp
  unfold Wraps at hwraps
  have hsz : todword data ≠ 0 := by omega
  have hdrop : (data.drop 4).length = data.length - 4 := List.length_drop
  have hinteger (htype : x.type = .integer ∨ x.type = .double)
      (hexp : data.drop 4 = [] ∨ (data.drop 4).head? = some 4 ∧ todword data = 2 ^ 32 - 3) :
      decodeArray cb (x.arg 0) data s = .error .outside := by
    obtain hnil | ⟨hhead, heq⟩ := hexp
    · exact decodeArray_outside htype h4 hsz hnil
    · cases hcons : data.drop 4 with
      | nil => exact decodeArray_outside htype h4 hsz hcons
      | cons b rest =>
        rw [hcons] at hhead hdrop
        rw [List.length_cons] at hdrop
        obtain rfl := Option.some.inj hhead
        rw [decodeArray_integers_cons htype h4 hsz hcons, heq, if_pos (by decide),
          if_neg (by decide)]
        exact decodeIntegers_outside expand64 1 (by unfold SIZEOF_INT32; omega)
  cases htype : x.type with
  | integer =>
    rw [htype] at hexp
    exact hinteger (.inl htype) hexp
  | double =>
    rw [htype] at hexp
    exact hinteger (.inr htype) hexp
  | boolean =>
    rw [decodeArray_boolean htype h4 hsz]
    exact decodeIntegers_outside id 1 (by omega)
  | string | struct =>
    rw [htype] at hexp
    exact hexp.elim

theorem integers_taken (h : Sized data) (htype : arg.type = .integer ∨ arg.type = .double)
    (hsz : todword data ≠ 0)
    (hexp : Wraps data →
      data.drop 4 ≠ [] ∧ ((data.drop 4).head? = some 4 → todword data ≠ 2 ^ 32 - 3))
    (hwhole : Integers (data.drop 4) (todword data)) :
    ∃ s', decodeArray cb arg data s = .ok s' := by
  obtain ⟨h4, hlen, hfit⟩ := h
  have hlt := todword_lt data
  have hdrop : (data.drop 4).length = data.length - 4 := List.length_drop
  obtain ⟨b, rest, hcons, hwidth⟩ := hwhole
  rw [hcons, List.length_cons] at hdrop
  rw [hcons, List.head?_cons, Option.some.injEq] at hexp
  rw [decodeArray_integers_cons htype h4 hsz hcons]
  unfold Wraps at hfit hexp
  obtain ⟨h32, hmod⟩ | ⟨h64, hmod⟩ := hwidth
  · rw [if_pos h32, if_neg (not_not.mpr hmod)]
    unfold SIZEOF_INT32 at h32 hmod ⊢
    have hfit : todword data + 4 ≤ data.length := by
      refine hfit.resolve_right fun hwraps => (hexp hwraps).2 ?_ (by omega)
      rwa [← UInt8.toNat_inj]
    exact decodeIntegers_ok expand64 1 (by omega)
  · rw [if_neg (by rw [h64]; decide), if_pos h64, if_neg (not_not.mpr hmod)]
    unfold SIZEOF_INT64 at h64 hmod ⊢
    exact decodeIntegers_ok id 1 (by omega)

theorem objects_taken (h : Sized data) (htype : arg.type = .string ∨ arg.type = .struct)
    (hsz : todword data ≠ 0)
    (hwhole : 2 ^ 31 ≤ todword data ∨ Elements (data.drop 4) (todword data)) :
    ∃ s', decodeArray takeAll arg data s = .ok s' := by
  obtain ⟨h4, hlen, hfit⟩ := h
  unfold Wraps at hfit
  rw [decodeArray_object htype h4 hsz]
  split
  case isTrue hlt =>
    exact decodeArrayObject_takeAll 1 (by rw [List.length_drop]; omega)
      (hwhole.resolve_left (by omega))
  case isFalse hge => exact ⟨s, rfl⟩

theorem decodeArray_taken (h : Sized data) (harray : x.array = true) (hexp : ¬Exposed x data)
    (hacc : Accepted x data) : ∃ s', decodeArray takeAll (x.arg 0) data s = .ok s' := by
  simp only [Exposed, Accepted, harray, if_true] at hexp hacc
  by_cases hsz : todword data = 0
  · exact ⟨_, decodeArray_empty h.1 hsz⟩
  have hacc := hacc.resolve_left hsz
  cases htype : x.type with
  | integer =>
    rw [htype] at hexp hacc
    exact integers_taken h (.inl htype) hsz (fun hwraps => by tauto) hacc
  | double =>
    rw [htype] at hexp hacc
    exact integers_taken h (.inr htype) hsz (fun hwraps => by tauto) hacc
  | boolean =>
    rw [htype] at hexp
    have hfit := h.2.2.resolve_right fun hwraps => hexp ⟨hwraps, trivial⟩
    rw [decodeArray_boolean htype h.1 hsz]
    exact decodeIntegers_ok id 1 (by rw [List.length_drop]; omega)
  | string =>
    rw [htype] at hacc
    exact objects_taken h (.inl htype) hsz hacc
  | struct =>
    rw [htype] at hacc
    exact objects_taken h (.inr htype) hsz hacc

/-! ### Fields -/

theorem decodeField_integer {value : Int} (hvalue : value < 0) (harray : x.array = false)
    (htype : x.type = .integer ∨ x.type = .double) (h : Sized data) :
    (∃ s', decodeField cb x value data s = .ok s' ∧ Accepted x data) ∨
      decodeField cb x value data s = .error .failed ∧ ¬Accepted x data := by
  obtain ⟨h4, hlen, hfit⟩ := h
  unfold Wraps at hfit
  have hdrop : (data.drop 4).length = data.length - 4 := List.length_drop
  have hacc : Accepted x data ↔ todword data = SIZEOF_INT32 ∨ todword data = SIZEOF_INT64 := by
    simp only [Accepted, harray, Bool.false_eq_true, if_false]
    obtain htype | htype := htype <;> rw [htype]
  have hfield : decodeField cb x value data s =
      if todword data = SIZEOF_INT32 then
        readDword (data.drop 4) >>= fun v => .ok (collectInteger cb (x.arg 0) (expand64 v) s)
      else if todword data ≠ SIZEOF_INT64 then .error .failed
      else readBytes (data.drop 4) 8 >>= fun v =>
        .ok (collectInteger cb (x.arg 0) (Bytes.ofLe v) s) := by
    simp only [decodeField, if_pos hvalue, harray, Bool.false_eq_true, if_false]
    obtain htype | htype := htype <;> rw [htype] <;> simp only [readDword_of_le h4, ok_bind]
  rw [hfield, hacc]
  unfold SIZEOF_INT32 SIZEOF_INT64
  by_cases h32 : todword data = 4
  · rw [if_pos h32, readDword_of_le (by omega), ok_bind]
    exact .inl ⟨_, rfl, .inl h32⟩
  · rw [if_neg h32]
    by_cases h64 : todword data = 8
    · rw [if_neg (not_not.mpr h64), readBytes_of_le (by omega), ok_bind]
      exact .inl ⟨_, rfl, .inr h64⟩
    · rw [if_pos h64]
      exact .inr ⟨rfl, not_or.mpr ⟨h32, h64⟩⟩

theorem decodeField_string {value : Int} (hvalue : value < 0) (harray : x.array = false)
    (htype : x.type = .string ∨ x.type = .struct) (h4 : 4 ≤ data.length) :
    decodeField cb x value data s =
      readBytes (data.drop 4) (todword data) >>= fun v =>
        if (cb (x.arg 0) v s).2 then .ok (cb (x.arg 0) v s).1 else .error .failed := by
  simp only [decodeField, if_pos hvalue, harray, Bool.false_eq_true, if_false]
  obtain htype | htype := htype <;> rw [htype] <;> simp only [readDword_of_le h4, ok_bind]

theorem decodeField_array {value : Int} (hvalue : value < 0) (harray : x.array = true) :
    decodeField cb x value data s = decodeArray cb (x.arg 0) data s := by
  simp only [decodeField, if_pos hvalue, harray, if_true]

theorem decodeField_boolean {value : Int} (hvalue : value < 0) (harray : x.array = false)
    (htype : x.type = .boolean) : decodeField cb x value data s = .error .failed := by
  simp only [decodeField, if_pos hvalue, harray, Bool.false_eq_true, if_false]
  rw [htype]

theorem kind_cases (x : Field) : (x.type = .integer ∨ x.type = .double) ∨
    (x.type = .string ∨ x.type = .struct) ∨ x.type = .boolean := by
  cases x.type <;> simp

theorem decodeField_inside {value : Int} (hvalue : value < 0) (h : Sized data)
    (hexp : ¬Exposed x data) :
    decodeField cb x value data s ≠ .error .outside ∧
      ∀ s', decodeField cb x value data s = .ok s' → Accepted x data := by
  cases harray : x.array with
  | true =>
    rw [decodeField_array hvalue harray]
    exact decodeArray_inside h harray hexp
  | false =>
    obtain htype | htype | htype := kind_cases x
    · obtain ⟨s', hok, hacc⟩ | ⟨hfailed, -⟩ :=
        @decodeField_integer _ cb x s data value hvalue harray htype h
      · rw [hok]
        exact ⟨nofun, fun _ _ => hacc⟩
      · rw [hfailed]
        exact ⟨nofun, nofun⟩
    · have hacc : Accepted x data := by
        simp only [Accepted, harray, Bool.false_eq_true, if_false]
        obtain htype | htype := htype <;> rw [htype] <;> trivial
      refine ⟨?_, fun _ _ => hacc⟩
      have hfit : todword data + 4 ≤ data.length := by
        refine h.2.2.resolve_right fun hwraps => hexp ⟨hwraps, ?_⟩
        rw [harray]
        exact htype
      rw [decodeField_string hvalue harray htype h.1,
        readBytes_of_le (by rw [List.length_drop]; omega), ok_bind]
      split
      · exact nofun
      · exact nofun
    · rw [decodeField_boolean hvalue harray htype]
      exact ⟨nofun, nofun⟩

theorem decodeField_exposed {value : Int} (hvalue : value < 0) (h : Sized data)
    (hexp : Exposed x data) : decodeField cb x value data s = .error .outside := by
  cases harray : x.array with
  | true =>
    rw [decodeField_array hvalue harray]
    exact decodeArray_exposed h harray hexp
  | false =>
    obtain ⟨hwraps, htype⟩ := hexp
    rw [harray] at htype
    unfold Wraps at hwraps
    have hlen := h.2.1
    rw [decodeField_string hvalue harray htype h.1,
      readBytes_of_lt (by rw [List.length_drop]; omega)]
    rfl

theorem decodeField_taken {value : Int} (hvalue : value < 0) (h : Sized data)
    (hexp : ¬Exposed x data) (hacc : Accepted x data) :
    ∃ s', decodeField takeAll x value data s = .ok s' := by
  cases harray : x.array with
  | true =>
    rw [decodeField_array hvalue harray]
    exact decodeArray_taken h harray hexp hacc
  | false =>
    obtain htype | htype | htype := kind_cases x
    · obtain ⟨s', hok, -⟩ | ⟨-, hnot⟩ :=
        @decodeField_integer _ takeAll x s data value hvalue harray htype h
      · exact ⟨s', hok⟩
      · exact absurd hacc hnot
    · have hfit : todword data + 4 ≤ data.length := by
        refine h.2.2.resolve_right fun hwraps => hexp ⟨hwraps, ?_⟩
        rw [harray]
        exact htype
      rw [decodeField_string hvalue harray htype h.1,
        readBytes_of_le (by rw [List.length_drop]; omega), ok_bind]
      exact ⟨s, rfl⟩
    · simp only [Accepted, harray, Bool.false_eq_true, if_false, htype] at hacc

theorem decodeField_value {value : Int} (hvalue : 0 ≤ value) :
    if x.array = false ∧ (x.type = .integer ∨ x.type = .boolean) then
      decodeField cb x value data s = .ok (collectInteger cb (x.arg 0) value.toNat s)
    else decodeField cb x value data s = .error .failed := by
  simp only [decodeField, if_neg (Int.not_lt.mpr hvalue)]
  split
  case isTrue htype =>
    refine if_neg ?_
    rw [htype.1]
    tauto
  case isFalse htype =>
    refine if_pos ?_
    cases harray : x.array <;> tauto

/-! ### Messages -/

theorem decodeLoop_data_cons (st : SprotoType) (cb : Collect σ) (records : List Nat) (tag : Int)
    (data : List UInt8) (s : σ) :
    decodeLoop st cb (0 :: records) tag data data.length s =
      let sz := addUint32 (todword data) SIZEOF_LENGTH
      if data.length < SIZEOF_LENGTH ∨ data.length < sz then .error .failed
      else
        match findtag st (tag + 1) with
        | none => decodeLoop st cb records (tag + 1) (data.drop sz) (data.drop sz).length s
        | some x => decodeField cb x (-1) data s >>= fun s =>
          decodeLoop st cb records (tag + 1) (data.drop sz) (data.drop sz).length s := by
  have hneg : ((0 : Nat) : Int) / 2 - 1 = -1 := by decide
  rw [decodeLoop]
  simp only [Nat.zero_mod, Nat.zero_ne_one, if_false, hneg, Int.reduceNeg, Int.neg_neg_iff_pos,
    Int.zero_lt_one, if_true]
  by_cases h4 : data.length < SIZEOF_LENGTH
  · rw [if_pos h4, if_pos (.inl h4)]
    rfl
  · rw [if_neg h4, readDword_of_le (Nat.not_lt.mp h4)]
    by_cases hsz : data.length < addUint32 (todword data) SIZEOF_LENGTH
    · simp only [ok_bind, if_pos hsz]
      exact (if_pos (Or.inr hsz)).symm
    · cases findtag st (tag + 1) with
      | none => simp only [ok_bind, if_neg hsz, if_neg (not_or.mpr ⟨h4, hsz⟩), List.length_drop]
      | some x =>
        simp only [ok_bind, if_neg hsz, if_neg (not_or.mpr ⟨h4, hsz⟩), List.length_drop]

theorem decodeLoop_skip_cons {value : Nat} (h : value % 2 = 1) (records : List Nat) (tag : Int)
    (size : Nat) :
    decodeLoop st cb (value :: records) tag data size s =
      decodeLoop st cb records (tag + 1 + value / 2) data size s := by
  rw [decodeLoop]
  exact if_pos h

theorem decodeLoop_value_cons {value : Nat} (heven : value % 2 ≠ 1) (hne : value ≠ 0)
    (records : List Nat) (tag : Int) (size : Nat) :
    decodeLoop st cb (value :: records) tag data size s =
      match findtag st (tag + 1) with
      | none => decodeLoop st cb records (tag + 1) data size s
      | some x => decodeField cb x (value / 2 - 1) data s >>= fun s =>
        decodeLoop st cb records (tag + 1) data size s := by
  have hpos : ¬(value : Int) / 2 - 1 < 0 := by omega
  rw [decodeLoop, if_neg heven]
  cases findtag st (tag + 1) with
  | none | some x => simp only [if_neg hpos, ok_bind]

theorem decodeField_value_inside {value : Int} (hvalue : 0 ≤ value) :
    decodeField cb x value data s ≠ .error .outside ∧
      ∀ s', decodeField cb x value data s = .ok s' →
        x.array = false ∧ (x.type = .integer ∨ x.type = .boolean) := by
  have h := @decodeField_value _ cb x s data value hvalue
  split at h
  case isTrue htype =>
    rw [h]
    exact ⟨nofun, fun _ _ => htype⟩
  case isFalse =>
    rw [h]
    exact ⟨nofun, nofun⟩

theorem bind_inside {α β ε : Type} {e : Except ε α} {f : α → Except ε β} {err : ε}
    (he : e ≠ .error err) (hf : ∀ a, e = .ok a → f a ≠ .error err) : (e >>= f) ≠ .error err := by
  cases e with
  | error e =>
    intro h
    exact he (congrArg Except.error (Except.error.inj h))
  | ok a => exact hf a rfl

theorem decodeLoop_inside (cb : Collect σ) (records : List Nat) (tag : Int) (data : List UInt8)
    (s : σ) (hlen : data.length ≤ INT_MAX) (h : NoExposed st records tag data) :
    decodeLoop st cb records tag data data.length s ≠ .error .outside := by
  induction records generalizing tag data s with
  | nil => exact nofun
  | cons value records ih =>
    rw [NoExposed] at h
    by_cases hodd : value % 2 = 1
    · rw [if_pos hodd] at h
      rw [decodeLoop_skip_cons hodd]
      exact ih _ data s hlen h
    rw [if_neg hodd] at h
    by_cases hzero : value = 0
    · subst hzero
      rw [if_pos rfl] at h
      rw [decodeLoop_data_cons]
      dsimp only at h ⊢
      split
      case isTrue => exact nofun
      case isFalse hsize =>
        rw [if_neg hsize] at h
        obtain ⟨h4, hsz⟩ := not_or.mp hsize
        have hdrop : (data.drop (addUint32 (todword data) SIZEOF_LENGTH)).length ≤ INT_MAX := by
          rw [List.length_drop]
          omega
        cases hx : findtag st (tag + 1) with
        | none =>
          rw [hx] at h
          exact ih _ _ s hdrop h
        | some x =>
          rw [hx] at h
          obtain ⟨hexp, hrest⟩ := h
          have hsized := sized_of_le (Nat.not_lt.mp h4) hlen (Nat.not_lt.mp hsz)
          obtain ⟨hinside, hacc⟩ :=
            @decodeField_inside _ cb x s data (-1) (by decide) hsized hexp
          apply bind_inside hinside
          intro s' hs'
          exact ih _ _ s' hdrop (hrest (hacc s' hs'))
    · rw [if_neg hzero] at h
      rw [decodeLoop_value_cons hodd hzero]
      cases hx : findtag st (tag + 1) with
      | none =>
        rw [hx] at h
        exact ih _ data s hlen h
      | some x =>
        rw [hx] at h
        obtain ⟨hinside, hacc⟩ :=
          @decodeField_value_inside _ cb x s data ((value : Int) / 2 - 1) (by omega)
        apply bind_inside hinside
        intro s' hs'
        exact ih _ data s' hlen (h (hacc s' hs'))

theorem decodeLoop_exposed (records : List Nat) (tag : Int) (data : List UInt8) (s : σ)
    (hlen : data.length ≤ INT_MAX) (h : ¬NoExposed st records tag data) :
    decodeLoop st takeAll records tag data data.length s = .error .outside := by
  induction records generalizing tag data s with
  | nil => exact absurd trivial h
  | cons value records ih =>
    rw [NoExposed] at h
    by_cases hodd : value % 2 = 1
    · rw [if_pos hodd] at h
      rw [decodeLoop_skip_cons hodd]
      exact ih _ data s hlen h
    rw [if_neg hodd] at h
    by_cases hzero : value = 0
    · subst hzero
      rw [if_pos rfl] at h
      rw [decodeLoop_data_cons]
      dsimp only at h ⊢
      split
      case isTrue hsize => exact absurd trivial (by rwa [if_pos hsize] at h)
      case isFalse hsize =>
        rw [if_neg hsize] at h
        obtain ⟨h4, hsz⟩ := not_or.mp hsize
        have hdrop : (data.drop (addUint32 (todword data) SIZEOF_LENGTH)).length ≤ INT_MAX := by
          rw [List.length_drop]
          omega
        cases hx : findtag st (tag + 1) with
        | none =>
          rw [hx] at h
          exact ih _ _ s hdrop h
        | some x =>
          rw [hx] at h
          have hsized := sized_of_le (Nat.not_lt.mp h4) hlen (Nat.not_lt.mp hsz)
          by_cases hexp : Exposed x data
          · dsimp only
            rw [decodeField_exposed (by decide) hsized hexp]
            rfl
          · obtain ⟨hacc, hrest⟩ := Classical.not_imp.mp (not_and.mp h hexp)
            obtain ⟨s', hs'⟩ :=
              @decodeField_taken _ x s data (-1) (by decide) hsized hexp hacc
            dsimp only
            rw [hs', ok_bind]
            exact ih _ _ s' hdrop hrest
    · rw [if_neg hzero] at h
      rw [decodeLoop_value_cons hodd hzero]
      cases hx : findtag st (tag + 1) with
      | none =>
        rw [hx] at h
        exact ih _ data s hlen h
      | some x =>
        rw [hx] at h
        obtain ⟨htype, hrest⟩ := Classical.not_imp.mp h
        have hvalue := @decodeField_value _ takeAll x s data ((value : Int) / 2 - 1) (by omega)
        rw [if_pos htype] at hvalue
        dsimp only
        rw [hvalue, ok_bind]
        exact ih _ data _ hlen hrest

theorem sprotoDecode_records (st : SprotoType) (data : List UInt8) (cb : Collect σ) (s : σ)
    (h : SIZEOF_HEADER + toword data * SIZEOF_FIELD ≤ data.length) :
    sprotoDecode st data cb s =
      decodeLoop st cb (words (toword data) (data.drop SIZEOF_HEADER)) (-1)
          (data.drop (SIZEOF_HEADER + toword data * SIZEOF_FIELD))
          (data.drop (SIZEOF_HEADER + toword data * SIZEOF_FIELD)).length s >>= fun r =>
        .ok (r.1, data.length - r.2) := by
  rw [sprotoDecode, if_neg (by omega)]
  dsimp only
  rw [if_neg (by omega), List.drop_drop, List.length_drop, Nat.sub_sub]
  rfl

theorem sprotoDecode_short (st : SprotoType) (data : List UInt8) (cb : Collect σ) (s : σ)
    (h : data.length < SIZEOF_HEADER + toword data * SIZEOF_FIELD) :
    sprotoDecode st data cb s = .error .failed := by
  rw [sprotoDecode]
  by_cases hheader : data.length < SIZEOF_HEADER
  · rw [if_pos hheader]
  · rw [if_neg hheader]
    dsimp only
    rw [if_pos (by omega)]

/-- Bytes are decoded inside of them, whatever the callback does, exactly when no value of a size
that wraps is read or handed on. -/
theorem decodes_inside_iff (st : SprotoType) (data : List UInt8) (hlen : data.length ≤ INT_MAX) :
    DecodesInside st data ↔ Sheltered st data := by
  have hrest : (data.drop (SIZEOF_HEADER + toword data * SIZEOF_FIELD)).length ≤ INT_MAX := by
    rw [List.length_drop]
    omega
  constructor
  · intro hinside hheader
    apply Classical.byContradiction
    intro hexposed
    have h := hinside Unit takeAll ()
    rw [sprotoDecode_records st data takeAll () hheader,
      decodeLoop_exposed _ (-1) _ () hrest hexposed] at h
    exact h
  · intro hsheltered σ cb s
    by_cases hheader : SIZEOF_HEADER + toword data * SIZEOF_FIELD ≤ data.length
    · have hloop := decodeLoop_inside cb _ (-1) _ s hrest (hsheltered hheader)
      rw [sprotoDecode_records st data cb s hheader]
      cases hrun : decodeLoop st cb (words (toword data) (data.drop SIZEOF_HEADER)) (-1)
          (data.drop (SIZEOF_HEADER + toword data * SIZEOF_FIELD))
          (data.drop (SIZEOF_HEADER + toword data * SIZEOF_FIELD)).length s with
      | ok r => exact Nat.sub_le data.length r.2
      | error failure =>
        cases failure with
        | failed => trivial
        | outside => exact absurd hrun hloop
    · rw [sprotoDecode_short st data cb s (Nat.not_le.mp hheader)]
      trivial

def textType : SprotoType where
  name := []
  f := [⟨[], 0, .string, false, none, -1, 0⟩]
  sorted := List.pairwise_singleton _ _
  tag_lt := by decide

/-- A string of one byte. -/
theorem decodes_inside_text : DecodesInside textType [1, 0, 0, 0, 1, 0, 0, 0, 65] := by
  apply (decodes_inside_iff textType [1, 0, 0, 0, 1, 0, 0, 0, 65] (by decide)).mpr
  intro hheader
  have hfind : findtag textType 0 = some ⟨[], 0, .string, false, none, -1, 0⟩ := rfl
  have hwraps : ¬Wraps [1, 0, 0, 0, 65] := by
    unfold Wraps
    decide
  show NoExposed textType [0] (-1) [1, 0, 0, 0, 65]
  simp only [NoExposed, Int.reduceNeg, Int.reduceAdd, hfind]
  rw [if_neg (by decide), if_pos trivial, if_neg (by decide)]
  exact ⟨fun hexp => hwraps hexp.1, fun _ => trivial⟩

/-- A string of 2^32 - 4 bytes in a message of eight is handed on. -/
theorem decodes_outside_text :
    ¬∀ (st : SprotoType) (data : List UInt8), data.length ≤ INT_MAX → DecodesInside st data := by
  intro h
  have hinside := h textType [1, 0, 0, 0, 0xfc, 0xff, 0xff, 0xff] (by decide) Unit takeAll ()
  have hrun : sprotoDecode textType [1, 0, 0, 0, 0xfc, 0xff, 0xff, 0xff] takeAll () =
      .error .outside := by
    rfl
  rw [hrun] at hinside
  exact hinside

end XsServer.Sproto
