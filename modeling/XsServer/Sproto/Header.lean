import XsServer.Lib.Results
import XsServer.Sproto.Import

/-! `sproto_encode` in its buffer: the records grow from the front into the room for `maxn` of them,
the data after it, and at the end the data is moved to the records.  What a field leaves in memory
behind its data is an argument. -/

namespace XsServer.Sproto

open Lib

/-- The variables of `sproto_encode`; pointers are positions in the buffer. -/
structure Writer where
  mem : Memory
  data : Nat
  size : Int
  index : Nat
  lasttag : Int

def Writer.put (w : Writer) (value : Nat) : Writer :=
  { w with
    mem := write w.mem (SIZEOF_HEADER + SIZEOF_FIELD * w.index) (Bytes.le 2 value)
    index := w.index + 1 }

/-- The record of a field, after one that skips the tags before it. -/
def Writer.record (w : Writer) (tag value : Nat) : Except Failure Writer :=
  let skip : Int := tag - w.lasttag - 1
  if skip > 0 then
    let skip := (skip - 1) * 2 + 1
    if skip > 0xffff then .error .failed
    else .ok { (w.put skip.toNat).put value with lasttag := tag }
  else .ok { w.put value with lasttag := tag }

/-- The bytes at `data`; behind them is what the callback or the code left there. -/
def Writer.spill (w : Writer) (left : Memory) (bytes : List UInt8) : Writer :=
  { w with
    mem := fun j => if j < w.data + bytes.length then write w.mem w.data bytes j else left j
    data := w.data + bytes.length
    size := w.size - bytes.length }

def writeFields (cb : Supply) (left : Field → Memory) :
    List Field → Writer → Except Failure (Option Writer)
  | [], w => .ok (some w)
  | x :: rest, w => do
    match ← encodeField cb x w.size with
    | .absent => writeFields cb left rest (w.spill (left x) [])
    | .stop => return none
    | .value v => writeFields cb left rest (← w.record x.tag v)
    | .data bytes => writeFields cb left rest (← (w.spill (left x) bytes).record x.tag 0)

def memmove (mem : Memory) (dst src n : Nat) : Memory := write mem dst (cells mem src n)

def headerSz (maxn : Nat) : Nat := SIZEOF_HEADER + maxn * SIZEOF_FIELD

def Writer.start (maxn : Nat) (size : Int) (mem : Memory) : Writer :=
  ⟨mem, headerSz maxn, size - headerSz maxn, 0, -1⟩

/-- The memory and the returned size; 0 is returned when no array is wanted. -/
def encodeBuffer (f : List Field) (maxn : Nat) (size : Int) (cb : Supply) (left : Field → Memory)
    (mem : Memory) : Except Failure (Option (Memory × Nat)) :=
  if size < headerSz maxn then .error .failed
  else do
    match ← writeFields cb left f (.start maxn size mem) with
    | none => return none
    | some w =>
      let mem := write w.mem 0 (Bytes.le 2 w.index)
      let datasz := w.data - headerSz maxn
      let mem :=
        if w.index ≠ maxn then
          memmove mem (SIZEOF_HEADER + w.index * SIZEOF_FIELD) (headerSz maxn) datasz
        else mem
      return some (mem, SIZEOF_HEADER + w.index * SIZEOF_FIELD + datasz)

variable {cb : Supply} {arg : Arg} {size : Int} {bytes : List UInt8}

/-! ### The room for data -/

theorem integerLoop_room {s t : IntArray} (hsize : 0 ≤ s.size)
    (h : integerLoop cb arg s = .ok (some t)) : 0 ≤ t.size ∧ t.pos + t.size = s.pos + s.size := by
  induction hn : s.size.toNat using Nat.strong_induction_on generalizing s with
  | _ n ih =>
    rw [integerLoop] at h
    split at h
    · obtain rfl := Option.some_inj.mp (Except.ok.inj h)
      exact ⟨hsize, rfl⟩
    · cases h
    · cases h
    · split at h
      · cases h
      · have hpush : ∀ (u : IntArray) (mem : Memory), 8 ≤ u.size → u.size ≤ s.size →
            u.pos + u.size = s.pos + s.size → integerLoop cb arg (u.push mem) = .ok (some t) →
            0 ≤ t.size ∧ t.pos + t.size = s.pos + s.size := by
          intro u mem hroom hle hsum hloop
          have hlen : u.intlen ≤ 8 ∧ 4 ≤ u.intlen := by
            rw [IntArray.intlen]
            split <;> decide
          obtain ⟨hleft, htotal⟩ := ih _ (by simp only [IntArray.push]; omega)
            (by simp only [IntArray.push]; omega) hloop rfl
          refine ⟨hleft, htotal.trans ?_⟩
          simp only [IntArray.push]
          push_cast
          omega
        split at h
        · exact hpush s _ (by omega) le_rfl rfl h
        · split at h
          · cases h
          · split at h
            · exact hpush s _ (by omega) le_rfl rfl h
            · split at h
              · cases h
              · refine hpush s.widen _ (by omega) ?_ ?_ h
                · simp only [IntArray.widen]
                  omega
                · simp only [IntArray.widen]
                  push_cast
                  omega

theorem encodeIntegerArray_le (h : encodeIntegerArray cb arg size = .ok (some bytes)) :
    (bytes.length : Int) ≤ size := by
  rw [encodeIntegerArray] at h
  split at h
  · cases h
  · obtain ⟨s, hloop, hs⟩ := bind_ok h
    obtain ⟨s, rfl, rfl⟩ := Option.map_eq_some_iff.mp (Except.ok.inj hs)
    obtain ⟨hleft, hsum⟩ := integerLoop_room (by simp only; omega) hloop
    simp only at hsum
    split
    · simp only [List.length_nil]
      omega
    · simp only [load, List.length_cons, List.length_map, List.length_range]
      push_cast
      omega

theorem booleanLoop_le {index : Nat} (hsize : 0 ≤ size)
    (h : booleanLoop cb arg size index = .ok (some bytes)) : (bytes.length : Int) ≤ size := by
  induction hn : size.toNat generalizing size index bytes with
  | zero =>
    rw [booleanLoop] at h
    split at h
    · obtain rfl := Option.some_inj.mp (Except.ok.inj h)
      exact hsize
    · cases h
    · cases h
    · rw [if_pos (by omega)] at h
      cases h
  | succ n ih =>
    rw [booleanLoop] at h
    split at h
    · obtain rfl := Option.some_inj.mp (Except.ok.inj h)
      exact hsize
    · cases h
    · cases h
    · rw [if_neg (by omega)] at h
      obtain ⟨rest, hrest, hr⟩ := bind_ok h
      obtain ⟨rest, rfl, rfl⟩ := Option.map_eq_some_iff.mp (Except.ok.inj hr)
      have hle := ih (by omega) hrest (by omega)
      simp only [List.length_cons]
      push_cast
      omega

theorem objectLoop_le {index : Nat} (h : objectLoop cb arg size index = .ok (some bytes)) :
    (bytes.length : Int) ≤ size := by
  induction hn : size.toNat using Nat.strong_induction_on generalizing size index bytes with
  | _ n ih =>
    rw [objectLoop] at h
    split at h
    · cases h
    · split at h
      · obtain rfl := Option.some_inj.mp (Except.ok.inj h)
        simp only [List.length_nil]
        omega
      · cases h
      · cases h
      · obtain ⟨rest, hrest, hr⟩ := bind_ok h
        obtain ⟨rest, rfl, rfl⟩ := Option.map_eq_some_iff.mp (Except.ok.inj hr)
        have hle := ih _ (by omega) hrest rfl
        simp only [List.length_append, fillSize_length]
        push_cast
        omega

theorem encodeArray_le (hsize : 0 ≤ size) (h : encodeArray cb arg size = .ok bytes) :
    (bytes.length : Int) ≤ size := by
  rw [encodeArray] at h
  split at h
  · cases h
  · have harray : ∀ enc : Except Failure (Option (List UInt8)),
        (∀ elements, enc = .ok (some elements) → (elements.length : Int) ≤ size - 4) →
        (enc >>= fun elements => .ok (arrayBytes elements)) = .ok bytes →
        (bytes.length : Int) ≤ size := by
      intro enc hle h
      obtain ⟨elements, helements, hr⟩ := bind_ok h
      obtain rfl := Except.ok.inj hr
      cases elements with
      | none => exact hsize
      | some elements =>
        have hroom := hle elements helements
        simp only [arrayBytes, List.length_append, fillSize_length]
        push_cast
        omega
    simp only at h
    split at h
    · exact harray _ (fun _ => encodeIntegerArray_le) h
    · exact harray _ (fun _ => encodeIntegerArray_le) h
    · exact harray _ (fun _ => booleanLoop_le (by omega)) h
    · exact harray _ (fun _ => objectLoop_le) h
    · exact harray _ (fun _ => objectLoop_le) h

theorem encodeObject_le (hsize : 0 ≤ size) (h : encodeObject cb arg size = .ok bytes) :
    (bytes.length : Int) ≤ size := by
  rw [encodeObject] at h
  split at h
  · cases h
  · split at h
    · split at h
      · obtain rfl := Except.ok.inj h
        simp only [List.length_append, fillSize_length]
        push_cast
        omega
      · cases h
    · obtain rfl := Except.ok.inj h
      exact hsize
    · cases h

theorem encodeInteger_le {v : Nat} (h : encodeInteger v size = .ok bytes) :
    (bytes.length : Int) ≤ size := by
  rw [encodeInteger] at h
  split at h
  · cases h
  · obtain rfl := Except.ok.inj h
    simp only [List.length_append, fillSize_length, Bytes.le_length]
    omega

theorem encodeUint64_le {v : Nat} (h : encodeUint64 v size = .ok bytes) :
    (bytes.length : Int) ≤ size := by
  rw [encodeUint64] at h
  split at h
  · cases h
  · obtain rfl := Except.ok.inj h
    simp only [List.length_append, fillSize_length, Bytes.le_length]
    omega

theorem ofData_eq_data {l : List UInt8} (h : Encoded.ofData l = .data bytes) : l = bytes := by
  rw [Encoded.ofData] at h
  split at h
  · cases h
  · exact Encoded.data.inj h

theorem encodeScalar_le (r : CbResult)
    (h : (match r with
      | .nil => .ok .absent
      | .noarray => .ok .stop
      | .error => .error .failed
      | .ok value =>
        if value.length = 4 then
          if Bytes.ofLe value < 0x7fff then .ok (.value ((Bytes.ofLe value + 1) * 2))
          else Encoded.data <$> encodeInteger (Bytes.ofLe value) size
        else if value.length = 8 then Encoded.data <$> encodeUint64 (Bytes.ofLe value) size
        else .error .failed : Except Failure Encoded) = .ok (.data bytes)) :
    (bytes.length : Int) ≤ size := by
  split at h
  · cases h
  · cases h
  · cases h
  · split at h
    · split at h
      · cases h
      · obtain ⟨l, hl, hdata⟩ := map_ok h
        obtain rfl := Encoded.data.inj hdata
        exact encodeInteger_le hl
    · split at h
      · obtain ⟨l, hl, hdata⟩ := map_ok h
        obtain rfl := Encoded.data.inj hdata
        exact encodeUint64_le hl
      · cases h

theorem encodeField_le {x : Field} (hsize : 0 ≤ size)
    (h : encodeField cb x size = .ok (.data bytes)) : (bytes.length : Int) ≤ size := by
  rw [encodeField] at h
  split at h
  · obtain ⟨l, hl, hdata⟩ := map_ok h
    obtain rfl := ofData_eq_data hdata
    exact encodeArray_le hsize hl
  · split at h
    · exact encodeScalar_le _ h
    · exact encodeScalar_le _ h
    · exact encodeScalar_le _ h
    · obtain ⟨l, hl, hdata⟩ := map_ok h
      obtain rfl := ofData_eq_data hdata
      exact encodeObject_le hsize hl
    · obtain ⟨l, hl, hdata⟩ := map_ok h
      obtain rfl := ofData_eq_data hdata
      exact encodeObject_le hsize hl

/-- After the tag `prev`, of a field that was there or not: there is room for the records of the
rest, and for one that skips if the last record is older. -/
structure Charged (maxn : Nat) (prev : Int) (rest : List Field) (index : Nat) (lasttag : Int) :
    Prop where
  follow : Follow prev rest
  first : -1 ≤ lasttag
  le : lasttag ≤ prev
  room : index + (rest.length + gaps prev rest) + (if lasttag < prev then 1 else 0) ≤ maxn

variable {maxn index : Nat} {prev lasttag total : Int} {x : Field} {rest : List Field}

theorem Charged.start (st : SprotoType) : Charged st.maxn (-1) st.f 0 (-1) where
  follow := st.follow
  first := le_rfl
  le := le_rfl
  room := by simp [SprotoType.maxn]

theorem Charged.index_le (h : Charged maxn prev rest index lasttag) : index ≤ maxn :=
  (by omega : index ≤ _).trans h.room

theorem Charged.after (h : Charged maxn prev (x :: rest) index lasttag) :
    Follow lasttag (x :: rest) where
  first := h.first
  after y hy := lt_of_le_of_lt h.le (h.follow.after y hy)
  sorted := h.follow.sorted
  tag_lt := h.follow.tag_lt

theorem Charged.absent (h : Charged maxn prev (x :: rest) index lasttag) :
    Charged maxn x.tag rest index lasttag where
  follow := h.follow.tail
  first := h.first
  le := (h.le.trans_lt (h.follow.after x List.mem_cons_self)).le
  room := by
    have hroom := h.room
    rw [gaps, List.length_cons] at hroom
    split <;> omega

/-- A field that is there has its record, and takes the one that skips from a gap before it or from
a field that was not there. -/
theorem Charged.present (h : Charged maxn prev (x :: rest) index lasttag) :
    Charged maxn x.tag rest (index + ((skips lasttag x.tag).length + 1)) x.tag where
  follow := h.follow.tail
  first := by omega
  le := le_rfl
  room := by
    have hroom := h.room
    have hle := h.le
    rw [gaps, List.length_cons] at hroom
    rw [skips_length, if_neg (lt_irrefl _)]
    split at hroom <;> split at hroom <;> split <;> omega

/-! ### The buffer -/

/-- The buffer has the records and the data, and the size is the room behind them. -/
structure Mirrors (total : Int) (maxn : Nat) (w : Writer) (s : Encoder) : Prop where
  index : w.index = s.records.length
  data : w.data = headerSz maxn + s.data.length
  size : w.size = s.size
  lasttag : w.lasttag = s.lasttag
  total : w.data + w.size = total
  room : 0 ≤ w.size
  records : Lib.Holds w.mem SIZEOF_HEADER (s.records.flatMap (Bytes.le 2))
  bytes : Lib.Holds w.mem (headerSz maxn) s.data

variable {w : Writer} {s : Encoder} {left : Memory}

theorem Mirrors.start (hsize : headerSz maxn ≤ total) (mem : Memory) :
    Mirrors total maxn (.start maxn total mem) ⟨[], [], total - headerSz maxn, -1⟩ where
  index := rfl
  data := rfl
  size := rfl
  lasttag := rfl
  total := by simp only [Writer.start]; omega
  room := by simp only [Writer.start]; omega
  records := holds_nil _ _
  bytes := holds_nil _ _

theorem Mirrors.put (h : Mirrors total maxn w s) (value : Nat) (hroom : s.records.length < maxn) :
    Mirrors total maxn (w.put value) { s with records := s.records ++ [value] } where
  index := by simp only [Writer.put, h.index, List.length_append, List.length_singleton]
  data := h.data
  size := h.size
  lasttag := h.lasttag
  total := h.total
  room := h.room
  records := by
    have hlen := words_length s.records
    have hindex := h.index
    rw [List.flatMap_append]
    refine (h.records.write (.inl ?_)).append ?_
    · simp only [SIZEOF_HEADER, SIZEOF_FIELD]
      omega
    · have hplace : SIZEOF_HEADER + (s.records.flatMap (Bytes.le 2)).length
          = SIZEOF_HEADER + SIZEOF_FIELD * w.index := by
        simp only [SIZEOF_HEADER, SIZEOF_FIELD]
        omega
      rw [hplace, List.flatMap_singleton]
      exact holds_write _ _ _
  bytes := by
    have hindex := h.index
    refine h.bytes.write (.inr ?_)
    simp only [Bytes.le_length, headerSz, SIZEOF_HEADER, SIZEOF_FIELD]
    omega

theorem Mirrors.setLast (h : Mirrors total maxn w s) (tag : Int) :
    Mirrors total maxn { w with lasttag := tag } { s with lasttag := tag } :=
  ⟨h.index, h.data, h.size, rfl, h.total, h.room, h.records, h.bytes⟩

/-- What `Encoder.record` gives. -/
def Encoder.recorded (s : Encoder) (tag value : Nat) : Encoder :=
  { s with records := s.records ++ (skips s.lasttag tag ++ [value]), lasttag := tag }

theorem Charged.recorded (hc : Charged maxn prev (x :: rest) s.records.length s.lasttag)
    (value : Nat) :
    Charged maxn x.tag rest (s.recorded x.tag value).records.length
      (s.recorded x.tag value).lasttag := by
  simpa [Encoder.recorded] using hc.present

theorem Mirrors.record (h : Mirrors total maxn w s)
    (hc : Charged maxn prev (x :: rest) s.records.length s.lasttag) (value : Nat) :
    ∃ w', w.record x.tag value = .ok w' ∧ Mirrors total maxn w' (s.recorded x.tag value) := by
  have hroom := hc.present.index_le
  have hlt := hc.follow.tag_lt x List.mem_cons_self
  have hfirst := hc.first
  by_cases hgap : (x.tag : Int) - s.lasttag - 1 > 0
  · have hrecord : w.record x.tag value = .ok
        { (w.put (((x.tag : Int) - s.lasttag - 1 - 1) * 2 + 1).toNat).put value with
          lasttag := x.tag } := by
      rw [Writer.record, h.lasttag, if_pos hgap]
      exact if_neg (by omega)
    rw [skips, if_pos hgap, List.length_singleton] at hroom
    have hskip := h.put (((x.tag : Int) - s.lasttag - 1 - 1) * 2 + 1).toNat (by omega)
    have hvalue := hskip.put value (by
      simp only [List.length_append, List.length_singleton]
      omega)
    refine ⟨_, hrecord, ?_⟩
    rw [Encoder.recorded, skips, if_pos hgap, ← List.append_assoc]
    exact hvalue.setLast x.tag
  · have hrecord : w.record x.tag value = .ok { w.put value with lasttag := x.tag } := by
      rw [Writer.record, h.lasttag, if_neg hgap]
    rw [skips, if_neg hgap, List.length_nil] at hroom
    have hvalue := h.put value (by omega)
    refine ⟨_, hrecord, ?_⟩
    rw [Encoder.recorded, skips, if_neg hgap, List.nil_append]
    exact hvalue.setLast x.tag

/-- Data is written behind the data, whatever is left behind it. -/
theorem Mirrors.spill (h : Mirrors total maxn w s) (left : Memory) (bytes : List UInt8)
    (hindex : s.records.length ≤ maxn) (hle : (bytes.length : Int) ≤ s.size) :
    Mirrors total maxn (w.spill left bytes)
      { s with data := s.data ++ bytes, size := s.size - bytes.length } where
  index := h.index
  data := by simp only [Writer.spill, h.data, List.length_append, Nat.add_assoc]
  size := by simp only [Writer.spill, h.size]
  lasttag := h.lasttag
  total := by
    have htotal := h.total
    simp only [Writer.spill]
    push_cast
    omega
  room := by
    have hsize := h.size
    simp only [Writer.spill]
    omega
  records := by
    have hlen := words_length s.records
    have hdata := h.data
    refine h.records.congr fun j _ hj => ?_
    simp only [headerSz, SIZEOF_HEADER, SIZEOF_FIELD] at hdata hj
    simp only [Writer.spill]
    rw [if_pos (by omega), write_before (by omega)]
  bytes := by
    have hdata := h.data
    refine (h.bytes.congr fun j _ hj => ?_).append ?_
    · simp only [Writer.spill]
      rw [if_pos (by omega), write_before (by omega)]
    · rw [← hdata]
      refine (holds_write w.mem w.data bytes).congr fun j _ hj => ?_
      simp only [Writer.spill]
      rw [if_pos hj]

/-! ### Runs -/

/-- The two runs over fields end in the same way, and with the same records and data. -/
inductive Agree (total : Int) (maxn : Nat) (rest : List Field) :
    Except Failure (Option Writer) → Except Failure (Option Encoder) → Prop
  | error (e : Failure) : Agree total maxn rest (.error e) (.error e)
  | stop : Agree total maxn rest (.ok none) (.ok none)
  | ok {w : Writer} {s : Encoder} {prev : Int} (hm : Mirrors total maxn w s)
    (hc : Charged maxn prev rest s.records.length s.lasttag) :
    Agree total maxn rest (.ok (some w)) (.ok (some s))

theorem writeFields_agrees (cb : Supply) (left : Field → Memory) (fs rest : List Field)
    (hm : Mirrors total maxn w s)
    (hc : Charged maxn prev (fs ++ rest) s.records.length s.lasttag) :
    Agree total maxn rest (writeFields cb left fs w) (encodeFields cb fs s) := by
  induction fs generalizing w s prev with
  | nil => exact .ok hm hc
  | cons x fs ih =>
    rw [List.cons_append] at hc
    have hindex := hc.index_le
    rw [writeFields, encodeFields, hm.size]
    cases hfield : encodeField cb x s.size with
    | error e => exact .error e
    | ok e =>
      cases e with
      | absent =>
        have hspill := hm.spill (left x) [] hindex (by
          rw [← hm.size]
          exact hm.room)
        exact ih (by simpa using hspill) hc.absent
      | stop => exact .stop
      | value v =>
        obtain ⟨w', hrecord, hm'⟩ := hm.record hc v
        have hencode := Encoder.record_eq hc.after v
        simp only [ok_bind]
        rw [hrecord, hencode]
        exact ih hm' (hc.recorded v)
      | data bytes =>
        have hle := encodeField_le (by
          rw [← hm.size]
          exact hm.room) hfield
        have hspill := hm.spill (left x) bytes hindex hle
        obtain ⟨w', hrecord, hm'⟩ := hspill.record hc 0
        have hencode := Encoder.record_eq hc.after 0
        simp only [ok_bind]
        rw [hrecord, hencode]
        exact ih hm' (hc.recorded 0)

theorem Mirrors.message (h : Mirrors total maxn w s) :
    let mem := write w.mem 0 (Bytes.le 2 w.index)
    let place := SIZEOF_HEADER + w.index * SIZEOF_FIELD
    Lib.Holds
      (if w.index ≠ maxn then memmove mem place (headerSz maxn) (w.data - headerSz maxn) else mem) 0
      (Bytes.le 2 s.records.length ++ s.records.flatMap (Bytes.le 2) ++ s.data) := by
  intro mem place
  have hlen := words_length s.records
  have hidx := h.index
  have hdata := h.data
  have hfront : Lib.Holds mem 0 (Bytes.le 2 w.index ++ s.records.flatMap (Bytes.le 2)) :=
    (holds_write _ _ _).append (by
      rw [Bytes.le_length]
      exact h.records.write (.inr (by simp [SIZEOF_HEADER])))
  have hbytes : Lib.Holds mem (headerSz maxn) s.data :=
    h.bytes.write (.inr (by
      simp only [Bytes.le_length, headerSz, SIZEOF_HEADER]
      omega))
  have hplace : 0 + (Bytes.le 2 w.index ++ s.records.flatMap (Bytes.le 2)).length = place := by
    simp only [List.length_append, Bytes.le_length, place, SIZEOF_HEADER, SIZEOF_FIELD]
    omega
  rw [← hidx]
  split
  case isTrue =>
    have hsz : w.data - headerSz maxn = s.data.length := by omega
    rw [hsz, memmove, hbytes.cells]
    refine (hfront.write (.inl hplace.le)).append ?_
    rw [hplace]
    exact holds_write _ _ _
  case isFalse hfull =>
    have hsame : place = headerSz maxn := by
      simp only [place, headerSz, not_not.mp hfull]
    refine hfront.append ?_
    rw [hplace, hsame]
    exact hbytes

def returned : Option (Memory × Nat) → List UInt8
  | none => []
  | some (mem, n) => cells mem 0 n

theorem encodeBuffer_returned (st : SprotoType) (size : Int) (cb : Supply) (left : Field → Memory)
    (mem : Memory) :
    sprotoEncode st size cb = returned <$> encodeBuffer st.f st.maxn size cb left mem ∧
      ∀ m n, encodeBuffer st.f st.maxn size cb left mem = .ok (some (m, n)) → (n : Int) ≤ size := by
  rw [sprotoEncode, encodeBuffer]
  by_cases hsize : size < headerSz st.maxn
  · rw [if_pos hsize]
    refine ⟨if_pos hsize, fun m n h => by cases h⟩
  · rw [if_neg hsize]
    have hagree := writeFields_agrees cb left st.f []
      (Mirrors.start (not_lt.mp hsize) mem) (by
        rw [List.append_nil]
        exact Charged.start st)
    have hnot : ¬ size < (SIZEOF_HEADER + st.maxn * SIZEOF_FIELD : Nat) := hsize
    simp only [if_neg hnot]
    change (encodeFields cb st.f ⟨[], [], size - headerSz st.maxn, -1⟩ >>= _) = _ ∧ _
    generalize writeFields cb left st.f (.start st.maxn size mem) = written at hagree ⊢
    generalize encodeFields cb st.f ⟨[], [], size - headerSz st.maxn, -1⟩ = encoded at hagree ⊢
    cases hagree with
    | error e | stop => exact ⟨rfl, fun m n h => by cases h⟩
    | @ok w s prev hm hc =>
      have hindex := hc.index_le
      have hidx := hm.index
      have hdata := hm.data
      have htotal := hm.total
      have hroom := hm.room
      have hlen := words_length s.records
      have hcells := hm.message.cells
      refine ⟨?_, fun m n h => ?_⟩
      · simp only [ok_bind]
        rw [if_pos hindex]
        refine congrArg Except.ok ?_
        rw [returned, ← hcells]
        congr 1
        simp only [List.length_append, Bytes.le_length, SIZEOF_HEADER, SIZEOF_FIELD]
        omega
      · obtain ⟨-, rfl⟩ := Prod.mk.inj (Option.some_inj.mp (Except.ok.inj h))
        simp only [headerSz, SIZEOF_HEADER, SIZEOF_FIELD] at hdata ⊢
        omega

/-- For a type that was loaded, whatever the callback reports: the records stay in their room, so
that they and the data are as they were written after each field; the data is moved towards the
front; and what is returned, which is what the records and the data make up, fits the buffer. -/
theorem header_room {typeN stream stream' : Nat} {stale : Int} {schema : Memory} {t : Imported}
    (himport : importType typeN stale schema stream = some (t, stream')) (size : Int) (cb : Supply)
    (left : Field → Memory) (mem : Memory) :
    (headerSz t.maxn ≤ size → ∀ k w,
      writeFields cb left (t.f.take k) (.start t.maxn size mem) = .ok (some w) →
      w.index ≤ t.maxn ∧ SIZEOF_HEADER + w.index * SIZEOF_FIELD ≤ headerSz t.maxn ∧
      (w.data : Int) ≤ size ∧
      ∃ s, encodeFields cb (t.f.take k) ⟨[], [], size - headerSz t.maxn, -1⟩ = .ok (some s) ∧
        w.index = s.records.length ∧ w.data = headerSz t.maxn + s.data.length ∧
        Lib.Holds w.mem SIZEOF_HEADER (s.records.flatMap (Bytes.le 2)) ∧
        Lib.Holds w.mem (headerSz t.maxn) s.data) ∧
    (∃ st : SprotoType, st.f = t.f ∧ st.maxn = t.maxn ∧
      sprotoEncode st size cb = returned <$> encodeBuffer t.f t.maxn size cb left mem) ∧
    ∀ m n, encodeBuffer t.f t.maxn size cb left mem = .ok (some (m, n)) → (n : Int) ≤ size := by
  obtain ⟨st, -, hf, -, hmaxn, -⟩ := importType_eq himport
  rw [hf, hmaxn]
  obtain ⟨hreturned, hfits⟩ := encodeBuffer_returned st size cb left mem
  refine ⟨fun hsize k w hw => ?_, ⟨st, rfl, rfl, hreturned⟩, hfits⟩
  have hagree := writeFields_agrees cb left (st.f.take k) (st.f.drop k)
    (Mirrors.start hsize mem) (by
      rw [List.take_append_drop]
      exact Charged.start st)
  rw [hw] at hagree
  generalize hs : encodeFields cb (st.f.take k) ⟨[], [], size - headerSz st.maxn, -1⟩ = encoded
    at hagree ⊢
  cases hagree with
  | @ok w s prev hm hc =>
    have hindex : w.index ≤ st.maxn := hm.index ▸ hc.index_le
    have htotal := hm.total
    have hroom := hm.room
    refine ⟨hindex, ?_, by omega, s, rfl, hm.index, hm.data, hm.records, hm.bytes⟩
    exact Nat.add_le_add_left (Nat.mul_le_mul_right _ hindex) _

/-- A type with one field `x`, an integer with the tag 5. -/
def taggedSchema : Memory := fun j =>
  [34, 0, 0, 0, 2, 0, 0, 0, 0, 0, 1, 0, 0, 0, 97, 19, 0, 0, 0, 15, 0, 0, 0, 4, 0, 0, 0, 2, 0, 1, 0,
    12, 0, 1, 0, 0, 0, 120].getD j 0

theorem header_room_tagged : ∃ t, importType 0 0 taggedSchema 0 = some (t, 38) ∧ t.maxn = 2 ∧
    ∀ size cb left mem m n, encodeBuffer t.f t.maxn size cb left mem = .ok (some (m, n)) →
      (n : Int) ≤ size :=
  ⟨_, rfl, rfl, fun size cb left mem m n h =>
    (header_room (show importType 0 0 taggedSchema 0 = _ from rfl) size cb left mem).2.2 m n h⟩

end XsServer.Sproto
