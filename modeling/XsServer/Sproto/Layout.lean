import XsServer.Sproto.Elements

/-! The layout of a message: a record for each field that is there, records that skip tags, and the
data of the fields. -/

namespace XsServer.Sproto

open Lib

/-- The record before that of a tag, if there is a gap. -/
def skips (last : Int) (tag : Nat) : List Nat :=
  if (tag : Int) - last - 1 > 0 then [(((tag : Int) - last - 1 - 1) * 2 + 1).toNat] else []

/-- The records of the fields, after that of the tag `last`. -/
def records (code : Field → Encoded) : Int → List Field → List Nat
  | _, [] => []
  | last, x :: rest =>
    match code x with
    | .value v => skips last x.tag ++ v :: records code x.tag rest
    | .data _ => skips last x.tag ++ 0 :: records code x.tag rest
    | _ => records code last rest

def dataOf (code : Field → Encoded) (fs : List Field) : List UInt8 :=
  fs.flatMap fun x => (code x).bytes

/-- The fields have growing tags after `last`, which fit in a record. -/
structure Follow (last : Int) (fs : List Field) : Prop where
  first : -1 ≤ last
  after : ∀ x ∈ fs, last < x.tag
  sorted : fs.Pairwise fun x y => x.tag < y.tag
  tag_lt : ∀ x ∈ fs, x.tag < 0x7fff

variable {code : Field → Encoded} {last : Int} {x : Field} {fs : List Field}

theorem SprotoType.follow (st : SprotoType) : Follow (-1) st.f where
  first := le_refl _
  after x _ := by omega
  sorted := st.sorted
  tag_lt := st.tag_lt

theorem Follow.tail (h : Follow last (x :: fs)) : Follow x.tag fs where
  first := by omega
  after y hy := Int.ofNat_lt.mpr (List.rel_of_pairwise_cons h.sorted hy)
  sorted := h.sorted.of_cons
  tag_lt y hy := h.tag_lt y (List.mem_cons_of_mem x hy)

theorem Follow.skip (h : Follow last (x :: fs)) : Follow last fs where
  first := h.first
  after y hy := h.after y (List.mem_cons_of_mem x hy)
  sorted := h.sorted.of_cons
  tag_lt y hy := h.tag_lt y (List.mem_cons_of_mem x hy)

theorem skips_length (last : Int) (tag : Nat) :
    (skips last tag).length = if (tag : Int) > last + 1 then 1 else 0 := by
  unfold skips
  split
  · rw [if_pos (by omega)]
    rfl
  · rw [if_neg (by omega)]
    rfl

/-- There is a record for each field, and one for each gap; fields that are not there may make a gap
of their own, in place of their record. -/
theorem records_length (code : Field → Encoded) {prev : Int} (hprev : last ≤ prev)
    (h : Follow prev fs) :
    (records code last fs).length ≤
      fs.length + gaps prev fs + if last < prev then 1 else 0 := by
  induction fs generalizing last prev with
  | nil => exact Nat.zero_le _
  | cons x fs ih =>
    have hafter := h.after x List.mem_cons_self
    have hpresent := ih (le_refl (x.tag : Int)) h.tail
    have habsent : (records code last fs).length ≤ _ := ih (by omega) h.tail
    have hskips := skips_length last x.tag
    rw [if_neg (lt_irrefl _)] at hpresent
    rw [if_pos (by omega)] at habsent
    rw [records, gaps, List.length_cons]
    have hrecord : ∀ w, (skips last x.tag ++ w :: records code x.tag fs).length ≤
        fs.length + 1 + ((if (x.tag : Int) > prev + 1 then 1 else 0) + gaps x.tag fs) +
          if last < prev then 1 else 0 := fun w => by
      rw [List.length_append, List.length_cons, hskips]
      split <;> split <;> split <;> omega
    cases code x with
    | value v => exact hrecord v
    | data bytes => exact hrecord 0
    | absent | stop => exact le_trans habsent (by omega)

theorem length_add_gaps_le (h : Follow last fs) :
    fs.length + gaps last fs ≤ (0x7ffe - last).toNat := by
  induction fs generalizing last with
  | nil => exact Nat.zero_le _
  | cons x fs ih =>
    have htail := ih h.tail
    have hafter := h.after x List.mem_cons_self
    have hlt := h.tag_lt x List.mem_cons_self
    rw [List.length_cons, gaps]
    split <;> omega

theorem SprotoType.maxn_le (st : SprotoType) : st.maxn ≤ 0x7fff := length_add_gaps_le st.follow

theorem SprotoType.records_le (st : SprotoType) (code : Field → Encoded) :
    (records code (-1) st.f).length ≤ st.maxn := by
  have h := records_length code (le_refl _) st.follow
  rwa [if_neg (lt_irrefl _)] at h

theorem records_lt (h : Follow last fs)
    (hcode : ∀ x ∈ fs, ∀ v, code x = .value v → v < 2 ^ 16) :
    ∀ w ∈ records code last fs, w < 2 ^ 16 := by
  induction fs generalizing last with
  | nil => exact fun w hw => absurd hw List.not_mem_nil
  | cons x fs ih =>
    have hrest : ∀ {last}, Follow last fs → ∀ w ∈ records code last fs, w < 2 ^ 16 := fun h =>
      ih h fun y hy => hcode y (List.mem_cons_of_mem x hy)
    have hskips : ∀ w ∈ skips last x.tag, w < 2 ^ 16 := by
      have hlt := h.tag_lt x List.mem_cons_self
      have hfirst := h.first
      unfold skips
      split
      · intro w hw
        obtain rfl := List.mem_singleton.mp hw
        omega
      · exact fun w hw => absurd hw List.not_mem_nil
    have hrecord : ∀ v, v < 2 ^ 16 → ∀ w ∈ skips last x.tag ++ v :: records code x.tag fs,
        w < 2 ^ 16 := fun v hv w hw => by
      rcases List.mem_append.mp hw with hw | hw
      · exact hskips w hw
      · rcases List.mem_cons.mp hw with rfl | hw
        · exact hv
        · exact hrest h.tail w hw
    rw [records]
    cases hx : code x with
    | value v => exact hrecord v (hcode x List.mem_cons_self v hx)
    | data bytes => exact hrecord 0 (by decide)
    | absent | stop => exact hrest h.skip

theorem Encoder.record_eq {s : Encoder} (h : Follow s.lasttag (x :: fs)) (value : Nat) :
    s.record x.tag value =
      .ok { s with
        records := s.records ++ (skips s.lasttag x.tag ++ [value]), lasttag := x.tag } := by
  have hlt := h.tag_lt x List.mem_cons_self
  have hfirst := h.first
  unfold Encoder.record skips
  by_cases hgap : (x.tag : Int) - s.lasttag - 1 > 0
  · rw [if_pos hgap, if_pos hgap]
    exact if_neg (by omega)
  · rw [if_neg hgap, if_neg hgap]
    rfl

theorem encodeFields_codes {cb : Supply} (h : Follow last fs)
    (hcode : ∀ x ∈ fs, code x ≠ .stop ∧ Codes (encodeField cb x) (code x) (code x).bytes.length)
    (recs : List Nat) (data : List UInt8) :
    Codes (fun size => Option.map (fun s => (s.records, s.data)) <$>
        encodeFields cb fs ⟨recs, data, size, last⟩)
      (some (recs ++ records code last fs, data ++ dataOf code fs)) (dataOf code fs).length := by
  induction fs generalizing last recs data with
  | nil =>
    rw [records, dataOf, List.flatMap_nil, List.append_nil, List.append_nil]
    exact Codes.always (some (recs, data))
  | cons x fs ih =>
    have hrest : ∀ {last}, Follow last fs → ∀ recs data, _ := fun h =>
      ih h fun y hy => hcode y (List.mem_cons_of_mem x hy)
    obtain ⟨hstop, hfield⟩ := hcode x List.mem_cons_self
    have hdata : dataOf code (x :: fs) = (code x).bytes ++ dataOf code fs := List.flatMap_cons
    have hfailed : ∀ size, encodeField cb x size = .error .failed →
        Option.map (fun s => (s.records, s.data)) <$> encodeFields cb (x :: fs)
          ⟨recs, data, size, last⟩ = .error .failed := fun size hfail => by
      rw [encodeFields, hfail]
      rfl
    rw [hdata, List.length_append, records]
    cases hx : code x with
    | stop => exact absurd hx hstop
    | absent =>
      rw [hx] at hfield
      refine hfield.bind (hrest h.skip recs data) (fun size _ hok => ?_) fun size _ => hfailed size
      rw [show size - ((Encoded.absent.bytes.length : Nat) : Int) = size from Int.sub_zero size,
        encodeFields, hok]
      rfl
    | value v =>
      rw [hx] at hfield
      have hnext := hrest h.tail (recs ++ (skips last x.tag ++ [v])) data
      rw [List.append_assoc, List.append_assoc, List.singleton_append] at hnext
      refine hfield.bind hnext (fun size _ hok => ?_) fun size _ => hfailed size
      have hrecord := Encoder.record_eq (s := ⟨recs, data, size, last⟩) h v
      rw [show size - (((Encoded.value v).bytes.length : Nat) : Int) = size from Int.sub_zero size,
        encodeFields, hok]
      change Option.map _ <$> (Encoder.record ⟨recs, data, size, last⟩ x.tag v >>= _) = _
      rw [hrecord]
      rfl
    | data bytes =>
      rw [hx] at hfield
      have hnext := hrest h.tail (recs ++ (skips last x.tag ++ [0])) (data ++ bytes)
      rw [List.append_assoc, List.append_assoc, List.singleton_append, List.append_assoc] at hnext
      refine hfield.bind hnext (fun size _ hok => ?_) fun size _ => hfailed size
      have hrecord := Encoder.record_eq (s := ⟨recs, data, size, last⟩) h 0
      rw [encodeFields, hok]
      change Option.map _ <$> (Encoder.record ⟨recs, data, size, last⟩ x.tag 0 >>= _) = _
      rw [hrecord]
      rfl

def message (st : SprotoType) (code : Field → Encoded) : List UInt8 :=
  let recs := records code (-1) st.f
  Bytes.le 2 recs.length ++ recs.flatMap (Bytes.le 2) ++ dataOf code st.f

theorem words_length (recs : List Nat) : (recs.flatMap (Bytes.le 2)).length = recs.length * 2 := by
  induction recs with
  | nil => rfl
  | cons w recs ih =>
    rw [List.flatMap_cons, List.length_append, ih, Bytes.le_length, List.length_cons]
    omega

theorem message_length (st : SprotoType) (code : Field → Encoded) :
    (message st code).length =
      2 + (records code (-1) st.f).length * 2 + (dataOf code st.f).length := by
  simp only [message, List.length_append, Bytes.le_length, words_length]

theorem sprotoEncode_codes {st : SprotoType} {cb : Supply}
    (hcode : ∀ x ∈ st.f, code x ≠ .stop ∧
      Codes (encodeField cb x) (code x) (code x).bytes.length) :
    Codes (fun size => sprotoEncode st size cb) (message st code) (message st code).length := by
  have hle := st.records_le code
  have hfields := encodeFields_codes st.follow hcode [] []
  have hlast := Codes.always (message st code)
  refine (Codes.after_header (k := SIZEOF_HEADER + st.maxn * SIZEOF_FIELD)
    (hfields.bind hlast (fun left hleft hok => ?_) fun left hleft hfail => ?_)
    fun size hlt => ?_).mono ?_
  · rw [sprotoEncode, if_neg (by omega), Int.add_sub_cancel]
    cases hencode : encodeFields cb st.f ⟨[], [], left, -1⟩ with
    | error e =>
      rw [hencode] at hok
      cases hok
    | ok r =>
      rw [hencode] at hok
      cases r with
      | none => cases hok
      | some s =>
        obtain ⟨hrecs, hdata⟩ := Prod.mk.inj (Option.some.inj (Except.ok.inj hok))
        rw [List.nil_append] at hrecs hdata
        have hroom : s.records.length ≤ st.maxn := hrecs ▸ hle
        refine (if_pos hroom).trans ?_
        rw [hrecs, hdata]
        rfl
  · rw [sprotoEncode, if_neg (by omega), Int.add_sub_cancel]
    cases hencode : encodeFields cb st.f ⟨[], [], left, -1⟩ with
    | error e =>
      rw [hencode] at hfail
      cases hfail
      rfl
    | ok r =>
      rw [hencode] at hfail
      cases hfail
  · rw [sprotoEncode]
    exact if_pos hlt
  · rw [message_length]
    simp only [SIZEOF_HEADER, SIZEOF_FIELD]
    omega

end XsServer.Sproto
