import XsServer.Websocket.Frame

/-! The size limit of the server.  A length of eight bytes is read as a signed number, and one that
comes out negative is not too large. -/

namespace XsServer.Websocket

open XsServer.Lib

/-- The length that the first frame of a stream announces, and the number of bytes up to there. -/
def announced (s : List UInt8) : Option (Nat × Nat) :=
  let l := s.getD 1 0 &&& 0x7f
  if s.length < 2 then none
  else if l = 126 then
    if s.length < 4 then none else some (Bytes.ofBe ((s.drop 2).take 2), 4)
  else if l = 127 then
    if s.length < 10 then none else some (Bytes.ofBe ((s.drop 2).take 8), 10)
  else some (l.toNat, 2)

/-- What `string.unpack` gives for eight bytes. -/
def signed (n : Nat) : Int := Int.bmod n (2 ^ 64)

/-- The bytes of the key, if the payload is masked. -/
def keySize (mask : Bool) : Nat := if mask then 4 else 0

def maskSize (s : List UInt8) : Nat := keySize (s.getD 1 0 &&& 0x80 ≠ 0)

/-- The server waits or raises an error, or it takes just the bytes of the first frame, whose
payload is within the limit and as long as announced. -/
def Obeys (s : List UInt8) : Prop :=
  match readFrame true s with
  | .ok (f, rest) => ∃ n k, announced s = some (n, k) ∧ f.payload.length = n ∧
      n ≤ MAX_FRAME_SIZE ∧ k + maskSize s + n ≤ s.length ∧ rest = s.drop (k + maskSize s + n)
  | .error e => e = .wait ∨ ∃ message, e = .error message

/-- A length of `2^63` or more comes with no opcode of the server, or without the whole key. -/
def Fair (s : List UInt8) : Prop :=
  ∀ n k, announced s = some (n, k) → 2 ^ 63 ≤ n →
    opCode (s.getD 0 0 &&& 0x0f) = none ∨ s.length < k + maskSize s

variable {s rest : List UInt8} {n k : Nat} {f : Frame}

/-! ### One frame -/

theorem signed_of_lt (h : n < 2 ^ 63) : signed n = n := Int.bmod_eq_of_le (by omega) (by omega)

theorem signed_of_ge (h : 2 ^ 63 ≤ n) (hlt : n < 2 ^ 64) : signed n < 0 := by
  have hmod := Int.bmod_neg n (2 ^ 64) (by omega)
  unfold signed
  omega

theorem announced_bounds (h : announced s = some (n, k)) : n < 2 ^ 64 ∧ 2 ≤ k ∧ k ≤ s.length := by
  unfold announced at h
  simp only at h
  split at h
  · cases h
  · split at h
    · split at h
      · cases h
      · obtain ⟨rfl, rfl⟩ := Prod.mk.inj (Option.some.inj h)
        have hlt := Bytes.ofBe_lt ((s.drop 2).take 2)
        have hlen : ((s.drop 2).take 2).length = 2 := by simp; omega
        rw [hlen] at hlt
        omega
    · split at h
      · split at h
        · cases h
        · obtain ⟨rfl, rfl⟩ := Prod.mk.inj (Option.some.inj h)
          have hlt := Bytes.ofBe_lt ((s.drop 2).take 8)
          have hlen : ((s.drop 2).take 8).length = 8 := by simp; omega
          rw [hlen] at hlt
          omega
      · obtain ⟨rfl, rfl⟩ := Prod.mk.inj (Option.some.inj h)
        have hlt := (s.getD 1 0 &&& 0x7f).toNat_lt
        omega

theorem read_of_le {n : Nat} (h : n ≤ s.length) (hn : n < 2 ^ 31) :
    read n s = .ok (s.take n, s.drop n) := by
  rw [read, if_neg (by omega), if_neg (by omega)]

theorem read_of_lt {n : Nat} (h : s.length < n) (hn : n < 2 ^ 31) :
    read n s = .error .wait := by
  rw [read, if_neg (by omega), if_pos h]

theorem readLength_announced (hlen : 2 ≤ s.length) :
    readLength (s.getD 1 0) (s.drop 2) = match announced s with
      | none => .error .wait
      | some (n, k) => .ok (signed n, s.drop k) := by
  have hdrop : (s.drop 2).length = s.length - 2 := List.length_drop
  have hlt2 : ¬s.length < 2 := by omega
  by_cases hmedium : s.getD 1 0 &&& 0x7f = 126
  · simp only [readLength, announced, if_pos hmedium, if_neg hlt2]
    by_cases hshort : s.length < 4
    · rw [read_of_lt (by omega) (by decide), if_pos hshort, error_bind]
    · have htake : ((s.drop 2).take 2).length = 2 := by rw [List.length_take]; omega
      have hlt := Bytes.ofBe_lt ((s.drop 2).take 2)
      rw [htake] at hlt
      rw [read_of_le (by omega) (by decide), if_neg hshort, ok_bind]
      simp only [List.drop_drop,
        signed_of_lt (show Bytes.ofBe ((s.drop 2).take 2) < 2 ^ 63 by omega)]
      rfl
  · by_cases hlong : s.getD 1 0 &&& 0x7f = 127
    · simp only [readLength, announced, if_neg hmedium, if_pos hlong, if_neg hlt2]
      by_cases hshort : s.length < 10
      · rw [read_of_lt (by omega) (by decide), if_pos hshort, error_bind]
      · rw [read_of_le (by omega) (by decide), if_neg hshort, ok_bind]
        simp only [List.drop_drop]
        rfl
    · have hlt := (s.getD 1 0 &&& 0x7f).toNat_lt
      simp only [readLength, announced, if_neg hmedium, if_neg hlong, if_neg hlt2,
        signed_of_lt (show (s.getD 1 0 &&& 0x7f).toNat < 2 ^ 63 by omega)]
      rfl

theorem getD_take_two {i : Nat} (hi : i < 2) : (s.take 2).getD i 0 = s.getD i 0 := by
  rw [List.getD_eq_getElem?_getD, List.getD_eq_getElem?_getD, List.getElem?_take_of_lt hi]

theorem readFrame_announced (h : announced s = some (n, k)) :
    readFrame true s =
      if signed n > MAX_FRAME_SIZE then .error (.error "payload_len is too large")
      else (readPayload (s.getD 1 0 &&& 0x80 ≠ 0) (signed n) (s.drop k)).bind fun p =>
        match opCode (s.getD 0 0 &&& 0x0f) with
        | none => .error (.error "assertion failed!")
        | some op => .ok (⟨s.getD 0 0 &&& 0x80 ≠ 0, op, p.1⟩, p.2) := by
  obtain ⟨-, hk, hlen⟩ := announced_bounds h
  have hread : readLength (s.getD 1 0) (s.drop 2) = .ok (signed n, s.drop k) := by
    rw [readLength_announced (hk.trans hlen), h]
  rw [readFrame, read_of_le (hk.trans hlen) (by decide), ok_bind]
  dsimp only
  rw [getD_take_two (show 0 < 2 by decide), getD_take_two (show 1 < 2 by decide), hread, ok_bind]
  generalize signed n = len
  by_cases hlarge : len > MAX_FRAME_SIZE
  · rw [if_pos ⟨rfl, hlarge⟩, if_pos hlarge]
    rfl
  · rw [if_neg fun hboth => hlarge hboth.2, if_neg hlarge]
    rfl

theorem readFrame_wait (h : announced s = none) : readFrame true s = .error .wait := by
  by_cases hlen : 2 ≤ s.length
  · have hread := readLength_announced hlen
    rw [h] at hread
    rw [readFrame, read_of_le hlen (by decide), ok_bind]
    simp only [getD_take_two (show 1 < 2 by decide), hread, error_bind]
  · rw [readFrame, read_of_lt (by omega) (by decide), error_bind]

theorem readData_wait {len : Int} (hlen : len ≤ MAX_FRAME_SIZE) (h : s.length < len.toNat) :
    readData len s = .error .wait := by
  unfold MAX_FRAME_SIZE at hlen
  rw [readData, if_pos (by omega), read_of_lt h (by omega)]

theorem readData_ok {len : Int} (hlen : len ≤ MAX_FRAME_SIZE) (h : len.toNat ≤ s.length) :
    readData len s = .ok (s.take len.toNat, s.drop len.toNat) := by
  unfold MAX_FRAME_SIZE at hlen
  by_cases hpos : len > 0
  · rw [readData, if_pos hpos, read_of_le h (by omega)]
  · rw [readData, if_neg hpos, show len.toNat = 0 by omega]
    rfl

theorem readPayload_wait {mask : Bool} {len : Int} (hlen : len ≤ MAX_FRAME_SIZE)
    (h : s.length < keySize mask + len.toNat) : readPayload mask len s = .error .wait := by
  cases mask with
  | false => exact readData_wait hlen (by simpa [keySize] using h)
  | true =>
    simp only [keySize, if_true] at h
    rw [readPayload, if_pos rfl]
    by_cases hkey : s.length < 4
    · rw [read_of_lt hkey (by decide), error_bind]
    · have hdata : readData len (s.drop 4) = .error .wait :=
        readData_wait hlen (by rw [List.length_drop]; omega)
      rw [read_of_le (by omega) (by decide), ok_bind]
      simp only [hdata, error_bind]

theorem readPayload_ok {mask : Bool} {len : Int} (hlen : len ≤ MAX_FRAME_SIZE)
    (h : keySize mask + len.toNat ≤ s.length) :
    ∃ payload, payload.length = len.toNat ∧
      readPayload mask len s = .ok (payload, s.drop (keySize mask + len.toNat)) := by
  have hmax := hlen
  unfold MAX_FRAME_SIZE at hmax
  cases mask with
  | false =>
    simp only [keySize, Bool.false_eq_true, if_false, Nat.zero_add] at h ⊢
    refine ⟨_, ?_, readData_ok hlen h⟩
    rw [List.length_take]
    omega
  | true =>
    simp only [keySize, if_true] at h ⊢
    have hdata : readData len (s.drop 4) = _ :=
      readData_ok hlen (by rw [List.length_drop]; omega)
    have hlength : ((s.drop 4).take len.toNat).length = len.toNat := by
      rw [List.length_take, List.length_drop]
      omega
    refine ⟨masked (s.take 4) ((s.drop 4).take len.toNat), ?_, ?_⟩
    · rw [masked_length, hlength]
    · rw [readPayload, if_pos rfl, read_of_le (by omega) (by decide), ok_bind]
      simp only [hdata, ok_bind, xorStr]
      rw [if_neg (by rw [List.length_take]; omega), if_neg (by omega), List.drop_drop]
      rfl

theorem readFrame_short (h : announced s = some (n, k)) (hlen : signed n ≤ MAX_FRAME_SIZE)
    (hshort : s.length < k + maskSize s + (signed n).toNat) :
    readFrame true s = .error .wait := by
  have hk := (announced_bounds h).2.2
  have hpayload : readPayload (s.getD 1 0 &&& 0x80 ≠ 0) (signed n) (s.drop k) = .error .wait := by
    refine readPayload_wait hlen ?_
    rw [List.length_drop]
    unfold maskSize at hshort
    omega
  rw [readFrame_announced h, if_neg (Int.not_lt.mpr hlen), hpayload]
  rfl

theorem readFrame_whole (h : announced s = some (n, k)) (hlen : signed n ≤ MAX_FRAME_SIZE)
    (hwhole : k + maskSize s + (signed n).toNat ≤ s.length) :
    (opCode (s.getD 0 0 &&& 0x0f) = none ∧
        readFrame true s = .error (.error "assertion failed!")) ∨
      opCode (s.getD 0 0 &&& 0x0f) ≠ none ∧ ∃ f : Frame, f.payload.length = (signed n).toNat ∧
        readFrame true s = .ok (f, s.drop (k + maskSize s + (signed n).toNat)) := by
  have hk := (announced_bounds h).2.2
  obtain ⟨payload, hlength, hread⟩ :=
    @readPayload_ok (s.drop k) (s.getD 1 0 &&& 0x80 ≠ 0) (signed n) hlen (by
      rw [List.length_drop]
      unfold maskSize at hwhole
      omega)
  rw [List.drop_drop, ← Nat.add_assoc] at hread
  rw [readFrame_announced h, if_neg (Int.not_lt.mpr hlen), hread]
  generalize (signed n).toNat = m at hlength
  cases opCode (s.getD 0 0 &&& 0x0f) with
  | none => exact .inl ⟨rfl, rfl⟩
  | some op => exact .inr ⟨Option.some_ne_none op, _, hlength, rfl⟩

theorem obeys_of_error {message : String} (h : readFrame true s = .error (.error message)) :
    Obeys s := by
  rw [Obeys, h]
  exact .inr ⟨message, rfl⟩

theorem obeys_of_wait (h : readFrame true s = .error .wait) : Obeys s := by
  rw [Obeys, h]
  exact .inl rfl

theorem obeys_of_lt (h : announced s = some (n, k)) (hlt : n < 2 ^ 63) : Obeys s := by
  have hsame := signed_of_lt hlt
  by_cases hlarge : n ≤ MAX_FRAME_SIZE
  · have hlen : signed n ≤ MAX_FRAME_SIZE := hsame.le.trans (Int.ofNat_le.mpr hlarge)
    by_cases hshort : s.length < k + maskSize s + n
    · refine obeys_of_wait (readFrame_short h hlen ?_)
      rwa [hsame, Int.toNat_natCast]
    · have hwhole := readFrame_whole h hlen (by rw [hsame, Int.toNat_natCast]; omega)
      rw [hsame, Int.toNat_natCast] at hwhole
      obtain ⟨-, hread⟩ | ⟨-, f, hlength, hread⟩ := hwhole
      · exact obeys_of_error hread
      · rw [Obeys, hread]
        exact ⟨n, k, h, hlength, hlarge, by omega, rfl⟩
  · have hframe := readFrame_announced h
    rw [hsame, if_pos (Int.ofNat_lt.mpr (by omega))] at hframe
    exact obeys_of_error hframe

theorem obeys_iff_of_ge (h : announced s = some (n, k)) (hge : 2 ^ 63 ≤ n) :
    Obeys s ↔ opCode (s.getD 0 0 &&& 0x0f) = none ∨ s.length < k + maskSize s := by
  have hneg := signed_of_ge hge (announced_bounds h).1
  have hlen : signed n ≤ MAX_FRAME_SIZE := hneg.le.trans (Int.natCast_nonneg _)
  have hzero : (signed n).toNat = 0 := Int.toNat_of_nonpos hneg.le
  by_cases hshort : s.length < k + maskSize s
  · exact ⟨fun _ => .inr hshort, fun _ => obeys_of_wait (readFrame_short h hlen (by rwa [hzero]))⟩
  · obtain ⟨hop, hread⟩ | ⟨hop, f, hlength, hread⟩ :=
      readFrame_whole h hlen (by rw [hzero]; omega)
    · exact ⟨fun _ => .inl hop, fun _ => obeys_of_error hread⟩
    · refine ⟨fun hobeys => ?_, fun hor => absurd hor (not_or.mpr ⟨hop, hshort⟩)⟩
      rw [Obeys, hread] at hobeys
      obtain ⟨n', k', h', hlength', -⟩ := hobeys
      obtain ⟨rfl, rfl⟩ := Prod.mk.inj (Option.some.inj (h.symm.trans h'))
      omega

theorem obeys_iff (s : List UInt8) : Obeys s ↔ Fair s := by
  unfold Fair
  cases h : announced s with
  | none => exact ⟨fun _ n k hsome => (nomatch hsome), fun _ => obeys_of_wait (readFrame_wait h)⟩
  | some p =>
    obtain ⟨n, k⟩ := p
    by_cases hge : 2 ^ 63 ≤ n
    · rw [obeys_iff_of_ge h hge]
      constructor
      · rintro hor n' k' hsome -
        obtain ⟨rfl, rfl⟩ := Prod.mk.inj (Option.some.inj hsome)
        exact hor
      · exact fun hall => hall n k rfl hge
    · refine ⟨fun _ n' k' hsome hge' => ?_, fun _ => obeys_of_lt h (by omega)⟩
      obtain ⟨rfl, rfl⟩ := Prod.mk.inj (Option.some.inj hsome)
      exact absurd hge' hge

theorem payload_le (h : readFrame true s = .ok (f, rest)) : f.payload.length ≤ MAX_FRAME_SIZE := by
  cases ha : announced s with
  | none =>
    rw [readFrame_wait ha] at h
    cases h
  | some p =>
    obtain ⟨n, k⟩ := p
    by_cases hlarge : signed n ≤ MAX_FRAME_SIZE
    · by_cases hshort : s.length < k + maskSize s + (signed n).toNat
      · rw [readFrame_short ha hlarge hshort] at h
        cases h
      · obtain ⟨-, hread⟩ | ⟨-, f', hlength, hread⟩ := readFrame_whole ha hlarge (by omega)
        · rw [hread] at h
          cases h
        · obtain ⟨rfl, -⟩ := Prod.mk.inj (Except.ok.inj (hread.symm.trans h))
          rw [hlength]
          exact Int.toNat_le.mpr hlarge
    · rw [readFrame_announced ha, if_pos (Int.not_le.mp hlarge)] at h
      cases h

/-! ### The loop -/

/-- A frame that is read and does not end the loop. -/
inductive Round : Recv × List UInt8 → Recv × List UInt8 → Prop
  | mk {st st' : Recv} {s rest : List UInt8} {f : Frame} {es : List Event}
    (hread : readFrame true s = .ok (f, rest)) (hreact : react st f = .ok (st', es, false)) :
    Round (st, s) (st', rest)

/-- The fragments of a message are counted, and within the limit. -/
structure Recv.Within (st : Recv) : Prop where
  count : st.count = st.buf.flatten.length
  le : st.count ≤ MAX_FRAME_SIZE

def Event.Within : Event → Prop
  | .message payload _ => payload.length ≤ MAX_FRAME_SIZE
  | _ => True

theorem react_within {st st' : Recv} {es : List Event} {last : Bool} (hst : st.Within)
    (hf : f.payload.length ≤ MAX_FRAME_SIZE) (h : react st f = .ok (st', es, last)) :
    st'.Within ∧ ∀ e ∈ es, e.Within := by
  unfold react at h
  split at h
  · obtain ⟨bytes, -, h⟩ := bind_ok h
    cases h
    exact ⟨hst, by simp [Event.Within]⟩
  · obtain ⟨bytes, -, h⟩ := bind_ok h
    cases h
    exact ⟨hst, by simp [Event.Within]⟩
  · cases h
    exact ⟨hst, by simp [Event.Within]⟩
  · have hflat : (st.buf ++ [f.payload]).flatten.length = st.count + f.payload.length := by
      rw [List.flatten_append, List.flatten_singleton, List.length_append, hst.count]
    split at h
    · cases h
      exact ⟨hst, List.forall_mem_singleton.mpr hf⟩
    · simp only at h
      split at h
      · cases h
      · rename_i hle
        split at h
        · cases h
          refine ⟨⟨rfl, Nat.zero_le _⟩, List.forall_mem_singleton.mpr ?_⟩
          change (st.buf ++ [f.payload]).flatten.length ≤ MAX_FRAME_SIZE
          omega
        · cases h
          refine ⟨⟨hflat.symm, ?_⟩, List.forall_mem_nil _⟩
          change st.count + f.payload.length ≤ MAX_FRAME_SIZE
          omega

theorem rounds_within {st st' : Recv} (h : Relation.ReflTransGen Round (st, s) (st', rest))
    (hst : st.Within) : st'.Within := by
  generalize hp : (st, s) = p at h
  generalize hq : (st', rest) = q at h
  induction h generalizing st' rest with
  | refl =>
    cases hp
    cases hq
    exact hst
  | tail _ hround ih =>
    cases hround with
    | mk hread hreact =>
      cases hq
      exact (react_within (ih rfl) (payload_le hread) hreact).1

theorem resolveAccept_within (closed : List Event → Bool) (rounds : Nat) {st : Recv}
    (hst : st.Within) {done : List Event} (hdone : ∀ e ∈ done, e.Within) (s : List UInt8) :
    ∀ e ∈ (resolveAccept closed rounds st done s).1, e.Within := by
  induction rounds generalizing st done s with
  | zero => exact hdone
  | succ rounds ih =>
    rw [resolveAccept]
    split
    · exact List.forall_mem_append.mpr ⟨hdone, List.forall_mem_singleton.mpr trivial⟩
    · split
      · exact hdone
      · rename_i f rest hread
        split
        · exact hdone
        · rename_i st' es last hreact
          obtain ⟨hst', hes⟩ := react_within hst (payload_le hread) hreact
          have hall := List.forall_mem_append.mpr ⟨hdone, hes⟩
          split
          · exact hall
          · exact ih hst' hall rest

/-- The server keeps to the limit at a frame if and only if its length has no sign or nothing comes
of it; and it never gathers more than the limit for one message, nor hands more to the handler. -/
theorem limit_kept_iff (s : List UInt8) :
    (Obeys s ↔ Fair s) ∧
      (∀ st rest, Relation.ReflTransGen Round (⟨[], 0⟩, s) (st, rest) →
        st.buf.flatten.length ≤ MAX_FRAME_SIZE) ∧
      ∀ closed rounds, ∀ e ∈ (resolveAccept closed rounds ⟨[], 0⟩ [] s).1, e.Within := by
  have hempty : Recv.Within ⟨[], 0⟩ := ⟨rfl, Nat.zero_le _⟩
  refine ⟨obeys_iff s, fun st rest hrounds => ?_, fun closed rounds => ?_⟩
  · have hwithin := rounds_within hrounds hempty
    exact hwithin.count ▸ hwithin.le
  · exact resolveAccept_within closed rounds hempty (List.forall_mem_nil _) s

/-- A binary frame that announces `2^63` bytes is taken for an empty one. -/
theorem limit_passed : ¬∀ s : List UInt8, Obeys s := by
  intro hall
  have hann : announced [0x82, 127, 0x80, 0, 0, 0, 0, 0, 0, 0, 1] = some (2 ^ 63, 10) := by decide
  have hor := (obeys_iff_of_ge hann (le_refl _)).mp (hall _)
  exact absurd hor (by decide)

end XsServer.Websocket
