import XsServer.Crypt.DesText

/-! `hexencode`, `hexdecode`, `base64encode` and `base64decode` of `lua-crypt.c`. -/

namespace XsServer.Crypt.Text

open XsServer.Lib (bind_ok ok_bind)
open XsServer.Crypt.DesText

/-- `"0123456789abcdef"` -/
def hexDigits : List UInt8 :=
  [48, 49, 50, 51, 52, 53, 54, 55, 56, 57, 97, 98, 99, 100, 101, 102]

def hex (n : UInt8) : UInt8 := hexDigits.getD n.toNat 0

/-- The loop of `ltohex` from `i` on. -/
def tohexLoop : List UInt8 → Nat → Except Fault (List UInt8)
  | [], _ => .ok []
  | c :: text, i =>
    -- the index `i*2+1` is an `int`
    if INT_MAX < i * 2 + 1 then .error .undefined
    else do
      let buffer ← tohexLoop text (i + 1)
      return hex (c >>> 4) :: hex (c &&& 0xf) :: buffer

def ltohex (text : List UInt8) : Except Fault (List UInt8) := tohexLoop text 0

/-- The macro `HEX`. -/
def HEX (c : UInt8) : UInt8 := if 48 ≤ c ∧ c ≤ 57 then c - 48 else c - 97 + 10

/-- The loop of `lfromhex` from `i` on. -/
def fromhexLoop : List UInt8 → Nat → Except Fault (List UInt8)
  | c :: d :: text, i =>
    let hi := HEX c
    let low := HEX d
    if hi > 16 ∨ low > 16 then .error (.error "Invalid hex text")
    else if INT_MAX < i + 2 then .error .undefined
    else do
      let buffer ← fromhexLoop text (i + 2)
      return (hi <<< 4 ||| low) :: buffer
  | _, _ => .ok []

def lfromhex (text : List UInt8) : Except Fault (List UInt8) :=
  if text.length % 2 = 1 then
    .error (.error s!"Invalid hex text size {toInt text.length}")
  else fromhexLoop text 0

/-! ### Base64 -/

/-- `"ABCDEFGHIJKLMNOPQRSTUVWXYZabcdefghijklmnopqrstuvwxyz0123456789+/"` -/
def encoding : List UInt8 :=
  [65, 66, 67, 68, 69, 70, 71, 72, 73, 74, 75, 76, 77, 78, 79, 80, 81, 82, 83, 84, 85, 86, 87, 88,
    89, 90, 97, 98, 99, 100, 101, 102, 103, 104, 105, 106, 107, 108, 109, 110, 111, 112, 113, 114,
    115, 116, 117, 118, 119, 120, 121, 122, 48, 49, 50, 51, 52, 53, 54, 55, 56, 57, 43, 47]

def encode64 (n : Nat) : UInt8 := encoding.getD n 0

def SMALL_CHUNK : Nat := 256

def three (a b c : UInt8) : List UInt8 :=
  let v := a.toNat <<< 16 ||| b.toNat <<< 8 ||| c.toNat
  [encode64 (v >>> 18), encode64 ((v >>> 12) &&& 0x3f), encode64 ((v >>> 6) &&& 0x3f),
    encode64 (v &&& 0x3f)]

/-- `case 1` -/
def one (a : UInt8) : List UInt8 :=
  let v := a.toNat
  [encode64 (v >>> 2), encode64 ((v &&& 3) <<< 4), 61, 61]

/-- `case 2` -/
def two (a b : UInt8) : List UInt8 :=
  let v := a.toNat <<< 8 ||| b.toNat
  [encode64 (v >>> 10), encode64 ((v >>> 4) &&& 0x3f), encode64 ((v &&& 0xf) <<< 2), 61]

/-- The loop of `lb64encode` over the text from `i` on, with a buffer of `size` bytes. -/
def encodeLoop (size : Nat) (bound : Int) : List UInt8 → Nat → List UInt8 →
    Except Fault (Nat × List UInt8)
  | a :: b :: c :: text, i, buffer =>
    if (i : Int) < bound then
      if size < buffer.length + 4 then .error .undefined
      else encodeLoop size bound text (i + 3) (buffer ++ three a b c)
    else .ok (i, buffer)
  | _, i, buffer => .ok (i, buffer)

/-- `switch(padding)` -/
def encodeTail (padding : Int) (text : List UInt8) : List UInt8 :=
  match text with
  | a :: b :: _ => if padding = 1 then one a else if padding = 2 then two a b else []
  | [a] => if padding = 1 then one a else []
  | [] => []

/-- The bytes of `tmp`, or of the userdata. -/
def bufferSize (sz : Int) : Nat := max SMALL_CHUNK sz.toNat

def lb64encode (text : List UInt8) : Except Fault (List UInt8) := do
  let encodeSz := toInt ((text.length + 2) / 3 * 4 : Nat)
  let bound := toInt text.length - 2
  if bound < INT_MIN then throw .undefined
  let (i, buffer) ← encodeLoop (bufferSize encodeSz) bound text 0 []
  let tail := encodeTail (toInt (text.length - i : Nat)) (text.drop i)
  if bufferSize encodeSz < buffer.length + tail.length then throw .undefined
  let buffer := buffer ++ tail
  -- the bytes of the buffer from here on were never written
  if encodeSz < 0 ∨ buffer.length < encodeSz then throw .undefined
  return buffer.take encodeSz.toNat

def decoding : List Int :=
  [62, -1, -1, -1, 63, 52, 53, 54, 55, 56, 57, 58, 59, 60, 61, -1, -1, -1, -2, -1, -1, -1, 0, 1, 2,
    3, 4, 5, 6, 7, 8, 9, 10, 11, 12, 13, 14, 15, 16, 17, 18, 19, 20, 21, 22, 23, 24, 25, -1, -1, -1,
    -1, -1, -1, 26, 27, 28, 29, 30, 31, 32, 33, 34, 35, 36, 37, 38, 39, 40, 41, 42, 43, 44, 45, 46,
    47, 48, 49, 50, 51]

def b64index (c : UInt8) : Int :=
  if c < 43 then -1
  else if decoding.length ≤ (c - 43).toNat then -1
  else decoding.getD (c - 43).toNat (-1)

/-- The inner loop of `lb64decode`, for the text from `i` on and the `c[0]`, `c[1]`, … found. -/
def readFour : List UInt8 → Nat → List Int → Except Fault (List Int × List UInt8 × Nat)
  | [], i, c => if c.length < 4 then .error (.error "Invalid base64 text") else .ok (c, [], i)
  | ch :: text, i, c =>
    if c.length < 4 then
      if INT_MAX < i + 1 then .error .undefined
      else if b64index ch = -1 then readFour text (i + 1) c
      else readFour text (i + 1) (c ++ [b64index ch])
    else .ok (c, ch :: text, i)

/-- `switch (padding)`: the bytes of four characters. -/
def quantum : List Int → Except Fault (List UInt8)
  | [c0, c1, c2, c3] =>
    let padding := [c0, c1, c2, c3].count (-2)
    if padding = 0 then
      let v := c0.toNat <<< 18 ||| c1.toNat <<< 12 ||| c2.toNat <<< 6 ||| c3.toNat
      .ok [.ofNat (v >>> 16), .ofNat ((v >>> 8) &&& 0xff), .ofNat (v &&& 0xff)]
    else if padding = 1 then
      if c3 ≠ -2 ∨ c2.toNat &&& 3 ≠ 0 then .error (.error "Invalid base64 text")
      else
        let v := c0.toNat <<< 10 ||| c1.toNat <<< 4 ||| c2.toNat >>> 2
        .ok [.ofNat (v >>> 8), .ofNat (v &&& 0xff)]
    else if padding = 2 then
      if c3 ≠ -2 ∨ c2 ≠ -2 ∨ c1.toNat &&& 0xf ≠ 0 then .error (.error "Invalid base64 text")
      else
        let v := c0.toNat <<< 2 ||| c1.toNat >>> 4
        .ok [.ofNat v]
    else .error (.error "Invalid base64 text")
  | _ => .error .undefined

theorem readFour_four {text : List UInt8} {i : Nat} {c : List Int} (hc : c.length = 4) :
    readFour text i c = .ok (c, text, i) := by
  cases text with
  | nil | cons ch text => rw [readFour, if_neg (by omega)]

theorem readFour_length {text text' : List UInt8} {i i' : Nat} {c c' : List Int}
    (hc : c.length < 4) (h : readFour text i c = .ok (c', text', i')) :
    text'.length < text.length := by
  induction text generalizing i c with
  | nil => rw [readFour, if_pos hc] at h; cases h
  | cons ch text ih =>
    rw [readFour, if_pos hc] at h
    rw [List.length_cons]
    split at h
    · cases h
    · split at h
      · exact Nat.lt_succ_of_lt (ih hc h)
      · by_cases hlast : c.length = 3
        · rw [readFour_four (by simp [hlast])] at h
          cases h
          exact Nat.lt_succ_self _
        · exact Nat.lt_succ_of_lt (ih (by rw [List.length_append, List.length_singleton]; omega) h)

/-- The outer loop of `lb64decode`, with a buffer of `size` bytes. -/
def decodeLoop (size : Nat) (text : List UInt8) (i : Nat) (buffer : List UInt8) :
    Except Fault (List UInt8) :=
  if text = [] then .ok buffer
  else match _h : readFour text i [] with
    | .error e => .error e
    | .ok (c, text, i) =>
      match quantum c with
      | .error e => .error e
      | .ok bytes =>
        if size < buffer.length + bytes.length then .error .undefined
        else decodeLoop size text i (buffer ++ bytes)
termination_by text.length
decreasing_by exact readFour_length (by decide) _h

def lb64decode (text : List UInt8) : Except Fault (List UInt8) :=
  decodeLoop (bufferSize (toInt ((text.length + 3) / 4 * 3 : Nat))) text 0 []

/-! ### Hexadecimal texts -/

theorem forall_byte {P : UInt8 → Prop} (h : ∀ n : Fin 256, P (UInt8.ofNat n)) (c : UInt8) :
    P c := by
  have hc := h ⟨c.toNat, c.toNat_lt⟩
  rwa [UInt8.ofNat_toNat] at hc

/-- The characters in 0-9 and a-f. -/
def IsHex (c : UInt8) : Prop := 48 ≤ c ∧ c ≤ 57 ∨ 97 ≤ c ∧ c ≤ 102

/-- The characters for which `HEX` gives at most 16: also those from W to the backquote, which it
takes for 0 to 9, and g, which it takes for 16. -/
def Accepted (c : UInt8) : Prop := 48 ≤ c ∧ c ≤ 57 ∨ 87 ≤ c ∧ c ≤ 103

instance (c : UInt8) : Decidable (IsHex c) := inferInstanceAs (Decidable (_ ∨ _))

instance (c : UInt8) : Decidable (Accepted c) := inferInstanceAs (Decidable (_ ∨ _))

theorem HEX_gt_iff (c : UInt8) : HEX c > 16 ↔ ¬ Accepted c :=
  forall_byte (P := fun c => HEX c > 16 ↔ ¬ Accepted c) (by decide +kernel) c

theorem hex_byte (c : UInt8) : ¬ HEX (hex (c >>> 4)) > 16 ∧ ¬ HEX (hex (c &&& 0xf)) > 16 ∧
    HEX (hex (c >>> 4)) <<< 4 ||| HEX (hex (c &&& 0xf)) = c :=
  forall_byte (P := fun c => ¬ HEX (hex (c >>> 4)) > 16 ∧ ¬ HEX (hex (c &&& 0xf)) > 16 ∧
    HEX (hex (c >>> 4)) <<< 4 ||| HEX (hex (c &&& 0xf)) = c) (by decide +kernel) c

def pairs (text : List UInt8) : List UInt8 :=
  text.flatMap fun (c : UInt8) => [hex (c >>> 4), hex (c &&& 0xf)]

theorem pairs_length (text : List UInt8) : (pairs text).length = 2 * text.length := by
  induction text with
  | nil => rfl
  | cons c text ih =>
    rw [pairs, List.flatMap_cons, List.length_append, ← pairs, ih, List.length_cons]
    simp only [List.length_cons, List.length_nil]
    omega

theorem tohexLoop_eq {text : List UInt8} {i : Nat} (h : (i + text.length) * 2 ≤ INT_MAX + 1) :
    tohexLoop text i = .ok (pairs text) := by
  induction text generalizing i with
  | nil => rfl
  | cons c text ih =>
    rw [List.length_cons] at h
    rw [tohexLoop, if_neg (by omega), ih (by omega)]
    rfl

theorem ltohex_eq {text : List UInt8} (h : text.length * 2 ≤ INT_MAX + 1) :
    ltohex text = .ok (pairs text) := tohexLoop_eq (by omega)

theorem fromhexLoop_pairs {text : List UInt8} {i : Nat} (h : i + 2 * text.length ≤ INT_MAX) :
    fromhexLoop (pairs text) i = .ok text := by
  induction text generalizing i with
  | nil => rfl
  | cons c text ih =>
    obtain ⟨hhi, hlow, hbyte⟩ := hex_byte c
    rw [List.length_cons] at h
    rw [pairs, List.flatMap_cons, ← pairs, List.cons_append, List.cons_append, List.nil_append,
      fromhexLoop]
    simp only [hhi, hlow, or_self, if_false]
    rw [if_neg (by omega), ih (by omega), hbyte]
    rfl

theorem lfromhex_pairs {text : List UInt8} (h : 2 * text.length ≤ INT_MAX) :
    lfromhex (pairs text) = .ok text := by
  rw [lfromhex, pairs_length, if_neg (by omega)]
  exact fromhexLoop_pairs (by omega)

theorem fromhexLoop_ok_iff {text : List UInt8} {i : Nat} (heven : text.length % 2 = 0)
    (hi : i ≤ INT_MAX) : (∃ buffer, fromhexLoop text i = .ok buffer) ↔
      i + text.length ≤ INT_MAX ∧ ∀ c ∈ text, Accepted c := by
  fun_induction fromhexLoop text i with
  | case1 c d text i hi' low hbad =>
    refine iff_of_false (fun ⟨_, h⟩ => by cases h) ?_
    rintro ⟨-, hall⟩
    rw [List.forall_mem_cons, List.forall_mem_cons] at hall
    obtain hbad | hbad := hbad
    · exact (HEX_gt_iff c).mp hbad hall.1
    · exact (HEX_gt_iff d).mp hbad hall.2.1
  | case2 c d text i hi' low hgood hover =>
    refine iff_of_false (fun ⟨_, h⟩ => by cases h) ?_
    rintro ⟨hlen, -⟩
    simp only [List.length_cons] at hlen
    omega
  | case3 c d text i hi' low hgood hover ih =>
    have hc : Accepted c := by
      by_contra hc
      exact hgood (.inl ((HEX_gt_iff c).mpr hc))
    have hd : Accepted d := by
      by_contra hd
      exact hgood (.inr ((HEX_gt_iff d).mpr hd))
    have hmap : (∃ buffer, (do
        let buffer ← fromhexLoop text (i + 2)
        return (hi' <<< 4 ||| low) :: buffer) = (.ok buffer : Except Fault (List UInt8))) ↔
        ∃ buffer, fromhexLoop text (i + 2) = .ok buffer := by
      constructor
      · rintro ⟨_, h⟩
        obtain ⟨buffer, hbuffer, -⟩ := bind_ok h
        exact ⟨buffer, hbuffer⟩
      · rintro ⟨buffer, hbuffer⟩
        exact ⟨_, by rw [hbuffer]; rfl⟩
    simp only [List.length_cons] at heven
    rw [hmap, ih (by omega) (by omega), List.forall_mem_cons, List.forall_mem_cons,
      List.length_cons, List.length_cons]
    refine and_congr ?_ ⟨fun h => ⟨hc, hd, h⟩, fun h => h.2.2⟩
    omega
  | case4 text i hshort =>
    have hnil : text = [] := by
      cases text with
      | nil => rfl
      | cons c text =>
        cases text with
        | nil => cases heven
        | cons d text => exact absurd rfl (hshort c d text)
    subst hnil
    exact iff_of_true ⟨_, rfl⟩ ⟨by simpa using hi, by simp⟩

theorem lfromhex_ok_iff (text : List UInt8) : (∃ buffer, lfromhex text = .ok buffer) ↔
    text.length % 2 = 0 ∧ text.length ≤ INT_MAX ∧ ∀ c ∈ text, Accepted c := by
  rw [lfromhex]
  split
  · rename_i hodd
    exact iff_of_false (fun ⟨_, h⟩ => by cases h) fun h => by omega
  · rename_i hodd
    have heven : text.length % 2 = 0 := by omega
    rw [fromhexLoop_ok_iff heven (by decide), and_iff_right heven]
    simp

/-- Decoding gives the text back, and the encoding is twice as long. -/
def HexRecovers (text : List UInt8) : Prop :=
  ∃ buffer, ltohex text = .ok buffer ∧ buffer.length = 2 * text.length ∧
    lfromhex buffer = .ok text

theorem hexRecovers_iff (text : List UInt8) :
    HexRecovers text ↔ 2 * text.length ≤ INT_MAX := by
  constructor
  · rintro ⟨buffer, -, hlen, hback⟩
    have hmax := ((lfromhex_ok_iff buffer).mp ⟨text, hback⟩).2.1
    rw [hlen] at hmax
    exact_mod_cast hmax
  · intro h
    exact ⟨pairs text, ltohex_eq (by omega), pairs_length text, lfromhex_pairs h⟩

/-- `hexdecode` succeeds on pairs of hexadecimal digits only. -/
def HexOnly (text : List UInt8) : Prop :=
  ∀ buffer, lfromhex text = .ok buffer → text.length % 2 = 0 ∧ ∀ c ∈ text, IsHex c

theorem hexOnly_iff (text : List UInt8) : HexOnly text ↔
    text.length % 2 = 1 ∨ INT_MAX < text.length ∨ (∃ c ∈ text, ¬ Accepted c) ∨
      ∀ c ∈ text, IsHex c := by
  constructor
  · intro h
    by_contra! hnot
    obtain ⟨heven, hmax, hall, c, hc, hbad⟩ := hnot
    obtain ⟨buffer, hbuffer⟩ := (lfromhex_ok_iff text).mpr ⟨by omega, hmax, hall⟩
    exact hbad ((h buffer hbuffer).2 c hc)
  · intro h buffer hbuffer
    obtain ⟨heven, hmax, hall⟩ := (lfromhex_ok_iff text).mp ⟨buffer, hbuffer⟩
    obtain h | h | ⟨c, hc, hbad⟩ | h := h
    · omega
    · omega
    · exact absurd (hall c hc) hbad
    · exact ⟨heven, h⟩

/-- What `lb64encode` writes. -/
def encode : List UInt8 → List UInt8
  | a :: b :: c :: text => three a b c ++ encode text
  | [a, b] => two a b
  | [a] => one a
  | [] => []

@[simp] theorem three_length (a b c : UInt8) : (three a b c).length = 4 := by
  rw [three]
  rfl

@[simp] theorem two_length (a b : UInt8) : (two a b).length = 4 := by
  rw [two]
  rfl

@[simp] theorem one_length (a : UInt8) : (one a).length = 4 := by
  rw [one]
  rfl

theorem encode_length (text : List UInt8) :
    (encode text).length = (text.length + 2) / 3 * 4 := by
  fun_induction encode text with
  | case1 a b c text ih =>
    rw [List.length_append, three_length, ih]
    simp only [List.length_cons]
    omega
  | case2 a b | case3 a | case4 => simp

theorem encodeLoop_eq {size : Nat} {bound : Int} (text : List UInt8) {i : Nat}
    (buffer : List UInt8) (hbound : bound = (i + text.length : Int) - 2)
    (hsize : buffer.length + (encode text).length ≤ size) :
    ∃ front, encodeLoop size bound text i buffer = .ok (i + text.length / 3 * 3, front) ∧
      front ++ encodeTail (text.length % 3 : Nat) (text.drop (text.length / 3 * 3)) =
        buffer ++ encode text := by
  fun_induction encode text generalizing i buffer with
  | case1 a b c text ih =>
    simp only [List.length_append, List.length_cons, three_length] at hbound hsize ⊢
    obtain ⟨front, hloop, hfront⟩ := @ih (i + 3) (buffer ++ three a b c) (by omega)
      (by rw [List.length_append, three_length]; omega)
    have hthree : (text.length + 1 + 1 + 1) / 3 * 3 = text.length / 3 * 3 + 3 := by omega
    have hmod : (text.length + 1 + 1 + 1) % 3 = text.length % 3 := by omega
    refine ⟨front, ?_, ?_⟩
    · rw [encodeLoop, if_pos (by omega), if_neg (by omega), hloop, hthree]
      congr 2
      omega
    · rw [hthree, hmod, List.drop_succ_cons, List.drop_succ_cons, List.drop_succ_cons, hfront,
        List.append_assoc]
  | case2 a b | case3 a | case4 => exact ⟨buffer, by simp [encodeLoop], by simp [encodeTail]⟩

theorem lb64encode_eq {text : List UInt8} (h : ((text.length + 2) / 3 * 4 : Nat) ≤ INT_MAX) :
    lb64encode text = .ok (encode text) := by
  have hlen := encode_length text
  have hsz := toInt_of_le h
  have hint : (text.length : Int) ≤ INT_MAX := by omega
  have hbound : ¬ ((text.length : Int) - 2 < INT_MIN) := by
    rw [INT_MIN]
    omega
  have hroom : (encode text).length ≤ bufferSize ((text.length + 2) / 3 * 4 : Nat) := by
    rw [hlen, bufferSize, Int.toNat_natCast]
    exact Nat.le_max_right _ _
  obtain ⟨front, hloop, hfront⟩ := @encodeLoop_eq
    (bufferSize ((text.length + 2) / 3 * 4 : Nat)) (text.length - 2) text 0 [] (by simp)
    (by simpa using hroom)
  have hrest : text.length - text.length / 3 * 3 = text.length % 3 := by omega
  have hmod : toInt (text.length % 3 : Nat) = (text.length % 3 : Nat) :=
    toInt_of_le (by rw [INT_MAX]; omega)
  rw [List.nil_append] at hfront
  have hsum := congrArg List.length hfront
  rw [List.length_append] at hsum
  rw [lb64encode, hsz, toInt_of_le hint]
  simp only [if_neg hbound, hloop, ok_bind, Nat.zero_add, hrest, hmod, hfront, hsum,
    if_neg (Nat.not_lt.mpr hroom)]
  rw [if_neg (by omega), Int.toNat_natCast, List.take_of_length_le hlen.le]
  rfl

/-! ### Four characters -/

theorem or_low {m b : Nat} (k : Nat) (hm : m % 2 ^ k = 0) (hb : b < 2 ^ k) : m ||| b = m + b := by
  have hshift := Nat.shiftLeft_add_eq_or_of_lt hb (m / 2 ^ k)
  rw [Nat.shiftLeft_eq, Nat.div_mul_cancel (Nat.dvd_of_mod_eq_zero hm)] at hshift
  exact hshift.symm

theorem encode64_index {n : Nat} (hn : n < 64) : b64index (encode64 n) = n := by
  have htable : ∀ n : Fin 64, b64index (encode64 n) = (n : Nat) := by decide +kernel
  exact htable ⟨n, hn⟩

theorem index_encode64 {c : UInt8} (hc : c ∈ encoding) :
    ∃ n < 64, b64index c = (n : Nat) ∧ encode64 n = c := by
  have htable : ∀ c ∈ encoding, (b64index c).toNat < 64 ∧
      b64index c = ((b64index c).toNat : Int) ∧ encode64 (b64index c).toNat = c := by
    decide +kernel
  exact ⟨_, htable c hc⟩

theorem pad_index : b64index 61 = -2 := by decide

theorem count_digits {n : Nat} (l : List Int) : ((n : Int) :: l).count (-2) = l.count (-2) := by
  rw [List.count_cons_of_ne]
  omega

theorem mask_two (n : Nat) : n &&& 3 = n % 4 := Nat.and_two_pow_sub_one_eq_mod n 2

theorem mask_four (n : Nat) : n &&& 0xf = n % 16 := Nat.and_two_pow_sub_one_eq_mod n 4

theorem mask_six (n : Nat) : n &&& 0x3f = n % 64 := Nat.and_two_pow_sub_one_eq_mod n 6

theorem mask_eight (n : Nat) : n &&& 0xff = n % 256 := Nat.and_two_pow_sub_one_eq_mod n 8

theorem quantum_four {a b c d : Nat} (hb : b < 64) (hc : c < 64) (hd : d < 64) :
    quantum [a, b, c, d] = .ok [.ofNat (a * 4 + b / 16), .ofNat (b % 16 * 16 + c / 4),
      .ofNat (c % 4 * 64 + d)] := by
  have hab : a * 2 ^ 18 ||| b * 2 ^ 12 = a * 2 ^ 18 + b * 2 ^ 12 :=
    or_low 18 (by omega) (by omega)
  have habc : (a * 2 ^ 18 + b * 2 ^ 12) ||| c * 2 ^ 6 = a * 2 ^ 18 + b * 2 ^ 12 + c * 2 ^ 6 :=
    or_low 12 (by omega) (by omega)
  have hv : (a * 2 ^ 18 + b * 2 ^ 12 + c * 2 ^ 6) ||| d =
      a * 2 ^ 18 + b * 2 ^ 12 + c * 2 ^ 6 + d := or_low 6 (by omega) (by omega)
  have h16 : (a * 2 ^ 18 + b * 2 ^ 12 + c * 2 ^ 6 + d) / 2 ^ 16 = a * 4 + b / 16 := by omega
  have h8 : (a * 2 ^ 18 + b * 2 ^ 12 + c * 2 ^ 6 + d) / 2 ^ 8 % 256 = b % 16 * 16 + c / 4 := by
    omega
  have h0 : (a * 2 ^ 18 + b * 2 ^ 12 + c * 2 ^ 6 + d) % 256 = c % 4 * 64 + d := by omega
  simp only [quantum, count_digits, List.count_nil, if_true, Int.toNat_natCast, mask_eight,
    Nat.shiftLeft_eq, Nat.shiftRight_eq_div_pow, hab, habc, hv, h16, h8, h0]

theorem quantum_three {a b c : Nat} (hb : b < 64) (hc : c < 64) (hlow : c % 4 = 0) :
    quantum [a, b, c, -2] =
      .ok [.ofNat (a * 4 + b / 16), .ofNat (b % 16 * 16 + c / 4)] := by
  have hab : a * 2 ^ 10 ||| b * 2 ^ 4 = a * 2 ^ 10 + b * 2 ^ 4 := or_low 10 (by omega) (by omega)
  have hv : (a * 2 ^ 10 + b * 2 ^ 4) ||| c / 2 ^ 2 = a * 2 ^ 10 + b * 2 ^ 4 + c / 2 ^ 2 :=
    or_low 4 (by omega) (by omega)
  have h8 : (a * 2 ^ 10 + b * 2 ^ 4 + c / 2 ^ 2) / 2 ^ 8 = a * 4 + b / 16 := by omega
  have h0 : (a * 2 ^ 10 + b * 2 ^ 4 + c / 2 ^ 2) % 256 = b % 16 * 16 + c / 4 := by omega
  have hcount : [(a : Int), b, c, -2].count (-2) = 1 := by
    simp only [count_digits]
    rfl
  simp only [quantum, hcount, Int.toNat_natCast, mask_two, mask_eight, hlow, Nat.shiftLeft_eq,
    Nat.shiftRight_eq_div_pow, hab, hv, h8, h0]
  rfl

theorem quantum_two {a b : Nat} (hb : b < 64) (hlow : b % 16 = 0) :
    quantum [a, b, -2, -2] = .ok [.ofNat (a * 4 + b / 16)] := by
  have hv : a * 2 ^ 2 ||| b / 2 ^ 4 = a * 4 + b / 16 := or_low 2 (by omega) (by omega)
  have hcount : [(a : Int), b, -2, -2].count (-2) = 2 := by
    simp only [count_digits]
    rfl
  simp only [quantum, hcount, Int.toNat_natCast, mask_four, hlow, Nat.shiftLeft_eq,
    Nat.shiftRight_eq_div_pow, hv]
  rfl

theorem quantum_three_ok {a b c : Nat} {bytes : List UInt8}
    (h : quantum [a, b, c, -2] = .ok bytes) : c % 4 = 0 := by
  have hcount : [(a : Int), b, c, -2].count (-2) = 1 := by
    simp only [count_digits]
    rfl
  by_contra hlow
  rw [← mask_two] at hlow
  simp [quantum, hcount, hlow] at h

theorem quantum_two_ok {a b : Nat} {bytes : List UInt8}
    (h : quantum [a, b, -2, -2] = .ok bytes) : b % 16 = 0 := by
  have hcount : [(a : Int), b, -2, -2].count (-2) = 2 := by
    simp only [count_digits]
    rfl
  by_contra hlow
  rw [← mask_four] at hlow
  simp [quantum, hcount, hlow] at h

theorem quantum_one {a : Nat} {bytes : List UInt8} : quantum [a, -2, -2, -2] ≠ .ok bytes := by
  have hcount : [(a : Int), -2, -2, -2].count (-2) = 3 := by
    simp only [count_digits]
    rfl
  simp [quantum, hcount]

theorem three_eq (a b c : UInt8) : three a b c =
    [encode64 (a.toNat / 4), encode64 (a.toNat % 4 * 16 + b.toNat / 16),
      encode64 (b.toNat % 16 * 4 + c.toNat / 64), encode64 (c.toNat % 64)] := by
  have ha := a.toNat_lt
  have hb := b.toNat_lt
  have hc := c.toNat_lt
  rw [three]
  generalize a.toNat = a, b.toNat = b, c.toNat = c at *
  have hab : a * 2 ^ 16 ||| b * 2 ^ 8 = a * 2 ^ 16 + b * 2 ^ 8 := or_low 16 (by omega) (by omega)
  have hv : (a * 2 ^ 16 + b * 2 ^ 8) ||| c = a * 2 ^ 16 + b * 2 ^ 8 + c :=
    or_low 8 (by omega) (by omega)
  have h18 : (a * 2 ^ 16 + b * 2 ^ 8 + c) / 2 ^ 18 = a / 4 := by omega
  have h12 : (a * 2 ^ 16 + b * 2 ^ 8 + c) / 2 ^ 12 % 64 = a % 4 * 16 + b / 16 := by omega
  have h6 : (a * 2 ^ 16 + b * 2 ^ 8 + c) / 2 ^ 6 % 64 = b % 16 * 4 + c / 64 := by omega
  have h0 : (a * 2 ^ 16 + b * 2 ^ 8 + c) % 64 = c % 64 := by omega
  simp only [mask_six, Nat.shiftLeft_eq, Nat.shiftRight_eq_div_pow, hab, hv, h18, h12, h6, h0]

theorem two_eq (a b : UInt8) : two a b =
    [encode64 (a.toNat / 4), encode64 (a.toNat % 4 * 16 + b.toNat / 16),
      encode64 (b.toNat % 16 * 4), 61] := by
  have ha := a.toNat_lt
  have hb := b.toNat_lt
  rw [two]
  generalize a.toNat = a, b.toNat = b at *
  have hv : a * 2 ^ 8 ||| b = a * 2 ^ 8 + b := or_low 8 (by omega) (by omega)
  have h10 : (a * 2 ^ 8 + b) / 2 ^ 10 = a / 4 := by omega
  have h4 : (a * 2 ^ 8 + b) / 2 ^ 4 % 64 = a % 4 * 16 + b / 16 := by omega
  have h0 : (a * 2 ^ 8 + b) % 16 * 2 ^ 2 = b % 16 * 4 := by omega
  simp only [mask_four, mask_six, Nat.shiftLeft_eq, Nat.shiftRight_eq_div_pow, hv, h10, h4, h0]

theorem one_eq (a : UInt8) :
    one a = [encode64 (a.toNat / 4), encode64 (a.toNat % 4 * 16), 61, 61] := by
  simp only [one, mask_two, Nat.shiftLeft_eq, Nat.shiftRight_eq_div_pow]

/-! ### The loops of `lb64decode` -/

def significant (text : List UInt8) : List Int := (text.map b64index).filter (· ≠ -1)

theorem significant_cons (ch : UInt8) (text : List UInt8) : significant (ch :: text) =
    if b64index ch = -1 then significant text else b64index ch :: significant text := by
  rw [significant, List.map_cons, List.filter_cons]
  split <;> simp_all [significant]

theorem significant_le (text : List UInt8) : (significant text).length ≤ text.length := by
  rw [significant]
  exact (List.length_filter_le _ _).trans (List.length_map _).le

theorem significant_pos {q : List UInt8} (hq : q ≠ [])
    (hlast : ∀ ch, q.getLast? = some ch → b64index ch ≠ -1) : 0 < (significant q).length := by
  refine List.length_pos_of_mem (a := b64index (q.getLast hq)) (List.mem_filter.mpr ⟨?_, ?_⟩)
  · exact List.mem_map_of_mem (List.getLast_mem hq)
  · simpa using hlast _ (List.getLast?_eq_some_getLast hq)

/-- A part of a text up to the last of four characters that count. -/
structure Four (q : List UInt8) (c : List Int) : Prop where
  eq : significant q = c
  length : c.length = 4
  last : ∀ ch, q.getLast? = some ch → b64index ch ≠ -1

theorem readFour_ok {text text' : List UInt8} {i i' : Nat} {c c' : List Int} (hc : c.length ≤ 4)
    (hi : i ≤ INT_MAX) (h : readFour text i c = .ok (c', text', i')) :
    ∃ q, text = q ++ text' ∧ c' = c ++ significant q ∧ c'.length = 4 ∧ i' = i + q.length ∧
      i' ≤ INT_MAX ∧ ∀ ch, q.getLast? = some ch → b64index ch ≠ -1 := by
  induction text generalizing i c with
  | nil =>
    rw [readFour] at h
    split at h
    · cases h
    · cases h
      exact ⟨[], rfl, by simp [significant], by omega, rfl, hi, by simp⟩
  | cons ch text ih =>
    rw [readFour] at h
    split at h
    · split at h
      · cases h
      · split at h
        · rename_i hskip
          obtain ⟨q, rfl, rfl, hlen, rfl, hmax, hlast⟩ := ih hc (by omega) h
          refine ⟨ch :: q, rfl, by rw [significant_cons, if_pos hskip], hlen, ?_, hmax, ?_⟩
          · rw [List.length_cons]
            omega
          · cases q with
            | nil =>
              rw [significant, List.map_nil, List.filter_nil, List.append_nil] at hlen
              omega
            | cons ch' q =>
              rw [List.getLast?_cons_cons]
              exact hlast
        · rename_i hlt hmax hch
          obtain ⟨q, rfl, rfl, hlen, rfl, hmax, hlast⟩ :=
            ih (by rw [List.length_append, List.length_singleton]; omega) (by omega) h
          refine ⟨ch :: q, rfl, ?_, hlen, ?_, hmax, ?_⟩
          · rw [significant_cons, if_neg hch, List.append_assoc]
            rfl
          · rw [List.length_cons]
            omega
          · cases q with
            | nil =>
              rintro _ ⟨⟩
              exact hch
            | cons ch' q =>
              rw [List.getLast?_cons_cons]
              exact hlast
    · cases h
      exact ⟨[], rfl, by simp [significant], by omega, rfl, hi, by simp⟩

theorem readFour_nil_ok {text text' : List UInt8} {i i' : Nat} {c : List Int} (hi : i ≤ INT_MAX)
    (h : readFour text i [] = .ok (c, text', i')) :
    ∃ q, text = q ++ text' ∧ Four q c ∧ i' = i + q.length ∧ i' ≤ INT_MAX ∧ 4 ≤ q.length := by
  obtain ⟨q, htext, rfl, hlen, hi', hmax, hlast⟩ := readFour_ok (by simp) hi h
  refine ⟨q, htext, ⟨rfl, hlen, hlast⟩, hi', hmax, ?_⟩
  have := significant_le q
  rw [List.nil_append] at hlen
  omega

theorem readFour_append {q text : List UInt8} {i : Nat} {c : List Int}
    (hlen : c.length + (significant q).length = 4)
    (hlast : ∀ ch, q.getLast? = some ch → b64index ch ≠ -1) (hi : i + q.length ≤ INT_MAX) :
    readFour (q ++ text) i c = .ok (c ++ significant q, text, i + q.length) := by
  induction q generalizing i c with
  | nil =>
    rw [List.nil_append, readFour_four (by simpa [significant] using hlen)]
    simp [significant]
  | cons ch q ih =>
    have hlast' : ∀ ch, q.getLast? = some ch → b64index ch ≠ -1 := by
      cases q with
      | nil => simp
      | cons ch' q => rwa [List.getLast?_cons_cons] at hlast
    rw [List.length_cons] at hi
    have hcount : i + (q.length + 1) = i + 1 + q.length := by omega
    rw [significant_cons] at hlen ⊢
    rw [List.cons_append, readFour, List.length_cons, hcount]
    by_cases hskip : b64index ch = -1
    · rw [if_pos hskip] at hlen ⊢
      have hne : q ≠ [] := by
        rintro rfl
        exact hlast ch rfl hskip
      have hpos := significant_pos hne hlast'
      rw [if_pos (by omega), if_neg (by omega), if_pos hskip, ih hlen hlast' (by omega)]
    · rw [if_neg hskip, List.length_cons] at hlen
      rw [if_pos (by omega), if_neg (by omega), if_neg hskip, if_neg hskip,
        ih (by rw [List.length_append, List.length_singleton]; omega) hlast' (by omega),
        List.append_assoc]
      rfl

theorem Four.read {q : List UInt8} {c : List Int} (h : Four q c) (text : List UInt8) {i : Nat}
    (hi : i + q.length ≤ INT_MAX) :
    readFour (q ++ text) i [] = .ok (c, text, i + q.length) := by
  rw [readFour_append (by rw [h.eq, h.length]; rfl) h.last hi, h.eq, List.nil_append]

theorem quantum_bytes {c : List Int} (hc : c.length = 4) : quantum c ≠ .error .undefined ∧
    ∀ bytes, quantum c = .ok bytes → bytes.length ≤ 3 := by
  obtain ⟨c0, c1, c2, c3, rfl⟩ : ∃ c0 c1 c2 c3, c = [c0, c1, c2, c3] := List.length_eq_four.mp hc
  rw [quantum]
  simp only
  split
  · exact ⟨fun h => (by cases h), fun bytes h => by cases h; simp⟩
  · split
    · split
      · exact ⟨fun h => (by cases h), fun bytes h => by cases h⟩
      · exact ⟨fun h => (by cases h), fun bytes h => by cases h; simp⟩
    · split
      · split
        · exact ⟨fun h => (by cases h), fun bytes h => by cases h⟩
        · exact ⟨fun h => (by cases h), fun bytes h => by cases h; simp⟩
      · exact ⟨fun h => (by cases h), fun bytes h => by cases h⟩

theorem readFour_error {text : List UInt8} {i : Nat} {c : List Int} {e : Fault}
    (hi : i ≤ INT_MAX) (h : readFour text i c = .error e) :
    e = .undefined ↔ INT_MAX < i + text.length := by
  induction text generalizing i c with
  | nil =>
    rw [readFour] at h
    split at h
    · cases h
      exact iff_of_false (fun h => by cases h) (by simpa using hi)
    · cases h
  | cons ch text ih =>
    rw [readFour] at h
    rw [List.length_cons]
    split at h
    · split at h
      · cases h
        exact iff_of_true rfl (by omega)
      · split at h
        · rw [ih (by omega) h]
          omega
        · rw [ih (by omega) h]
          omega
    · cases h

theorem decodeLoop_nil (size i : Nat) (buffer : List UInt8) :
    decodeLoop size [] i buffer = .ok buffer := by
  rw [decodeLoop, if_pos rfl]

theorem decodeLoop_four {size i : Nat} {q text buffer : List UInt8} {c : List Int}
    (h : Four q c) (hi : i + q.length ≤ INT_MAX) :
    decodeLoop size (q ++ text) i buffer = (do
      let bytes ← quantum c
      if size < buffer.length + bytes.length then .error .undefined
      else decodeLoop size text (i + q.length) (buffer ++ bytes)) := by
  have hne : q ++ text ≠ [] := by
    intro hnil
    have := significant_le q
    rw [h.eq, h.length, (List.append_eq_nil_iff.mp hnil).1] at this
    exact absurd this (by decide)
  rw [decodeLoop, if_neg hne]
  split
  · rename_i e he
    rw [h.read text hi] at he
    cases he
  · rename_i c' text' i' hread
    rw [h.read text hi] at hread
    cases hread
    cases quantum c with
    | error e | ok bytes => rfl

theorem decodeLoop_safe {size i : Nat} {text buffer : List UInt8}
    (hi : i + text.length ≤ INT_MAX)
    (hsize : buffer.length + (text.length + 3) / 4 * 3 ≤ size) :
    decodeLoop size text i buffer ≠ .error .undefined ∧
      ∀ out, decodeLoop size text i buffer = .ok out →
        out.length ≤ buffer.length + (text.length + 3) / 4 * 3 := by
  fun_induction decodeLoop size text i buffer with
  | case1 i buffer =>
    refine ⟨fun h => (by cases h), fun out h => ?_⟩
    cases h
    omega
  | case2 text i buffer hne e he =>
    refine ⟨fun h => ?_, fun out h => by cases h⟩
    cases h
    have := (readFour_error (by omega) he).mp rfl
    omega
  | case3 text i buffer hne c text' i' hread e he =>
    obtain ⟨q, -, hfour, -⟩ := readFour_nil_ok (by omega) hread
    refine ⟨fun h => ?_, fun out h => by cases h⟩
    cases h
    exact (quantum_bytes hfour.length).1 he
  | case4 text i buffer hne c text' i' hread bytes hbytes hover =>
    obtain ⟨q, rfl, hfour, -, -, hq⟩ := readFour_nil_ok (by omega) hread
    have := (quantum_bytes hfour.length).2 bytes hbytes
    rw [List.length_append] at hsize
    omega
  | case5 text i buffer hne c text' i' hread bytes hbytes hroom ih =>
    obtain ⟨q, rfl, hfour, rfl, -, hq⟩ := readFour_nil_ok (by omega) hread
    have hlen := (quantum_bytes hfour.length).2 bytes hbytes
    rw [List.length_append] at hi hsize
    obtain ⟨hdefined, hout⟩ := ih (by omega) (by rw [List.length_append]; omega)
    refine ⟨hdefined, fun out h => (hout out h).trans ?_⟩
    rw [List.length_append, List.length_append]
    omega

theorem length_of_decodeLoop {size i : Nat} {text buffer out : List UInt8} (hi : i ≤ INT_MAX)
    (h : decodeLoop size text i buffer = .ok out) : i + text.length ≤ INT_MAX := by
  fun_induction decodeLoop size text i buffer with
  | case1 i buffer => simpa using hi
  | case2 text i buffer hne e he | case3 text i buffer hne c text' i' hread e he
  | case4 text i buffer hne c text' i' hread bytes hbytes hover => cases h
  | case5 text i buffer hne c text' i' hread bytes hbytes hroom ih =>
    obtain ⟨q, rfl, hfour, rfl, hmax, -⟩ := readFour_nil_ok hi hread
    have := ih hmax h
    rw [List.length_append]
    omega

/-- A text of whole groups of four characters, and the bytes that they stand for. -/
inductive Quads : List UInt8 → List UInt8 → Prop
  | nil : Quads [] []
  | cons {q text bytes out : List UInt8} {c : List Int} (four : Four q c)
    (hbytes : quantum c = .ok bytes) (rest : Quads text out) : Quads (q ++ text) (bytes ++ out)

/-- Four characters that are no bytes come before the largest `int`, and what is before them fits
the buffer. -/
def Rejected (size i written : Nat) (text : List UInt8) : Prop :=
  ∃ before bad after out c e, text = before ++ (bad ++ after) ∧ Quads before out ∧ Four bad c ∧
    quantum c = .error e ∧ i + (before.length + bad.length) ≤ INT_MAX ∧ written + out.length ≤ size

theorem rejected_iff {size i : Nat} {text buffer : List UInt8} (hi : i ≤ INT_MAX)
    (hlong : INT_MAX < i + text.length) (hsize : buffer.length ≤ size) :
    decodeLoop size text i buffer ≠ .error .undefined ↔ Rejected size i buffer.length text := by
  constructor
  · intro h
    fun_induction decodeLoop size text i buffer with
    | case1 i buffer =>
      rw [List.length_nil] at hlong
      omega
    | case2 text i buffer hne e he =>
      rw [(readFour_error hi he).mpr hlong] at h
      exact absurd rfl h
    | case3 text i buffer hne c text' i' hread e he =>
      obtain ⟨q, rfl, hfour, rfl, hmax, -⟩ := readFour_nil_ok hi hread
      exact ⟨[], q, text', [], c, e, rfl, .nil, hfour, he, by simpa using hmax, hsize⟩
    | case4 text i buffer hne c text' i' hread bytes hbytes hover => exact absurd rfl h
    | case5 text i buffer hne c text' i' hread bytes hbytes hroom ih =>
      obtain ⟨q, rfl, hfour, rfl, hmax, -⟩ := readFour_nil_ok hi hread
      rw [List.length_append] at hlong
      obtain ⟨before, bad, after, out, c', e, rfl, hquads, hbad, he, hint, hwritten⟩ :=
        ih hmax (by omega) (by rw [List.length_append]; omega) h
      rw [List.length_append] at hwritten
      refine ⟨q ++ before, bad, after, bytes ++ out, c', e, by rw [List.append_assoc],
        .cons hfour hbytes hquads, hbad, he, ?_, ?_⟩
      · rw [List.length_append]
        omega
      · rw [List.length_append]
        omega
  · rintro ⟨before, bad, after, out, c, e, rfl, hquads, hbad, he, hint, hwritten⟩
    induction hquads generalizing i buffer with
    | nil =>
      rw [List.nil_append, decodeLoop_four hbad (by simpa using hint), he]
      have := quantum_bytes hbad.length
      rw [he] at this
      exact this.1
    | @cons q text bytes out c' hfour hbytes hrest ih =>
      simp only [List.length_append] at hint hwritten hlong ih
      rw [List.append_assoc, decodeLoop_four hfour (by omega), hbytes, ok_bind,
        if_neg (by omega)]
      have hwrite : (buffer ++ bytes).length = buffer.length + bytes.length :=
        List.length_append
      exact ih (by omega) (by omega) (by omega) (by omega) (by omega)

/-! ### What `lb64encode` writes is read back -/

theorem four_of_ne {a b c d : UInt8} (ha : b64index a ≠ -1) (hb : b64index b ≠ -1)
    (hc : b64index c ≠ -1) (hd : b64index d ≠ -1) :
    Four [a, b, c, d] [b64index a, b64index b, b64index c, b64index d] where
  eq := by
    rw [significant_cons, if_neg ha, significant_cons, if_neg hb, significant_cons, if_neg hc,
      significant_cons, if_neg hd]
    rfl
  length := rfl
  last := by
    intro ch hch
    cases hch
    exact hd

theorem digit_ne {n : Nat} (hn : n < 64) : b64index (encode64 n) ≠ -1 := by
  rw [encode64_index hn]
  omega

theorem pad_ne : b64index 61 ≠ -1 := by decide

theorem byte_eq {n : Nat} {a : UInt8} (h : n = a.toNat) : UInt8.ofNat n = a := by
  rw [h, UInt8.ofNat_toNat]

theorem three_four (a b c : UInt8) : ∃ l, Four (three a b c) l ∧ quantum l = .ok [a, b, c] := by
  have ha := a.toNat_lt
  have hb := b.toNat_lt
  have hc := c.toNat_lt
  have h0 : a.toNat / 4 < 64 := by omega
  have h1 : a.toNat % 4 * 16 + b.toNat / 16 < 64 := by omega
  have h2 : b.toNat % 16 * 4 + c.toNat / 64 < 64 := by omega
  have h3 : c.toNat % 64 < 64 := by omega
  have hfour := four_of_ne (digit_ne h0) (digit_ne h1) (digit_ne h2) (digit_ne h3)
  rw [← three_eq] at hfour
  refine ⟨_, hfour, ?_⟩
  rw [encode64_index h0, encode64_index h1, encode64_index h2, encode64_index h3,
    quantum_four h1 h2 h3, byte_eq (a := a) (by omega), byte_eq (a := b) (by omega),
    byte_eq (a := c) (by omega)]

theorem two_four (a b : UInt8) : ∃ l, Four (two a b) l ∧ quantum l = .ok [a, b] := by
  have ha := a.toNat_lt
  have hb := b.toNat_lt
  have h0 : a.toNat / 4 < 64 := by omega
  have h1 : a.toNat % 4 * 16 + b.toNat / 16 < 64 := by omega
  have h2 : b.toNat % 16 * 4 < 64 := by omega
  have hfour := four_of_ne (digit_ne h0) (digit_ne h1) (digit_ne h2) pad_ne
  rw [← two_eq] at hfour
  refine ⟨_, hfour, ?_⟩
  rw [encode64_index h0, encode64_index h1, encode64_index h2, pad_index,
    quantum_three h1 h2 (by omega), byte_eq (a := a) (by omega), byte_eq (a := b) (by omega)]

theorem one_four (a : UInt8) : ∃ l, Four (one a) l ∧ quantum l = .ok [a] := by
  have ha := a.toNat_lt
  have h0 : a.toNat / 4 < 64 := by omega
  have h1 : a.toNat % 4 * 16 < 64 := by omega
  have hfour := four_of_ne (digit_ne h0) (digit_ne h1) pad_ne pad_ne
  rw [← one_eq] at hfour
  refine ⟨_, hfour, ?_⟩
  rw [encode64_index h0, encode64_index h1, pad_index, quantum_two h1 (by omega),
    byte_eq (a := a) (by omega)]

theorem quads_encode (text : List UInt8) : Quads (encode text) text := by
  fun_induction encode text with
  | case1 a b c text ih =>
    obtain ⟨l, hfour, hbytes⟩ := three_four a b c
    exact .cons hfour hbytes ih
  | case2 a b =>
    obtain ⟨l, hfour, hbytes⟩ := two_four a b
    have hquads := Quads.cons hfour hbytes .nil
    rwa [List.append_nil, List.append_nil] at hquads
  | case3 a =>
    obtain ⟨l, hfour, hbytes⟩ := one_four a
    have hquads := Quads.cons hfour hbytes .nil
    rwa [List.append_nil, List.append_nil] at hquads
  | case4 => exact .nil

theorem Quads.decode {size i : Nat} {text out buffer : List UInt8} (h : Quads text out)
    (hi : i + text.length ≤ INT_MAX) (hsize : buffer.length + out.length ≤ size) :
    decodeLoop size text i buffer = .ok (buffer ++ out) := by
  induction h generalizing i buffer with
  | nil => rw [decodeLoop_nil, List.append_nil]
  | @cons q text bytes out c four hbytes rest ih =>
    rw [List.length_append] at hi hsize
    have hwrite : (buffer ++ bytes).length = buffer.length + bytes.length := List.length_append
    rw [decodeLoop_four four (by omega), hbytes, ok_bind, if_neg (by omega),
      ih (by omega) (by omega), List.append_assoc]

theorem lb64decode_encode {text : List UInt8} (h : (encode text).length ≤ INT_MAX) :
    lb64decode (encode text) = .ok text := by
  have hlen := encode_length text
  rw [lb64decode]
  refine (quads_encode text).decode (by omega) ?_
  rw [List.length_nil, toInt_of_le (by omega), bufferSize, Int.toNat_natCast]
  omega

/-- Decoding gives the text back, and the encoding has four characters for three bytes. -/
def Base64Recovers (text : List UInt8) : Prop :=
  ∃ buffer, lb64encode text = .ok buffer ∧ buffer.length = (text.length + 2) / 3 * 4 ∧
    lb64decode buffer = .ok text

theorem base64Recovers_iff (text : List UInt8) :
    Base64Recovers text ↔ ((text.length + 2) / 3 * 4 : Nat) ≤ INT_MAX := by
  constructor
  · rintro ⟨buffer, -, hlen, hback⟩
    have hmax := length_of_decodeLoop (by decide) hback
    rw [← hlen]
    omega
  · intro h
    have hlen := encode_length text
    exact ⟨encode text, lb64encode_eq h, hlen, lb64decode_encode (by rwa [hlen])⟩

/-- `base64decode` raises an error, or gives no more bytes than the buffer has. -/
def Base64Safe (text : List UInt8) : Prop :=
  lb64decode text ≠ .error .undefined ∧
    ∀ out, lb64decode text = .ok out → out.length ≤ (text.length + 3) / 4 * 3

theorem base64Safe_iff (text : List UInt8) : Base64Safe text ↔ text.length ≤ INT_MAX ∨
    Rejected (bufferSize (toInt ((text.length + 3) / 4 * 3 : Nat))) 0 0 text := by
  by_cases hle : (text.length : Int) ≤ INT_MAX
  · refine iff_of_true ?_ (.inl hle)
    have hsize : (text.length + 3) / 4 * 3 ≤
        bufferSize (toInt ((text.length + 3) / 4 * 3 : Nat)) := by
      have hint : ((text.length + 3) / 4 * 3 : Nat) ≤ INT_MAX := by
        rw [INT_MAX] at *
        omega
      rw [toInt_of_le hint, bufferSize, Int.toNat_natCast]
      exact Nat.le_max_right _ _
    have hsafe := @decodeLoop_safe _ 0 text [] (by simpa using hle) (by simpa using hsize)
    rwa [List.length_nil, Nat.zero_add] at hsafe
  · have hiff := @rejected_iff (bufferSize (toInt ((text.length + 3) / 4 * 3 : Nat))) 0 text []
      (by decide) (by simpa using hle) (Nat.zero_le _)
    rw [List.length_nil] at hiff
    rw [← hiff, or_iff_right (by omega)]
    refine and_iff_left fun out h => ?_
    have := length_of_decodeLoop (by decide) h
    omega

/-! ### Texts that are encoded again -/

/-- Characters of the alphabet, with padding that stands for no bits that are set. -/
inductive Canonical : List UInt8 → Prop
  | nil : Canonical []
  | two {a b : Nat} (ha : a < 64) (hb : b < 64) (hlow : b % 16 = 0) :
    Canonical [encode64 a, encode64 b, 61, 61]
  | three {a b c : Nat} (ha : a < 64) (hb : b < 64) (hc : c < 64) (hlow : c % 4 = 0) :
    Canonical [encode64 a, encode64 b, encode64 c, 61]
  | four {a b c d : Nat} {text : List UInt8} (ha : a < 64) (hb : b < 64) (hc : c < 64)
    (hd : d < 64) (rest : Canonical text) :
    Canonical (encode64 a :: encode64 b :: encode64 c :: encode64 d :: text)

theorem three_digits {a b c d : Nat} (ha : a < 64) (hb : b < 64) (hc : c < 64) (hd : d < 64) :
    three (.ofNat (a * 4 + b / 16)) (.ofNat (b % 16 * 16 + c / 4)) (.ofNat (c % 4 * 64 + d)) =
      [encode64 a, encode64 b, encode64 c, encode64 d] := by
  rw [three_eq, UInt8.toNat_ofNat', UInt8.toNat_ofNat', UInt8.toNat_ofNat']
  congr 1
  · congr 1; omega
  · congr 1
    · congr 1; omega
    · congr 1
      · congr 1; omega
      · congr 2; omega

theorem two_digits {a b c : Nat} (ha : a < 64) (hb : b < 64) (hc : c < 64) (hlow : c % 4 = 0) :
    two (.ofNat (a * 4 + b / 16)) (.ofNat (b % 16 * 16 + c / 4)) =
      [encode64 a, encode64 b, encode64 c, 61] := by
  rw [two_eq, UInt8.toNat_ofNat', UInt8.toNat_ofNat']
  congr 1
  · congr 1; omega
  · congr 1
    · congr 1; omega
    · congr 2; omega

theorem one_digits {a b : Nat} (ha : a < 64) (hb : b < 64) (hlow : b % 16 = 0) :
    one (.ofNat (a * 4 + b / 16)) = [encode64 a, encode64 b, 61, 61] := by
  rw [one_eq, UInt8.toNat_ofNat']
  congr 1
  · congr 1; omega
  · congr 2; omega

theorem Canonical.exists_encode {text : List UInt8} (h : Canonical text) :
    ∃ out, encode out = text := by
  induction h with
  | nil => exact ⟨[], rfl⟩
  | two ha hb hlow => exact ⟨[_], one_digits ha hb hlow⟩
  | three ha hb hc hlow => exact ⟨[_, _], two_digits ha hb hc hlow⟩
  | @four a b c d text ha hb hc hd rest ih =>
    obtain ⟨out, rfl⟩ := ih
    refine ⟨.ofNat (a * 4 + b / 16) :: .ofNat (b % 16 * 16 + c / 4) :: .ofNat (c % 4 * 64 + d) ::
      out, ?_⟩
    rw [encode, three_digits ha hb hc hd]
    rfl

/-- Decoding gives a text whose encoding is the one decoded. -/
def Reencodes (text : List UInt8) : Prop :=
  ∃ out, lb64decode text = .ok out ∧ lb64encode out = .ok text

theorem Canonical.reencodes_iff {text : List UInt8} (h : Canonical text) :
    Reencodes text ↔ text.length ≤ INT_MAX := by
  obtain ⟨out, rfl⟩ := h.exists_encode
  constructor
  · rintro ⟨out', hback, -⟩
    have := length_of_decodeLoop (by decide) hback
    omega
  · intro hmax
    exact ⟨out, lb64decode_encode hmax, lb64encode_eq (by rwa [← encode_length])⟩

theorem decodeLoop_four_ok {size i : Nat} {q text buffer out : List UInt8} {c : List Int}
    (hi : i ≤ INT_MAX) (h : Four q c) (hok : decodeLoop size (q ++ text) i buffer = .ok out) :
    ∃ bytes, quantum c = .ok bytes ∧ i + q.length ≤ INT_MAX ∧
      decodeLoop size text (i + q.length) (buffer ++ bytes) = .ok out := by
  have hmax := length_of_decodeLoop hi hok
  rw [List.length_append] at hmax
  rw [decodeLoop_four h (by omega)] at hok
  obtain ⟨bytes, hbytes, hrest⟩ := bind_ok hok
  split at hrest
  · cases hrest
  · exact ⟨bytes, hbytes, by omega, hrest⟩

theorem decodeLoop_short {size i : Nat} {text buffer out : List UInt8} (hi : i ≤ INT_MAX)
    (hshort : text.length < 4) (hok : decodeLoop size text i buffer = .ok out) :
    text = [] ∧ out = buffer := by
  rw [decodeLoop] at hok
  split at hok
  · rename_i hnil
    cases hok
    exact ⟨hnil, rfl⟩
  · split at hok
    · cases hok
    · rename_i c text' i' hread
      obtain ⟨q, rfl, -, -, -, hq⟩ := readFour_nil_ok hi hread
      rw [List.length_append] at hshort
      omega

theorem decodeLoop_pads {size i pad : Nat} {buffer out : List UInt8} (hi : i ≤ INT_MAX)
    (hok : decodeLoop size (List.replicate pad 61) i buffer = .ok out) :
    pad = 0 ∧ out = buffer := by
  by_cases hshort : pad < 4
  · obtain ⟨hnil, hout⟩ := decodeLoop_short hi (by simpa using hshort) hok
    exact ⟨by simpa using hnil, hout⟩
  · obtain ⟨n, rfl⟩ : ∃ n, pad = 4 + n := ⟨pad - 4, by omega⟩
    rw [List.replicate_add] at hok
    obtain ⟨bytes, hbytes, -⟩ :=
      decodeLoop_four_ok hi (four_of_ne pad_ne pad_ne pad_ne pad_ne) hok
    cases hbytes

theorem padded {size pad i k : Nat} {chars buffer out : List UInt8} (hne : chars ≠ [])
    (hk : chars.length + k = 4) (hi : i ≤ INT_MAX)
    (hok : decodeLoop size (chars ++ List.replicate pad 61) i buffer = .ok out) :
    ∃ n, pad = k + n ∧ decodeLoop size ((chars ++ List.replicate k 61) ++ List.replicate n 61) i
      buffer = .ok out := by
  by_cases hshort : pad < k
  · have hlen : (chars ++ List.replicate pad 61).length < 4 := by
      rw [List.length_append, List.length_replicate]
      omega
    have hnil := (decodeLoop_short hi hlen hok).1
    exact absurd (List.append_eq_nil_iff.mp hnil).1 hne
  · obtain ⟨n, rfl⟩ : ∃ n, pad = k + n := ⟨pad - k, by omega⟩
    rw [List.replicate_add, ← List.append_assoc] at hok
    exact ⟨n, rfl, hok⟩

theorem encode_of_decodeLoop {size pad : Nat} {out : List UInt8} (chars : List UInt8) (i : Nat)
    (buffer : List UInt8) (hchars : ∀ c ∈ chars, c ∈ encoding) (hi : i ≤ INT_MAX)
    (hok : decodeLoop size (chars ++ List.replicate pad 61) i buffer = .ok out) :
    ∃ y, out = buffer ++ y ∧ encode y = chars ++ List.replicate pad 61 := by
  match chars with
  | [] =>
    obtain ⟨rfl, rfl⟩ := decodeLoop_pads hi hok
    exact ⟨[], by simp, rfl⟩
  | [c₀] =>
    obtain ⟨a, ha, hca, rfl⟩ := index_encode64 (hchars c₀ (by simp))
    obtain ⟨n, rfl, hfour⟩ := padded (k := 3) (by simp) rfl hi hok
    obtain ⟨bytes, hbytes, -⟩ :=
      decodeLoop_four_ok hi (four_of_ne (digit_ne ha) pad_ne pad_ne pad_ne) hfour
    rw [hca, pad_index] at hbytes
    exact absurd hbytes quantum_one
  | [c₀, c₁] =>
    obtain ⟨a, ha, hca, rfl⟩ := index_encode64 (hchars c₀ (by simp))
    obtain ⟨b, hb, hcb, rfl⟩ := index_encode64 (hchars c₁ (by simp))
    obtain ⟨n, rfl, hfour⟩ := padded (k := 2) (by simp) rfl hi hok
    obtain ⟨bytes, hbytes, hmax, hrest⟩ :=
      decodeLoop_four_ok hi (four_of_ne (digit_ne ha) (digit_ne hb) pad_ne pad_ne) hfour
    obtain ⟨rfl, rfl⟩ := decodeLoop_pads hmax hrest
    rw [hca, hcb, pad_index] at hbytes
    have hlow := quantum_two_ok hbytes
    rw [quantum_two hb hlow] at hbytes
    cases hbytes
    exact ⟨_, rfl, one_digits ha hb hlow⟩
  | [c₀, c₁, c₂] =>
    obtain ⟨a, ha, hca, rfl⟩ := index_encode64 (hchars c₀ (by simp))
    obtain ⟨b, hb, hcb, rfl⟩ := index_encode64 (hchars c₁ (by simp))
    obtain ⟨c, hc, hcc, rfl⟩ := index_encode64 (hchars c₂ (by simp))
    obtain ⟨n, rfl, hfour⟩ := padded (k := 1) (by simp) rfl hi hok
    obtain ⟨bytes, hbytes, hmax, hrest⟩ :=
      decodeLoop_four_ok hi (four_of_ne (digit_ne ha) (digit_ne hb) (digit_ne hc) pad_ne) hfour
    obtain ⟨rfl, rfl⟩ := decodeLoop_pads hmax hrest
    rw [hca, hcb, hcc, pad_index] at hbytes
    have hlow := quantum_three_ok hbytes
    rw [quantum_three hb hc hlow] at hbytes
    cases hbytes
    exact ⟨_, rfl, two_digits ha hb hc hlow⟩
  | c₀ :: c₁ :: c₂ :: c₃ :: chars =>
    obtain ⟨a, ha, hca, rfl⟩ := index_encode64 (hchars c₀ (by simp))
    obtain ⟨b, hb, hcb, rfl⟩ := index_encode64 (hchars c₁ (by simp))
    obtain ⟨c, hc, hcc, rfl⟩ := index_encode64 (hchars c₂ (by simp))
    obtain ⟨d, hd, hcd, rfl⟩ := index_encode64 (hchars c₃ (by simp))
    obtain ⟨bytes, hbytes, hmax, hrest⟩ :=
      decodeLoop_four_ok hi (four_of_ne (digit_ne ha) (digit_ne hb) (digit_ne hc) (digit_ne hd)) hok
    rw [hca, hcb, hcc, hcd, quantum_four hb hc hd] at hbytes
    cases hbytes
    obtain ⟨y, rfl, hy⟩ := encode_of_decodeLoop chars _ _
      (fun c hc => hchars c (by simp [hc])) hmax hrest
    refine ⟨_ :: _ :: _ :: y, List.append_assoc .., ?_⟩
    rw [encode, three_digits ha hb hc hd, hy]
    rfl

theorem lb64encode_of_decode {chars out : List UInt8} {pad : Nat}
    (hchars : ∀ c ∈ chars, c ∈ encoding)
    (hok : lb64decode (chars ++ List.replicate pad 61) = .ok out) :
    lb64encode out = .ok (chars ++ List.replicate pad 61) := by
  obtain ⟨y, rfl, hy⟩ := encode_of_decodeLoop chars 0 [] hchars (by decide) hok
  have hmax := length_of_decodeLoop (by decide) hok
  rw [← hy]
  refine lb64encode_eq ?_
  rw [← encode_length, hy]
  omega

/-- The round trips hold for texts whose encoding is no longer than the largest `int`, `hexdecode`
succeeds on hexadecimal digits only unless the other characters that it takes are all that is
wrong, and `base64decode` is safe and exact on texts up to the largest `int`. -/
theorem codecs_exact_iff (text : List UInt8) :
    (Base64Recovers text ↔ ((text.length + 2) / 3 * 4 : Nat) ≤ INT_MAX) ∧
    (HexRecovers text ↔ 2 * text.length ≤ INT_MAX) ∧
    (HexOnly text ↔ text.length % 2 = 1 ∨ INT_MAX < text.length ∨ (∃ c ∈ text, ¬ Accepted c) ∨
      ∀ c ∈ text, IsHex c) ∧
    (Base64Safe text ↔ text.length ≤ INT_MAX ∨
      Rejected (bufferSize (toInt ((text.length + 3) / 4 * 3 : Nat))) 0 0 text) ∧
    (Canonical text → (Reencodes text ↔ text.length ≤ INT_MAX)) ∧
    (∀ chars pad out, text = chars ++ List.replicate pad 61 → (∀ c ∈ chars, c ∈ encoding) →
      lb64decode text = .ok out → lb64encode out = .ok text) := by
  refine ⟨base64Recovers_iff text, hexRecovers_iff text, hexOnly_iff text, base64Safe_iff text,
    fun h => h.reencodes_iff, ?_⟩
  rintro chars pad out rfl hchars hok
  exact lb64encode_of_decode hchars hok

/-- `hexdecode` takes two letters g for the byte 16. -/
theorem hexdecode_letters : lfromhex [0x67, 0x67] = .ok [16] ∧ ¬ HexOnly [0x67, 0x67] := by
  have hok : lfromhex [0x67, 0x67] = .ok [16] := by decide
  refine ⟨hok, fun h => ?_⟩
  have hg := (h [16] hok).2 0x67 (by simp)
  exact absurd hg (by decide)

end XsServer.Crypt.Text
