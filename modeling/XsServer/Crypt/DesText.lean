import Mathlib.Data.List.GetD
import XsServer.Crypt.Des
import XsServer.Lib.Results

/-! `desencode` and `desdecode` of `lua-crypt.c`: texts of any length, padded to whole blocks. -/

namespace XsServer.Crypt.DesText

open XsServer.Lib XsServer.Crypt.Des

/-- How a call fails: by `luaL_error`, or by an access outside a buffer, a read of bytes that were
never written or an overflow of an `int`, where C says nothing. -/
inductive Fault
  | error (message : String)
  | undefined
  deriving DecidableEq, Repr

def INT_MAX : Int := 2 ^ 31 - 1
def INT_MIN : Int := -2 ^ 31

/-- A value as an `int`. -/
def toInt (n : Int) : Int := n.bmod (2 ^ 32)

def PADDING_MODE_ISO7816_4 : Int := 0
def PADDING_MODE_PKCS7 : Int := 1
def PADDING_MODE_COUNT : Int := 2

/-- The `int` that a call reads as its third argument. -/
def paddingMode (mode : Option Int) : Int := toInt (mode.getD PADDING_MODE_ISO7816_4)

def checkPaddingMode (mode : Int) : Except Fault Unit :=
  if mode < 0 ∨ mode ≥ PADDING_MODE_COUNT then
    .error (.error s!"Invalid padding mode {mode}")
  else .ok ()

/-- What `padding_add_iso7816_4` puts behind the first `offset` bytes of a block. -/
def paddingAddIso7816_4 (offset : Nat) : List UInt8 := 0x80 :: List.replicate (7 - offset) 0

/-- What `padding_add_pkcs7` puts behind them. -/
def paddingAddPkcs7 (offset : Nat) : List UInt8 :=
  List.replicate (8 - offset) (UInt8.ofNat (8 - offset))

/-- `padding_add_func`. -/
def paddingAddFunc (mode : Int) : Nat → List UInt8 :=
  if mode = PADDING_MODE_ISO7816_4 then paddingAddIso7816_4 else paddingAddPkcs7

def addPadding (src : List UInt8) (offset mode : Int) : Except Fault (List UInt8) := do
  checkPaddingMode mode
  if offset ≥ 8 then throw (.error "Invalid padding")
  -- `memcpy` takes a negative length for a huge one
  if offset < 0 then throw .undefined
  return src.take offset.toNat ++ paddingAddFunc mode offset.toNat

/-- The loop of `padding_remove_iso7816_4` for the rounds that are left, down from `last`. -/
def isoLoop : Nat → Nat → List UInt8 → Except Fault Nat
  | 0, _, _ => .ok 0
  | _ + 1, _, [] => .error .undefined
  | n + 1, padding, b :: last =>
    if b = 0 then isoLoop n (padding + 1) last
    else if b = 0x80 then .ok padding
    else .ok 0

def paddingRemoveIso7816_4 (last : List UInt8) : Except Fault Nat := isoLoop 8 1 last

/-- The loop of `padding_remove_pkcs7` for the rounds that are left, down from `last`. -/
def pkcs7Loop (padding : UInt8) : Nat → List UInt8 → Except Fault Nat
  | 0, _ => .ok padding.toNat
  | _ + 1, [] => .error .undefined
  | n + 1, b :: last => if b ≠ padding then .ok 0 else pkcs7Loop padding n last

def paddingRemovePkcs7 : List UInt8 → Except Fault Nat
  | [] => .error .undefined
  | padding :: last => pkcs7Loop padding (padding.toNat - 1) last

/-- `remove_padding`, on the bytes down from the last one of the buffer. -/
def removePadding (last : List UInt8) (mode : Int) : Except Fault Nat := do
  checkPaddingMode mode
  if mode = PADDING_MODE_ISO7816_4 then paddingRemoveIso7816_4 last else paddingRemovePkcs7 last

def desKey (key : List UInt8) : Except Fault (List Subkey) :=
  if key.length ≠ 8 then
    .error (.error s!"Invalid key size {toInt key.length}, need 8 bytes")
  else .ok (desMainKs key)

/-- `for (i=0;i<bound;i+=8) des_crypt(SK, text+i, buffer+i)`: `i` and the bytes in the buffer after
the loop. -/
def cryptLoop (sk : List Subkey) (text : List UInt8) (bound : Int) (i : Nat)
    (buffer : List UInt8) : Except Fault (Nat × List UInt8) :=
  if (i : Int) < bound then
    if INT_MAX < i + 8 then .error .undefined
    else cryptLoop sk text bound (i + 8) (buffer ++ desCrypt sk ((text.drop i).take 8))
  else .ok (i, buffer)
termination_by (bound - i).toNat

def ldesencode (key text : List UInt8) (mode : Option Int) : Except Fault (List UInt8) := do
  let sk ← desKey key
  let chunksz := (text.length + 8) / 8 * 8
  let bound := toInt text.length - 7
  if bound < INT_MIN then throw .undefined
  let (i, buffer) ← cryptLoop sk text bound 0 []
  let tail ← addPadding (text.drop i) (toInt (text.length - i : Nat)) (paddingMode mode)
  let buffer := buffer ++ desCrypt sk tail
  -- the bytes of the buffer from here on were never written
  if buffer.length < chunksz then throw .undefined
  return buffer.take chunksz

/-- `SK[i] = ESK[30 - i]` and `SK[i + 1] = ESK[31 - i]`, for `i = 2 * j`. -/
def decryptKeys (esk : List Subkey) : List Subkey :=
  (List.range 16).map fun j => esk.getD (15 - j) (0, 0)

/-- The end of `ldesdecode`: the bytes in the buffer without their padding. -/
def withoutPadding (buffer : List UInt8) (mode : Option Int) : Except Fault (List UInt8) := do
  let padding ← removePadding buffer.reverse (paddingMode mode)
  if padding ≤ 0 ∨ padding > 8 then throw (.error "Invalid des crypt text")
  return buffer.take (buffer.length - padding)

def ldesdecode (key text : List UInt8) (mode : Option Int) : Except Fault (List UInt8) := do
  let esk ← desKey key
  let sk := decryptKeys esk
  if text.length % 8 ≠ 0 ∨ text.length = 0 then
    throw (.error s!"Invalid des crypt text length {toInt text.length}")
  let (_, buffer) ← cryptLoop sk text text.length 0 []
  withoutPadding buffer mode

/-- The first `n` blocks of a text through the cipher. -/
abbrev ecb (sk : List Subkey) (n : Nat) (text : List UInt8) : List UInt8 :=
  Cipher.blockwise 8 (desCrypt sk) n text

theorem ecb_length (sk : List Subkey) {n : Nat} {text : List UInt8} (hlen : n * 8 ≤ text.length) :
    (ecb sk n text).length = n * 8 :=
  Cipher.blockwise_length (fun block _ => desCrypt_length sk block) hlen

theorem decryptKeys_eq {esk : List Subkey} (hlen : esk.length = 16) :
    decryptKeys esk = esk.reverse := by
  apply List.ext_getElem
  · simp [decryptKeys, hlen]
  · intro j hj hj'
    rw [List.length_reverse, hlen] at hj'
    simp only [decryptKeys, List.getElem_map, List.getElem_range, List.getElem_reverse, hlen]
    rw [List.getD_eq_getElem _ _ (by omega)]

theorem cryptLoop_eq (sk : List Subkey) (text : List UInt8) (bound : Int) (n : Nat) {i : Nat}
    (buffer : List UInt8) (hle : bound ≤ i + 8 * n) (hlt : (i + 8 * n : Int) < bound + 8)
    (hmax : (i + 8 * n : Int) ≤ INT_MAX) :
    cryptLoop sk text bound i buffer = .ok (i + 8 * n, buffer ++ ecb sk n (text.drop i)) := by
  induction n generalizing i buffer with
  | zero =>
    rw [cryptLoop, if_neg (by omega), ecb, Cipher.blockwise, List.append_nil]
    rfl
  | succ n ih =>
    rw [cryptLoop, if_pos (by omega), if_neg (by omega),
      ih (buffer ++ desCrypt sk ((text.drop i).take 8)) (by omega) (by omega) (by omega)]
    have hi : i + 8 + 8 * n = i + 8 * (n + 1) := by omega
    rw [hi, List.append_assoc, ecb, ecb, Cipher.blockwise, List.drop_drop]

theorem cryptLoop_overflow (sk : List Subkey) (text : List UInt8) {bound : Int} {i : Nat}
    (buffer : List UInt8) (hi : (i : Int) ≤ INT_MAX) (hbound : INT_MAX < bound) :
    cryptLoop sk text bound i buffer = .error .undefined := by
  fun_induction cryptLoop sk text bound i buffer with
  | case1 i buffer hlt hover => rfl
  | case2 i buffer hlt hover ih => exact ih (by omega)
  | case3 i buffer hge => omega

/-! ### Padding -/

/-- The mode of the call is one of the two that there are. -/
def Supported (mode : Option Int) : Prop :=
  paddingMode mode = PADDING_MODE_ISO7816_4 ∨ paddingMode mode = PADDING_MODE_PKCS7

variable {mode : Option Int}

theorem checkPaddingMode_supported (h : Supported mode) :
    checkPaddingMode (paddingMode mode) = .ok () := by
  obtain h | h := h
  · rw [h]
    rfl
  · rw [h]
    rfl

theorem paddingAddFunc_length {mode : Int} {r : Nat} (hr : r < 8) :
    (paddingAddFunc mode r).length = 8 - r := by
  unfold paddingAddFunc
  split
  · rw [paddingAddIso7816_4, List.length_cons, List.length_replicate]
    omega
  · rw [paddingAddPkcs7, List.length_replicate]

theorem isoLoop_zeros (n k padding : Nat) (last : List UInt8) :
    isoLoop (n + k) padding (List.replicate k 0 ++ last) = isoLoop n (padding + k) last := by
  induction k generalizing padding with
  | zero => rfl
  | succ k ih =>
    rw [← Nat.add_assoc, List.replicate_succ, List.cons_append, isoLoop, if_pos rfl, ih]
    congr 1
    omega

theorem pkcs7Loop_same (p : UInt8) (n : Nat) (last : List UInt8) :
    pkcs7Loop p n (List.replicate n p ++ last) = .ok p.toNat := by
  induction n with
  | zero => rfl
  | succ n ih =>
    rw [List.replicate_succ, List.cons_append, pkcs7Loop, if_neg (not_not.mpr rfl), ih]

/-- The padding of a block is recognised, whatever comes before it. -/
theorem removePadding_add (h : Supported mode) {r : Nat} (hr : r < 8)
    (text : List UInt8) :
    removePadding (text ++ paddingAddFunc (paddingMode mode) r).reverse (paddingMode mode) =
      .ok (8 - r) := by
  rw [removePadding, checkPaddingMode_supported h, List.reverse_append]
  obtain h | h := h
  · have hn : 8 = r + 1 + (7 - r) := by omega
    have hloop : isoLoop 8 1 (List.replicate (7 - r) 0 ++ (0x80 :: text.reverse)) =
        .ok (8 - r) := by
      nth_rewrite 1 [hn]
      rw [isoLoop_zeros, isoLoop, if_neg (by decide), if_pos rfl]
      congr 1
      omega
    rw [h]
    simp only [paddingAddFunc, ite_true, paddingAddIso7816_4, List.reverse_cons,
      List.reverse_replicate, List.append_assoc]
    exact hloop
  · have hp : (UInt8.ofNat (8 - r)).toNat = 8 - r := by
      rw [UInt8.toNat_ofNat']
      omega
    have hsucc : 8 - r = (8 - r - 1) + 1 := by omega
    have hloop : paddingRemovePkcs7
        (List.replicate (8 - r) (UInt8.ofNat (8 - r)) ++ text.reverse) = .ok (8 - r) := by
      nth_rewrite 1 [hsucc]
      rw [List.replicate_succ, List.cons_append, paddingRemovePkcs7, hp, pkcs7Loop_same, hp]
    have hmode : ¬ PADDING_MODE_PKCS7 = PADDING_MODE_ISO7816_4 := by decide
    rw [h]
    simp only [paddingAddFunc, if_neg hmode, paddingAddPkcs7, List.reverse_replicate]
    exact hloop

variable {last : List UInt8}

theorem isoLoop_defined (n padding : Nat) (hlen : n ≤ last.length) :
    isoLoop n padding last ≠ .error .undefined := by
  induction n generalizing padding last with
  | zero => exact fun h => by cases h
  | succ n ih =>
    cases last with
    | nil => exact absurd hlen (by simp)
    | cons b last =>
      unfold isoLoop
      split
      · exact ih _ (Nat.le_of_succ_le_succ hlen)
      · split <;> exact fun h => by cases h

theorem pkcs7Loop_undefined (p : UInt8) (n : Nat) (last : List UInt8) :
    pkcs7Loop p n last = .error .undefined ↔
      last.length < n ∧ last = List.replicate last.length p := by
  induction n generalizing last with
  | zero => exact ⟨fun h => (by cases h), fun h => absurd h.1 (Nat.not_lt_zero _)⟩
  | succ n ih =>
    cases last with
    | nil => exact ⟨fun _ => ⟨Nat.succ_pos n, rfl⟩, fun _ => rfl⟩
    | cons b last =>
      rw [pkcs7Loop, List.length_cons, List.replicate_succ, List.cons.injEq]
      by_cases hb : b = p
      · rw [if_neg (not_not.mpr hb), ih]
        exact ⟨fun h => ⟨Nat.succ_lt_succ h.1, hb, h.2⟩, fun h => ⟨by omega, h.2.2⟩⟩
      · rw [if_pos hb]
        exact ⟨fun h => (by cases h), fun h => absurd h.2.1 hb⟩

theorem paddingRemovePkcs7_undefined (hlast : last ≠ []) :
    paddingRemovePkcs7 last = .error .undefined ↔
      ∃ p : UInt8, last.length < p.toNat ∧ last = List.replicate last.length p := by
  cases last with
  | nil => exact absurd rfl hlast
  | cons p last =>
    rw [paddingRemovePkcs7, pkcs7Loop_undefined, List.length_cons]
    constructor
    · rintro ⟨hlt, heq⟩
      refine ⟨p, by omega, ?_⟩
      rw [List.replicate_succ, ← heq]
    · rintro ⟨q, hlt, heq⟩
      rw [List.replicate_succ, List.cons.injEq] at heq
      obtain ⟨rfl, heq⟩ := heq
      exact ⟨by omega, heq⟩

/-! ### Texts -/

theorem toInt_of_le {n : Nat} (h : (n : Int) ≤ INT_MAX) : toInt n = n := by
  rw [INT_MAX] at h
  exact Int.bmod_eq_of_le (by omega) (by omega)

theorem addPadding_eq (h : Supported mode) {src : List UInt8}
    (hlen : src.length < 8) :
    addPadding src (toInt src.length) (paddingMode mode) =
      .ok (src ++ paddingAddFunc (paddingMode mode) src.length) := by
  rw [addPadding, checkPaddingMode_supported h, toInt_of_le (by rw [INT_MAX]; omega)]
  simp only [if_neg (show ¬ (src.length : Int) ≥ 8 by omega),
    if_neg (show ¬ (src.length : Int) < 0 by omega), Int.toNat_natCast, List.take_length]
  rfl

def padded (text : List UInt8) (mode : Option Int) : List UInt8 :=
  text ++ paddingAddFunc (paddingMode mode) (text.length % 8)

theorem padded_length (text : List UInt8) (mode : Option Int) :
    (padded text mode).length = (text.length / 8 + 1) * 8 := by
  rw [padded, List.length_append, paddingAddFunc_length (Nat.mod_lt _ (by decide))]
  omega

variable {key : List UInt8}

theorem ldesencode_eq (hkey : key.length = 8)
    (h : Supported mode) {text : List UInt8} (hlen : (text.length : Int) ≤ INT_MAX) :
    ldesencode key text mode =
      .ok (ecb (desMainKs key) (text.length / 8 + 1) (padded text mode)) := by
  have hn : text.length / 8 * 8 ≤ text.length := Nat.div_mul_le_self ..
  have hloop := cryptLoop_eq (desMainKs key) text (text.length - 7) (text.length / 8)
    (i := 0) [] (by omega) (by omega) (by omega)
  have htail : (text.drop (8 * (text.length / 8))).length = text.length % 8 := by
    rw [List.length_drop]
    omega
  have hmod : text.length % 8 < 8 := Nat.mod_lt _ (by decide)
  have hadd := addPadding_eq h (htail.trans_lt hmod)
  have hcipher : ecb (desMainKs key) (text.length / 8) text ++
        desCrypt (desMainKs key) (text.drop (8 * (text.length / 8)) ++
          paddingAddFunc (paddingMode mode) (text.length % 8)) =
      ecb (desMainKs key) (text.length / 8 + 1) (padded text mode) := by
    have hlast : (text.drop (8 * (text.length / 8)) ++
        paddingAddFunc (paddingMode mode) (text.length % 8)).length = 8 := by
      rw [List.length_append, htail, paddingAddFunc_length hmod]
      omega
    rw [padded, ← List.take_append_drop (text.length / 8 * 8) text, List.append_assoc,
      List.take_append_drop, ecb, ecb,
      Cipher.blockwise_append _ _ (List.length_take_of_le hn), Cipher.blockwise_take,
      Nat.mul_comm _ 8, Cipher.blockwise, Cipher.blockwise, List.append_nil,
      List.take_of_length_le hlast.le]
  have hsize : (ecb (desMainKs key) (text.length / 8 + 1) (padded text mode)).length =
      (text.length + 8) / 8 * 8 := by
    rw [ecb_length _ (padded_length text mode).ge]
    omega
  rw [htail] at hadd
  rw [List.nil_append, List.drop_zero, Nat.zero_add] at hloop
  simp only [ldesencode, desKey, if_neg (not_not.mpr hkey), toInt_of_le hlen,
    if_neg (show ¬ (text.length - 7 : Int) < INT_MIN by rw [INT_MIN]; omega), ok_bind, hloop,
    ← List.length_drop, htail, hadd, hcipher, hsize, lt_irrefl, if_false]
  rw [List.take_of_length_le hsize.le]
  rfl

theorem ldesdecode_eq (hkey : key.length = 8) (mode : Option Int)
    {cipher : List UInt8} {n : Nat} (hlen : cipher.length = (n + 1) * 8)
    (hmax : (cipher.length : Int) ≤ INT_MAX) :
    ldesdecode key cipher mode =
      withoutPadding (ecb (desMainKs key).reverse (n + 1) cipher) mode := by
  have hloop := cryptLoop_eq (desMainKs key).reverse cipher cipher.length (n + 1)
    (i := 0) [] (by omega) (by omega) (by omega)
  rw [List.nil_append, List.drop_zero] at hloop
  simp only [ldesdecode, desKey, if_neg (not_not.mpr hkey), ok_bind,
    decryptKeys_eq (desMainKs_length key),
    if_neg (show ¬ (cipher.length % 8 ≠ 0 ∨ cipher.length = 0) by omega), hloop]

theorem ldesdecode_overflow (hkey : key.length = 8) (mode : Option Int)
    {cipher : List UInt8} (hlen : cipher.length % 8 = 0) (hmax : INT_MAX < cipher.length) :
    ldesdecode key cipher mode = .error .undefined := by
  have hpos : ¬ (cipher.length % 8 ≠ 0 ∨ cipher.length = 0) := by
    rw [INT_MAX] at hmax
    omega
  simp only [ldesdecode, desKey, if_neg (not_not.mpr hkey), ok_bind, if_neg hpos,
    cryptLoop_overflow _ cipher [] (show ((0 : Nat) : Int) ≤ INT_MAX by decide) hmax]
  rfl

/-- Decoding gives the text back, and the cipher text is the next multiple of 8 longer. -/
def Recovers (key text : List UInt8) (mode : Option Int) : Prop :=
  ∃ cipher, ldesencode key text mode = .ok cipher ∧ cipher.length % 8 = 0 ∧
    text.length < cipher.length ∧ cipher.length ≤ text.length + 8 ∧
    ldesdecode key cipher mode = .ok text

theorem withoutPadding_padded (h : Supported mode) (text : List UInt8) :
    withoutPadding (padded text mode) mode = .ok text := by
  have hmod : text.length % 8 < 8 := Nat.mod_lt _ (by decide)
  have hremove := removePadding_add h hmod text
  have hlen : (padded text mode).length - (8 - text.length % 8) = text.length := by
    rw [padded_length]
    omega
  rw [withoutPadding, ← padded] at *
  simp only [hremove, ok_bind, if_neg (show ¬ (8 - text.length % 8 ≤ 0 ∨
    8 - text.length % 8 > 8) by omega), hlen]
  rw [padded, List.take_left' rfl]
  rfl

theorem recovers_iff (hkey : key.length = 8)
    (h : Supported mode) (text : List UInt8) :
    Recovers key text mode ↔ text.length + 8 < 2 ^ 31 := by
  constructor
  · rintro ⟨cipher, -, hmod, hlonger, -, hdecode⟩
    by_contra hlong
    have hmax : INT_MAX < cipher.length := by
      rw [INT_MAX]
      omega
    rw [ldesdecode_overflow hkey mode hmod hmax] at hdecode
    cases hdecode
  · intro hshort
    have hpadded := padded_length text mode
    have hlen := ecb_length (desMainKs key) hpadded.ge
    refine ⟨_, ldesencode_eq hkey h (by rw [INT_MAX]; omega), by omega, by omega, by omega, ?_⟩
    have hback : ecb (desMainKs key).reverse (text.length / 8 + 1)
        (ecb (desMainKs key) (text.length / 8 + 1) (padded text mode)) = padded text mode :=
      Cipher.blockwise_inverse (fun block _ => desCrypt_length _ block)
        (fun block hb => desCrypt_reverse (by rw [desMainKs_length]) hb) hpadded
    rw [ldesdecode_eq hkey mode hlen (by rw [hlen, INT_MAX]; omega), hback,
      withoutPadding_padded h]

/-! ### Forged texts -/

/-- Decoding reads nothing but what it decrypted, and gives that without 1 to 8 bytes at its end if
it gives anything. -/
def Safe (key cipher : List UInt8) (mode : Option Int) : Prop :=
  ldesdecode key cipher mode ≠ .error .undefined ∧
    ∀ text, ldesdecode key cipher mode = .ok text →
      ∃ padding, ecb (decryptKeys (desMainKs key)) (cipher.length / 8) cipher = text ++ padding ∧
        0 < padding.length ∧ padding.length ≤ 8

/-- The cipher text of a string of copies of one byte that is a larger number than there are
copies. -/
def Forged (key cipher : List UInt8) : Prop :=
  ∃ p : UInt8, cipher.length < p.toNat ∧
    cipher = ecb (desMainKs key) (cipher.length / 8) (List.replicate cipher.length p)

theorem removePadding_undefined (hlen : 8 ≤ last.length) (mode : Int) :
    removePadding last mode = .error .undefined ↔
      mode = PADDING_MODE_PKCS7 ∧
        ∃ p : UInt8, last.length < p.toNat ∧ last = List.replicate last.length p := by
  have hne : last ≠ [] := by
    rintro rfl
    exact absurd hlen (by decide)
  rw [removePadding, checkPaddingMode]
  by_cases hmode : mode < 0 ∨ mode ≥ PADDING_MODE_COUNT
  · rw [if_pos hmode]
    refine ⟨fun h => (by cases h), fun h => ?_⟩
    rw [h.1] at hmode
    exact absurd hmode (by decide)
  · rw [if_neg hmode, ok_bind]
    by_cases hiso : mode = PADDING_MODE_ISO7816_4
    · rw [if_pos hiso, hiso]
      exact ⟨fun h => absurd h (isoLoop_defined 8 1 hlen), fun h => absurd h.1 (by decide)⟩
    · have hpkcs7 : mode = PADDING_MODE_PKCS7 := by
        rw [PADDING_MODE_COUNT] at hmode
        rw [PADDING_MODE_ISO7816_4] at hiso
        rw [PADDING_MODE_PKCS7]
        omega
      rw [if_neg hiso, paddingRemovePkcs7_undefined hne]
      exact ⟨fun h => ⟨hpkcs7, h⟩, fun h => h.2⟩

theorem withoutPadding_undefined {buffer : List UInt8} (hlen : 8 ≤ buffer.length)
    (mode : Option Int) :
    withoutPadding buffer mode = .error .undefined ↔
      paddingMode mode = PADDING_MODE_PKCS7 ∧
        ∃ p : UInt8, buffer.length < p.toNat ∧ buffer = List.replicate buffer.length p := by
  have hremove := removePadding_undefined (hlen.trans_eq List.length_reverse.symm)
    (paddingMode mode)
  simp only [List.length_reverse, List.reverse_eq_iff, List.reverse_replicate] at hremove
  rw [← hremove, withoutPadding]
  cases removePadding buffer.reverse (paddingMode mode) with
  | error e =>
    refine ⟨fun h => ?_, fun h => ?_⟩
    · injection h with h
      rw [h]
    · injection h with h
      rw [h]
      rfl
  | ok padding =>
    rw [ok_bind]
    refine ⟨fun h => ?_, fun h => by cases h⟩
    split at h <;> cases h

theorem withoutPadding_prefix {buffer text : List UInt8} (hlen : 8 ≤ buffer.length)
    (h : withoutPadding buffer mode = .ok text) :
    ∃ padding, buffer = text ++ padding ∧ 0 < padding.length ∧ padding.length ≤ 8 := by
  rw [withoutPadding] at h
  cases hremove : removePadding buffer.reverse (paddingMode mode) with
  | error e =>
    rw [hremove] at h
    cases h
  | ok padding =>
    rw [hremove, ok_bind] at h
    by_cases hbad : padding ≤ 0 ∨ padding > 8
    · rw [if_pos hbad] at h
      cases h
    · rw [if_neg hbad] at h
      injection h with h
      refine ⟨buffer.drop (buffer.length - padding), ?_, ?_, ?_⟩
      · rw [← h, List.take_append_drop]
      · rw [List.length_drop]
        omega
      · rw [List.length_drop]
        omega

theorem forged_iff {key cipher : List UInt8} (hmod : cipher.length % 8 = 0) {p : UInt8} :
    ecb (desMainKs key).reverse (cipher.length / 8) cipher = List.replicate cipher.length p ↔
      cipher = ecb (desMainKs key) (cipher.length / 8) (List.replicate cipher.length p) := by
  have heven : (desMainKs key).length % 2 = 0 := by rw [desMainKs_length]
  have hrev : (desMainKs key).reverse.length % 2 = 0 := by rw [List.length_reverse, heven]
  have hlen : cipher.length = cipher.length / 8 * 8 := by omega
  constructor
  · intro h
    rw [← h]
    refine (Cipher.blockwise_inverse (fun block _ => desCrypt_length _ block)
      (fun block hb => ?_) hlen).symm
    have hback := desCrypt_reverse hrev hb
    rwa [List.reverse_reverse] at hback
  · intro h
    have hcopies : (List.replicate cipher.length p).length = cipher.length / 8 * 8 := by
      rw [List.length_replicate, ← hlen]
    calc ecb (desMainKs key).reverse (cipher.length / 8) cipher
        = ecb (desMainKs key).reverse (cipher.length / 8)
            (ecb (desMainKs key) (cipher.length / 8) (List.replicate cipher.length p)) :=
          congrArg _ h
      _ = List.replicate cipher.length p :=
          Cipher.blockwise_inverse (fun block _ => desCrypt_length _ block)
            (fun block hb => desCrypt_reverse heven hb) hcopies

/-- What a cipher text has to be for its decoding to be safe. -/
def Harmless (key cipher : List UInt8) (mode : Option Int) : Prop :=
  key.length = 8 → cipher.length % 8 = 0 → cipher ≠ [] →
    cipher.length < 2 ^ 31 ∧ (paddingMode mode = PADDING_MODE_PKCS7 → ¬ Forged key cipher)

theorem safe_iff (key cipher : List UInt8) (mode : Option Int) :
    Safe key cipher mode ↔ Harmless key cipher mode := by
  by_cases hkey : key.length = 8
  swap
  · have herror : ldesdecode key cipher mode =
        .error (.error s!"Invalid key size {toInt key.length}, need 8 bytes") := by
      simp only [ldesdecode, desKey, if_pos hkey]
      rfl
    refine ⟨fun _ h => absurd h hkey, fun _ => ?_⟩
    rw [Safe, herror]
    exact ⟨fun h => (by cases h), fun _ h => (by cases h)⟩
  by_cases hbad : cipher.length % 8 ≠ 0 ∨ cipher.length = 0
  · have herror : ldesdecode key cipher mode =
        .error (.error s!"Invalid des crypt text length {toInt cipher.length}") := by
      simp only [ldesdecode, desKey, if_neg (not_not.mpr hkey), ok_bind, if_pos hbad]
      rfl
    refine ⟨fun _ _ hmod hne => ?_, fun _ => ?_⟩
    · exact (hbad.elim (· hmod) (hne ∘ List.length_eq_zero_iff.mp)).elim
    · rw [Safe, herror]
      exact ⟨fun h => (by cases h), fun _ h => (by cases h)⟩
  have hmod : cipher.length % 8 = 0 := by omega
  have hne : cipher ≠ [] := fun h => hbad (.inr (List.length_eq_zero_iff.mpr h))
  by_cases hlong : INT_MAX < cipher.length
  · rw [Safe, ldesdecode_overflow hkey mode hmod hlong]
    refine ⟨fun h => absurd rfl h.1, fun h => ?_⟩
    have := (h hkey hmod hne).1
    rw [INT_MAX] at hlong
    omega
  · obtain ⟨n, hn⟩ : ∃ n, cipher.length = (n + 1) * 8 := ⟨cipher.length / 8 - 1, by omega⟩
    have hdiv : n + 1 = cipher.length / 8 := by omega
    have hplain := ecb_length (desMainKs key).reverse hn.ge
    have hdecode := ldesdecode_eq hkey mode hn (not_lt.mp hlong)
    have hundefined := withoutPadding_undefined (hplain.trans_ge (by omega)) mode
    have hshort : cipher.length < 2 ^ 31 := by
      rw [INT_MAX] at hlong
      omega
    rw [hplain, ← hn, hdiv] at hundefined
    simp only [forged_iff hmod] at hundefined
    rw [hdiv] at hdecode hplain
    rw [Safe, decryptKeys_eq (desMainKs_length key), hdecode]
    constructor
    · rintro ⟨hdefined, -⟩ - - -
      exact ⟨hshort, fun hmode hforged => hdefined (hundefined.mpr ⟨hmode, hforged⟩)⟩
    · intro h
      refine ⟨fun hbad => ?_, fun text htext => withoutPadding_prefix (by omega) htext⟩
      obtain ⟨hmode, hforged⟩ := hundefined.mp hbad
      exact (h hkey hmod hne).2 hmode hforged

/-- Exactly the texts shorter than `2^31 - 8` bytes come back from their cipher text, and exactly
the cipher texts that are shorter than `2^31` bytes, and not forged if the padding is that of
PKCS7, are decoded within what was decrypted. -/
theorem des_correct_iff (key : List UInt8) (mode : Option Int) :
    (∀ text, key.length = 8 → Supported mode →
      (Recovers key text mode ↔ text.length + 8 < 2 ^ 31)) ∧
    ∀ cipher, Safe key cipher mode ↔ Harmless key cipher mode :=
  ⟨fun text hkey h => recovers_iff hkey h text, fun cipher => safe_iff key cipher mode⟩

/-- A text of one byte under the key of eight zeros. -/
theorem des_correct_iff_zeros :
    Recovers (List.replicate 8 0) [7] none ∧
      Safe (List.replicate 8 0) [1, 2, 3, 4, 5, 6, 7, 8] none :=
  ⟨((des_correct_iff (List.replicate 8 0) none).1 [7] rfl (.inl rfl)).mpr (by decide),
    ((des_correct_iff (List.replicate 8 0) none).2 [1, 2, 3, 4, 5, 6, 7, 8]).mpr
      fun _ _ _ => ⟨by decide, fun h => absurd h (by decide)⟩⟩

/-- Eight bytes 255 under the key of eight zeros: the padding of 255 bytes is looked for in front of
the buffer. -/
theorem forged_unsafe :
    ¬ Safe (List.replicate 8 0) [53, 85, 80, 178, 21, 14, 36, 81] (some PADDING_MODE_PKCS7) := by
  rw [safe_iff]
  intro h
  exact (h rfl rfl (by decide)).2 rfl ⟨255, by decide, by decide +kernel⟩

end XsServer.Crypt.DesText
