import XsServer.Lib.Bytes
import XsServer.Lib.Cipher

/-! The DES block cipher of `lua-crypt.c`: its tables, the key schedule and one block. -/

namespace XsServer.Crypt.Des

open XsServer.Lib

abbrev Word := BitVec 32

/-! ### Tables -/

def sb1 : Vector Word 64 := #v[
  0x01010400, 0x00000000, 0x00010000, 0x01010404, 0x01010004, 0x00010404, 0x00000004, 0x00010000,
  0x00000400, 0x01010400, 0x01010404, 0x00000400, 0x01000404, 0x01010004, 0x01000000, 0x00000004,
  0x00000404, 0x01000400, 0x01000400, 0x00010400, 0x00010400, 0x01010000, 0x01010000, 0x01000404,
  0x00010004, 0x01000004, 0x01000004, 0x00010004, 0x00000000, 0x00000404, 0x00010404, 0x01000000,
  0x00010000, 0x01010404, 0x00000004, 0x01010000, 0x01010400, 0x01000000, 0x01000000, 0x00000400,
  0x01010004, 0x00010000, 0x00010400, 0x01000004, 0x00000400, 0x00000004, 0x01000404, 0x00010404,
  0x01010404, 0x00010004, 0x01010000, 0x01000404, 0x01000004, 0x00000404, 0x00010404, 0x01010400,
  0x00000404, 0x01000400, 0x01000400, 0x00000000, 0x00010004, 0x00010400, 0x00000000, 0x01010004]

def sb2 : Vector Word 64 := #v[
  0x80108020, 0x80008000, 0x00008000, 0x00108020, 0x00100000, 0x00000020, 0x80100020, 0x80008020,
  0x80000020, 0x80108020, 0x80108000, 0x80000000, 0x80008000, 0x00100000, 0x00000020, 0x80100020,
  0x00108000, 0x00100020, 0x80008020, 0x00000000, 0x80000000, 0x00008000, 0x00108020, 0x80100000,
  0x00100020, 0x80000020, 0x00000000, 0x00108000, 0x00008020, 0x80108000, 0x80100000, 0x00008020,
  0x00000000, 0x00108020, 0x80100020, 0x00100000, 0x80008020, 0x80100000, 0x80108000, 0x00008000,
  0x80100000, 0x80008000, 0x00000020, 0x80108020, 0x00108020, 0x00000020, 0x00008000, 0x80000000,
  0x00008020, 0x80108000, 0x00100000, 0x80000020, 0x00100020, 0x80008020, 0x80000020, 0x00100020,
  0x00108000, 0x00000000, 0x80008000, 0x00008020, 0x80000000, 0x80100020, 0x80108020, 0x00108000]

def sb3 : Vector Word 64 := #v[
  0x00000208, 0x08020200, 0x00000000, 0x08020008, 0x08000200, 0x00000000, 0x00020208, 0x08000200,
  0x00020008, 0x08000008, 0x08000008, 0x00020000, 0x08020208, 0x00020008, 0x08020000, 0x00000208,
  0x08000000, 0x00000008, 0x08020200, 0x00000200, 0x00020200, 0x08020000, 0x08020008, 0x00020208,
  0x08000208, 0x00020200, 0x00020000, 0x08000208, 0x00000008, 0x08020208, 0x00000200, 0x08000000,
  0x08020200, 0x08000000, 0x00020008, 0x00000208, 0x00020000, 0x08020200, 0x08000200, 0x00000000,
  0x00000200, 0x00020008, 0x08020208, 0x08000200, 0x08000008, 0x00000200, 0x00000000, 0x08020008,
  0x08000208, 0x00020000, 0x08000000, 0x08020208, 0x00000008, 0x00020208, 0x00020200, 0x08000008,
  0x08020000, 0x08000208, 0x00000208, 0x08020000, 0x00020208, 0x00000008, 0x08020008, 0x00020200]

def sb4 : Vector Word 64 := #v[
  0x00802001, 0x00002081, 0x00002081, 0x00000080, 0x00802080, 0x00800081, 0x00800001, 0x00002001,
  0x00000000, 0x00802000, 0x00802000, 0x00802081, 0x00000081, 0x00000000, 0x00800080, 0x00800001,
  0x00000001, 0x00002000, 0x00800000, 0x00802001, 0x00000080, 0x00800000, 0x00002001, 0x00002080,
  0x00800081, 0x00000001, 0x00002080, 0x00800080, 0x00002000, 0x00802080, 0x00802081, 0x00000081,
  0x00800080, 0x00800001, 0x00802000, 0x00802081, 0x00000081, 0x00000000, 0x00000000, 0x00802000,
  0x00002080, 0x00800080, 0x00800081, 0x00000001, 0x00802001, 0x00002081, 0x00002081, 0x00000080,
  0x00802081, 0x00000081, 0x00000001, 0x00002000, 0x00800001, 0x00002001, 0x00802080, 0x00800081,
  0x00002001, 0x00002080, 0x00800000, 0x00802001, 0x00000080, 0x00800000, 0x00002000, 0x00802080]

def sb5 : Vector Word 64 := #v[
  0x00000100, 0x02080100, 0x02080000, 0x42000100, 0x00080000, 0x00000100, 0x40000000, 0x02080000,
  0x40080100, 0x00080000, 0x02000100, 0x40080100, 0x42000100, 0x42080000, 0x00080100, 0x40000000,
  0x02000000, 0x40080000, 0x40080000, 0x00000000, 0x40000100, 0x42080100, 0x42080100, 0x02000100,
  0x42080000, 0x40000100, 0x00000000, 0x42000000, 0x02080100, 0x02000000, 0x42000000, 0x00080100,
  0x00080000, 0x42000100, 0x00000100, 0x02000000, 0x40000000, 0x02080000, 0x42000100, 0x40080100,
  0x02000100, 0x40000000, 0x42080000, 0x02080100, 0x40080100, 0x00000100, 0x02000000, 0x42080000,
  0x42080100, 0x00080100, 0x42000000, 0x42080100, 0x02080000, 0x00000000, 0x40080000, 0x42000000,
  0x00080100, 0x02000100, 0x40000100, 0x00080000, 0x00000000, 0x40080000, 0x02080100, 0x40000100]

def sb6 : Vector Word 64 := #v[
  0x20000010, 0x20400000, 0x00004000, 0x20404010, 0x20400000, 0x00000010, 0x20404010, 0x00400000,
  0x20004000, 0x00404010, 0x00400000, 0x20000010, 0x00400010, 0x20004000, 0x20000000, 0x00004010,
  0x00000000, 0x00400010, 0x20004010, 0x00004000, 0x00404000, 0x20004010, 0x00000010, 0x20400010,
  0x20400010, 0x00000000, 0x00404010, 0x20404000, 0x00004010, 0x00404000, 0x20404000, 0x20000000,
  0x20004000, 0x00000010, 0x20400010, 0x00404000, 0x20404010, 0x00400000, 0x00004010, 0x20000010,
  0x00400000, 0x20004000, 0x20000000, 0x00004010, 0x20000010, 0x20404010, 0x00404000, 0x20400000,
  0x00404010, 0x20404000, 0x00000000, 0x20400010, 0x00000010, 0x00004000, 0x20400000, 0x00404010,
  0x00004000, 0x00400010, 0x20004010, 0x00000000, 0x20404000, 0x20000000, 0x00400010, 0x20004010]

def sb7 : Vector Word 64 := #v[
  0x00200000, 0x04200002, 0x04000802, 0x00000000, 0x00000800, 0x04000802, 0x00200802, 0x04200800,
  0x04200802, 0x00200000, 0x00000000, 0x04000002, 0x00000002, 0x04000000, 0x04200002, 0x00000802,
  0x04000800, 0x00200802, 0x00200002, 0x04000800, 0x04000002, 0x04200000, 0x04200800, 0x00200002,
  0x04200000, 0x00000800, 0x00000802, 0x04200802, 0x00200800, 0x00000002, 0x04000000, 0x00200800,
  0x04000000, 0x00200800, 0x00200000, 0x04000802, 0x04000802, 0x04200002, 0x04200002, 0x00000002,
  0x00200002, 0x04000000, 0x04000800, 0x00200000, 0x04200800, 0x00000802, 0x00200802, 0x04200800,
  0x00000802, 0x04000002, 0x04200802, 0x04200000, 0x00200800, 0x00000000, 0x00000002, 0x04200802,
  0x00000000, 0x00200802, 0x04200000, 0x00000800, 0x04000002, 0x04000800, 0x00000800, 0x00200002]

def sb8 : Vector Word 64 := #v[
  0x10001040, 0x00001000, 0x00040000, 0x10041040, 0x10000000, 0x10001040, 0x00000040, 0x10000000,
  0x00040040, 0x10040000, 0x10041040, 0x00041000, 0x10041000, 0x00041040, 0x00001000, 0x00000040,
  0x10040000, 0x10000040, 0x10001000, 0x00001040, 0x00041000, 0x00040040, 0x10040040, 0x10041000,
  0x00001040, 0x00000000, 0x00000000, 0x10040040, 0x10000040, 0x10001000, 0x00041040, 0x00040000,
  0x00041040, 0x00040000, 0x10041000, 0x00001000, 0x00000040, 0x10040040, 0x00001000, 0x00041040,
  0x10001000, 0x00000040, 0x10000040, 0x10040000, 0x10040040, 0x10000000, 0x00040000, 0x10001040,
  0x00000000, 0x10041040, 0x00040040, 0x10000040, 0x10040000, 0x10001000, 0x10001040, 0x00000000,
  0x10041040, 0x00041000, 0x00041000, 0x00001040, 0x00001040, 0x00040040, 0x10000000, 0x10041000]

def lhs : Vector Word 16 := #v[
  0x00000000, 0x00000001, 0x00000100, 0x00000101, 0x00010000, 0x00010001, 0x00010100, 0x00010101,
  0x01000000, 0x01000001, 0x01000100, 0x01000101, 0x01010000, 0x01010001, 0x01010100, 0x01010101]

def rhs : Vector Word 16 := #v[
  0x00000000, 0x01000000, 0x00010000, 0x01010000, 0x00000100, 0x01000100, 0x00010100, 0x01010100,
  0x00000001, 0x01000001, 0x00010001, 0x01010001, 0x00000101, 0x01000101, 0x00010101, 0x01010101]

/-- The entry of a table that six bits of a word select. -/
def select (sb : Vector Word 64) (t : Word) (shift : Nat) : Word :=
  sb.get ⟨((t >>> shift) &&& 0x3F).toNat, by
    rw [BitVec.toNat_and]
    exact Nat.lt_of_le_of_lt Nat.and_le_right (by decide)⟩

/-- The entry of a table that four bits of a word select. -/
def nibble (hs : Vector Word 16) (t : Word) (shift : Nat) : Word :=
  hs.get ⟨((t >>> shift) &&& 0xF).toNat, by
    rw [BitVec.toNat_and]
    exact Nat.lt_of_le_of_lt Nat.and_le_right (by decide)⟩

/-! ### One block -/

/-- `GET_UINT32`. -/
def getUint32 (b : List UInt8) (i : Nat) : Word :=
  BitVec.ofNat 32 (Bytes.ofBe ((b.drop i).take 4))

/-- `PUT_UINT32`. -/
def putUint32 (n : Word) : List UInt8 := Bytes.be 4 n.toNat

/-- `DES_IP`; an exchange is `T = ((X >> k) ^ Y) & mask; Y ^= T; X ^= (T << k);`. -/
def desIp (x y : Word) : Word × Word :=
  let (x, y) := Cipher.exchange 4 0x0F0F0F0F (x, y)
  let (x, y) := Cipher.exchange 16 0x0000FFFF (x, y)
  let (y, x) := Cipher.exchange 2 0x33333333 (y, x)
  let (y, x) := Cipher.exchange 8 0x00FF00FF (y, x)
  let y := ((y <<< 1) ||| (y >>> 31)) &&& 0xFFFFFFFF
  let (x, y) := Cipher.exchange 0 0xAAAAAAAA (x, y)
  let x := ((x <<< 1) ||| (x >>> 31)) &&& 0xFFFFFFFF
  (x, y)

/-- `DES_FP`. -/
def desFp (x y : Word) : Word × Word :=
  let x := ((x <<< 31) ||| (x >>> 1)) &&& 0xFFFFFFFF
  let (x, y) := Cipher.exchange 0 0xAAAAAAAA (x, y)
  let y := ((y <<< 31) ||| (y >>> 1)) &&& 0xFFFFFFFF
  let (y, x) := Cipher.exchange 8 0x00FF00FF (y, x)
  let (y, x) := Cipher.exchange 2 0x33333333 (y, x)
  let (x, y) := Cipher.exchange 16 0x0000FFFF (x, y)
  let (x, y) := Cipher.exchange 4 0x0F0F0F0F (x, y)
  (x, y)

/-- The two words of `SK` that a round takes. -/
abbrev Subkey := Word × Word

/-- What `DES_ROUND(X, Y)` mixes into `Y`. -/
def desRound (sk : Subkey) (x : Word) : Word :=
  let t := sk.1 ^^^ x
  let y := select sb8 t 0 ^^^ select sb6 t 8 ^^^ select sb4 t 16 ^^^ select sb2 t 24
  let t := sk.2 ^^^ ((x <<< 28) ||| (x >>> 4))
  y ^^^ (select sb7 t 0 ^^^ select sb5 t 8 ^^^ select sb3 t 16 ^^^ select sb1 t 24)

/-- `X` and `Y` after `DES_ROUND( Y, X )` and `DES_ROUND( X, Y )` in turn, as long as there are
subkeys. -/
def desRounds : List Subkey → Word → Word → Word × Word
  | sk :: sk' :: sks, x, y =>
    let x := x ^^^ desRound sk y
    let y := y ^^^ desRound sk' x
    desRounds sks x y
  | _, x, y => (x, y)

/-- `des_crypt`, on the 8 bytes of a block. -/
def desCrypt (sk : List Subkey) (input : List UInt8) : List UInt8 :=
  let (x, y) := desIp (getUint32 input 0) (getUint32 input 4)
  let (x, y) := desRounds sk x y
  let (y, x) := desFp y x
  putUint32 y ++ putUint32 x

/-- The subkeys of the rounds from `i` on. -/
def mainKsLoop : List Nat → Word → Word → List Subkey
  | [], _, _ => []
  | i :: is, x, y =>
    let once := i < 2 ∨ i = 8 ∨ i = 15
    let x := (if once then (x <<< 1) ||| (x >>> 27) else (x <<< 2) ||| (x >>> 26)) &&& 0x0FFFFFFF
    let y := (if once then (y <<< 1) ||| (y >>> 27) else (y <<< 2) ||| (y >>> 26)) &&& 0x0FFFFFFF
    let k1 :=
      ((x <<< 4) &&& 0x24000000) ||| ((x <<< 28) &&& 0x10000000) ||| ((x <<< 14) &&& 0x08000000) |||
      ((x <<< 18) &&& 0x02080000) ||| ((x <<< 6) &&& 0x01000000) ||| ((x <<< 9) &&& 0x00200000) |||
      ((x >>> 1) &&& 0x00100000) ||| ((x <<< 10) &&& 0x00040000) ||| ((x <<< 2) &&& 0x00020000) |||
      ((x >>> 10) &&& 0x00010000) ||| ((y >>> 13) &&& 0x00002000) ||| ((y >>> 4) &&& 0x00001000) |||
      ((y <<< 6) &&& 0x00000800) ||| ((y >>> 1) &&& 0x00000400) ||| ((y >>> 14) &&& 0x00000200) |||
      (y &&& 0x00000100) ||| ((y >>> 5) &&& 0x00000020) ||| ((y >>> 10) &&& 0x00000010) |||
      ((y >>> 3) &&& 0x00000008) ||| ((y >>> 18) &&& 0x00000004) ||| ((y >>> 26) &&& 0x00000002) |||
      ((y >>> 24) &&& 0x00000001)
    let k2 :=
      ((x <<< 15) &&& 0x20000000) ||| ((x <<< 17) &&& 0x10000000) |||
        ((x <<< 10) &&& 0x08000000) |||
      ((x <<< 22) &&& 0x04000000) ||| ((x >>> 2) &&& 0x02000000) ||| ((x <<< 1) &&& 0x01000000) |||
      ((x <<< 16) &&& 0x00200000) ||| ((x <<< 11) &&& 0x00100000) ||| ((x <<< 3) &&& 0x00080000) |||
      ((x >>> 6) &&& 0x00040000) ||| ((x <<< 15) &&& 0x00020000) ||| ((x >>> 4) &&& 0x00010000) |||
      ((y >>> 2) &&& 0x00002000) ||| ((y <<< 8) &&& 0x00001000) ||| ((y >>> 14) &&& 0x00000808) |||
      ((y >>> 9) &&& 0x00000400) ||| (y &&& 0x00000200) ||| ((y <<< 7) &&& 0x00000100) |||
      ((y >>> 7) &&& 0x00000020) ||| ((y >>> 3) &&& 0x00000011) ||| ((y <<< 2) &&& 0x00000004) |||
      ((y >>> 21) &&& 0x00000002)
    (k1, k2) :: mainKsLoop is x y

/-- `des_main_ks`. -/
def desMainKs (key : List UInt8) : List Subkey :=
  let x := getUint32 key 0
  let y := getUint32 key 4
  let (y, x) := Cipher.exchange 4 0x0F0F0F0F (y, x)
  let (y, x) := Cipher.exchange 0 0x10101010 (y, x)
  let x := (nibble lhs x 0 <<< 3) ||| (nibble lhs x 8 <<< 2) |||
    (nibble lhs x 16 <<< 1) ||| nibble lhs x 24 |||
    (nibble lhs x 5 <<< 7) ||| (nibble lhs x 13 <<< 6) |||
    (nibble lhs x 21 <<< 5) ||| (nibble lhs x 29 <<< 4)
  let y := (nibble rhs y 1 <<< 3) ||| (nibble rhs y 9 <<< 2) |||
    (nibble rhs y 17 <<< 1) ||| nibble rhs y 25 |||
    (nibble rhs y 4 <<< 7) ||| (nibble rhs y 12 <<< 6) |||
    (nibble rhs y 20 <<< 5) ||| (nibble rhs y 28 <<< 4)
  mainKsLoop (List.range 16) (x &&& 0x0FFFFFFF) (y &&& 0x0FFFFFFF)

/-! ### A block back from its cipher -/

theorem putUint32_length (n : Word) : (putUint32 n).length = 4 := Bytes.be_length ..

def halves (block : List UInt8) : Word × Word := (getUint32 block 0, getUint32 block 4)

def joined (s : Word × Word) : List UInt8 := putUint32 s.1 ++ putUint32 s.2

theorem halves_joined (s : Word × Word) : halves (joined s) = s := by
  have hback : ∀ n : Word, BitVec.ofNat 32 (Bytes.ofBe (putUint32 n)) = n := by
    intro n
    rw [putUint32, Bytes.ofBe_be, Nat.mod_eq_of_lt (by exact n.isLt), BitVec.ofNat_toNat]
    exact BitVec.setWidth_eq n
  have hfirst : getUint32 (joined s) 0 = s.1 := by
    rw [getUint32, joined, List.drop_zero, List.take_left' (putUint32_length s.1), hback]
  have hsecond : getUint32 (joined s) 4 = s.2 := by
    rw [getUint32, joined, List.drop_left' (putUint32_length s.1),
      List.take_of_length_le (putUint32_length s.2).le, hback]
  rw [halves, hfirst, hsecond]

theorem joined_halves {block : List UInt8} (hlen : block.length = 8) :
    joined (halves block) = block := by
  have hback : ∀ bytes : List UInt8, bytes.length = 4 →
      putUint32 (BitVec.ofNat 32 (Bytes.ofBe bytes)) = bytes := by
    intro bytes h
    have hlt := Bytes.ofBe_lt bytes
    rw [h] at hlt
    rw [putUint32, BitVec.toNat_ofNat, Nat.mod_eq_of_lt (by exact hlt), ← h, Bytes.be_ofBe]
  have htail : (block.drop 4).length = 4 := by
    rw [List.length_drop]
    omega
  have hhead : (block.take 4).length = 4 := List.length_take_of_le (by omega)
  rw [joined, halves, getUint32, getUint32, List.drop_zero, hback _ hhead,
    List.take_of_length_le htail.le, hback _ htail, List.take_append_drop]

theorem and_ones (x : Word) : x &&& 0xFFFFFFFF = x := BitVec.and_allOnes

/-- The initial permutation, of which the final one is the inverse. -/
def ip : Equiv.Perm (Word × Word) :=
  (Cipher.exchangePerm 4 0x0F0F0F0F rfl).trans <|
  (Cipher.exchangePerm 16 0x0000FFFF rfl).trans <|
  (Equiv.prodComm Word Word).trans <|
  (Cipher.exchangePerm 2 0x33333333 rfl).trans <|
  (Cipher.exchangePerm 8 0x00FF00FF rfl).trans <|
  (Equiv.prodComm Word Word).trans <|
  (Equiv.prodCongr (Equiv.refl Word) (Cipher.rotatePerm 1 31 rfl)).trans <|
  (Cipher.exchangePerm 0 0xAAAAAAAA rfl).trans <|
  Equiv.prodCongr (Cipher.rotatePerm 1 31 rfl) (Equiv.refl Word)

theorem desIp_eq (x y : Word) : desIp x y = ip (x, y) := by
  simp only [desIp, and_ones]
  rfl

theorem desFp_eq (x y : Word) : desFp x y = ip.symm (x, y) := by
  simp only [desFp, and_ones]
  rfl

theorem desRounds_eq {sks : List Subkey} (heven : sks.length % 2 = 0) (x y : Word) :
    desRounds sks x y = (Cipher.rounds (· ^^^ ·) desRound sks (y, x)).swap := by
  fun_induction desRounds sks x y with
  | case1 sk sk' sks x y x' y' ih =>
    rw [List.length_cons, List.length_cons] at heven
    rw [ih (by omega)]
    rfl
  | case2 sks x y h =>
    match sks with
    | [] => rfl
    | [_] => simp at heven
    | a :: b :: l => exact absurd rfl (h a b l)

theorem desCrypt_eq {sk : List Subkey} (heven : sk.length % 2 = 0) (block : List UInt8) :
    desCrypt sk block =
      joined (ip.symm (Cipher.rounds (· ^^^ ·) desRound sk (ip (halves block)).swap)) := by
  simp only [desCrypt, desIp_eq, desFp_eq, desRounds_eq heven]
  rfl

theorem desCrypt_length (sk : List Subkey) (block : List UInt8) :
    (desCrypt sk block).length = 8 := by
  simp only [desCrypt, List.length_append, putUint32_length]

theorem desCrypt_reverse {sk : List Subkey} (heven : sk.length % 2 = 0) {block : List UInt8}
    (hlen : block.length = 8) : desCrypt sk.reverse (desCrypt sk block) = block := by
  have hrev : sk.reverse.length % 2 = 0 := by rw [List.length_reverse, heven]
  have hxor : ∀ a b : Word, a ^^^ b ^^^ b = a := fun a b => by
    rw [BitVec.xor_assoc, BitVec.xor_self, BitVec.xor_zero]
  rw [desCrypt_eq hrev, desCrypt_eq heven, halves_joined, Equiv.apply_symm_apply,
    Cipher.rounds_reverse desRound hxor, Prod.swap_swap, Equiv.symm_apply_apply,
    joined_halves hlen]

theorem mainKsLoop_length (is : List Nat) (x y : Word) :
    (mainKsLoop is x y).length = is.length := by
  induction is generalizing x y with
  | nil => rfl
  | cons i is ih => rw [mainKsLoop, List.length_cons, List.length_cons, ih]

theorem desMainKs_length (key : List UInt8) : (desMainKs key).length = 16 := by
  rw [desMainKs, mainKsLoop_length, List.length_range]

end XsServer.Crypt.Des
