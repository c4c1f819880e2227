import Mathlib.Data.List.Basic
import Mathlib.Tactic.Ring

/-! Pieces of block ciphers: rounds that mix one half into the other, permutations of the bits of
words, and a cipher applied block by block. -/

namespace XsServer.Lib.Cipher

section Rounds

variable {α κ : Type} (mix : α → α → α) (f : κ → α → α)

/-- A round mixes a function of the first half into the second; then the halves change places. -/
def round (s : α × α) (k : κ) : α × α := (mix s.2 (f k s.1), s.1)

def rounds (ks : List κ) (s : α × α) : α × α := ks.foldl (round mix f) s

variable {mix}

/-- The round with the same key undoes a round, seen with the halves exchanged. -/
theorem round_round (hmix : ∀ a b, mix (mix a b) b = a) (s : α × α) (k : κ) :
    round mix f (round mix f s k).swap k = s.swap := by
  change (mix (mix s.2 (f k s.1)) (f k s.1), s.1) = (s.2, s.1)
  rw [hmix]

/-- The rounds undo themselves with the keys in the opposite order. -/
theorem rounds_reverse (hmix : ∀ a b, mix (mix a b) b = a) (ks : List κ) (s : α × α) :
    rounds mix f ks.reverse (rounds mix f ks s).swap = s.swap := by
  induction ks generalizing s with
  | nil => rfl
  | cons k ks ih =>
    have htail := ih (round mix f s k)
    simp only [rounds, List.reverse_cons, List.foldl_append, List.foldl_cons,
      List.foldl_nil] at htail ⊢
    rw [htail, round_round f hmix]

end Rounds

section Bits

variable {w : Nat}

/-- Bits of `y` under the mask against the bits of `x` that lie `k` places higher. -/
def exchange (k : Nat) (mask : BitVec w) (s : BitVec w × BitVec w) : BitVec w × BitVec w :=
  let t := ((s.1 >>> k) ^^^ s.2) &&& mask
  (s.1 ^^^ (t <<< k), s.2 ^^^ t)

theorem masked_shift {k : Nat} {mask : BitVec w} (hmask : mask <<< k >>> k = mask)
    (t : BitVec w) : (t &&& mask) <<< k >>> k = t &&& mask := by
  rw [BitVec.shiftLeft_and_distrib, BitVec.ushiftRight_and_distrib, hmask]
  ext i hi
  have hbit := congrArg (·.getLsbD i) hmask
  simp only [BitVec.getLsbD_ushiftRight, BitVec.getLsbD_shiftLeft] at hbit
  simp only [BitVec.getElem_and, BitVec.getElem_ushiftRight, BitVec.getLsbD_shiftLeft]
  by_cases hk : k + i < w
  · simp [hk, BitVec.getLsbD_eq_getElem hi]
  · simp_all

/-- What an exchange moves is the same before and after it, so it undoes itself. -/
theorem exchange_exchange {k : Nat} {mask : BitVec w} (hmask : mask <<< k >>> k = mask)
    (s : BitVec w × BitVec w) : exchange k mask (exchange k mask s) = s := by
  obtain ⟨x, y⟩ := s
  have hmoved : ∀ t, (((x ^^^ (t &&& mask) <<< k) >>> k) ^^^ (y ^^^ (t &&& mask))) &&& mask =
      ((x >>> k) ^^^ y) &&& mask := by
    intro t
    rw [BitVec.ushiftRight_xor_distrib, masked_shift hmask]
    congr 1
    rw [BitVec.xor_assoc, BitVec.xor_comm y, ← BitVec.xor_assoc (t &&& mask), BitVec.xor_self,
      BitVec.zero_xor]
  simp only [exchange, hmoved, BitVec.xor_assoc, BitVec.xor_self, BitVec.xor_zero]

/-- A rotation by `k` places undoes one by the other `w - k`. -/
theorem rotate_back {k l : Nat} (hw : k + l = w) (x : BitVec w) :
    (((x <<< k) ||| (x >>> l)) <<< l) ||| (((x <<< k) ||| (x >>> l)) >>> k) = x := by
  ext i hi
  simp only [BitVec.getElem_or, BitVec.getElem_shiftLeft, BitVec.getElem_ushiftRight,
    BitVec.getLsbD_or, BitVec.getLsbD_shiftLeft, BitVec.getLsbD_ushiftRight]
  by_cases hl : i < l
  · have hlt : k + i < w := by omega
    have hge : ¬ k + i < k := by omega
    have hout : x.getLsbD (l + (k + i)) = false := BitVec.getLsbD_of_ge _ _ (by omega)
    simp [hl, hlt, hout, BitVec.getLsbD_eq_getElem hi]
  · have hlt : i - l < k := by omega
    have hge : w ≤ k + i := by omega
    have hout : x.getLsbD (l + (k + i)) = false := BitVec.getLsbD_of_ge _ _ (by omega)
    have hin : l + (i - l) = i := by omega
    simp [hl, hlt, hge, hout, hin, BitVec.getLsbD_eq_getElem hi]

/-- An exchange as a permutation of pairs of words. -/
def exchangePerm (k : Nat) (mask : BitVec w) (hmask : mask <<< k >>> k = mask) :
    Equiv.Perm (BitVec w × BitVec w) :=
  Function.Involutive.toPerm (exchange k mask) (exchange_exchange hmask)

/-- A rotation to the left by `k` places as a permutation of words. -/
def rotatePerm (k l : Nat) (hw : k + l = w) : Equiv.Perm (BitVec w) where
  toFun x := (x <<< k) ||| (x >>> l)
  invFun x := (x <<< l) ||| (x >>> k)
  left_inv := rotate_back hw
  right_inv := rotate_back ((Nat.add_comm l k).trans hw)

end Bits

section Blocks

variable {α : Type} (size : Nat) (f g : List α → List α)

/-- The first `n` blocks of a text, each through `f`. -/
def blockwise : Nat → List α → List α
  | 0, _ => []
  | n + 1, text => f (text.take size) ++ blockwise n (text.drop size)

theorem blockwise_take (n : Nat) (text : List α) :
    blockwise size f n (text.take (n * size)) = blockwise size f n text := by
  induction n generalizing text with
  | zero => rfl
  | succ n ih =>
    have hle : size ≤ (n + 1) * size := Nat.le_mul_of_pos_left _ (Nat.succ_pos n)
    have hdrop : (n + 1) * size - size = n * size := by
      rw [Nat.succ_mul, Nat.add_sub_cancel]
    simp only [blockwise, List.take_take, List.drop_take, Nat.min_eq_left hle, hdrop, ih]

theorem blockwise_append {n m : Nat} {text : List α} (hlen : text.length = n * size)
    (rest : List α) :
    blockwise size f (n + m) (text ++ rest) =
      blockwise size f n text ++ blockwise size f m rest := by
  induction n generalizing text with
  | zero =>
    rw [Nat.zero_mul, List.length_eq_zero_iff] at hlen
    rw [hlen, Nat.zero_add, List.nil_append]
    rfl
  | succ n ih =>
    have hle : size ≤ text.length := by
      rw [hlen]
      exact Nat.le_mul_of_pos_left _ (Nat.succ_pos n)
    have htail : (text.drop size).length = n * size := by
      rw [List.length_drop, hlen, Nat.succ_mul, Nat.add_sub_cancel]
    rw [Nat.succ_add, blockwise, blockwise, List.take_append_of_le_length hle,
      List.drop_append_of_le_length hle, ih htail, List.append_assoc]

variable {size f g}

theorem blockwise_length (hf : ∀ block, block.length = size → (f block).length = size) {n : Nat}
    {text : List α} (hlen : n * size ≤ text.length) :
    (blockwise size f n text).length = n * size := by
  induction n generalizing text with
  | zero => rw [Nat.zero_mul]; rfl
  | succ n ih =>
    rw [Nat.succ_mul] at hlen ⊢
    have htail : n * size ≤ (text.drop size).length := by
      rw [List.length_drop]
      omega
    rw [blockwise, List.length_append, ih htail, hf _ (List.length_take_of_le (by omega)),
      Nat.add_comm]

/-- What is undone on every block is undone on the text. -/
theorem blockwise_inverse (hf : ∀ block, block.length = size → (f block).length = size)
    (hgf : ∀ block, block.length = size → g (f block) = block) {n : Nat} {text : List α}
    (hlen : text.length = n * size) :
    blockwise size g n (blockwise size f n text) = text := by
  induction n generalizing text with
  | zero =>
    rw [Nat.zero_mul, List.length_eq_zero_iff] at hlen
    rw [hlen]
    rfl
  | succ n ih =>
    rw [Nat.succ_mul] at hlen
    have hhead : (text.take size).length = size := List.length_take_of_le (by omega)
    have htail : (text.drop size).length = n * size := by
      rw [List.length_drop]
      omega
    rw [blockwise, blockwise, List.take_left' (hf _ hhead), List.drop_left' (hf _ hhead),
      hgf _ hhead, ih htail, List.take_append_drop]

end Blocks

end XsServer.Lib.Cipher
