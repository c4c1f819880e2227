import XsServer.Sproto.Value
import Mathlib.Data.List.Induction

/-! Arrays of integers: all elements get the width of the widest one, and the narrow ones before it
are rearranged in place. -/

namespace XsServer.Sproto

open Lib

variable {mem : Mem} {pos n k : Nat} {bytes : List UInt8}

theorem load_length (mem : Mem) (pos n : Nat) : (load mem pos n).length = n := by
  rw [load, List.length_map, List.length_range]

theorem getElem_load {i : Nat} (h : i < (load mem pos n).length) :
    (load mem pos n)[i] = mem (pos + i) := by
  simp only [load, List.getElem_map, List.getElem_range]

theorem load_add (mem : Mem) (pos a b : Nat) :
    load mem pos (a + b) = load mem pos a ++ load mem (pos + a) b := by
  rw [load, List.range_add, List.map_append, List.map_map, load, load]
  congr 1
  exact List.map_congr_left fun i _ => by rw [Function.comp_apply, Nat.add_assoc]

theorem load_store_before (h : k + n ≤ pos) (mem : Mem) (bytes : List UInt8) :
    load (store mem pos bytes) k n = load mem k n := by
  refine List.map_congr_left fun i hi => if_neg ?_
  have := List.mem_range.mp hi
  omega

theorem load_store_after (h : pos + bytes.length ≤ k) (mem : Mem) (n : Nat) :
    load (store mem pos bytes) k n = load mem k n := by
  refine List.map_congr_left fun i _ => if_neg ?_
  omega

theorem load_store_self (mem : Mem) (pos : Nat) (bytes : List UInt8) :
    load (store mem pos bytes) pos bytes.length = bytes := by
  refine List.ext_getElem (load_length ..) fun i hi hi' => ?_
  rw [getElem_load, store, if_pos (by omega), Nat.add_sub_cancel_left, List.getD_eq_getElem?_getD,
    List.getElem?_eq_getElem hi']
  rfl

/-! ### The bytes of an integer -/

/-- A 32-bit integer gets 4 bytes of its sign. -/
def signBytes (b : UInt8) : List UInt8 := List.replicate 4 (if isNegative b then 0xff else 0)

theorem isNegative_iff (b : UInt8) : isNegative b = true ↔ 128 ≤ b.toNat := by
  have hall : ∀ b : Fin 256, isNegative (UInt8.ofNat b) = true ↔ 128 ≤ b.val := by
    decide +kernel
  have h := hall ⟨b.toNat, b.toNat_lt⟩
  rwa [UInt8.ofNat_toNat] at h

theorem le_append (a b v : Nat) :
    Bytes.le (a + b) v = Bytes.le a v ++ Bytes.le b (v / 256 ^ a) := by
  induction a generalizing v with
  | zero => rw [Nat.zero_add, pow_zero, Nat.div_one]; rfl
  | succ a ih =>
    rw [Nat.succ_add_eq_add_succ, Nat.add_succ, Bytes.le, ih, Bytes.le, List.cons_append,
      Nat.div_div_eq_div_mul, pow_succ']

theorem le_mod (a v : Nat) : Bytes.le a (v % 256 ^ a) = Bytes.le a v := by
  have h := Bytes.le_ofLe (Bytes.le a v)
  rwa [Bytes.le_length, Bytes.ofLe_le] at h

theorem expand64_lt {v : Nat} (h : v < 2 ^ 32) : expand64 v < 2 ^ 64 := by
  unfold expand64
  split <;> omega

theorem le_four_expand64 (v : Nat) : Bytes.le 4 (expand64 v) = Bytes.le 4 v := by
  rw [← le_mod 4 (expand64 v), ← le_mod 4 v]
  congr 1
  unfold expand64
  split <;> omega

theorem le_expand64 {v : Nat} (h : v < 2 ^ 32) :
    Bytes.le 8 (expand64 v) = Bytes.le 4 v ++ signBytes ((Bytes.le 4 v).getD 3 0) := by
  have hbyte : (Bytes.le 4 v).getD 3 0 = UInt8.ofNat (v / 256 / 256 / 256) := rfl
  have htop : (UInt8.ofNat (v / 256 / 256 / 256)).toNat = v / 2 ^ 24 := by
    rw [UInt8.toNat_ofNat']
    omega
  rw [le_append 4 4, le_four_expand64, hbyte, signBytes]
  congr 1
  by_cases hneg : v < 0x80000000
  · have hsign : isNegative (UInt8.ofNat (v / 256 / 256 / 256)) = false := by
      rw [Bool.eq_false_iff, ne_eq, isNegative_iff, htop]
      omega
    have hhigh : expand64 v / 256 ^ 4 = 0 := by
      rw [expand64, if_pos hneg]
      omega
    rw [hsign, hhigh]
    decide
  · have hsign : isNegative (UInt8.ofNat (v / 256 / 256 / 256)) = true := by
      rw [isNegative_iff, htop]
      omega
    have hhigh : expand64 v / 256 ^ 4 = 0xffffffff := by
      rw [expand64, if_neg hneg]
      omega
    rw [hsign, hhigh]
    decide

theorem Num.value_lt (m : Num) : m.value < 2 ^ 64 := by
  cases m with
  | narrow v => exact expand64_lt v.toNat_lt
  | wide v => exact v.toNat_lt

def Num.element (m : Num) (w : Nat) : List UInt8 := Bytes.le w m.value

theorem Num.element_length (m : Num) (w : Nat) : (m.element w).length = w := Bytes.le_length ..

theorem element_narrow (v : UInt32) : (Num.narrow v).element 4 = Bytes.le 4 v.toNat :=
  le_four_expand64 v.toNat

theorem element_widen {m : Num} (h : m.isWide = false) :
    m.element 8 = m.element 4 ++ signBytes ((m.element 4).getD 3 0) := by
  cases m with
  | wide v => cases h
  | narrow v =>
    rw [element_narrow]
    exact le_expand64 v.toNat_lt

/-! ### The loop -/

/-- The elements that were written, each with `w` bytes. -/
def Holds (mem : Mem) (w : Nat) (ns : List Num) : Prop :=
  ∀ i (h : i < ns.length), load mem (i * w) w = (ns[i]).element w

theorem Holds.all {w : Nat} {ns : List Num} (h : Holds mem w ns) :
    load mem 0 (ns.length * w) = ns.flatMap (Num.element · w) := by
  induction ns using List.reverseRecOn with
  | nil =>
    rw [List.length_nil, Nat.zero_mul]
    rfl
  | append_singleton ns m ih =>
    have hprev : Holds mem w ns := by
      intro i hi
      rw [h i (by rw [List.length_append]; omega), List.getElem_append_left hi]
    have hlast := h ns.length (by rw [List.length_append, List.length_singleton]; omega)
    rw [List.getElem_append_right (Nat.le_refl _)] at hlast
    simp only [Nat.sub_self, List.getElem_cons_zero] at hlast
    rw [List.length_append, List.length_singleton, Nat.add_mul, Nat.one_mul, load_add, ih hprev,
      Nat.zero_add, hlast, List.flatMap_append, List.flatMap_singleton]

theorem Holds.push {w : Nat} {ns : List Num} (h : Holds mem w ns) {mem' : Mem} {m : Num}
    (hbefore : ∀ k n, k + n ≤ ns.length * w → load mem' k n = load mem k n)
    (hlast : load mem' (ns.length * w) w = m.element w) : Holds mem' w (ns ++ [m]) := by
  intro i hi
  by_cases hlt : i < ns.length
  · have hroom : i * w + w ≤ ns.length * w := by
      rw [← Nat.succ_mul]
      exact Nat.mul_le_mul_right w hlt
    rw [hbefore _ _ hroom, h i hlt, List.getElem_append_left hlt]
  · have heq : i = ns.length := by
      rw [List.length_append, List.length_singleton] at hi
      omega
    subst heq
    rw [hlast, List.getElem_append_right (Nat.le_refl _)]
    simp only [Nat.sub_self, List.getElem_cons_zero]

theorem rearrange_load (mem : Mem) (n : Nat) :
    (∀ i < n, load (rearrange mem n) (i * 8) 8 =
      load mem (i * 4) 4 ++ signBytes ((load mem (i * 4) 4).getD 3 0)) ∧
    ∀ k m, n * 8 ≤ k → load (rearrange mem n) k m = load mem k m := by
  induction n generalizing mem with
  | zero => exact ⟨fun i hi => absurd hi (Nat.not_lt_zero i), fun _ _ _ => rfl⟩
  | succ n ih =>
    let mem1 := store mem (n * 8) (load mem (n * 4) 4)
    let mem2 := uint32ToUint64 (isNegative (mem1 (n * 8 + 3))) mem1 (n * 8)
    obtain ⟨hlow, hhigh⟩ := ih mem2
    have hlen : (load mem (n * 4) 4).length = 4 := load_length ..
    have hbefore : ∀ k m, k + m ≤ n * 8 → load mem2 k m = load mem k m := fun k m hk =>
      (load_store_before (by omega) mem1 _).trans (load_store_before hk mem _)
    have hafter : ∀ k m, n * 8 + 8 ≤ k → load mem2 k m = load mem k m := fun k m hk =>
      (load_store_after (by rw [List.length_replicate]; omega) mem1 m).trans
        (load_store_after (by rw [hlen]; omega) mem m)
    have hself : load mem1 (n * 8) 4 = load mem (n * 4) 4 := by
      have h := load_store_self mem (n * 8) (load mem (n * 4) 4)
      rwa [hlen] at h
    have hsign : mem1 (n * 8 + 3) = (load mem (n * 4) 4).getD 3 0 := by
      rw [← hself]
      rfl
    have hmem2 : load mem2 (n * 8) 8 =
        load mem (n * 4) 4 ++ signBytes ((load mem (n * 4) 4).getD 3 0) := by
      have h4 : load mem2 (n * 8) 4 = load mem (n * 4) 4 :=
        (load_store_before (Nat.le_refl _) mem1 _).trans hself
      have h8 : load mem2 (n * 8 + 4) 4 = signBytes ((load mem (n * 4) 4).getD 3 0) := by
        have h := load_store_self mem1 (n * 8 + 4)
          (List.replicate 4 (if isNegative (mem1 (n * 8 + 3)) then 0xff else 0))
        rw [List.length_replicate] at h
        rw [signBytes, ← hsign]
        exact h
      rw [load_add mem2 (n * 8) 4 4, h4, h8]
    refine ⟨fun i hi => ?_, fun k m hk => ?_⟩
    · change load (rearrange mem2 n) _ _ = _
      by_cases hlt : i < n
      · have hnarrow : load mem2 (i * 4) 4 = load mem (i * 4) 4 := hbefore _ _ (by omega)
        rw [hlow i hlt, hnarrow]
      · obtain rfl : i = n := by omega
        rw [hhigh _ _ (Nat.le_refl _), hmem2]
    · change load (rearrange mem2 n) _ _ = _
      rw [hhigh k m (by omega), hafter k m (by omega)]

theorem Holds.rearrange {ns : List Num} (h : Holds mem 4 ns) (hn : ∀ m ∈ ns, m.isWide = false) :
    Holds (Sproto.rearrange mem ns.length) 8 ns := by
  intro i hi
  rw [(rearrange_load mem ns.length).1 i hi, h i hi, element_widen (hn _ (List.getElem_mem hi))]

/-- The loop after some elements, which had `total` bytes of room at its start. -/
structure Reached (total : Int) (ns : List Num) (s : IntArray) : Prop where
  index : s.index = ns.length + 1
  narrow : s.wide = false → ∀ m ∈ ns, m.isWide = false
  pos : s.pos = ns.length * s.intlen
  size : s.size + s.pos = total
  room : 0 ≤ s.size
  holds : Holds s.mem s.intlen ns

variable {total : Int} {ns : List Num} {s : IntArray} {m : Num}

theorem Reached.start {size : Int} (h : 0 ≤ size) (mem : Mem) :
    Reached size [] ⟨mem, 0, size, false, 1⟩ where
  index := rfl
  narrow _ _ hm := absurd hm List.not_mem_nil
  pos := rfl
  size := Int.add_zero size
  room := h
  holds _ hi := absurd hi (Nat.not_lt_zero _)

theorem IntArray.intlen_le (s : IntArray) : 4 ≤ s.intlen ∧ s.intlen ≤ 8 := by
  unfold IntArray.intlen SIZEOF_INT64 SIZEOF_INT32
  split <;> omega

theorem Reached.push (h : Reached total ns s) {mem' : Mem} (hwide : m.isWide = true → s.wide = true)
    (hroom : 8 ≤ s.size) (hbefore : ∀ k n, k + n ≤ s.pos → load mem' k n = load s.mem k n)
    (hlast : load mem' s.pos s.intlen = m.element s.intlen) :
    Reached total (ns ++ [m]) (s.push mem') where
  index := by
    change s.index + 1 = _
    rw [h.index, List.length_append, List.length_singleton]
  narrow hnarrow m' hm' := by
    rcases List.mem_append.mp hm' with hm' | hm'
    · exact h.narrow hnarrow m' hm'
    · obtain rfl := List.mem_singleton.mp hm'
      rw [Bool.eq_false_iff]
      exact fun hm => absurd (hwide hm) (Bool.eq_false_iff.mp hnarrow)
  pos := by
    change s.pos + s.intlen = _ * s.intlen
    rw [h.pos, List.length_append, List.length_singleton, Nat.succ_mul]
  size := by
    have hsize := h.size
    simp only [IntArray.push]
    push_cast
    omega
  room := by
    have hle := s.intlen_le.2
    simp only [IntArray.push]
    omega
  holds := by
    change Holds mem' s.intlen _
    rw [h.pos] at hbefore hlast
    exact h.holds.push hbefore hlast

theorem Reached.widen (h : Reached total ns s) (hwide : s.wide = false)
    (hroom : 0 ≤ s.widen.size) : Reached total ns s.widen := by
  have hindex : s.index - 1 = ns.length := by
    rw [h.index, Nat.add_sub_cancel]
  have hintlen : s.intlen = 4 := by
    rw [IntArray.intlen, hwide]
    rfl
  have hpos := h.pos
  have hsize := h.size
  have hholds := h.holds
  rw [hintlen] at hpos hholds
  refine ⟨h.index, fun hnarrow => Bool.noConfusion hnarrow, ?_, ?_, hroom, ?_⟩
  · change s.pos + (s.index - 1) * 4 = ns.length * 8
    omega
  · simp only [IntArray.widen, hindex]
    push_cast
    omega
  · change Holds (rearrange s.mem (s.index - 1)) 8 ns
    rw [hindex]
    exact hholds.rearrange (h.narrow hwide)

/-- The callback gives the elements one after the other. -/
def GivesElements {α : Type} (cb : Supply) (arg : Arg) (length : Int) (xs : List α)
    (f : α → CbResult) : Prop :=
  ∀ index : Nat, cb { arg with index := index } length = supplyElement xs index f

theorem supplyElement_of_lt {α : Type} {xs : List α} {i : Nat} (h : i < xs.length)
    (f : α → CbResult) : supplyElement xs (i + 1 : Nat) f = f xs[i] := by
  rw [supplyElement, Int.toNat_natCast, Nat.add_sub_cancel, List.getElem?_eq_getElem h]

theorem supplyElement_end {α : Type} (xs : List α) (f : α → CbResult) :
    supplyElement xs (xs.length + 1 : Nat) f = .nil := by
  rw [supplyElement, Int.toNat_natCast, Nat.add_sub_cancel, List.getElem?_eq_none (le_refl _)]

theorem load_store_at {k : Nat} (h : bytes.length = n) (hk : k = pos) (mem : Mem) :
    load (store mem pos bytes) k n = bytes := by
  rw [hk, ← h]
  exact load_store_self mem pos bytes

theorem Reached.push_narrow (h : Reached total ns s) (hroom : 8 ≤ s.size) (v : UInt32) :
    Reached total (ns ++ [.narrow v]) (s.push (
      let mem := store s.mem s.pos (Num.narrow v).bytes
      if s.wide then uint32ToUint64 (isNegative ((Num.narrow v).bytes.getD 3 0)) mem s.pos
      else mem)) := by
  have hlen : (Num.narrow v).bytes.length = 4 := Bytes.le_length ..
  refine h.push (fun hm => Bool.noConfusion hm) hroom (fun k n hk => ?_) ?_
  · dsimp only
    split
    · rw [uint32ToUint64, load_store_before (by omega), load_store_before hk]
    · exact load_store_before hk ..
  · cases hwide : s.wide with
    | false =>
      rw [IntArray.intlen, hwide]
      exact (load_store_at hlen rfl s.mem).trans (element_narrow v).symm
    | true =>
      rw [IntArray.intlen, hwide]
      change load (uint32ToUint64 _ _ _) s.pos (4 + 4) = _
      rw [load_add, uint32ToUint64, load_store_before (Nat.le_refl _), load_store_at hlen rfl,
        load_store_at List.length_replicate rfl]
      exact (le_expand64 v.toNat_lt).symm

theorem Reached.push_wide (h : Reached total ns s) (hroom : 8 ≤ s.size) (hwide : s.wide = true)
    (v : UInt64) :
    Reached total (ns ++ [.wide v]) (s.push (store s.mem s.pos (Num.wide v).bytes)) := by
  refine h.push (fun _ => hwide) hroom (fun k n hk => load_store_before hk ..) ?_
  rw [IntArray.intlen, hwide]
  exact load_store_at (Bytes.le_length ..) rfl s.mem

theorem integerLoop_elements {cb : Supply} {arg : Arg}
    (hcb : GivesElements cb arg 8 ns fun m => .ok m.bytes) :
    ∀ (rest done : List Num) (s : IntArray), ns = done ++ rest → Reached total done s →
      s.wide = done.any Num.isWide →
      ((∃ t, integerLoop cb arg s = .ok (some t) ∧ Reached total ns t ∧
          t.wide = ns.any Num.isWide) ∨ integerLoop cb arg s = .error .failed) ∧
        (8 * ns.length ≤ total → ∃ t, integerLoop cb arg s = .ok (some t)) := by
  intro rest
  induction rest with
  | nil =>
    intro done s hns hs hwide
    rw [List.append_nil] at hns
    subst hns
    have hnil := hcb s.index
    rw [hs.index, supplyElement_end, ← hs.index] at hnil
    have hloop : integerLoop cb arg s = .ok (some s) := by
      rw [integerLoop, hnil]
    exact ⟨.inl ⟨s, hloop, hs, hwide⟩, fun _ => ⟨s, hloop⟩⟩
  | cons m rest ih =>
    intro done s hns hs hwide
    have hlt : done.length < ns.length := by
      rw [hns, List.length_append, List.length_cons]
      omega
    have hm : ns[done.length] = m := by
      subst hns
      rw [List.getElem_append_right (Nat.le_refl _)]
      simp only [Nat.sub_self, List.getElem_cons_zero]
    have hnext := hcb s.index
    rw [hs.index, supplyElement_of_lt hlt, hm, ← hs.index] at hnext
    have hns' : ns = (done ++ [m]) ++ rest := by rw [hns, List.append_assoc, List.singleton_append]
    have henough : 8 * ns.length ≤ total → 8 * (done.length + 1 : Int) ≤ total := by omega
    have hsize := hs.size
    have hpos := hs.pos
    rw [integerLoop, hnext]
    dsimp only
    by_cases hroom : s.size < 8
    · rw [dif_pos hroom]
      refine ⟨.inr rfl, fun hle => ?_⟩
      have hpos' : s.pos ≤ done.length * 8 := hpos ▸ Nat.mul_le_mul_left _ s.intlen_le.2
      have := henough hle
      omega
    rw [dif_neg hroom]
    cases m with
    | narrow v =>
      rw [if_pos (show (Num.narrow v).bytes.length = 4 from Bytes.le_length ..)]
      refine ih _ _ hns' (hs.push_narrow (not_lt.mp hroom) v) ?_
      rw [List.any_append, ← hwide]
      exact (Bool.or_false _).symm
    | wide v =>
      have hlen : (Num.wide v).bytes.length = 8 := Bytes.le_length ..
      have hany : true = (done ++ [Num.wide v]).any Num.isWide := by
        rw [List.any_append]
        exact (Bool.or_true _).symm
      rw [if_neg (by omega), if_neg (by omega)]
      by_cases hw : s.wide = true
      · rw [if_pos hw]
        exact ih _ _ hns' (hs.push_wide (not_lt.mp hroom) hw v) (hw.trans hany)
      rw [if_neg hw]
      rw [Bool.not_eq_true] at hw
      by_cases hroom' : s.widen.size < 8
      · rw [dif_pos hroom']
        refine ⟨.inr rfl, fun hle => ?_⟩
        have hindex := hs.index
        have hintlen : s.intlen = 4 := by
          rw [IntArray.intlen, hw]
          rfl
        rw [hintlen] at hpos
        simp only [IntArray.widen] at hroom'
        have := henough hle
        omega
      rw [dif_neg hroom']
      have hreached := hs.widen hw (by omega)
      exact ih _ _ hns' (hreached.push_wide (not_lt.mp hroom') rfl v) hany

def width (ns : List Num) : Nat := if ns.any Num.isWide then SIZEOF_INT64 else SIZEOF_INT32

def integerBytes (ns : List Num) : List UInt8 :=
  if ns = [] then [] else UInt8.ofNat (width ns) :: ns.flatMap (Num.element · (width ns))

theorem elements_length (ns : List Num) (w : Nat) :
    (ns.flatMap (Num.element · w)).length = ns.length * w := by
  induction ns with
  | nil => rw [List.length_nil, Nat.zero_mul]; rfl
  | cons m ns ih =>
    rw [List.flatMap_cons, List.length_append, ih, Num.element_length, List.length_cons]
    exact (Nat.add_comm ..).trans (Nat.succ_mul ..).symm

theorem Reached.written (h : Reached total ns s) (hwide : s.wide = ns.any Num.isWide) :
    (if s.pos = 0 then [] else UInt8.ofNat s.intlen :: load s.mem 0 s.pos) = integerBytes ns := by
  have hintlen : s.intlen = width ns := by
    rw [IntArray.intlen, hwide, width]
  have hall := h.holds.all
  rw [← h.pos] at hall
  rw [integerBytes, hall, hintlen]
  have hpos := h.pos
  cases ns with
  | nil => rw [if_pos (hpos.trans (Nat.zero_mul _)), if_pos rfl]
  | cons m ns =>
    have hle := s.intlen_le.1
    rw [List.length_cons, Nat.succ_mul] at hpos
    rw [if_neg (by omega), if_neg (List.cons_ne_nil m ns)]

theorem integerBytes_length_le (ns : List Num) :
    (integerBytes ns).length ≤ ns.length * width ns + 1 := by
  unfold integerBytes
  split
  · exact Nat.zero_le _
  · rw [List.length_cons, elements_length]

theorem encodeIntegerArray_codes {cb : Supply} {arg : Arg}
    (hcb : GivesElements cb arg 8 ns fun m => .ok m.bytes) :
    Codes (encodeIntegerArray cb arg) (some (integerBytes ns)) (integerBytes ns).length where
  cases size _ := by
    by_cases hlt : size < 1
    · exact .inr (if_pos hlt)
    rw [encodeIntegerArray, if_neg hlt]
    rcases (integerLoop_elements hcb ns [] _ (List.nil_append ns).symm
      (Reached.start (show 0 ≤ size - 1 by omega) _) rfl).1 with ⟨t, ht, hreached, hwide⟩ | hfail
    · rw [ht]
      have hbytes := hreached.written hwide
      refine .inl ⟨congrArg (Except.ok ∘ some) hbytes, ?_⟩
      have hle := integerBytes_length_le ns
      have hintlen : t.intlen = width ns := by
        rw [IntArray.intlen, hwide, width]
      have hpos := hreached.pos
      have htotal := hreached.size
      have hroom := hreached.room
      rw [hintlen] at hpos
      omega
    · rw [hfail]
      exact .inr rfl
  enough := by
    refine ⟨8 * ns.length + 1, by omega, fun size hsize => ?_⟩
    have hloop := integerLoop_elements hcb ns [] _ (List.nil_append ns).symm
      (Reached.start (show 0 ≤ size - 1 by omega) fun _ => 0) rfl
    obtain ⟨t, ht⟩ := hloop.2 (by omega)
    rcases hloop.1 with ⟨t', ht', hreached, hwide⟩ | hfail
    · rw [encodeIntegerArray, if_neg (by omega), ht']
      exact congrArg (Except.ok ∘ some) (hreached.written hwide)
    · rw [ht] at hfail
      cases hfail

section

variable {σ : Type} (cb : Collect σ) (arg : Arg)

/-- The callbacks for the values of an array, from an index on. -/
def collectAll (cb : Collect σ) (arg : Arg) : List Nat → Nat → σ → σ
  | [], _, s => s
  | v :: vs, index, s =>
    collectAll cb arg vs (index + 1) (collectInteger cb { arg with index := index } v s)

theorem readBytes_append {n : Nat} {a b : List UInt8} (h : a.length = n) :
    readBytes (a ++ b) n = .ok a := by
  rw [readBytes, if_neg (by rw [List.length_append]; omega), ← h, List.take_left]

theorem decodeIntegers_elements {α : Type} {w : Nat} {f : α → List UInt8} {expand : Nat → Nat}
    {value : α → Nat} (hlen : ∀ x, (f x).length = w) (xs : List α)
    (hvalue : ∀ x ∈ xs, expand (Bytes.ofLe (f x)) = value x) (tail : List UInt8) (index : Nat)
    (s : σ) :
    decodeIntegers cb arg w expand xs.length index (xs.flatMap f ++ tail) s =
      .ok (collectAll cb arg (xs.map value) index s) := by
  induction xs generalizing index s with
  | nil => rfl
  | cons x xs ih =>
    rw [List.flatMap_cons, List.append_assoc, List.length_cons, decodeIntegers,
      readBytes_append (hlen x)]
    change decodeIntegers cb arg w expand xs.length (index + 1)
      ((f x ++ (xs.flatMap f ++ tail)).drop w) _ = _
    rw [List.drop_left' (hlen x), hvalue x List.mem_cons_self,
      ih fun y hy => hvalue y (List.mem_cons_of_mem x hy)]
    rfl

end

end XsServer.Sproto
