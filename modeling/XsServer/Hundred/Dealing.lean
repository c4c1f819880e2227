import XsServer.Lib.Run
import Mathlib.Algebra.Group.End
import Mathlib.Data.List.FinRange

/-! The deck of the game of dragon and tiger.  The configured cards are never written; a table keeps
the cards that it swapped as fields of its own and reads the others through `__index`.  What is
drawn is an argument, and `compare` stands for the comparison of `dealCompare`. -/

namespace XsServer.Hundred

open XsServer.Lib

variable {α ω : Type*}

/-- `poker[index]` of an array. -/
def atIndex (poker : List α) : Nat → Option α
  | 0 => none
  | index + 1 => poker[index]?

/-- `logic`; `base` is the deck that `__index` reads, and `pokers` are the fields in front of it. -/
structure Logic (α ω : Type*) where
  base : List α
  pokers : Nat → Option α
  count : Nat
  dragonCard : Option α
  tigerCard : Option α
  winner : Option ω

namespace Logic

def ctor : Logic α ω := ⟨[], fun _ => none, 0, none, none, none⟩

/-- `_pokers[index]` -/
def get (l : Logic α ω) (index : Nat) : Option α := (l.pokers index).or (atIndex l.base index)

def dataReboot (l : Logic α ω) (poker : List α) : Logic α ω :=
  { l with base := poker, pokers := fun _ => none, count := poker.length }

def dataClear (l : Logic α ω) : Logic α ω :=
  { l with pokers := fun _ => none, dragonCard := none, tigerCard := none, winner := none }

/-- `poker[a],poker[b] = poker[b],poker[a]` -/
def swap (l : Logic α ω) (a b : Nat) : Logic α ω :=
  { l with pokers := Function.update (Function.update l.pokers a (l.get b)) b (l.get a) }

/-- `none` when `math.random` does not return `index`. -/
def dealDragonCard (l : Logic α ω) (index : Nat) : Option (Logic α ω) :=
  if 1 ≤ index ∧ index ≤ l.count then some { l.swap 1 index with dragonCard := l.get index }
  else none

def dealTigerCard (l : Logic α ω) (index : Nat) : Option (Logic α ω) :=
  if 2 ≤ index ∧ index ≤ l.count then some { l.swap 2 index with tigerCard := l.get index }
  else none

/-- `none` is an error of the comparison. -/
def dealCompare (compare : Option α → Option α → Option ω) (l : Logic α ω) : Option (Logic α ω) :=
  (compare l.dragonCard l.tigerCard).map fun winner => { l with winner := some winner }

def dealCards (compare : Option α → Option α → Option ω) (l : Logic α ω) (dragon tiger : Nat) :
    Option (Logic α ω) :=
  ((l.dealDragonCard dragon).bind (·.dealTigerCard tiger)).bind (dealCompare compare)

/-- The cards as `_pokers` shows them. -/
def seen (l : Logic α ω) : List (Option α) := (List.range l.count).map fun i => l.get (i + 1)

/-- A part of a round, or what comes between rounds; a round that fails ends after a part. -/
inductive Event (α : Type*)
  | reboot (poker : List α)
  | clear
  | dragon (index : Nat)
  | tiger (index : Nat)
  | compare

inductive Step (compare : Option α → Option α → Option ω) :
    Logic α ω → Event α → Logic α ω → Prop
  | reboot (l : Logic α ω) (poker : List α) : Step compare l (.reboot poker) (l.dataReboot poker)
  | clear (l : Logic α ω) : Step compare l .clear l.dataClear
  | dragon {l t : Logic α ω} {index : Nat} (h : l.dealDragonCard index = some t) :
    Step compare l (.dragon index) t
  | tiger {l t : Logic α ω} {index : Nat} (h : l.dealTigerCard index = some t) :
    Step compare l (.tiger index) t
  | compare {l t : Logic α ω} (h : l.dealCompare compare = some t) : Step compare l .compare t

/-- The deck that `get` reads is `base` in the order `σ`. -/
def Shuffled (base : List α) (get : Nat → Option α) (σ : Equiv.Perm (Fin base.length)) : Prop :=
  ∀ i : Fin base.length, get (i + 1) = some (base.get (σ i))

variable {l : Logic α ω}

theorem shuffled_plain (h : ∀ index, l.pokers index = none) : Shuffled l.base l.get 1 := by
  intro i
  simp [get, h, atIndex]

theorem get_swap (a b index : Nat) : (l.swap a b).get index =
    if index = b then (l.get a).or (atIndex l.base index)
    else if index = a then (l.get b).or (atIndex l.base index)
    else l.get index := by
  rw [get, swap]
  rcases eq_or_ne index b with rfl | hb
  · simp
  · rcases eq_or_ne index a with rfl | ha
    · simp [hb]
    · simp [ha, hb, get]

theorem Shuffled.swap {σ : Equiv.Perm (Fin l.base.length)} (h : Shuffled l.base l.get σ)
    (a b : Fin l.base.length) :
    Shuffled l.base (l.swap (a + 1) (b + 1)).get (σ * Equiv.swap a b) := by
  intro i
  rw [get_swap, Equiv.Perm.mul_apply]
  rcases eq_or_ne i b with rfl | hb
  · rw [if_pos rfl, h a, Equiv.swap_apply_right]
    rfl
  · rw [if_neg (by simpa [Fin.ext_iff] using hb)]
    rcases eq_or_ne i a with rfl | ha
    · rw [if_pos rfl, h b, Equiv.swap_apply_left]
      rfl
    · rw [if_neg (by simpa [Fin.ext_iff] using ha), h i, Equiv.swap_apply_of_ne_of_ne ha hb]

theorem Shuffled.seen_perm {σ : Equiv.Perm (Fin l.base.length)} (h : Shuffled l.base l.get σ)
    (hcount : l.count = l.base.length) : l.seen.Perm (l.base.map some) := by
  have hseen : l.seen = (List.ofFn (l.base.get ∘ σ)).map some := by
    refine List.ext_getElem (by simp [seen, hcount]) fun i hi _ => ?_
    rw [seen, List.length_map, List.length_range, hcount] at hi
    simpa [seen] using h ⟨i, hi⟩
  rw [hseen]
  refine List.Perm.map some ?_
  have hperm := Equiv.Perm.ofFn_comp_perm σ l.base.get
  rwa [List.ofFn_get] at hperm

def Sound (l : Logic α ω) : Prop := l.count = l.base.length ∧ ∃ σ, Shuffled l.base l.get σ

theorem dealDragonCard_cases {index : Nat} {t : Logic α ω} (hl : l.count = l.base.length)
    (h : l.dealDragonCard index = some t) : ∃ a b : Fin l.base.length, (a : Nat) = 0 ∧
      index = b + 1 ∧ t = { l.swap (a + 1) (b + 1) with dragonCard := l.get (b + 1) } := by
  rw [dealDragonCard] at h
  split at h
  case isTrue hdrawn =>
    obtain ⟨b, rfl⟩ := Nat.exists_eq_add_of_le' hdrawn.1
    exact ⟨⟨0, by omega⟩, ⟨b, by omega⟩, rfl, rfl, (Option.some_inj.mp h).symm⟩
  case isFalse => cases h

theorem dealTigerCard_cases {index : Nat} {t : Logic α ω} (hl : l.count = l.base.length)
    (h : l.dealTigerCard index = some t) : ∃ a b : Fin l.base.length, (a : Nat) = 1 ∧
      1 ≤ (b : Nat) ∧ index = b + 1 ∧
      t = { l.swap (a + 1) (b + 1) with tigerCard := l.get (b + 1) } := by
  rw [dealTigerCard] at h
  split at h
  case isTrue hdrawn =>
    obtain ⟨b, rfl⟩ := Nat.exists_eq_add_of_le' hdrawn.1
    exact ⟨⟨1, by omega⟩, ⟨b + 1, by omega⟩, rfl, by simp, rfl, (Option.some_inj.mp h).symm⟩
  case isFalse => cases h

variable {compare : Option α → Option α → Option ω}

theorem Sound.step {e : Event α} {t : Logic α ω} (hl : l.Sound) (h : Step compare l e t) :
    t.Sound := by
  obtain ⟨hcount, σ, hσ⟩ := hl
  cases h with
  | reboot poker => exact ⟨rfl, 1, shuffled_plain fun _ => rfl⟩
  | clear => exact ⟨hcount, 1, shuffled_plain fun _ => rfl⟩
  | dragon h =>
    obtain ⟨a, b, -, -, rfl⟩ := dealDragonCard_cases hcount h
    exact ⟨hcount, _, hσ.swap a b⟩
  | tiger h =>
    obtain ⟨a, b, -, -, -, rfl⟩ := dealTigerCard_cases hcount h
    exact ⟨hcount, _, hσ.swap a b⟩
  | compare h =>
    obtain ⟨winner, -, rfl⟩ := Option.map_eq_some_iff.mp h
    exact ⟨hcount, σ, hσ⟩

theorem Sound.round {dragon tiger : Nat} {m t : Logic α ω} (hl : l.Sound)
    (hdragon : l.dealDragonCard dragon = some m) (htiger : m.dealTigerCard tiger = some t) :
    ∃ p q : Fin l.base.length, p ≠ q ∧ t.base = l.base ∧
      t.dragonCard = some (l.base.get p) ∧ t.tigerCard = some (l.base.get q) := by
  obtain ⟨hcount, σ, hσ⟩ := hl
  obtain ⟨a, b, ha, -, rfl⟩ := dealDragonCard_cases hcount hdragon
  obtain ⟨c, d, -, hd, -, rfl⟩ := dealTigerCard_cases (by exact hcount) htiger
  have hafter := hσ.swap a b
  refine ⟨σ b, (σ * Equiv.swap a b) d, fun heq => ?_, rfl, hσ b, hafter d⟩
  have hfront : (σ * Equiv.swap a b) a = σ b := by
    rw [Equiv.Perm.mul_apply, Equiv.swap_apply_left]
  have hsame : a = d := (σ * Equiv.swap a b).injective (hfront.trans heq)
  omega

/-- However many rounds are played, with the deck cleared between them or not, the cards are those
of the configured deck in some order, and a round deals cards from two different positions of it. -/
theorem dealt_apart {es : List (Event α)} (h : Run (Step compare) ctor es l) :
    l.count = l.base.length ∧ l.seen.Perm (l.base.map some) ∧ (∃ σ, Shuffled l.base l.get σ) ∧
    (∀ dragon tiger m t, l.dealDragonCard dragon = some m → m.dealTigerCard tiger = some t →
      ∃ p q : Fin l.base.length, p ≠ q ∧ t.base = l.base ∧
        t.dragonCard = some (l.base.get p) ∧ t.tigerCard = some (l.base.get q)) ∧
    ∀ dragon tiger t, l.dealCards compare dragon tiger = some t →
      ∃ p q : Fin l.base.length, p ≠ q ∧ t.base = l.base ∧
        t.dragonCard = some (l.base.get p) ∧ t.tigerCard = some (l.base.get q) := by
  have hsound : l.Sound := h.invariant ⟨rfl, 1, shuffled_plain fun _ => rfl⟩
    fun _ _ _ hl hstep => hl.step hstep
  obtain ⟨hcount, σ, hσ⟩ := hsound
  refine ⟨hcount, hσ.seen_perm hcount, ⟨σ, hσ⟩,
    fun dragon tiger m t hdragon htiger => Sound.round ⟨hcount, σ, hσ⟩ hdragon htiger,
    fun dragon tiger t hcards => ?_⟩
  obtain ⟨u, hdealt, hcompare⟩ := Option.bind_eq_some_iff.mp hcards
  obtain ⟨m, hdragon, htiger⟩ := Option.bind_eq_some_iff.mp hdealt
  obtain ⟨winner, -, rfl⟩ := Option.map_eq_some_iff.mp hcompare
  obtain ⟨p, q, hne, hbase, hfirst, hsecond⟩ := Sound.round ⟨hcount, σ, hσ⟩ hdragon htiger
  exact ⟨p, q, hne, hbase, hfirst, hsecond⟩

theorem dealt_apart_two : ∃ l t : Logic Nat Unit,
    Run (Step fun _ _ => some ()) ctor [.reboot [7, 8], .dragon 2] l ∧
    l.seen.Perm (l.base.map some) ∧ l.dealCards (fun _ _ => some ()) 1 2 = some t ∧
    ∃ p q : Fin l.base.length, p ≠ q ∧ t.base = l.base ∧
      t.dragonCard = some (l.base.get p) ∧ t.tigerCard = some (l.base.get q) := by
  have hrun : Run (Step fun _ _ => some ()) (ctor : Logic Nat Unit) [.reboot [7, 8], .dragon 2] _ :=
    (Run.single (.reboot ctor [7, 8])).snoc (.dragon rfl)
  obtain ⟨-, hperm, -, -, hcards⟩ := dealt_apart hrun
  exact ⟨_, _, hrun, hperm, rfl, hcards 1 2 _ rfl⟩

end Logic

end XsServer.Hundred
