import XsServer.Mahjong.Tings

/-! The checks of concealed and added kongs of `mahjong/logic.lua`. -/

namespace XsServer.Mahjong

/-- The tables that the checks clear and fill at every call. -/
structure Copies where
  /-- `copy1` of `ableRaoGang` -/
  rao : List Nat
  /-- `copy1` and `copy2` of `ableAnGang` -/
  an : List Nat
  maps : Nat → Option Int

/-- `table.clear` -/
def clear (_ : List Nat) : List Nat := []

/-- The tiles that `pick` takes go to the end of a list, one by one. -/
def insertPicked {ε : Type} (pick : ε → Option Nat) (list : List Nat) (entries : List ε) :
    List Nat :=
  entries.foldl (fun list e =>
    match pick e with
    | some card => list ++ [card]
    | none => list) list

/-- `false` alone, or whether there is a kong and the list of them. -/
abbrev Able := Bool × Option (List Nat)

def ableRaoGang (s : Copies) (hands pengs : List Nat) : Able × Copies :=
  if hands.length % 3 ≠ 2 then ((false, none), s)
  else
    let pick := fun card => if hands.contains card then some card else none
    let list := insertPicked pick (clear s.rao) pengs
    ((! list.isEmpty, some list), { s with rao := list })

/-- What `ipairs` visits from a key on: nothing behind a key that has no count. -/
def ipairsFrom (maps : Nat → Option Int) : Nat → Nat → List (Nat × Int)
  | 0, _ => []
  | n + 1, card =>
    match maps card with
    | none => []
    | some count => (card, count) :: ipairsFrom maps n (card + 1)

/-- There are no more keys than tiles in the hand. -/
def ableAnGang (s : Copies) (hands : List Nat) : Able × Copies :=
  if hands.length % 3 ≠ 2 then ((false, none), s)
  else
    let maps := arrToHas hands
    let pick := fun e : Nat × Int => if e.2 ≥ 4 then some e.1 else none
    let list := insertPicked pick (clear s.an) (ipairsFrom maps hands.length 1)
    ((! list.isEmpty, some list), { s with an := list, maps := maps })

theorem arrToHas_eq (hands : List Nat) (card : Nat) :
    arrToHas hands card = if card ∈ hands then some (hands.count card : Int) else none := by
  induction hands using List.reverseRecOn with
  | nil => simp [arrToHas]
  | append_singleton hands x ih =>
    rw [Algor.arrToHas_append, tally, Function.update_apply]
    by_cases hx : card = x
    · subst hx
      have hlast : card ∈ hands ++ [card] := List.mem_append_right _ (List.mem_singleton_self _)
      rw [if_pos rfl, ih, if_pos hlast]
      by_cases hmem : card ∈ hands
      · simp [hmem]
      · simp [hmem, List.count_eq_zero_of_not_mem hmem]
    · have hcount : [x].count card = 0 := List.count_eq_zero_of_not_mem (by simpa using hx)
      rw [if_neg hx, ih, List.count_append, hcount, Nat.add_zero]
      simp [hx]

theorem mem_insertPicked {ε : Type} {pick : ε → Option Nat} {entries : List ε} (list : List Nat)
    {card : Nat} : card ∈ insertPicked pick list entries ↔
      card ∈ list ∨ ∃ e ∈ entries, pick e = some card := by
  induction entries generalizing list with
  | nil => simp [insertPicked]
  | cons e entries ih =>
    have hstep : insertPicked pick list (e :: entries) =
        insertPicked pick (list ++ (pick e).toList) entries := by
      cases hpick : pick e <;> simp [insertPicked, hpick]
    rw [hstep, ih, List.mem_append, Option.mem_toList, List.exists_mem_cons_iff, or_assoc]

theorem mem_ipairsFrom {maps : Nat → Option Int} {n start card : Nat} {count : Int} :
    (card, count) ∈ ipairsFrom maps n start ↔ start ≤ card ∧ card < start + n ∧
      maps card = some count ∧ ∀ c, start ≤ c → c ≤ card → maps c ≠ none := by
  induction n generalizing start with
  | zero =>
    simp only [ipairsFrom, List.not_mem_nil, false_iff]
    omega
  | succ n ih =>
    rw [ipairsFrom]
    cases hstart : maps start with
    | none =>
      refine ⟨fun h => (List.not_mem_nil h).elim, ?_⟩
      rintro ⟨hle, -, -, hall⟩
      exact absurd hstart (hall start (Nat.le_refl _) hle)
    | some first =>
      rw [List.mem_cons, ih]
      constructor
      · rintro (heq | ⟨hle, hlt, hcard, hall⟩)
        · obtain ⟨rfl, rfl⟩ := Prod.mk.inj heq
          refine ⟨Nat.le_refl _, by omega, hstart, fun c hc hc' => ?_⟩
          rw [Nat.le_antisymm hc' hc, hstart]
          exact Option.some_ne_none _
        · refine ⟨by omega, by omega, hcard, fun c hc hc' => ?_⟩
          obtain rfl | hne := Nat.eq_or_lt_of_le hc
          · rw [hstart]
            exact Option.some_ne_none _
          · exact hall c hne hc'
      · rintro ⟨hle, hlt, hcard, hall⟩
        obtain rfl | hne := Nat.eq_or_lt_of_le hle
        · rw [hstart, Option.some.injEq] at hcard
          exact .inl (by rw [hcard])
        · exact .inr ⟨hne, by omega, hcard, fun c hc hc' => hall c (by omega) hc'⟩

theorem le_length_of_run {hands : List Nat} {card : Nat}
    (hall : ∀ c, 1 ≤ c → c ≤ card → c ∈ hands) : card ≤ hands.length := by
  have hsub : List.range' 1 card ⊆ hands := by
    intro c hc
    rw [List.mem_range'_1] at hc
    exact hall c hc.1 (by omega)
  have hnodup : (List.range' 1 card).Nodup := List.nodup_range'
  have hle := (List.subperm_of_subset hnodup hsub).length_le
  rwa [List.length_range'] at hle

theorem mem_ipairs {hands : List Nat} {card : Nat} {count : Int} :
    (card, count) ∈ ipairsFrom (arrToHas hands) hands.length 1 ↔
      1 ≤ card ∧ count = hands.count card ∧ ∀ c, 1 ≤ c → c ≤ card → c ∈ hands := by
  have hmem : ∀ c, arrToHas hands c ≠ none ↔ c ∈ hands := fun c => by
    rw [ne_eq, Algor.arrToHas_eq_none_iff, not_not]
  simp only [mem_ipairsFrom, hmem]
  constructor
  · rintro ⟨hle, -, hcard, hall⟩
    rw [arrToHas_eq, if_pos (hall card hle (Nat.le_refl _)), Option.some.injEq] at hcard
    exact ⟨hle, hcard.symm, hall⟩
  · rintro ⟨hle, rfl, hall⟩
    have hlen := le_length_of_run hall
    refine ⟨hle, by omega, ?_, hall⟩
    rw [arrToHas_eq, if_pos (hall card hle (Nat.le_refl _))]

/-- The list has the tiles of a set, and there is a kong when it has any. -/
def Exact (able : Able) (kong : Nat → Prop) : Prop :=
  ∃ ok list, able = (ok, some list) ∧ (∀ card, card ∈ list ↔ kong card) ∧
    (ok = true ↔ list ≠ [])

/-- Both checks are exact, with whatever earlier calls have left in the tables. -/
def KongsExact (hands pengs : List Nat) : Prop :=
  ∀ s, Exact (ableAnGang s hands).1 (fun card => 4 ≤ hands.count card) ∧
    Exact (ableRaoGang s hands pengs).1 fun card => card ∈ pengs ∧ card ∈ hands

variable {hands : List Nat} (hlen : hands.length % 3 = 2)

include hlen

theorem ableRaoGang_exact (s : Copies) (pengs : List Nat) :
    Exact (ableRaoGang s hands pengs).1 fun card => card ∈ pengs ∧ card ∈ hands := by
  rw [ableRaoGang, if_neg (by simpa using hlen)]
  refine ⟨_, _, rfl, fun card => ?_, by simp⟩
  rw [mem_insertPicked, clear]
  simp [and_comm]

theorem ableAnGang_exact (s : Copies) : Exact (ableAnGang s hands).1 fun card =>
    1 ≤ card ∧ 4 ≤ hands.count card ∧ ∀ c, 1 ≤ c → c ≤ card → c ∈ hands := by
  rw [ableAnGang, if_neg (by simpa using hlen)]
  refine ⟨_, _, rfl, fun card => ?_, by simp⟩
  rw [mem_insertPicked, clear]
  constructor
  · rintro (hnil | ⟨⟨c, count⟩, he, hpick⟩)
    · exact (List.not_mem_nil hnil).elim
    · obtain ⟨hle, rfl, hall⟩ := mem_ipairs.mp he
      split at hpick
      case isTrue hfour =>
        obtain rfl := Option.some.inj hpick
        exact ⟨hle, by simpa using hfour, hall⟩
      case isFalse => cases hpick
  · rintro ⟨hle, hfour, hall⟩
    refine .inr ⟨(card, hands.count card), mem_ipairs.mpr ⟨hle, rfl, hall⟩, ?_⟩
    rw [if_pos]
    simpa using hfour

/-- `ipairs` stops at the first tile that the hand does not have, so a concealed kong is found when
the hand has all the tiles from 1 up to it. -/
theorem kongs_exact_iff (pengs : List Nat) : (KongsExact hands pengs ↔
      ∀ card, 4 ≤ hands.count card → 1 ≤ card ∧ ∀ c, 1 ≤ c → c ≤ card → c ∈ hands) ∧
    ∀ s, Exact (ableRaoGang s hands pengs).1 (fun card => card ∈ pengs ∧ card ∈ hands) ∧
      Exact (ableAnGang s hands).1 fun card =>
        1 ≤ card ∧ 4 ≤ hands.count card ∧ ∀ c, 1 ≤ c → c ≤ card → c ∈ hands := by
  have hrao := fun s => ableRaoGang_exact hlen s pengs
  refine ⟨⟨fun h card hfour => ?_, fun h s => ⟨?_, hrao s⟩⟩,
    fun s => ⟨hrao s, ableAnGang_exact hlen s⟩⟩
  · obtain ⟨⟨ok, list, hable, hlist, -⟩, -⟩ := h ⟨[], [], fun _ => none⟩
    obtain ⟨ok', list', hable', hlist', -⟩ := ableAnGang_exact hlen ⟨[], [], fun _ => none⟩
    rw [hable, Prod.mk.injEq, Option.some.injEq] at hable'
    rw [← hable'.2] at hlist'
    have hfound := (hlist' card).mp ((hlist card).mpr hfour)
    exact ⟨hfound.1, hfound.2.2⟩
  · obtain ⟨ok, list, hable, hlist, hok⟩ := ableAnGang_exact hlen s
    refine ⟨ok, list, hable, fun card => (hlist card).trans ⟨fun hc => hc.2.1, fun hfour => ?_⟩,
      hok⟩
    obtain ⟨hle, hall⟩ := h card hfour
    exact ⟨hle, hfour, hall⟩

omit hlen

theorem kongs_exact_iff_two : [1, 1, 1, 1, 2].length % 3 = 2 ∧ (KongsExact [1, 1, 1, 1, 2] [2] ↔
    ∀ card, 4 ≤ [1, 1, 1, 1, 2].count card → 1 ≤ card ∧ ∀ c, 1 ≤ c → c ≤ card →
      c ∈ [1, 1, 1, 1, 2]) :=
  ⟨rfl, (kongs_exact_iff rfl [2]).1⟩

/-- Four tiles of a hand that has no tile 1. -/
theorem kong_missed : (ableAnGang ⟨[], [], fun _ => none⟩ [17, 17, 17, 17, 18]).1 =
    (false, some []) ∧ ¬ KongsExact [17, 17, 17, 17, 18] [] := by
  have hnone : (ableAnGang ⟨[], [], fun _ => none⟩ [17, 17, 17, 17, 18]).1 = (false, some []) := by
    decide
  refine ⟨hnone, fun h => ?_⟩
  obtain ⟨⟨ok, list, hable, hlist, -⟩, -⟩ := h ⟨[], [], fun _ => none⟩
  rw [hnone, Prod.mk.injEq, Option.some.injEq] at hable
  have hmem := (hlist 17).mpr (by decide)
  rw [← hable.2] at hmem
  exact List.not_mem_nil hmem

end XsServer.Mahjong
