import XsServer.Mahjong.Cbat
import XsServer.Mahjong.Wins
import Mathlib.Tactic.Positivity

/-! When `isHuCards` accepts a hand without wild tiles, and when it is right. -/

namespace XsServer.Mahjong

/-- The decimal digits of the counts of a class, where a count of ten or more carries. -/
def carried (s : Multiset Nat) : List Nat :=
  (Nat.digits 10 (Nat.ofDigits 10 (code s).reverse)).reverse

/-- At least three tiles, at most seventeen, at most five of a value, at most one value with five,
and values at most eight apart. -/
structure Small (s : Multiset Nat) : Prop where
  copies : ∀ v ∈ s, s.count v ≤ 5
  fives : fives s ≤ 1
  range : greatest s ≤ least s + 8
  three : 3 ≤ s.card
  most : s.card ≤ 17

theorem listed_carried_iff {s : Multiset Nat} (hs : s ≠ 0) (h : ∀ v, s.count v ≤ 9) :
    Listed (carried s) ↔ Divides true s ∧ Small s := by
  rw [carried, digits_code hs h, List.reverse_reverse]
  have hspan := le_greatest (least_mem hs)
  constructor
  · intro hl
    have hlen := hl.span
    rw [length_code] at hlen
    refine ⟨divides_ofCode_code.mp hl.divides, fun v hv => ?_,
      count_five_code s ▸ hl.five, by omega, sum_code s ▸ hl.three, sum_code s ▸ hl.most⟩
    have hlow := least_le hv
    have hhigh := le_greatest hv
    exact hl.copies _ (List.mem_map.mpr ⟨v, List.mem_range'_1.mpr (by omega), rfl⟩)
  · rintro ⟨hdivides, hcopies, hfives, hrange, hthree, hmost⟩
    refine ⟨fun c hc => ?_, count_five_code s ▸ hfives, ?_, (sum_code s).symm ▸ hthree,
      (sum_code s).symm ▸ hmost, ?_, divides_ofCode_code.mpr hdivides⟩
    · obtain ⟨v, -, rfl⟩ := List.mem_map.mp hc
      by_cases hv : v ∈ s
      · exact hcopies v hv
      · rw [Multiset.count_eq_zero.mpr hv]
        exact Nat.zero_le 5
    · rw [length_code]
      omega
    · rw [getLast_code hs]
      exact fun h0 => Multiset.count_ne_zero.mpr (greatest_mem hs) (Option.some.inj h0)

theorem channel_ne_zero {s : Multiset Nat} (hs : s ≠ 0) : channel s ≠ 0 := by
  have hpos : 0 < s.count (least s) := Multiset.count_pos.mpr (least_mem hs)
  rw [channel_eq, code, List.range'_succ, List.map_cons, List.reverse_cons, Nat.ofDigits_append,
    Nat.ofDigits_singleton]
  positivity

theorem isChannel_iff {mapHuCards : Nat → Bool} (h : Printed mapHuCards) {s : Multiset Nat}
    (hs : s ≠ 0) : isChannel mapHuCards s = true ↔ Listed (carried s) := by
  rw [isChannel, printed_iff h (channel_ne_zero hs), channel_eq, carried]

namespace Algor

variable {a : Algor} {mapHuCards : Nat → Bool}

/-- What the loop of `nolaiziJiangHuCard` asks of one class. -/
structure Passes (a : Algor) (mapHuCards : Nat → Bool) (jvs : Multiset Nat) (ji : Nat) : Prop where
  rest : jvs.card % 3 ≠ 1
  channel : a.isJoint ji = some true → jvs ≠ 0 → isChannel mapHuCards jvs = true
  honours : a.isJoint ji = some false → ∀ jv ∈ jvs, jvs.count jv % 3 ≠ 1

theorem passes_zero (ji : Nat) : Passes a mapHuCards 0 ji :=
  ⟨by decide, fun _ h => absurd rfl h, fun _ _ h => absurd h (Multiset.notMem_zero _)⟩

theorem checkMelds_iff {jvs : Multiset Nat} {ji : Nat} (hjvs : jvs ≠ 0)
    (hjoint : (a.isJoint ji).isSome) (hrest : jvs.card % 3 ≠ 1) (next : Option Bool) :
    (a.checkMelds mapHuCards ji jvs).bind (fun ok => if ok then next else some false) = some true ↔
      Passes a mapHuCards jvs ji ∧ next = some true := by
  have htest : a.checkMelds mapHuCards ji jvs = some true ↔ Passes a mapHuCards jvs ji := by
    obtain ⟨joint, hj⟩ := Option.isSome_iff_exists.mp hjoint
    rw [checkMelds, hj, Option.map_some, Option.some.injEq]
    cases joint with
    | true =>
      rw [if_pos rfl]
      exact ⟨fun hc => ⟨hrest, fun _ _ => hc, fun hf => by simp [hj] at hf⟩,
        fun h => h.channel hj hjvs⟩
    | false =>
      rw [if_neg (by decide), decide_eq_true_iff]
      exact ⟨fun hc => ⟨hrest, fun ht => by simp [hj] at ht, fun _ => hc⟩, fun h => h.honours hj⟩
  rw [← htest, Option.bind_eq_some_iff]
  constructor
  · rintro ⟨ok, hok, hnext⟩
    cases ok with
    | true => exact ⟨hok, hnext⟩
    | false => cases hnext
  · rintro ⟨hok, hnext⟩
    exact ⟨true, hok, hnext⟩

theorem checkClasses_iff {ufy : Unify}
    (hnum : ∀ ji, (ufy.mjGapls ji).num = (ufy.mjClass ji).card)
    (hjoint : ∀ ji, ufy.mjClass ji ≠ 0 → (a.isJoint ji).isSome) (l : List Nat) {n2 : Nat}
    (hn2 : n2 ≤ 1) :
    a.checkClasses mapHuCards ufy l n2 = some true ↔
      (∀ ji ∈ l, Passes a mapHuCards (ufy.mjClass ji) ji) ∧
      (n2 = 1 → ∀ ji ∈ l, (ufy.mjClass ji).card % 3 ≠ 2) ∧
      l.Pairwise fun ji jk => (ufy.mjClass ji).card % 3 = 2 → (ufy.mjClass jk).card % 3 ≠ 2 := by
  induction l generalizing n2 with
  | nil => simp [checkClasses]
  | cons ji rest ih =>
    have hcons : (∀ jk ∈ ji :: rest, Passes a mapHuCards (ufy.mjClass jk) jk) ↔
        Passes a mapHuCards (ufy.mjClass ji) ji ∧
          ∀ jk ∈ rest, Passes a mapHuCards (ufy.mjClass jk) jk := List.forall_mem_cons
    rw [checkClasses, hcons, List.forall_mem_cons, List.pairwise_cons]
    by_cases hempty : ufy.mjClass ji = 0
    · rw [if_pos hempty, ih hn2, hempty]
      simp [passes_zero]
    rw [if_neg hempty]
    by_cases hone : (ufy.mjClass ji).card % 3 = 1
    · rw [if_pos (by rw [hnum]; omega)]
      simp only [Option.some.injEq, Bool.false_eq_true, false_iff]
      exact fun h => h.1.1.rest hone
    rw [if_neg (by rw [hnum]; omega)]
    by_cases htwo : (ufy.mjClass ji).card % 3 = 2
    · have hn : (if (ufy.mjGapls ji).num % 3 = 2 then n2 + 1 else n2) = n2 + 1 :=
        if_pos (by rw [hnum]; omega)
      rw [hn]
      by_cases hfirst : n2 = 0
      · subst hfirst
        rw [if_neg (by decide), checkMelds_iff hempty (hjoint ji hempty) hone, ih (by decide)]
        simp [htwo, and_assoc]
      · rw [if_pos (by omega)]
        simp only [Option.some.injEq, Bool.false_eq_true, false_iff]
        exact fun h => (h.2.1 (by omega)).1 htwo
    · have hn : (if (ufy.mjGapls ji).num % 3 = 2 then n2 + 1 else n2) = n2 :=
        if_neg (by rw [hnum]; omega)
      rw [hn, if_neg (by omega), checkMelds_iff hempty (hjoint ji hempty) hone, ih hn2]
      simp [htwo, and_assoc]

/-! ### A whole hand -/

variable {n : Nat} {s : Multiset Nat} {hands : List Nat}

theorem isSome_isJoint (h : Classed a n) {ji : Nat} (hne : a.held s ji ≠ 0) :
    (a.isJoint ji).isSome := by
  obtain ⟨v, hv⟩ := Multiset.exists_mem_of_ne_zero hne
  obtain ⟨mj, hmj, -⟩ := Multiset.mem_map.mp hv
  obtain ⟨⟨jk, unit⟩, hunit, rfl⟩ := Option.map_eq_some_iff.mp (Multiset.mem_filter.mp hmj).2
  simp [isJoint, h.mclass hunit]

def Served (a : Algor) (s : Multiset Nat) : Prop :=
  ∀ mj ∈ s, ∃ ji ∈ classIDs, a.getSupportClassID mj = some ji

/-- The remainders allow a win: no class has one tile over, one class at most has two over, and no
honour is left single. -/
structure Fits (a : Algor) (s : Multiset Nat) : Prop where
  rest : ∀ ji, (a.held s ji).card % 3 ≠ 1
  one : a.OneOver s
  honours : ∀ ji, a.isJoint ji = some false → ∀ v, (a.held s ji).count v % 3 ≠ 1

def InTable (a : Algor) (s : Multiset Nat) : Prop :=
  ∀ ji, a.isJoint ji = some true → a.held s ji ≠ 0 → Listed (carried (a.held s ji))

def SuitsDivide (a : Algor) (s : Multiset Nat) : Prop :=
  ∀ ji, a.isJoint ji = some true → Divides true (a.held s ji)

/-- No class of honours has two pairs. -/
def HonoursPair (a : Algor) (s : Multiset Nat) : Prop :=
  ∀ ji, a.isJoint ji = some false → OnePair (a.held s ji)

theorem held_eq_zero (hserved : a.Served s) {ji : Nat} (hji : ji ∉ classIDs) : a.held s ji = 0 := by
  rw [held, Multiset.filter_eq_nil.mpr fun mj hmj hclass => ?_, Multiset.map_zero]
  obtain ⟨jk, hjk, hmjk⟩ := hserved mj hmj
  exact hji (Option.some.inj (hclass.symm.trans hmjk) ▸ hjk)

theorem passes_iff (hmap : Printed mapHuCards) (hserved : a.Served s) :
    ((∀ ji ∈ classIDs, Passes a mapHuCards (a.held s ji) ji) ∧
      classIDs.Pairwise fun ji jk =>
        (a.held s ji).card % 3 = 2 → (a.held s jk).card % 3 ≠ 2) ↔ a.Fits s ∧ a.InTable s := by
  have hmem {ji : Nat} (hcard : (a.held s ji).card % 3 = 2) : ji ∈ classIDs := by
    by_contra hji
    rw [held_eq_zero hserved hji] at hcard
    cases hcard
  constructor
  · rintro ⟨hpasses, hpair⟩
    have hall (ji : Nat) : Passes a mapHuCards (a.held s ji) ji := by
      by_cases hji : ji ∈ classIDs
      · exact hpasses ji hji
      · rw [held_eq_zero hserved hji]
        exact passes_zero ji
    refine ⟨⟨fun ji => (hall ji).rest, fun ji jk hi hk => ?_, fun ji hj v => ?_⟩,
      fun ji hj hne => ?_⟩
    · by_contra hne
      have : Std.Symm fun ji jk =>
          (a.held s ji).card % 3 = 2 → (a.held s jk).card % 3 ≠ 2 :=
        ⟨fun _ _ hij hj hi => hij hi hj⟩
      exact hpair.forall (hmem hi) (hmem hk) hne hi hk
    · by_cases hv : v ∈ a.held s ji
      · exact (hall ji).honours hj v hv
      · rw [Multiset.count_eq_zero.mpr hv]
        decide
    · exact (isChannel_iff hmap hne).mp ((hall ji).channel hj hne)
  · rintro ⟨hfits, htable⟩
    refine ⟨fun ji _ => ⟨hfits.rest ji, fun hj hne => ?_, fun hj v _ => hfits.honours ji hj v⟩, ?_⟩
    · exact (isChannel_iff hmap hne).mpr (htable ji hj hne)
    · have hnodup : classIDs.Nodup := by decide
      exact hnodup.pairwise_of_forall_ne fun ji _ jk _ hne hi hk => hne (hfits.one ji jk hi hk)

/-- `isHuCards(getUnifyHands(hands))`, with an error as `none`. -/
def isHu (a : Algor) (mapHuCards : Nat → Bool) (hands : List Nat) (count : Int) : Option Bool :=
  (a.getUnifyHands hands).bind fun ufy => (a.isHuCards mapHuCards ufy count).1

theorem isHu_iff (h : Classed a n) (h7 : a.support_7pairs = false) (hmap : Printed mapHuCards)
    (htame : ∀ mj ∈ hands, a.ifRuffian mj = false) {count : Int} (hcount : 0 < count) {k : Nat}
    (hsize : hands.length = 3 * k + 2) :
    a.isHu mapHuCards hands count = some true ↔ a.Served hands ∧ a.Fits hands ∧
    a.InTable hands := by
  by_cases hserved : a.Served hands
  · obtain ⟨ufy, hufy, hunified⟩ := getUnifyHands_some hserved
    have hclass : ufy.mjClass = a.held hands := by
      funext ji
      rw [hunified.mjClass]
      simp [Unify.init]
    have hnum (ji : Nat) : (ufy.mjGapls ji).num = (ufy.mjClass ji).card := by
      rw [hunified.num, hclass]
      simp [Unify.init]
    have hlz : ufy.lzcount = 0 := hunified.lzcount htame
    have hsp : ufy.spcount % 3 = 2 := by
      rw [hunified.spcount]
      simp only [Unify.init]
      omega
    have hcheck : a.isHu mapHuCards hands count = a.nolaiziJiangHuCard mapHuCards ufy := by
      rw [isHu, hufy, Option.bind_some, isHuCards, if_neg (by omega)]
      simp [checkHu, hsp, hlz, h7]
    rw [hcheck, nolaiziJiangHuCard, checkClasses_iff hnum
      (fun ji hne => isSome_isJoint h (hclass ▸ hne)) classIDs (Nat.zero_le 1), hclass,
      ← passes_iff hmap hserved]
    simp [hserved]
  · obtain ⟨mj, hmj, hnone⟩ : ∃ mj ∈ hands, ∀ ji ∈ classIDs, a.getSupportClassID mj ≠ some ji := by
      simpa [Served] using hserved
    rw [isHu, getUnifyHands_none hmj hnone]
    simp [hserved]

theorem wins_iff_fits (h : Classed a n) (hknown : a.Known s) {k : Nat}
    (hsize : s.card = 3 * k + 2) :
    a.Wins s k ↔ a.Fits s ∧ a.SuitsDivide s ∧ a.HonoursPair s := by
  rw [wins_iff h hknown hsize]
  have hfalse {ji : Nat} (hj : a.isJoint ji = some false) : a.joint ji = false := by
    simp [joint, hj]
  constructor
  · rintro ⟨hdivides, hone⟩
    have hhonours {ji : Nat} (hj : a.isJoint ji = some false) :=
      divides_false_iff.mp (hfalse hj ▸ hdivides ji)
    refine ⟨⟨fun ji => (hdivides ji).card, hone, fun ji hj => (hhonours hj).1⟩, fun ji hj => ?_,
      fun ji hj => (hhonours hj).2⟩
    exact joint_eq_true.mpr hj ▸ hdivides ji
  · rintro ⟨hfits, hsuits, hpairs⟩
    refine ⟨fun ji => ?_, hfits.one⟩
    cases hj : a.isJoint ji with
    | none =>
      have hzero : a.held s ji = 0 := by
        by_contra hne
        have hsome := isSome_isJoint h hne
        rw [hj] at hsome
        cases hsome
      rw [hzero]
      exact .inl Lib.Splits.zero
    | some joint =>
      cases joint with
      | true =>
        rw [joint_eq_true.mpr hj]
        exact hsuits ji hj
      | false =>
        rw [hfalse hj]
        exact divides_false_iff.mpr ⟨hfits.honours ji hj, hpairs ji hj⟩

/-- A suit that divides is small, or it is in the table because a count of ten or more carries. -/
def Tabled (s : Multiset Nat) : Prop := Small s ∨ (∃ v, 9 < s.count v) ∧ Listed (carried s)

theorem listed_carried_iff_tabled {s : Multiset Nat} (hs : s ≠ 0) (h : Divides true s) :
    Listed (carried s) ↔ Tabled s := by
  by_cases hcarry : ∃ v, 9 < s.count v
  · obtain ⟨v, hv⟩ := hcarry
    have hnot : ¬Small s := fun hsmall => by
      have hle := hsmall.copies v (Multiset.count_pos.mp (by omega))
      omega
    rw [Tabled, or_iff_right hnot, and_iff_right ⟨v, hv⟩]
  · have hle : ∀ v, s.count v ≤ 9 := fun v => Nat.not_lt.mp fun hv => hcarry ⟨v, hv⟩
    rw [Tabled, listed_carried_iff hs hle, and_iff_right h, or_iff_left fun hc => hcarry hc.1]

structure Judged (a : Algor) (s : Multiset Nat) : Prop where
  /-- Where the suits divide, no honours have two pairs if and only if no suit is outside the table,
  such as a suit of two tiles. -/
  pairs : a.Fits s → a.SuitsDivide s → (a.HonoursPair s ↔
    a.Served s ∧ ∀ ji, a.isJoint ji = some true → a.held s ji ≠ 0 → Tabled (a.held s ji))
  /-- No suit that does not divide is in the table, where a count of ten or more carries. -/
  carry : a.Fits s → a.Served s → a.InTable s → a.SuitsDivide s

theorem inTable_iff_tabled (h : a.SuitsDivide s) : a.InTable s ↔
    ∀ ji, a.isJoint ji = some true → a.held s ji ≠ 0 → Tabled (a.held s ji) :=
  forall_congr' fun ji => forall_congr' fun hj => forall_congr' fun hne =>
    listed_carried_iff_tabled hne (h ji hj)

theorem judged_iff (hcount : ∀ ji v, (a.held s ji).count v ≤ 9) : a.Judged s ↔
    (a.Fits s → a.SuitsDivide s → (a.HonoursPair s ↔
      a.Served s ∧ ∀ ji, a.isJoint ji = some true → a.held s ji ≠ 0 → Small (a.held s ji))) := by
  have htabled : ∀ ji, Tabled (a.held s ji) ↔ Small (a.held s ji) := fun ji =>
    or_iff_left fun ⟨⟨v, hv⟩, _⟩ => Nat.not_lt.mpr (hcount ji v) hv
  have hcarry : a.InTable s → a.SuitsDivide s := fun htable ji hj => by
    by_cases hne : a.held s ji = 0
    · rw [hne]
      exact .inl Lib.Splits.zero
    · exact ((listed_carried_iff hne (hcount ji)).mp (htable ji hj hne)).1
  constructor
  · intro h hfits hdivides
    simpa only [htabled] using h.pairs hfits hdivides
  · intro h
    exact ⟨fun hfits hdivides => by simpa only [htabled] using h hfits hdivides,
      fun _ _ => hcarry⟩

/-- The check of a hand without wild tiles is right exactly on these hands. -/
theorem isHu_iff_wins_iff (hnew : a.Unclassed) (h7 : a.support_7pairs = false)
    (hmap : Printed mapHuCards) (ts : List MjUnit)
    (hknown : (a.setSupportClasss ts).Known hands)
    (htame : ∀ mj ∈ hands, a.ifRuffian mj = false) {count : Int} (hcount : 0 < count) {k : Nat}
    (hsize : hands.length = 3 * k + 2) :
    ((a.setSupportClasss ts).isHu mapHuCards hands count = some true ↔
        (a.setSupportClasss ts).Wins hands k) ↔
      (a.setSupportClasss ts).Judged hands := by
  have hclassed := hnew.setSupportClasss ts
  have hrules := setSupportClasss_rules (a := a) ts
  have htame' : ∀ mj ∈ hands, (a.setSupportClasss ts).ifRuffian mj = false := by
    intro mj hmj
    rw [ifRuffian, hrules.laizis]
    exact htame mj hmj
  rw [isHu_iff hclassed (hrules.pairs7.trans h7) hmap htame' hcount hsize,
    wins_iff_fits hclassed hknown hsize]
  constructor
  · intro h
    refine ⟨fun hfits hsuits => ?_, fun hfits hserved htable => (h.mp ⟨hserved, hfits, htable⟩).2.1⟩
    rw [← inTable_iff_tabled hsuits]
    exact ⟨fun hpairs => (h.mpr ⟨hfits, hsuits, hpairs⟩).imp_right And.right,
      fun ⟨hserved, htable⟩ => (h.mp ⟨hserved, hfits, htable⟩).2.2⟩
  · intro h
    constructor
    · rintro ⟨hserved, hfits, htable⟩
      have hsuits := h.carry hfits hserved htable
      exact ⟨hfits, hsuits,
        (h.pairs hfits hsuits).mpr ⟨hserved, (inTable_iff_tabled hsuits).mp htable⟩⟩
    · rintro ⟨hfits, hsuits, hpairs⟩
      obtain ⟨hserved, htable⟩ := (h.pairs hfits hsuits).mp hpairs
      exact ⟨hserved, hfits, (inTable_iff_tabled hsuits).mpr htable⟩

/-- The check of `cbat.lua`'s test: 万, 条, 筒 and 字. -/
def tested : Algor :=
  (Algor.new.setSupport7pairs false).setSupportClasss
    [⟨0, 1, 9, true, by decide⟩, ⟨1, 1, 9, true, by decide⟩, ⟨2, 1, 9, true, by decide⟩,
      ⟨3, 1, 7, false, by decide⟩]

def printed (n : Nat) : Bool := decide (n ∈ normat ∨ n ∈ normatJiang)

theorem printed_printed : Printed printed := fun _ => decide_eq_true_iff

theorem unclassed_new : (Algor.new.setSupport7pairs false).Unclassed := ⟨fun _ => rfl, fun _ => rfl⟩

/-- A pair of 二条 and a triplet of 一万. -/
theorem isHu_iff_wins_iff_pair :
    (tested.isHu printed [0x01, 0x01, 0x01, 0x12, 0x12] 1 = some true ↔
        tested.Wins ([0x01, 0x01, 0x01, 0x12, 0x12] : List Nat) 1) ↔
      tested.Judged ([0x01, 0x01, 0x01, 0x12, 0x12] : List Nat) :=
  isHu_iff_wins_iff unclassed_new rfl printed_printed _ (by unfold Known; decide) (fun _ _ => rfl)
    (by decide) rfl

/-- 111222333 of 万, 111 of 条 and a pair of 筒. -/
def suitPair : List Nat :=
  [0x01, 0x01, 0x01, 0x02, 0x02, 0x02, 0x03, 0x03, 0x03, 0x11, 0x11, 0x11, 0x22, 0x22]

theorem held_suitPair : tested.held suitPair 3 = {2, 2} := by decide

theorem wins_suitPair : tested.Wins suitPair 4 := by
  refine ⟨0x22, {{1, 1, 1}, {2, 2, 2}, {3, 3, 3}, {0x11, 0x11, 0x11}}, rfl, fun m hm => .inl ?_,
    by decide⟩
  simp only [Multiset.insert_eq_cons, Multiset.mem_cons, Multiset.mem_singleton] at hm
  rcases hm with rfl | rfl | rfl | rfl
  · exact ⟨1, rfl⟩
  · exact ⟨2, rfl⟩
  · exact ⟨3, rfl⟩
  · exact ⟨0x11, rfl⟩

/-- The table has no pair without a meld. -/
theorem suit_pair_refused :
    ¬(tested.isHu printed suitPair 1 = some true ↔ tested.Wins suitPair 4) := by
  intro h
  have hclassed : Classed tested 5 := unclassed_new.setSupportClasss _
  have hhu := (isHu_iff hclassed rfl printed_printed (fun _ _ => rfl)
    (by decide) (k := 4) rfl).mp (h.mpr wins_suitPair)
  have hlisted := hhu.2.2 3 rfl (by rw [held_suitPair]; decide)
  rw [held_suitPair, listed_carried_iff (by decide)] at hlisted
  · exact absurd hlisted.2.three (by decide)
  · intro v
    exact (Multiset.count_le_card v _).trans (by decide)

end Algor

end XsServer.Mahjong
