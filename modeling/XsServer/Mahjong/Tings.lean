import XsServer.Mahjong.Hu

/-! The hints of `mahjong/algor.lua`: `clamp_unity` changes the summary of a hand by one tile, and
`getWhoTings` and `getWhoXuans` try the tiles that may be drawn. -/

namespace XsServer.Mahjong

/-- The keys under which `clamp_unity` notes a tile. -/
inductive Kfd
  | getCard
  | casCard
  deriving DecidableEq

/-- A `mjUnify` with the tiles that are noted in it. -/
structure Unity extends Unify where
  noted : Kfd → Option Nat

/-- A `mjUnify` as `getUnifyHands` gives it. -/
def Unity.of (ufy : Unify) : Unity := ⟨ufy, fun _ => none⟩

/-- `(has[k] or 0) + add` -/
def shift (has : Nat → Option Int) (k : Nat) (add : Int) : Nat → Option Int :=
  Function.update has k (some ((has k).getD 0 + add))

def MjGap.clamp (gap : MjGap) (jv : Nat) (add : Int) : MjGap :=
  ⟨Nat.min gap.min jv, Nat.max gap.max jv, gap.num + add⟩

def Unity.note (ufy : Unity) (kfd : Kfd) (add : Int) (cmj : Nat) : Unity :=
  if add = 1 then { ufy with noted := Function.update ufy.noted kfd (some cmj) }
  else if add = -1 then { ufy with noted := Function.update ufy.noted kfd none }
  else ufy

theorem MjGap.add_spreads (gap : MjGap) (ve : Nat) :
    (gap.add ve).min ≤ gap.min ∧ (gap.add ve).min ≤ ve ∧
      gap.max ≤ (gap.add ve).max ∧ ve ≤ (gap.add ve).max :=
  ⟨Nat.min_le_right _ _, Nat.min_le_left _ _, Nat.le_max_right _ _, Nat.le_max_left _ _⟩

namespace Algor

variable (a : Algor)

/-- `none` is an error: a tile of no unit, or of a class that `mjGapls` does not have. -/
def clampUnity (ufy : Unity) (add : Int) (cmj : Nat) (kfd : Kfd) : Option Unity :=
  if a.ifRuffian cmj then some { ufy with lzcount := ufy.lzcount + add }
  else
    match a.getSupportClassID cmj with
    | none => none
    | some ji =>
      if ji ∈ classIDs then
        some <| Unity.note { ufy with
          spcount := ufy.spcount + add
          mjMpacw := shift ufy.mjMpacw (getColor cmj) add
          mjMpasw := shift ufy.mjMpasw cmj add
          mjGapls := Function.update ufy.mjGapls ji ((ufy.mjGapls ji).clamp (getValue cmj) add) }
          kfd add cmj
      else none

/-! ### The fast path and the slow one -/

/-- What `clamp_unity` leaves agrees with the summary of the new hand, in the fields that are
read. -/
structure Agrees (ufy ufy' : Unify) : Prop where
  spcount : ufy.spcount = ufy'.spcount
  lzcount : ufy.lzcount = ufy'.lzcount
  mjMpacw : ufy.mjMpacw = ufy'.mjMpacw
  mjMpasw : ufy.mjMpasw = ufy'.mjMpasw
  mjGapls : ufy.mjGapls = ufy'.mjGapls
  mjClass : ufy.mjClass = ufy'.mjClass

variable {a} {hands : List Nat} {ufy : Unify}

/-- What the loop of `getUnifyHands` has noted of the tiles that it has seen. -/
structure Seen (a : Algor) (seen : List Nat) (ufy : Unify) : Prop where
  mjhands : ufy.mjhands = seen.filter fun mj => ! a.ifRuffian mj
  color : ∀ mj ∈ seen, ufy.mjMpacw (getColor mj) ≠ none
  value : ∀ mj ∈ seen, ∀ ji, a.getSupportClassID mj = some ji →
    (ufy.mjGapls ji).min ≤ getValue mj ∧ getValue mj ≤ (ufy.mjGapls ji).max

theorem unify_eq_some {ufy' : Unify} {mj : Nat} (h : a.unify ufy mj = some ufy') :
    ∃ ji ∈ classIDs, a.getSupportClassID mj = some ji ∧ ufy' = { ufy with
      mjMpacw := tally ufy.mjMpacw (getColor mj)
      lzcount := if a.ifRuffian mj then ufy.lzcount + 1 else ufy.lzcount
      mjhands := if a.ifRuffian mj then ufy.mjhands else ufy.mjhands ++ [mj]
      mjClass := Function.update ufy.mjClass ji (getValue mj ::ₘ ufy.mjClass ji)
      mjGapls := Function.update ufy.mjGapls ji ((ufy.mjGapls ji).add (getValue mj)) } := by
  rw [unify] at h
  cases hclass : a.getSupportClassID mj with
  | none => rw [hclass] at h; cases h
  | some ji =>
    rw [hclass] at h
    by_cases hji : ji ∈ classIDs
    · refine ⟨ji, hji, rfl, ?_⟩
      simp only [if_pos hji, Option.some.injEq] at h
      rw [← h]
      split <;> rfl
    · simp only [if_neg hji] at h
      cases h

theorem Seen.snoc {seen : List Nat} {mj : Nat} {ufy' : Unify} (h : Seen a seen ufy)
    (hstep : a.unify ufy mj = some ufy') : Seen a (seen ++ [mj]) ufy' := by
  obtain ⟨ji, -, hclass, rfl⟩ := unify_eq_some hstep
  refine ⟨?_, fun x hx => ?_, fun x hx jk hjk => ?_⟩
  · simp only [List.filter_append, h.mjhands]
    cases hlz : a.ifRuffian mj <;> simp [hlz]
  · simp only [tally, Function.update_apply]
    split
    · exact Option.some_ne_none _
    · next hne =>
      obtain hx | hx := List.mem_append.mp hx
      · exact h.color x hx
      · exact absurd (congrArg getColor (List.mem_singleton.mp hx)) hne
  · simp only [Function.update_apply]
    split
    · next heq =>
      subst heq
      have hspread := (ufy.mjGapls jk).add_spreads (getValue mj)
      obtain hx | hx := List.mem_append.mp hx
      · have := h.value x hx jk hjk
        omega
      · rw [List.mem_singleton.mp hx]
        omega
    · next hne =>
      obtain hx | hx := List.mem_append.mp hx
      · exact h.value x hx jk hjk
      · rw [List.mem_singleton.mp hx, hclass] at hjk
        exact absurd (Option.some.inj hjk).symm hne

theorem foldlM_seen {I : List Nat → Unify → Prop} {ufy' : Unify} {seen : List Nat} (h0 : I seen ufy)
    (hstep : ∀ seen ufy mj ufy', I seen ufy → a.unify ufy mj = some ufy' → I (seen ++ [mj]) ufy')
    (h : hands.foldlM a.unify ufy = some ufy') : I (seen ++ hands) ufy' := by
  induction hands generalizing seen ufy with
  | nil =>
    obtain rfl := Option.some.inj h
    rwa [List.append_nil]
  | cons mj hands ih =>
    rw [List.foldlM_cons] at h
    obtain ⟨ufy₁, hmj, hrest⟩ := Option.bind_eq_some_iff.mp h
    rw [List.append_cons]
    exact ih (hstep _ _ _ _ h0 hmj) hrest

theorem unify_spcount (ufy : Unify) (spcount : Int) (mj : Nat) :
    a.unify { ufy with spcount } mj =
      (a.unify ufy mj).map fun ufy => { ufy with spcount } := by
  rw [unify, unify]
  cases a.getSupportClassID mj with
  | none => rfl
  | some ji =>
    by_cases hji : ji ∈ classIDs
    · simp only [if_pos hji, Option.map_some]
      split <;> rfl
    · simp only [if_neg hji]
      rfl

theorem foldlM_spcount (hands : List Nat) (ufy : Unify) (spcount : Int) :
    hands.foldlM a.unify { ufy with spcount } =
      (hands.foldlM a.unify ufy).map fun ufy => { ufy with spcount } := by
  induction hands generalizing ufy with
  | nil => rfl
  | cons mj hands ih =>
    rw [List.foldlM_cons, List.foldlM_cons, unify_spcount]
    cases a.unify ufy mj with
    | none => rfl
    | some ufy' => exact ih ufy'

theorem getUnifyHands_append {c : Nat} {ufy' : Unify} (htame : a.ifRuffian c = false)
    (hufy : a.getUnifyHands hands = some ufy) (h : a.getUnifyHands (hands ++ [c]) = some ufy') :
    ∃ ji ∈ classIDs, a.getSupportClassID c = some ji ∧ ufy'.spcount = ufy.spcount + 1 ∧
      ufy'.lzcount = ufy.lzcount ∧ ufy'.mjMpacw = tally ufy.mjMpacw (getColor c) ∧
      ufy'.mjMpasw = tally ufy.mjMpasw c ∧
      ufy'.mjClass = Function.update ufy.mjClass ji (getValue c ::ₘ ufy.mjClass ji) ∧
      ufy'.mjGapls = Function.update ufy.mjGapls ji ((ufy.mjGapls ji).add (getValue c)) := by
  obtain ⟨u, hu, rfl⟩ := Option.map_eq_some_iff.mp hufy
  obtain ⟨v, hv, rfl⟩ := Option.map_eq_some_iff.mp h
  have hinit : Unify.init (hands ++ [c]) =
      { Unify.init hands with spcount := ((hands ++ [c]).length : Int) } := rfl
  rw [hinit, foldlM_spcount, List.foldlM_append, hu] at hv
  obtain ⟨w, hw, rfl⟩ := Option.map_eq_some_iff.mp hv
  have hstep : a.unify u c = some w := by
    rw [Option.bind_eq_bind, Option.bind_some, List.foldlM_cons] at hw
    obtain ⟨w', hw', hnil⟩ := Option.bind_eq_some_iff.mp hw
    rwa [← Option.some.inj hnil]
  obtain ⟨ji, hji, hclass, rfl⟩ := unify_eq_some hstep
  have hsp : u.spcount = hands.length := by
    have hkeep : ∀ (seen : List Nat) (ufy : Unify) (mj : Nat) (ufy' : Unify),
        ufy.spcount = hands.length → a.unify ufy mj = some ufy' → ufy'.spcount = hands.length := by
      intro seen ufy mj ufy' hI hmj
      obtain ⟨jk, -, -, rfl⟩ := unify_eq_some hmj
      exact hI
    exact @foldlM_seen a hands _ (fun _ ufy => ufy.spcount = hands.length) u [] rfl hkeep hu
  refine ⟨ji, hji, hclass, ?_, ?_, rfl, ?_, rfl, rfl⟩
  · simp [hsp]
  · simp [htame]
  · simp [htame, arrToHas, List.foldl_append]

theorem arrToHas_append (arr : List Nat) (k : Nat) :
    arrToHas (arr ++ [k]) = tally (arrToHas arr) k := by
  rw [arrToHas, List.foldl_append]
  rfl

theorem arrToHas_eq_none_iff {arr : List Nat} {k : Nat} : arrToHas arr k = none ↔ k ∉ arr := by
  induction arr using List.reverseRecOn with
  | nil => simp [arrToHas]
  | append_singleton arr x ih =>
    rw [arrToHas_append, tally, Function.update_apply]
    by_cases hk : k = x
    · simp [hk]
    · simp [hk, ih]

theorem getUnifyHands_seen (hufy : a.getUnifyHands hands = some ufy) :
    (∀ mj, a.ifRuffian mj = false → (ufy.mjMpasw mj ≠ none ↔ mj ∈ hands)) ∧
      (∀ mj ∈ hands, ufy.mjMpacw (getColor mj) ≠ none) ∧
      ∀ mj ∈ hands, ∀ ji, a.getSupportClassID mj = some ji →
        (ufy.mjGapls ji).min ≤ getValue mj ∧ getValue mj ≤ (ufy.mjGapls ji).max := by
  obtain ⟨u, hu, rfl⟩ := Option.map_eq_some_iff.mp hufy
  have h0 : Seen a [] (Unify.init hands) := ⟨rfl, by simp, by simp⟩
  have hseen : Seen a ([] ++ hands) u :=
    foldlM_seen (I := Seen a) h0 (fun _ _ _ _ hs hmj => hs.snoc hmj) hu
  refine ⟨fun mj htame => ?_, hseen.color, hseen.value⟩
  have hmem : mj ∈ u.mjhands ↔ mj ∈ hands := by
    rw [hseen.mjhands]
    simp [htame]
  rw [← hmem, ne_eq, not_iff_comm]
  exact arrToHas_eq_none_iff.symm

theorem clampUnity_eq_some {v w : Unity} {add : Int} {c : Nat} {kfd : Kfd}
    (htame : a.ifRuffian c = false) (h : a.clampUnity v add c kfd = some w) :
    ∃ ji ∈ classIDs, a.getSupportClassID c = some ji ∧ w = Unity.note { v with
      spcount := v.spcount + add
      mjMpacw := shift v.mjMpacw (getColor c) add
      mjMpasw := shift v.mjMpasw c add
      mjGapls := Function.update v.mjGapls ji ((v.mjGapls ji).clamp (getValue c) add) }
      kfd add c := by
  rw [clampUnity, htame] at h
  cases hclass : a.getSupportClassID c with
  | none => rw [hclass] at h; cases h
  | some ji =>
    rw [hclass] at h
    by_cases hji : ji ∈ classIDs
    · refine ⟨ji, hji, rfl, ?_⟩
      simp only [Bool.false_eq_true, if_false, if_pos hji, Option.some.injEq] at h
      exact h.symm
    · simp only [Bool.false_eq_true, if_false, if_neg hji] at h
      cases h

theorem clampUnity_some {v : Unity} {add : Int} {c ji : Nat} {kfd : Kfd}
    (htame : a.ifRuffian c = false) (hclass : a.getSupportClassID c = some ji)
    (hji : ji ∈ classIDs) :
    a.clampUnity v add c kfd = some (Unity.note { v with
      spcount := v.spcount + add
      mjMpacw := shift v.mjMpacw (getColor c) add
      mjMpasw := shift v.mjMpasw c add
      mjGapls := Function.update v.mjGapls ji ((v.mjGapls ji).clamp (getValue c) add) }
      kfd add c) := by
  rw [clampUnity, htame, hclass]
  simp only [Bool.false_eq_true, if_false, if_pos hji]

theorem shift_shift (has : Nat → Option Int) (k : Nat) :
    shift (shift has k 1) k (-1) = has ↔ has k ≠ none := by
  have hshift : shift (shift has k 1) k (-1) = Function.update has k (some ((has k).getD 0)) := by
    simp [shift]
  rw [hshift, Function.update_eq_self_iff]
  cases has k <;> simp

theorem clamp_clamp (gap : MjGap) (jv : Nat) :
    (gap.clamp jv 1).clamp jv (-1) = gap ↔ gap.min ≤ jv ∧ jv ≤ gap.max := by
  obtain ⟨low, high, num⟩ := gap
  simp only [MjGap.clamp, MjGap.mk.injEq]
  show min (min low jv) jv = low ∧ max (max high jv) jv = high ∧ _ ↔ _
  omega

theorem clamp_one (gap : MjGap) (jv : Nat) : gap.clamp jv 1 = gap.add jv :=
  congrArg₂ (MjGap.mk · · (gap.num + 1)) (Nat.min_comm _ _) (Nat.max_comm _ _)

/-- The two calls give back the summary if and only if the hand has the tile: else a count stays
behind, which is 0. -/
theorem clamp_restores_iff {c : Nat} {kfd : Kfd} {u : Unity} (htame : a.ifRuffian c = false)
    (hufy : a.getUnifyHands hands = some ufy) (hu : a.clampUnity (.of ufy) 1 c kfd = some u) :
    a.clampUnity u (-1) c kfd = some (.of ufy) ↔ c ∈ hands := by
  obtain ⟨hmjMpasw, hcolor, hvalue⟩ := getUnifyHands_seen hufy
  obtain ⟨ji, hji, hclass, rfl⟩ := clampUnity_eq_some htame hu
  rw [clampUnity_some htame hclass hji, Option.some.injEq, ← hmjMpasw c htame]
  constructor
  · intro h
    have hback := congrArg (fun ufy : Unity => ufy.mjMpasw) h
    exact (shift_shift ufy.mjMpasw c).mp hback
  · intro h
    have hmem := (hmjMpasw c htame).mp h
    have hsp : ufy.spcount + 1 + -1 = ufy.spcount := by omega
    have hcw := (shift_shift _ _).mpr (hcolor c hmem)
    have hsw := (shift_shift _ _).mpr h
    have hgap : Function.update (Function.update ufy.mjGapls ji
        ((ufy.mjGapls ji).clamp (getValue c) 1)) ji
        (((ufy.mjGapls ji).clamp (getValue c) 1).clamp (getValue c) (-1)) = ufy.mjGapls := by
      rw [(clamp_clamp _ _).mpr (hvalue c hmem ji hclass), Function.update_idem,
        Function.update_eq_self]
    have hnoted : Function.update (Function.update (fun _ => none) kfd (some c)) kfd none =
        (fun _ => none : Kfd → Option Nat) := by
      rw [Function.update_idem]
      exact Function.update_eq_self kfd _
    simp [Unity.note, Unity.of, hsp, hcw, hsw, hgap, hnoted]

/-- The update agrees with the recomputation, and taking the tile away restores the summary. -/
def Mirrors (a : Algor) (hands : List Nat) (c : Nat) (kfd : Kfd) : Prop :=
  ∃ ufy u v, a.getUnifyHands hands = some ufy ∧ a.clampUnity (.of ufy) 1 c kfd = some u ∧
    a.getUnifyHands (hands ++ [c]) = some v ∧ Agrees u.toUnify v ∧
    a.clampUnity u (-1) c kfd = some (.of ufy)

/-- `clamp_unity` never changes `mjClass`, so it does not mirror `getUnifyHands`; the other fields
agree, and the tile can be taken away again if the hand has it. -/
theorem clamp_unity_differs {c : Nat} {kfd : Kfd} (htame : a.ifRuffian c = false) :
    ¬ a.Mirrors hands c kfd ∧ ∀ ufy u v, a.getUnifyHands hands = some ufy →
      a.clampUnity (.of ufy) 1 c kfd = some u → a.getUnifyHands (hands ++ [c]) = some v →
      u.spcount = v.spcount ∧ u.lzcount = v.lzcount ∧ u.mjMpacw = v.mjMpacw ∧
        u.mjMpasw = v.mjMpasw ∧ u.mjGapls = v.mjGapls ∧ u.mjClass ≠ v.mjClass ∧
        (a.clampUnity u (-1) c kfd = some (.of ufy) ↔ c ∈ hands) := by
  have hdiffers : ∀ ufy u v, a.getUnifyHands hands = some ufy →
      a.clampUnity (.of ufy) 1 c kfd = some u → a.getUnifyHands (hands ++ [c]) = some v →
      u.spcount = v.spcount ∧ u.lzcount = v.lzcount ∧ u.mjMpacw = v.mjMpacw ∧
        u.mjMpasw = v.mjMpasw ∧ u.mjGapls = v.mjGapls ∧ u.mjClass ≠ v.mjClass := by
    intro ufy u v hufy hu hv
    obtain ⟨ji, hji, hclass, hsp, hlz, hcw, hsw, hmjClass, hgap⟩ :=
      getUnifyHands_append htame hufy hv
    obtain ⟨jk, -, hclass', rfl⟩ := clampUnity_eq_some htame hu
    obtain rfl := Option.some.inj (hclass.symm.trans hclass')
    refine ⟨hsp.symm, hlz.symm, hcw.symm, hsw.symm, ?_, fun heq => ?_⟩
    · rw [hgap]
      exact congrArg (Function.update ufy.mjGapls ji) (clamp_one _ _)
    · have hcard := congrArg (fun f => (f ji).card) (heq.trans hmjClass)
      simp [Unity.note, Unity.of] at hcard
  refine ⟨?_, fun ufy u v hufy hu hv => ?_⟩
  · rintro ⟨ufy, u, v, hufy, hu, hv, hagrees, -⟩
    exact (hdiffers ufy u v hufy hu hv).2.2.2.2.2 hagrees.mjClass
  · obtain ⟨hsp, hlz, hcw, hsw, hgap, hmjClass⟩ := hdiffers ufy u v hufy hu hv
    exact ⟨hsp, hlz, hcw, hsw, hgap, hmjClass, clamp_restores_iff htame hufy hu⟩

/-- A hand with a 一万, and another one. -/
theorem clamp_unity_differs_one : ¬ tested.Mirrors [0x01] 0x01 .getCard :=
  (clamp_unity_differs rfl).1

/-- A 二万 is added to a hand with a 一万: the class holds one tile as before, and when the 二万 is
taken away the greatest value stays. -/
theorem clamp_unity_class : ∃ ufy u v w,
    tested.getUnifyHands [0x01] = some ufy ∧ tested.clampUnity (.of ufy) 1 0x02 .getCard = some u ∧
      tested.getUnifyHands [0x01, 0x02] = some v ∧
      tested.clampUnity u (-1) 0x02 .getCard = some w ∧
      u.mjClass 1 = {1} ∧ v.mjClass 1 = {2, 1} ∧
      (ufy.mjGapls 1).max = 1 ∧ (w.mjGapls 1).max = 2 ∧
      ufy.mjMpasw 0x02 = none ∧ w.mjMpasw 0x02 = some 0 :=
  ⟨_, _, _, _, rfl, rfl, rfl, rfl, rfl, rfl, rfl, rfl, rfl, rfl⟩

/-! ### The hints -/

variable (a) (mapHuCards : Nat → Bool)

/-- Without wild tiles a tile is tried only if its colour comes out even. -/
def triesDeal (lzcount : Int) (ufy : Unity) (deal : Nat) : Bool :=
  if lzcount ≤ 0 ∧ ¬ a.ifRuffian deal then
    let ccnt := (ufy.mjMpacw (getColor deal)).getD 0
    let mnum := (ccnt + 1) % 3
    ¬ (2 ≠ mnum ∧ 0 ≠ mnum)
  else true

/-- `clamp_unity` with `add`, `isHuCards`, and `clamp_unity` back: the answer, the summary and what
is left of the budget. -/
def tryTile (ufy : Unity) (cmj : Nat) (count : Int) : Option (Bool × Unity × Int) := do
  let ufy ← a.clampUnity ufy 1 cmj .getCard
  let (answer, count) := a.isHuCards mapHuCards ufy.toUnify count
  let ok ← answer
  let ufy ← a.clampUnity ufy (-1) cmj .getCard
  return (ok, ufy, count)

/-- The loop of `getWhoTings` over `mjFull`, with the keys of `rtings`. -/
def tingsLoop (lzcount : Int) : List Nat → Unity → Int → List Nat → Option (List Nat × Int)
  | [], _, count, rtings => some (rtings, count)
  | deal :: mjFull, ufy, count, rtings =>
    if a.triesDeal lzcount ufy deal then do
      let (ok, ufy, count) ← a.tryTile mapHuCards ufy deal count
      tingsLoop lzcount mjFull ufy count (if ok then rtings ++ [deal] else rtings)
    else tingsLoop lzcount mjFull ufy count rtings

/-- The inner loop of `getWhoXuans`, with the keys of `rXuaks[cast]`: it tries the tile `cast`. -/
def castLoop (cast : Nat) : List Nat → Unity → Int → List Nat → Option (List Nat × Unity × Int)
  | [], ufy, count, tings => some (tings, ufy, count)
  | deal :: mjFull, ufy, count, tings => do
    let (ok, ufy, count) ← a.tryTile mapHuCards ufy cast count
    castLoop cast mjFull ufy count (if ok then tings ++ [deal] else tings)

/-- The outer loop; `mjFull` is read in its body. -/
def xuansLoop (mjFull : Option (List Nat)) :
    List Nat → Unity → Int → List (Nat × List Nat) → Option (List (Nat × List Nat) × Int)
  | [], _, count, rXuaks => some (rXuaks, count)
  | cast :: casts, ufy, count, rXuaks => do
    let ufy ← a.clampUnity ufy (-1) cast .casCard
    let full ← mjFull
    let (tings, ufy, count) ← a.castLoop mapHuCards cast full ufy count []
    let ufy ← a.clampUnity ufy 1 cast .casCard
    xuansLoop mjFull casts ufy count (if tings = [] then rXuaks else rXuaks ++ [(cast, tings)])

end Algor

/-- The object: `ctor` sets `_current_usages`, and the methods read `current_usages`.  Of a `mjUsag`
there is `mjFull`, the tiles in the order of `pairs`. -/
structure AlgorObject where
  algor : Algor
  _current_usages : Option (List Nat)
  current_usages : Option (List Nat)

namespace AlgorObject

def new (algor : Algor) : AlgorObject := ⟨algor, some [], none⟩

/-- `none` is an error: `info` is nil. -/
def setUsages (o : AlgorObject) (mjFull : List Nat) : Option AlgorObject :=
  o.current_usages.map fun _ => { o with current_usages := some mjFull }

def getUsages (o : AlgorObject) : Option (List Nat) := o.current_usages

variable (o : AlgorObject) (mapHuCards : Nat → Bool)

/-- The keys of the result, with the wild tiles `lzs` if there are any. -/
def getWhoTings (lzs : List Nat) (hands : List Nat) (count : Int) : Option (List Nat × Int) := do
  let mjUsag := o.getUsages
  let ufy ← o.algor.getUnifyHands hands
  let mjFull ← mjUsag
  let (rtings, count) ←
    o.algor.tingsLoop mapHuCards ufy.lzcount mjFull (.of ufy) count []
  return (if rtings = [] then rtings else rtings ++ lzs, count)

/-- The keys of the result, each with the keys under it; `casts` are the keys of `mjMpasw` in the
order of `pairs`. -/
def getWhoXuans (lzs casts : List Nat) (hands : List Nat) (count : Int) :
    Option (List (Nat × List Nat) × Int) := do
  let mjUsag := o.getUsages
  let ufy ← o.algor.getUnifyHands hands
  let (rXuaks, count) ← o.algor.xuansLoop mapHuCards mjUsag casts (.of ufy) count []
  return (rXuaks.map fun r => (r.1, r.2 ++ lzs), count)

/-- The hints for a hand are the tiles of `mjFull` with which it wins, and those with which it wins
when a tile is cast. -/
structure Exact (mjFull casts hands : List Nat) (count : Int) : Prop where
  tings : ∃ rtings left, o.getWhoTings mapHuCards [] hands count = some (rtings, left) ∧
    ∀ t, t ∈ rtings ↔ t ∈ mjFull ∧ o.algor.isHu mapHuCards (hands ++ [t]) 1 = some true
  xuans : ∃ rXuaks left, o.getWhoXuans mapHuCards [] casts hands count = some (rXuaks, left) ∧
    ∀ c t, (∃ tings, (c, tings) ∈ rXuaks ∧ t ∈ tings) ↔
      c ∈ hands ∧ t ∈ mjFull ∧ o.algor.isHu mapHuCards (hands.erase c ++ [t]) 1 = some true

/-- No object has usages, so `setUsages` and `getWhoTings` raise an error for every hand, and
`getWhoXuans` for every hand with a tile. -/
theorem not_exact (algor : Algor) (mjFull lzs casts hands : List Nat) (count : Int) :
    ¬ (new algor).Exact mapHuCards mjFull casts hands count ∧
      (new algor).setUsages mjFull = none ∧
      (new algor).getWhoTings mapHuCards lzs hands count = none ∧
      (casts = [] ∨ (new algor).getWhoXuans mapHuCards lzs casts hands count = none) := by
  have htings : ∀ lzs, (new algor).getWhoTings mapHuCards lzs hands count = none := by
    intro lzs
    rw [getWhoTings]
    refine Option.bind_eq_none_iff.mpr fun ufy _ => ?_
    exact Option.bind_eq_none_iff.mpr fun mjFull hfull => by cases hfull
  refine ⟨fun h => ?_, rfl, htings lzs, ?_⟩
  · obtain ⟨rtings, left, hsome, -⟩ := h.tings
    rw [htings] at hsome
    cases hsome
  · cases casts with
    | nil => exact Or.inl rfl
    | cons cast casts =>
      refine Or.inr (Option.bind_eq_none_iff.mpr fun ufy _ => ?_)
      refine Option.bind_eq_none_iff.mpr fun r hr => ?_
      rw [Algor.xuansLoop] at hr
      obtain ⟨w, -, hr⟩ := Option.bind_eq_some_iff.mp hr
      cases hr

/-- Three 东 and a 南: the hand wins with another 南, and asking for that is an error. -/
theorem tings_error :
    Algor.tested.isHu Algor.printed [0x31, 0x31, 0x31, 0x32, 0x32] 1 = some true ∧
      (new Algor.tested).setUsages [0x32] = none ∧
      (new Algor.tested).getWhoTings Algor.printed [] [0x31, 0x31, 0x31, 0x32] 1 = none ∧
      (new Algor.tested).getWhoXuans Algor.printed [] [0x31, 0x32] [0x31, 0x31, 0x31, 0x32] 1 =
        none :=
  ⟨rfl, rfl, rfl, rfl⟩

end AlgorObject

end XsServer.Mahjong
