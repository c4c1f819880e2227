import XsServer.Custom.Sort
import XsServer.Slots.Spin
import Mathlib.Data.List.Induction

/-! The lines of a slot machine: `lineCheck` and `getLineList` of `slots/logic.lua`. -/

namespace XsServer.Slots

open Lib

variable {ι : Type}

/-- The parts of the configuration that the lines depend on, with the bet of a line. -/
structure LineCfg (ι : Type) where
  scatterIcon : ι
  wildIcon : ι
  lineBases : Nat → Option Int
  lineBet : Int

/-- `slots_icon_post` -/
structure IconPost (ι : Type) where
  icon : ι
  post : Nat
  deriving DecidableEq

/-- `slots_line_path` -/
structure LinePath (ι : Type) where
  leftRight : Bool
  pathIndex : Nat
  pathPlace : List (IconPost ι)
  lineAgain : Int
  lineScore : Int
  deriving DecidableEq

section

variable [DecidableEq ι] (cfg : LineCfg ι)

def LineCfg.isScatter (icon : ι) : Bool := icon = cfg.scatterIcon

def LineCfg.isWild (icon : ι) : Bool := icon = cfg.wildIcon

def LineCfg.isNormal (icon : ι) : Bool := ! cfg.isScatter icon && ! cfg.isWild icon

variable (icons : Nat → ι)

/-- The first loop of `lineCheck`, whose comment says that it takes a normal icon. -/
def findImage : List Nat → Option ι
  | [] => none
  | pos :: path =>
    let icon := icons pos
    if ¬ cfg.isScatter icon then
      if ¬ cfg.isNormal icon then some icon else findImage path
    else none

def placeImage (image : ι) : List Nat → List (IconPost ι)
  | [] => []
  | post :: path =>
    let icon := icons post
    if image = icon ∨ cfg.isWild icon then ⟨icon, post⟩ :: placeImage image path else []

def lineCheck (path : List Nat) (pathIndex : Nat) (leftRight : Bool) :
    Except Fault (Option (LinePath ι)) :=
  match findImage cfg icons path with
  | none => .ok none
  | some image =>
    let pathPlace := placeImage cfg icons image path
    match cfg.lineBases pathPlace.length with
    | none => .error .compare
    | some lineAgain =>
      if lineAgain > 0 then
        .ok (some ⟨leftRight, pathIndex, pathPlace, lineAgain, cfg.lineBet * lineAgain⟩)
      else .ok none

def lineForth : Nat → List (List Nat) → List (LinePath ι) → Except Fault (List (LinePath ι))
  | _, [], linePath => .ok linePath
  | pathIndex, path :: paths, linePath => do
    let info ← lineCheck cfg icons path pathIndex true
    lineForth (pathIndex + 1) paths (linePath ++ info.toList)

/-- The loop from right to left, which reverses a path and reverses it again, with what it leaves
of the paths. -/
def lineBack : Nat → List (List Nat) → List (LinePath ι) →
    Except Fault (List (LinePath ι)) × List (List Nat)
  | _, [], linePath => (.ok linePath, [])
  | pathIndex, path :: paths, linePath =>
    match Custom.sortReverse path with
    | .error _ => (.error .index, path :: paths)
    | .ok back =>
      match lineCheck cfg icons back pathIndex false with
      | .error fault => (.error fault, back :: paths)
      | .ok info =>
        match Custom.sortReverse back with
        | .error _ => (.error .index, back :: paths)
        | .ok forth =>
          let (linePath, paths) := lineBack (pathIndex + 1) paths (linePath ++ info.toList)
          (linePath, forth :: paths)

/-- The lines, if there are paths, and the paths. -/
def getLineList (bothway : Bool) : Option (List (List Nat)) →
    Except Fault (Option (List (LinePath ι))) × Option (List (List Nat))
  | none => (.ok none, none)
  | some paths =>
    match lineForth cfg icons 1 paths [] with
    | .error fault => (.error fault, some paths)
    | .ok linePath =>
      if bothway then
        let (linePath, paths) := lineBack cfg icons 1 paths linePath
        (linePath.map some, some paths)
      else (.ok (some linePath), some paths)

/-- The positions before the first scatter. -/
def unscattered (path : List Nat) : List Nat :=
  path.takeWhile fun pos => ! cfg.isScatter (icons pos)

/-- The first normal icon before any scatter. -/
def firstNormal (path : List Nat) : Option ι :=
  ((unscattered cfg icons path).map icons).find? cfg.isNormal

/-- The longest prefix of icons that are wild or this one. -/
def linePrefix (x : ι) (path : List Nat) : List Nat :=
  path.takeWhile fun pos => icons pos = x || cfg.isWild (icons pos)

def leadingWilds (path : List Nat) : List Nat :=
  path.takeWhile fun pos => cfg.isWild (icons pos)

/-- What a path is to pay: for the longest prefix of its first normal icon, when that has a
positive base. -/
def payment (path : List Nat) (pathIndex : Nat) (leftRight : Bool) : Option (LinePath ι) := do
  let x ← firstNormal cfg icons path
  let line := linePrefix cfg icons x path
  let base ← cfg.lineBases line.length
  if base > 0 then
    some ⟨leftRight, pathIndex, line.map fun pos => ⟨icons pos, pos⟩, base, cfg.lineBet * base⟩
  else none

/-- A path has a wild icon before any scatter. -/
def HasWild (path : List Nat) : Prop := ∃ pos ∈ unscattered cfg icons path, cfg.isWild (icons pos)

/-! ### `lineCheck` -/

variable {cfg icons}

theorem unscattered_cons {pos : Nat} {path : List Nat} (hpos : ¬ cfg.isScatter (icons pos)) :
    unscattered cfg icons (pos :: path) = pos :: unscattered cfg icons path :=
  List.takeWhile_cons_of_pos (by simpa using hpos)

theorem unscattered_cons_scatter {pos : Nat} {path : List Nat}
    (hpos : cfg.isScatter (icons pos)) : unscattered cfg icons (pos :: path) = [] :=
  List.takeWhile_cons_of_neg (by simpa using hpos)

theorem LineCfg.isWild_of_not {icon : ι} (hscatter : ¬ cfg.isScatter icon)
    (hnormal : ¬ cfg.isNormal icon) : cfg.isWild icon := by
  rw [isNormal] at hnormal
  simpa [hscatter] using hnormal

theorem LineCfg.not_isWild {icon : ι} (hnormal : cfg.isNormal icon) : cfg.isWild icon = false := by
  rw [isNormal, Bool.and_eq_true, Bool.not_eq_true', Bool.not_eq_true'] at hnormal
  exact hnormal.2

variable (cfg icons) in
theorem findImage_eq (path : List Nat) : (HasWild cfg icons path ∧
      findImage cfg icons path = some cfg.wildIcon) ∨
    (¬ HasWild cfg icons path ∧ findImage cfg icons path = none) := by
  induction path with
  | nil => exact .inr ⟨by simp [HasWild, unscattered], rfl⟩
  | cons pos path ih =>
    rw [findImage]
    by_cases hscatter : cfg.isScatter (icons pos) = true
    · refine .inr ⟨?_, by simp [hscatter]⟩
      rw [HasWild, unscattered_cons_scatter hscatter]
      simp
    · have hwild : HasWild cfg icons (pos :: path) ↔
          cfg.isWild (icons pos) = true ∨ HasWild cfg icons path := by
        rw [HasWild, unscattered_cons hscatter, List.exists_mem_cons_iff]
        rfl
      by_cases hnormal : cfg.isNormal (icons pos) = true
      · simpa [hwild, hscatter, hnormal, LineCfg.not_isWild hnormal] using ih
      · have hpos := LineCfg.isWild_of_not hscatter hnormal
        refine .inl ⟨hwild.mpr (.inl hpos), ?_⟩
        rw [LineCfg.isWild, decide_eq_true_eq] at hpos
        simpa [hscatter, hnormal] using hpos

theorem placeImage_wild (path : List Nat) : placeImage cfg icons cfg.wildIcon path =
    (leadingWilds cfg icons path).map fun pos => ⟨icons pos, pos⟩ := by
  induction path with
  | nil => rfl
  | cons pos path ih =>
    rw [placeImage, leadingWilds, List.takeWhile_cons, ih, LineCfg.isWild]
    by_cases hpos : icons pos = cfg.wildIcon
    · simp [hpos, leadingWilds]
    · simp [hpos, Ne.symm hpos]

variable (cfg icons) in
theorem lineCheck_eq (path : List Nat) (pathIndex : Nat) (leftRight : Bool) :
    (¬ HasWild cfg icons path ∧ lineCheck cfg icons path pathIndex leftRight = .ok none) ∨
    HasWild cfg icons path ∧ lineCheck cfg icons path pathIndex leftRight =
      match cfg.lineBases (leadingWilds cfg icons path).length with
      | none => .error .compare
      | some base => .ok <| if base > 0 then some ⟨leftRight, pathIndex,
          (leadingWilds cfg icons path).map fun pos => ⟨icons pos, pos⟩, base,
          cfg.lineBet * base⟩ else none := by
  obtain ⟨hwild, himage⟩ | ⟨hwild, himage⟩ := findImage_eq cfg icons path
  · refine .inr ⟨hwild, ?_⟩
    rw [lineCheck, himage]
    simp only [placeImage_wild, List.length_map]
    cases cfg.lineBases (leadingWilds cfg icons path).length with
    | none => rfl
    | some base =>
      simp only
      split <;> rfl
  · exact .inl ⟨hwild, by rw [lineCheck, himage]⟩

theorem leadingWilds_lt {path : List Nat} {x : ι} (hx : firstNormal cfg icons path = some x) :
    (leadingWilds cfg icons path).length < (linePrefix cfg icons x path).length := by
  induction path with
  | nil => cases hx
  | cons pos path ih =>
    rw [firstNormal] at hx
    by_cases hscatter : cfg.isScatter (icons pos) = true
    · rw [unscattered_cons_scatter hscatter] at hx
      cases hx
    · rw [unscattered_cons hscatter, List.map_cons, List.find?_cons] at hx
      rw [leadingWilds, linePrefix, List.takeWhile_cons, List.takeWhile_cons]
      by_cases hnormal : cfg.isNormal (icons pos) = true
      · rw [hnormal, Option.some.injEq] at hx
        subst hx
        simp [LineCfg.not_isWild hnormal]
      · have hwild := LineCfg.isWild_of_not hscatter hnormal
        rw [Bool.not_eq_true] at hnormal
        rw [hnormal] at hx
        have hlt := ih hx
        simpa [hwild, leadingWilds, linePrefix] using hlt

theorem reverse_turns {α : Type} (len : Nat) (mid pre post : List α)
    (heq : pre.length = post.length) (hlen : len = pre.length + mid.length + post.length) :
    (List.range' (pre.length + 1) (mid.length / 2)).foldlM
      (fun l i => Custom.exchange l i (len - i + 1)) (pre ++ (mid ++ post)) =
        .ok (pre ++ (mid.reverse ++ post)) := by
  induction mid using List.bidirectionalRec generalizing pre post with
  | nil | singleton a => simp [pure, Except.pure]
  | cons_append a mid b ih =>
    have hhalf : (a :: (mid ++ [b])).length / 2 = mid.length / 2 + 1 := by
      rw [List.length_cons, List.length_append, List.length_singleton]
      omega
    rw [List.length_cons, List.length_append, List.length_singleton] at hlen
    have hex : Custom.exchange (pre ++ (a :: (mid ++ [b]) ++ post)) (pre.length + 1)
        (len - (pre.length + 1) + 1) = .ok (pre ++ b :: (mid ++ a :: post)) := by
      rw [List.cons_append, List.append_assoc, List.singleton_append]
      exact Custom.exchange_eq rfl (by omega)
    have hnext := ih (pre ++ [b]) (a :: post) (by simp [heq])
      (by rw [List.length_append, List.length_singleton, List.length_cons]; omega)
    rw [hhalf, List.range'_succ, List.foldlM_cons, hex, ok_bind]
    simp only [List.append_assoc, List.singleton_append, List.length_append,
      List.length_singleton] at hnext
    rw [hnext]
    simp

theorem sortReverse_eq {α : Type} (list : List α) :
    Custom.sortReverse list = .ok list.reverse := by
  have hrun := reverse_turns list.length list [] [] rfl (by simp)
  simpa [Custom.sortReverse] using hrun

theorem lineBack_paths (paths : List (List Nat)) (pathIndex : Nat) (linePath : List (LinePath ι))
    {lines : List (LinePath ι)}
    (hok : (lineBack cfg icons pathIndex paths linePath).1 = .ok lines) :
    (lineBack cfg icons pathIndex paths linePath).2 = paths := by
  induction paths generalizing pathIndex linePath with
  | nil => rfl
  | cons path paths ih =>
    simp only [lineBack, sortReverse_eq, List.reverse_reverse] at hok ⊢
    cases hcheck : lineCheck cfg icons path.reverse pathIndex false with
    | error fault =>
      rw [hcheck] at hok
      cases hok
    | ok info =>
      simp only [hcheck] at hok ⊢
      rw [ih _ _ hok]

theorem getLineList_paths (bothway : Bool) (paths : Option (List (List Nat)))
    {lines : Option (List (LinePath ι))}
    (hok : (getLineList cfg icons bothway paths).1 = .ok lines) :
    (getLineList cfg icons bothway paths).2 = paths := by
  cases paths with
  | none => rfl
  | some paths =>
    rw [getLineList] at hok ⊢
    cases hforth : lineForth cfg icons 1 paths [] with
    | error fault => rfl
    | ok linePath =>
      cases bothway with
      | false => rfl
      | true =>
        simp only [hforth, if_true] at hok ⊢
        cases hback : (lineBack cfg icons 1 paths linePath).1 with
        | error fault =>
          rw [hback] at hok
          cases hok
        | ok lines' => rw [lineBack_paths paths 1 linePath hback]

theorem payment_eq_none_iff {path : List Nat} (pathIndex : Nat) (leftRight : Bool) :
    payment cfg icons path pathIndex leftRight = none ↔ ∀ x base,
      firstNormal cfg icons path = some x →
      cfg.lineBases (linePrefix cfg icons x path).length = some base → base ≤ 0 := by
  rw [payment]
  cases firstNormal cfg icons path with
  | none => simp
  | some x =>
    have hforall : (∀ x' base, some x = some x' →
        cfg.lineBases (linePrefix cfg icons x' path).length = some base → base ≤ 0) ↔
        ∀ base, cfg.lineBases (linePrefix cfg icons x path).length = some base → base ≤ 0 := by
      refine ⟨fun h base => h x base rfl, fun h x' base hx => ?_⟩
      rw [← Option.some.inj hx]
      exact h base
    rw [hforall]
    generalize hbase : cfg.lineBases (linePrefix cfg icons x path).length = found
    cases found with
    | none | some base => simp [hbase]

theorem payment_length {path : List Nat} {pathIndex : Nat} {leftRight : Bool} {line : LinePath ι}
    (hline : payment cfg icons path pathIndex leftRight = some line) :
    (leadingWilds cfg icons path).length < line.pathPlace.length := by
  rw [payment] at hline
  cases hx : firstNormal cfg icons path with
  | none =>
    rw [hx] at hline
    cases hline
  | some x =>
    rw [hx] at hline
    simp only [Option.bind_eq_bind, Option.bind_some] at hline
    cases hbase : cfg.lineBases (linePrefix cfg icons x path).length with
    | none =>
      rw [hbase] at hline
      cases hline
    | some base =>
      rw [hbase, Option.bind_some] at hline
      split at hline
      case isTrue =>
        rw [← Option.some.inj hline, List.length_map]
        exact leadingWilds_lt hx
      case isFalse => cases hline

variable (cfg icons)

/-- `lineCheck` takes a wild icon where it should take a normal one, and so finds the wild icons at
the start and nothing else.  It is right when nothing is to be paid, and either the path has no
wild icon before a scatter or the base of those wild icons is a number that is not positive.  The
paths are kept in any case. -/
theorem lineCheck_iff (path : List Nat) (pathIndex : Nat) (leftRight : Bool) :
    (lineCheck cfg icons path pathIndex leftRight =
        .ok (payment cfg icons path pathIndex leftRight) ↔
      (∀ x base, firstNormal cfg icons path = some x →
        cfg.lineBases (linePrefix cfg icons x path).length = some base → base ≤ 0) ∧
      (HasWild cfg icons path →
        ∃ base, cfg.lineBases (leadingWilds cfg icons path).length = some base ∧ base ≤ 0)) ∧
    ∀ bothway paths lines, (getLineList cfg icons bothway paths).1 = .ok lines →
      (getLineList cfg icons bothway paths).2 = paths := by
  refine ⟨?_, fun bothway paths lines hok => getLineList_paths bothway paths hok⟩
  rw [← payment_eq_none_iff pathIndex leftRight]
  obtain ⟨hwild, hcheck⟩ | ⟨hwild, hcheck⟩ :=
    lineCheck_eq cfg icons path pathIndex leftRight
  · rw [hcheck, Except.ok.injEq, eq_comm]
    exact ⟨fun h => ⟨h, fun hwild' => absurd hwild' hwild⟩, fun h => h.1⟩
  · rw [hcheck]
    cases cfg.lineBases (leadingWilds cfg icons path).length with
    | none => simp [hwild]
    | some base =>
      simp only [Option.some.injEq]
      by_cases hbase : base > 0
      · rw [if_pos hbase]
        constructor
        · intro heq
          have hlt := payment_length (Except.ok.inj heq).symm
          simp at hlt
        · rintro ⟨-, hnot⟩
          obtain ⟨base', rfl, hle⟩ := hnot hwild
          omega
      · rw [if_neg hbase, Except.ok.injEq, eq_comm]
        exact ⟨fun h => ⟨h, fun _ => ⟨base, rfl, by omega⟩⟩, fun h => h.1⟩

end

/-- Three equal icons in a row are not paid. -/
theorem not_paid :
    let cfg : LineCfg Nat := ⟨8, 9, fun leng => if leng = 3 then some 10 else some 0, 2⟩
    lineCheck cfg (fun _ => 5) [1, 2, 3] 1 true = .ok none ∧
      payment cfg (fun _ => 5) [1, 2, 3] 1 true =
        some ⟨true, 1, [⟨5, 1⟩, ⟨5, 2⟩, ⟨5, 3⟩], 10, 20⟩ ∧
      lineCheck cfg (fun _ => 5) [1, 2, 3] 1 true ≠
        .ok (payment cfg (fun _ => 5) [1, 2, 3] 1 true) := by
  decide

end XsServer.Slots
