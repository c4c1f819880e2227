import XsServer.Hundred.Competition

/-! The lists of the bankers and of those who wait.  No call makes the camp of a player that of a
banker or sets the field `_waitDownBanker`, so both checks before a list always pass. -/

namespace XsServer.Hundred.Competition

open XsServer.Lib

variable {ι α : Type*} {cfg : Config α} {c t : Competition ι α} {player : ι}

/-- No player is marked as a banker or as one who waits to step down. -/
def Plain (c : Competition ι α) : Prop :=
  ∀ player, (c.players player).camp = .player ∧ (c.players player).waitDownBanker = false

structure Sound (cfg : Config α) (c : Competition ι α) : Prop where
  bankers : c.arrBanker.Nodup
  waiting : c.arrWaitUpBanker.Nodup
  disjoint : ∀ player ∈ c.arrBanker, player ∉ c.arrWaitUpBanker
  bound : c.arrBanker.length ≤ cfg.maxBanker
  flag : ∀ player, c.ifBanker player ↔ player ∈ c.arrBanker

theorem Plain.ifBanker (h : Plain c) : c.ifBanker player = false := by
  simp [Competition.ifBanker, (h player).1]

theorem Plain.ifWaitDownBanker (h : Plain c) : c.ifWaitDownBanker player = false := (h player).2

theorem Plain.sound_iff (h : Plain c) :
    Sound cfg c ↔ c.arrBanker = [] ∧ c.arrWaitUpBanker.Nodup := by
  constructor
  · intro hsound
    refine ⟨List.eq_nil_iff_forall_not_mem.mpr fun player hmem => ?_, hsound.waiting⟩
    have hflag := (hsound.flag player).mpr hmem
    rw [h.ifBanker] at hflag
    cases hflag
  · rintro ⟨hnil, hwaiting⟩
    refine ⟨by simp [hnil], hwaiting, by simp [hnil], by simp [hnil], fun player => ?_⟩
    rw [h.ifBanker, hnil]
    simp

theorem not_sound_of_banker (h : Plain c) (hne : c.arrBanker ≠ []) : ¬ Sound cfg c := by
  rw [h.sound_iff]
  exact fun hsound => hne hsound.1

/-- A table after `ctor`, with players as their `ctor` makes them. -/
def opened (coin : ι → Int) (robot : ι → Bool) (arrAreaEnum : List α) : Competition ι α :=
  new (fun player => ⟨coin player, .player, false, false, robot player⟩) arrAreaEnum

theorem sound_opened (coin : ι → Int) (robot : ι → Bool) (arrAreaEnum : List α) :
    Plain (opened coin robot arrAreaEnum) ∧ Sound cfg (opened coin robot arrAreaEnum) := by
  have hplain : Plain (opened coin robot arrAreaEnum) := fun _ => ⟨rfl, rfl⟩
  exact ⟨hplain, hplain.sound_iff.mpr ⟨rfl, List.nodup_nil⟩⟩

/-! ### The two lists -/

/-- `player` is put at the end of the list of those who wait. -/
def wait (c : Competition ι α) (player : ι) : Competition ι α :=
  { c with arrWaitUpBanker := c.arrWaitUpBanker ++ [player] }

theorem tryWaitUpBanker_eq (h : Plain c) (player : ι) :
    c.tryWaitUpBanker player = (true, c.wait player) := by
  rw [tryWaitUpBanker, h.ifBanker, h.ifWaitDownBanker]
  rfl

theorem sound_wait_iff (h : Plain c) (hsound : Sound cfg c) (player : ι) :
    Sound cfg (c.wait player) ↔ player ∉ c.arrWaitUpBanker := by
  have hplain : Plain (c.wait player) := h
  rw [hplain.sound_iff]
  rw [h.sound_iff] at hsound
  show c.arrBanker = [] ∧ (c.arrWaitUpBanker ++ [player]).Nodup ↔ _
  rw [and_iff_right hsound.1, List.nodup_append]
  constructor
  · rintro ⟨-, -, hdisjoint⟩ hmem
    exact hdisjoint player hmem player (by simp) rfl
  · intro hmem
    refine ⟨hsound.2, by simp, fun a ha b hb => ?_⟩
    rintro rfl
    rw [List.mem_singleton.mp hb] at ha
    exact hmem ha

theorem tryDownBanker_eq (h : Plain c) (player : ι) :
    c.tryDownBanker player = some (false, c) := by
  rw [tryDownBanker, h.ifBanker]
  rfl

/-- The robots that `autoUpBanker` puts in a list. -/
def tried (cfg : Config α) (c : Competition ι α) (players : List (ι × Nat)) : List ι :=
  ((players.filter fun p => (c.players p.1).robot ∧ p.2 ≤ 20).map Prod.fst).take
    (wantCount cfg + 1 - (c.numBanker + c.numWaitBanker))

theorem tried_of_full (h : wantCount cfg < c.numBanker + c.numWaitBanker)
    (players : List (ι × Nat)) : c.tried cfg players = [] := by
  rw [tried, Nat.sub_eq_zero_of_le h, List.take_zero]

variable [DecidableEq ι]

/-- `player` is put at the end of the list of the bankers. -/
def seat (c : Competition ι α) (player : ι) : Competition ι α :=
  ({ c with arrBanker := c.arrBanker ++ [player] } : Competition ι α).falseWaitDownBanker player

theorem seat_players {β : Type*} (f : Player → β) (hf : ∀ p, f { p with sig := false } = f p)
    (c : Competition ι α) (player player' : ι) :
    f ((c.seat player).players player') = f (c.players player') := by
  show f (Function.update c.players player _ player') = _
  by_cases hplayer : player' = player
  · subst hplayer
    rw [Function.update_self]
    exact hf _
  · rw [Function.update_of_ne hplayer]

theorem Plain.seat (h : Plain c) (player : ι) : Plain (c.seat player) := by
  intro player'
  rw [seat_players Player.camp fun _ => rfl, seat_players Player.waitDownBanker fun _ => rfl]
  exact h player'

theorem tryUpBanker_eq (h : Plain c) (player : ι) :
    c.tryUpBanker player = (true, if c.ifIdle then c.seat player else c.wait player) := by
  rw [tryUpBanker, h.ifBanker, h.ifWaitDownBanker, tryWaitUpBanker_eq h]
  by_cases hidle : c.ifIdle = true
  · rw [hidle]
    rfl
  · rw [Bool.not_eq_true] at hidle
    rw [hidle]
    rfl

theorem Plain.tryUpBanker (h : Plain c) (player : ι) : Plain (c.tryUpBanker player).2 := by
  rw [tryUpBanker_eq h]
  show Plain (if c.ifIdle then c.seat player else c.wait player)
  split
  · exact h.seat player
  · exact h

theorem sound_tryUpBanker_iff (h : Plain c) (hsound : Sound cfg c) (player : ι) :
    Sound cfg (c.tryUpBanker player).2 ↔ ¬ c.ifIdle ∧ player ∉ c.arrWaitUpBanker := by
  have hplain := h.tryUpBanker player
  rw [tryUpBanker_eq h] at hplain ⊢
  by_cases hidle : c.ifIdle = true
  · simp only [hidle, if_true] at hplain ⊢
    refine iff_of_false (not_sound_of_banker hplain ?_) (by simp)
    show c.arrBanker ++ [player] ≠ []
    simp
  · rw [Bool.not_eq_true] at hidle
    simp only [hidle]
    show Sound cfg (c.wait player) ↔ _
    rw [sound_wait_iff h hsound]
    simp

theorem gameBanker_full (h : cfg.maxBanker ≤ c.numBanker) : c.gameBanker cfg = some c := by
  rw [gameBanker, if_neg (Nat.not_lt.mpr h)]

theorem gameBanker_empty (h : c.arrWaitUpBanker = []) : c.gameBanker cfg = some c := by
  rw [gameBanker, h]
  exact ite_self _

theorem Plain.gameBanker (h : Plain c) (hreturn : c.gameBanker cfg = some t) :
    Plain t ∧ c.arrBanker <+: t.arrBanker := by
  fun_induction Competition.gameBanker cfg c with
  | case1 c hlt player hlast u hshort ih =>
    have hdrop : Plain ({ c with arrWaitUpBanker := c.arrWaitUpBanker.dropLast } :
        Competition ι α) := h
    obtain ⟨hplain, hprefix⟩ := ih (hdrop.tryUpBanker player) hreturn
    refine ⟨hplain, List.IsPrefix.trans ?_ hprefix⟩
    show c.arrBanker <+: (Competition.tryUpBanker _ player).2.arrBanker
    rw [tryUpBanker_eq hdrop]
    show c.arrBanker <+: (if _ then _ else _ : Competition ι α).arrBanker
    split
    · exact List.prefix_append c.arrBanker [player]
    · exact List.prefix_rfl
  | case2 => cases hreturn
  | case3 c hlt hlast | case4 c hlt =>
    obtain rfl := Option.some.inj hreturn
    exact ⟨h, List.prefix_rfl⟩

theorem gameBanker_loops (h : Plain c) (hidle : c.ifIdle = false)
    (hlast : c.arrWaitUpBanker.getLast? = some player) :
    (({ c with arrWaitUpBanker := c.arrWaitUpBanker.dropLast } :
      Competition ι α).tryUpBanker player).2 = c := by
  have hdrop : Plain ({ c with arrWaitUpBanker := c.arrWaitUpBanker.dropLast } :
      Competition ι α) := h
  have hidle' : ({ c with arrWaitUpBanker := c.arrWaitUpBanker.dropLast } :
      Competition ι α).ifIdle = false := hidle
  rw [tryUpBanker_eq hdrop, hidle']
  show ({ c with arrWaitUpBanker := c.arrWaitUpBanker.dropLast ++ [player] } :
    Competition ι α) = c
  rw [List.dropLast_append_getLast? player hlast]

theorem gameBanker_sound_iff (h : Plain c) (hsound : Sound cfg c) :
    (∃ t, c.gameBanker cfg = some t ∧ Sound cfg t) ↔
      c.arrWaitUpBanker = [] ∨ cfg.maxBanker ≤ c.numBanker := by
  constructor
  · rintro ⟨t, hreturn, ht⟩
    by_contra hnot
    obtain ⟨hwait, hmax⟩ := not_or.mp hnot
    obtain ⟨player, hlast⟩ := Option.isSome_iff_exists.mp (List.getLast?_isSome.mpr hwait)
    rw [Competition.gameBanker, if_pos (Nat.not_le.mp hmax)] at hreturn
    simp only [hlast] at hreturn
    have hdrop : Plain ({ c with arrWaitUpBanker := c.arrWaitUpBanker.dropLast } :
        Competition ι α) := h
    by_cases hidle : c.ifIdle = true
    · split at hreturn
      · obtain ⟨hplain, hprefix⟩ := Plain.gameBanker (hdrop.tryUpBanker player) hreturn
        refine not_sound_of_banker hplain ?_ ht
        rw [tryUpBanker_eq hdrop] at hprefix
        have hidle' : ({ c with arrWaitUpBanker := c.arrWaitUpBanker.dropLast } :
            Competition ι α).ifIdle = true := hidle
        simp only [hidle', if_true] at hprefix
        have hseat : c.arrBanker ++ [player] <+: t.arrBanker := hprefix
        rintro hnil
        rw [hnil] at hseat
        simp at hseat
      · cases hreturn
    · rw [Bool.not_eq_true] at hidle
      rw [gameBanker_loops h hidle hlast, if_neg (Nat.lt_irrefl _)] at hreturn
      cases hreturn
  · rintro (hempty | hfull)
    · exact ⟨c, gameBanker_empty hempty, hsound⟩
    · exact ⟨c, gameBanker_full hfull, hsound⟩

/-! ### The loop of `gameBanker`, one player after the other -/

/-- The body of the loop: the player that is tried, and the table after it.  With `none` the loop
ends. -/
def tryLast (cfg : Config α) (c : Competition ι α) : Option (ι × Competition ι α) :=
  if c.numBanker < cfg.maxBanker then
    c.arrWaitUpBanker.getLast?.map fun player =>
      (player, (({ c with arrWaitUpBanker := c.arrWaitUpBanker.dropLast } :
        Competition ι α).tryUpBanker player).2)
  else none

def Tries (cfg : Config α) (c : Competition ι α) (player : ι) (t : Competition ι α) : Prop :=
  c.tryLast cfg = some (player, t)

/-- The loop ends after these players, with this table. -/
def Drains (cfg : Config α) (c : Competition ι α) (tried : List ι) (t : Competition ι α) : Prop :=
  Run (Tries cfg) c tried t ∧ t.tryLast cfg = none

def Barred (c : Competition ι α) (player : ι) : Prop :=
  c.ifBanker player ∨ c.ifWaitDownBanker player

theorem tryLast_eq_none_iff :
    c.tryLast cfg = none ↔ cfg.maxBanker ≤ c.numBanker ∨ c.arrWaitUpBanker = [] := by
  rw [tryLast]
  split
  · rename_i hlt
    simp [Nat.not_le.mpr hlt]
  · rename_i hlt
    simp [Nat.not_lt.mp hlt]

theorem tryUpBanker_waits (hidle : c.ifIdle = false) (player : ι) :
    c.Barred player ∧ (c.tryUpBanker player).2 = c ∨
      ¬ c.Barred player ∧ (c.tryUpBanker player).2 = c.wait player := by
  rw [tryUpBanker, tryWaitUpBanker, hidle, Barred]
  cases c.ifBanker player
  · cases c.ifWaitDownBanker player
    · exact Or.inr ⟨by simp, rfl⟩
    · exact Or.inl ⟨Or.inr rfl, rfl⟩
  · exact Or.inl ⟨Or.inl rfl, rfl⟩

theorem Tries.cases (h : Tries cfg c player t) (hidle : c.ifIdle = false) :
    c.numBanker < cfg.maxBanker ∧ ∃ l, c.arrWaitUpBanker = l ++ [player] ∧
      (c.Barred player ∧ t = { c with arrWaitUpBanker := l } ∨ ¬ c.Barred player ∧ t = c) := by
  rw [Tries, tryLast] at h
  split at h
  · rename_i hlt
    obtain ⟨player', hlast, heq⟩ := Option.map_eq_some_iff.mp h
    obtain ⟨rfl, rfl⟩ := Prod.mk.inj heq
    have hsplit := (List.dropLast_append_getLast? _ hlast).symm
    refine ⟨hlt, _, hsplit, ?_⟩
    obtain ⟨hbarred, ht⟩ | ⟨hbarred, ht⟩ := tryUpBanker_waits
      (c := { c with arrWaitUpBanker := c.arrWaitUpBanker.dropLast }) hidle player'
    · exact Or.inl ⟨hbarred, ht⟩
    · refine Or.inr ⟨hbarred, ht.trans ?_⟩
      show ({ c with arrWaitUpBanker := c.arrWaitUpBanker.dropLast ++ [player'] } :
        Competition ι α) = c
      rw [← hsplit]
  · cases h

theorem Tries.shorter (h : Tries cfg c player t) (hidle : c.ifIdle = true) :
    t.arrWaitUpBanker.length < c.arrWaitUpBanker.length := by
  rw [Tries, tryLast] at h
  split at h
  · obtain ⟨player', hlast, heq⟩ := Option.map_eq_some_iff.mp h
    obtain ⟨rfl, rfl⟩ := Prod.mk.inj heq
    have hdrop : ({ c with arrWaitUpBanker := c.arrWaitUpBanker.dropLast } :
        Competition ι α).ifIdle = true := hidle
    have hkeep : (({ c with arrWaitUpBanker := c.arrWaitUpBanker.dropLast } :
        Competition ι α).tryUpBanker player').2.arrWaitUpBanker = c.arrWaitUpBanker.dropLast := by
      rw [tryUpBanker, hdrop]
      split
      · rfl
      · split <;> rfl
    have hne := List.ne_nil_of_mem (List.mem_of_getLast? hlast)
    rw [hkeep, List.length_dropLast]
    exact Nat.sub_lt (List.length_pos_iff.mpr hne) Nat.one_pos
  · cases h

theorem drains_of_barred (hidle : c.ifIdle = false)
    (h : ∀ player ∈ c.arrWaitUpBanker, c.Barred player) (hlt : c.numBanker < cfg.maxBanker) :
    Drains cfg c c.arrWaitUpBanker.reverse { c with arrWaitUpBanker := [] } := by
  generalize hl : c.arrWaitUpBanker = l at h
  induction l using List.reverseRecOn generalizing c with
  | nil =>
    have heq : c = { c with arrWaitUpBanker := [] } := by rw [← hl]
    rw [← heq]
    exact ⟨.nil c, tryLast_eq_none_iff.mpr (Or.inr hl)⟩
  | append_singleton l player ih =>
    have hbarred := h player (by simp)
    have htry : Tries cfg c player { c with arrWaitUpBanker := l } := by
      obtain ⟨hnot, -⟩ | ⟨-, ht⟩ := tryUpBanker_waits
        (c := { c with arrWaitUpBanker := l }) hidle player |>.symm
      · exact absurd hbarred hnot
      · rw [Tries, tryLast, if_pos hlt, hl, List.getLast?_concat, List.dropLast_concat,
          Option.map_some, ht]
    obtain ⟨hrun, hend⟩ := ih (c := { c with arrWaitUpBanker := l }) hidle hlt rfl
      fun player' hmem => h player' (by simp [hmem])
    rw [List.reverse_append]
    exact ⟨.cons htry hrun, hend⟩

theorem Tries.waits (h : Tries cfg c player t) (hidle : c.ifIdle = false)
    (hwait : ∃ player ∈ c.arrWaitUpBanker, ¬ c.Barred player) :
    t.ifIdle = false ∧ t.numBanker < cfg.maxBanker ∧
      ∃ player ∈ t.arrWaitUpBanker, ¬ t.Barred player := by
  obtain ⟨hlt, l, hl, ⟨hbarred, rfl⟩ | ⟨-, rfl⟩⟩ := h.cases hidle
  · obtain ⟨player', hmem, hnot⟩ := hwait
    refine ⟨hidle, hlt, player', ?_, hnot⟩
    rw [hl, List.mem_append, List.mem_singleton] at hmem
    exact hmem.resolve_right fun heq => hnot (heq ▸ hbarred)
  · exact ⟨hidle, hlt, hwait⟩

theorem Drains.barred {tried : List ι} (h : Drains cfg c tried t) (hidle : c.ifIdle = false) :
    cfg.maxBanker ≤ c.numBanker ∨ ∀ player ∈ c.arrWaitUpBanker, c.Barred player := by
  by_contra hnot
  obtain ⟨hlt, hwait⟩ := not_or.mp hnot
  push Not at hwait
  have hkept := h.1.invariant
    (I := fun t => t.ifIdle = false ∧ t.numBanker < cfg.maxBanker ∧
      ∃ player ∈ t.arrWaitUpBanker, ¬ t.Barred player)
    ⟨hidle, Nat.not_le.mp hlt, hwait⟩ fun s player t hs hstep => hstep.waits hs.1 hs.2.2
  obtain ⟨-, hfree, player, hmem, -⟩ := hkept
  obtain hfull | hempty := tryLast_eq_none_iff.mp h.2
  · omega
  · rw [hempty] at hmem
    cases hmem

theorem gameBanker_eq_some_iff : c.gameBanker cfg = some t ↔ ∃ tried, Drains cfg c tried t := by
  constructor
  · intro h
    fun_induction Competition.gameBanker cfg c with
    | case1 c hlt player hlast u hshort ih =>
      obtain ⟨tried, hrun, hend⟩ := ih h
      refine ⟨player :: tried, .cons ?_ hrun, hend⟩
      rw [Tries, tryLast, if_pos hlt, hlast]
      rfl
    | case2 => cases h
    | case3 c hlt hlast =>
      obtain rfl := Option.some.inj h
      exact ⟨[], .nil _, tryLast_eq_none_iff.mpr (Or.inr (List.getLast?_eq_none_iff.mp hlast))⟩
    | case4 c hlt =>
      obtain rfl := Option.some.inj h
      exact ⟨[], .nil _, tryLast_eq_none_iff.mpr (Or.inl (Nat.not_lt.mp hlt))⟩
  · rintro ⟨tried, hrun, hend⟩
    induction tried generalizing c with
    | nil =>
      obtain rfl := hrun.of_nil rfl
      obtain hfull | hempty := tryLast_eq_none_iff.mp hend
      · exact gameBanker_full hfull
      · exact gameBanker_empty hempty
    | cons player tried ih =>
      obtain ⟨u, htry, hrest⟩ := hrun.of_cons
      have hu := ih hrest
      by_cases hshort : u.arrWaitUpBanker.length < c.arrWaitUpBanker.length
      · rw [Tries, tryLast] at htry
        split at htry
        · rename_i hlt
          obtain ⟨player', hlast, heq⟩ := Option.map_eq_some_iff.mp htry
          obtain ⟨rfl, rfl⟩ := Prod.mk.inj heq
          rw [Competition.gameBanker, if_pos hlt]
          simp only [hlast]
          rw [if_pos hshort, hu]
        · cases htry
      · by_cases hidle : c.ifIdle = true
        · exact absurd (htry.shorter hidle) hshort
        · obtain ⟨-, l, hl, ⟨-, rfl⟩ | ⟨-, rfl⟩⟩ := htry.cases (Bool.not_eq_true _ ▸ hidle)
          · exact absurd (by simp [hl]) hshort
          · exact hu

/-- When a round starts the loop ends, with nobody tried more often than he waits, if and only if no
place is free or nobody who waits can be put in a list. -/
theorem gameBanker_terminates_iff (hstart : c.gmstatus = some .start) :
    (∃ tried t, Drains cfg c.dataClear tried t ∧ tried.Subperm c.arrWaitUpBanker) ↔
      cfg.maxBanker ≤ c.numBanker ∨ ∀ player ∈ c.arrWaitUpBanker, c.Barred player := by
  have hidle : c.dataClear.ifIdle = false := by
    show decide (c.gmstatus = some .idle) = false
    rw [hstart]
    rfl
  constructor
  · rintro ⟨tried, t, hdrains, -⟩
    exact hdrains.barred hidle
  · intro h
    by_cases hfull : cfg.maxBanker ≤ c.numBanker
    · exact ⟨[], _, ⟨.nil _, tryLast_eq_none_iff.mpr (Or.inl hfull)⟩, List.nil_subperm⟩
    · exact ⟨_, _, drains_of_barred hidle (h.resolve_left hfull) (Nat.not_le.mp hfull),
        (List.reverse_perm _).subperm⟩

def oneBanker : Config Unit := ⟨fun _ => none, [], 1, 1⟩

def starting (players : List Nat) : Competition Nat Unit :=
  { opened (fun _ => 100) (fun _ => false) [] with
    gmstatus := some .start
    arrWaitUpBanker := players }

theorem gameBanker_terminates_waiting :
    (∃ tried t, Drains oneBanker ({ starting [0, 1] with arrBanker := [2] } :
        Competition Nat Unit).dataClear tried t ∧ tried.Subperm [0, 1]) ∧
    ∃ tried t, Drains oneBanker ({ starting [0, 1] with
        players := fun _ => ⟨100, .player, true, false, false⟩ } :
        Competition Nat Unit).dataClear tried t ∧ tried.Subperm [0, 1] :=
  ⟨(gameBanker_terminates_iff rfl).mpr (Or.inl (by decide)),
    (gameBanker_terminates_iff rfl).mpr (Or.inr fun _ _ => Or.inr rfl)⟩

/-- The only one who waits is tried again and again. -/
theorem gameBanker_forever :
    (∀ n, Run (Tries oneBanker) (starting [0]).dataClear (List.replicate n 0)
      (starting [0]).dataClear) ∧
    ∀ tried t, ¬ Drains oneBanker (starting [0]).dataClear tried t := by
  have htry : Tries oneBanker (starting [0]).dataClear 0 (starting [0]).dataClear := rfl
  constructor
  · intro n
    induction n with
    | zero => exact .nil _
    | succ n ih => exact .cons htry ih
  · intro tried t h
    obtain hfull | hbarred := h.barred rfl
    · exact absurd hfull (by decide)
    · have hzero : (starting [0]).dataClear.Barred 0 := hbarred 0 (by decide)
      obtain hbanker | hdown := hzero
      · exact absurd hbanker (by decide)
      · exact absurd hdown (by decide)

/-! ### Robots -/

def tryAll (c : Competition ι α) (players : List ι) : Competition ι α :=
  players.foldl (fun c player => (c.tryUpBanker player).2) c

theorem tryUpBanker_count (h : Plain c) (player : ι) :
    (c.tryUpBanker player).2.numBanker + (c.tryUpBanker player).2.numWaitBanker =
      c.numBanker + c.numWaitBanker + 1 := by
  rw [tryUpBanker_eq h]
  by_cases hidle : c.ifIdle = true
  · rw [hidle]
    show (c.arrBanker ++ [player]).length + c.arrWaitUpBanker.length = _
    rw [List.length_append, numBanker, numWaitBanker, List.length_singleton]
    omega
  · rw [Bool.not_eq_true] at hidle
    rw [hidle]
    show c.arrBanker.length + (c.arrWaitUpBanker ++ [player]).length = _
    rw [List.length_append, numBanker, numWaitBanker, List.length_singleton]
    omega

theorem tryUpBanker_robot (h : Plain c) (player player' : ι) :
    ((c.tryUpBanker player).2.players player').robot = (c.players player').robot := by
  rw [tryUpBanker_eq h]
  by_cases hidle : c.ifIdle = true
  · rw [hidle]
    exact seat_players Player.robot (fun _ => rfl) c player player'
  · rw [Bool.not_eq_true] at hidle
    rw [hidle]
    rfl

theorem autoUpBanker_loop (h : Plain c) (players : List (ι × Nat)) :
    players.foldl (fun c p =>
      if (c.players p.1).robot ∧ ¬ c.ifBanker p.1 ∧ ¬ c.ifWaitDownBanker p.1 then
        c.autoUpBankerOf cfg p.1 p.2
      else c) c = c.tryAll (c.tried cfg players) := by
  induction players generalizing c with
  | nil => rw [tried, List.filter_nil, List.map_nil, List.take_nil]; rfl
  | cons p players ih =>
    obtain ⟨player, draw⟩ := p
    rw [List.foldl_cons, h.ifBanker, h.ifWaitDownBanker]
    have hskip : ¬ ((c.players player).robot ∧ draw ≤ 20) →
        c.tried cfg ((player, draw) :: players) = c.tried cfg players := by
      intro hnot
      rw [tried, List.filter_cons, if_neg (by simpa using hnot)]
      rfl
    by_cases hrobot : (c.players player).robot = true
    · rw [if_pos ⟨hrobot, by simp, by simp⟩]
      show players.foldl _ (c.autoUpBankerOf cfg player draw) = _
      rw [autoUpBankerOf]
      by_cases hfull : wantCount cfg < c.numBanker + c.numWaitBanker
      · rw [if_pos hfull, ih h, tried_of_full hfull, tried_of_full hfull]
      · rw [if_neg hfull]
        by_cases hdraw : 20 < draw
        · rw [if_pos hdraw, ih h, hskip fun hnot => absurd hnot.2 (Nat.not_le.mpr hdraw)]
        · rw [if_neg hdraw, ih (h.tryUpBanker player)]
          have hnext : c.tried cfg ((player, draw) :: players) =
              player :: (c.tryUpBanker player).2.tried cfg players := by
            have hroom : wantCount cfg + 1 - (c.numBanker + c.numWaitBanker) =
                wantCount cfg + 1 - (c.numBanker + c.numWaitBanker + 1) + 1 := by omega
            rw [tried, tried, tryUpBanker_count h, hroom, List.filter_cons,
              if_pos (by simp [hrobot, Nat.not_lt.mp hdraw]), List.map_cons, List.take_succ_cons]
            simp only [tryUpBanker_robot h]
          rw [hnext]
          rfl
    · rw [if_neg fun hnot => hrobot hnot.1, ih h, hskip fun hnot => hrobot hnot.1]

theorem autoUpBanker_eq (h : Plain c) (players : List (ι × Nat)) :
    c.autoUpBanker cfg players = c.tryAll (c.tried cfg players) := by
  rw [autoUpBanker, autoUpBanker_loop h]
  by_cases hfull : wantCount cfg < c.numBanker + c.numWaitBanker
  · rw [if_pos hfull, tried_of_full hfull]
    rfl
  · rw [if_neg hfull]

theorem Plain.tryAll (h : Plain c) (players : List ι) : Plain (c.tryAll players) := by
  induction players generalizing c with
  | nil => exact h
  | cons player players ih => exact ih (h.tryUpBanker player)

theorem tryAll_idle (h : Plain c) (hidle : c.ifIdle = true) (players : List ι) :
    (c.tryAll players).arrBanker = c.arrBanker ++ players := by
  induction players generalizing c with
  | nil => exact (List.append_nil _).symm
  | cons player players ih =>
    have hseat : (c.tryUpBanker player).2 = c.seat player := by
      rw [tryUpBanker_eq h, hidle]
      rfl
    show ((c.tryUpBanker player).2.tryAll players).arrBanker = _
    rw [hseat, ih (h.seat player) hidle]
    exact List.append_assoc c.arrBanker [player] players

theorem tryAll_wait (h : Plain c) (hidle : c.ifIdle = false) (players : List ι) :
    c.tryAll players = { c with arrWaitUpBanker := c.arrWaitUpBanker ++ players } := by
  induction players generalizing c with
  | nil => rw [List.append_nil]; rfl
  | cons player players ih =>
    have hwait : (c.tryUpBanker player).2 = c.wait player := by
      rw [tryUpBanker_eq h, hidle]
      rfl
    show (c.tryUpBanker player).2.tryAll players = _
    rw [hwait, ih (c := c.wait player) h hidle]
    simp [wait]

/-- `autoUpBanker` of different players keeps the lists sound if and only if it tries nobody, or it
is not in the idle phase and tries nobody who waits. -/
theorem sound_autoUpBanker_iff (h : Plain c) (hsound : Sound cfg c) {players : List (ι × Nat)}
    (hnodup : (players.map Prod.fst).Nodup) :
    Sound cfg (c.autoUpBanker cfg players) ↔ c.tried cfg players = [] ∨
      ¬ c.ifIdle ∧ ∀ player ∈ c.tried cfg players, player ∉ c.arrWaitUpBanker := by
  have htried : (c.tried cfg players).Nodup := by
    refine List.Nodup.sublist (List.take_sublist _ _) ?_
    exact hnodup.sublist (List.filter_sublist.map Prod.fst)
  rw [autoUpBanker_eq h]
  generalize c.tried cfg players = names at htried
  have hplain := h.tryAll names
  by_cases hidle : c.ifIdle = true
  · by_cases hnil : names = []
    · subst hnil
      exact iff_of_true hsound (Or.inl rfl)
    · refine iff_of_false (not_sound_of_banker hplain ?_) (by simp [hnil, hidle])
      rw [tryAll_idle h hidle]
      simp [hnil]
  · rw [Bool.not_eq_true] at hidle
    rw [tryAll_wait h hidle] at hplain ⊢
    rw [hplain.sound_iff]
    rw [h.sound_iff] at hsound
    show c.arrBanker = [] ∧ (c.arrWaitUpBanker ++ names).Nodup ↔ _
    rw [and_iff_right hsound.1, List.nodup_append]
    constructor
    · rintro ⟨-, -, hdisjoint⟩
      exact Or.inr ⟨by simp [hidle], fun player hmem hwait =>
        hdisjoint player hwait player hmem rfl⟩
    · rintro (rfl | ⟨-, hfresh⟩)
      · exact ⟨hsound.2, htried, by simp⟩
      · refine ⟨hsound.2, htried, fun a ha b hb => ?_⟩
        rintro rfl
        exact hfresh a hb ha

theorem sound_applyForUpBanker_iff (h : Plain c) (hsound : Sound cfg c) (player : ι) :
    Sound cfg (c.applyForUpBanker cfg player) ↔
      (c.ifIdle → cfg.maxBanker ≤ c.numBanker) ∧ player ∉ c.arrWaitUpBanker := by
  rw [applyForUpBanker, tryWaitUpBanker_eq h]
  by_cases hidle : c.ifIdle = true
  · rw [if_neg (not_not_intro hidle)]
    by_cases hfull : cfg.maxBanker ≤ c.numBanker
    · rw [if_pos hfull, sound_wait_iff h hsound]
      simp [hfull]
    · rw [if_neg hfull, sound_tryUpBanker_iff h hsound]
      simp [hidle, hfull]
  · rw [if_pos hidle, sound_wait_iff h hsound]
    simp [hidle]

theorem Plain.applyForUpBanker (h : Plain c) (player : ι) :
    Plain (c.applyForUpBanker cfg player) := by
  rw [Competition.applyForUpBanker, tryWaitUpBanker_eq h]
  split
  · exact h
  · split
    · exact h
    · exact h.tryUpBanker player

theorem tryCancelWaitUpBanker_eq (h : Plain c) (player : ι) :
    c.tryCancelWaitUpBanker player = (false, c) := by
  rw [tryCancelWaitUpBanker, h.ifWaitDownBanker]
  rfl

/-! ### Calls -/

inductive Call (ι : Type*)
  | applyForUpBanker (player : ι)
  | tryUpBanker (player : ι)
  | tryWaitUpBanker (player : ι)
  | tryCancelWaitUpBanker (player : ι)
  | tryDownBanker (player : ι)
  | autoUpBanker (players : List (ι × Nat))
  | gameBanker
  | gmstatus (status : Option Status)

/-- Whether the call succeeds, and the table after it, if it returns. -/
def call (cfg : Config α) (c : Competition ι α) : Call ι → Option (Bool × Competition ι α)
  | .applyForUpBanker player => some (false, c.applyForUpBanker cfg player)
  | .tryUpBanker player => some (c.tryUpBanker player)
  | .tryWaitUpBanker player => some (c.tryWaitUpBanker player)
  | .tryCancelWaitUpBanker player => some (c.tryCancelWaitUpBanker player)
  | .tryDownBanker player => c.tryDownBanker player
  | .autoUpBanker players => some (false, c.autoUpBanker cfg players)
  | .gameBanker => (c.gameBanker cfg).map (false, ·)
  | .gmstatus status => some (false, { c with gmstatus := status })

namespace Call

/-- `pairs` visits each player once. -/
def Distinct : Call ι → Prop
  | .autoUpBanker players => (players.map Prod.fst).Nodup
  | _ => True

def Step (cfg : Config α) (c : Competition ι α) (e : Call ι) (t : Competition ι α) : Prop :=
  e.Distinct ∧ ∃ success, c.call cfg e = some (success, t)

/-- The call returns, leaves sound lists, and takes out the player if it is to do that and says
that it succeeds. -/
def Kept (cfg : Config α) (c : Competition ι α) (e : Call ι) : Prop :=
  ∃ success t, c.call cfg e = some (success, t) ∧ Sound cfg t ∧
    (∀ player, e = .tryCancelWaitUpBanker player → success → player ∉ t.arrWaitUpBanker) ∧
    (∀ player, e = .tryDownBanker player → success → c.ifIdle → player ∉ t.arrBanker)

/-- Nobody becomes a banker, nobody waits twice, and no round starts with a free place and somebody
who waits. -/
def Clear (cfg : Config α) (c : Competition ι α) : Call ι → Prop
  | .applyForUpBanker player =>
    (c.ifIdle → cfg.maxBanker ≤ c.numBanker) ∧ player ∉ c.arrWaitUpBanker
  | .tryUpBanker player => ¬ c.ifIdle ∧ player ∉ c.arrWaitUpBanker
  | .tryWaitUpBanker player => player ∉ c.arrWaitUpBanker
  | .tryCancelWaitUpBanker _ => True
  | .tryDownBanker _ => True
  | .autoUpBanker players => c.tried cfg players = [] ∨
      ¬ c.ifIdle ∧ ∀ player ∈ c.tried cfg players, player ∉ c.arrWaitUpBanker
  | .gameBanker => c.arrWaitUpBanker = [] ∨ cfg.maxBanker ≤ c.numBanker
  | .gmstatus _ => True

variable {e : Call ι} {success : Bool}

theorem plain (h : Plain c) (hcall : c.call cfg e = some (success, t)) : Plain t := by
  cases e with
  | applyForUpBanker player =>
    obtain ⟨-, rfl⟩ := Prod.mk.inj (Option.some.inj hcall)
    exact h.applyForUpBanker player
  | tryUpBanker player =>
    obtain rfl := congrArg Prod.snd (Option.some.inj hcall)
    exact h.tryUpBanker player
  | tryWaitUpBanker player =>
    rw [call, tryWaitUpBanker_eq h] at hcall
    obtain ⟨-, rfl⟩ := Prod.mk.inj (Option.some.inj hcall)
    exact h
  | tryCancelWaitUpBanker player =>
    rw [call, tryCancelWaitUpBanker_eq h] at hcall
    obtain ⟨-, rfl⟩ := Prod.mk.inj (Option.some.inj hcall)
    exact h
  | tryDownBanker player =>
    rw [call, tryDownBanker_eq h] at hcall
    obtain ⟨-, rfl⟩ := Prod.mk.inj (Option.some.inj hcall)
    exact h
  | autoUpBanker players =>
    obtain ⟨-, rfl⟩ := Prod.mk.inj (Option.some.inj hcall)
    rw [autoUpBanker_eq h]
    exact h.tryAll _
  | gameBanker =>
    obtain ⟨u, hu, heq⟩ := Option.map_eq_some_iff.mp hcall
    obtain ⟨-, rfl⟩ := Prod.mk.inj heq
    exact (h.gameBanker hu).1
  | gmstatus status =>
    obtain ⟨-, rfl⟩ := Prod.mk.inj (Option.some.inj hcall)
    exact h

theorem kept_iff_sound (hcall : c.call cfg e = some (success, t))
    (hcancel : ∀ player, e = .tryCancelWaitUpBanker player → success = false)
    (hdown : ∀ player, e = .tryDownBanker player → success = false) :
    Kept cfg c e ↔ Sound cfg t := by
  constructor
  · rintro ⟨success', t', hcall', hsound, -⟩
    obtain ⟨-, rfl⟩ := Prod.mk.inj (Option.some.inj (hcall.symm.trans hcall'))
    exact hsound
  · intro hsound
    refine ⟨success, t, hcall, hsound, fun player he hsuccess => ?_, fun player he hsuccess => ?_⟩
    · rw [hcancel player he] at hsuccess
      cases hsuccess
    · rw [hdown player he] at hsuccess
      cases hsuccess

theorem kept_iff (h : Plain c) (hsound : Sound cfg c) (hdistinct : e.Distinct) :
    Kept cfg c e ↔ Clear cfg c e := by
  cases e with
  | applyForUpBanker player =>
    rw [kept_iff_sound rfl (by simp) (by simp)]
    exact sound_applyForUpBanker_iff h hsound player
  | tryUpBanker player =>
    rw [kept_iff_sound rfl (by simp) (by simp)]
    exact sound_tryUpBanker_iff h hsound player
  | tryWaitUpBanker player =>
    have hcall : c.call cfg (.tryWaitUpBanker player) = some (true, c.wait player) :=
      congrArg some (tryWaitUpBanker_eq h player)
    rw [kept_iff_sound hcall (by simp) (by simp)]
    exact sound_wait_iff h hsound player
  | tryCancelWaitUpBanker player =>
    have hcall : c.call cfg (.tryCancelWaitUpBanker player) = some (false, c) :=
      congrArg some (tryCancelWaitUpBanker_eq h player)
    rw [kept_iff_sound hcall (by simp) (by simp)]
    exact iff_of_true hsound trivial
  | tryDownBanker player =>
    have hcall : c.call cfg (.tryDownBanker player) = some (false, c) := tryDownBanker_eq h player
    rw [kept_iff_sound hcall (by simp) (by simp)]
    exact iff_of_true hsound trivial
  | autoUpBanker players =>
    rw [kept_iff_sound rfl (by simp) (by simp)]
    exact sound_autoUpBanker_iff h hsound hdistinct
  | gameBanker =>
    show _ ↔ c.arrWaitUpBanker = [] ∨ cfg.maxBanker ≤ c.numBanker
    rw [← gameBanker_sound_iff h hsound]
    constructor
    · rintro ⟨success, t, hcall, ht, -⟩
      obtain ⟨u, hu, heq⟩ := Option.map_eq_some_iff.mp hcall
      obtain ⟨-, rfl⟩ := Prod.mk.inj heq
      exact ⟨u, hu, ht⟩
    · rintro ⟨t, hreturn, ht⟩
      have hcall : c.call cfg .gameBanker = some (false, t) := by rw [call, hreturn]; rfl
      exact (kept_iff_sound hcall (by simp) (by simp)).mpr ht
  | gmstatus status =>
    rw [kept_iff_sound rfl (by simp) (by simp)]
    exact iff_of_true ⟨hsound.bankers, hsound.waiting, hsound.disjoint, hsound.bound, hsound.flag⟩
      trivial

/-- The lists are sound in every run in which nobody becomes a banker, nobody waits twice, and no
round starts with a free place and somebody who waits; any call that does one of these is not
kept. -/
theorem lists_sound {coin : ι → Int} {robot : ι → Bool} {arrAreaEnum : List α}
    {es : List (Call ι)}
    (hrun : Run (Guarded (Clear cfg) (Step cfg)) (opened coin robot arrAreaEnum) es c) :
    Sound cfg c ∧ ∀ e : Call ι, e.Distinct → (Kept cfg c e ↔ Clear cfg c e) := by
  have hinv : Plain c ∧ Sound cfg c := by
    refine hrun.invariant (I := fun c => Plain c ∧ Sound cfg c)
      (sound_opened coin robot arrAreaEnum) fun s e t hs hstep => ?_
    obtain ⟨hclear, hdistinct, success, hcall⟩ := hstep
    refine ⟨plain hs.1 hcall, ?_⟩
    obtain ⟨success', t', hcall', ht, -⟩ := (kept_iff hs.1 hs.2 hdistinct).mpr hclear
    obtain ⟨-, rfl⟩ := Prod.mk.inj (Option.some.inj (hcall.symm.trans hcall'))
    exact ht
  exact ⟨hinv.2, fun e hdistinct => kept_iff hinv.1 hinv.2 hdistinct⟩

def twoBankers : Config Unit := ⟨fun _ => none, [], 1, 2⟩

theorem lists_sound_waiting : ∃ c : Competition Nat Unit,
    Run (Guarded (Clear twoBankers) (Step twoBankers))
      (opened (fun _ => 100) (fun _ => false) [])
      [.gmstatus (some .betting), .tryUpBanker 0, .tryWaitUpBanker 1, .tryDownBanker 0] c ∧
    Sound twoBankers c := by
  have hrun : Run (Guarded (Clear twoBankers) (Step twoBankers))
      (opened (fun _ => 100) (fun _ => false) [])
      [.gmstatus (some .betting), .tryUpBanker 0, .tryWaitUpBanker 1, .tryDownBanker 0] _ :=
    .cons (.of_step ⟨trivial, false, rfl⟩ trivial) <|
    .cons (.of_step ⟨trivial, true, rfl⟩ ⟨by decide, List.not_mem_nil⟩) <|
    .cons (.of_step ⟨trivial, true, rfl⟩ (show 1 ∉ [0] by decide)) <|
    .cons (.of_step ⟨trivial, false, rfl⟩ trivial) <| .nil _
  exact ⟨_, hrun, (lists_sound hrun).1⟩

/-- In the idle phase one player applies twice and has both places. -/
theorem banker_twice : ∃ c : Competition Nat Unit,
    Run (Step twoBankers) (opened (fun _ => 100) (fun _ => false) [])
      [.gmstatus (some .idle), .applyForUpBanker 0, .applyForUpBanker 0] c ∧
    c.arrBanker = [0, 0] ∧ c.ifBanker 0 = false ∧ ¬ Sound twoBankers c := by
  refine ⟨_, .cons ⟨trivial, false, rfl⟩ <| .cons ⟨trivial, false, rfl⟩ <|
    .cons ⟨trivial, false, rfl⟩ <| .nil _, rfl, rfl, fun h => ?_⟩
  exact absurd h.bankers (by decide)

end Call

end XsServer.Hundred.Competition
