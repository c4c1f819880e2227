import XsServer.Skynet.Lock
import Mathlib.Data.List.Nodup

/-! `skynet.queue` is a fair lock.  One invariant says for every token in `sleep_session` which
coroutine sleeps under it; the other says in which of three phases the lock is: idle, owned by a
coroutine inside, or handed to one that waits and whose token is in `wakeup_queue`. -/

namespace XsServer.Skynet

open Lib

/-! ### The sleep tables -/

/-- A coroutine at this place sleeps under the session and the token. -/
def Sleeps (p : Place) (co : Co) (session : Session) (token : Token) : Prop :=
  (p = .queued session ∧ token = .thread co) ∨ ∃ timed, p = .asleep session token timed

structure TablesOk (t : Tables Bool) (place : Co → Place) : Prop where
  slept : ∀ {token session}, t.sleepSession token = some session →
    ∃ co, Sleeps (place co) co session token
  held : ∀ {co session token}, Sleeps (place co) co session token →
    t.sleepSession token = some session ∧ t.sessionIdCoroutine session = some (.co co) ∧
      session ≤ t.session
  own : ∀ {co co' session}, Sleeps (place co) co session (.thread co') → co' = co

theorem tablesOk_init : TablesOk .empty fun _ => .free where
  slept := by intro _ _ h; cases h
  held := by
    rintro _ _ _ (⟨h, _⟩ | ⟨_, h⟩) <;> cases h
  own := by
    rintro _ _ _ (⟨h, _⟩ | ⟨_, h⟩) <;> cases h

variable {session : Session}

theorem not_sleeps_free {co : Co} {token : Token} :
    ¬ Sleeps .free co session token := by
  rintro (⟨h, _⟩ | ⟨_, h⟩) <;> cases h

theorem Sleeps.unique {p : Place} {co : Co} {session session' : Session} {token token' : Token}
    (h : Sleeps p co session token) (h' : Sleeps p co session' token') :
    session = session' ∧ token = token' := by
  rcases h with ⟨h, ht⟩ | ⟨timed, h⟩ <;> rcases h' with ⟨h', ht'⟩ | ⟨timed', h'⟩ <;>
    rw [h] at h' <;> cases h'
  · exact ⟨rfl, by rw [ht, ht']⟩
  · exact ⟨rfl, rfl⟩

variable {t t' : Tables Bool} {place : Co → Place} {co : Co} {token : Token}

theorem TablesOk.sleeper_unique (h : TablesOk t place) {c c' : Co} {session session' : Session}
    (h1 : Sleeps (place c) c session token) (h2 : Sleeps (place c') c' session' token) :
    c = c' := by
  obtain ⟨hs, hc, _⟩ := h.held h1
  obtain ⟨hs', hc', _⟩ := h.held h2
  obtain rfl := Option.some.inj (hs.symm.trans hs')
  have := Option.some.inj (hc.symm.trans hc')
  cases this
  rfl

theorem TablesOk.suspend (h : TablesOk t place) (hfree : t.sleepSession token = none) {p : Place}
    (hp : Sleeps p co t.newSession token) (hco : place co = .free)
    (hown : ∀ co', token = .thread co' → co' = co) :
    TablesOk (t.suspendSleep co token).1 (Function.update place co p) := by
  rw [Tables.suspendSleep_free hfree]
  refine ⟨fun {token' session} hslept => ?_, fun {c session token'} hsleeps => ?_,
    fun {c c' session} hsleeps => ?_⟩
  · dsimp only at hslept
    by_cases ht : token' = token
    · subst ht
      rw [Function.update_self] at hslept
      obtain rfl := Option.some.inj hslept
      exact ⟨co, by rw [Function.update_self]; exact hp⟩
    · rw [Function.update_of_ne ht] at hslept
      obtain ⟨c, hc⟩ := h.slept hslept
      have hne : c ≠ co := by
        rintro rfl
        rw [hco] at hc
        exact not_sleeps_free hc
      exact ⟨c, by rw [Function.update_of_ne hne]; exact hc⟩
  · by_cases hc : c = co
    · subst hc
      rw [Function.update_self] at hsleeps
      obtain ⟨rfl, rfl⟩ := hsleeps.unique hp
      exact ⟨Function.update_self .., Function.update_self .., Nat.le_refl _⟩
    · rw [Function.update_of_ne hc] at hsleeps
      obtain ⟨hs, hi, hle⟩ := h.held hsleeps
      have htoken : token' ≠ token := by
        rintro rfl
        rw [hfree] at hs
        cases hs
      have hsession : session ≠ t.newSession := Nat.ne_of_lt (Nat.lt_succ_of_le hle)
      exact ⟨(Function.update_of_ne htoken _ _).trans hs,
        (Function.update_of_ne hsession _ _).trans hi, Nat.le_succ_of_le hle⟩
  · by_cases hc : c = co
    · subst hc
      rw [Function.update_self] at hsleeps
      exact hown c' (hsleeps.unique hp).2.symm
    · rw [Function.update_of_ne hc] at hsleeps
      exact h.own hsleeps

theorem TablesOk.awake (h : TablesOk t place) (hle : t.session ≤ t'.session)
    (hothers : ∀ c session, c ≠ co → (∃ token, Sleeps (place c) c session token) →
      t.sessionIdCoroutine session = some (.co c) → t'.sessionIdCoroutine session = some (.co c))
    (hgone : ∀ session token, Sleeps (place co) co session token → t'.sleepSession token = none)
    (hstay : ∀ token, (∀ session, ¬ Sleeps (place co) co session token) →
      t'.sleepSession token = t.sleepSession token) :
    TablesOk t' (Function.update place co .free) := by
  refine ⟨fun {token session} hslept => ?_, fun {c session token} hsleeps => ?_,
    fun {c c' session} hsleeps => ?_⟩
  · by_cases hmine : ∃ session, Sleeps (place co) co session token
    · obtain ⟨session', hmine⟩ := hmine
      rw [hgone _ _ hmine] at hslept
      cases hslept
    · rw [hstay token fun session' hs => hmine ⟨session', hs⟩] at hslept
      obtain ⟨c, hc⟩ := h.slept hslept
      have hne : c ≠ co := by
        rintro rfl
        exact hmine ⟨_, hc⟩
      exact ⟨c, by rw [Function.update_of_ne hne]; exact hc⟩
  · by_cases hc : c = co
    · subst hc
      rw [Function.update_self] at hsleeps
      exact absurd hsleeps not_sleeps_free
    · rw [Function.update_of_ne hc] at hsleeps
      obtain ⟨hs, hi, hl⟩ := h.held hsleeps
      have hnot : ∀ session, ¬ Sleeps (place co) co session token :=
        fun session' hs' => hc (h.sleeper_unique hsleeps hs')
      exact ⟨by rw [hstay token hnot, hs], hothers c session hc ⟨token, hsleeps⟩ hi,
        Nat.le_trans hl hle⟩
  · by_cases hc : c = co
    · subst hc
      rw [Function.update_self] at hsleeps
      exact absurd hsleeps not_sleeps_free
    · rw [Function.update_of_ne hc] at hsleeps
      exact h.own hsleeps

theorem TablesOk.same (h : TablesOk t place) (hle : t.session ≤ t'.session)
    (hsleep : t'.sleepSession = t.sleepSession)
    (hothers : ∀ c session token, Sleeps (place c) c session token →
      t'.sessionIdCoroutine session = t.sessionIdCoroutine session) : TablesOk t' place where
  slept := by
    intro token session hslept
    rw [hsleep] at hslept
    exact h.slept hslept
  held := by
    intro c session token hsleeps
    obtain ⟨hs, hi, hl⟩ := h.held hsleeps
    exact ⟨by rw [hsleep, hs], by rw [hothers c session token hsleeps, hi], Nat.le_trans hl hle⟩
  own := h.own

theorem TablesOk.woken (h : TablesOk t place) {note : Bool} {queue : List (Token × Bool)}
    (hqueue : t.wakeupQueue = (token, note) :: queue) {session : Session}
    (hslept : t.sleepSession token = some session) :
    ∃ co, Sleeps (place co) co session token ∧ t.woken = some co := by
  obtain ⟨co, hco⟩ := h.slept hslept
  refine ⟨co, hco, ?_⟩
  simp [Tables.woken, hqueue, hslept, (h.held hco).2.1]

variable {queue : List (Token × Bool)}

theorem dispatchWakeup_some {note : Bool}
    (hqueue : t.wakeupQueue = (token, note) :: queue)
    (hslept : t.sleepSession token = some session) : t.dispatchWakeup = { t with
      wakeupQueue := queue
      sessionIdCoroutine := Function.update t.sessionIdCoroutine session (some .broken) } := by
  simp only [Tables.dispatchWakeup, hqueue, hslept]

theorem dispatchWakeup_stale {note : Bool}
    (hqueue : t.wakeupQueue = (token, note) :: queue) (hslept : t.sleepSession token = none) :
    t.dispatchWakeup = { t with wakeupQueue := queue } := by
  simp only [Tables.dispatchWakeup, hqueue, hslept]

theorem TablesOk.ended (h : TablesOk t place)
    (hsleeps : Sleeps (place co) co session token) (hle : t.session ≤ t'.session)
    (hsleep : t'.sleepSession = Function.update t.sleepSession token none)
    (hothers : ∀ c session, c ≠ co → t.sessionIdCoroutine session = some (.co c) →
      t'.sessionIdCoroutine session = some (.co c)) :
    TablesOk t' (Function.update place co .free) := by
  refine h.awake hle (fun c session hc _ => hothers c session hc) ?_ ?_
  · intro session' token' hs
    obtain ⟨_, rfl⟩ := hs.unique hsleeps
    rw [hsleep, Function.update_self]
  · intro token' hnot
    have hne : token' ≠ token := by
      rintro rfl
      exact hnot session hsleeps
    rw [hsleep, Function.update_of_ne hne]

/-! ### The lock -/

/-- The tokens that the queue has put and that have not been dispatched. -/
def State.handed (s : State) : List (Token × Bool) := s.tables.wakeupQueue.filter (·.2)

inductive Phase (s : State) : Prop
  | idle (hcurrent : s.cs.currentThread = none) (href : s.cs.ref = 0)
      (hqueue : s.cs.threadQueue = []) (hdepth : ∀ co, s.depth co = 0) (hhanded : s.handed = [])
  | owned (co : Co) (hcurrent : s.cs.currentThread = some co) (hplace : ¬ s.Queued co)
      (href : s.cs.ref = s.depth co) (hpos : 0 < s.depth co)
      (hdepth : ∀ co' ≠ co, s.depth co' = 0) (hhanded : s.handed = [])
  | passing (co : Co) (hcurrent : s.cs.currentThread = some co) (hplace : s.Queued co)
      (href : s.cs.ref = 0) (hdepth : ∀ co, s.depth co = 0)
      (hhanded : s.handed = [(.thread co, true)])

structure Inv (s : State) : Prop where
  tables : TablesOk s.tables s.place
  phase : Phase s
  waiting : ∀ co, co ∈ s.waiting ↔ s.Queued co
  nodup : s.waiting.Nodup

theorem not_queued_free {s : State} {co : Co} (h : s.place co = .free) : ¬ s.Queued co := by
  rintro ⟨session, hq⟩
  rw [h] at hq
  cases hq

theorem inv_init : Inv .init where
  tables := tablesOk_init
  phase := .idle rfl rfl rfl (fun _ => rfl) rfl
  waiting := fun _ => ⟨fun h => absurd h List.not_mem_nil, fun h => absurd h (not_queued_free rfl)⟩
  nodup := List.nodup_nil

theorem Inv.quiet {s s' : State} (h : Inv s) (htables : TablesOk s'.tables s'.place)
    (hcs : s'.cs = s.cs) (hdepth : s'.depth = s.depth) (hhanded : s'.handed = s.handed)
    (hqueued : ∀ co, s'.Queued co ↔ s.Queued co) : Inv s' ∧ s'.waiting = s.waiting := by
  have hwaiting : s'.waiting = s.waiting := by
    unfold State.waiting
    rw [hcs, hdepth]
  refine ⟨⟨htables, ?_, fun co => ?_, ?_⟩, hwaiting⟩
  · cases h.phase with
    | idle hcurrent href hqueue hd hh =>
      exact .idle (by rw [hcs, hcurrent]) (by rw [hcs, href]) (by rw [hcs, hqueue])
        (by rw [hdepth]; exact hd) (by rw [hhanded, hh])
    | owned co hcurrent hplace href hpos hd hh =>
      exact .owned co (by rw [hcs, hcurrent]) (by rw [hqueued]; exact hplace)
        (by rw [hcs, hdepth, href]) (by rw [hdepth]; exact hpos) (by rw [hdepth]; exact hd)
        (by rw [hhanded, hh])
    | passing co hcurrent hplace href hd hh =>
      exact .passing co (by rw [hcs, hcurrent]) (by rw [hqueued]; exact hplace) (by rw [hcs, href])
        (by rw [hdepth]; exact hd) (by rw [hhanded, hh])
  · rw [hwaiting, hqueued]
    exact h.waiting co
  · rw [hwaiting]
    exact h.nodup

variable {s : State}

theorem queued_update {s' : State} {p : Place} (hplace : s'.place = Function.update s.place co p)
    (c : Co) (hne : c ≠ co) : s'.Queued c ↔ s.Queued c := by
  unfold State.Queued
  rw [hplace, Function.update_of_ne hne]

theorem Inv.enter (h : Inv s) (hfree : s.place co = .free)
    (hlock : s.cs.currentThread = none ∨ s.cs.currentThread = some co) :
    Inv (s.enter co).1 ∧ (s.enter co).1.waiting = s.waiting ∧
      ((s.enter co).2 = .entered co ∧ s.waiting = [] ∨
        (s.enter co).2 = .nested co ∧ 0 < s.depth co) := by
  have hqueued : ∀ c, (s.enter co).1.Queued c ↔ s.Queued c := fun c => Iff.rfl
  have hself : (s.enter co).1.depth co = s.depth co + 1 := Function.update_self ..
  cases h.phase with
  | idle hcurrent href hqueue hdepth hhanded =>
    have hnil : s.waiting = [] := by rw [State.waiting, hcurrent]; exact hqueue
    have hnil' : (s.enter co).1.waiting = [] := by
      change (if 0 < (s.enter co).1.depth co then [] else [co]) ++ s.cs.threadQueue = []
      rw [hself, if_pos (Nat.succ_pos _), hqueue]
      rfl
    refine ⟨⟨h.tables, .owned co rfl (not_queued_free hfree) ?_ ?_ ?_ hhanded, fun c => ?_, ?_⟩, ?_,
      .inl ⟨if_pos (hdepth co), hnil⟩⟩
    · rw [hself, hdepth]
      change s.cs.ref + 1 = _
      rw [href]
      rfl
    · rw [hself]
      exact Nat.succ_pos _
    · intro c hc
      exact (Function.update_of_ne hc _ _).trans (hdepth c)
    · rw [hnil', hqueued, ← h.waiting, hnil]
    · rw [hnil']
      exact List.nodup_nil
    · rw [hnil', hnil]
  | owned t hcurrent hplace href hpos hdepth hhanded =>
    obtain rfl : t = co := by
      rcases hlock with hnone | hsome
      · rw [hcurrent] at hnone
        cases hnone
      · exact Option.some.inj (hcurrent.symm.trans hsome)
    have hwaiting : (s.enter t).1.waiting = s.waiting := by
      change (if 0 < (s.enter t).1.depth t then [] else [t]) ++ s.cs.threadQueue = _
      rw [State.waiting, hcurrent, hself, if_pos (Nat.succ_pos _)]
      dsimp only
      rw [if_pos hpos]
    refine ⟨⟨h.tables, .owned t rfl hplace ?_ ?_ ?_ hhanded, fun c => ?_, ?_⟩, hwaiting,
      .inr ⟨if_neg (by omega), hpos⟩⟩
    · rw [hself]
      change s.cs.ref + 1 = _
      rw [href]
      rfl
    · rw [hself]
      exact Nat.succ_pos _
    · intro c hc
      exact (Function.update_of_ne hc _ _).trans (hdepth c hc)
    · rw [hwaiting, hqueued]
      exact h.waiting c
    · rw [hwaiting]
      exact h.nodup
  | passing t hcurrent hplace href hdepth hhanded =>
    obtain rfl : t = co := by
      rcases hlock with hnone | hsome
      · rw [hcurrent] at hnone
        cases hnone
      · exact Option.some.inj (hcurrent.symm.trans hsome)
    exact absurd hplace (not_queued_free hfree)

theorem TablesOk.thread_free (h : TablesOk t place) (hfree : place co = .free) :
    t.sleepSession (.thread co) = none := by
  by_contra hne
  obtain ⟨session, hs⟩ := Option.ne_none_iff_exists'.mp hne
  obtain ⟨c, hc⟩ := h.slept hs
  obtain rfl := h.own hc
  rw [hfree] at hc
  exact not_sleeps_free hc

theorem Inv.call_waits (h : Inv s) (hfree : s.place co = .free) {owner : Co}
    (hcurrent : s.cs.currentThread = some owner) (hne : owner ≠ co) :
    Inv (s.call co).1 ∧ (s.call co).1.waiting = s.waiting ++ [co] ∧ (s.call co).2 = .waits co := by
  have hfreeToken := h.tables.thread_free hfree
  have hcall : s.call co = (⟨(s.tables.suspendSleep co (.thread co)).1,
      ⟨s.cs.currentThread, s.cs.ref, s.cs.threadQueue ++ [co]⟩,
      Function.update s.place co (.queued s.tables.newSession), s.depth⟩, .waits co) := by
    rw [State.call, if_pos ⟨by rw [hcurrent]; exact Option.some_ne_none _, by
      rw [hcurrent]; exact fun heq => hne (Option.some.inj heq)⟩,
      Tables.suspendSleep_free hfreeToken]
    rfl
  rw [hcall]
  have hqueued : ∀ c, State.Queued ⟨(s.tables.suspendSleep co (.thread co)).1,
      ⟨s.cs.currentThread, s.cs.ref, s.cs.threadQueue ++ [co]⟩,
      Function.update s.place co (.queued s.tables.newSession), s.depth⟩ c ↔
        s.Queued c ∨ c = co := by
    intro c
    by_cases hc : c = co
    · subst hc
      exact ⟨fun _ => .inr rfl, fun _ => ⟨_, Function.update_self ..⟩⟩
    · rw [queued_update rfl c hc]
      exact ⟨.inl, fun h => h.resolve_right hc⟩
  have hwaiting : State.waiting ⟨(s.tables.suspendSleep co (.thread co)).1,
      ⟨s.cs.currentThread, s.cs.ref, s.cs.threadQueue ++ [co]⟩,
      Function.update s.place co (.queued s.tables.newSession), s.depth⟩ = s.waiting ++ [co] := by
    rw [State.waiting, State.waiting, hcurrent, List.append_assoc]
  refine ⟨⟨?_, ?_, fun c => ?_, ?_⟩, hwaiting, rfl⟩
  · exact h.tables.suspend hfreeToken (.inl ⟨rfl, rfl⟩) hfree fun co' heq => by cases heq; rfl
  · have hhanded : (s.tables.suspendSleep co (.thread co)).1.wakeupQueue.filter (·.2) =
        s.handed := by
      rw [Tables.suspendSleep_free hfreeToken]
      rfl
    cases h.phase with
    | idle hnone => rw [hcurrent] at hnone; cases hnone
    | owned t hcur hplace href hpos hdepth hh =>
      obtain rfl := Option.some.inj (hcur.symm.trans hcurrent)
      refine .owned t hcur (fun hq => ?_) href hpos hdepth (hhanded.trans hh)
      rcases (hqueued t).mp hq with hq | hq
      · exact hplace hq
      · exact hne hq
    | passing t hcur hplace href hdepth hh =>
      exact .passing t hcur ((hqueued t).mpr (.inl hplace)) href hdepth (hhanded.trans hh)
  · rw [hwaiting, hqueued, List.mem_append, List.mem_singleton, h.waiting]
  · rw [hwaiting]
    refine List.nodup_append.mpr ⟨h.nodup, List.nodup_singleton co, ?_⟩
    intro c hc c' hc' heq
    rw [List.mem_singleton] at hc'
    subst heq hc'
    exact not_queued_free hfree ((h.waiting c).mp hc)

theorem Inv.owner (h : Inv s) (hpos : 0 < s.depth co) :
    s.cs.currentThread = some co ∧ s.cs.ref = s.depth co ∧ (∀ c ≠ co, s.depth c = 0) ∧
      s.handed = [] ∧ s.waiting = s.cs.threadQueue := by
  cases h.phase with
  | idle hcurrent href hqueue hdepth hhanded => rw [hdepth co] at hpos; cases hpos
  | owned t hcurrent hplace href hpos' hdepth hhanded =>
    obtain rfl : co = t := by
      by_contra hne
      rw [hdepth co hne] at hpos
      cases hpos
    refine ⟨hcurrent, href, hdepth, hhanded, ?_⟩
    rw [State.waiting, hcurrent]
    change (if 0 < s.depth co then [] else [co]) ++ _ = _
    rw [if_pos hpos, List.nil_append]
  | passing t hcurrent hplace href hdepth hhanded => rw [hdepth co] at hpos; cases hpos

theorem Inv.leave_nested (h : Inv s) {ok : Bool} (hpos : 1 < s.depth co)
    (hfree : s.place co = .free) :
    Inv (s.leave co ok).1 ∧ (s.leave co ok).1.waiting = s.waiting := by
  obtain ⟨hcurrent, href, hdepth, hhanded, hwaiting⟩ := h.owner (Nat.lt_of_succ_lt hpos)
  have hleave : (s.leave co ok).1 = { s with
      cs := { s.cs with ref := s.cs.ref - 1 }
      depth := Function.update s.depth co (s.depth co - 1) } := by
    have hne : s.cs.ref - 1 ≠ 0 := by omega
    exact if_neg hne
  have hself : (s.leave co ok).1.depth co = s.depth co - 1 := by
    rw [hleave]
    exact Function.update_self ..
  have hpos' : 0 < (s.leave co ok).1.depth co := by omega
  have hcurrent' : (s.leave co ok).1.cs.currentThread = some co := by rw [hleave]; exact hcurrent
  have hwaiting' : (s.leave co ok).1.waiting = s.waiting := by
    rw [hwaiting, State.waiting, hcurrent']
    change (if 0 < (s.leave co ok).1.depth co then [] else [co]) ++ _ = _
    rw [if_pos hpos', hleave]
    rfl
  have hqueued : ∀ c, (s.leave co ok).1.Queued c ↔ s.Queued c := by
    intro c
    rw [hleave]
    exact Iff.rfl
  refine ⟨⟨by rw [hleave]; exact h.tables, .owned co hcurrent' ?_ ?_ hpos' ?_ ?_, fun c => ?_, ?_⟩,
    hwaiting'⟩
  · rw [hqueued]
    exact not_queued_free hfree
  · rw [hself, hleave]
    change s.cs.ref - 1 = _
    omega
  · intro c hc
    rw [hleave]
    exact (Function.update_of_ne hc _ _).trans (hdepth c hc)
  · rw [hleave]
    exact hhanded
  · rw [hwaiting', hqueued]
    exact h.waiting c
  · rw [hwaiting']
    exact h.nodup

theorem Inv.leave_last (h : Inv s) {ok : Bool} (hone : s.depth co = 1)
    (hfree : s.place co = .free) :
    Inv (s.leave co ok).1 ∧ (s.leave co ok).1.waiting = s.waiting ∧
      (s.leave co ok).1.cs.currentThread = s.waiting.head? ∧
      (s.leave co ok).1.cs.ref = 0 ∧
      (s.leave co ok).1.handed = s.waiting.head?.toList.map fun c => (.thread c, true) := by
  have hpos : 0 < s.depth co := by rw [hone]; exact Nat.one_pos
  obtain ⟨hcurrent, href, hdepth, hhanded, hwaiting⟩ := h.owner hpos
  have hzero : s.cs.ref - 1 = 0 := by rw [href, hone]; rfl
  have hnobody : ∀ c, Function.update s.depth co (s.depth co - 1) c = 0 := by
    intro c
    by_cases hc : c = co
    · subst hc
      rw [Function.update_self]
      omega
    · rw [Function.update_of_ne hc]
      exact hdepth c hc
  have hleave : (s.leave co ok).1 = State.handOver { s with
      cs := { s.cs with ref := s.cs.ref - 1 }
      depth := Function.update s.depth co (s.depth co - 1) } := if_pos hzero
  rw [hleave, hwaiting, State.handOver]
  cases hqueue : s.cs.threadQueue with
  | nil =>
    have hnil : s.waiting = [] := by rw [hwaiting, hqueue]
    dsimp only
    refine ⟨⟨h.tables, .idle rfl hzero hqueue hnobody hhanded, fun c => ?_, ?_⟩, ?_, rfl, hzero,
      hhanded⟩
    · change c ∈ s.cs.threadQueue ↔ s.Queued c
      rw [← hwaiting]
      exact h.waiting c
    · change s.cs.threadQueue.Nodup
      rw [hqueue]
      exact List.nodup_nil
    · exact hqueue
  | cons w queue =>
    have hcons : s.waiting = w :: queue := by rw [hwaiting, hqueue]
    have hw : s.Queued w := (h.waiting w).mp (by rw [hcons]; exact List.mem_cons_self)
    obtain ⟨session, hsession⟩ := hw
    have hslept := (h.tables.held (.inl ⟨hsession, rfl⟩)).1
    have hwake : s.tables.wakeup (.thread w) true =
        { s.tables with wakeupQueue := s.tables.wakeupQueue ++ [(.thread w, true)] } :=
      if_neg (by rw [hslept]; exact Option.some_ne_none _)
    have hhanded' : (s.tables.wakeupQueue ++ [(Token.thread w, true)]).filter (·.2) =
        [(.thread w, true)] := by
      rw [List.filter_append]
      change s.handed ++ _ = _
      rw [hhanded]
      rfl
    dsimp only
    rw [hwake]
    have hwaiting' : State.waiting ⟨{ s.tables with
          wakeupQueue := s.tables.wakeupQueue ++ [(.thread w, true)] },
        ⟨some w, s.cs.ref - 1, queue⟩, s.place,
        Function.update s.depth co (s.depth co - 1)⟩ = w :: queue := by
      change (if 0 < Function.update s.depth co (s.depth co - 1) w then [] else [w]) ++ queue = _
      rw [hnobody, if_neg (Nat.lt_irrefl 0)]
      rfl
    refine ⟨⟨?_, .passing w rfl ⟨session, hsession⟩ hzero hnobody hhanded', fun c => ?_, ?_⟩,
      hwaiting', rfl, hzero, hhanded'⟩
    · exact h.tables.same (Nat.le_refl _) rfl fun _ _ _ _ => rfl
    · rw [hwaiting', ← hcons]
      exact h.waiting c
    · rw [hwaiting', ← hcons]
      exact h.nodup

theorem Inv.sleep (h : Inv s) {timed : Bool} (hfree : s.place co = .free)
    (hown : ∀ co', token = .thread co' → co' = co) :
    Inv (s.sleep co token timed) ∧ (s.sleep co token timed).waiting = s.waiting := by
  by_cases hused : s.tables.sleepSession token = none
  · have hsleep : s.sleep co token timed = ⟨(s.tables.suspendSleep co token).1, s.cs,
        Function.update s.place co (.asleep s.tables.newSession token timed), s.depth⟩ := by
      rw [State.sleep, Tables.suspendSleep_free hused]
      rfl
    rw [hsleep]
    refine h.quiet (h.tables.suspend hused (.inr ⟨timed, rfl⟩) hfree hown) rfl rfl ?_ fun c => ?_
    · rw [State.handed, Tables.suspendSleep_free hused]
      rfl
    · by_cases hc : c = co
      · subst hc
        refine ⟨fun hq => ?_, fun hq => absurd hq (not_queued_free hfree)⟩
        obtain ⟨session, hq⟩ := hq
        change Function.update _ _ _ _ = _ at hq
        rw [Function.update_self] at hq
        cases hq
      · exact queued_update rfl c hc
  · have hsleep : s.sleep co token timed =
        { s with tables := (s.tables.suspendSleep co token).1 } := by
      rw [State.sleep, Tables.suspendSleep_used hused]
      rfl
    rw [hsleep, Tables.suspendSleep_used hused]
    refine h.quiet (h.tables.same (Nat.le_succ _) rfl fun c session token' hs => ?_) rfl rfl rfl
      fun _ => Iff.rfl
    have hle := (h.tables.held hs).2.2
    exact Function.update_of_ne (Nat.ne_of_lt (Nat.lt_succ_of_le hle)) _ _

theorem Inv.wakeup (h : Inv s) (token : Token) :
    Inv { s with tables := s.tables.wakeup token false } ∧
      State.waiting { s with tables := s.tables.wakeup token false } = s.waiting := by
  by_cases hused : s.tables.sleepSession token = none
  · have hsame : s.tables.wakeup token false = s.tables := if_pos hused
    rw [hsame]
    exact ⟨h, rfl⟩
  · have hadd : s.tables.wakeup token false =
        { s.tables with wakeupQueue := s.tables.wakeupQueue ++ [(token, false)] } := if_neg hused
    rw [hadd]
    refine h.quiet (h.tables.same (Nat.le_refl _) rfl fun _ _ _ _ => rfl) rfl rfl ?_
      fun _ => Iff.rfl
    rw [State.handed, List.filter_append]
    exact List.append_nil _

theorem Inv.resumed (h : Inv s) (u : Tables Bool) (htables : u.session = s.tables.session)
    (hsleep : u.sleepSession = s.tables.sleepSession)
    (hhanded : u.wakeupQueue.filter (·.2) = s.handed) {target : Option Co}
    (hothers : ∀ c session, target ≠ some c → s.tables.sessionIdCoroutine session = some (.co c) →
      u.sessionIdCoroutine session = some (.co c))
    (hnot : ∀ c, target = some c → ¬ s.Queued c) :
    Inv (State.resumed { s with tables := u } target).1 ∧
      (State.resumed { s with tables := u } target).1.waiting = s.waiting ∧
      (State.resumed { s with tables := u } target).2 = .quiet := by
  cases target with
  | none =>
    have htables' : TablesOk u s.place := h.tables.same (Nat.le_of_eq htables.symm) hsleep
      fun c session token hs => by
        have hentry := (h.tables.held hs).2.1
        rw [hothers c session (Option.some_ne_none c).symm hentry, hentry]
    exact and_assoc.mp ⟨h.quiet htables' rfl rfl hhanded fun _ => Iff.rfl, rfl⟩
  | some co =>
    have hkeep : ∀ c session, c ≠ co → s.tables.sessionIdCoroutine session = some (.co c) →
        u.sessionIdCoroutine session = some (.co c) :=
      fun c session hc => hothers c session fun heq => hc (Option.some.inj heq).symm
    change Inv (State.resume _ co).1 ∧ (State.resume _ co).1.waiting = _ ∧
      (State.resume _ co).2 = .quiet
    cases hplace : s.place co with
    | free =>
      have hresume : State.resume { s with tables := u } co = ({ s with tables := u }, .quiet) := by
        simp only [State.resume, hplace]
      have htables' : TablesOk u s.place := h.tables.same (Nat.le_of_eq htables.symm) hsleep
        fun c session token hs => by
          have hentry := (h.tables.held hs).2.1
          have hne : c ≠ co := by
            rintro rfl
            rw [hplace] at hs
            exact not_sleeps_free hs
          rw [hkeep c session hne hentry, hentry]
      rw [hresume]
      exact and_assoc.mp ⟨h.quiet htables' rfl rfl hhanded fun _ => Iff.rfl, rfl⟩
    | queued session => exact absurd ⟨session, hplace⟩ (hnot co rfl)
    | asleep session token timed =>
      have hsleeps : Sleeps (s.place co) co session token := .inr ⟨timed, hplace⟩
      have hresume : State.resume { s with tables := u } co = (⟨if timed then u.endSleep token
          else u.endWait session token, s.cs, Function.update s.place co .free, s.depth⟩,
            .quiet) := by
        simp only [State.resume, hplace]
      rw [hresume]
      have hmine := (h.tables.held hsleeps).2.1
      have htables' : TablesOk (if timed then u.endSleep token else u.endWait session token)
          (Function.update s.place co .free) := by
        apply h.tables.ended hsleeps
        · cases timed <;> exact Nat.le_of_eq htables.symm
        · cases timed <;> exact congrArg (Function.update · token none) hsleep
        · intro c session' hc hentry
          have hne : session' ≠ session := by
            rintro rfl
            rw [hmine] at hentry
            cases hentry
            exact hc rfl
          cases timed with
          | true => exact hkeep c session' hc hentry
          | false => exact (Function.update_of_ne hne _ _).trans (hkeep c session' hc hentry)
      refine and_assoc.mp ⟨h.quiet htables' rfl rfl ?_ fun c => ?_, rfl⟩
      · rw [← hhanded]
        cases timed <;> rfl
      · by_cases hc : c = co
        · subst hc
          refine ⟨fun hq => ?_, fun hq => absurd hq (hnot c rfl)⟩
          exact absurd hq (not_queued_free (Function.update_self ..))
        · exact queued_update rfl c hc

theorem Inv.response (h : Inv s)
    (hnot : ∀ c, s.tables.answered session = some c → ¬ s.Queued c) :
    Inv (s.next (.response session)).1 ∧ (s.next (.response session)).1.waiting = s.waiting ∧
      (s.next (.response session)).2 = .quiet := by
  apply h.resumed (s.tables.dispatchResponse session) rfl rfl rfl ?_ hnot
  intro c session' hother hentry
  have hne : session' ≠ session := by
    rintro rfl
    apply hother
    simp only [Tables.answered, hentry]
  exact (Function.update_of_ne hne _ _).trans hentry

theorem Inv.dispatch_handed (h : Inv s)
    (hqueue : s.tables.wakeupQueue = (token, true) :: queue) :
    ∃ w, s.waiting = w :: s.cs.threadQueue ∧ token = .thread w ∧ Inv (s.next .dispatch).1 ∧
      (s.next .dispatch).1.waiting = s.cs.threadQueue ∧ (s.next .dispatch).2 = .entered w := by
  have hne : s.handed ≠ [] := by
    rw [State.handed, hqueue, List.filter_cons_of_pos rfl]
    exact List.cons_ne_nil _ _
  cases h.phase with
  | idle _ _ _ _ hhanded | owned _ _ _ _ _ _ hhanded => exact absurd hhanded hne
  | passing w hcurrent hplace href hdepth hhanded =>
    rw [State.handed, hqueue, List.filter_cons_of_pos rfl] at hhanded
    obtain ⟨hhead, hrest⟩ := List.cons.inj hhanded
    cases hhead
    have hwaiting : s.waiting = w :: s.cs.threadQueue := by
      rw [State.waiting, hcurrent]
      change (if 0 < s.depth w then [] else [w]) ++ _ = _
      rw [hdepth, if_neg (Nat.lt_irrefl 0)]
      rfl
    obtain ⟨session, hsession⟩ := hplace
    have hsleeps : Sleeps (s.place w) w session (.thread w) := .inl ⟨hsession, rfl⟩
    obtain ⟨hslept, hmine, _⟩ := h.tables.held hsleeps
    obtain ⟨c, hc, hwoken⟩ := h.tables.woken hqueue hslept
    obtain rfl := h.tables.sleeper_unique hc hsleeps
    refine ⟨c, hwaiting, rfl, ?_⟩
    have hnext : s.next .dispatch = (⟨Tables.endWait { s.tables with
          wakeupQueue := queue
          sessionIdCoroutine := Function.update s.tables.sessionIdCoroutine session (some .broken) }
        session (.thread c), ⟨some c, s.cs.ref + 1, s.cs.threadQueue⟩,
        Function.update s.place c .free, Function.update s.depth c (s.depth c + 1)⟩,
          .entered c) := by
      rw [State.next, hwoken, dispatchWakeup_some hqueue hslept]
      change State.resume _ c = _
      simp only [State.resume, hsession, href, ↓reduceIte, State.enter, hdepth]
    rw [hnext]
    have hplace : Function.update s.place c .free c = .free := Function.update_self ..
    have hself : Function.update s.depth c (s.depth c + 1) c = 1 := by
      rw [Function.update_self, hdepth]
    have hwaiting' : State.waiting ⟨Tables.endWait { s.tables with
          wakeupQueue := queue
          sessionIdCoroutine := Function.update s.tables.sessionIdCoroutine session (some .broken) }
        session (.thread c), ⟨some c, s.cs.ref + 1, s.cs.threadQueue⟩,
        Function.update s.place c .free, Function.update s.depth c (s.depth c + 1)⟩ =
          s.cs.threadQueue := by
      change (if 0 < Function.update s.depth c (s.depth c + 1) c then [] else [c]) ++ _ = _
      rw [hself, if_pos Nat.one_pos, List.nil_append]
    have hnodup := h.nodup
    rw [hwaiting, List.nodup_cons] at hnodup
    refine ⟨⟨?_, .owned c rfl (not_queued_free hplace) ?_ ?_ ?_ hrest, fun co => ?_, ?_⟩,
      hwaiting', rfl⟩
    · refine h.tables.ended hsleeps (Nat.le_of_eq ?_) ?_ fun co session' hco hentry => ?_
      · rfl
      · rfl
      have hne : session' ≠ session := by
        rintro rfl
        have := Option.some.inj (hmine.symm.trans hentry)
        cases this
        exact hco rfl
      exact (Function.update_of_ne hne _ _).trans ((Function.update_of_ne hne _ _).trans hentry)
    · change s.cs.ref + 1 = (Function.update s.depth c (s.depth c + 1) c : Nat)
      rw [hself, href]
      rfl
    · change 0 < Function.update s.depth c (s.depth c + 1) c
      rw [hself]
      exact Nat.one_pos
    · intro co hco
      exact (Function.update_of_ne hco _ _).trans (hdepth co)
    · rw [hwaiting']
      by_cases hco : co = c
      · subst hco
        exact ⟨fun hmem => absurd hmem hnodup.1, fun hq => absurd hq (not_queued_free hplace)⟩
      · rw [queued_update rfl co hco, ← h.waiting, hwaiting, List.mem_cons, or_iff_right hco]
    · rw [hwaiting']
      exact hnodup.2

theorem Inv.dispatch_other (h : Inv s)
    (hhead : s.tables.wakeupQueue.head?.map (·.2) ≠ some true)
    (hnot : ∀ c, s.tables.woken = some c → ¬ s.Queued c) :
    Inv (s.next .dispatch).1 ∧ (s.next .dispatch).1.waiting = s.waiting ∧
      (s.next .dispatch).2 = .quiet := by
  cases hqueue : s.tables.wakeupQueue with
  | nil =>
    have hnone : s.tables.woken = none := by simp [Tables.woken, hqueue]
    have hsame : s.tables.dispatchWakeup = s.tables := by simp only [Tables.dispatchWakeup, hqueue]
    rw [State.next, hnone, hsame]
    exact ⟨h, rfl, rfl⟩
  | cons entry queue =>
    obtain ⟨token, note⟩ := entry
    have hnote : note = false := by
      rw [hqueue] at hhead
      cases note with
      | false => rfl
      | true => exact absurd rfl hhead
    subst hnote
    have hhanded : queue.filter (·.2) = s.handed := by
      rw [State.handed, hqueue, List.filter_cons_of_neg Bool.false_ne_true]
    cases hslept : s.tables.sleepSession token with
    | none =>
      rw [State.next, dispatchWakeup_stale hqueue hslept]
      exact h.resumed { s.tables with wakeupQueue := queue } rfl rfl hhanded
        (fun _ _ _ hentry => hentry) hnot
    | some session =>
      obtain ⟨co, hco, hwoken⟩ := h.tables.woken hqueue hslept
      rw [State.next, dispatchWakeup_some hqueue hslept]
      refine h.resumed { s.tables with
        wakeupQueue := queue
        sessionIdCoroutine := Function.update s.tables.sessionIdCoroutine session (some .broken) }
        rfl rfl hhanded (fun c session' hother hentry => ?_) hnot
      have hne : session' ≠ session := by
        rintro rfl
        have := Option.some.inj ((h.tables.held hco).2.1.symm.trans hentry)
        cases this
        exact hother hwoken
      exact (Function.update_of_ne hne _ _).trans hentry

/-! ### Runs -/

/-- The coroutine that calls the function from outside in this step. -/
def arrival : Event × Report → List Co
  | (.call _, .entered co) => [co]
  | (.call _, .waits co) => [co]
  | _ => []

def entry : Event × Report → List Co
  | (_, .entered co) => [co]
  | _ => []

theorem Inv.step {t : State} {l : Event × Report} (h : Inv s) (hstep : Step s l t)
    (hok : OnlyByQueue s l) :
    Inv t ∧ s.waiting ++ arrival l = entry l ++ t.waiting ∧ ∀ co, l.2 ≠ .failed co := by
  obtain ⟨e, report⟩ := l
  obtain ⟨henabled, hnext⟩ := hstep
  obtain ⟨rfl, rfl⟩ : (s.next e).1 = t ∧ (s.next e).2 = report := by rw [hnext]; exact ⟨rfl, rfl⟩
  have hquiet : Inv (s.next e).1 ∧ (s.next e).1.waiting = s.waiting ∧ (s.next e).2 = .quiet →
      Inv (s.next e).1 ∧ s.waiting ++ arrival (e, (s.next e).2) =
        entry (e, (s.next e).2) ++ (s.next e).1.waiting ∧ ∀ co, (s.next e).2 ≠ .failed co := by
    rintro ⟨hinv, hwaiting, hreport⟩
    refine ⟨hinv, ?_, fun co => by rw [hreport]; exact Report.noConfusion⟩
    rw [hreport, hwaiting]
    cases e <;> exact List.append_nil _
  cases e with
  | call co =>
    by_cases hlock : s.cs.currentThread ≠ none ∧ s.cs.currentThread ≠ some co
    · obtain ⟨owner, hcurrent⟩ := Option.ne_none_iff_exists'.mp hlock.1
      have hne : owner ≠ co := fun heq => hlock.2 (by rw [hcurrent, heq])
      obtain ⟨hinv, hwaiting, hreport⟩ := h.call_waits henabled hcurrent hne
      change Inv (s.call co).1 ∧ s.waiting ++ arrival (.call co, (s.call co).2) =
        entry (.call co, (s.call co).2) ++ (s.call co).1.waiting ∧ ∀ c, (s.call co).2 ≠ .failed c
      rw [hreport]
      exact ⟨hinv, hwaiting.symm, fun _ => Report.noConfusion⟩
    · have hfree : s.cs.currentThread = none ∨ s.cs.currentThread = some co := by
        by_contra hnot
        exact hlock ⟨fun heq => hnot (.inl heq), fun heq => hnot (.inr heq)⟩
      have hcall : s.next (.call co) = s.enter co := if_neg hlock
      obtain ⟨hinv, hwaiting, hreport⟩ := h.enter henabled hfree
      rw [hcall]
      refine ⟨hinv, ?_⟩
      rcases hreport with ⟨hreport, hnil⟩ | ⟨hreport, hpos⟩
      · rw [hreport, hwaiting, hnil]
        exact ⟨rfl, fun _ => Report.noConfusion⟩
      · rw [hreport, hwaiting]
        exact ⟨List.append_nil _, fun _ => Report.noConfusion⟩
  | leave co ok =>
    obtain ⟨hfree, hpos⟩ := henabled
    have hwaiting : Inv (s.leave co ok).1 ∧ (s.leave co ok).1.waiting = s.waiting := by
      by_cases hone : s.depth co = 1
      · obtain ⟨hinv, hwaiting, _⟩ := h.leave_last hone hfree
        exact ⟨hinv, hwaiting⟩
      · apply h.leave_nested _ hfree
        omega
    refine ⟨hwaiting.1, ?_, fun _ => Report.noConfusion⟩
    change s.waiting ++ [] = (s.leave co ok).1.waiting
    rw [hwaiting.2, List.append_nil]
  | sleep co token timed =>
    obtain ⟨hinv, hwaiting⟩ := h.sleep henabled.1 henabled.2
    exact hquiet ⟨hinv, hwaiting, rfl⟩
  | wakeup token =>
    obtain ⟨hinv, hwaiting⟩ := h.wakeup token
    exact hquiet ⟨hinv, hwaiting, rfl⟩
  | response session =>
    refine hquiet (h.response fun c hc hq => ?_)
    have := (hok c hc hq).1
    cases this
  | dispatch =>
    by_cases hhead : s.tables.wakeupQueue.head?.map (·.2) = some true
    · obtain ⟨⟨token, note⟩, hentry, hnote⟩ := Option.map_eq_some_iff.mp hhead
      obtain ⟨queue, hqueue⟩ := List.head?_eq_some_iff.mp hentry
      obtain rfl : note = true := hnote
      obtain ⟨w, hwaits, _, hinv, hwaiting, hreport⟩ := h.dispatch_handed hqueue
      refine ⟨hinv, ?_, fun c => by rw [hreport]; exact Report.noConfusion⟩
      rw [hreport, hwaiting, hwaits]
      exact List.append_nil _
    · exact hquiet (h.dispatch_other hhead fun c hc hq => hhead (hok c hc hq).2)

def arrivals (ls : List (Event × Report)) : List Co := ls.flatMap arrival

def entries (ls : List (Event × Report)) : List Co := ls.flatMap entry

theorem run_inv {ls : List (Event × Report)} (h : Run (Guarded OnlyByQueue Step) .init ls s) :
    Inv s ∧ arrivals ls = entries ls ++ s.waiting ∧ ∀ l ∈ ls, ∀ co, l.2 ≠ .failed co := by
  induction h with
  | nil => exact ⟨inv_init, rfl, fun l hl => absurd hl List.not_mem_nil⟩
  | @snoc s' u ls l _ hstep ih =>
    obtain ⟨hok, hstep⟩ := hstep
    obtain ⟨hinv, horder, hfailed⟩ := ih
    obtain ⟨hinv', horder', hfailed'⟩ := hinv.step hstep hok
    refine ⟨hinv', ?_, fun l' hl' => ?_⟩
    · rw [arrivals, entries, List.flatMap_append, List.flatMap_append, List.flatMap_singleton,
        List.flatMap_singleton, List.append_assoc, ← horder', ← List.append_assoc]
      exact congrArg (· ++ arrival l) horder
    · rcases List.mem_append.mp hl' with hl' | hl'
      · exact hfailed l' hl'
      · rw [List.mem_singleton.mp hl']
        exact hfailed'

/-- In every run in which only the queue wakes those who wait in it: one coroutine at most is
inside; all come inside in the order of their calls, and those who have not are the ones that wait;
no assertion fails; the owner's calls do not block; when the last call of the owner returns or
fails, the lock is the first one's that waits; whenever nobody is inside, the token of the first
that waits is in `wakeup_queue`, and when it is dispatched that coroutine enters; and with nobody
inside or waiting the next call enters at once. -/
theorem queue_fair {ls : List (Event × Report)} (h : Run (Guarded OnlyByQueue Step) .init ls s) :
    (∀ co co', 0 < s.depth co → 0 < s.depth co' → co = co') ∧
      arrivals ls = entries ls ++ s.waiting ∧ (∀ co, co ∈ s.waiting ↔ s.Queued co) ∧
      (∀ l ∈ ls, ∀ co, l.2 ≠ .failed co) ∧
      (∀ co, 0 < s.depth co → s.place co = .free → (s.call co).2 = .nested co) ∧
      (∀ co ok, s.depth co = 1 → s.place co = .free →
        (s.leave co ok).1.cs.currentThread = s.waiting.head? ∧ (s.leave co ok).1.cs.ref = 0) ∧
      (∀ w, s.waiting.head? = some w → (∀ co, s.depth co = 0) →
        (.thread w, true) ∈ s.tables.wakeupQueue) ∧
      (∀ token queue, s.tables.wakeupQueue = (token, true) :: queue →
        ∃ w, s.waiting.head? = some w ∧ token = .thread w ∧ (s.next .dispatch).2 = .entered w) ∧
      ((∀ co, s.depth co = 0) → s.waiting = [] →
        ∀ co, s.place co = .free → (s.call co).2 = .entered co) := by
  obtain ⟨hinv, horder, hfailed⟩ := run_inv h
  refine ⟨fun co co' hco hco' => ?_, horder, hinv.waiting, hfailed, fun co hpos hfree => ?_,
    fun co ok hone hfree => ?_, fun w hw hnobody => ?_, fun token queue hqueue => ?_,
    fun hnobody hnil co hfree => ?_⟩
  · have howner := (hinv.owner hco).1
    have howner' := (hinv.owner hco').1
    exact Option.some.inj (howner.symm.trans howner')
  · have howner := (hinv.owner hpos).1
    have hcall : s.call co = s.enter co := if_neg fun hlock => hlock.2 howner
    rw [hcall]
    exact if_neg (Nat.ne_of_gt hpos)
  · obtain ⟨_, _, hcurrent, href, _⟩ := hinv.leave_last hone hfree
    exact ⟨hcurrent, href⟩
  · cases hinv.phase with
    | idle hcurrent href hqueue hdepth hhanded =>
      rw [State.waiting, hcurrent] at hw
      change s.cs.threadQueue.head? = some w at hw
      rw [hqueue] at hw
      cases hw
    | owned co hcurrent hplace href hpos hdepth hhanded =>
      rw [hnobody] at hpos
      cases hpos
    | passing co hcurrent hplace href hdepth hhanded =>
      rw [State.waiting, hcurrent] at hw
      change ((if 0 < s.depth co then [] else [co]) ++ s.cs.threadQueue).head? = some w at hw
      rw [hdepth, if_neg (Nat.lt_irrefl 0)] at hw
      obtain rfl := Option.some.inj hw
      have hmem : (.thread co, true) ∈ s.handed := by
        rw [hhanded]
        exact List.mem_singleton_self _
      exact List.mem_of_mem_filter hmem
  · obtain ⟨w, hwaits, htoken, _, _, hreport⟩ := hinv.dispatch_handed hqueue
    exact ⟨w, by rw [hwaits]; rfl, htoken, hreport⟩
  · have hnone : s.cs.currentThread = none := by
      cases hinv.phase with
      | idle hcurrent => exact hcurrent
      | owned co hcurrent hplace href hpos =>
        rw [hnobody] at hpos
        cases hpos
      | passing co hcurrent hplace =>
        have := (hinv.waiting co).mpr hplace
        rw [hnil] at this
        exact absurd this List.not_mem_nil
    have hcall : s.call co = s.enter co := if_neg fun hlock => hlock.1 hnone
    rw [hcall]
    exact if_pos (hnobody co)

theorem step_next {e : Event} (h : s.Enabled e) : Step s (e, (s.next e).2) (s.next e).1 := ⟨h, rfl⟩

/-- Coroutines 2 and 3 wait for coroutine 1, whose call fails; then 2 enters. -/
def contended : List (Event × Report) :=
  [(.call 1, .entered 1), (.call 2, .waits 2), (.call 3, .waits 3), (.leave 1 false, .left 1 false),
    (.dispatch, .entered 2)]

def contendedState : State :=
  [Event.call 1, .call 2, .call 3, .leave 1 false, .dispatch].foldl (fun s e => (s.next e).1) .init

theorem queue_fair_contended :
    arrivals contended = entries contended ++ contendedState.waiting ∧
      contendedState.waiting = [3] := by
  have hrun : Run (Guarded OnlyByQueue Step) .init contended contendedState :=
    .snoc (.snoc (.snoc (.snoc (.snoc (.nil _)
      (.of_step (step_next rfl) fun _ h => by cases h))
      (.of_step (step_next rfl) fun _ h => by cases h))
      (.of_step (step_next rfl) fun _ h => by cases h))
      (.of_step (step_next ⟨rfl, Nat.one_pos⟩) fun _ h => by cases h))
      (.of_step (step_next trivial) fun _ _ _ => ⟨rfl, rfl⟩)
  exact ⟨(queue_fair hrun).2.1, rfl⟩

end XsServer.Skynet
