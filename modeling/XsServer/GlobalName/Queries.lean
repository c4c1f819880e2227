import XsServer.GlobalName.Agree
import Mathlib.Data.Fintype.Basic

/-! Queries in whole runs: each one waits at its slave or is answered, and every answer is the
address that the name keeps. -/

namespace XsServer.GlobalName

open Lib

variable {ι ρ : Type}

/-- The answers of a run, each with its slave and its requester. -/
def answers (ls : List (Event ι ρ × List (ι × ρ × Answer))) : List (ι × ρ × Answer) :=
  ls.flatMap (·.2)

def events (ls : List (Event ι ρ × List (ι × ρ × Answer))) : List (Event ι ρ) := ls.map (·.1)

/-- What a step does for the requesters at a slave: `s` and `t` are the slave before and after,
`ask` tells which ones come in the step, and `out` are the answers. -/
structure Serves (claimed : Name → Address → Prop) (s : Slave ρ) (ask : Name → ρ → Prop)
    (t : Slave ρ) (out : List (ρ × Answer)) : Prop where
  keeps : ∀ n, ∀ r ∈ s.queue n,
    r ∈ t.queue n ∨ ∃ a, claimed n a ∧ (r, .address (some a)) ∈ out
  waits : ∀ n, ∀ r ∈ t.queue n, r ∈ s.queue n ∨ ask n r
  answers : ∀ r a, (r, .address a) ∈ out →
    ∃ n b, a = some b ∧ claimed n b ∧ (r ∈ s.queue n ∨ ask n r)
  asks : ∀ n r, ask n r → r ∈ t.queue n ∨
    (∃ a, claimed n a ∧ (r, .address (some a)) ∈ out) ∨ ∀ a, ¬ Fits n a

section Serves

variable {claimed : Name → Address → Prop} {s : Slave ρ} {ask : Name → ρ → Prop} {n : Name}
  {a : Address} {r : ρ}

theorem Serves.same {t : Slave ρ} (hqueue : t.queryname = s.queryname) (hask : ∀ n r, ¬ ask n r) :
    Serves claimed s ask t [] := by
  have heq : ∀ m, t.queue m = s.queue m := fun m => congrArg (fun f => (f m).getD []) hqueue
  exact ⟨fun m r hr => .inl ((heq m).symm ▸ hr), fun m r hr => .inl (heq m ▸ hr),
    fun _ _ h => (by cases h), fun m r h => absurd h (hask m r)⟩

theorem Serves.learn (hclaim : claimed n a) (hask : ∀ n r, ¬ ask n r) :
    Serves claimed s ask (s.learn n a) ((s.queue n).map (·, .address (some a))) where
  keeps m r hr := by
    by_cases hm : m = n
    · subst hm
      exact .inr ⟨a, hclaim, List.mem_map_of_mem hr⟩
    · left
      rwa [Slave.queue, learn_queryname, if_neg hm]
  waits m r hr := by
    rw [Slave.queue, learn_queryname] at hr
    split at hr
    · cases hr
    · exact .inl hr
  answers r b hb := by
    obtain ⟨r', hr', heq⟩ := List.mem_map.mp hb
    obtain ⟨hr, ha⟩ := Prod.mk.inj heq
    subst hr
    exact ⟨n, a, (Answer.address.inj ha).symm, hclaim, .inl hr'⟩
  asks m r h := absurd h (hask m r)

variable (localname : Name → Option Address)

theorem Serves.query (hdot : n.head? ≠ some 46)
    (hbound : ∀ a, s.globalname n = some a → claimed n a) :
    Serves claimed s (fun m q => m = n ∧ q = r) (QUERYNAME localname s n r).1
      (QUERYNAME localname s n r).2.2 := by
  rcases QUERYNAME_cases localname s r hdot with ⟨a, ha, heq⟩ | ⟨hlong, heq⟩ | ⟨out, _, _, heq⟩ <;>
    rw [heq]
  · refine ⟨fun _ _ hr => .inl hr, fun _ _ hr => .inl hr, fun q b hb => ?_, ?_⟩
    · obtain ⟨hq, hb⟩ := Prod.mk.inj (List.mem_singleton.mp hb)
      exact ⟨n, a, Answer.address.inj hb, hbound a ha, .inr ⟨rfl, hq⟩⟩
    · rintro m q ⟨rfl, rfl⟩
      exact .inr (.inl ⟨a, hbound a ha, List.mem_singleton_self _⟩)
  · refine ⟨fun _ _ hr => .inl hr, fun _ _ hr => .inl hr, fun q b hb => ?_, ?_⟩
    · cases (Prod.mk.inj (List.mem_singleton.mp hb)).2
    · rintro m q ⟨rfl, rfl⟩
      exact .inr (.inr hlong)
  · have hqueue : ∀ m, Slave.queue
        { s with queryname := Function.update s.queryname n (some (s.queue n ++ [r])) } m =
          s.queue m ++ if m = n then [r] else [] := by
      intro m
      rw [Slave.queue]
      dsimp only
      rw [Function.update_apply]
      split
      · rename_i hm
        rw [hm]
        rfl
      · exact (List.append_nil _).symm
    refine ⟨fun m q hq => .inl ?_, fun m q hq => ?_, fun _ _ hb => (by cases hb), ?_⟩
    · rw [hqueue]
      exact List.mem_append_left _ hq
    · rw [hqueue] at hq
      refine (List.mem_append.mp hq).imp_right fun hq => ?_
      split at hq
      · rename_i hm
        exact ⟨hm, List.mem_singleton.mp hq⟩
      · cases hq
    · rintro m q ⟨rfl, rfl⟩
      left
      rw [hqueue, if_pos rfl]
      exact List.mem_append_right _ (List.mem_singleton_self _)

end Serves

variable [DecidableEq ι] {s t : State ι ρ} {ls : List (Event ι ρ × List (ι × ρ × Answer))}

structure Told (ls : List (Event ι ρ × List (ι × ρ × Answer))) (s : State ι ρ) : Prop where
  answered : ∀ i r a, (i, r, .address a) ∈ answers ls →
    ∃ n b, a = some b ∧ s.Claimed n b ∧ .QUERYNAME i n r ∈ events ls
  waits : ∀ i n, ∀ r ∈ (s.slave i).queue n, .QUERYNAME i n r ∈ events ls
  asked : ∀ i n r, .QUERYNAME i n r ∈ events ls → r ∈ (s.slave i).queue n ∨
    (∃ a, s.Claimed n a ∧ (i, r, .address (some a)) ∈ answers ls) ∨ ∀ a, ¬ Fits n a

theorem Told.step (h : Told ls s) {i : ι} {slave : Slave ρ} {e : Event ι ρ}
    {out : List (ρ × Answer)} (hclaim : ∀ n a, s.Claimed n a → t.Claimed n a)
    (hslave : ∀ j, t.slave j = if j = i then slave else s.slave j)
    (hask : ∀ j n r, e = .QUERYNAME j n r → j = i)
    (hserves : Serves t.Claimed (s.slave i) (fun n r => e = .QUERYNAME i n r) slave out) :
    Told (ls ++ [(e, out.map (i, ·))]) t := by
  have hevents : events (ls ++ [(e, out.map (i, ·))]) = events ls ++ [e] := List.map_append
  have hanswers : answers (ls ++ [(e, out.map (i, ·))]) = answers ls ++ out.map (i, ·) := by
    rw [answers, List.flatMap_append, List.flatMap_singleton]
    rfl
  have hmem : ∀ j n r, .QUERYNAME j n r ∈ events ls ++ [e] ↔
      .QUERYNAME j n r ∈ events ls ∨ e = .QUERYNAME j n r := fun j n r => by
    rw [List.mem_append, List.mem_singleton, eq_comm (b := e)]
  have hnew : ∀ r a, (r, a) ∈ out → (i, r, a) ∈ answers ls ++ out.map (i, ·) := fun r a hr =>
    List.mem_append_right _ (List.mem_map_of_mem hr)
  refine ⟨fun j r a ha => ?_, fun j n r hr => ?_, fun j n r hq => ?_⟩
  · rw [hanswers] at ha
    rw [hevents]
    rcases List.mem_append.mp ha with ha | ha
    · obtain ⟨n, b, hb, hclaimed, hq⟩ := h.answered j r a ha
      exact ⟨n, b, hb, hclaim n b hclaimed, (hmem j n r).mpr (.inl hq)⟩
    · obtain ⟨ra, hra, heq⟩ := List.mem_map.mp ha
      obtain ⟨hj, hra'⟩ := Prod.mk.inj heq
      rw [hra'] at hra
      obtain ⟨n, b, hb, hclaimed, hq⟩ := hserves.answers _ _ hra
      rw [← hj]
      exact ⟨n, b, hb, hclaimed, (hmem i n r).mpr (hq.imp_left (h.waits i n r))⟩
  · rw [hevents]
    apply (hmem j n r).mpr
    rw [hslave] at hr
    split at hr
    · rename_i hj
      rw [hj]
      exact (hserves.waits n r hr).imp_left (h.waits i n r)
    · exact .inl (h.waits j n r hr)
  · rw [hevents] at hq
    rw [hanswers, hslave]
    have hold : j = i → r ∈ (s.slave i).queue n ∨ e = .QUERYNAME i n r → r ∈ slave.queue n ∨
        (∃ a, t.Claimed n a ∧ (i, r, .address (some a)) ∈ answers ls ++ out.map (i, ·)) ∨
          ∀ a, ¬ Fits n a := by
      rintro - (hr | hr)
      · exact (hserves.keeps n r hr).imp_right fun ⟨a, hclaimed, ha⟩ =>
          .inl ⟨a, hclaimed, hnew _ _ ha⟩
      · exact (hserves.asks n r hr).imp_right (.imp_left fun ⟨a, hclaimed, ha⟩ =>
          ⟨a, hclaimed, hnew _ _ ha⟩)
    rcases (hmem j n r).mp hq with hq | hq
    · rcases h.asked j n r hq with hr | ⟨a, hclaimed, ha⟩ | hlong
      · split
        · rename_i hj
          subst hj
          exact hold rfl (.inl hr)
        · exact .inl hr
      · exact .inr (.inl ⟨a, hclaim n a hclaimed, List.mem_append_left _ ha⟩)
      · exact .inr (.inr hlong)
    · obtain rfl := hask j n r hq
      rw [if_pos rfl]
      exact hold rfl (.inr hq)

theorem Told.silent (h : Told ls s) (i : ι) {e : Event ι ρ}
    (hclaim : ∀ n a, s.Claimed n a → t.Claimed n a) (hslave : t.slave = s.slave)
    (hask : ∀ j n r, e ≠ .QUERYNAME j n r) : Told (ls ++ [(e, [])]) t := by
  have hsame : ∀ j, t.slave j = if j = i then s.slave i else s.slave j := fun j => by
    rw [hslave]
    split
    · rename_i hj
      rw [hj]
    · rfl
  exact h.step hclaim hsame (fun j n r he => absurd he (hask j n r))
    (.same rfl fun n r => hask i n r)

omit [DecidableEq ι] in
theorem Told.init : Told [] (State.init : State ι ρ) :=
  ⟨fun _ _ _ h => (by cases h), fun _ _ _ h => (by cases h), fun _ _ _ h => (by cases h)⟩

/-! ### Every run -/

variable {localname : Name → Option Address} {e : Event ι ρ} {out : List (ι × ρ × Answer)}

theorem Inv.claimed (h : Inv s) {n : Name} {a : Address} (hclaimed : s.Claimed n a) :
    (s.next localname e).1.Claimed n a := by
  cases e with
  | master i =>
    rw [State.next]
    cases hup : s.up i with
    | nil => exact hclaimed
    | cons p ps =>
      obtain ⟨m, out, hserved, heq⟩ := serve_eq h.named h.linked hup
      dsimp only
      rw [heq]
      exact hserved.claimed h.named hup hclaimed
  | receive i =>
    rw [State.next]
    cases s.down i <;> exact hclaimed
  | start i =>
    have hstart : (s.handled i (s.slave i).start).Claimed n a :=
      claimed_handled.mpr (.inl hclaimed)
    exact hstart
  | REGISTER i m b | QUERYNAME i m r | harbor i m => exact claimed_handled.mpr (.inl hclaimed)

theorem Told.next (h : Told ls s) (hinv : Inv s) (hclear : s.Clear (e, out)) :
    Told (ls ++ [(e, (s.next localname e).2)]) (s.next localname e).1 := by
  have hclaim : ∀ n a, s.Claimed n a → (s.next localname e).1.Claimed n a := fun _ _ =>
    hinv.claimed
  cases e with
  | start i =>
    exact h.step (t := s.handled i (s.slave i).start) hclaim slave_handled
      (fun _ _ _ h => by cases h) (.same rfl fun _ _ h => by cases h)
  | REGISTER i n a =>
    refine h.step hclaim slave_handled (fun _ _ _ h => by cases h) ?_
    by_cases hnone : (s.slave i).globalname n = none
    · have hfits := (hclear hnone).1
      rw [REGISTER_eq hnone hfits]
      refine .learn ?_ fun _ _ h => by cases h
      rw [State.next, REGISTER_eq hnone hfits]
      exact claimed_handled.mpr (.inr (List.mem_singleton_self _))
    · rw [REGISTER, if_neg hnone]
      exact .same rfl fun _ _ h => by cases h
  | QUERYNAME i n r =>
    refine h.step hclaim slave_handled (fun j m q hq => (Event.QUERYNAME.inj hq).1.symm) ?_
    have hquery := Serves.query (r := r) localname hclear fun a ha =>
      hclaim n a (hinv.named.bound i n a ha)
    have hask : (fun m q => Event.QUERYNAME i n r = .QUERYNAME i m q) =
        fun m q => m = n ∧ q = r := by
      funext m q
      simp only [Event.QUERYNAME.injEq, true_and, eq_comm]
    rw [hask]
    exact hquery
  | harbor i n =>
    refine h.step hclaim slave_handled (fun _ _ _ h => by cases h) ?_
    rw [monitor_harbor]
    split <;> exact .same rfl fun _ _ h => by cases h
  | master i =>
    have hslave : (s.next localname (.master i)).1.slave = s.slave := by
      rw [State.next]
      cases hup : s.up i with
      | nil => rfl
      | cons p ps =>
        obtain ⟨m, out, _, heq⟩ := serve_eq hinv.named hinv.linked hup
        dsimp only
        rw [heq]
    have hout : (s.next localname (.master i)).2 = [] := by
      rw [State.next]
      cases s.up i <;> rfl
    rw [hout]
    exact h.silent i hclaim hslave fun _ _ _ h => by cases h
  | receive i =>
    rw [State.next] at hclaim ⊢
    cases hdown : s.down i with
    | nil =>
      exact h.silent i (fun _ _ ha => ha) rfl fun _ _ _ h => by cases h
    | cons p ps =>
      refine h.step (t := s.received i p) (fun _ _ ha => ha) slave_received
        (fun _ _ _ h => by cases h) ?_
      rcases monitor_master_cases (s.slave i) p with ⟨n, a, rfl, heq⟩ | ⟨_, heq⟩
      · rw [heq]
        refine .learn ?_ fun _ _ h => by cases h
        exact hinv.named.sent i n a (by rw [hdown]; exact List.mem_cons_self ..)
      · rw [heq]
        exact .same rfl fun _ _ h => by cases h

theorem run_inv (hrun : Run (Guarded State.Clear (Step localname)) .init ls s) :
    Inv s ∧ Told ls s := by
  induction hrun with
  | nil => exact ⟨.init, .init⟩
  | @snoc t u es l hrun hstep ih =>
    obtain ⟨hinv, htold⟩ := ih
    refine ⟨hinv.step localname hstep, ?_⟩
    obtain ⟨hclear, _, hnext⟩ := hstep
    obtain ⟨e, out⟩ := l
    have hout : out = (t.next localname e).2 := (congrArg Prod.snd hnext).symm
    have hu : u = (t.next localname e).1 := (congrArg Prod.fst hnext).symm
    rw [hu, hout]
    exact htold.next hinv hclear

theorem names_agree (hrun : Run (Guarded State.Clear (Step localname)) .init ls s)
    (hquiet : s.Quiet) :
    (∀ i n a, (s.slave i).globalname n = some a → s.master.global_name n = some a) ∧
    (∀ i r a, (i, r, .address a) ∈ answers ls → ∃ n, .QUERYNAME i n r ∈ events ls ∧
      s.master.global_name n ≠ none ∧ s.master.global_name n = a) ∧
    (∀ i n r a, .QUERYNAME i n r ∈ events ls → s.master.global_name n = some a →
      (i, r, .address (some a)) ∈ answers ls) := by
  obtain ⟨hinv, htold⟩ := run_inv hrun
  have hmaster : ∀ n a, s.Claimed n a → s.master.global_name n = some a := by
    rintro n a (h | ⟨i, h⟩)
    · exact h
    · rw [hquiet.1 i] at h
      cases h
  refine ⟨fun i n a ha => hmaster n a (hinv.named.bound i n a ha), fun i r a ha => ?_,
    fun i n r a hq ha => ?_⟩
  · obtain ⟨n, b, rfl, hclaimed, hq⟩ := htold.answered i r a ha
    have hb := hmaster n b hclaimed
    exact ⟨n, hq, by rw [hb]; exact Option.some_ne_none b, hb⟩
  · rcases htold.asked i n r hq with hwait | ⟨b, hclaimed, hb⟩ | hlong
    · rw [Slave.queue] at hwait
      cases hqueue : (s.slave i).queryname n with
      | none =>
        rw [hqueue] at hwait
        cases hwait
      | some q =>
        rcases hinv.pending i n q hqueue with h | ⟨_, h | ⟨b, h⟩⟩
        · rw [hquiet.1 i] at h
          cases h
        · rw [ha] at h
          cases h
        · rw [hquiet.2 i] at h
          cases h
    · have hsame := (hmaster n b hclaimed).symm.trans ha
      rwa [Option.some.inj hsame] at hb
    · exact absurd (hinv.named.fits n a (.inl ha)) (hlong a)

theorem step_next (s : State ι ρ) (e : Event ι ρ) (h : s.Enabled e) :
    Step localname s (e, (s.next localname e).2) (s.next localname e).1 := ⟨h, rfl⟩

/-- No one has registered the name. -/
def State.Unheard (s : State ι ρ) : Event ι ρ → Prop
  | .REGISTER _ n a => Fits n a ∧ s.master.global_name n = none ∧ ∀ i, s.up i = []
  | .QUERYNAME _ n _ => n.head? ≠ some 46
  | _ => True

instance [Fintype ι] (s : State ι ρ) : (e : Event ι ρ) → Decidable (s.Unheard e)
  | .REGISTER _ n a => inferInstanceAs (Decidable
      ((Package.N n a).packstring.length ≤ 255 ∧ s.master.global_name n = none ∧
        ∀ i, s.up i = []))
  | .QUERYNAME _ n _ => inferInstanceAs (Decidable (n.head? ≠ some 46))
  | .start _ => .isTrue trivial
  | .harbor _ _ => .isTrue trivial
  | .master _ => .isTrue trivial
  | .receive _ => .isTrue trivial

omit [DecidableEq ι] in
theorem State.Unheard.clear (h : s.Unheard e) : s.Clear (e, out) := by
  cases e with
  | REGISTER i n a =>
    obtain ⟨hfits, hnone, hup⟩ := h
    refine fun _ => ⟨hfits, fun b hclaimed => ?_⟩
    rcases hclaimed with hb | ⟨j, hb⟩
    · rw [hnone] at hb
      cases hb
    · rw [hup j] at hb
      cases hb
  | QUERYNAME i n r => exact h
  | _ => trivial

/-- Slave `false` registers a name.  Slave `true` asks for it before and after. -/
def registered : List (Event Bool Nat) :=
  [.start false, .start true, .master false, .master true, .QUERYNAME true [97] 7, .master true,
    .REGISTER false [97] 1, .master false, .receive true, .receive false, .QUERYNAME true [97] 8]

theorem names_agree_registered :
    ∃ (ls : List (Event Bool Nat × List (Bool × Nat × Answer))) (s : State Bool Nat),
      s.master.global_name [97] = some 1 ∧
        (∀ i n a, (s.slave i).globalname n = some a → s.master.global_name n = some a) ∧
        (true, 7, .address (some 1)) ∈ answers ls ∧ (true, 8, .address (some 1)) ∈ answers ls := by
  have halong : Along (State.next fun _ => none) (fun s e => s.Enabled e ∧ s.Unheard e)
      State.init registered := by decide
  have hrun := halong.run fun s e h => Guarded.of_step (step_next s e h.1) h.2.clear
  have hagree := names_agree hrun ⟨by decide, by decide⟩
  exact ⟨_, _, by decide, hagree.1, hagree.2.2 true [97] 7 1 (by decide) (by decide),
    hagree.2.2 true [97] 8 1 (by decide) (by decide)⟩

/-- Both slaves register one name.  The master keeps the first address, the slaves the second. -/
def contested : List (Event Bool Nat) :=
  [.start false, .start true, .master false, .master true, .REGISTER false [97] 1,
    .REGISTER true [97] 2, .master false, .master true, .receive false, .receive true,
    .receive false, .receive true, .QUERYNAME false [97] 7]

theorem names_disagree :
    ∃ (ls : List (Event Bool Nat × List (Bool × Nat × Answer))) (s : State Bool Nat),
      Run (Step fun _ => none) .init ls s ∧ s.Quiet ∧ s.master.global_name [97] = some 1 ∧
        (∀ i, (s.slave i).globalname [97] = some 2) ∧
        (false, 7, .address (some 2)) ∈ answers ls := by
  have halong : Along (State.next fun _ => none) State.Enabled State.init contested := by decide
  exact ⟨_, _, halong.run step_next, ⟨by decide, by decide⟩, by decide, by decide, by decide⟩

end XsServer.GlobalName
