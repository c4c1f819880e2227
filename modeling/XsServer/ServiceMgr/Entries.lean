import XsServer.ServiceMgr.Manager
import Mathlib.Data.List.Nodup

/-! The table of one manager: an entry that has a launcher has its coroutine, and a call of
`waitfor` or the end of a `request` changes one entry and answers or keeps all who wait for it. -/

namespace XsServer.ServiceMgr

variable {κ : Type}

/-- A handle or an error, which an entry keeps. -/
def Entry.isFinal : Entry κ → Prop
  | .waiting _ _ => False
  | _ => True

/-- The requester waits for the name, as the launcher or behind it. -/
def Manager.Waits (m : Manager κ) (name : Name) (r : κ) : Prop :=
  ∃ launch list, m.service name = some (.waiting launch list) ∧
    (launch = some r ∨ r ∈ list)

/-- A function that launches a service, here or at the global manager. -/
def Func.launches : Func → Bool
  | .call query _ _ => !query
  | _ => true

structure Manager.Sound (m : Manager κ) : Prop where
  jobs : ∀ job ∈ m.running, ∃ list, m.service job.name = some (.waiting (some job.requester) list)
  led : ∀ name r list, m.service name = some (.waiting (some r) list) →
    ∃ job ∈ m.running, job.name = name
  nodup : (m.running.map (·.name)).Nodup

/-- The table of a name that has no handle and no error; a missing one is empty. -/
def Manager.Table (m : Manager κ) (name : Name) (launch : Option κ) (list : List κ) :
    Prop :=
  m.service name = some (.waiting launch list) ∨
    m.service name = none ∧ launch = none ∧ list = []

variable {m : Manager κ} {name : Name} {func : Option Func} {r : κ}

theorem update_cases {α : Type} {f : Name → α} {e x : α} {n : Name}
    (h : Function.update f name e n = x) : n = name ∧ e = x ∨ n ≠ name ∧ f n = x := by
  by_cases hn : n = name
  · subst hn
    exact .inl ⟨rfl, (Function.update_self ..).symm.trans h⟩
  · exact .inr ⟨hn, (Function.update_of_ne hn ..).symm.trans h⟩

/-- What a call of `waitfor` can lead to. -/
inductive Asked (m : Manager κ) (name : Name) (func : Option Func) (r : κ) : Waitfor κ → Prop
  | known (e : Entry κ) (reply : Reply) : m.service name = some e → e.isFinal →
      reply = resumed (some e) → Asked m name func r ⟨m, some reply, none⟩
  | started (f : Func) (list : List κ) : func = some f → m.Table name none list →
      Asked m name func r
        ⟨⟨Function.update m.service name (some (.waiting (some r) list)),
          m.running ++ [⟨name, r, f⟩]⟩, none, some f⟩
  | queued (launch : Option κ) (list : List κ) : m.Table name launch list →
      (launch = none → func = none) →
      Asked m name func r
        ⟨⟨Function.update m.service name (some (.waiting launch (list ++ [r]))),
          m.running⟩, none, none⟩

theorem waitforTable_asked {launch : Option κ} {list : List κ}
    (h : m.Table name launch list) :
    Asked m name func r (waitforTable m name func r launch list) := by
  cases launch with
  | none =>
    cases func with
    | none => exact .queued none list h fun _ => rfl
    | some f => exact .started f list rfl h
  | some r' => exact .queued (some r') list h fun h => by cases h

theorem waitfor_asked : Asked m name func r (waitfor m name func r) := by
  rw [waitfor]
  cases hservice : m.service name with
  | none => exact waitforTable_asked (.inr ⟨hservice, rfl, rfl⟩)
  | some e =>
    cases e with
    | handle h | error msg => exact .known _ _ hservice trivial rfl
    | waiting launch list => exact waitforTable_asked (.inl hservice)

theorem Manager.Sound.no_job (h : m.Sound) {list : List κ} (ht : m.Table name none list) :
    ∀ job ∈ m.running, job.name ≠ name := by
  rintro job hjob rfl
  obtain ⟨list', hlist⟩ := h.jobs job hjob
  rcases ht with ht | ⟨ht, _⟩ <;> rw [hlist] at ht <;> cases ht

theorem Manager.Sound.waitfor (h : m.Sound) : (ServiceMgr.waitfor m name func r).manager.Sound := by
  have hasked : Asked m name func r (ServiceMgr.waitfor m name func r) := waitfor_asked
  generalize ServiceMgr.waitfor m name func r = w at hasked
  cases hasked with
  | known e reply hservice hfinal hreply => exact h
  | started f list hfunc ht =>
    have hnone := h.no_job ht
    refine ⟨fun job hjob => ?_, fun n r' list' hn => ?_, ?_⟩
    · rcases List.mem_append.mp hjob with hjob | hjob
      · obtain ⟨list', hlist⟩ := h.jobs job hjob
        exact ⟨list', (Function.update_of_ne (hnone job hjob) ..).trans hlist⟩
      · obtain rfl := List.mem_singleton.mp hjob
        exact ⟨list, Function.update_self ..⟩
    · rcases update_cases hn with ⟨hname, _⟩ | ⟨_, hn⟩
      · exact ⟨_, List.mem_append_right _ (List.mem_singleton_self _), hname.symm⟩
      · obtain ⟨job, hjob, hn⟩ := h.led n r' list' hn
        exact ⟨job, List.mem_append_left _ hjob, hn⟩
    · rw [List.map_append]
      refine h.nodup.append (List.nodup_singleton _) fun n hn hn' => ?_
      obtain ⟨job, hjob, rfl⟩ := List.mem_map.mp hn
      exact hnone job hjob (List.mem_singleton.mp hn')
  | queued launch list ht hfunc =>
    refine ⟨fun job hjob => ?_, fun n r' list' hn => ?_, h.nodup⟩
    · obtain ⟨list', hlist⟩ := h.jobs job hjob
      by_cases hname : job.name = name
      · subst hname
        rcases ht with ht | ⟨ht, _⟩
        · cases ht.symm.trans hlist
          exact ⟨_, Function.update_self ..⟩
        · cases ht.symm.trans hlist
      · exact ⟨list', (Function.update_of_ne hname ..).trans hlist⟩
    · rcases update_cases hn with ⟨rfl, he⟩ | ⟨_, hn⟩
      · cases he
        rcases ht with ht | ⟨_, ht, _⟩
        · exact h.led n r' list ht
        · cases ht
      · exact h.led n r' list' hn

section Request

variable [DecidableEq κ] {job : Job κ} {result : Except String (Option Handle)}

/-- The end of a `request` whose entry is still there. -/
def settled (m : Manager κ) (job : Job κ) (list : List κ)
    (result : Except String (Option Handle)) : Manager κ × List (κ × Reply) :=
  (⟨Function.update m.service job.name (entryOf result), m.running.erase job⟩,
    (job.requester, replyOf result) ::
      list.map (·, resumed (entryOf result : Option (Entry κ))))

omit [DecidableEq κ] in
theorem entryOf_ne (result : Except String (Option Handle)) (launch : Option κ)
    (list : List κ) : entryOf result ≠ some (.waiting launch list) := by
  intro he
  cases result with
  | error msg => cases he
  | ok v => cases v <;> cases he

theorem Manager.Sound.request_eq (h : m.Sound) (hjob : job ∈ m.running)
    (result : Except String (Option Handle)) :
    ∃ list, m.service job.name = some (.waiting (some job.requester) list) ∧
      request m job result = settled m job list result := by
  obtain ⟨list, hlist⟩ := h.jobs job hjob
  refine ⟨list, hlist, ?_⟩
  rw [request, hlist, settled]
  simp only [Function.update_self]

theorem Manager.Sound.other_name (h : m.Sound) (hjob : job ∈ m.running) {job' : Job κ}
    (hmem : job' ∈ m.running.erase job) : job' ∈ m.running ∧ job'.name ≠ job.name := by
  have hmem' : job' ∈ m.running := List.mem_of_mem_erase hmem
  refine ⟨hmem', fun hname => ?_⟩
  have heq : job' = job := List.inj_on_of_nodup_map h.nodup hmem' hjob hname
  rw [heq] at hmem
  exact ((h.nodup.of_map _).mem_erase_iff.mp hmem).1 rfl

theorem Manager.Sound.request (h : m.Sound) (hjob : job ∈ m.running) :
    (ServiceMgr.request m job result).1.Sound := by
  obtain ⟨list, hlist, heq⟩ := h.request_eq hjob result
  rw [heq]
  have hentry := entryOf_ne (κ := κ) result
  refine ⟨fun job' hjob' => ?_, fun n r list' hn => ?_, ?_⟩
  · obtain ⟨hmem, hname⟩ := h.other_name hjob hjob'
    obtain ⟨list', hlist'⟩ := h.jobs job' hmem
    exact ⟨list', (Function.update_of_ne hname ..).trans hlist'⟩
  · rcases update_cases hn with ⟨_, he⟩ | ⟨hname, hn⟩
    · exact absurd he (hentry _ _)
    · obtain ⟨job', hjob', hn'⟩ := h.led n r list' hn
      refine ⟨job', (List.mem_erase_of_ne ?_).mpr hjob', hn'⟩
      rintro rfl
      exact hname hn'.symm
  · exact h.nodup.sublist (List.erase_sublist.map _)

theorem request_running : (request m job result).1.running = m.running.erase job := by
  rw [request]
  split <;> rfl

end Request

/-- What a manager does for one name: `new` are the requests that come, and `result` is how the
launcher's function has ended. -/
structure Move (m : Manager κ) (name : Name) (new : κ → Option Func → Prop)
    (result : Option (Except String (Option Handle))) (m' : Manager κ)
    (replies : List (κ × Reply)) (started : Option Func) : Prop where
  others : ∀ n, n ≠ name → m'.service n = m.service n
  final : ∀ e, m.service name = some e → e.isFinal → m'.service name = some e
  jobs : ∀ job ∈ m'.running, job ∈ m.running ∨ started = some job.func ∧ job.name = name
  keeps : ∀ job ∈ m.running, job.name ≠ name → job ∈ m'.running
  ends : ∀ job ∈ m.running, job.name = name →
    job ∈ m'.running ∨ ∃ v, result = some v ∧ m'.service name = entryOf v
  fresh : started ≠ none → (∀ job ∈ m.running, job.name ≠ name) ∧
    (∀ e, m.service name = some e → ¬ e.isFinal) ∧ ∃ job ∈ m'.running, job.name = name
  starts : ∀ f, started = some f → ∃ r, new r (some f)
  waits : ∀ r, m.Waits name r → m'.Waits name r ∨ ∃ reply, (r, reply) ∈ replies
  asks : ∀ r f, new r f → (m'.Waits name r ∧ (f ≠ none →
    ∃ job ∈ m'.running, job.name = name ∧ (job ∈ m.running ∨ some job.func = f))) ∨
      ∃ reply, (r, reply) ∈ replies
  sources : ∀ r, (m'.Waits name r ∨ ∃ reply, (r, reply) ∈ replies) →
    m.Waits name r ∨ ∃ f, new r f
  verdict : ∀ r reply, (r, reply) ∈ replies →
    (∀ h, reply.handle = some h → m'.service name = some (.handle h)) ∧
      (reply.handle = none →
        (∃ msg, m'.service name = some (.error msg)) ∨ result = some (.ok none))
  change : ∀ h, m'.service name = some (.handle h) →
    m.service name = some (.handle h) ∨ result = some (.ok (some h))

theorem Manager.Table.waits {launch : Option κ} {list : List κ}
    (h : m.Table name launch list) {r' : κ} :
    m.Waits name r' ↔ launch = some r' ∨ r' ∈ list := by
  rcases h with h | ⟨h, rfl, rfl⟩
  · constructor
    · rintro ⟨launch', list', heq, hr⟩
      cases h.symm.trans heq
      exact hr
    · exact fun hr => ⟨launch, list, h, hr⟩
  · constructor
    · rintro ⟨launch', list', heq, _⟩
      cases h.symm.trans heq
    · rintro (h | h) <;> cases h

theorem Manager.Table.not_final {launch : Option κ} {list : List κ}
    (h : m.Table name launch list) : ∀ e, m.service name = some e → ¬ e.isFinal := by
  rintro e he
  rcases h with h | ⟨h, _⟩
  · cases h.symm.trans he
    exact id
  · cases h.symm.trans he

theorem resumed_handle {e : Entry κ} (hfinal : e.isFinal) :
    (∀ h, (resumed (some e)).handle = some h → e = .handle h) ∧
      ((resumed (some e)).handle = none → ∃ msg, e = .error msg) := by
  cases e with
  | handle h => exact ⟨fun _ he => congrArg _ (Option.some.inj he), fun he => by cases he⟩
  | error msg => exact ⟨fun _ he => (by cases he), fun _ => ⟨msg, rfl⟩⟩
  | waiting launch list => exact absurd hfinal id

theorem Move.waitfor (h : m.Sound) (name : Name) (func : Option Func) (r : κ) :
    Move m name (fun r' f => r' = r ∧ f = func) none (ServiceMgr.waitfor m name func r).manager
      ((ServiceMgr.waitfor m name func r).reply.toList.map (r, ·))
      (ServiceMgr.waitfor m name func r).started := by
  have hasked : Asked m name func r (ServiceMgr.waitfor m name func r) := waitfor_asked
  generalize ServiceMgr.waitfor m name func r = w at hasked
  cases hasked with
  | known e reply hservice hfinal hreply =>
    refine ⟨fun _ _ => rfl, fun _ he _ => he, fun job hjob => .inl hjob, fun job hjob _ => hjob,
      fun job hjob _ => .inl hjob, fun h => absurd rfl h, fun _ h => (by cases h),
      fun _ hr => .inl hr, fun r' f hr => .inr ⟨reply, ?_⟩, fun r' hr => ?_, fun r' reply' hr => ?_,
      fun _ hh => .inl hh⟩
    · rw [hr.1]
      exact List.mem_singleton_self _
    · rcases hr with hr | ⟨reply', hr⟩
      · exact .inl hr
      · exact .inr ⟨func, (Prod.mk.inj (List.mem_singleton.mp hr)).1, rfl⟩
    · rw [(Prod.mk.inj (List.mem_singleton.mp hr)).2, hreply]
      obtain ⟨hhandle, hnone⟩ := resumed_handle hfinal
      refine ⟨fun h hh => ?_, fun hh => .inl ?_⟩
      · rw [hservice, hhandle h hh]
      · obtain ⟨msg, he⟩ := hnone hh
        exact ⟨msg, hservice.trans (congrArg some he)⟩
  | started f list hfunc ht =>
    refine ⟨fun n hn => Function.update_of_ne hn ..,
      fun e he hfinal => absurd hfinal (ht.not_final e he),
      fun job hjob => ?_, fun job hjob _ => List.mem_append_left _ hjob,
      fun job hjob _ => .inl (List.mem_append_left _ hjob),
      fun _ => ⟨h.no_job ht, ht.not_final, ?_⟩,
      fun f' hf' => ⟨r, rfl, by rw [hfunc, ← hf']⟩, fun r' hr => .inl ?_, fun r' f' hr => .inl ?_,
      fun r' hr => ?_, fun _ _ hr => (by cases hr), fun h' hh => ?_⟩
    · refine (List.mem_append.mp hjob).imp_right fun hjob => ?_
      rw [List.mem_singleton.mp hjob]
      exact ⟨rfl, rfl⟩
    · exact ⟨_, List.mem_append_right _ (List.mem_singleton_self _), rfl⟩
    · refine ⟨some r, list, Function.update_self .., .inr ?_⟩
      rcases ht.waits.mp hr with h | hr
      · cases h
      · exact hr
    · rw [hr.1]
      exact ⟨⟨some r, list, Function.update_self .., .inl rfl⟩,
        fun _ => ⟨_, List.mem_append_right _ (List.mem_singleton_self _), rfl,
          .inr (by rw [hr.2, hfunc])⟩⟩
    · rcases hr with ⟨launch', list', heq, hr⟩ | ⟨_, hr⟩
      · cases (Function.update_self name _ m.service).symm.trans heq
        rcases hr with hr | hr
        · exact .inr ⟨func, (Option.some.inj hr).symm, rfl⟩
        · exact .inl (ht.waits.mpr (.inr hr))
      · cases hr
    · cases (Function.update_self name _ m.service).symm.trans hh
  | queued launch list ht hfunc =>
    refine ⟨fun n hn => Function.update_of_ne hn ..,
      fun e he hfinal => absurd hfinal (ht.not_final e he),
      fun job hjob => .inl hjob, fun job hjob _ => hjob, fun job hjob _ => .inl hjob,
      fun h => absurd rfl h, fun _ h => (by cases h), fun r' hr => .inl ?_,
      fun r' f' hr => .inl ⟨?_, ?_⟩,
      fun r' hr => ?_, fun _ _ hr => (by cases hr), fun h' hh => ?_⟩
    · exact ⟨launch, _, Function.update_self ..,
        (ht.waits.mp hr).imp_right (List.mem_append_left _)⟩
    · rw [hr.1]
      exact ⟨launch, _, Function.update_self ..,
        .inr (List.mem_append_right _ (List.mem_singleton_self _))⟩
    · rw [hr.2]
      intro hsome
      cases launch with
      | none => exact absurd (hfunc rfl) hsome
      | some r'' =>
        rcases ht with ht | ⟨_, ht, _⟩
        · obtain ⟨job, hjob, hname⟩ := h.led name r'' list ht
          exact ⟨job, hjob, hname, .inl hjob⟩
        · cases ht
    · rcases hr with ⟨launch', list', heq, hr⟩ | ⟨_, hr⟩
      · cases (Function.update_self name _ m.service).symm.trans heq
        rcases hr with hr | hr
        · exact .inl (ht.waits.mpr (.inl hr))
        · rcases List.mem_append.mp hr with hr | hr
          · exact .inl (ht.waits.mpr (.inr hr))
          · exact .inr ⟨func, List.mem_singleton.mp hr, rfl⟩
      · cases hr
    · cases (Function.update_self name _ m.service).symm.trans hh

theorem Move.request [DecidableEq κ] {job : Job κ} (h : m.Sound) (hjob : job ∈ m.running)
    (result : Except String (Option Handle)) :
    Move m job.name (fun _ _ => False) (some result) (ServiceMgr.request m job result).1
      (ServiceMgr.request m job result).2 none := by
  obtain ⟨list, hlist, heq⟩ := h.request_eq hjob result
  rw [heq]
  have hself : (settled m job list result).1.service job.name = entryOf result :=
    Function.update_self ..
  have hno : ∀ r, ¬ (settled m job list result).1.Waits job.name r := by
    rintro r ⟨launch', list', hw, _⟩
    exact entryOf_ne _ _ _ (hself.symm.trans hw)
  have hwaits : ∀ r, m.Waits job.name r ↔ ∃ reply, (r, reply) ∈ (settled m job list result).2 := by
    intro r
    rw [Manager.Table.waits (.inl hlist)]
    constructor
    · rintro (hr | hr)
      · cases hr
        exact ⟨_, List.mem_cons_self ..⟩
      · exact ⟨_, List.mem_cons_of_mem _ (List.mem_map_of_mem hr)⟩
    · rintro ⟨reply, hr⟩
      rcases List.mem_cons.mp hr with hr | hr
      · exact .inl (congrArg some (Prod.mk.inj hr).1.symm)
      · obtain ⟨r', hr', hr⟩ := List.mem_map.mp hr
        exact .inr ((Prod.mk.inj hr).1 ▸ hr')
  refine ⟨fun n hn => Function.update_of_ne hn .., fun e he hfinal => ?_,
    fun job' hjob' => .inl (h.other_name hjob hjob').1, fun job' hjob' hname => ?_,
    fun _ _ _ => .inr ⟨result, rfl, hself⟩, fun h => absurd rfl h, fun _ h => (by cases h),
    fun r hr => .inr ((hwaits r).mp hr), fun _ _ hr => hr.elim, fun r hr => .inl ?_,
    fun r reply hr => ?_, fun h' hh => .inr ?_⟩
  · cases hlist.symm.trans he
    exact hfinal.elim
  · refine (List.mem_erase_of_ne ?_).mpr hjob'
    rintro rfl
    exact hname rfl
  · exact hr.elim (fun hr => absurd hr (hno r)) (hwaits r).mpr
  · have hreply : reply = replyOf result ∨ reply = resumed (entryOf result : Option (Entry κ)) := by
      rcases List.mem_cons.mp hr with hr | hr
      · exact .inl (Prod.mk.inj hr).2
      · obtain ⟨w, _, hr⟩ := List.mem_map.mp hr
        exact .inr (Prod.mk.inj hr).2.symm
    rw [hself]
    cases result with
    | error msg =>
      refine ⟨fun h' hh => ?_, fun _ => .inl ⟨msg, rfl⟩⟩
      rcases hreply with rfl | rfl <;> cases hh
    | ok v =>
      cases v with
      | none =>
        refine ⟨fun h' hh => ?_, fun _ => .inr rfl⟩
        rcases hreply with rfl | rfl <;> cases hh
      | some v =>
        refine ⟨fun h' hh => ?_, fun hh => ?_⟩ <;> rcases hreply with rfl | rfl <;> cases hh <;> rfl
  · have he : entryOf result = some (Entry.handle h' : Entry κ) := hself.symm.trans hh
    cases result with
    | error msg => cases he
    | ok v =>
      cases v with
      | none => cases he
      | some v =>
        cases he
        rfl

end XsServer.ServiceMgr
