import XsServer.ServiceMgr.Entries
import XsServer.Lib.Run

/-! Runs of all managers: a name is launched once, all its requests end alike, and a request to
launch waits for a launch, as long as no request to launch at a local manager comes while that
manager queries the global one for the name. -/

namespace XsServer.ServiceMgr

open Lib

variable {ι ρ : Type}

/-- A name of the global manager; 64 is the at sign. -/
def IsGlobal (name : Name) : Prop := name.head? = some 64

/-- A request for an entry of that name in the table of the global manager. -/
def Request.Good (c : Request ι) : Prop :=
  IsGlobal c.name ∧ ∃ func, c.cmd.call true = some (c.name, func) ∧
    (∀ f, func = some f → f.isCall = false) ∧ (c.query = false → func ≠ none)

abbrev Log (ι ρ : Type) := List (Event ι ρ × List (Report ι ρ))

def reports (ls : Log ι ρ) : List (Report ι ρ) := ls.flatMap (·.2)

def Report.launch : Report ι ρ → Option (ι × Name)
  | .launched i name _ => some (i, name)
  | _ => none

/-- The managers that have launched a service, with its name. -/
def launches (ls : Log ι ρ) : List (ι × Name) := (reports ls).filterMap Report.launch

def entry (s : State ι ρ) (i : ι) (name : Name) : Option (Entry (Requester ι ρ)) :=
  (s.manager i).service name

structure Inv (g : ι) (ls : Log ι ρ) (s : State ι ρ) : Prop where
  sound : ∀ i, (s.manager i).Sound
  kinds : ∀ i, ∀ job ∈ (s.manager i).running, job.func.isCall = true ↔ i ≠ g ∧ IsGlobal job.name
  requests : ∀ c ∈ s.requests, c.Good
  requesters : ∀ i name j n, (s.manager i).Waits name (.manager j n) → i = g ∧ n = name
  handles : ∀ i name h, entry s i name = some (.handle h) → IsGlobal name →
    entry s g name = some (.handle h)
  responses : ∀ a ∈ s.responses,
    (∀ h, a.reply.handle = some h → entry s g a.name = some (.handle h)) ∧
      (a.reply.handle = none → ∃ msg, entry s g a.name = some (.error msg))
  replies : ∀ i name r reply, .replied i name r reply ∈ reports ls →
    (∀ h, reply.handle = some h → entry s i name = some (.handle h)) ∧
      (reply.handle = none → (∃ msg, entry s i name = some (.error msg)) ∨
        IsGlobal name ∧ ∃ msg, entry s g name = some (.error msg))
  launched : ∀ i name, (i, name) ∈ launches ls → (i ≠ g → ¬ IsGlobal name) ∧
    ((∃ e, entry s i name = some e ∧ e.isFinal) ∨ ∃ job ∈ (s.manager i).running, job.name = name)
  unique : (launches ls).Nodup

theorem Manager.Waits.congr {κ : Type} {m m' : Manager κ} {name : Name} {r : κ}
    (h : m.Waits name r) (heq : m'.service name = m.service name) : m'.Waits name r := by
  obtain ⟨launch, list, hname, hr⟩ := h
  exact ⟨launch, list, heq.trans hname, hr⟩

variable {rep : Report ι ρ}

theorem launchOf_eq {i : ι} {name : Name} {f : Func}
    (h : launchOf i name f = some rep) : rep = .launched i name f ∧ f.isCall = false := by
  cases f <;> cases h <;> exact ⟨rfl, rfl⟩

theorem reportOf_eq {i : ι} {name : Name} {x : Requester ι ρ × Reply}
    (h : reportOf i name x = some rep) : ∃ r, x.1 = .client r ∧ rep = .replied i name r x.2 := by
  obtain ⟨r | ⟨j, n⟩, reply⟩ := x <;> cases h
  exact ⟨r, rfl, rfl⟩

theorem responseOf_eq {x : Requester ι ρ × Reply} {a : Response ι} (h : responseOf x = some a) :
    x = (.manager a.node a.name, a.reply) := by
  obtain ⟨r | ⟨j, n⟩, reply⟩ := x <;> cases h
  rfl

section Settle

variable [DecidableEq ι] {g i : ι} {ls : Log ι ρ} {s : State ι ρ} {name : Name}
  {m' : Manager (Requester ι ρ)} {replies : List (Requester ι ρ × Reply)} {started : Option Func}
  {new : Requester ι ρ → Option Func → Prop} {result : Option (Except String (Option Handle))}

theorem settle_manager (j : ι) : (s.settle i name m' replies started).1.manager j =
    if j = i then m' else s.manager j :=
  Function.update_apply ..

theorem Move.settled (hmove : Move (s.manager i) name new result m' replies started) {j : ι}
    {n : Name} {e : Entry (Requester ι ρ)} (he : entry s j n = some e) (hfinal : e.isFinal) :
    entry (s.settle i name m' replies started).1 j n = some e := by
  rw [entry, settle_manager]
  split
  · rename_i hj
    rw [hj] at he
    by_cases hn : n = name
    · rw [hn] at he ⊢
      exact hmove.final e he hfinal
    · rw [hmove.others n hn]
      exact he
  · exact he

theorem mem_reports_settle {e : Event ι ρ}
    (h : rep ∈ reports (ls ++ [(e, (s.settle i name m' replies started).2)])) :
    rep ∈ reports ls ∨ (∃ f, started = some f ∧ launchOf i name f = some rep) ∨
      ∃ x ∈ replies, reportOf i name x = some rep := by
  rw [reports, List.flatMap_append, List.flatMap_singleton] at h
  rcases List.mem_append.mp h with h | h
  · exact .inl h
  · rcases List.mem_append.mp h with h | h
    · obtain ⟨f, hf, hrep⟩ := Option.bind_eq_some_iff.mp (Option.mem_toList.mp h)
      exact .inr (.inl ⟨f, hf, hrep⟩)
    · obtain ⟨x, hx, hrep⟩ := List.mem_filterMap.mp h
      exact .inr (.inr ⟨x, hx, hrep⟩)

theorem launches_settle (e : Event ι ρ) :
    launches (ls ++ [(e, (s.settle i name m' replies started).2)]) =
      launches ls ++ if started.any (!·.isCall) then [(i, name)] else [] := by
  have hreplies : (replies.filterMap (reportOf i name)).filterMap Report.launch = [] := by
    apply List.filterMap_eq_nil_iff.mpr
    intro rep hrep
    obtain ⟨x, _, hx⟩ := List.mem_filterMap.mp hrep
    obtain ⟨r, _, rfl⟩ := reportOf_eq hx
    rfl
  rw [launches, reports, List.flatMap_append, List.flatMap_singleton, List.filterMap_append]
  refine congrArg₂ (· ++ ·) rfl ?_
  rw [State.settle, List.filterMap_append, hreplies, List.append_nil]
  cases started with
  | none => rfl
  | some f => cases f <;> rfl

theorem Inv.settle (h : Inv g ls s)
    (hmove : Move (s.manager i) name new result m' replies started) (hsound : m'.Sound)
    (hnew : ∀ j n f, new (.manager j n) f → i = g ∧ n = name)
    (hstart : ∀ f, started = some f → (f.isCall = true ↔ i ≠ g ∧ IsGlobal name) ∧
      ∀ c, requestOf i name f = some c → c.Good)
    (hnone : result = some (.ok none) →
      i ≠ g ∧ IsGlobal name ∧ ∃ msg, entry s g name = some (.error msg))
    (hhandle : ∀ v, result = some (.ok (some v)) → IsGlobal name → i ≠ g →
      entry s g name = some (.handle v)) (e : Event ι ρ) :
    Inv g (ls ++ [(e, (s.settle i name m' replies started).2)])
      (s.settle i name m' replies started).1 := by
  have hkeep : ∀ j n e, entry s j n = some e → e.isFinal →
      entry (s.settle i name m' replies started).1 j n = some e := fun _ _ _ => hmove.settled
  have hself : entry (s.settle i name m' replies started).1 i name = m'.service name := by
    rw [entry, settle_manager, if_pos rfl]
  have hother : ∀ j n, ¬ (j = i ∧ n = name) →
      entry (s.settle i name m' replies started).1 j n = entry s j n := by
    intro j n hne
    rw [entry, settle_manager]
    split
    · rename_i hj
      subst hj
      exact hmove.others n fun hn => hne ⟨rfl, hn⟩
    · rfl
  have hsource : ∀ j n reply, (.manager j n, reply) ∈ replies → i = g ∧ n = name := by
    intro j n reply hr
    rcases hmove.sources _ (.inr ⟨reply, hr⟩) with hwaits | ⟨f, hf⟩
    · exact h.requesters i name j n hwaits
    · exact hnew j n f hf
  refine ⟨fun j => ?_, fun j job hjob => ?_, fun c hc => ?_, fun j n j' n' hw => ?_,
    fun j n v hv hglobal => ?_, fun a ha => ?_, fun j n r reply hr => ?_, fun j n hl => ?_, ?_⟩
  · rw [settle_manager]
    split
    · exact hsound
    · exact h.sound j
  · rw [settle_manager] at hjob
    split at hjob
    · rename_i hj
      subst hj
      rcases hmove.jobs job hjob with hold | ⟨hfunc, hname⟩
      · exact h.kinds j job hold
      · rw [hname]
        exact (hstart _ hfunc).1
    · exact h.kinds j job hjob
  · rcases List.mem_append.mp hc with hc | hc
    · exact h.requests c hc
    · obtain ⟨f, hf, hc⟩ := Option.bind_eq_some_iff.mp (Option.mem_toList.mp hc)
      exact (hstart f hf).2 c hc
  · rw [settle_manager] at hw
    split at hw
    · rename_i hj
      subst hj
      by_cases hn : n = name
      · subst hn
        rcases hmove.sources _ (.inl hw) with hold | ⟨f, hf⟩
        · exact h.requesters j n j' n' hold
        · exact hnew j' n' f hf
      · exact h.requesters j n j' n' (hw.congr (hmove.others n hn).symm)
    · exact h.requesters j n j' n' hw
  · by_cases hjn : j = i ∧ n = name
    · obtain ⟨rfl, rfl⟩ := hjn
      rw [hself] at hv
      rcases hmove.change v hv with hold | hresult
      · exact hkeep _ _ _ (h.handles j n v hold hglobal) trivial
      · by_cases hjg : j = g
        · rw [← hjg, hself]
          exact hv
        · exact hkeep _ _ _ (hhandle v hresult hglobal hjg) trivial
    · rw [hother j n hjn] at hv
      exact hkeep _ _ _ (h.handles j n v hv hglobal) trivial
  · rcases List.mem_append.mp ha with ha | ha
    · obtain ⟨hsome, hmiss⟩ := h.responses a ha
      refine ⟨fun v hv => hkeep _ _ _ (hsome v hv) trivial, fun hv => ?_⟩
      obtain ⟨msg, hmsg⟩ := hmiss hv
      exact ⟨msg, hkeep _ _ _ hmsg trivial⟩
    · obtain ⟨x, hx, hax⟩ := List.mem_filterMap.mp ha
      rw [responseOf_eq hax] at hx
      obtain ⟨rfl, hname⟩ := hsource _ _ _ hx
      rw [hname, hself]
      obtain ⟨hsome, hmiss⟩ := hmove.verdict _ _ hx
      refine ⟨hsome, fun hv => (hmiss hv).resolve_right fun hresult => ?_⟩
      exact (hnone hresult).1 rfl
  · rcases mem_reports_settle hr with hr | ⟨f, hf, hrep⟩ | ⟨x, hx, hrep⟩
    · obtain ⟨hsome, hmiss⟩ := h.replies j n r reply hr
      refine ⟨fun v hv => hkeep _ _ _ (hsome v hv) trivial, fun hv => ?_⟩
      rcases hmiss hv with ⟨msg, hmsg⟩ | ⟨hglobal, msg, hmsg⟩
      · exact .inl ⟨msg, hkeep _ _ _ hmsg trivial⟩
      · exact .inr ⟨hglobal, msg, hkeep _ _ _ hmsg trivial⟩
    · cases (launchOf_eq hrep).1
    · obtain ⟨r', _, heq⟩ := reportOf_eq hrep
      cases heq
      rw [hself]
      obtain ⟨hsome, hmiss⟩ := hmove.verdict x.1 x.2 hx
      refine ⟨hsome, fun hv => (hmiss hv).imp_right fun hresult => ?_⟩
      obtain ⟨_, hglobal, msg, hmsg⟩ := hnone hresult
      exact ⟨hglobal, msg, hkeep _ _ _ hmsg trivial⟩
  · have hold : (j, n) ∈ launches ls ∨
        (j, n) = (i, name) ∧ ∃ f, started = some f ∧ f.isCall = false := by
      rw [launches_settle] at hl
      refine (List.mem_append.mp hl).imp_right fun hl => ?_
      split at hl
      · rename_i hany
        obtain ⟨f, hf, hcall⟩ := (Option.any_eq_true _ _).mp hany
        exact ⟨List.mem_singleton.mp hl, f, hf, by simpa using hcall⟩
      · cases hl
    rcases hold with hl | ⟨hjn, f, hf, hcall⟩
    · obtain ⟨hglobal, hl⟩ := h.launched j n hl
      refine ⟨hglobal, ?_⟩
      rcases hl with ⟨e, he, hfinal⟩ | ⟨job, hjob, hname⟩
      · exact .inl ⟨e, hkeep _ _ _ he hfinal, hfinal⟩
      · rw [settle_manager]
        split
        · rename_i hj
          subst hj
          by_cases hn : n = name
          · subst hn
            rcases hmove.ends job hjob hname with hjob | ⟨v, hresult, hv⟩
            · exact .inr ⟨job, hjob, hname⟩
            · left
              rw [hself, hv]
              cases v with
              | error msg => exact ⟨_, rfl, trivial⟩
              | ok v =>
                cases v with
                | some v => exact ⟨_, rfl, trivial⟩
                | none =>
                  obtain ⟨hne, hglobal', _⟩ := hnone hresult
                  exact absurd hglobal' (hglobal hne)
          · exact .inr ⟨job, hmove.keeps job hjob (by rwa [hname]), hname⟩
        · exact .inr ⟨job, hjob, hname⟩
    · obtain ⟨rfl, rfl⟩ := Prod.mk.inj hjn
      have hkind := (hstart f hf).1
      rw [hcall] at hkind
      refine ⟨fun hne hglobal => ?_, .inr ?_⟩
      · cases hkind.mpr ⟨hne, hglobal⟩
      · rw [settle_manager, if_pos rfl]
        exact (hmove.fresh (by rw [hf]; exact Option.some_ne_none f)).2.2
  · rw [launches_settle]
    split
    · rename_i hany
      obtain ⟨f, hf, _⟩ := (Option.any_eq_true _ _).mp hany
      obtain ⟨hjobs, hopen, _⟩ := hmove.fresh (by rw [hf]; exact Option.some_ne_none f)
      refine h.unique.append (List.nodup_singleton _) fun x hx hx' => ?_
      rw [List.mem_singleton.mp hx'] at hx
      rcases (h.launched i name hx).2 with ⟨e, he, hfinal⟩ | ⟨job, hjob, hname⟩
      · exact hopen e he hfinal
      · exact hjobs job hjob hname
    · rw [List.append_nil]
      exact h.unique

/-- The call of manager `i` for a name is on its way, or waits at the global manager, or its
response is on its way.  If the call is to launch, it waits behind a launch there. -/
def Asking (g : ι) (s : State ι ρ) (i : ι) (name : Name) (query : Bool) : Prop :=
  (∃ c ∈ s.requests, c.node = i ∧ c.name = name ∧ c.query = query) ∨
  ((s.manager g).Waits name (.manager i name) ∧
    (query = false → ∃ job ∈ (s.manager g).running, job.name = name)) ∨
  ∃ a ∈ s.responses, a.node = i ∧ a.name = name

def Progress (g : ι) (s : State ι ρ) : Prop :=
  ∀ i, ∀ job ∈ (s.manager i).running, ∀ query global_name subname,
    job.func = .call query global_name subname → Asking g s i job.name query

theorem Asking.settle {j : ι} {n : Name} {query : Bool} (h : Asking g s j n query)
    (hmove : Move (s.manager i) name new result m' replies started) :
    Asking g (s.settle i name m' replies started).1 j n query := by
  rcases h with ⟨c, hc, hmatch⟩ | ⟨hwaits, hlaunch⟩ | ⟨a, ha, hmatch⟩
  · exact .inl ⟨c, List.mem_append_left _ hc, hmatch⟩
  · rw [Asking, settle_manager]
    split
    · rename_i hg
      subst hg
      by_cases hn : n = name
      · subst hn
        rcases hmove.waits _ hwaits with hwaits' | ⟨reply, hreply⟩
        · refine .inr (.inl ⟨hwaits', fun hq => ?_⟩)
          obtain ⟨job, hjob, hname⟩ := hlaunch hq
          rcases hmove.ends job hjob hname with hjob | ⟨v, _, hv⟩
          · exact ⟨job, hjob, hname⟩
          · obtain ⟨launch, list, hlist, _⟩ := hwaits'
            exact absurd (hv.symm.trans hlist) (entryOf_ne v launch list)
        · exact .inr (.inr ⟨⟨j, n, reply⟩,
            List.mem_append_right _ (List.mem_filterMap.mpr ⟨_, hreply, rfl⟩), rfl, rfl⟩)
      · refine .inr (.inl ⟨hwaits.congr (hmove.others n hn), fun hq => ?_⟩)
        obtain ⟨job, hjob, hname⟩ := hlaunch hq
        exact ⟨job, hmove.keeps job hjob (by rwa [hname]), hname⟩
    · exact .inr (.inl ⟨hwaits, hlaunch⟩)
  · exact .inr (.inr ⟨a, List.mem_append_left _ ha, hmatch⟩)

theorem Progress.settle (hmove : Move (s.manager i) name new result m' replies started)
    (h : ∀ j, ∀ job ∈ ((s.settle i name m' replies started).1.manager j).running,
      job ∈ (s.manager j).running → ∀ query global_name subname,
        job.func = .call query global_name subname →
          Asking g (s.settle i name m' replies started).1 j job.name query) :
    Progress g (s.settle i name m' replies started).1 := by
  intro j job hjob query global_name subname hcall
  have hold : job ∈ (s.manager j).running ∨ j = i ∧ started = some job.func ∧ job.name = name := by
    rw [settle_manager] at hjob
    split at hjob
    · rename_i hj
      subst hj
      exact (hmove.jobs job hjob).imp_right fun hstart => ⟨rfl, hstart⟩
    · exact .inl hjob
  rcases hold with hold | ⟨rfl, hstart, hname⟩
  · exact h j job hjob hold query global_name subname hcall
  · refine .inl ⟨⟨j, name, query, global_name, subname⟩, List.mem_append_right _ ?_, rfl,
      hname.symm, rfl⟩
    rw [hstart, hcall]
    exact List.mem_singleton_self _

/-- Each request is answered or waits, and if it is to launch, it waits for a launch here or at the
global manager. -/
def Heard (g : ι) (ls : Log ι ρ) (s : State ι ρ) : Prop :=
  ∀ i cmd r, .command i cmd r ∈ ls.map (·.1) → ∀ name func, cmd.call (i = g) = some (name, func) →
    (∃ reply, .replied i name r reply ∈ reports ls) ∨
      (s.manager i).Waits name (.client r) ∧ ∀ f, func = some f → f.launches = true →
        ∃ job ∈ (s.manager i).running, job.name = name ∧ job.func.launches = true

theorem replied_settle {r : ρ} {reply : Reply} (h : (.client r, reply) ∈ replies) (e : Event ι ρ) :
    .replied i name r reply ∈ reports (ls ++ [(e, (s.settle i name m' replies started).2)]) := by
  rw [reports, List.flatMap_append, List.flatMap_singleton]
  exact List.mem_append_right _ (List.mem_append_right _ (List.mem_filterMap.mpr ⟨_, h, rfl⟩))

theorem Heard.settle (h : Heard g ls s)
    (hmove : Move (s.manager i) name new result m' replies started) (e : Event ι ρ)
    (hcommand : ∀ j cmd r, e = .command j cmd r → ∀ n func, cmd.call (j = g) = some (n, func) →
      j = i ∧ n = name ∧ new (.client r) func ∧ ∀ f, func = some f → f.launches = true →
        ∀ job ∈ (s.manager i).running, job.name = name → job.func.launches = true) :
    Heard g (ls ++ [(e, (s.settle i name m' replies started).2)])
      (s.settle i name m' replies started).1 := by
  intro j cmd r hmem n func hcall
  rw [List.map_append] at hmem
  rcases List.mem_append.mp hmem with hmem | hmem
  · rcases h j cmd r hmem n func hcall with ⟨reply, hreply⟩ | ⟨hwaits, hlaunch⟩
    · refine .inl ⟨reply, ?_⟩
      rw [reports, List.flatMap_append]
      exact List.mem_append_left _ hreply
    · rw [settle_manager]
      split
      · rename_i hj
        subst hj
        by_cases hn : n = name
        · subst hn
          rcases hmove.waits _ hwaits with hwaits' | ⟨reply, hreply⟩
          · refine .inr ⟨hwaits', fun f hf hl => ?_⟩
            obtain ⟨job, hjob, hname, hjl⟩ := hlaunch f hf hl
            rcases hmove.ends job hjob hname with hjob | ⟨v, _, hv⟩
            · exact ⟨job, hjob, hname, hjl⟩
            · obtain ⟨launch, list, hlist, _⟩ := hwaits'
              exact absurd (hv.symm.trans hlist) (entryOf_ne v launch list)
          · exact .inl ⟨reply, replied_settle hreply e⟩
        · refine .inr ⟨hwaits.congr (hmove.others n hn), fun f hf hl => ?_⟩
          obtain ⟨job, hjob, hname, hjl⟩ := hlaunch f hf hl
          exact ⟨job, hmove.keeps job hjob (by rwa [hname]), hname, hjl⟩
      · exact .inr ⟨hwaits, hlaunch⟩
  · obtain ⟨rfl, rfl, hnew, hclear⟩ :=
      hcommand j cmd r (List.mem_singleton.mp hmem).symm n func hcall
    rcases hmove.asks _ func hnew with ⟨hwaits, hlaunch⟩ | ⟨reply, hreply⟩
    · rw [settle_manager, if_pos rfl]
      refine .inr ⟨hwaits, fun f hf hl => ?_⟩
      obtain ⟨job, hjob, hname, hold | hown⟩ := hlaunch (by rw [hf]; exact Option.some_ne_none f)
      · exact ⟨job, hjob, hname, hclear f hf hl job hold hname⟩
      · rw [hf] at hown
        exact ⟨job, hjob, hname, by rw [Option.some.inj hown]; exact hl⟩
    · exact .inl ⟨reply, replied_settle hreply e⟩

end Settle

theorem launches_of_not_isCall {f : Func} (h : f.isCall = false) : f.launches = true := by
  cases f with
  | call query global_name subname => cases h
  | _ => rfl

variable {func : Option Func} {subname : Option Name}

theorem LAUNCH_func {service_name : Name} {name : Name}
    (h : LAUNCH service_name subname = some (name, func)) :
    (∃ f, func = some f ∧ f.isCall = false) ∧ (IsGlobal name ↔ IsGlobal service_name) := by
  rw [LAUNCH] at h
  split at h
  · rename_i hsnaxd
    cases subname with
    | none => cases h
    | some subname =>
      cases h
      refine ⟨⟨_, rfl, rfl⟩, ?_⟩
      cases service_name with
      | nil => cases hsnaxd
      | cons b service_name => exact Iff.rfl
  · cases h
    exact ⟨⟨_, rfl, rfl⟩, Iff.rfl⟩

theorem QUERY_func {service_name : Name} {name : Name}
    (h : QUERY service_name subname = some (name, func)) : func = none := by
  rw [QUERY] at h
  split at h
  · cases subname with
    | none => cases h
    | some subname =>
      cases h
      rfl
  · cases h
    rfl

@[simp] theorem read_name_at (name : Name) : read_name (64 :: name) = name := rfl

theorem waitfor_remote_good {query : Bool} {name' : Name} {name : Name}
    (h : waitfor_remote query name' subname = some (name, func)) (i : ι) :
    func = some (.call query (64 :: name') subname) ∧
      (⟨i, name, query, 64 :: name', subname⟩ : Request ι).Good := by
  rw [waitfor_remote] at h
  by_cases hsnaxd : name' = snaxd
  · rw [if_pos hsnaxd] at h
    cases subname with
    | none => cases h
    | some subname =>
      cases h
      refine ⟨rfl, rfl, ?_⟩
      cases query with
      | true =>
        exact ⟨none, by simp [Request.cmd, Cmd.call, QUERY, read_name_at, hsnaxd],
          fun _ hf => (by cases hf), fun hq => by cases hq⟩
      | false =>
        exact ⟨some (.rawnewservice subname),
          by simp [Request.cmd, Cmd.call, LAUNCH, read_name_at, hsnaxd],
          fun _ hf => (by cases hf; rfl), fun _ hf => by cases hf⟩
  · rw [if_neg hsnaxd] at h
    cases h
    refine ⟨rfl, rfl, ?_⟩
    cases query with
    | true =>
      exact ⟨none, by simp [Request.cmd, Cmd.call, QUERY, read_name_at, hsnaxd],
        fun _ hf => (by cases hf), fun hq => by cases hq⟩
    | false =>
      exact ⟨some (.newservice name' subname),
        by simp [Request.cmd, Cmd.call, LAUNCH, read_name_at, hsnaxd],
        fun _ hf => (by cases hf; rfl), fun _ hf => by cases hf⟩

theorem call_true {cmd : Cmd} {name : Name}
    (h : cmd.call true = some (name, func)) : ∀ f, func = some f → f.isCall = false := by
  rintro f rfl
  cases cmd with
  | LAUNCH service_name subname | GLAUNCH name' subname =>
    obtain ⟨⟨_, hf, hcall⟩, _⟩ := LAUNCH_func h
    cases hf
    exact hcall
  | QUERY service_name subname | GQUERY name' subname => cases QUERY_func h

/-! ### Every run -/

variable [DecidableEq ι] [DecidableEq ρ] {g : ι} {ls : Log ι ρ} {s t : State ι ρ}

/-- A request to launch does not come to a local manager that has a query at the global one for the
name, no local `LAUNCH` is for a name with the at sign, and no service exits in its start. -/
def State.Clear (g : ι) (s : State ι ρ) : Event ι ρ → Prop
  | .command i (.LAUNCH service_name _) _ => i = g ∨ ¬ IsGlobal service_name
  | .command i (.GLAUNCH name subname) _ => i = g ∨ ∀ job ∈ (s.manager i).running,
      (waitfor_remote false name subname).map (·.1) = some job.name → job.func.launches = true
  | .finish _ job result => job.func.isCall = true ∨ result.toOption ≠ some none
  | _ => True

instance (s : State ι ρ) : (e : Event ι ρ) → Decidable (s.Clear g e)
  | .command i (.LAUNCH service_name _) _ =>
    inferInstanceAs (Decidable (i = g ∨ ¬ service_name.head? = some 64))
  | .command i (.GLAUNCH name subname) _ => inferInstanceAs (Decidable
      (i = g ∨ ∀ job ∈ (s.manager i).running,
        (waitfor_remote false name subname).map (·.1) = some job.name → job.func.launches = true))
  | .command _ (.QUERY _ _) _ => .isTrue trivial
  | .command _ (.GQUERY _ _) _ => .isTrue trivial
  | .finish _ job result =>
    inferInstanceAs (Decidable (job.func.isCall = true ∨ result.toOption ≠ some none))
  | .request _ => .isTrue trivial
  | .response _ => .isTrue trivial

omit [DecidableEq ι] [DecidableEq ρ] in
theorem Inv.init : Inv g [] (State.init : State ι ρ) where
  sound _ := ⟨fun _ h => (by cases h), fun _ _ _ h => (by cases h), List.nodup_nil⟩
  kinds _ _ h := by cases h
  requests _ h := by cases h
  requesters _ _ _ _ h := by
    obtain ⟨_, _, h, _⟩ := h
    cases h
  handles _ _ _ h := by cases h
  responses _ h := by cases h
  replies _ _ _ _ h := by cases h
  launched _ _ h := by cases h
  unique := List.nodup_nil

omit [DecidableEq ι] [DecidableEq ρ] in
theorem Inv.report_failed (h : Inv g ls s) (e : Event ι ρ) (i : ι) (r : ρ) :
    Inv g (ls ++ [(e, [.failed i r])]) s := by
  have hreports : reports (ls ++ [(e, [.failed i r])]) = reports ls ++ [.failed i r] := by
    rw [reports, List.flatMap_append, List.flatMap_singleton]
    rfl
  have hlaunches : launches (ls ++ [(e, [.failed i r])]) = launches ls := by
    rw [launches, hreports, List.filterMap_append]
    exact List.append_nil _
  refine { h with replies := fun j n r' reply hr => ?_, launched := ?_, unique := ?_ }
  · rw [hreports] at hr
    rcases List.mem_append.mp hr with hr | hr
    · exact h.replies j n r' reply hr
    · cases List.mem_singleton.mp hr
  · rw [hlaunches]
    exact h.launched
  · rw [hlaunches]
    exact h.unique

omit [DecidableEq ι] [DecidableEq ρ] in
theorem Inv.silent (h : Inv g ls s) (e : Event ι ρ) : Inv g (ls ++ [(e, [])]) s := by
  have hreports : reports (ls ++ [(e, [])]) = reports ls := by
    rw [reports, List.flatMap_append, List.flatMap_singleton]
    exact List.append_nil _
  have hlaunches : launches (ls ++ [(e, [])]) = launches ls := by
    rw [launches, hreports]
    rfl
  refine { h with replies := ?_, launched := ?_, unique := ?_ }
  · rw [hreports]
    exact h.replies
  · rw [hlaunches]
    exact h.launched
  · rw [hlaunches]
    exact h.unique

omit [DecidableEq ρ] in
theorem Inv.waitfor (h : Inv g ls s) {i : ι} {name : Name}
    {r : Requester ι ρ} (hnew : ∀ j n, r = .manager j n → i = g ∧ n = name)
    (hstart : ∀ f, func = some f → (f.isCall = true ↔ i ≠ g ∧ IsGlobal name) ∧
      ∀ c, requestOf i name f = some c → c.Good) (e : Event ι ρ) :
    Inv g (ls ++ [(e, (s.waitfor i name func r).2)]) (s.waitfor i name func r).1 := by
  have hmove := Move.waitfor (h.sound i) name func r
  refine h.settle hmove (h.sound i).waitfor ?_ ?_ ?_ ?_ e
  · rintro j n f ⟨hr, _⟩
    exact hnew j n hr.symm
  · intro f hf
    obtain ⟨_, _, hf'⟩ := hmove.starts f hf
    exact hstart f hf'.symm
  · intro hresult
    cases hresult
  · intro _ hresult
    cases hresult

theorem Inv.finish (h : Inv g ls s) {i : ι} {job : Job (Requester ι ρ)}
    {result : Except String (Option Handle)} (hjob : job ∈ (s.manager i).running)
    (hnone : result = .ok none →
      i ≠ g ∧ IsGlobal job.name ∧ ∃ msg, entry s g job.name = some (.error msg))
    (hhandle : ∀ v, result = .ok (some v) → IsGlobal job.name → i ≠ g →
      entry s g job.name = some (.handle v)) (e : Event ι ρ) :
    Inv g (ls ++ [(e, (s.finish i job result).2)]) (s.finish i job result).1 :=
  h.settle (.request (h.sound i) hjob _) ((h.sound i).request hjob)
    (fun _ _ _ hf => hf.elim) (fun _ hf => (by cases hf))
    (fun hr => hnone (Option.some.inj hr)) (fun v hr => hhandle v (Option.some.inj hr)) e

omit [DecidableEq ι] [DecidableEq ρ] in
theorem launches_of_kind (h : Inv g ls s) {i : ι} {job : Job (Requester ι ρ)}
    (hjob : job ∈ (s.manager i).running) (hlocal : i = g ∨ ¬ IsGlobal job.name) :
    job.func.launches = true := by
  apply launches_of_not_isCall
  have hkind := h.kinds i job hjob
  cases hcall : job.func.isCall with
  | false => rfl
  | true =>
    obtain ⟨hne, hglobal⟩ := hkind.mp hcall
    exact (hlocal.elim hne fun hnot => hnot hglobal).elim

theorem Inv.command (h : Inv g ls s) {i : ι} {cmd : Cmd} {r : ρ}
    (hclear : s.Clear g (.command i cmd r)) :
    Inv g (ls ++ [(.command i cmd r, (s.next g (.command i cmd r)).2)])
      (s.next g (.command i cmd r)).1 := by
  rw [State.next]
  cases hcall : cmd.call (i = g) with
  | none => exact h.report_failed _ i r
  | some call =>
    obtain ⟨name, func⟩ := call
    dsimp only
    by_cases hi : i = g
    · rw [decide_eq_true hi] at hcall
      refine h.waitfor (fun _ _ hr => by cases hr) (fun f hf => ?_) _
      have hnot := call_true hcall f hf
      refine ⟨by rw [hnot]; simp [hi], fun c hc => ?_⟩
      cases f <;> cases hc
      cases hnot
    · rw [decide_eq_false hi] at hcall
      cases cmd with
      | LAUNCH service_name subname =>
        obtain ⟨⟨f', hf', hnot⟩, hname⟩ := LAUNCH_func hcall
        have hplain : ¬ IsGlobal name := fun hglobal =>
          (hclear.resolve_left hi) (hname.mp hglobal)
        refine h.waitfor (fun _ _ hr => by cases hr) (fun f hf => ?_) _
        cases hf'.symm.trans hf
        refine ⟨by rw [hnot]; simp [hplain], fun c hc => ?_⟩
        cases f' <;> cases hc
        cases hnot
      | QUERY service_name subname =>
        obtain rfl := QUERY_func hcall
        exact h.waitfor (fun _ _ hr => by cases hr) (fun _ hf => by cases hf) _
      | GLAUNCH name' subname | GQUERY name' subname =>
        obtain ⟨rfl, hgood⟩ := waitfor_remote_good hcall i
        refine h.waitfor (fun _ _ hr => by cases hr) (fun f hf => ?_) _
        cases hf
        refine ⟨⟨fun _ => ⟨hi, hgood.1⟩, fun _ => rfl⟩, fun c hc => ?_⟩
        cases hc
        exact hgood

theorem Progress.command (hp : Progress g s) (h : Inv g ls s) (i : ι) (cmd : Cmd) (r : ρ) :
    Progress g (s.next g (.command i cmd r)).1 := by
  rw [State.next]
  cases cmd.call (i = g) with
  | none => exact hp
  | some call =>
    exact .settle (.waitfor (h.sound i) _ _ _) fun j job _ hold query global_name subname hf =>
      (hp j job hold query global_name subname hf).settle (.waitfor (h.sound i) _ _ _)

theorem Inv.request (h : Inv g ls s) (hp : Progress g s) {c : Request ι} (hc : c ∈ s.requests) :
    Inv g (ls ++ [(.request c, (s.next g (.request c)).2)]) (s.next g (.request c)).1 ∧
      Progress g (s.next g (.request c)).1 := by
  obtain ⟨hglobal, func, hcall, hnot, hsome⟩ := h.requests c hc
  have h' : Inv g ls { s with requests := s.requests.erase c } :=
    { h with requests := fun c' hc' => h.requests c' (List.mem_of_mem_erase hc') }
  rw [State.next, hcall]
  have hmove := Move.waitfor (h'.sound g) c.name func (.manager c.node c.name)
  refine ⟨h'.waitfor (fun j n hr => ?_) (fun f hf => ?_) _, .settle hmove ?_⟩
  · cases hr
    exact ⟨rfl, rfl⟩
  · refine ⟨by rw [hnot f hf]; simp, fun c' hc' => ?_⟩
    have hcall' := hnot f hf
    cases f <;> cases hc'
    cases hcall'
  · intro j job _ hold query global_name subname hf
    have hasking : Asking g { s with requests := s.requests.erase c } j job.name query ∨
        c.node = j ∧ c.name = job.name ∧ c.query = query := by
      rcases hp j job hold query global_name subname hf with ⟨c', hc', hmatch⟩ | hrest
      · by_cases heq : c' = c
        · exact .inr (heq ▸ hmatch)
        · exact .inl (.inl ⟨c', (List.mem_erase_of_ne heq).mpr hc', hmatch⟩)
      · exact .inl (.inr hrest)
    rcases hasking with hasking | ⟨rfl, hname, rfl⟩
    · exact hasking.settle hmove
    · rw [← hname]
      rcases hmove.asks _ func ⟨rfl, rfl⟩ with ⟨hwaits, hlaunch⟩ | ⟨reply, hreply⟩
      · refine .inr (.inl ?_)
        rw [settle_manager, if_pos rfl]
        exact ⟨hwaits, fun hq => (hlaunch (hsome hq)).imp fun _ hjob => ⟨hjob.1, hjob.2.1⟩⟩
      · exact .inr (.inr ⟨⟨c.node, c.name, reply⟩,
          List.mem_append_right _ (List.mem_filterMap.mpr ⟨_, hreply, rfl⟩), rfl, rfl⟩)

theorem Inv.response (h : Inv g ls s) (hp : Progress g s) {a : Response ι} (ha : a ∈ s.responses) :
    Inv g (ls ++ [(.response a, (s.next g (.response a)).2)]) (s.next g (.response a)).1 ∧
      Progress g (s.next g (.response a)).1 := by
  have h' : Inv g ls { s with responses := s.responses.erase a } :=
    { h with responses := fun a' ha' => h.responses a' (List.mem_of_mem_erase ha') }
  have hasking : ∀ j, ∀ job ∈ (s.manager j).running, ∀ query global_name subname,
      job.func = .call query global_name subname →
      Asking g { s with responses := s.responses.erase a } j job.name query ∨
        a.node = j ∧ a.name = job.name := by
    intro j job hjob query global_name subname hf
    rcases hp j job hjob query global_name subname hf with hc | hw | ⟨a', ha', hmatch⟩
    · exact .inl (.inl hc)
    · exact .inl (.inr (.inl hw))
    · by_cases heq : a' = a
      · exact .inr (heq ▸ hmatch)
      · exact .inl (.inr (.inr ⟨a', (List.mem_erase_of_ne heq).mpr ha', hmatch⟩))
  rw [State.next]
  dsimp only
  cases hfind : (s.manager a.node).running.find? fun job =>
    job.name = a.name && job.func.isCall with
  | none =>
    refine ⟨h'.silent _, fun j job hjob query global_name subname hf => ?_⟩
    refine (hasking j job hjob query global_name subname hf).resolve_right ?_
    rintro ⟨rfl, hname⟩
    have := List.find?_eq_none.mp hfind job hjob
    rw [hname, hf] at this
    simp [Func.isCall] at this
  | some job =>
    have hjob : job ∈ (s.manager a.node).running := List.mem_of_find?_eq_some hfind
    obtain ⟨hname, hcall⟩ : job.name = a.name ∧ job.func.isCall = true := by
      simpa using List.find?_some hfind
    obtain ⟨hne, hglobal⟩ := (h.kinds _ job hjob).mp hcall
    obtain ⟨hsome, hmiss⟩ := h.responses a ha
    have hmove := Move.request (h.sound a.node) hjob (.ok a.reply.handle)
    refine ⟨h'.finish hjob (fun hr => ?_) (fun v hr _ _ => ?_) _, .settle hmove ?_⟩
    · rw [hname] at hglobal ⊢
      exact ⟨hne, hglobal, hmiss (Except.ok.inj hr)⟩
    · rw [hname]
      exact hsome v (Except.ok.inj hr)
    · intro j job' hjob' hold query global_name subname hf
      rcases hasking j job' hold query global_name subname hf with hasking | ⟨rfl, hname'⟩
      · exact hasking.settle hmove
      · rw [settle_manager, if_pos rfl] at hjob'
        have hjob'' : job' ∈ (ServiceMgr.request (s.manager a.node) job _).1.running := hjob'
        rw [request_running] at hjob''
        exact absurd (hname'.symm.trans hname.symm) ((h.sound a.node).other_name hjob hjob'').2

omit [DecidableEq ρ] in
theorem Inv.command_clear (h : Inv g ls s) {i : ι} {cmd : Cmd} {r : ρ}
    (hclear : s.Clear g (.command i cmd r)) {name : Name}
    (hcall : cmd.call (i = g) = some (name, func)) : ∀ f, func = some f → f.launches = true →
      ∀ job ∈ (s.manager i).running, job.name = name → job.func.launches = true := by
  rintro f rfl hl job hjob rfl
  by_cases hi : i = g
  · exact launches_of_kind h hjob (.inl hi)
  rw [decide_eq_false hi] at hcall
  cases cmd with
  | LAUNCH service_name subname =>
    have hname := (LAUNCH_func hcall).2
    exact launches_of_kind h hjob (.inr fun hglobal => hclear.resolve_left hi (hname.mp hglobal))
  | QUERY service_name subname => cases QUERY_func hcall
  | GLAUNCH name' subname =>
    have hremote : waitfor_remote false name' subname = some (job.name, some f) := hcall
    exact hclear.resolve_left hi job hjob (by rw [hremote]; rfl)
  | GQUERY name' subname =>
    obtain ⟨hf, _⟩ := waitfor_remote_good hcall i
    cases hf
    cases hl

omit [DecidableEq ρ] in
theorem Heard.same (h : Heard g ls s) (e : Event ι ρ) (out : List (Report ι ρ))
    (hcommand : ∀ i cmd r, e = .command i cmd r → cmd.call (i = g) = none) :
    Heard g (ls ++ [(e, out)]) s := by
  intro j cmd r hmem n func hcall
  rw [List.map_append] at hmem
  rcases List.mem_append.mp hmem with hmem | hmem
  · refine (h j cmd r hmem n func hcall).imp_left fun ⟨reply, hreply⟩ => ⟨reply, ?_⟩
    rw [reports, List.flatMap_append]
    exact List.mem_append_left _ hreply
  · rw [hcommand j cmd r (List.mem_singleton.mp hmem).symm] at hcall
    cases hcall

theorem Heard.next (hh : Heard g ls s) (h : Inv g ls s) {e : Event ι ρ}
    (henabled : s.Enabled e) (hclear : s.Clear g e) :
    Heard g (ls ++ [(e, (s.next g e).2)]) (s.next g e).1 := by
  cases e with
  | command i cmd r =>
    rw [State.next]
    cases hcall : cmd.call (i = g) with
    | none =>
      refine hh.same _ _ fun j cmd' r' he => ?_
      cases he
      exact hcall
    | some call =>
      refine hh.settle (.waitfor (h.sound i) _ _ _) _ fun j cmd' r' he n func hcall' => ?_
      cases he
      cases hcall.symm.trans hcall'
      exact ⟨rfl, rfl, ⟨rfl, rfl⟩, h.command_clear hclear hcall⟩
  | request c =>
    obtain ⟨_, func, hcall, _⟩ := h.requests c henabled
    rw [State.next, hcall]
    exact Heard.settle (s := { s with requests := s.requests.erase c }) hh
      (.waitfor (h.sound g) _ _ _) _
      fun _ _ _ he => by cases he
  | response a =>
    rw [State.next]
    dsimp only
    cases hfind : (s.manager a.node).running.find? fun job =>
      job.name = a.name && job.func.isCall with
    | none =>
      exact Heard.same (s := { s with responses := s.responses.erase a }) hh _ _
        fun _ _ _ he => by cases he
    | some job =>
      exact Heard.settle (s := { s with responses := s.responses.erase a }) hh
        (.request (h.sound a.node) (List.mem_of_find?_eq_some hfind) _) _
          fun _ _ _ he => by cases he
  | finish i job result =>
    exact hh.settle (.request (h.sound i) henabled.1 _) _ fun _ _ _ he => by cases he

theorem Inv.next (h : Inv g ls s) (hp : Progress g s) {e : Event ι ρ}
    (henabled : s.Enabled e) (hclear : s.Clear g e) :
    Inv g (ls ++ [(e, (s.next g e).2)]) (s.next g e).1 ∧ Progress g (s.next g e).1 := by
  cases e with
  | command i cmd r => exact ⟨h.command hclear, hp.command h i cmd r⟩
  | request c => exact h.request hp henabled
  | response a => exact h.response hp henabled
  | finish i job result =>
    obtain ⟨hjob, hfail⟩ := henabled
    have hkind := h.kinds i job hjob
    refine ⟨h.finish hjob (fun hr => ?_) (fun v hr hglobal hi => ?_) _,
      .settle (.request (h.sound i) hjob _) fun j job' _ hold query global_name subname hf =>
        (hp j job' hold query global_name subname hf).settle (.request (h.sound i) hjob _)⟩
    · have hcall := hclear.resolve_right fun hne => hne (by rw [hr]; rfl)
      have hfailed := hfail hcall
      rw [hr] at hfailed
      cases hfailed
    · have hfailed := hfail (hkind.mpr ⟨hi, hglobal⟩)
      rw [hr] at hfailed
      cases hfailed

theorem run_inv (hrun : Run (Guarded (fun s l => s.Clear g l.1) (Step g)) .init ls s) :
    Inv g ls s ∧ Progress g s ∧ Heard g ls s := by
  induction hrun with
  | nil => exact ⟨.init, fun _ _ h => (by cases h), fun _ _ _ h => (by cases h)⟩
  | @snoc t u es l hrun hstep ih =>
    obtain ⟨hinv, hprogress, hheard⟩ := ih
    obtain ⟨hclear, henabled, hnext⟩ := hstep
    obtain ⟨e, out⟩ := l
    have hout : out = (t.next g e).2 := (congrArg Prod.snd hnext).symm
    have hu : u = (t.next g e).1 := (congrArg Prod.fst hnext).symm
    rw [hu, hout]
    have hnext := hinv.next hprogress henabled hclear
    exact ⟨hnext.1, hnext.2, hheard.next hinv henabled hclear⟩

theorem services_unique (hrun : Run (Guarded (fun s l => s.Clear g l.1) (Step g)) .init ls s) :
    (launches ls).Nodup ∧
    (∀ i name, (i, name) ∈ launches ls → IsGlobal name → i = g) ∧
    (∀ i name r r' reply reply', .replied i name r reply ∈ reports ls →
      .replied i name r' reply' ∈ reports ls → reply.handle = reply'.handle) ∧
    (∀ i i' name r r' reply reply' h h', IsGlobal name → .replied i name r reply ∈ reports ls →
      .replied i' name r' reply' ∈ reports ls → reply.handle = some h → reply'.handle = some h' →
        h = h') ∧
    (∀ i cmd r, .command i cmd r ∈ ls.map (·.1) →
      ∀ name func, cmd.call (i = g) = some (name, func) →
        (∃ reply, .replied i name r reply ∈ reports ls) ∨
          (s.manager i).Waits name (.client r) ∧ ∀ f, func = some f → f.launches = true →
            ∃ job ∈ (s.manager i).running, job.name = name ∧ job.func.launches = true) ∧
    (∀ i, ∀ job ∈ (s.manager i).running, ∀ query global_name subname,
      job.func = .call query global_name subname → Asking g s i job.name query) := by
  obtain ⟨h, hprogress, hheard⟩ := run_inv hrun
  have hsame : ∀ i i' name r r' reply reply' v v', i = i' ∨ IsGlobal name →
      .replied i name r reply ∈ reports ls → .replied i' name r' reply' ∈ reports ls →
      reply.handle = some v → reply'.handle = some v' → v = v' := by
    intro i i' name r r' reply reply' v v' hi hr hr' hv hv'
    have he := (h.replies i name r reply hr).1 v hv
    have he' := (h.replies i' name r' reply' hr').1 v' hv'
    rcases hi with rfl | hglobal
    · cases he.symm.trans he'
      rfl
    · cases (h.handles i name v he hglobal).symm.trans (h.handles i' name v' he' hglobal)
      rfl
  have hmixed : ∀ i name r r' reply reply' v, .replied i name r reply ∈ reports ls →
      .replied i name r' reply' ∈ reports ls → reply.handle = some v → reply'.handle ≠ none := by
    intro i name r r' reply reply' v hr hr' hv hv'
    have he := (h.replies i name r reply hr).1 v hv
    rcases (h.replies i name r' reply' hr').2 hv' with ⟨msg, he'⟩ | ⟨hglobal, msg, he'⟩
    · cases he.symm.trans he'
    · cases (h.handles i name v he hglobal).symm.trans he'
  refine ⟨h.unique, fun i name hl hglobal => ?_, fun i name r r' reply reply' hr hr' => ?_,
    fun i i' name r r' reply reply' v v' hglobal =>
      hsame i i' name r r' reply reply' v v' (.inr hglobal), hheard, hprogress⟩
  · by_contra hi
    exact (h.launched i name hl).1 hi hglobal
  · cases hv : reply.handle with
    | some v =>
      cases hv' : reply'.handle with
      | some v' => rw [hsame i i name r r' reply reply' v v' (.inl rfl) hr hr' hv hv']
      | none => exact absurd hv' (hmixed i name r r' reply reply' v hr hr' hv)
    | none =>
      cases hv' : reply'.handle with
      | some v' => exact absurd hv (hmixed i name r' r reply' reply v' hr' hr hv')
      | none => rfl

theorem step_next (s : State ι ρ) (e : Event ι ρ) (h : s.Enabled e) :
    Step g s (e, (s.next g e).2) (s.next g e).1 := ⟨h, rfl⟩

/-- The manager `false` has the global one, `true`, launch the service "a", for which a query
waits. -/
def launched : List (Event Bool Nat) :=
  [.command true (.GQUERY [97] none) 1, .command false (.GLAUNCH [97] none) 2,
    .request ⟨false, [64, 97], false, [64, 97], none⟩,
    .finish true ⟨[64, 97], .manager false [64, 97], .newservice [97] none⟩ (.ok (some 7)),
    .response ⟨false, [64, 97], .value (some 7)⟩]

theorem services_unique_launched :
    ∃ ls : Log Bool Nat, (launches ls).Nodup ∧ launches ls = [(true, [64, 97])] ∧
      .replied true [64, 97] 1 (.value (some 7)) ∈ reports ls ∧
      .replied false [64, 97] 2 (.value (some 7)) ∈ reports ls := by
  have halong : Along (State.next true) (fun s e => s.Enabled e ∧ s.Clear true e) .init
      launched := by decide
  have hrun : Run (Guarded (fun s l => s.Clear true l.1) (Step true)) .init _ _ :=
    halong.run fun s e h => .of_step (step_next s e h.1) h.2
  exact ⟨_, (services_unique hrun).1, by decide, by decide, by decide⟩

/-- A query of the manager `false` waits at the global one, and a request to launch behind it. -/
def stuck : List (Event Bool Nat) :=
  [.command false (.GQUERY [97] none) 1, .request ⟨false, [64, 97], true, [64, 97], none⟩,
    .command false (.GLAUNCH [97] none) 2]

theorem launch_behind_query :
    ∃ (ls : Log Bool Nat) (s : State Bool Nat), Run (Step true) .init ls s ∧
      .command false (.GLAUNCH [97] none) 2 ∈ ls.map (·.1) ∧
      (s.manager false).Waits [64, 97] (.client 2) ∧
      (∀ i, ∀ job ∈ (s.manager i).running, job.func.launches = false) ∧
      s.requests = [] ∧ s.responses = [] := by
  have halong : Along (State.next true) State.Enabled State.init stuck := by decide
  exact ⟨_, _, halong.run step_next, .tail _ (.tail _ (.head _)), ⟨_, _, rfl, .inr (.head _)⟩,
    by decide, by decide, by decide⟩

end XsServer.ServiceMgr
