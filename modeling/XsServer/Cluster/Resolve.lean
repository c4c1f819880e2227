import XsServer.Cluster.Rename

/-! The requests to names that change, over whole runs. -/

namespace XsServer.Cluster

open Lib

variable {codec : Codec} {alive : Address → Bool} {s s' : Agent} {w w' : Node} {e : NodeEvent}
  {x y : Waiter} {co co' k : Nat} {fs : List Effect} {n : Name} {q : Inquery}
  {rest : List Message} {a : UInt32} {buf : List UInt8}

/-! ### Coroutines -/

theorem SameNames.suspended (hs : SameNames s s' co fs) : s'.Suspended x ↔ s.Suspended x := by
  rw [Agent.Suspended, hs.inqueryName, hs.wakeupQueue, Agent.Suspended]

theorem suspended_asks (h : (setInquery s x.name (some ⟨x, []⟩)).Suspended y) :
    s.Suspended y ∨ y = x := by
  rcases h with ⟨q, hq, hy⟩ | hy
  · rcases setInquery_some hq with ⟨-, rfl⟩ | ⟨-, hq⟩
    · exact Or.inr (hy.resolve_right List.not_mem_nil)
    · exact Or.inl (Or.inl ⟨q, hq, hy⟩)
  · exact Or.inl (Or.inr hy)

theorem suspended_waits (hq : s.inqueryName x.name = some q)
    (h : (setInquery s x.name (some { q with waitco := q.waitco ++ [x] })).Suspended y) :
    s.Suspended y ∨ y = x := by
  rcases h with ⟨q', hq', hy⟩ | hy
  · rcases setInquery_some hq' with ⟨hname, rfl⟩ | ⟨-, hq'⟩
    · rw [← hname] at hq
      rcases hy with hy | hy
      · exact Or.inl (Or.inl ⟨q, hq, Or.inl hy⟩)
      · rcases List.mem_append.mp hy with hy | hy
        · exact Or.inl (Or.inl ⟨q, hq, Or.inr hy⟩)
        · exact Or.inr (List.mem_singleton.mp hy)
    · exact Or.inl (Or.inl ⟨q', hq', hy⟩)
  · exact Or.inl (Or.inr hy)

theorem suspended_replied {addr : Option UInt32} (hi : w.Inv)
    (hq : w.agent.inqueryName (64 :: n) = some q)
    (h : (Cluster.replied w.agent (64 :: n) addr q).Suspended y) : w.agent.Suspended y := by
  rw [Agent.Suspended, replied_inqueryName, replied_wakeupQueue] at h
  rcases h with ⟨q', hq', hy⟩ | hy
  · by_cases hname : y.name = 64 :: n
    · rw [hname, Function.update_self] at hq'
      cases hq'
    · rw [Function.update_of_ne hname] at hq'
      exact Or.inl ⟨q', hq', hy⟩
  · rcases List.mem_append.mp hy with hy | hy
    · exact Or.inr hy
    · refine Or.inl ⟨q, ?_, Or.inr hy⟩
      rw [hi.waitco _ q hq y hy]
      exact hq

theorem suspended_woken {rest : List Waiter} (hqueue : s.wakeupQueue = x :: rest)
    (h : Agent.Suspended { s with wakeupQueue := rest } y) : s.Suspended y := by
  rcases h with hy | hy
  · exact Or.inl hy
  · exact Or.inr (hqueue ▸ List.mem_cons_of_mem x hy)

structure Node.Numbered (w : Node) : Prop where
  suspended : ∀ x, w.agent.Suspended x → x.co < w.co
  log : ∀ f ∈ w.log, f.1 < w.co
  calls : ∀ co, w.agent.calls co ≠ none → co < w.co

theorem numbered_init : Node.init.Numbered where
  suspended := fun x hx => by
    rcases hx with ⟨q, hq, -⟩ | hx
    · cases hq
    · cases hx
  log := fun _ h => nomatch h
  calls := fun _ h => absurd rfl h

theorem mem_ran {f : Nat × Effect} (h : f ∈ (w.ran (s, co, fs)).log) : f ∈ w.log ∨ f.1 = co := by
  rcases List.mem_append.mp h with h | h
  · exact Or.inl h
  · obtain ⟨g, -, rfl⟩ := List.mem_map.mp h
    exact Or.inr rfl

theorem Node.Numbered.ran (hn : w.Numbered) (hs : SameNames w.agent s co fs) (hco : co < k)
    (hk : w.co ≤ k) : ({ w with co := k }.ran (s, co, fs)).Numbered := by
  refine ⟨fun x hx => ?_, fun f hf => ?_, fun co' hco' => ?_⟩
  · exact Nat.lt_of_lt_of_le (hn.suspended x (hs.suspended.mp hx)) hk
  · rcases mem_ran hf with hf | hf
    · exact Nat.lt_of_lt_of_le (hn.log f hf) hk
    · exact hf ▸ hco
  · by_cases heq : co' = co
    · exact heq ▸ hco
    · simp only [Node.ran, hs.calls co' heq] at hco'
      exact Nat.lt_of_lt_of_le (hn.calls co' hco') hk

theorem numbered_acts (hi : w.Inv) (hn : w.Numbered) (h : w.Acts codec e w') : w'.Numbered := by
  have hlt : ∀ {co}, co < w.co → co < w.co + 1 := fun h => Nat.lt_succ_of_lt h
  cases h with
  | runs _ hs hco =>
    rcases hco with ⟨rfl, rfl⟩ | ⟨hcall, rfl, -⟩
    · exact hn.ran hs (Nat.lt_succ_self _) (Nat.le_succ _)
    · exact hn.ran hs (hn.calls _ hcall) le_rfl
  | asks _ hs hco _ _ _ =>
    refine ⟨fun y hy => ?_, fun f hf => ?_, fun co' hco' => ?_⟩
    · rcases suspended_asks hy with hy | rfl
      · exact hlt (hn.suspended y (hs.suspended.mp hy))
      · exact hco ▸ Nat.lt_succ_self _
    · rcases mem_ran hf with hf | hf
      · exact hlt (hn.log f hf)
      · exact hf ▸ Nat.lt_succ_self _
    · by_cases heq : co' = w.co
      · exact heq ▸ Nat.lt_succ_self _
      · simp only [Node.ran, setInquery, hs.calls co' (hco ▸ heq)] at hco'
        exact hlt (hn.calls co' hco')
  | waits _ hs hco _ hq =>
    rw [← hs.inqueryName] at hq
    refine ⟨fun y hy => ?_, fun f hf => hlt ?_, fun co' hco' => ?_⟩
    · rcases suspended_waits hq hy with hy | rfl
      · exact hlt (hn.suspended y (hs.suspended.mp hy))
      · exact hco ▸ Nat.lt_succ_self _
    · rw [Node.ran, List.map_nil, List.append_nil] at hf
      exact hn.log f hf
    · by_cases heq : co' = w.co
      · exact heq ▸ Nat.lt_succ_self _
      · simp only [Node.ran, setInquery, hs.calls co' (hco ▸ heq)] at hco'
        exact hlt (hn.calls co' hco')
  | @replied _ alive name addr rest q _ _ hq =>
    have hcaller : w.agent.Suspended q.caller :=
      Or.inl ⟨q, (hi.caller _ q hq).1 ▸ hq, Or.inl rfl⟩
    have hn' : (w.replied (64 :: name) addr q rest).Numbered := by
      refine ⟨fun y hy => hn.suspended y (suspended_replied hi hq hy), hn.log, fun co' hco' => ?_⟩
      simp only [Node.replied, replied_calls] at hco'
      exact hn.calls co' hco'
    exact hn'.ran (goOn_same ..) (hn.suspended _ hcaller) le_rfl
  | @woken _ alive x rest hqueue =>
    have hx : w.agent.Suspended x := Or.inr (hqueue ▸ List.mem_cons_self)
    have hn' : (w.popped rest).Numbered :=
      ⟨fun y hy => hn.suspended y (suspended_woken hqueue hy), hn.log, hn.calls⟩
    exact hn'.ran (goOn_same ..) (hn.suspended x hx) le_rfl
  | changed | registers | answers | launched => exact ⟨hn.suspended, hn.log, hn.calls⟩
  | none => exact hn

/-! ### A request whose name keeps its address -/

theorem outcomes_ran (w : Node) (s : Agent) (co : Nat) (fs : List Effect) (co' : Nat) :
    (w.ran (s, co, fs)).outcomes co' =
      w.outcomes co' ++ if co = co' then fs.filter (fun f => f.query.isNone) else [] := by
  rw [Node.outcomes, Node.ran, List.filterMap_append, List.filterMap_map]
  congr 1
  by_cases hco : co = co'
  · rw [if_pos hco, ← List.filterMap_eq_filter]
    refine List.filterMap_congr fun f _ => ?_
    simp [Option.guard, hco]
  · rw [if_neg hco]
    exact List.filterMap_eq_nil_iff.mpr fun f _ => if_neg fun h => hco h.1

def Node.Served (w : Node) (co : Nat) (a : UInt32) : Prop :=
  ∃ f fs, w.outcomes co = f :: fs ∧ f.ForwardsTo a

structure Node.Expects (w : Node) (co : Nat) (n : Name) (a : UInt32) : Prop where
  old : co < w.co
  silent : w.outcomes co = []
  call : w.agent.calls co = none
  waits : ∀ x, w.agent.Suspended x → x.co = co → x.name = 64 :: n ∧ x.d.addr ≠ some (.number 0)
  self : ∀ q, w.agent.inqueryName (64 :: n) = some q → ∀ x ∈ q.waitco, x.co = co →
    x.self = q.caller.self
  replies : ∀ x, w.agent.Suspended x → x.co = co → ∀ addr, .reply n addr ∈ w.messages →
    addr = some a
  woken : ∀ x ∈ w.agent.wakeupQueue, x.co = co → w.agent.tables x.self x.name = some a
  suspended : ∃ x, w.agent.Suspended x ∧ x.co = co

theorem served_ran {f : Effect} (hsilent : w.outcomes co = []) (hf : f.query = none)
    (hto : f.ForwardsTo a) : (w.ran (s, co, f :: fs)).Served co a := by
  refine ⟨f, fs.filter fun f => f.query.isNone, ?_, hto⟩
  rw [outcomes_ran, hsilent, if_pos rfl, List.filter_cons_of_pos (by simp [hf])]
  rfl

theorem acts_log (h : w.Acts codec e w') : ∃ l, w'.log = w.log ++ l := by
  cases h with
  | changed | registers | answers | launched | none => exact ⟨[], (List.append_nil _).symm⟩
  | _ => exact ⟨_, rfl⟩

theorem served_acts (hs : w.Served co a) (h : w.Acts codec e w') : w'.Served co a := by
  obtain ⟨f, fs, hf, hto⟩ := hs
  obtain ⟨l, hl⟩ := acts_log h
  refine ⟨f, fs ++ Node.outcomes { w with log := l } co, ?_, hto⟩
  rw [Node.outcomes, hl, List.filterMap_append, ← List.cons_append, ← hf]
  rfl

theorem Node.Expects.ran (hx : w.Expects co n a) (hs : SameNames w.agent s co' fs)
    (hne : co' ≠ co) (hk : w.co ≤ k) : ({ w with co := k }.ran (s, co', fs)).Expects co n a where
  old := Nat.lt_of_lt_of_le hx.old hk
  silent := by
    rw [outcomes_ran, if_neg hne, List.append_nil]
    exact hx.silent
  call := (hs.calls co hne.symm).trans hx.call
  waits := fun x h => hx.waits x (hs.suspended.mp h)
  self := fun q hq => hx.self q (hs.inqueryName ▸ hq)
  replies := fun x h => hx.replies x (hs.suspended.mp h)
  woken := fun x h hco => by
    simp only [Node.ran, hs.wakeupQueue, hs.tables] at h ⊢
    exact hx.woken x h hco
  suspended := by
    obtain ⟨x, h, hco⟩ := hx.suspended
    exact ⟨x, hs.suspended.mpr h, hco⟩

theorem Node.Expects.asks (hx : w.Expects co n a) (hs : SameNames w.agent s x.co [])
    (hne : x.co ≠ co) (hnone : w.agent.inqueryName x.name = none) (name : Name) :
    ({ w with co := w.co + 1 }.ran
      (setInquery s x.name (some ⟨x, []⟩), x.co, [.queryname name])).Expects co n a where
  old := Nat.lt_succ_of_lt hx.old
  silent := by
    rw [outcomes_ran, if_neg hne, List.append_nil]
    exact hx.silent
  call := (hs.calls co hne.symm).trans hx.call
  waits := fun y hy hco => by
    rcases suspended_asks hy with hy | rfl
    · exact hx.waits y (hs.suspended.mp hy) hco
    · exact absurd hco hne
  self := fun q hq y hy hco => by
    rcases setInquery_some hq with ⟨-, rfl⟩ | ⟨-, hq⟩
    · cases hy
    · exact hx.self q (hs.inqueryName ▸ hq) y hy hco
  replies := fun y hy hco => by
    rcases suspended_asks hy with hy | rfl
    · exact hx.replies y (hs.suspended.mp hy) hco
    · exact absurd hco hne
  woken := fun y hy hco => by
    simp only [Node.ran, setInquery, hs.wakeupQueue, hs.tables] at hy ⊢
    exact hx.woken y hy hco
  suspended := by
    obtain ⟨y, hy, hco⟩ := hx.suspended
    refine ⟨y, ?_, hco⟩
    rcases hs.suspended.mpr hy with ⟨q, hq, hmem⟩ | hy
    · have hname : y.name ≠ x.name := by
        intro heq
        rw [heq, hs.inqueryName, hnone] at hq
        cases hq
      exact Or.inl ⟨q, (Function.update_of_ne hname _ _).trans hq, hmem⟩
    · exact Or.inr hy

theorem Node.Expects.waits_more (hx : w.Expects co n a) (hs : SameNames w.agent s x.co [])
    (hne : x.co ≠ co) (hq : w.agent.inqueryName x.name = some q) :
    ({ w with co := w.co + 1 }.ran
        (setInquery s x.name (some { q with waitco := q.waitco ++ [x] }), x.co, [])).Expects
      co n a := by
  rw [← hs.inqueryName] at hq
  refine ⟨Nat.lt_succ_of_lt hx.old, ?_, (hs.calls co hne.symm).trans hx.call,
    fun y hy hco => ?_, fun q' hq' y hy hco => ?_, fun y hy hco => ?_, fun y hy hco => ?_, ?_⟩
  · rw [outcomes_ran, if_neg hne, List.append_nil]
    exact hx.silent
  · rcases suspended_waits hq hy with hy | rfl
    · exact hx.waits y (hs.suspended.mp hy) hco
    · exact absurd hco hne
  · rcases setInquery_some hq' with ⟨hname, rfl⟩ | ⟨-, hq'⟩
    · rcases List.mem_append.mp hy with hy | hy
      · rw [hs.inqueryName, ← hname] at hq
        exact hx.self q hq y hy hco
      · rw [List.mem_singleton.mp hy] at hco
        exact absurd hco hne
    · exact hx.self q' (hs.inqueryName ▸ hq') y hy hco
  · rcases suspended_waits hq hy with hy | rfl
    · exact hx.replies y (hs.suspended.mp hy) hco
    · exact absurd hco hne
  · simp only [Node.ran, setInquery, hs.wakeupQueue, hs.tables] at hy ⊢
    exact hx.woken y hy hco
  · obtain ⟨y, hy, hco⟩ := hx.suspended
    refine ⟨y, ?_, hco⟩
    rcases hs.suspended.mpr hy with ⟨q', hq', hmem⟩ | hy
    · by_cases hname : y.name = x.name
      · rw [hname, hq] at hq'
        rw [← Option.some.inj hq'] at hmem
        refine Or.inl ⟨{ q with waitco := q.waitco ++ [x] }, ?_,
          hmem.imp_right (List.mem_append_left _)⟩
        rw [hname]
        exact Function.update_self ..
      · exact Or.inl ⟨q', (Function.update_of_ne hname _ _).trans hq', hmem⟩
    · exact Or.inr hy

theorem Node.Expects.replied {name : Name} {addr : Option UInt32} (hi : w.Inv)
    (hx : w.Expects co n a) (hidle : w.agent.wakeupQueue = [])
    (hmessages : w.messages = .reply name addr :: rest)
    (hq : w.agent.inqueryName (64 :: name) = some q) (hne : q.caller.co ≠ co) :
    (w.replied (64 :: name) addr q rest).Expects co n a := by
  refine ⟨hx.old, hx.silent, ?_, fun y hy => hx.waits y (suspended_replied hi hq hy),
    fun q' hq' => ?_, fun y hy hco addr' hmem => ?_, fun y hy hco => ?_, ?_⟩
  · simp only [Node.replied, replied_calls]
    exact hx.call
  · simp only [Node.replied, replied_inqueryName] at hq'
    by_cases hn : n = name
    · rw [hn, Function.update_self] at hq'
      cases hq'
    · rw [Function.update_of_ne (mt cons_inj.mp hn)] at hq'
      exact hx.self q' hq'
  · refine hx.replies y (suspended_replied hi hq hy) hco addr' ?_
    rw [hmessages]
    exact List.mem_cons_of_mem _ hmem
  · simp only [Node.replied, replied_wakeupQueue, hidle, List.nil_append] at hy
    have hname := hi.waitco _ q hq y hy
    have hsuspended : w.agent.Suspended y := Or.inl ⟨q, hname ▸ hq, Or.inr hy⟩
    have hn : name = n := cons_inj.mp (hname.symm.trans (hx.waits y hsuspended hco).1)
    rw [hn] at hq hmessages
    have haddr : addr = some a := by
      refine hx.replies y hsuspended hco addr ?_
      rw [hmessages]
      exact List.mem_cons_self
    rw [hname, hn, haddr, hx.self q hq y hy hco]
    exact replied_tables_self ..
  · obtain ⟨y, hy, hco⟩ := hx.suspended
    refine ⟨y, ?_, hco⟩
    simp only [Node.replied]
    rw [Agent.Suspended, replied_inqueryName, replied_wakeupQueue, hidle, List.nil_append]
    rcases hy with ⟨q', hq', hmem⟩ | hy
    · by_cases hname : y.name = 64 :: name
      · rw [hname, hq] at hq'
        rw [← Option.some.inj hq'] at hmem
        exact Or.inr (hmem.resolve_left fun h => hne (h ▸ hco))
      · exact Or.inl ⟨q', (Function.update_of_ne hname _ _).trans hq', hmem⟩
    · rw [hidle] at hy
      cases hy

theorem Node.Expects.popped {rest : List Waiter} (hx : w.Expects co n a)
    (hqueue : w.agent.wakeupQueue = x :: rest) (hne : x.co ≠ co) :
    (w.popped rest).Expects co n a := by
  refine ⟨hx.old, hx.silent, hx.call, fun y hy => hx.waits y (suspended_woken hqueue hy), hx.self,
    fun y hy => hx.replies y (suspended_woken hqueue hy), fun y hy => hx.woken y ?_, ?_⟩
  · rw [hqueue]
    exact List.mem_cons_of_mem x hy
  · obtain ⟨y, hy, hco⟩ := hx.suspended
    refine ⟨y, hy.imp_right fun hy => ?_, hco⟩
    rw [hqueue] at hy
    exact (List.mem_cons.mp hy).resolve_left fun h => hne (h ▸ hco)

theorem Node.Expects.messages {messages : List Message} {queries : List Name} {c : Clusterd}
    (hx : w.Expects co n a) (hsub : ∀ addr, .reply n addr ∈ messages →
      .reply n addr ∈ w.messages ∨ addr = some a) :
    { w with messages := messages, queries := queries, clusterd := c }.Expects co n a :=
  ⟨hx.old, hx.silent, hx.call, hx.waits, hx.self, fun y hy hco addr hmem =>
    (hsub addr hmem).elim (hx.replies y hy hco addr) id, hx.woken, hx.suspended⟩

theorem expects_acts (hi : w.Inv) (hx : w.Expects co n a) (hbound : w.clusterd.names n = some a)
    (h : w.Acts codec e w') : w'.Expects co n a ∨ w'.Served co a := by
  have hold : w.co ≠ co := hx.old.ne'
  cases h with
  | runs _ hs hco =>
    rcases hco with ⟨rfl, rfl⟩ | ⟨hcall, rfl, -⟩
    · exact Or.inl (hx.ran hs hold (Nat.le_succ _))
    · exact Or.inl (hx.ran hs (fun h => hcall (h ▸ hx.call)) le_rfl)
  | asks _ hs hco _ _ hnone =>
    have h := hx.asks hs (hco ▸ hold) hnone
    rw [hco] at h
    exact Or.inl (h _)
  | waits _ hs hco _ hq =>
    have h := hx.waits_more hs (hco ▸ hold) hq
    rw [hco] at h
    exact Or.inl h
  | @replied _ alive name addr rest q hidle hmessages hq =>
    by_cases hco : q.caller.co = co
    · have hname := (hi.caller _ q hq).1
      have hsuspended : w.agent.Suspended q.caller := Or.inl ⟨q, hname ▸ hq, Or.inl rfl⟩
      obtain ⟨hname', haddress⟩ := hx.waits _ hsuspended hco
      have hn : name = n := cons_inj.mp (hname.symm.trans hname')
      have haddr : addr = some a := by
        refine hx.replies _ hsuspended hco addr ?_
        rw [hmessages, hn]
        exact List.mem_cons_self
      rw [haddr]
      obtain ⟨f, fs, hfs, hquery, hto⟩ := goOn_head haddress codec alive
        (Cluster.replied w.agent (64 :: name) (some a) q) a
      simp only [hfs, hco]
      exact Or.inr (served_ran hx.silent hquery hto)
    · have h := hx.replied hi hidle hmessages hq hco
      exact Or.inl (h.ran (goOn_same ..) hco le_rfl)
  | @woken _ alive x rest hqueue =>
    by_cases hco : x.co = co
    · have hmem : x ∈ w.agent.wakeupQueue := hqueue ▸ List.mem_cons_self
      have haddress := (hx.waits x (Or.inr hmem) hco).2
      rw [hx.woken x hmem hco]
      obtain ⟨f, fs, hfs, hquery, hto⟩ := goOn_head haddress codec alive
        { w.agent with wakeupQueue := rest } a
      simp only [hfs, hco]
      exact Or.inr (served_ran hx.silent hquery hto)
    · exact Or.inl ((hx.popped hqueue hco).ran (goOn_same ..) hco le_rfl)
  | changed _ hmessages =>
    refine Or.inl ⟨hx.old, hx.silent, hx.call, hx.waits, hx.self, fun y hy hco addr hmem => ?_,
      hx.woken, hx.suspended⟩
    exact hx.replies y hy hco addr (hmessages ▸ List.mem_cons_of_mem _ hmem)
  | registers name addr =>
    refine Or.inl (hx.messages fun addr' hmem => Or.inl ?_)
    refine (List.mem_append.mp hmem).resolve_right fun h => ?_
    cases register_messages _ _ _ _ h
  | @answers _ name rest hqueries =>
    refine Or.inl (hx.messages fun addr' hmem => ?_)
    refine (List.mem_append.mp hmem).imp_right fun h => ?_
    obtain ⟨rfl, haddr⟩ := Message.reply.inj (List.mem_singleton.mp h)
    exact haddr.trans hbound
  | launched => exact Or.inl (hx.messages fun addr' hmem => Or.inl hmem)
  | none => exact Or.inl hx

theorem receives_index (hr : w.Receives buf n) (hs : w.Step codec (.packet buf alive) w') :
    w.agent.wakeupQueue = [] ∧ ∃ s x, SameNames w.agent s w.co [] ∧ s.calls = w.agent.calls ∧
      x.co = w.co ∧ x.self = w.agent.registerName ∧ x.name = 64 :: n ∧
      x.d.addr ≠ some (.number 0) ∧
      w' = { w with co := w.co + 1 }.ran
        ((index codec alive s x).1, w.co, (index codec alive s x).2) := by
  obtain ⟨u, d, hu, hrequest, haddr⟩ := hr
  unfold Node.Step Node.next at hs
  simp only at hs
  split at hs
  · rename_i hidle
    refine ⟨List.isEmpty_iff.mp hidle,
      { w.agent with pieces := (reassemble w.agent.pieces u).1 },
      ⟨w.co, w.agent.registerName, 64 :: n, d⟩, ⟨rfl, rfl, rfl, rfl, fun _ _ => rfl, rfl⟩, rfl, rfl,
      rfl, rfl, ?_, ?_⟩
    · rw [haddr]
      exact fun h => Address.noConfusion (Option.some.inj h)
    · have hname : isname (.name (64 :: n)) = true := rfl
      have hzero : Address.name (64 :: n) ≠ .number 0 := fun h => Address.noConfusion h
      rw [hu] at hs
      simp only [dispatchRequest, hrequest, dispatchDelivery, haddr, if_neg hzero, hname,
        if_true] at hs
      exact (Option.some.inj hs).symm
  · cases hs

theorem Node.Numbered.silent (hn : w.Numbered) (hco : w.co ≤ co) : w.outcomes co = [] := by
  refine List.filterMap_eq_nil_iff.mpr fun f hf => if_neg fun h => ?_
  have hlt := hn.log f hf
  rw [h.1] at hlt
  exact absurd hco (Nat.not_le.mpr hlt)

theorem Node.Numbered.call (hn : w.Numbered) : w.agent.calls w.co = none := by
  by_contra h
  exact lt_irrefl _ (hn.calls _ h)

theorem Node.Inv.no_reply (hi : w.Inv) (hnone : w.agent.inqueryName (64 :: n) = none)
    (addr : Option UInt32) : .reply n addr ∉ w.messages := by
  intro hmem
  have hasked := hi.asked n
  rw [hnone] at hasked
  have hpos : 0 < w.messages.countP (Message.isReply n) :=
    List.countP_pos_iff.mpr ⟨_, hmem, decide_eq_true rfl⟩
  simp only [Option.isSome_none, Bool.false_eq_true, if_false] at hasked
  omega

theorem arrival (hi : w.Inv) (hn : w.Numbered) (hc : w.Cached) (hcalm : w.Calm n)
    (hbound : w.clusterd.names n = some a) (hr : w.Receives buf n)
    (hs : w.Step codec (.packet buf alive) w') : w'.Expects w.co n a ∨ w'.Served w.co a := by
  obtain ⟨hidle, s, x, hsame, hcalls, hco, hself, hname, haddr, rfl⟩ := receives_index hr hs
  have hnew : ∀ y, w.agent.Suspended y → y.co ≠ w.co := fun y hy => (hn.suspended y hy).ne
  have hsilent : w.outcomes w.co = [] := hn.silent le_rfl
  have hcall : s.calls w.co = none := hcalls ▸ hn.call
  have hqueue : s.wakeupQueue = [] := hsame.wakeupQueue.trans hidle
  unfold index
  cases htable : s.tables x.self x.name with
  | some b =>
    rw [hsame.tables, hself, hname] at htable
    have hb : w.clusterd.names n = some b := (hc.table n b htable).resolve_right hcalm.unchanged
    obtain rfl : b = a := Option.some.inj (hb.symm.trans hbound)
    obtain ⟨f, fs, hfs, hquery, hto⟩ := goOn_head haddr codec alive s b
    simp only [hfs]
    refine Or.inr (served_ran ?_ hquery hto)
    exact hsilent
  | none =>
    cases hquery : s.inqueryName x.name with
    | some q =>
      have hq := hquery
      rw [hsame.inqueryName, hname] at hq
      have hmine : ∀ y,
          (setInquery s x.name (some { q with waitco := q.waitco ++ [x] })).Suspended y →
          y.co = w.co → y = x := fun y hy hyco =>
        (suspended_waits hquery hy).resolve_left fun hy => hnew y (hsame.suspended.mp hy) hyco
      refine Or.inl ⟨Nat.lt_succ_self _, ?_, hcall, fun y hy hyco => ?_, fun q' hq' y hy hyco => ?_,
        fun _ _ _ addr hmem => absurd hmem (hcalm.asked q hq addr), fun y hy => ?_,
        ⟨x, ?_, hco⟩⟩
      · rw [outcomes_ran, if_pos rfl]
        exact (List.append_nil _).trans hsilent
      · rw [hmine y hy hyco]
        exact ⟨hname, haddr⟩
      · rcases setInquery_some hq' with ⟨-, rfl⟩ | ⟨hne, -⟩
        · have hysus : Agent.Suspended (setInquery s x.name
              (some { q with waitco := q.waitco ++ [x] })) y := by
            rcases List.mem_append.mp hy with hy' | hy'
            · have hyname := hi.waitco _ q hq y hy'
              refine Or.inl ⟨_, ?_, Or.inr hy⟩
              rw [hyname, ← hname]
              exact Function.update_self ..
            · rw [List.mem_singleton.mp hy']
              exact Or.inl ⟨_, Function.update_self ..,
                Or.inr (List.mem_append_right _ List.mem_cons_self)⟩
          rw [hmine y hysus hyco, hself]
          exact (hcalm.caller q hq).symm
        · exact absurd hname.symm hne
      · simp only [Node.ran, setInquery, hqueue] at hy
        cases hy
      · exact Or.inl ⟨_, Function.update_self ..,
          Or.inr (List.mem_append_right _ List.mem_cons_self)⟩
    | none =>
      have hq := hquery
      rw [hsame.inqueryName, hname] at hq
      have hmine : ∀ y, (setInquery s x.name (some ⟨x, []⟩)).Suspended y → y.co = w.co → y = x :=
        fun y hy hyco =>
          (suspended_asks hy).resolve_left fun hy => hnew y (hsame.suspended.mp hy) hyco
      refine Or.inl ⟨Nat.lt_succ_self _, ?_, hcall, fun y hy hyco => ?_, fun q' hq' y hy hyco => ?_,
        fun _ _ _ addr hmem => absurd hmem (hi.no_reply hq addr), fun y hy => ?_, ⟨x, ?_, hco⟩⟩
      · rw [outcomes_ran, if_pos rfl]
        exact (List.append_nil _).trans hsilent
      · rw [hmine y hy hyco]
        exact ⟨hname, haddr⟩
      · rcases setInquery_some hq' with ⟨-, rfl⟩ | ⟨hne, -⟩
        · cases hy
        · exact absurd hname.symm hne
      · simp only [Node.ran, setInquery, hqueue] at hy
        cases hy
      · exact Or.inl ⟨_, Function.update_self .., Or.inl rfl⟩

theorem Node.Expects.serves (hi : w.Inv) (hx : w.Expects co n a) : w.Serves co n a := by
  refine ⟨fun f hf => ?_, fun _ => ?_⟩
  · rw [hx.silent] at hf
    cases hf
  · obtain ⟨x, hsuspended, hco⟩ := hx.suspended
    refine ⟨x, hsuspended, hco, ?_⟩
    have hname := (hx.waits x hsuspended hco).1
    have hreplies := hx.replies x hsuspended hco
    refine hsuspended.elim (fun hq => Or.inr ?_) Or.inl
    obtain ⟨q, hq, -⟩ := hq
    have hasked := hi.asked n
    rw [hname] at hq
    rw [hq, Option.isSome_some, if_pos rfl] at hasked
    by_cases hquery : n ∈ w.queries
    · exact Or.inl hquery
    · rw [List.count_eq_zero_of_not_mem hquery, Nat.zero_add] at hasked
      have hpos : 0 < w.messages.countP (Message.isReply n) := by omega
      obtain ⟨m, hmem, hm⟩ := List.countP_pos_iff.mp hpos
      cases m with
      | namechange => cases hm
      | reply name addr =>
        rw [of_decide_eq_true hm] at hmem
        rw [hreplies addr hmem] at hmem
        exact Or.inr hmem

theorem Node.Served.serves (hs : w.Served co a) : w.Serves co n a := by
  obtain ⟨f, fs, hf, hto⟩ := hs
  refine ⟨fun g hg => ?_, fun hnil => ?_⟩
  · rw [hf, List.head?_cons] at hg
    rw [← Option.some.inj hg]
    exact hto
  · rw [hf] at hnil
    cases hnil

theorem forwards_known (codec : Codec) : Forwards codec Node.Known Node.Calm := by
  intro es w hr n a buf alive w' es' w'' hreceives hcalm hbound hstep hr'
  have hstart : w.Inv ∧ w.Numbered ∧ w.Cached := by
    refine hr.invariant (I := fun w => w.Inv ∧ w.Numbered ∧ w.Cached)
      ⟨inv_node_init, numbered_init,
       ⟨fun _ a h => absurd h.symm (Option.some_ne_none a), trivial⟩⟩ ?_
    rintro s e t ⟨hi, hn, hc⟩ ⟨hknown, hs⟩
    exact ⟨inv_acts hi hs.acts, numbered_acts hi hn hs.acts, cached_acts hi hc hknown hs.acts⟩
  obtain ⟨hi, hn, hc⟩ := hstart
  have hend : w''.Inv ∧ (w''.Expects w.co n a ∨ w''.Served w.co a) := by
    refine hr'.invariant (I := fun v => v.Inv ∧ (v.Expects w.co n a ∨ v.Served w.co a))
      ⟨inv_acts hi hstep.acts, arrival hi hn hc hcalm hbound hreceives hstep⟩ ?_
    rintro s e t ⟨hi, hx⟩ ⟨hbound, hs⟩
    refine ⟨inv_acts hi hs.acts, ?_⟩
    rcases hx with hx | hx
    · exact expects_acts hi hx hbound hs.acts
    · exact Or.inr (served_acts hx hs.acts)
  exact hend.2.elim (Node.Expects.serves hend.1) Node.Served.serves

end XsServer.Cluster
