import XsServer.Cluster.Resolve

/-! What an agent knows after a `namechange`.  A table that was new then has only addresses from
queries that were answered later. -/

namespace XsServer.Cluster

open Lib

variable {codec : Codec} {alive : Address → Bool} {s s' : Agent} {w w' : Node} {e : NodeEvent}
  {x : Waiter} {co co' k g : Nat} {fs : List Effect} {n : Name} {q : Inquery}
  {rest : List Message} {a : UInt32} {buf : List UInt8}

/-- No table from `g` on has the address, and none will get it from a reply. -/
structure Node.Clean (w : Node) (n : Name) (a : UInt32) (g : Nat) : Prop where
  table : ∀ k ≥ g, w.agent.tables k (64 :: n) ≠ some a
  reply : ∀ q, w.agent.inqueryName (64 :: n) = some q → g ≤ q.caller.self →
    .reply n (some a) ∉ w.messages

theorem Node.Clean.ran (hc : w.Clean n a g) (hs : SameNames w.agent s co fs) (k : Nat) :
    ({ w with co := k }.ran (s, co, fs)).Clean n a g := by
  refine ⟨fun k hk => ?_, fun q hq => ?_⟩
  · simp only [Node.ran, hs.tables]
    exact hc.table k hk
  · simp only [Node.ran, hs.inqueryName] at hq
    exact hc.reply q hq

theorem clean_acts (hi : w.Inv) (hc : w.Clean n a g) (hunbound : w.clusterd.names n ≠ some a)
    (h : w.Acts codec e w') : w'.Clean n a g := by
  cases h with
  | runs _ hs _ => exact hc.ran hs _
  | asks _ hs _ _ hname hnone =>
    refine ⟨fun k hk => ?_, fun q hq hself => ?_⟩
    · simp only [Node.ran, setInquery, hs.tables]
      exact hc.table k hk
    · rcases setInquery_some hq with ⟨heq, -⟩ | ⟨-, hq⟩
      · rw [← heq] at hnone
        exact hi.no_reply hnone _
      · rw [hs.inqueryName] at hq
        exact hc.reply q hq hself
  | @waits _ s x q _ hs _ _ hq =>
    refine ⟨fun k hk => ?_, fun q' hq' hself => ?_⟩
    · simp only [Node.ran, setInquery, hs.tables]
      exact hc.table k hk
    · rcases setInquery_some hq' with ⟨heq, rfl⟩ | ⟨-, hq'⟩
      · rw [← heq] at hq
        exact hc.reply q hq hself
      · rw [hs.inqueryName] at hq'
        exact hc.reply q' hq' hself
  | @replied _ alive name addr rest q _ hmessages hq =>
    have hc' : (w.replied (64 :: name) addr q rest).Clean n a g := by
      refine ⟨fun k hk htable => ?_, fun q' hq' hself hmem => ?_⟩
      · simp only [Node.replied] at htable
        by_cases hwritten : k = q.caller.self ∧ (64 :: n : Name) = 64 :: name
        · obtain ⟨rfl, hn⟩ := hwritten
          rw [hn] at htable
          rw [← cons_inj.mp hn] at hq hmessages
          cases addr with
          | none => exact hc.table _ hk (hn ▸ htable)
          | some addr =>
            rw [replied_tables_self] at htable
            apply hc.reply q hq hk
            rw [hmessages, htable]
            exact List.mem_cons_self
        · rw [replied_tables_ne _ _ hwritten] at htable
          exact hc.table k hk htable
      · simp only [Node.replied, replied_inqueryName] at hq'
        by_cases hn : n = name
        · rw [hn, Function.update_self] at hq'
          cases hq'
        · rw [Function.update_of_ne (mt cons_inj.mp hn)] at hq'
          exact hc.reply q' hq' hself (hmessages ▸ List.mem_cons_of_mem _ hmem)
    exact hc'.ran (goOn_same ..) _
  | @woken _ alive x rest hqueue =>
    have hc' : (w.popped rest).Clean n a g := ⟨hc.table, hc.reply⟩
    exact hc'.ran (goOn_same ..) _
  | changed _ hmessages =>
    refine ⟨hc.table, fun q hq hself hmem => hc.reply q hq hself ?_⟩
    rw [hmessages]
    exact List.mem_cons_of_mem _ hmem
  | registers name addr =>
    refine ⟨hc.table, fun q hq hself hmem => hc.reply q hq hself ?_⟩
    refine (List.mem_append.mp hmem).resolve_right fun h => ?_
    cases register_messages _ _ _ _ h
  | @answers _ name rest hqueries =>
    refine ⟨hc.table, fun q hq hself hmem => hc.reply q hq hself ?_⟩
    refine (List.mem_append.mp hmem).resolve_right fun h => hunbound ?_
    obtain ⟨rfl, haddr⟩ := Message.reply.inj (List.mem_singleton.mp h)
    exact haddr.symm
  | launched => exact ⟨hc.table, hc.reply⟩
  | none => exact hc

/-- The coroutine of a request has indexed a table from `g` on. -/
structure Node.Avoids (w : Node) (co : Nat) (n : Name) (a : UInt32) (g : Nat) : Prop where
  old : co < w.co
  self : ∀ x, w.agent.Suspended x → x.co = co → x.name = 64 :: n ∧ g ≤ x.self
  log : ∀ f, (co, f) ∈ w.log → ¬f.ForwardsTo a

theorem mem_ran_pair {f : Effect} (h : (co, f) ∈ (w.ran (s, co', fs)).log) :
    (co, f) ∈ w.log ∨ co = co' ∧ f ∈ fs := by
  rcases List.mem_append.mp h with h | h
  · exact Or.inl h
  · obtain ⟨g, hg, heq⟩ := List.mem_map.mp h
    obtain ⟨hco, rfl⟩ := Prod.mk.inj heq
    exact Or.inr ⟨hco.symm, hg⟩

theorem Node.Avoids.ran (hv : w.Avoids co n a g) (hs : SameNames w.agent s co' fs)
    (hfs : co = co' → ∀ f ∈ fs, ¬f.ForwardsTo a) (hk : w.co ≤ k) :
    ({ w with co := k }.ran (s, co', fs)).Avoids co n a g := by
  refine ⟨Nat.lt_of_lt_of_le hv.old hk, fun x hx => hv.self x (hs.suspended.mp hx), fun f hf => ?_⟩
  rcases mem_ran_pair hf with hf | ⟨hco, hf⟩
  · exact hv.log f hf
  · exact hfs hco f hf

theorem avoids_acts (hi : w.Inv) (hc : w.Clean n a g) (hv : w.Avoids co n a g)
    (h : w.Acts codec e w') : w'.Avoids co n a g := by
  have hold : co ≠ w.co := hv.old.ne
  cases h with
  | runs _ hs hco =>
    rcases hco with ⟨rfl, rfl⟩ | ⟨-, rfl, hfs⟩
    · exact hv.ran hs (fun h => absurd h hold) (Nat.le_succ _)
    · exact hv.ran hs (fun _ f hf => hfs f hf a) le_rfl
  | asks _ hs hco _ _ _ =>
    refine ⟨Nat.lt_succ_of_lt hv.old, fun y hy hyco => ?_, fun f hf => ?_⟩
    · rcases suspended_asks hy with hy | rfl
      · exact hv.self y (hs.suspended.mp hy) hyco
      · exact absurd (hyco.symm.trans hco) hold
    · exact hv.log f ((mem_ran_pair hf).resolve_right fun h => hold h.1)
  | waits _ hs hco _ hq =>
    rw [← hs.inqueryName] at hq
    refine ⟨Nat.lt_succ_of_lt hv.old, fun y hy hyco => ?_, fun f hf => ?_⟩
    · rcases suspended_waits hq hy with hy | rfl
      · exact hv.self y (hs.suspended.mp hy) hyco
      · exact absurd (hyco.symm.trans hco) hold
    · exact hv.log f ((mem_ran_pair hf).resolve_right fun h => hold h.1)
  | @replied _ alive name addr rest q _ hmessages hq =>
    have hv' : (w.replied (64 :: name) addr q rest).Avoids co n a g :=
      ⟨hv.old, fun y hy => hv.self y (suspended_replied hi hq hy), hv.log⟩
    refine hv'.ran (goOn_same ..) (fun hco => ?_) le_rfl
    have hname := (hi.caller _ q hq).1
    obtain ⟨hname', hself⟩ := hv.self q.caller (Or.inl ⟨q, hname ▸ hq, Or.inl rfl⟩) hco.symm
    rw [cons_inj.mp (hname.symm.trans hname')] at hq hmessages
    apply goOn_only
    rintro rfl
    apply hc.reply q hq hself
    rw [hmessages]
    exact List.mem_cons_self
  | @woken _ alive x rest hqueue =>
    have hv' : (w.popped rest).Avoids co n a g :=
      ⟨hv.old, fun y hy => hv.self y (suspended_woken hqueue hy), hv.log⟩
    refine hv'.ran (goOn_same ..) (fun hco => ?_) le_rfl
    obtain ⟨hname, hself⟩ := hv.self x (Or.inr (hqueue ▸ List.mem_cons_self)) hco.symm
    apply goOn_only
    rw [hname]
    exact hc.table x.self hself
  | changed | registers | answers | launched => exact ⟨hv.old, hv.self, hv.log⟩
  | none => exact hv

/-! ### Runs -/

theorem avoids_arrival (hn : w.Numbered) (hc : w.Clean n a w.agent.registerName)
    (hr : w.Receives buf n) (hs : w.Step codec (.packet buf alive) w') :
    w'.Avoids w.co n a w.agent.registerName := by
  obtain ⟨-, s, x, hsame, -, hco, hself, hname, -, rfl⟩ := receives_index hr hs
  have hmine : ∀ y, w.agent.Suspended y ∨ y = x → y.co = w.co →
      y.name = 64 :: n ∧ w.agent.registerName ≤ y.self := by
    rintro y (hy | rfl) hyco
    · exact absurd hyco (hn.suspended y hy).ne
    · exact ⟨hname, hself.ge⟩
  have hnew : ∀ f, (w.co, f) ∉ w.log := fun f hf => lt_irrefl _ (hn.log _ hf)
  refine ⟨Nat.lt_succ_self _, fun y hy => hmine y ?_, fun f hf => ?_⟩
  · simp only [Node.ran] at hy
    unfold index at hy
    split at hy
    · exact Or.inl (hsame.suspended.mp ((goOn_same ..).suspended.mp hy))
    · split at hy
      · rename_i q hq
        exact (suspended_waits hq hy).imp_left hsame.suspended.mp
      · exact (suspended_asks hy).imp_left hsame.suspended.mp
  · have hf := ((mem_ran_pair hf).resolve_left (hnew f)).2
    unfold index at hf
    split at hf
    · rename_i b htable
      rw [hsame.tables, hself, hname] at htable
      refine goOn_only (fun h => ?_) codec alive s x f hf
      exact hc.table _ le_rfl (htable.trans h)
    · split at hf
      · cases hf
      · rw [List.mem_singleton.mp hf]
        exact not_false

theorem forgets (codec : Codec) : Forgets codec := by
  intro es w hr n a name addr w1 hknown hbefore hregister hafter es1 w2 hr1 hseen buf alive w3 es3
    w4 hreceives hunbound hstep hr3 f hf
  have hstart : w.Inv ∧ w.Numbered := by
    refine hr.invariant (I := fun w => w.Inv ∧ w.Numbered) ⟨inv_node_init, numbered_init⟩ ?_
    rintro s e t ⟨hi, hn⟩ hs
    exact ⟨inv_acts hi hs.acts, numbered_acts hi hn hs.acts⟩
  have hi1 := inv_acts hstart.1 hregister.acts
  have hn1 := numbered_acts hstart.1 hstart.2 hregister.acts
  have hclean : ∀ g, w1.agent.registerName < g → w1.Clean n a g := by
    refine fun g hg => ⟨fun k hk htable => ?_, fun q hq hself => ?_⟩
    · rw [hi1.fresh k (Nat.lt_of_lt_of_le hg hk)] at htable
      cases htable
    · exact absurd (Nat.lt_of_lt_of_le hg hself) (Nat.not_lt.mpr (hi1.caller _ q hq).2)
  have hsent : 0 < w1.messages.count .namechange := by
    unfold Node.Step Node.next at hregister
    rw [← Option.some.inj hregister] at hafter ⊢
    rcases register_names w.clusterd name addr with ⟨-, hsame⟩ | ⟨-, -, hclear⟩
    · exact absurd (hsame n a hbefore) hafter
    · simp only [hclear, clearnamecache, if_pos hknown]
      exact List.count_pos_iff.mpr (List.mem_append_right _ List.mem_cons_self)
  have hmiddle : w2.Inv ∧ w2.Numbered ∧ w2.Clean n a w2.agent.registerName := by
    refine hr1.invariant (I := fun v => v.Inv ∧ v.Numbered ∧ v.Clean n a w2.agent.registerName)
      ⟨hi1, hn1, hclean _ (by omega)⟩ ?_
    rintro s e t ⟨hi, hn, hc⟩ ⟨hunbound, hs⟩
    exact ⟨inv_acts hi hs.acts, numbered_acts hi hn hs.acts, clean_acts hi hc hunbound hs.acts⟩
  obtain ⟨hi2, hn2, hc2⟩ := hmiddle
  have hend : w4.Inv ∧ w4.Clean n a w2.agent.registerName ∧
      w4.Avoids w2.co n a w2.agent.registerName := by
    refine hr3.invariant (I := fun v => v.Inv ∧ v.Clean n a w2.agent.registerName ∧
      v.Avoids w2.co n a w2.agent.registerName)
      ⟨inv_acts hi2 hstep.acts, clean_acts hi2 hc2 hunbound hstep.acts,
        avoids_arrival hn2 hc2 hreceives hstep⟩ ?_
    rintro s e t ⟨hi, hc, hv⟩ ⟨hunbound, hs⟩
    exact ⟨inv_acts hi hs.acts, clean_acts hi hc hunbound hs.acts, avoids_acts hi hc hv hs.acts⟩
  exact hend.2.2.log f hf

/-- A request for a name that keeps its address is forwarded to it, if it arrives when no change of
names is on its way and waits at most for a query that is still unanswered and in the same table;
and after a `namechange` no request is forwarded to an address that the name has lost. -/
theorem cluster_names (codec : Codec) :
    Forwards codec Node.Known Node.Calm ∧ Forgets codec :=
  ⟨forwards_known codec, forgets codec⟩

/-- The node after an event that can happen. -/
def Node.after (codec : Codec) (w : Node) (e : NodeEvent) : Node := (w.next codec e).getD w

/-- No messages with addresses. -/
def bare : Codec := ⟨fun _ => none, fun _ => []⟩

def ask (session : UInt8) : List UInt8 := [0x80, 2, 64, 97, session, 0, 0, 0, 7]

def allAlive : Address → Bool := fun _ => true

def asked : Node :=
  [.launched, .register [97] 1, .packet (ask 1) allAlive].foldl (Node.after bare) .init

/-- The second one has joined it, and both are answered. -/
def joined : Node :=
  [.packet (ask 2) allAlive, .query, .message allAlive, .wakeup allAlive].foldl (Node.after bare)
    asked

/-- The service has another name, and a third request comes. -/
def renamed : Node :=
  [.register [98] 1, .message allAlive, .packet (ask 3) allAlive].foldl (Node.after bare) joined

theorem run_asked : Run (Guarded Node.Known (Node.Step bare)) .init
    [.launched, .register [97] 1, .packet (ask 1) allAlive] asked := by
  apply Run.cons ⟨trivial, rfl⟩
  apply Run.cons ⟨fun _ hold => absurd rfl hold, rfl⟩
  exact Run.single ⟨trivial, rfl⟩

theorem run_joined : Run (Guarded (Node.Bound [97] 1) (Node.Step bare))
    (asked.after bare (.packet (ask 2) allAlive))
    [.query, .message allAlive, .wakeup allAlive] joined := by
  apply Run.cons ⟨rfl, rfl⟩
  apply Run.cons ⟨rfl, rfl⟩
  exact Run.single ⟨rfl, rfl⟩

theorem asked_calm : asked.Calm [97] := by
  refine ⟨List.not_mem_nil, fun q hq => ?_, fun _ _ _ => List.not_mem_nil⟩
  cases hq
  rfl

theorem run_init_joined : Run (Node.Step bare) .init
    [.launched, .register [97] 1, .packet (ask 1) allAlive, .packet (ask 2) allAlive, .query,
      .message allAlive, .wakeup allAlive] joined :=
  (run_asked.mono fun _ _ _ h => h.2).trans (Run.cons rfl (run_joined.mono fun _ _ _ h => h.2))

/-- The second request joins the query of the first one, and both go to the service 1; the third
one, after the `namechange`, does not. -/
theorem cluster_names_joined :
    joined.log = [(0, .queryname [97]), (0, .rawcall (.number 1) [7]),
      (1, .rawcall (.number 1) [7])] ∧
    joined.Serves 1 [97] 1 ∧
    Run (Node.Step bare) .init
      [.launched, .register [97] 1, .packet (ask 1) allAlive, .packet (ask 2) allAlive, .query,
        .message allAlive, .wakeup allAlive] joined ∧
    ∀ f, (2, f) ∈ renamed.log → ¬f.ForwardsTo 1 := by
  have hserves := (cluster_names bare).1 _ asked run_asked [97] 1 (ask 2) allAlive _ _ joined
    ⟨_, ⟨some (.name [64, 97]), 2, [7], false⟩, rfl, rfl, rfl⟩ asked_calm rfl rfl run_joined
  have hlost : ∀ w : Node, w.clusterd.names [97] = none → w.clusterd.names [97] ≠ some 1 :=
    fun w h => by rw [h]; exact nofun
  let w1 := joined.after bare (.register [98] 1)
  let w2 := w1.after bare (.message allAlive)
  have hseen : w2.agent.registerName = 1 ∧ w1.agent.registerName = 0 ∧
      w1.messages = [.namechange] := ⟨rfl, rfl, rfl⟩
  have hafter : w1.agent.registerName + w1.messages.count .namechange ≤ w2.agent.registerName := by
    obtain ⟨h2, h1, hmessages⟩ := hseen
    rw [h2, h1, hmessages]
    decide
  have hforgets := (cluster_names bare).2 _ joined run_init_joined [97] 1 [98] 1 w1 rfl rfl rfl
    (hlost w1 rfl) [.message allAlive] w2 (Run.single ⟨hlost w1 rfl, rfl⟩) hafter (ask 3) allAlive
    renamed [] renamed
  refine ⟨rfl, hserves, run_init_joined, ?_⟩
  exact hforgets ⟨_, ⟨some (.name [64, 97]), 3, [7], false⟩, rfl, rfl, rfl⟩ (hlost w2 rfl) rfl
    (Run.nil renamed)

/-- The service 1 loses the name "a" and the service 2 gets it; a request to "a" that comes before
the `namechange` goes to 1. -/
theorem stale_address : ¬∀ codec,
    Forwards codec (fun _ _ => True) (fun _ _ => True) ∧ Forgets codec := by
  intro hall
  let alive : Address → Bool := fun _ => true
  let w1 := Node.init.after bare .launched
  let w2 := w1.after bare (.register [97] 1)
  let w3 := w2.after bare (.packet (ask 1) alive)
  let w4 := w3.after bare .query
  let w5 := w4.after bare (.message alive)
  let w6 := w5.after bare (.register [98] 1)
  let w7 := w6.after bare (.register [97] 2)
  let w8 := w7.after bare (.packet (ask 2) alive)
  have hr : Run (Guarded (fun _ _ => True) (Node.Step bare)) .init
      [.launched, .register [97] 1, .packet (ask 1) alive, .query, .message alive,
        .register [98] 1, .register [97] 2] w7 := by
    apply Run.cons (t := w1) ⟨trivial, rfl⟩
    apply Run.cons (t := w2) ⟨trivial, rfl⟩
    apply Run.cons (t := w3) ⟨trivial, rfl⟩
    apply Run.cons (t := w4) ⟨trivial, rfl⟩
    apply Run.cons (t := w5) ⟨trivial, rfl⟩
    apply Run.cons (t := w6) ⟨trivial, rfl⟩
    exact Run.single ⟨trivial, rfl⟩
  have hreceives : w7.Receives (ask 2) [97] :=
    ⟨_, ⟨some (.name [64, 97]), 2, [7], false⟩, rfl, rfl, rfl⟩
  have hserves := (hall bare).1 _ w7 hr [97] 2 (ask 2) alive w8 [] w8 hreceives trivial rfl rfl
    (Run.nil w8)
  have haddr : Address.number 1 = .number 2 := hserves.first (.rawcall (.number 1) [7]) rfl
  cases haddr

end XsServer.Cluster
