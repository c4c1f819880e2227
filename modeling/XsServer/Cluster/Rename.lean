import XsServer.Cluster.Lookup

/-! The lookups of an agent: every name that is looked up has one query or one reply on its way.
A request whose name keeps its address while the agent looks it up goes there, and after a
`namechange` none goes to the address that the name had before.

The address in the table of the agent is that of the name until a `namechange` is on its way.  A
request that waits for the query of another one gets what that one gets. -/

namespace XsServer.Cluster

open Lib

variable {codec : Codec} {alive : Address → Bool} {s s' : Agent} {w w' : Node} {x : Waiter}
  {co : Nat} {fs : List Effect} {n : Name} {q : Inquery} {rest : List Message} {a : UInt32}

/-! ### Queries and replies -/

def Message.isReply (n : Name) : Message → Bool
  | .reply name _ => name = n
  | .namechange => false

/-- The lookups, and the names of the coroutines that wait for them. -/
structure Node.Inv (w : Node) : Prop where
  asked : ∀ n, w.queries.count n + w.messages.countP (Message.isReply n) =
    if (w.agent.inqueryName (64 :: n)).isSome then 1 else 0
  caller : ∀ name q, w.agent.inqueryName name = some q →
    q.caller.name = name ∧ q.caller.self ≤ w.agent.registerName
  waitco : ∀ name q, w.agent.inqueryName name = some q → ∀ x ∈ q.waitco, x.name = name
  fresh : ∀ k > w.agent.registerName, ∀ name, w.agent.tables k name = none

theorem inv_node_init : Node.init.Inv where
  asked := fun _ => rfl
  caller := fun _ _ h => nomatch h
  waitco := fun _ _ h => nomatch h
  fresh := fun _ _ _ => rfl

theorem Node.Inv.ran (hi : w.Inv) (hs : SameNames w.agent s co fs) : (w.ran (s, co, fs)).Inv := by
  obtain ⟨htables, hregister, hinquery, -, -, hqueries⟩ := hs
  refine ⟨fun n => ?_, fun name q hq => ?_, fun name q hq => ?_, fun k hk name => ?_⟩
  · simp only [Node.ran, hqueries, List.append_nil, hinquery]
    exact hi.asked n
  · simp only [Node.ran, hinquery, hregister] at hq ⊢
    exact hi.caller name q hq
  · simp only [Node.ran, hinquery] at hq
    exact hi.waitco name q hq
  · simp only [Node.ran, htables, hregister] at hk ⊢
    exact hi.fresh k hk name

theorem setInquery_some {name name' : Name} {q q' : Inquery}
    (h : (setInquery s name (some q)).inqueryName name' = some q') :
    name' = name ∧ q' = q ∨ name' ≠ name ∧ s.inqueryName name' = some q' := by
  simp only [setInquery] at h
  by_cases hname : name' = name
  · rw [hname, Function.update_self] at h
    exact Or.inl ⟨hname, (Option.some.inj h).symm⟩
  · rw [Function.update_of_ne hname] at h
    exact Or.inr ⟨hname, h⟩

theorem cons_inj {n n' : Name} : (64 :: n' : Name) = 64 :: n ↔ n' = n :=
  ⟨fun h => (List.cons.inj h).2, fun h => h ▸ rfl⟩

theorem Node.Inv.asks (hi : w.Inv) (hs : SameNames w.agent s x.co [])
    (hself : x.self = w.agent.registerName) (hname : x.name = 64 :: n)
    (hnone : w.agent.inqueryName x.name = none) (k : Nat) :
    ({ w with co := k }.ran (setInquery s x.name (some ⟨x, []⟩), w.co, [.queryname n])).Inv := by
  obtain ⟨htables, hregister, hinquery, -, -, -⟩ := hs
  refine ⟨fun n' => ?_, fun name q hq => ?_, fun name q hq => ?_, fun k hk name => ?_⟩
  · have hasked := hi.asked n'
    simp only [Node.ran, List.filterMap_cons, Effect.query, List.filterMap_nil, List.count_append,
      setInquery, hinquery, hname]
    by_cases heq : n' = n
    · rw [hname] at hnone
      rw [heq] at hasked
      rw [heq, Function.update_self, List.count_singleton_self]
      simp only [hnone, Option.isSome_none, Bool.false_eq_true, if_false] at hasked
      simp only [Option.isSome_some, if_true]
      omega
    · rw [Function.update_of_ne (mt cons_inj.mp heq), List.count_singleton, if_neg, Nat.add_zero]
      · exact hasked
      · simpa using Ne.symm heq
  · rcases setInquery_some hq with ⟨rfl, rfl⟩ | ⟨-, hq⟩
    · exact ⟨rfl, (hself.trans hregister.symm).le⟩
    · rw [hinquery] at hq
      have hcaller := hi.caller name q hq
      rw [← hregister] at hcaller
      exact hcaller
  · rcases setInquery_some hq with ⟨rfl, rfl⟩ | ⟨-, hq⟩
    · intro x hx
      cases hx
    · rw [hinquery] at hq
      exact hi.waitco name q hq
  · simp only [Node.ran, setInquery, htables, hregister] at hk ⊢
    exact hi.fresh k hk name

theorem Node.Inv.waits (hi : w.Inv) (hs : SameNames w.agent s x.co [])
    (hq : w.agent.inqueryName x.name = some q) (k : Nat) :
    ({ w with co := k }.ran
      (setInquery s x.name (some { q with waitco := q.waitco ++ [x] }), w.co, [])).Inv := by
  obtain ⟨htables, hregister, hinquery, -, -, -⟩ := hs
  refine ⟨fun n' => ?_, fun name q' hq' => ?_, fun name q' hq' => ?_, fun k hk name => ?_⟩
  · have hasked := hi.asked n'
    simp only [Node.ran, List.filterMap_nil, List.append_nil, setInquery, hinquery]
    by_cases heq : 64 :: n' = x.name
    · rw [heq, Function.update_self]
      rw [heq, hq] at hasked
      exact hasked
    · rw [Function.update_of_ne heq]
      exact hasked
  · rcases setInquery_some hq' with ⟨rfl, rfl⟩ | ⟨-, hq'⟩
    · have hcaller := hi.caller _ q hq
      rw [← hregister] at hcaller
      exact hcaller
    · rw [hinquery] at hq'
      have hcaller := hi.caller name q' hq'
      rw [← hregister] at hcaller
      exact hcaller
  · rcases setInquery_some hq' with ⟨rfl, rfl⟩ | ⟨-, hq'⟩
    · intro y hy
      rcases List.mem_append.mp hy with hy | hy
      · exact hi.waitco _ q hq y hy
      · rw [List.mem_singleton.mp hy]
    · rw [hinquery] at hq'
      exact hi.waitco name q' hq'
  · simp only [Node.ran, setInquery, htables, hregister] at hk ⊢
    exact hi.fresh k hk name

/-! ### The end of a lookup -/

theorem replied_inqueryName (s : Agent) (name : Name) (addr : Option UInt32) (q : Inquery) :
    (replied s name addr q).inqueryName = Function.update s.inqueryName name none := by
  cases addr <;> rfl

theorem replied_wakeupQueue (s : Agent) (name : Name) (addr : Option UInt32) (q : Inquery) :
    (replied s name addr q).wakeupQueue = s.wakeupQueue ++ q.waitco := by
  cases addr <;> rfl

theorem replied_registerName (s : Agent) (name : Name) (addr : Option UInt32) (q : Inquery) :
    (replied s name addr q).registerName = s.registerName := by
  cases addr <;> rfl

theorem replied_calls (s : Agent) (name : Name) (addr : Option UInt32) (q : Inquery) :
    (replied s name addr q).calls = s.calls := by
  cases addr <;> rfl

theorem replied_tables_ne {name name' : Name} {k : Nat} (s : Agent) (addr : Option UInt32)
    (hne : ¬(k = q.caller.self ∧ name' = name)) :
    (replied s name addr q).tables k name' = s.tables k name' := by
  cases addr with
  | none => rfl
  | some addr =>
    simp only [replied, setInquery, setTable]
    by_cases hk : k = q.caller.self
    · rw [hk, Function.update_self, Function.update_of_ne fun h => hne ⟨hk, h⟩]
    · rw [Function.update_of_ne hk]

theorem replied_tables_self (s : Agent) (name : Name) (addr : UInt32) (q : Inquery) :
    (replied s name (some addr) q).tables q.caller.self name = some addr := by
  simp only [replied, setInquery, setTable, Function.update_self]

theorem Node.Inv.replied (hi : w.Inv) {addr : Option UInt32}
    (hmessages : w.messages = .reply n addr :: rest)
    (hq : w.agent.inqueryName (64 :: n) = some q) :
    (w.replied (64 :: n) addr q rest).Inv := by
  refine ⟨fun n' => ?_, fun name q' hq' => ?_, fun name q' hq' => ?_, fun k hk name => ?_⟩
  · have hasked := hi.asked n'
    rw [hmessages, List.countP_cons] at hasked
    simp only [Node.replied, replied_inqueryName]
    by_cases heq : n' = n
    · rw [heq, hq] at hasked
      simp only [Message.isReply, decide_true, if_true, Option.isSome_some] at hasked
      rw [heq, Function.update_self]
      simp only [Option.isSome_none, Bool.false_eq_true, if_false]
      omega
    · rw [Function.update_of_ne (mt cons_inj.mp heq)]
      simp only [Message.isReply, decide_eq_false (Ne.symm heq), Bool.false_eq_true,
        if_false] at hasked
      exact hasked
  · simp only [Node.replied, replied_inqueryName] at hq'
    by_cases hname : name = 64 :: n
    · rw [hname, Function.update_self] at hq'
      cases hq'
    · rw [Function.update_of_ne hname] at hq'
      simp only [Node.replied, replied_registerName]
      exact hi.caller name q' hq'
  · simp only [Node.replied, replied_inqueryName] at hq'
    by_cases hname : name = 64 :: n
    · rw [hname, Function.update_self] at hq'
      cases hq'
    · rw [Function.update_of_ne hname] at hq'
      exact hi.waitco name q' hq'
  · simp only [Node.replied, replied_registerName] at hk ⊢
    have hself := (hi.caller _ q hq).2
    rw [replied_tables_ne _ _ fun h => absurd (h.1 ▸ hk) (Nat.not_lt.mpr hself)]
    exact hi.fresh k hk name

theorem countP_register (w : Node) (name : Name) (addr : UInt32) (n : Name) :
    (w.messages ++ (register w.clusterd name addr).2).countP (Message.isReply n) =
      w.messages.countP (Message.isReply n) := by
  have hnone : (register w.clusterd name addr).2.countP (Message.isReply n) = 0 := by
    refine List.countP_eq_zero.mpr fun m hm => ?_
    unfold register clearnamecache at hm
    cases m with
    | namechange => exact Bool.false_ne_true
    | reply name addr =>
      split at hm
      · cases hm
      · split at hm
        rename_i heq
        split at heq
        · obtain ⟨-, rfl⟩ := Prod.mk.inj heq
          split at hm
          · cases List.mem_singleton.mp hm
          · cases hm
        · obtain ⟨-, rfl⟩ := Prod.mk.inj heq
          cases hm
  rw [List.countP_append, hnone, Nat.add_zero]

theorem inv_acts {e : NodeEvent} (hi : w.Inv) (h : w.Acts codec e w') : w'.Inv := by
  cases h with
  | @runs _ s co k fs _ hs _ =>
    have hi' : { w with co := k }.Inv := ⟨hi.asked, hi.caller, hi.waitco, hi.fresh⟩
    exact hi'.ran hs
  | asks _ hs _ hself hname hnone => exact hi.asks hs hself hname hnone _
  | waits _ hs _ _ hq => exact hi.waits hs hq _
  | replied _ hmessages hq => exact (hi.replied hmessages hq).ran (goOn_same ..)
  | @woken _ alive x rest hqueue =>
    have hi' : (w.popped rest).Inv := ⟨hi.asked, hi.caller, hi.waitco, hi.fresh⟩
    exact hi'.ran (goOn_same ..)
  | changed _ hmessages =>
    refine ⟨fun n => ?_, fun name q hq => ?_, hi.waitco, fun k hk => ?_⟩
    · have hasked := hi.asked n
      rw [hmessages, List.countP_cons] at hasked
      exact hasked
    · have hcaller := hi.caller name q hq
      exact ⟨hcaller.1, Nat.le_succ_of_le hcaller.2⟩
    · exact hi.fresh k (Nat.lt_of_succ_lt hk)
  | registers name addr =>
    refine ⟨fun n => ?_, hi.caller, hi.waitco, hi.fresh⟩
    have hasked := hi.asked n
    rw [← countP_register w name addr] at hasked
    exact hasked
  | @answers _ name rest hqueries =>
    refine ⟨fun n => ?_, hi.caller, hi.waitco, hi.fresh⟩
    have hasked := hi.asked n
    rw [hqueries, List.count_cons] at hasked
    simp only [List.countP_append, List.countP_singleton, Message.isReply]
    rw [← hasked]
    by_cases heq : name = n
    · simp only [heq, decide_true, beq_self_eq_true, if_true]
      omega
    · simp only [heq, decide_false, Bool.false_eq_true, beq_eq_false_iff_ne.mpr heq, if_false]
      omega
  | launched => exact ⟨hi.asked, hi.caller, hi.waitco, hi.fresh⟩
  | none => exact hi

/-- A packet that is a request or a push to a name, or the last one of it. -/
def Node.Receives (w : Node) (buf : List UInt8) (n : Name) : Prop :=
  ∃ u d, unpackrequest buf = some u ∧ (reassemble w.agent.pieces u).2 = .request d ∧
    d.addr = some (.name (64 :: n))

/-- What a coroutine did after the queries. -/
def Node.outcomes (w : Node) (co : Nat) : List Effect :=
  w.log.filterMap fun e => if e.1 = co ∧ e.2.query = none then some e.2 else none

/-- A coroutine in `__index`. -/
def Agent.Suspended (s : Agent) (x : Waiter) : Prop :=
  (∃ q, s.inqueryName x.name = some q ∧ (x = q.caller ∨ x ∈ q.waitco)) ∨ x ∈ s.wakeupQueue

/-- A request forwards its message first of all to the address; before that it waits for a query
that is on its way, or for the reply with the address, or it is woken up. -/
structure Node.Serves (w : Node) (co : Nat) (n : Name) (a : UInt32) : Prop where
  first : ∀ f, (w.outcomes co).head? = some f → f.ForwardsTo a
  waits : w.outcomes co = [] → ∃ x, w.agent.Suspended x ∧ x.co = co ∧
    (x ∈ w.agent.wakeupQueue ∨ n ∈ w.queries ∨ .reply n (some a) ∈ w.messages)

/-- `clusterd` gives a service another name only when it knows the agent. -/
def Node.Known (w : Node) : NodeEvent → Prop
  | .register name addr =>
    w.clusterd.names name = none → w.clusterd.addrs addr ≠ none → w.clusterd.known = true
  | _ => True

/-- No change of names is on its way to the agent, and a query for the name was started after the
last change and is not yet answered. -/
structure Node.Calm (w : Node) (n : Name) : Prop where
  unchanged : .namechange ∉ w.messages
  caller : ∀ q, w.agent.inqueryName (64 :: n) = some q → q.caller.self = w.agent.registerName
  asked : ∀ q, w.agent.inqueryName (64 :: n) = some q → ∀ addr, .reply n addr ∉ w.messages

def Node.Bound (n : Name) (a : UInt32) (w : Node) (_ : NodeEvent) : Prop :=
  w.clusterd.names n = some a

def Node.Unbound (n : Name) (a : UInt32) (w : Node) (_ : NodeEvent) : Prop :=
  w.clusterd.names n ≠ some a

/-- A request that arrives in a state as in `calm`, after steps as in `ok`, and whose name keeps its
address, is forwarded to it. -/
def Forwards (codec : Codec) (ok : Node → NodeEvent → Prop) (calm : Node → Name → Prop) : Prop :=
  ∀ es w, Run (Guarded ok (Node.Step codec)) .init es w →
    ∀ n a buf alive w' es' w'', w.Receives buf n → calm w n → w.clusterd.names n = some a →
      w.Step codec (.packet buf alive) w' →
      Run (Guarded (Node.Bound n a) (Node.Step codec)) w' es' w'' → w''.Serves w.co n a

/-- When a name was taken from an address and the agent has seen the `namechange` for that, no
request that comes then is forwarded to the address, unless the name is given to it again. -/
def Forgets (codec : Codec) : Prop :=
  ∀ es w, Run (Node.Step codec) .init es w → ∀ n a name addr w1, w.clusterd.known = true →
    w.clusterd.names n = some a → w.Step codec (.register name addr) w1 →
    w1.clusterd.names n ≠ some a → ∀ es1 w2,
    Run (Guarded (Node.Unbound n a) (Node.Step codec)) w1 es1 w2 →
    w1.agent.registerName + w1.messages.count .namechange ≤ w2.agent.registerName →
    ∀ buf alive w3 es3 w4, w2.Receives buf n → w2.clusterd.names n ≠ some a →
      w2.Step codec (.packet buf alive) w3 →
      Run (Guarded (Node.Unbound n a) (Node.Step codec)) w3 es3 w4 →
      ∀ f, (w2.co, f) ∈ w4.log → ¬f.ForwardsTo a

variable {codec : Codec} {alive : Address → Bool} {s s' : Agent} {w w' : Node} {e : NodeEvent}
  {x : Waiter} {co co' : Nat} {fs : List Effect} {n : Name} {q : Inquery} {m : Message}
  {messages rest : List Message} {a : UInt32}

theorem register_names (c : Clusterd) (name : Name) (addr : UInt32) :
    (register c name addr).2 = [] ∧
        (∀ n a, c.names n = some a → (register c name addr).1.names n = some a) ∨
      c.names name = none ∧ c.addrs addr ≠ none ∧
        (register c name addr).2 = clearnamecache c := by
  unfold register
  split
  · exact Or.inl ⟨rfl, fun _ _ h => h⟩
  · rename_i hname
    have hnone : c.names name = none := not_not.mp hname
    cases haddr : c.addrs addr with
    | none =>
      refine Or.inl ⟨rfl, fun n a hn => ?_⟩
      have hne : n ≠ name := by
        rintro rfl
        cases hnone.symm.trans hn
      simp only [Function.update_of_ne hne]
      exact hn
    | some oldName => exact Or.inr ⟨hnone, Option.some_ne_none _, rfl⟩

theorem register_messages (c : Clusterd) (name : Name) (addr : UInt32) :
    ∀ m ∈ (register c name addr).2, m = .namechange := by
  intro m hm
  rcases register_names c name addr with ⟨hnil, -⟩ | ⟨-, -, hclear⟩
  · rw [hnil] at hm
    cases hm
  · rw [hclear, clearnamecache] at hm
    split at hm
    · exact List.mem_singleton.mp hm
    · cases hm

/-- Addresses on their way are those of the names, or a `namechange` follows them. -/
def Current (names : Name → Option UInt32) : List Message → Prop
  | [] => True
  | .reply n (some a) :: rest => (names n = some a ∨ .namechange ∈ rest) ∧ Current names rest
  | _ :: rest => Current names rest

theorem Current.tail {names : Name → Option UInt32} (h : Current names (m :: rest)) :
    Current names rest := by
  match m with
  | .reply n (some a) => exact h.2
  | .reply n none => exact h
  | .namechange => exact h

theorem Current.mono {names names' : Name → Option UInt32}
    (himp : ∀ n a, names n = some a → names' n = some a) (h : Current names messages) :
    Current names' messages := by
  induction messages with
  | nil => trivial
  | cons m rest ih =>
    match m with
    | .reply n (some a) => exact ⟨h.1.imp_left (himp n a), ih h.2⟩
    | .reply n none => exact ih h
    | .namechange => exact ih h

theorem current_namechange (names : Name → Option UInt32) (messages : List Message) :
    Current names (messages ++ [.namechange]) := by
  induction messages with
  | nil => trivial
  | cons m rest ih =>
    match m with
    | .reply n (some a) => exact ⟨Or.inr (List.mem_append_right _ List.mem_cons_self), ih⟩
    | .reply n none => exact ih
    | .namechange => exact ih

theorem Current.reply {names : Name → Option UInt32} (h : Current names messages) (n : Name) :
    Current names (messages ++ [.reply n (names n)]) := by
  induction messages with
  | nil =>
    rw [List.nil_append]
    cases hn : names n with
    | none => trivial
    | some a => exact ⟨Or.inl hn, trivial⟩
  | cons m rest ih =>
    match m with
    | .reply n (some a) => exact ⟨h.1.imp_right (List.mem_append_left _), ih h.2⟩
    | .reply n none => exact ih h
    | .namechange => exact ih h

/-- An address in the table is that of the name, or a `namechange` is on its way. -/
structure Node.Cached (w : Node) : Prop where
  table : ∀ n a, w.agent.tables w.agent.registerName (64 :: n) = some a →
    w.clusterd.names n = some a ∨ .namechange ∈ w.messages
  messages : Current w.clusterd.names w.messages

theorem Node.Cached.ran (hc : w.Cached) (hs : SameNames w.agent s co fs) :
    (w.ran (s, co, fs)).Cached := by
  refine ⟨fun n a ha => ?_, hc.messages⟩
  simp only [Node.ran, hs.tables, hs.registerName] at ha
  exact hc.table n a ha

theorem cached_acts (hi : w.Inv) (hc : w.Cached) (hknown : w.Known e) (h : w.Acts codec e w') :
    w'.Cached := by
  cases h with
  | @runs _ s co k fs _ hs _ =>
    have hc' : { w with co := k }.Cached := ⟨hc.table, hc.messages⟩
    exact hc'.ran hs
  | asks _ hs _ _ _ _ | waits _ hs _ _ _ =>
    refine ⟨fun n a ha => ?_, hc.messages⟩
    simp only [Node.ran, setInquery, hs.tables, hs.registerName] at ha
    exact hc.table n a ha
  | @replied _ alive name addr rest q _ hmessages hq =>
    have hcurrent := hc.messages
    rw [hmessages] at hcurrent
    have hc' : (w.replied (64 :: name) addr q rest).Cached := by
      refine ⟨fun n a ha => ?_, hcurrent.tail⟩
      simp only [Node.replied, replied_registerName] at ha
      by_cases hwritten : w.agent.registerName = q.caller.self ∧ (64 :: n : Name) = 64 :: name
      · obtain ⟨hself, hn⟩ := hwritten
        cases addr with
        | none =>
          have hold := hc.table n a ha
          rw [hmessages] at hold
          exact hold.imp_right fun h => (List.mem_cons.mp h).resolve_left (by simp)
        | some addr =>
          rw [hself, hn, replied_tables_self] at ha
          rw [← cons_inj.mp hn, Option.some.inj ha] at hcurrent
          exact hcurrent.1
      · rw [replied_tables_ne _ _ hwritten] at ha
        have hold := hc.table n a ha
        rw [hmessages] at hold
        exact hold.imp_right fun h => (List.mem_cons.mp h).resolve_left (by simp)
    exact hc'.ran (goOn_same ..)
  | @woken _ alive x rest hqueue =>
    have hc' : (w.popped rest).Cached := ⟨hc.table, hc.messages⟩
    exact hc'.ran (goOn_same ..)
  | changed _ hmessages =>
    have hcurrent := hc.messages
    rw [hmessages] at hcurrent
    refine ⟨fun n a ha => ?_, hcurrent.tail⟩
    have hfresh := hi.fresh _ (Nat.lt_succ_self w.agent.registerName) (64 :: n)
    cases hfresh.symm.trans ha
  | registers name addr =>
    rcases register_names w.clusterd name addr with ⟨hnil, hsame⟩ | ⟨hname, haddr, hclear⟩
    · rw [hnil, List.append_nil]
      exact ⟨fun n a ha => (hc.table n a ha).imp_left (hsame n a), hc.messages.mono hsame⟩
    · rw [hclear, clearnamecache, if_pos (hknown hname haddr)]
      refine ⟨fun n a _ => ?_, current_namechange _ _⟩
      exact Or.inr (List.mem_append_right _ List.mem_cons_self)
  | answers => exact ⟨fun n a ha => (hc.table n a ha).imp_right (List.mem_append_left _),
      hc.messages.reply _⟩
  | launched => exact ⟨hc.table, hc.messages⟩
  | none => exact hc

end XsServer.Cluster
