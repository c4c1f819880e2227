import XsServer.Cluster.Agent

/-! What the steps of an agent and of `clusterd` do to the lookups of names: the coroutines that
wait, the queries and replies that are on their way, and the tables of addresses. -/

namespace XsServer.Cluster

open Lib

variable {codec : Codec} {alive : Address → Bool} {s s' : Agent} {w w' : Node} {x : Waiter}
  {d : Delivery} {co : Nat} {addr : Address} {fs : List Effect} {name : Name}

/-- A coroutine has run without a lookup: what another coroutine sees of the names is the same. -/
structure SameNames (s s' : Agent) (co : Nat) (fs : List Effect) : Prop where
  tables : s'.tables = s.tables
  registerName : s'.registerName = s.registerName
  inqueryName : s'.inqueryName = s.inqueryName
  wakeupQueue : s'.wakeupQueue = s.wakeupQueue
  calls : ∀ co' ≠ co, s'.calls co' = s.calls co'
  queries : fs.filterMap Effect.query = []

theorem writeResponse_query (session : UInt32) (ok : Bool) (msg : List UInt8) :
    (writeResponse session ok msg).filterMap Effect.query = [] := by
  unfold writeResponse
  split
  · rfl
  · rfl
  · rw [List.filterMap_map]
    exact List.filterMap_eq_nil_iff.mpr fun _ _ => rfl

theorem SameNames.refl (s : Agent) (co : Nat) {fs : List Effect}
    (hfs : fs.filterMap Effect.query = []) : SameNames s s co fs :=
  ⟨rfl, rfl, rfl, rfl, fun _ _ => rfl, hfs⟩

theorem SameNames.trans {s'' : Agent} {fs' : List Effect} (h : SameNames s s' co fs)
    (h' : SameNames s' s'' co fs') : SameNames s s'' co fs' where
  tables := h'.tables.trans h.tables
  registerName := h'.registerName.trans h.registerName
  inqueryName := h'.inqueryName.trans h.inqueryName
  wakeupQueue := h'.wakeupQueue.trans h.wakeupQueue
  calls := fun co' hne => (h'.calls co' hne).trans (h.calls co' hne)
  queries := h'.queries

theorem setCall_calls {co' : Nat} (hne : co' ≠ co) (s : Agent) (call : Option Call) :
    (setCall s co call).calls co' = s.calls co' :=
  Function.update_of_ne hne _ _

theorem forward_same (alive : Address → Bool) (s : Agent) (co : Nat) (d : Delivery)
    (addr : Address) :
    SameNames s (forward alive s co d addr).1 co (forward alive s co d addr).2 := by
  unfold forward
  split
  · exact SameNames.refl s co rfl
  · split
    · split
      · exact ⟨rfl, rfl, rfl, rfl, fun _ hne => setCall_calls hne _ _, rfl⟩
      · exact ⟨rfl, rfl, rfl, rfl, fun _ _ => rfl, writeResponse_query ..⟩
    · split
      · exact ⟨rfl, rfl, rfl, rfl, fun _ hne => setCall_calls hne _ _, rfl⟩
      · exact SameNames.refl s co (writeResponse_query ..)

theorem goOn_same (codec : Codec) (alive : Address → Bool) (s : Agent) (x : Waiter)
    (addr : Option UInt32) :
    SameNames s (goOn codec alive s x addr).1 x.co (goOn codec alive s x addr).2 := by
  unfold goOn
  split
  · cases addr with
    | none | some addr => exact SameNames.refl s x.co (writeResponse_query ..)
  · cases addr with
    | none => exact SameNames.refl s x.co (writeResponse_query ..)
    | some addr => exact forward_same ..

def Effect.ForwardsTo (a : UInt32) : Effect → Prop
  | .rawsend addr _ => addr = .number a
  | .tracecall _ addr _ => addr = .number a
  | .rawcall addr _ => addr = .number a
  | _ => False

theorem forward_head (alive : Address → Bool) (s : Agent) (co : Nat) (d : Delivery) (a : UInt32) :
    ∃ f fs, (forward alive s co d (.number a)).2 = f :: fs ∧ f.query = none ∧ f.ForwardsTo a := by
  unfold forward
  split
  · exact ⟨_, _, rfl, rfl, rfl⟩
  · split
    · split <;> exact ⟨_, _, rfl, rfl, rfl⟩
    · split <;> exact ⟨_, _, rfl, rfl, rfl⟩

theorem writeResponse_forwards (session : UInt32) (ok : Bool) (msg : List UInt8) (a : UInt32) :
    ∀ f ∈ writeResponse session ok msg, ¬f.ForwardsTo a := by
  unfold writeResponse
  intro f hf hto
  split at hf
  · cases hf
  · rw [List.mem_singleton.mp hf] at hto
    exact hto
  · obtain ⟨packet, -, rfl⟩ := List.mem_map.mp hf
    exact hto

theorem forward_only (alive : Address → Bool) (s : Agent) (co : Nat) (d : Delivery)
    {a b : UInt32} (hne : a ≠ b) :
    ∀ f ∈ (forward alive s co d (.number a)).2, ¬f.ForwardsTo b := by
  have haddr : Address.number a ≠ .number b := fun h => hne (Address.number.inj h)
  intro f hf hto
  unfold forward at hf
  split at hf
  · rw [List.mem_singleton.mp hf] at hto
    exact haddr hto
  · split at hf
    · split at hf
      · rw [List.mem_singleton.mp hf] at hto
        exact haddr hto
      · rcases List.mem_cons.mp hf with rfl | hf
        · exact haddr hto
        · exact writeResponse_forwards _ _ _ _ f hf hto
    · split at hf
      · rw [List.mem_singleton.mp hf] at hto
        exact haddr hto
      · rcases List.mem_cons.mp hf with rfl | hf
        · exact haddr hto
        · exact writeResponse_forwards _ _ _ _ f hf hto

theorem goOn_head (hx : x.d.addr ≠ some (.number 0)) (codec : Codec) (alive : Address → Bool)
    (s : Agent) (a : UInt32) :
    ∃ f fs, (goOn codec alive s x (some a)).2 = f :: fs ∧ f.query = none ∧ f.ForwardsTo a := by
  rw [goOn, if_neg hx]
  exact forward_head ..

theorem goOn_only {addr : Option UInt32} {b : UInt32} (hne : addr ≠ some b) (codec : Codec)
    (alive : Address → Bool) (s : Agent) (x : Waiter) :
    ∀ f ∈ (goOn codec alive s x addr).2, ¬f.ForwardsTo b := by
  unfold goOn
  split
  · cases addr with
    | none | some addr => exact writeResponse_forwards _ _ _ _
  · cases addr with
    | none => exact writeResponse_forwards _ _ _ _
    | some addr => exact forward_only alive s x.co x.d fun h => hne (congrArg some h)

/-! ### Steps -/

/-- The agent when the reply for a name has woken up the coroutines that wait for it. -/
def replied (s : Agent) (name : Name) (addr : Option UInt32) (q : Inquery) : Agent :=
  let s := match addr with
    | some addr => setTable s q.caller.self name addr
    | none => s
  setInquery { s with wakeupQueue := s.wakeupQueue ++ q.waitco } name none

def Node.replied (w : Node) (name : Name) (addr : Option UInt32) (q : Inquery)
    (rest : List Message) : Node :=
  { w with messages := rest, agent := Cluster.replied w.agent name addr q }

def Node.popped (w : Node) (rest : List Waiter) : Node :=
  { w with agent := { w.agent with wakeupQueue := rest } }

/-- What a step does.  A coroutine runs by itself, it looks up a name, or a lookup ends; or one of
the services does something that no coroutine of the agent takes part in. -/
inductive Node.Acts (codec : Codec) (w : Node) : NodeEvent → Node → Prop
  | runs {e : NodeEvent} {s : Agent} {co n : Nat} {fs : List Effect} : w.agent.wakeupQueue = [] →
      SameNames w.agent s co fs →
      co = w.co ∧ n = w.co + 1 ∨
        w.agent.calls co ≠ none ∧ n = w.co ∧ (∀ f ∈ fs, ∀ a, ¬f.ForwardsTo a) →
      Acts codec w e ({ w with co := n }.ran (s, co, fs))
  | asks {e : NodeEvent} {s : Agent} {x : Waiter} {name : Name} : w.agent.wakeupQueue = [] →
      SameNames w.agent s x.co [] → x.co = w.co → x.self = w.agent.registerName →
      x.name = 64 :: name → w.agent.inqueryName x.name = none →
      Acts codec w e ({ w with co := w.co + 1 }.ran
        (setInquery s x.name (some ⟨x, []⟩), w.co, [.queryname name]))
  | waits {e : NodeEvent} {s : Agent} {x : Waiter} {q : Inquery} : w.agent.wakeupQueue = [] →
      SameNames w.agent s x.co [] → x.co = w.co → x.self = w.agent.registerName →
      w.agent.inqueryName x.name = some q →
      Acts codec w e ({ w with co := w.co + 1 }.ran
        (setInquery s x.name (some { q with waitco := q.waitco ++ [x] }), w.co, []))
  | replied {e : NodeEvent} {alive : Address → Bool} {name : Name} {addr : Option UInt32}
      {rest : List Message} {q : Inquery} : w.agent.wakeupQueue = [] →
      w.messages = .reply name addr :: rest → w.agent.inqueryName (64 :: name) = some q →
      Acts codec w e ((w.replied (64 :: name) addr q rest).ran
        (let r := goOn codec alive (Cluster.replied w.agent (64 :: name) addr q) q.caller addr
        (r.1, q.caller.co, r.2)))
  | woken {e : NodeEvent} {alive : Address → Bool} {x : Waiter} {rest : List Waiter} :
      w.agent.wakeupQueue = x :: rest →
      Acts codec w e ((w.popped rest).ran
        (let r := goOn codec alive { w.agent with wakeupQueue := rest } x
          (w.agent.tables x.self x.name)
        (r.1, x.co, r.2)))
  | changed {e : NodeEvent} {rest : List Message} : w.agent.wakeupQueue = [] →
      w.messages = .namechange :: rest →
      Acts codec w e { w with messages := rest, agent := namechange w.agent }
  | registers (name : Name) (addr : UInt32) :
      Acts codec w (.register name addr)
        { w with clusterd := (register w.clusterd name addr).1
                 messages := w.messages ++ (register w.clusterd name addr).2 }
  | answers {e : NodeEvent} {name : Name} {rest : List Name} : w.queries = name :: rest →
      Acts codec w e { w with queries := rest
                              messages := w.messages ++ [.reply name (w.clusterd.names name)] }
  | launched {e : NodeEvent} :
      Acts codec w e { w with clusterd := { w.clusterd with known := true } }
  | none {e : NodeEvent} : Acts codec w e w

theorem index_acts {name : Name} (e : NodeEvent) (hidle : w.agent.wakeupQueue = [])
    (hs : SameNames w.agent s x.co []) (hco : x.co = w.co) (hself : x.self = s.registerName)
    (hname : x.name = 64 :: name) (codec : Codec) (alive : Address → Bool) :
    w.Acts codec e ({ w with co := w.co + 1 }.ran
      ((index codec alive s x).1, w.co, (index codec alive s x).2)) := by
  have hself' : x.self = w.agent.registerName := hself.trans hs.registerName
  unfold index
  cases htable : s.tables x.self x.name with
  | some addr =>
    have hgo := hs.trans (goOn_same codec alive s x (some addr))
    rw [hco] at hgo
    exact .runs hidle hgo (Or.inl ⟨rfl, rfl⟩)
  | none =>
    cases hquery : s.inqueryName x.name with
    | some q =>
      rw [hs.inqueryName] at hquery
      exact .waits hidle hs hco hself' hquery
    | none =>
      rw [hs.inqueryName] at hquery
      have hdrop : x.name.drop 1 = name := by rw [hname]; rfl
      simp only [hdrop]
      exact .asks hidle hs hco hself' hname hquery

theorem isname_iff {name : Name} (h : isname (.name name) = true) : ∃ n, name = 64 :: n := by
  cases name with
  | nil => cases h
  | cons c n =>
    have hc : c = 64 := Option.some.inj (of_decide_eq_true h)
    exact ⟨n, by rw [hc]⟩

theorem dispatchRequest_acts (e : NodeEvent) (hidle : w.agent.wakeupQueue = []) (codec : Codec)
    (alive : Address → Bool) (u : Unpacked) :
    w.Acts codec e ({ w with co := w.co + 1 }.ran
      ((dispatchRequest codec alive w.agent w.co u).1, w.co,
        (dispatchRequest codec alive w.agent w.co u).2)) := by
  let s : Agent := { w.agent with pieces := (reassemble w.agent.pieces u).1 }
  have hs : SameNames w.agent s w.co [] := ⟨rfl, rfl, rfl, rfl, fun _ _ => rfl, rfl⟩
  have hquiet : ∀ fs, fs.filterMap Effect.query = [] →
      w.Acts codec e ({ w with co := w.co + 1 }.ran (s, w.co, fs)) := fun fs hfs =>
    .runs hidle ⟨rfl, rfl, rfl, rfl, fun _ _ => rfl, hfs⟩ (Or.inl ⟨rfl, rfl⟩)
  have hforward : ∀ d addr, w.Acts codec e ({ w with co := w.co + 1 }.ran
      ((forward alive s w.co d addr).1, w.co, (forward alive s w.co d addr).2)) := fun d addr =>
    .runs hidle (hs.trans (forward_same alive s w.co d addr)) (Or.inl ⟨rfl, rfl⟩)
  unfold dispatchRequest
  simp only
  cases (reassemble w.agent.pieces u).2 with
  | trace | part => exact hquiet [] rfl
  | invalid session => exact hquiet _ (writeResponse_query ..)
  | request d =>
    simp only [dispatchDelivery]
    cases d.addr with
    | none => exact hquiet _ (writeResponse_query ..)
    | some addr =>
      simp only
      split
      · cases hlookup : codec.lookupName d.msg with
        | none => exact hquiet [] rfl
        | some name => exact index_acts e hidle hs rfl rfl rfl codec alive
      · cases addr with
        | number addr => exact hforward d _
        | name name =>
          simp only
          split
          · rename_i hname
            obtain ⟨n, rfl⟩ := isname_iff hname
            exact index_acts e hidle hs rfl rfl rfl codec alive
          · exact hforward d _

theorem Node.Step.acts {e : NodeEvent} (h : w.Step codec e w') : w.Acts codec e w' := by
  unfold Node.Step Node.next at h
  cases e with
  | packet buf alive =>
    simp only at h
    split at h
    · rename_i hidle
      rw [← Option.some.inj h]
      cases unpackrequest buf with
      | none => exact .none
      | some u => exact dispatchRequest_acts _ (List.isEmpty_iff.mp hidle) codec alive u
    · cases h
  | message alive =>
    simp only at h
    split at h
    · rename_i hidle
      have hidle := List.isEmpty_iff.mp hidle
      split at h
      · cases h
      · rename_i rest hmessages
        rw [← Option.some.inj h]
        exact .changed hidle hmessages
      · rename_i name addr rest hmessages
        simp only [reply, Option.map_map] at h
        obtain ⟨q, hq, rfl⟩ := Option.map_eq_some_iff.mp h
        exact .replied hidle hmessages hq
    · cases h
  | wakeup alive =>
    simp only [wakeup] at h
    split at h
    · cases h
    · rename_i x rest hqueue
      rw [← Option.some.inj h]
      exact .woken hqueue
  | answer co ok msg =>
    simp only [answer, Option.map_map] at h
    split at h
    · rename_i hidle
      obtain ⟨c, hc, rfl⟩ := Option.map_eq_some_iff.mp h
      have hsome : w.agent.calls co ≠ none := hc ▸ Option.some_ne_none c
      have hcalls : ∀ co' ≠ co, (setCall w.agent co none).calls co' = w.agent.calls co' :=
        fun _ hne => setCall_calls hne _ _
      have hforwards : ∀ f ∈ writeResponse c.session ok msg, ∀ a, ¬f.ForwardsTo a :=
        fun f hf a => writeResponse_forwards _ _ _ a f hf
      simp only [Function.comp_apply]
      cases c.traced with
      | true | false =>
        exact .runs (List.isEmpty_iff.mp hidle)
          ⟨rfl, rfl, rfl, rfl, hcalls, writeResponse_query ..⟩ (Or.inr ⟨hsome, rfl, hforwards⟩)
    · cases h
  | register name addr =>
    rw [← Option.some.inj h]
    exact .registers name addr
  | query =>
    simp only at h
    split at h
    · cases h
    · rename_i name rest hqueries
      rw [← Option.some.inj h]
      exact .answers hqueries
  | launched =>
    rw [← Option.some.inj h]
    exact .launched

end XsServer.Cluster
