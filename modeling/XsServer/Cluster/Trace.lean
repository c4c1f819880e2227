import XsServer.Cluster.Forget

/-! Trace tags of requests.  The tag of the last trace packet is in one variable, which a traced
call clears when it is answered: a request that is dispatched before that gets the tag of the call,
and the tag of a request that is dispatched later is cleared too early.  The order of the packets,
of the lookups that end and of the answers decides which of the calls have their own tags. -/

namespace XsServer.Cluster

open Lib

def packtrace (tag : List UInt8) : Option (List UInt8) :=
  if tag.length > 0x8000 then none else pushPacket (tag.length + 1) ([4] ++ tag)

/-- The tags as they should be: that of a trace packet until the next packet, those of the large
requests that have begun, by their sessions, and those of the coroutines.  And what is left by the
last packet, or by the end of a call, at any time and when a large request began. -/
structure Tags where
  pending : Option Address
  begun : UInt32 → Option (Option Address)
  own : Nat → Option Address
  last : Option Address
  taken : UInt32 → Option (Option Address)

def Tags.init : Tags := ⟨none, fun _ => none, fun _ => none, none, fun _ => none⟩

/-- A request has the tag of the trace packet before its first packet. -/
def Tags.next (t : Tags) (co : Nat) (u : Unpacked) : Tags :=
  match u.session with
  | none => { t with pending := u.addr }
  | some session =>
    let tag := (t.begun session).getD t.pending
    if u.padding then
      { t with pending := none, begun := Function.update t.begun session (some tag) }
    else
      { t with
        pending := none
        begun := Function.update t.begun session none
        own := Function.update t.own co tag }

/-- A trace packet leaves its tag, and the last packet of a large request what was left when its
first one came.  Any other part leaves nothing, and neither does a request without a message. -/
def Tags.leave (t : Tags) (u : Unpacked) (arrival : Arrival) : Tags :=
  match u.session, arrival with
  | none, _ => { t with last := u.addr }
  | some session, .part =>
    { t with
      last := none
      taken := Function.update t.taken session (some ((t.taken session).getD t.last)) }
  | some session, .request _ =>
    { t with
      last := (t.taken session).getD t.last
      taken := Function.update t.taken session none }
  | some session, _ => { t with last := none, taken := Function.update t.taken session none }

/-- The end of a call with a tag leaves nothing. -/
def Tags.finish (t : Tags) (co : Nat) : Tags :=
  if t.own co = none then t else { t with last := none }

/-- A call ends at once, if its service is not found. -/
def Tags.call (t : Tags) : Option (Nat × Bool) → Tags
  | some (co, false) => t.finish co
  | _ => t

/-- Whether a request finds the service that it calls; a push calls none. -/
def Delivery.finds (alive : Address → Bool) (d : Delivery) (addr : Address) : Option Bool :=
  if d.isPush then none else some (alive addr)

/-- A request whose lookup has ended. -/
def Waiter.finds (alive : Address → Bool) (x : Waiter) (addr : Option UInt32) : Option Bool :=
  if x.d.addr = some (.number 0) then none
  else addr.bind fun addr => x.d.finds alive (.number addr)

/-- A request that has just arrived; it may have to look up its name first. -/
def Agent.finds (alive : Address → Bool) (s : Agent) (d : Delivery) : Option Bool :=
  match d.addr with
  | none => none
  | some (.number addr) => if addr = 0 then none else d.finds alive (.number addr)
  | some (.name name) =>
    if isname (.name name) then
      (s.tables s.registerName name).bind fun addr => d.finds alive (.number addr)
    else d.finds alive (.name name)

/-- The coroutine that comes to its call, and whether it finds the service. -/
def Node.calling (w : Node) : NodeEvent → Option (Nat × Bool)
  | .packet buf alive =>
    (unpackrequest buf).bind fun u =>
      match (reassemble w.agent.pieces u).2 with
      | .request d => (w.agent.finds alive d).map (w.co, ·)
      | _ => none
  | .message alive =>
    match w.messages with
    | .reply name addr :: _ =>
      (w.agent.inqueryName (64 :: name)).bind fun q =>
        (q.caller.finds alive addr).map (q.caller.co, ·)
    | _ => none
  | .wakeup alive =>
    match w.agent.wakeupQueue with
    | x :: _ => (x.finds alive (w.agent.tables x.self x.name)).map (x.co, ·)
    | [] => none
  | _ => none

structure Traced where
  node : Node
  tags : Tags

def Traced.init : Traced := ⟨.init, .init⟩

def Traced.arrive (w : Traced) : NodeEvent → Tags
  | .packet buf _ =>
    match unpackrequest buf with
    | some u => (w.tags.next w.node.co u).leave u (reassemble w.node.agent.pieces u).2
    | none => w.tags
  | _ => w.tags

def Traced.nextTags (w : Traced) : NodeEvent → Tags
  | .answer co _ _ => w.tags.finish co
  | e => (w.arrive e).call (w.node.calling e)

inductive Traced.Step (codec : Codec) : Traced → NodeEvent → Traced → Prop
  | mk {w : Traced} {e : NodeEvent} {node : Node} : w.node.Step codec e node →
      Step codec w e ⟨node, w.nextTags e⟩

/-- The first packet of a request, or its only one. -/
def Traced.Begins (w : Traced) (u : Unpacked) : Prop :=
  ∃ session, u.session = some session ∧ w.tags.begun session = none

/-- A trace packet is followed by the first packet of its request. -/
def Traced.Orderly (w : Traced) : NodeEvent → Prop
  | .packet buf _ => w.tags.pending ≠ none → ∃ u, unpackrequest buf = some u ∧ w.Begins u
  | _ => True

def Effect.Carries (tag : Option Address) : Effect → Prop
  | .tracecall t _ _ => tag = some t
  | .rawcall _ _ => tag = none
  | _ => True

def Traced.Sticks (w : Traced) : Prop := ∀ co f, (co, f) ∈ w.node.log → f.Carries (w.tags.own co)

/-- What was left last when a request comes to its call is the tag of the request. -/
def Traced.Kept (w : Traced) (e : NodeEvent) : Prop :=
  ∀ co found, w.node.calling e = some (co, found) → (w.arrive e).last = (w.arrive e).own co

variable {codec : Codec} {alive : Address → Bool} {s s' : Agent} {w w' : Traced} {e : NodeEvent}
  {x : Waiter} {co : Nat} {fs : List Effect} {d : Delivery} {tag : Option Address} {t : Tags}
  {addr : Address} {found : Option Bool}

theorem unpack_packtrace {tag packet : List UInt8} (h : packtrace tag = some packet) :
    unpackrequest (packet.drop 2) = some ⟨some (.name tag), none, none, 0, false, false⟩ := by
  unfold packtrace at h
  split at h
  · cases h
  · rename_i hlen
    obtain ⟨p, hp, hdrop, -⟩ := @pushPacket_some (tag.length + 1) ([4] ++ tag)
      (by rw [List.length_append, List.length_singleton, Nat.add_comm])
      (by unfold TEMP_LENGTH; omega)
    rw [← Option.some.inj (hp.symm.trans h), hdrop]
    rfl

theorem writeResponse_carries (session : UInt32) (ok : Bool) (msg : List UInt8)
    (tag : Option Address) : ∀ f ∈ writeResponse session ok msg, f.Carries tag := by
  intro f hf
  unfold writeResponse at hf
  split at hf
  · cases hf
  · rw [List.mem_singleton.mp hf]
    trivial
  · obtain ⟨packet, -, rfl⟩ := List.mem_map.mp hf
    trivial

/-- What a coroutine does until it is suspended or ends: it may come to its call. -/
inductive Does (s : Agent) (co : Nat) : Option Bool → Agent × List Effect → Prop
  | rest {s' : Agent} {fs : List Effect} (hpieces : s'.pieces = s.pieces)
      (hcalls : s'.calls = s.calls) (hcarries : ∀ tag, ∀ f ∈ fs, f.Carries tag) :
      Does s co none (s', fs)
  | found {f : Effect} {c : Call} (hf : ∀ tag, f.Carries tag ↔ s.pieces.tracetag = tag)
      (hc : c.traced = s.pieces.tracetag.isSome) :
        Does s co (some true) (setCall s co (some c), [f])
  | lost {f : Effect} {fs : List Effect} (hf : ∀ tag, f.Carries tag ↔ s.pieces.tracetag = tag)
      (hcarries : ∀ tag, ∀ f ∈ fs, f.Carries tag) :
      Does s co (some false) (setTracetag s none, f :: fs)

theorem forward_does (alive : Address → Bool) (s : Agent) (co : Nat) (d : Delivery)
    (addr : Address) :
    Does s co (d.finds alive addr) (forward alive s co d addr) := by
  unfold forward Delivery.finds
  split
  · exact .rest rfl rfl fun _ => List.forall_mem_singleton.mpr trivial
  · split
    · rename_i t ht
      have hf : ∀ tag, (Effect.tracecall t addr d.msg).Carries tag ↔ s.pieces.tracetag = tag :=
        fun tag => by
          rw [ht]
          exact eq_comm
      split
      · rename_i halive
        rw [halive]
        exact .found hf (by rw [ht]; rfl)
      · rename_i halive
        rw [Bool.eq_false_of_not_eq_true halive]
        exact .lost hf (writeResponse_carries _ _ _)
    · rename_i ht
      have hf : ∀ tag, (Effect.rawcall addr d.msg).Carries tag ↔ s.pieces.tracetag = tag :=
        fun tag => by
          rw [ht]
          exact eq_comm
      split
      · rename_i halive
        rw [halive]
        exact .found hf (by rw [ht]; rfl)
      · rename_i halive
        rw [Bool.eq_false_of_not_eq_true halive]
        have hsame : setTracetag s none = s := by
          unfold setTracetag
          rw [← ht]
        have hlost := @Does.lost s co _ _ hf
          (writeResponse_carries d.session false "call to invalid address".toUTF8.toList)
        rwa [hsame] at hlost

theorem goOn_does (codec : Codec) (alive : Address → Bool) (s : Agent) (x : Waiter)
    (addr : Option UInt32) : Does s x.co (x.finds alive addr) (goOn codec alive s x addr) := by
  unfold goOn Waiter.finds
  split
  · cases addr with
    | none | some addr => exact .rest rfl rfl (writeResponse_carries _ _ _)
  · cases addr with
    | none => exact .rest rfl rfl (writeResponse_carries _ _ _)
    | some addr => exact forward_does alive s x.co x.d _

theorem index_does (codec : Codec) (alive : Address → Bool) (s : Agent) (x : Waiter) :
    Does s x.co (x.finds alive (s.tables x.self x.name)) (index codec alive s x) := by
  unfold index
  split
  · rename_i addr htable
    rw [htable]
    exact goOn_does codec alive s x _
  · rename_i htable
    have hnone : x.finds alive (s.tables x.self x.name) = none := by
      unfold Waiter.finds
      rw [htable]
      exact ite_self _
    rw [hnone]
    split
    · exact .rest rfl rfl fun _ _ hf => absurd hf List.not_mem_nil
    · exact .rest rfl rfl fun _ => List.forall_mem_singleton.mpr trivial

theorem dispatchDelivery_does (codec : Codec) (alive : Address → Bool) (s : Agent) (co : Nat)
    (d : Delivery) : Does s co (s.finds alive d) (dispatchDelivery codec alive s co d) := by
  have hlookup : ∀ name : Name, d.addr = some (.number 0) →
      Does s co none (index codec alive s ⟨co, s.registerName, name, d⟩) := by
    intro name haddr
    have hdoes := index_does codec alive s ⟨co, s.registerName, name, d⟩
    unfold Waiter.finds at hdoes
    rwa [if_pos haddr] at hdoes
  unfold dispatchDelivery Agent.finds
  cases haddr : d.addr with
  | none => exact .rest rfl rfl (writeResponse_carries _ _ _)
  | some addr =>
    cases addr with
    | number addr =>
      simp only [Address.number.injEq]
      split
      · rename_i hzero
        cases codec.lookupName d.msg with
        | none => exact .rest rfl rfl fun _ _ hf => absurd hf List.not_mem_nil
        | some name => exact hlookup _ (hzero ▸ haddr)
      · exact forward_does alive s co d _
    | name name =>
      simp only [reduceCtorEq, if_false]
      split
      · have hdoes := index_does codec alive s ⟨co, s.registerName, name, d⟩
        unfold Waiter.finds at hdoes
        rwa [if_neg (by rw [haddr]; exact fun hbad => by cases hbad)] at hdoes
      · exact forward_does alive s co d _

/-! ### The variable -/

/-- The variable, and those in `large_request`, are what was left last. -/
structure Mirrors (p : Pieces) (t : Tags) : Prop where
  tracetag : p.tracetag = t.last
  taken : ∀ session, (p.largeRequest session).map Req.tracetag = t.taken session

theorem Mirrors.update {p : Pieces} (h : Mirrors p t) (session : UInt32) {req : Option Req}
    {tag : Option (Option Address)} {tracetag : Option Address}
    (hreq : req.map Req.tracetag = tag) :
    Mirrors ⟨Function.update p.largeRequest session req, tracetag⟩
      { t with last := tracetag, taken := Function.update t.taken session tag } := by
  refine ⟨rfl, fun session' => ?_⟩
  by_cases heq : session' = session
  · simp only [heq, Function.update_self]
    exact hreq
  · simp only [Function.update_of_ne heq]
    exact h.taken session'

theorem reassemble_mirrors {p : Pieces} (h : Mirrors p t) (u : Unpacked) :
    Mirrors (reassemble p u).1 (t.leave u (reassemble p u).2) := by
  unfold reassemble Tags.leave
  cases u.session with
  | none => exact ⟨rfl, h.taken⟩
  | some session =>
    have htaken := h.taken session
    simp only
    split
    · refine h.update session ?_
      rw [← htaken, ← h.tracetag]
      cases p.largeRequest session <;> rfl
    · cases hreq : p.largeRequest session with
      | some req =>
        rw [hreq] at htaken
        simp only
        cases concat (req.items ++ [item u.msg u.sz]) with
        | some msg =>
          simp only [← htaken, Option.map_some, Option.getD_some]
          exact h.update session rfl
        | none => exact h.update session rfl
      | none =>
        rw [hreq] at htaken
        have hsame : Function.update p.largeRequest session none = p.largeRequest := by
          rw [← hreq, Function.update_eq_self]
        simp only
        cases u.msg with
        | some msg =>
          have hnext := @Mirrors.update _ _ h session none none p.tracetag rfl
          simp only [← htaken, Option.map_none, Option.getD_none, ← h.tracetag]
          rwa [hsame] at hnext
        | none =>
          have hnext := @Mirrors.update _ _ h session none none none rfl
          rwa [hsame] at hnext

/-- The calls that are not answered are sent with a tag, if their requests have one. -/
def Sent (s : Agent) (t : Tags) : Prop := ∀ co c, s.calls co = some c → c.traced = (t.own co).isSome

theorem finish_own (t : Tags) (co : Nat) : (t.finish co).own = t.own := by
  unfold Tags.finish
  split <;> rfl

theorem call_own (t : Tags) (found : Option (Nat × Bool)) : (t.call found).own = t.own := by
  unfold Tags.call
  split
  · exact finish_own t _
  · rfl

theorem Mirrors.finish {p : Pieces} (h : Mirrors p t)
    (hclear : t.own co = none → p.tracetag = none) :
    Mirrors { p with tracetag := none } (t.finish co) := by
  unfold Tags.finish
  split
  · rename_i hown
    exact ⟨(hclear hown).symm.trans h.tracetag, h.taken⟩
  · exact ⟨rfl, h.taken⟩

theorem Does.carries_iff {r : Agent × List Effect} (h : Does s co found r)
    (hm : Mirrors s.pieces t) :
    (∀ f ∈ r.2, f.Carries (t.own co)) ↔ (found ≠ none → t.last = t.own co) := by
  cases h with
  | rest hpieces hcalls hcarries => exact ⟨fun _ hbad => absurd rfl hbad, fun _ => hcarries _⟩
  | found hf hc =>
    rw [List.forall_mem_singleton, hf, hm.tracetag]
    exact ⟨fun heq _ => heq, fun heq => heq (Option.some_ne_none _)⟩
  | lost hf hcarries =>
    rw [List.forall_mem_cons, hf, hm.tracetag]
    exact ⟨fun heq _ => heq.1, fun heq => ⟨heq (Option.some_ne_none _), hcarries _⟩⟩

theorem Does.mirrors {r : Agent × List Effect} (h : Does s co found r) (hm : Mirrors s.pieces t)
    (hsent : Sent s t) (hkept : found ≠ none → t.last = t.own co) :
    Mirrors r.1.pieces (t.call (found.map (co, ·))) ∧ Sent r.1 (t.call (found.map (co, ·))) := by
  unfold Sent
  rw [call_own]
  cases h with
  | rest hpieces hcalls hcarries => exact ⟨hpieces ▸ hm, hcalls ▸ hsent⟩
  | @found f c hf hc =>
    refine ⟨hm, fun co' c' hc' => ?_⟩
    by_cases heq : co' = co
    · simp only [setCall, heq, Function.update_self] at hc'
      rw [← Option.some.inj hc', hc, hm.tracetag, hkept (Option.some_ne_none _), heq]
    · simp only [setCall, Function.update_of_ne heq] at hc'
      exact hsent co' c' hc'
  | lost hf hcarries =>
    refine ⟨hm.finish fun hown => ?_, hsent⟩
    rw [hm.tracetag, hkept (Option.some_ne_none _), hown]

/-! ### Runs -/

structure Traced.Inv (w : Traced) : Prop where
  node : w.node.Inv
  numbered : w.node.Numbered
  mirrors : Mirrors w.node.agent.pieces w.tags
  sent : Sent w.node.agent w.tags

theorem arrive_own (w : Traced) (e : NodeEvent) (hco : co < w.node.co) :
    (w.arrive e).own co = w.tags.own co := by
  cases e with
  | packet buf alive =>
    simp only [Traced.arrive]
    cases unpackrequest buf with
    | none => rfl
    | some u =>
      have hleave : ∀ t : Tags, ∀ a, (t.leave u a).own = t.own := fun t a => by
        unfold Tags.leave
        split <;> rfl
      simp only [hleave]
      unfold Tags.next
      cases u.session with
      | none => rfl
      | some session =>
        simp only
        split
        · rfl
        · exact Function.update_of_ne hco.ne _ _
  | _ => rfl

theorem sticks_append (hn : w.node.Numbered) {node : Node}
    (hlog : node.log = w.node.log ++ fs.map (co, ·))
    (hown : ∀ co < w.node.co, t.own co = w.tags.own co) :
    Traced.Sticks ⟨node, t⟩ ↔ w.Sticks ∧ ∀ f ∈ fs, f.Carries (t.own co) := by
  unfold Traced.Sticks
  simp only [hlog, List.mem_append, List.mem_map, Prod.mk.injEq]
  constructor
  · intro h
    refine ⟨fun co' f hf => ?_, fun f hf => h co f (.inr ⟨f, hf, rfl, rfl⟩)⟩
    rw [← hown co' (hn.log _ hf)]
    exact h co' f (.inl hf)
  · rintro ⟨hold, hnew⟩ co' f (hf | ⟨g, hg, rfl, rfl⟩)
    · rw [hown co' (hn.log _ hf)]
      exact hold co' f hf
    · exact hnew g hg

theorem ran_step (hi : w.Inv) (hm : Mirrors s.pieces (w.arrive e))
    (hcalls : s.calls = w.node.agent.calls) {r : Agent × List Effect} (hdoes : Does s co found r)
    (hcalling : w.node.calling e = found.map (co, ·)) {node : Node} (hagent : node.agent = r.1)
    (hlog : node.log = w.node.log ++ r.2.map (co, ·)) :
    (Traced.Sticks ⟨node, (w.arrive e).call (w.node.calling e)⟩ ↔ w.Sticks ∧ w.Kept e) ∧
      (w.Kept e → Mirrors node.agent.pieces ((w.arrive e).call (w.node.calling e)) ∧
        Sent node.agent ((w.arrive e).call (w.node.calling e))) := by
  have hkept : w.Kept e ↔ (found ≠ none → (w.arrive e).last = (w.arrive e).own co) := by
    unfold Traced.Kept
    rw [hcalling]
    cases found with
    | none => exact ⟨fun _ hbad => absurd rfl hbad, fun _ _ _ hbad => by cases hbad⟩
    | some found =>
      refine ⟨fun h _ => h co found rfl, fun h co' found' heq => ?_⟩
      obtain ⟨rfl, -⟩ := Prod.mk.inj (Option.some.inj heq)
      exact h (Option.some_ne_none _)
  have hsent : Sent s (w.arrive e) := by
    intro co' c hc
    rw [hcalls] at hc
    rw [arrive_own w e (hi.numbered.calls co' (hc ▸ Option.some_ne_none c))]
    exact hi.sent co' c hc
  rw [hkept, hagent]
  constructor
  · rw [sticks_append hi.numbered hlog fun co' hco => by rw [call_own]; exact arrive_own w e hco,
      call_own, hdoes.carries_iff hm]
  · rw [hcalling]
    exact hdoes.mirrors hm hsent

theorem idle_step (hi : w.Inv) (hcalling : w.node.calling e = none) (harrive : w.arrive e = w.tags)
    {node : Node} (hpieces : node.agent.pieces = w.node.agent.pieces)
    (hcalls : node.agent.calls = w.node.agent.calls) (hlog : node.log = w.node.log) :
    (Traced.Sticks ⟨node, (w.arrive e).call (w.node.calling e)⟩ ↔ w.Sticks ∧ w.Kept e) ∧
      (w.Kept e → Mirrors node.agent.pieces ((w.arrive e).call (w.node.calling e)) ∧
        Sent node.agent ((w.arrive e).call (w.node.calling e))) :=
  @ran_step node.agent w e 0 none hi (by rw [hpieces, harrive]; exact hi.mirrors) hcalls
    (node.agent, []) (.rest rfl rfl fun _ _ hf => absurd hf List.not_mem_nil) hcalling node rfl
    (by rw [hlog, List.map_nil, List.append_nil])

theorem packet_step (hi : w.Inv) {buf : List UInt8} {node : Node}
    (hs : w.node.Step codec (.packet buf alive) node) :
    (Traced.Sticks ⟨node, w.nextTags (.packet buf alive)⟩ ↔ w.Sticks ∧ w.Kept (.packet buf alive)) ∧
      (w.Kept (.packet buf alive) → Mirrors node.agent.pieces (w.nextTags (.packet buf alive)) ∧
        Sent node.agent (w.nextTags (.packet buf alive))) := by
  unfold Node.Step Node.next at hs
  simp only at hs
  split at hs
  · rw [← Option.some.inj hs]
    unfold Traced.nextTags
    cases hu : unpackrequest buf with
    | none =>
      refine idle_step hi ?_ ?_ rfl rfl rfl
      · simp only [Node.calling, hu, Option.bind_none]
      · simp only [Traced.arrive, hu]
    | some u =>
      have hm : Mirrors (reassemble w.node.agent.pieces u).1 (w.arrive (.packet buf alive)) := by
        have hnext : Mirrors w.node.agent.pieces (w.tags.next w.node.co u) := by
          unfold Tags.next
          split
          · exact ⟨hi.mirrors.tracetag, hi.mirrors.taken⟩
          · simp only
            split <;> exact ⟨hi.mirrors.tracetag, hi.mirrors.taken⟩
        simp only [Traced.arrive, hu]
        exact reassemble_mirrors hnext u
      refine @ran_step { w.node.agent with pieces := (reassemble w.node.agent.pieces u).1 } w _
        w.node.co ((w.node.calling (.packet buf alive)).map Prod.snd) hi hm rfl
        (dispatchRequest codec alive w.node.agent w.node.co u) ?_ ?_ _ rfl rfl
      · simp only [Node.calling, hu, Option.bind_some, dispatchRequest]
        cases (reassemble w.node.agent.pieces u).2 with
        | trace | part => exact .rest rfl rfl fun _ _ hf => absurd hf List.not_mem_nil
        | invalid session => exact .rest rfl rfl (writeResponse_carries _ _ _)
        | request d =>
          simp only [Option.map_map, Function.comp_def, Option.map_id']
          exact dispatchDelivery_does codec alive _ _ d
      · simp only [Node.calling, hu, Option.bind_some]
        cases (reassemble w.node.agent.pieces u).2 with
        | request d => simp only [Option.map_map, Function.comp_def]
        | _ => rfl
  · cases hs

theorem answer_step (hi : w.Inv) {c : Call} (hc : w.node.agent.calls co = some c) (ok : Bool)
    (msg : List UInt8) :
    let s := setCall w.node.agent co none
    let node := w.node.ran
      (if c.traced then setTracetag s none else s, co, writeResponse c.session ok msg)
    (Traced.Sticks ⟨node, w.tags.finish co⟩ ↔ w.Sticks ∧ w.Kept (.answer co ok msg)) ∧
      (w.Kept (.answer co ok msg) → Mirrors node.agent.pieces (w.tags.finish co) ∧
        Sent node.agent (w.tags.finish co)) := by
  intro s node
  have hkept : w.Kept (.answer co ok msg) := fun _ _ hbad => by cases hbad
  have hsticks : Traced.Sticks ⟨node, w.tags.finish co⟩ ↔
      w.Sticks ∧ ∀ f ∈ writeResponse c.session ok msg, f.Carries ((w.tags.finish co).own co) :=
    sticks_append hi.numbered rfl fun _ _ => congrFun (finish_own w.tags co) _
  have hcalls : node.agent.calls = Function.update w.node.agent.calls co none := by
    simp only [node, Node.ran]
    split <;> rfl
  refine ⟨?_, fun _ => ⟨?_, fun co' c' hc' => ?_⟩⟩
  · rw [hsticks]
    exact ⟨fun h => ⟨h.1, hkept⟩, fun h => ⟨h.1, writeResponse_carries _ _ _ _⟩⟩
  · have htraced := hi.sent co c hc
    simp only [node, Node.ran]
    cases hown : w.tags.own co with
    | none =>
      rw [hown] at htraced
      rw [htraced, Tags.finish, if_pos hown]
      exact hi.mirrors
    | some tag =>
      rw [hown] at htraced
      rw [htraced]
      exact hi.mirrors.finish fun hbad => by cases hown.symm.trans hbad
  · rw [hcalls] at hc'
    rw [finish_own]
    by_cases heq : co' = co
    · rw [heq, Function.update_self] at hc'
      cases hc'
    · rw [Function.update_of_ne heq] at hc'
      exact hi.sent co' c' hc'

theorem traced_step (hi : w.Inv) (hs : Traced.Step codec w e w') :
    (w'.Sticks ↔ w.Sticks ∧ w.Kept e) ∧ (w.Kept e → w'.Inv) := by
  cases hs with
  | @mk node hs =>
    have hboth : (Traced.Sticks ⟨node, w.nextTags e⟩ ↔ w.Sticks ∧ w.Kept e) ∧
        (w.Kept e → Mirrors node.agent.pieces (w.nextTags e) ∧ Sent node.agent (w.nextTags e)) := by
      cases e with
      | packet buf alive => exact packet_step hi hs
      | message alive =>
        unfold Node.Step Node.next at hs
        simp only at hs
        split at hs
        · split at hs
          · cases hs
          · rename_i rest hmessages
            rw [← Option.some.inj hs]
            refine idle_step hi ?_ rfl rfl rfl rfl
            simp only [Node.calling, hmessages]
          · rename_i name addr rest hmessages
            simp only [reply, Option.map_map] at hs
            obtain ⟨q, hq, rfl⟩ := Option.map_eq_some_iff.mp hs
            refine ran_step hi ?_ ?_ (goOn_does codec alive _ q.caller addr) ?_ rfl rfl
            · cases addr <;> exact hi.mirrors
            · cases addr <;> rfl
            · simp only [Node.calling, hmessages, hq, Option.bind_some]
        · cases hs
      | wakeup alive =>
        simp only [Node.Step, Node.next, wakeup] at hs
        split at hs
        · cases hs
        · rename_i x rest hqueue
          rw [← Option.some.inj hs]
          refine ran_step hi ?_ ?_ (goOn_does codec alive _ x _) ?_ rfl rfl
          · exact hi.mirrors
          · rfl
          · simp only [Node.calling, hqueue]
      | answer co ok msg =>
        simp only [Node.Step, Node.next, answer, Option.map_map] at hs
        split at hs
        · obtain ⟨c, hc, rfl⟩ := Option.map_eq_some_iff.mp hs
          exact answer_step hi hc ok msg
        · cases hs
      | register name addr =>
        rw [← Option.some.inj hs]
        exact idle_step hi rfl rfl rfl rfl rfl
      | query =>
        simp only [Node.Step, Node.next] at hs
        split at hs
        · cases hs
        · rw [← Option.some.inj hs]
          exact idle_step hi rfl rfl rfl rfl rfl
      | launched =>
        rw [← Option.some.inj hs]
        exact idle_step hi rfl rfl rfl rfl rfl
    refine ⟨hboth.1, fun hkept => ?_⟩
    exact ⟨inv_acts hi.node hs.acts, numbered_acts hi.node hi.numbered hs.acts, (hboth.2 hkept).1,
      (hboth.2 hkept).2⟩

theorem nextTags_own (e : NodeEvent) (hco : co < w.node.co) :
    (w.nextTags e).own co = w.tags.own co := by
  cases e with
  | answer co' ok msg => exact congrFun (finish_own w.tags co') co
  | _ => exact (congrFun (call_own _ _) co).trans (arrive_own w _ hco)

theorem sticks_before (hn : w.node.Numbered) (hs : Traced.Step codec w e w') (h : w'.Sticks) :
    w.Sticks := by
  cases hs with
  | mk hs =>
    obtain ⟨l, hl⟩ := acts_log hs.acts
    intro co f hf
    rw [← nextTags_own e (hn.log _ hf)]
    exact h co f (hl ▸ List.mem_append_left l hf)

/-- A trace packet has its tag; and in a run every call carries the tag of its request exactly if
each request came to its call when its own tag was left last. -/
theorem trace_sticks (codec : Codec) :
    (∀ tag packet, packtrace tag = some packet →
      unpackrequest (packet.drop 2) = some ⟨some (.name tag), none, none, 0, false, false⟩) ∧
    ∀ es w, Run (Traced.Step codec) .init es w →
      (w.Sticks ↔ Run (Guarded Traced.Kept (Traced.Step codec)) .init es w) := by
  refine ⟨fun tag packet h => unpack_packtrace h, fun es w hr => ?_⟩
  have hinit : Traced.init.Inv :=
    ⟨inv_node_init, numbered_init, ⟨rfl, fun _ => rfl⟩, fun _ _ h => by cases h⟩
  refine hr.guarded_iff (I := Traced.Inv) (J := fun w => w.node.Inv ∧ w.node.Numbered) hinit
    ⟨inv_node_init, numbered_init⟩ (fun _ _ h => absurd h List.not_mem_nil) ?_ ?_ ?_
  · rintro _ _ _ ⟨hi, hn⟩ ⟨hs⟩
    exact ⟨inv_acts hi hs.acts, numbered_acts hi hn hs.acts⟩
  · exact fun _ _ _ hn hs h => sticks_before hn.2 hs h
  · exact fun _ _ _ hi hs => traced_step hi hs

def Traced.after (codec : Codec) (w : Traced) (e : NodeEvent) : Traced :=
  ⟨w.node.after codec e, w.nextTags e⟩

/-- A request with a tag is answered before one without comes. -/
theorem trace_sticks_two :
    ∃ codec w, w.Sticks ∧ (1, .tracecall (.name [116]) (.number 5) [7]) ∈ w.node.log ∧
    (2, .rawcall (.number 5) [7]) ∈ w.node.log ∧ ∃ es, Run (Traced.Step codec) .init es w := by
  let codec : Codec := ⟨fun _ => none, fun _ => []⟩
  let alive : Address → Bool := fun _ => true
  let call : UInt8 → List UInt8 := fun session => [0, 5, 0, 0, 0, session, 0, 0, 0, 7]
  let w1 := Traced.init.after codec (.packet [4, 116] alive)
  let w2 := w1.after codec (.packet (call 1) alive)
  let w3 := w2.after codec (.answer 1 true [])
  let w4 := w3.after codec (.packet (call 2) alive)
  have hr : Run (Guarded Traced.Kept (Traced.Step codec)) .init
      [.packet [4, 116] alive, .packet (call 1) alive, .answer 1 true [], .packet (call 2) alive]
      w4 := by
    refine Run.cons (t := w1) ⟨fun _ _ h => ?_, .mk rfl⟩
      (Run.cons (t := w2) ⟨fun _ _ h => ?_, .mk rfl⟩
      (Run.cons (t := w3) ⟨fun _ _ h => ?_, .mk rfl⟩ (Run.single ⟨fun _ _ h => ?_, .mk rfl⟩)))
    all_goals cases h
    all_goals rfl
  have hsteps := hr.mono fun _ _ _ hs => hs.2
  exact ⟨codec, w4, ((trace_sticks codec).2 _ w4 hsteps).mpr hr, List.mem_cons_self,
    List.mem_cons_of_mem _ (List.mem_cons_of_mem _ List.mem_cons_self), _, hsteps⟩

/-- A request without a tag comes while the call with the tag is not answered. -/
theorem trace_leaks : ¬∀ codec es w,
    Run (Guarded Traced.Orderly (Traced.Step codec)) .init es w → w.Sticks := by
  intro hall
  let codec : Codec := ⟨fun _ => none, fun _ => []⟩
  let alive : Address → Bool := fun _ => true
  let call : UInt8 → List UInt8 := fun session => [0, 5, 0, 0, 0, session, 0, 0, 0, 7]
  let w1 := Traced.init.after codec (.packet [4, 116] alive)
  let w2 := w1.after codec (.packet (call 1) alive)
  let w3 := w2.after codec (.packet (call 2) alive)
  have hbegins : w1.Orderly (.packet (call 1) alive) := fun _ => ⟨_, rfl, 1, rfl, rfl⟩
  have hr : Run (Guarded Traced.Orderly (Traced.Step codec)) .init
      [.packet [4, 116] alive, .packet (call 1) alive, .packet (call 2) alive] w3 := by
    apply Run.cons (t := w1) ⟨fun h => absurd rfl h, .mk rfl⟩
    apply Run.cons (t := w2) ⟨hbegins, .mk rfl⟩
    exact Run.single ⟨fun h => absurd rfl h, .mk rfl⟩
  have hcarries := hall codec _ w3 hr 2 (.tracecall (.name [116]) (.number 5) [7])
    (List.mem_cons_of_mem _ List.mem_cons_self)
  cases hcarries

end XsServer.Cluster
