import XsServer.Lib.Run

/-! The answers to the requests of a service, from `skynet.lua`: what `session_coroutine_id`,
`session_coroutine_address` and `unresponse` know of a request, from its dispatch to `skynet.ret`, a
closure of `skynet.response`, an error or `skynet.exit`. -/

namespace XsServer.Skynet.Reply

open Lib

/-- Who asks, and with which session; 0 is for a message without an answer. -/
structure Request where
  address : Nat
  session : Nat
  deriving DecidableEq

/-- A message `PTYPE_RESPONSE` or `PTYPE_ERROR` to the address and session of a request. -/
inductive Answer
  | response (request : Request)
  | error (request : Request)
  deriving DecidableEq

def Answer.request : Answer → Request
  | response r | error r => r

inductive Status
  /-- It runs a function, or waits in one. -/
  | runs
  /-- It is in `coroutine_pool`. -/
  | pooled
  | dead
  deriving DecidableEq

structure Coroutine where
  status : Status
  /-- `session_coroutine_id[co]` -/
  session : Option Nat
  /-- `session_coroutine_address[co]` -/
  address : Option Nat

/-- What `skynet.response` returns, for a session other than 0. -/
structure Response where
  request : Request
  /-- `pack` is not `nil`. -/
  pack : Bool
  /-- `unresponse[response]` is not `nil`. -/
  unresponse : Bool

def Request.asks (r : Request) : List Request := if r.session = 0 then [] else [r]

/-- A response, or an error where `c.send` returns `false` for a message that is too large. -/
def Request.send (r : Request) (large : Bool) : Answer := if large then .error r else .response r

def Coroutine.owes (c : Coroutine) : List Request :=
  match c.session, c.address with
  | some session, some address => Request.asks ⟨address, session⟩
  | _, _ => []

def Response.owes (p : Response) : List Request := if p.unresponse then [p.request] else []

/-- What the running coroutine does: its entries, the answers, the closures that it gets, and the
requests that it gives up. -/
structure Effect where
  co : Coroutine
  sent : List Answer
  responses : List Response
  ignored : List Request

inductive Op
  | ret (large : Bool)
  | ignoreret
  | response
  /-- The function in `co_create` returns. -/
  | finish
  | fail

def Coroutine.run (c : Coroutine) : Op → Effect
  -- without a session, an error; for the session 0, nothing is sent
  | .ret large => ⟨{ c with session := none }, c.owes.map (Request.send · large), [], []⟩
  | .ignoreret => ⟨{ c with session := none }, [], [], c.owes⟩
  -- without a session, an error; for the session 0, a function that does nothing
  | .response => ⟨{ c with session := none }, [], c.owes.map (⟨·, true, true⟩), []⟩
  -- maybe without an answer
  | .finish =>
    ⟨if c.address.isSome then ⟨.pooled, none, none⟩ else { c with status := .pooled }, [], [],
      c.owes⟩
  -- `suspend(co, false, ...)`
  | .fail => ⟨⟨.dead, none, none⟩, c.owes.map .error, [], []⟩

/-- A call `response(ok, ...)`, in which `pack` raises no error. -/
def Response.call (p : Response) (ok large : Bool) : Response × List Answer :=
  -- "Can't response more than once"
  if !p.pack then (p, [])
  else if p.unresponse then
    ({ p with pack := false, unresponse := false },
      [if ok then p.request.send large else .error p.request])
  else ({ p with pack := false }, [])

def Response.drop (source : Nat) (p : Response) : Response :=
  if p.request.address = source then { p with unresponse := false } else p

/-- A service and what it sent; `received` and `ignored` are the requests that came, and those that
it gave up. -/
structure State where
  cos : List Coroutine
  responses : List Response
  sent : List Answer
  received : List Request
  ignored : List Request
  exited : Bool

def State.init : State := ⟨[], [], [], [], [], false⟩

/-- `co_create`, with a coroutine of the pool or a new one, and what is put into the tables for
it. -/
def State.coCreate (s : State) (co : Option Nat) (f : Coroutine → Coroutine) :
    Option (List Coroutine) :=
  match co with
  | none => some (s.cos ++ [f ⟨.runs, none, none⟩])
  | some i => do
    let c ← s.cos[i]?
    if c.status = .pooled then some (s.cos.set i (f { c with status := .runs })) else none

inductive Event
  /-- `raw_dispatch_message` calls the function of the protocol in a coroutine. -/
  | request (co : Option Nat) (r : Request)
  /-- There is no such protocol, or it has no function. -/
  | refuse (r : Request)
  /-- `skynet.fork`, `skynet.timeout` -/
  | fork (co : Option Nat)
  | run (i : Nat) (op : Op)
  | call (i : Nat) (ok large : Bool)
  /-- `_error_dispatch` for a message `PTYPE_ERROR`, up to `skynet.ignoreret` -/
  | error (co : Option Nat) (r : Request)
  /-- `_error_dispatch(0, source)`, which `skynet.term` calls too, behind it -/
  | down (source : Nat)
  | exit (i : Nat)

/-- The coroutines take turns in any order, up to `skynet.exit`. -/
def State.next (s : State) : Event → Option State
  | .request co r => do
    let cos ← s.coCreate co fun c => { c with session := some r.session, address := some r.address }
    some { s with cos, received := s.received ++ r.asks }
  | .refuse r =>
    some { s with sent := s.sent ++ r.asks.map .error, received := s.received ++ r.asks }
  | .fork co => do
    let cos ← s.coCreate co id
    some { s with cos }
  | .run i op => do
    let c ← s.cos[i]?
    if c.status = .runs then
      let e := c.run op
      some { s with
        cos := s.cos.set i e.co, responses := s.responses ++ e.responses,
        sent := s.sent ++ e.sent, ignored := s.ignored ++ e.ignored }
    else none
  | .call i ok large => do
    let p ← s.responses[i]?
    some { s with
      responses := s.responses.set i (p.call ok large).1, sent := s.sent ++ (p.call ok large).2 }
  | .error co r => do
    let cos ← s.coCreate co fun c =>
      (Coroutine.run ⟨c.status, some r.session, some r.address⟩ .ignoreret).co
    some { s with cos }
  | .down source =>
    some { s with
      responses := s.responses.map (.drop source),
      ignored := s.ignored ++
        (s.responses.filter (·.request.address = source)).flatMap Response.owes }
  | .exit i => do
    let c ← s.cos[i]?
    if c.status = .runs then
      some { s with
        responses := s.responses.map fun p => if p.unresponse then (p.call false false).1 else p,
        sent := s.sent ++ ((s.cos.flatMap Coroutine.owes).map .error ++
          (s.responses.filter Response.unresponse).flatMap fun p => (p.call false false).2),
        exited := true }
    else none

def Step (s : State) (e : Event) (s' : State) : Prop := s.exited = false ∧ s.next e = some s'

def State.answers (s : State) (r : Request) : Nat := (s.sent.map Answer.request).count r

/-- How many coroutines and closures are still to answer. -/
def State.open (s : State) (r : Request) : Nat :=
  (s.cos.flatMap Coroutine.owes).count r + (s.responses.flatMap Response.owes).count r

/-- No request is answered twice, and none gets lost: it is answered, given up, or some coroutine or
closure is to answer it; and `skynet.exit` answers what is left. -/
structure State.Accounted (s : State) : Prop where
  once : ∀ r, s.answers r ≤ s.received.count r
  running : s.exited = false →
    ∀ r, s.received.count r = s.answers r + s.open r + s.ignored.count r
  exited : s.exited = true → ∀ r, s.received.count r = s.answers r + s.ignored.count r
  /-- An answer finds its address, and a closure that is to answer can still do so. -/
  addressed : ∀ c ∈ s.cos, c.session ≠ none → c.address ≠ none
  packed : ∀ p ∈ s.responses, p.unresponse = true → p.pack = true

/-! ### One entry -/

theorem map_send (l : List Request) (large : Bool) :
    (l.map (Request.send · large)).map Answer.request = l := by
  rw [List.map_map]
  cases large <;> exact List.map_id l

theorem map_error (l : List Request) : (l.map Answer.error).map Answer.request = l := by
  rw [List.map_map]
  exact List.map_id l

theorem owes_closures (l : List Request) :
    (l.map (⟨·, true, true⟩ : Request → Response)).flatMap Response.owes = l := by
  rw [List.flatMap_map]
  exact List.flatMap_singleton' l

theorem owes_of_session {c : Coroutine} (h : c.session = none) : c.owes = [] := by
  rw [Coroutine.owes, h]

theorem Coroutine.run_owes (c : Coroutine) (op : Op) :
    (c.run op).co.owes = [] ∧ c.owes = (c.run op).sent.map Answer.request ++
      (c.run op).responses.flatMap Response.owes ++ (c.run op).ignored := by
  cases op with
  | ret large => exact ⟨rfl, by simpa [run] using (map_send c.owes large).symm⟩
  | ignoreret => exact ⟨rfl, rfl⟩
  | response => exact ⟨rfl, by simpa [run] using (owes_closures c.owes).symm⟩
  | finish =>
    refine ⟨?_, rfl⟩
    obtain ⟨status, session, address⟩ := c
    cases address with
    | some a => rfl
    | none => cases session <;> rfl
  | fail => exact ⟨rfl, by simpa [run] using (map_error c.owes).symm⟩

theorem Coroutine.run_session {c : Coroutine} (op : Op) (h : c.session ≠ none → c.address ≠ none) :
    (c.run op).co.session = none := by
  cases op with
  | finish =>
    obtain ⟨status, session, address⟩ := c
    cases address with
    | some a => rfl
    | none => exact Classical.byContradiction fun hs => h hs rfl
  | _ => rfl

theorem Response.call_owes {p : Response} (ok large : Bool)
    (h : p.unresponse = true → p.pack = true) :
    (p.call ok large).1.unresponse = false ∧ p.owes = (p.call ok large).2.map Answer.request := by
  obtain ⟨r, pack, unresponse⟩ := p
  cases unresponse with
  | false => cases pack <;> exact ⟨rfl, rfl⟩
  | true =>
    obtain rfl : pack = true := h rfl
    cases ok with
    | false => exact ⟨rfl, rfl⟩
    | true => cases large <;> exact ⟨rfl, rfl⟩

theorem owes_of_unresponse {p : Response} (h : p.unresponse = false) : p.owes = [] := by
  rw [Response.owes, h]
  rfl

theorem drop_owes (source : Nat) (l : List Response) (r : Request) :
    (l.flatMap Response.owes).count r = ((l.map (.drop source)).flatMap Response.owes).count r +
      ((l.filter (·.request.address = source)).flatMap Response.owes).count r := by
  induction l with
  | nil => rfl
  | cons p l ih =>
    rw [List.flatMap_cons, List.map_cons, List.flatMap_cons, List.count_append, List.count_append,
      ih, List.filter_cons, Response.drop]
    by_cases hp : p.request.address = source
    · rw [if_pos hp, if_pos (by simpa using hp), List.flatMap_cons, List.count_append,
        owes_of_unresponse (p := { p with unresponse := false }) rfl, List.count_nil]
      omega
    · rw [if_neg hp, if_neg (by simpa using hp)]
      omega

theorem exit_owes {l : List Response} (h : ∀ p ∈ l, p.unresponse = true → p.pack = true) :
    ((l.filter Response.unresponse).flatMap fun p => (p.call false false).2).map
      Answer.request = l.flatMap Response.owes := by
  induction l with
  | nil => rfl
  | cons p l ih =>
    have ih := ih fun q hq => h q (List.mem_cons_of_mem _ hq)
    rw [List.filter_cons, List.flatMap_cons, ← ih]
    cases hp : p.unresponse with
    | true =>
      rw [if_pos rfl, List.flatMap_cons, List.map_append,
        (Response.call_owes false false (h p List.mem_cons_self)).2]
    | false =>
      rw [if_neg (by simp), owes_of_unresponse hp]
      rfl

theorem count_flatMap_set {α : Type} {l : List α} {i : Nat} {a : α} (h : l[i]? = some a) (b : α)
    (f : α → List Request) (r : Request) :
    ((l.set i b).flatMap f).count r + (f a).count r =
      (l.flatMap f).count r + (f b).count r := by
  obtain ⟨hlt, rfl⟩ := List.getElem?_eq_some_iff.mp h
  obtain ⟨l₁, l₂, hl, -, hset⟩ : ∃ l₁ l₂, l = l₁ ++ l[i] :: l₂ ∧ l₁.length = i ∧
      l.set i b = l₁ ++ b :: l₂ := List.exists_of_set hlt
  rw [hset]
  conv_rhs => rw [hl]
  simp only [List.flatMap_append, List.flatMap_cons, List.count_append]
  omega

/-! ### Steps -/

structure State.Inv (s : State) : Prop where
  balance : ∀ r, s.received.count r =
    s.answers r + (if s.exited then 0 else s.open r) + s.ignored.count r
  rests : ∀ c ∈ s.cos, c.session ≠ none → c.status = .runs ∧ c.address ≠ none
  packed : ∀ p ∈ s.responses, p.unresponse = true → p.pack = true

variable {s s' : State}

theorem State.Inv.coCreate (hi : s.Inv) {co : Option Nat} {f : Coroutine → Coroutine}
    {cos : List Coroutine} (h : s.coCreate co f = some cos)
    (hf : ∀ c : Coroutine, c.status = .runs → c.session = none →
      (f c).session ≠ none → (f c).status = .runs ∧ (f c).address ≠ none) :
    (∀ c ∈ cos, c.session ≠ none → c.status = .runs ∧ c.address ≠ none) ∧
      ∃ c : Coroutine, c.session = none ∧ ∀ r, (cos.flatMap Coroutine.owes).count r =
        (s.cos.flatMap Coroutine.owes).count r + (f c).owes.count r := by
  cases co with
  | none =>
    cases h
    refine ⟨fun c hc hne => ?_, ⟨.runs, none, none⟩, rfl, fun r => ?_⟩
    · obtain hc | hc := List.mem_append.mp hc
      · exact hi.rests c hc hne
      · rw [List.mem_singleton.mp hc] at hne ⊢
        exact hf _ rfl rfl hne
    · rw [List.flatMap_append, List.count_append, List.flatMap_singleton]
  | some i =>
    obtain ⟨c, hc, h⟩ := Option.bind_eq_some_iff.mp h
    split at h
    case isFalse => cases h
    case isTrue hpooled =>
      cases h
      have hsession : c.session = none := by
        by_contra hne
        have := (hi.rests c (List.mem_of_getElem? hc) hne).1
        rw [hpooled] at this
        cases this
      refine ⟨fun c' hc' hne => ?_, { c with status := .runs }, hsession, fun r => ?_⟩
      · obtain hc' | rfl := List.mem_or_eq_of_mem_set hc'
        · exact hi.rests c' hc' hne
        · exact hf _ rfl hsession hne
      · have := count_flatMap_set hc (f { c with status := .runs }) Coroutine.owes r
        rwa [owes_of_session hsession, List.count_nil] at this

theorem State.Inv.keep (hi : s.Inv) (hrun : s.exited = false) (hrun' : s'.exited = false)
    (hcount : ∀ r, s'.received.count r + (s.answers r + s.open r + s.ignored.count r) =
      s.received.count r + (s'.answers r + s'.open r + s'.ignored.count r))
    (hrests : ∀ c ∈ s'.cos, c.session ≠ none → c.status = .runs ∧ c.address ≠ none)
    (hpacked : ∀ p ∈ s'.responses, p.unresponse = true → p.pack = true) : s'.Inv := by
  refine ⟨fun r => ?_, hrests, hpacked⟩
  have hold := hi.balance r
  have hnew := hcount r
  rw [hrun, if_neg Bool.false_ne_true] at hold
  rw [hrun', if_neg Bool.false_ne_true]
  omega

theorem State.inv_step {e : Event} (hi : s.Inv) (h : Step s e s') : s'.Inv := by
  obtain ⟨hrun, h⟩ := h
  cases e with
  | request co r =>
    obtain ⟨cos, hcos, h⟩ := Option.bind_eq_some_iff.mp h
    cases h
    obtain ⟨hrests, c, -, hcount⟩ := hi.coCreate hcos fun _ h _ _ => ⟨h, by simp⟩
    refine hi.keep hrun hrun (fun r' => ?_) hrests hi.packed
    have : (cos.flatMap Coroutine.owes).count r' =
        (s.cos.flatMap Coroutine.owes).count r' + r.asks.count r' := hcount r'
    simp only [State.answers, State.open, List.count_append]
    omega
  | refuse r =>
    cases h
    refine hi.keep hrun hrun (fun r' => ?_) hi.rests hi.packed
    simp only [State.answers, State.open, List.count_append, List.map_append, map_error]
    omega
  | fork co =>
    obtain ⟨cos, hcos, h⟩ := Option.bind_eq_some_iff.mp h
    cases h
    obtain ⟨hrests, c, hsession, hcount⟩ := hi.coCreate hcos fun _ _ h hne => absurd h hne
    refine hi.keep hrun hrun (fun r' => ?_) hrests hi.packed
    have := hcount r'
    rw [id, owes_of_session hsession, List.count_nil] at this
    simp only [State.answers, State.open, this]
    omega
  | run i op =>
    obtain ⟨c, hc, h⟩ := Option.bind_eq_some_iff.mp h
    split at h
    case isFalse => cases h
    case isTrue =>
      cases h
      obtain ⟨howes, heq⟩ := c.run_owes op
      have hnone : (c.run op).co.session = none :=
        Coroutine.run_session op fun hne => (hi.rests c (List.mem_of_getElem? hc) hne).2
      refine hi.keep hrun hrun (fun r => ?_) (fun c' hc' hne => ?_) fun p hp hu => ?_
      · have hset := count_flatMap_set hc (c.run op).co Coroutine.owes r
        have hsplit := congrArg (List.count r) heq
        rw [howes, List.count_nil] at hset
        simp only [State.answers, State.open, List.map_append, List.count_append,
          List.flatMap_append] at hsplit ⊢
        omega
      · obtain hc' | rfl := List.mem_or_eq_of_mem_set hc'
        · exact hi.rests c' hc' hne
        · exact absurd hnone hne
      · obtain hp | hp := List.mem_append.mp hp
        · exact hi.packed p hp hu
        · cases op <;> try cases hp
          obtain ⟨r, -, rfl⟩ := List.mem_map.mp hp
          rfl
  | call i ok large =>
    obtain ⟨p, hp, h⟩ := Option.bind_eq_some_iff.mp h
    obtain rfl := Option.some.inj h
    obtain ⟨hdone, howes⟩ := Response.call_owes ok large (hi.packed p (List.mem_of_getElem? hp))
    refine hi.keep hrun hrun (fun r => ?_) hi.rests fun q hq hu => ?_
    · have hset := count_flatMap_set hp (p.call ok large).1 Response.owes r
      rw [owes_of_unresponse hdone, List.count_nil, howes] at hset
      simp only [State.answers, State.open, List.map_append, List.count_append]
      omega
    · obtain hq | rfl := List.mem_or_eq_of_mem_set hq
      · exact hi.packed q hq hu
      · exact absurd (hdone.symm.trans hu) (by simp)
  | error co r =>
    obtain ⟨cos, hcos, h⟩ := Option.bind_eq_some_iff.mp h
    cases h
    obtain ⟨hrests, c, -, hcount⟩ := hi.coCreate hcos fun _ _ _ hne => absurd rfl hne
    refine hi.keep hrun hrun (fun r' => ?_) hrests hi.packed
    have : (cos.flatMap Coroutine.owes).count r' =
        (s.cos.flatMap Coroutine.owes).count r' := hcount r'
    simp only [State.answers, State.open, this]
  | down source =>
    cases h
    refine hi.keep hrun hrun (fun r => ?_) hi.rests fun p hp hu => ?_
    · have := drop_owes source s.responses r
      simp only [State.answers, State.open, List.count_append]
      omega
    · obtain ⟨q, hq, rfl⟩ := List.mem_map.mp hp
      rw [Response.drop] at hu ⊢
      split at hu
      case isTrue => cases hu
      case isFalse hne =>
        rw [if_neg hne]
        exact hi.packed q hq hu
  | exit i =>
    obtain ⟨c, hc, h⟩ := Option.bind_eq_some_iff.mp h
    split at h
    case isFalse => cases h
    case isTrue =>
      obtain rfl := Option.some.inj h
      refine ⟨fun r => ?_, hi.rests, fun p hp hu => ?_⟩
      · have hold := hi.balance r
        rw [hrun, if_neg Bool.false_ne_true] at hold
        simp only [State.answers, State.open, List.map_append, List.count_append, map_error,
          exit_owes hi.packed, if_true] at hold ⊢
        omega
      · obtain ⟨q, hq, rfl⟩ := List.mem_map.mp hp
        split at hu
        case isTrue =>
          exact absurd ((Response.call_owes false false (hi.packed q hq)).1.symm.trans hu)
            (by simp)
        case isFalse hne => exact absurd hu hne

theorem State.inv_init : State.init.Inv :=
  ⟨fun _ => rfl, fun _ h => (by cases h), fun _ h => (by cases h)⟩

theorem State.Inv.accounted (hi : s.Inv) : s.Accounted where
  once r := by
    have := hi.balance r
    omega
  running h r := by
    have := hi.balance r
    rwa [h] at this
  exited h r := by
    have := hi.balance r
    rwa [h] at this
  addressed c hc hne := (hi.rests c hc hne).2
  packed := hi.packed

/-- In every run of a service, whatever its coroutines do and in which order, each request that
asks for an answer is answered at most once, is given up, or is still to be answered by one
coroutine or closure; after `skynet.exit` nothing is left. -/
theorem requests_accounted {es : List Event} (h : Run Step .init es s) : s.Accounted :=
  (h.invariant State.inv_init fun _ _ _ hi hs => State.inv_step hi hs).accounted

/-- A request is answered later by a closure, another one by `skynet.exit`. -/
theorem requests_accounted_exit : ∃ s, Run Step .init [.request none ⟨7, 1⟩, .run 0 .response,
    .run 0 .finish, .request (some 0) ⟨8, 5⟩, .call 0 true false, .exit 0] s ∧ s.Accounted := by
  have hrun : ∃ s, Run Step .init [.request none ⟨7, 1⟩, .run 0 .response, .run 0 .finish,
      .request (some 0) ⟨8, 5⟩, .call 0 true false, .exit 0] s :=
    ⟨_, Run.cons ⟨rfl, rfl⟩ (Run.cons ⟨rfl, rfl⟩ (Run.cons ⟨rfl, rfl⟩ (Run.cons ⟨rfl, rfl⟩
      (Run.cons ⟨rfl, rfl⟩ (Run.single ⟨rfl, rfl⟩)))))⟩
  obtain ⟨s, hrun⟩ := hrun
  exact ⟨s, hrun, requests_accounted hrun⟩

end XsServer.Skynet.Reply
