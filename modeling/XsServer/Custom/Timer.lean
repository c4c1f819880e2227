import XsServer.Custom.Heap

/-! The timer of `timer.lua`.  Its heap is any queue whose first node has the least ticks, so it is
only the nodes that it has; its wake-ups are calls of `skynet.timeout` that have not yet come
back, and they come back at any time. -/

namespace XsServer.Custom

variable {κ ν : Type*}

/-- `tagTimer`; `call` is the callback with its arguments. -/
structure Item (κ : Type*) where
  elapse : Nat
  count : Option Int
  call : κ

/-- The clock is what `time` gives; the nodes of the heap refer to the items, of which `store` has
those to give out again.  `wakeups` counts the wake-ups, `polls` the calls of `poling` that are in
their loop. -/
structure Timer (κ ν : Type*) where
  now : Nat
  pauset : Option Nat
  nodes : List (Node Nat Nat)
  auto : Nat
  items : Nat → Item κ
  store : List Nat
  next : Nat
  names : ν → Option Int
  idens : Int → Option ν
  wakeups : Nat
  polls : Nat

namespace Timer

/-- A timer after `ctor`; `items` has no table yet. -/
def new (now : Nat) (items : Nat → Item κ) : Timer κ ν :=
  ⟨now, none, [], 0, items, [], 0, fun _ => none, fun _ => none, 1, 0⟩

/-- `heap:search` -/
def search (t : Timer κ ν) (iden : Option Int) : Option (Node Nat Nat) :=
  iden.bind fun iden => t.nodes.find? fun node => node.auto = iden

/-- `store:get` -/
def get (t : Timer κ ν) : Nat × Timer κ ν :=
  match t.store.getLast? with
  | some r => (r, { t with store := t.store.dropLast })
  | none => (t.next, { t with next := t.next + 1 })

def append (t : Timer κ ν) (elapse : Nat) (count : Option Int) (call : κ) : Int × Timer κ ν :=
  let r := t.get.1
  let auto := t.auto + 1
  (auto, { t.get.2 with
    items := Function.update t.items r ⟨elapse, count, call⟩
    nodes := ⟨t.now + elapse, auto, r⟩ :: t.nodes
    auto })

def appendCall (t : Timer κ ν) (elapse : Nat) (call : κ) : Int × Timer κ ν :=
  t.append elapse (some 1) call

def appendEver (t : Timer κ ν) (elapse : Nat) (call : κ) : Int × Timer κ ν :=
  t.append elapse none call

/-- The node that has the name before is deleted; its item is not given back. -/
def dropName (t : Timer κ ν) (name : ν) : Timer κ ν :=
  match t.search (t.names name) with
  | some node =>
    { t with nodes := t.nodes.erase node, idens := Function.update t.idens node.auto none }
  | none => t

variable [DecidableEq ν]

def appendBy (t : Timer κ ν) (name : ν) (elapse : Nat) (count : Option Int) (call : κ) :
    Int × Timer κ ν :=
  let (iden, t) := (t.dropName name).append elapse count call
  (iden, { t with
    names := Function.update t.names name (some iden)
    idens := Function.update t.idens iden (some name) })

def appendEverBy (t : Timer κ ν) (name : ν) (elapse : Nat) (call : κ) : Int × Timer κ ν :=
  t.appendBy name elapse none call

/-- The name of an identifier and the identifier are forgotten. -/
def clearName (t : Timer κ ν) (iden : Int) : Timer κ ν :=
  match t.idens iden with
  | some name =>
    { t with
      names := Function.update t.names name none
      idens := Function.update t.idens iden none }
  | none => t

def remove (t : Timer κ ν) (iden : Int) : Timer κ ν :=
  match t.search (some iden) with
  | some node =>
    ({ t with nodes := t.nodes.erase node, store := t.store ++ [node.data] } : Timer κ ν).clearName
      iden
  | none => t

def pause (t : Timer κ ν) : Timer κ ν :=
  match t.pauset with
  | none => { t with pauset := some t.now }
  | some _ => t

/-- `poling` up to its loop -/
def poling (t : Timer κ ν) : Timer κ ν :=
  match t.pauset with
  | some _ => t
  | none => { t with wakeups := t.wakeups + 1, polls := t.polls + 1 }

def uPause (t : Timer κ ν) : Timer κ ν :=
  match t.pauset with
  | some pause =>
    ({ t with
      pauset := none
      nodes := t.nodes.map fun item => { item with ticks := item.ticks + (t.now - pause) } } :
      Timer κ ν).poling
  | none => t

def expire (t : Timer κ ν) : Timer κ ν := ({ t with wakeups := t.wakeups - 1 } : Timer κ ν).poling

def ifExpire (inow iend : Nat) : Bool := ¬ inow < iend

/-- The item of a node that is called, with one call less. -/
def countDown (t : Timer κ ν) (rede : Node Nat Nat) : Item κ :=
  let item := t.items rede.data
  { item with count := item.count.map (· - 1) }

/-- `execute` with what `reder` gives: the callback, if there is one to call, and the timer. -/
def execute (t : Timer κ ν) : Option (Node Nat Nat) → Option κ × Timer κ ν
  | none => (none, t)
  | some rede =>
    if ifExpire t.now rede.ticks then
      let item := t.countDown rede
      let t' : Timer κ ν := { t with items := Function.update t.items rede.data item }
      if item.count = some 0 then
        (some item.call,
          ({ t' with nodes := t.nodes.erase rede, store := t.store ++ [rede.data] } :
            Timer κ ν).clearName rede.auto)
      else
        (some item.call,
          { t' with
            nodes := { rede with ticks := rede.ticks + item.elapse } :: t.nodes.erase rede })
    else (none, t)

def Reder (t : Timer κ ν) : Option (Node Nat Nat) → Prop
  | none => t.nodes = []
  | some rede => rede ∈ t.nodes ∧ ∀ node ∈ t.nodes, rede.ticks ≤ node.ticks

/-- What happens to a timer.  `called` and `idle` are turns of a loop of `poling`, with the clock;
`appendBy` has the identifier that had the name. -/
inductive Event (κ ν : Type*)
  | clock (now : Nat)
  | expire
  | called (iden : Int) (call : κ) (inow : Nat)
  | idle (inow : Nat)
  | append (elapse : Nat) (count : Option Int) (call : κ) (iden : Int)
  | appendBy (name : ν) (elapse : Nat) (count : Option Int) (call : κ) (old : Option Int)
    (iden : Int)
  | remove (iden : Int)
  | pause
  | uPause

inductive Step (t : Timer κ ν) : Event κ ν → Timer κ ν → Prop
  | clock (now : Nat) (hle : t.now ≤ now) : Step t (.clock now) { t with now }
  | expire (h : 0 < t.wakeups) : Step t .expire t.expire
  | called (rede : Node Nat Nat) (call : κ) (h : 0 < t.polls) (hrede : t.Reder (some rede))
    (hcall : (t.execute (some rede)).1 = some call) :
    Step t (.called rede.auto call t.now) (t.execute (some rede)).2
  | idle (rede : Option (Node Nat Nat)) (h : 0 < t.polls) (hrede : t.Reder rede)
    (hcall : (t.execute rede).1 = none) :
    Step t (.idle t.now) { (t.execute rede).2 with polls := t.polls - 1 }
  | append (elapse : Nat) (count : Option Int) (call : κ) :
    Step t (.append elapse count call (t.append elapse count call).1)
      (t.append elapse count call).2
  | appendBy (name : ν) (elapse : Nat) (count : Option Int) (call : κ) :
    Step t (.appendBy name elapse count call ((t.search (t.names name)).map Node.auto)
      (t.appendBy name elapse count call).1) (t.appendBy name elapse count call).2
  | remove (iden : Int) : Step t (.remove iden) (t.remove iden)
  | pause : Step t .pause t.pause
  | uPause : Step t .uPause t.uPause

end Timer

end XsServer.Custom
