import XsServer.Lib.Channel
import XsServer.Lib.Run

/-! `multicastd.lua` on several nodes, for one channel, with the packages of `lua-multicast.c`.
Every table of the daemon is indexed by the channel, so channels do not meet. -/

namespace XsServer.Multicast

open Lib

/-- `struct mc_package`, with its bytes. -/
structure McPackage (μ : Type) where
  reference : Int
  data : μ

variable {ι σ μ : Type}

/-- `none` is the error "Can't bind a multicast package more than once". -/
def bindrefer (p : McPackage μ) (ref : Int) : Option (McPackage μ) :=
  if p.reference ≠ 0 then none else some { p with reference := ref }

/-- The package, unless it is freed, and whether its reference is invalid. -/
def closelocal (p : McPackage μ) : Option (McPackage μ) × Bool :=
  let ref := p.reference - 1
  (if ref ≤ 0 then none else some { p with reference := ref }, ref < 0)

/-! ### The daemon of one node -/

/-- `channel[c]` with `channel_n[c]`: they are set and cleared together. -/
structure Group (σ : Type) where
  keys : List σ
  n : Int

/-- The tables of a node at the channel; `channel_remote[c]` is the set of the nodes. -/
structure Node (ι σ : Type) where
  channel : Option (Group σ)
  channel_remote : Option (ι → Bool)

def Node.remote (n : Node ι σ) (k : ι) : Bool :=
  match n.channel_remote with
  | some remote => remote k
  | none => false

def Node.keys (n : Node ι σ) : List σ :=
  match n.channel with
  | some g => g.keys
  | none => []

inductive Up (σ μ : Type)
  | SUBR (source : σ)
  | USUBR
  | DEL
  | PUB (m : μ)

/-- From the owner to a node; the response to `SUBR` tells whether there is no channel. -/
inductive Down (σ μ : Type)
  | response (source : σ) (gone : Bool)
  | DELR
  | PUB (m : μ)

structure State (ι σ μ : Type) where
  node : ι → Node ι σ
  up : Channels ι (Up σ μ)
  down : Channels ι (Down σ μ)
  /-- What a service has not yet taken: pointers to packages. -/
  mail : List (ι × σ × Nat)
  packs : Nat → Option (McPackage μ)
  fresh : Nat

inductive Event (ι σ μ : Type)
  | SUB (i : ι) (source : σ)
  | USUB (i : ι) (source : σ)
  | DEL (i : ι)
  | PUB (i : ι) (m : μ)
  /-- The owner takes a message of the node. -/
  | owner (i : ι)
  /-- The node takes a message of the owner. -/
  | node (i : ι)
  | receive (x : ι × σ × Nat)

inductive Report (ι σ μ : Type)
  | delivered (i : ι) (x : σ) (m : μ)
  /-- A service reads a package that is freed. -/
  | dangling (i : ι) (x : σ)
  /-- "Invalid multicast package reference". -/
  | invalid (i : ι) (x : σ)

variable [DecidableEq ι] [DecidableEq σ]

/-- The channel as `NEW` makes it at the owner. -/
def State.init (o : ι) : State ι σ μ where
  node i := ⟨if i = o then some ⟨[], 0⟩ else none, none⟩
  up _ := []
  down _ := []
  mail := []
  packs _ := none
  fresh := 0

def State.set (s : State ι σ μ) (i : ι) (n : Node ι σ) : State ι σ μ :=
  { s with node := Function.update s.node i n }

/-- The end of `SUB`. -/
def subscribe (group : Option (Group σ)) (source : σ) : Option (Group σ) :=
  group.map fun g => if source ∈ g.keys then g else ⟨g.keys ++ [source], g.n + 1⟩

/-- What `publish` makes of the package of a message.  That of a dead channel is bound once and
closed. -/
def packOf (n : Node ι σ) (m : μ) : Option (McPackage μ) :=
  match n.channel with
  | some ⟨_ :: _, ref⟩ => bindrefer ⟨0, m⟩ ref
  | _ => (bindrefer ⟨0, m⟩ 1).bind fun p => (closelocal p).1

def publish (s : State ι σ μ) (i : ι) (m : μ) : State ι σ μ :=
  let n := s.node i
  { s with
    down := s.down.send fun k => if n.remote k then [.PUB m] else []
    mail := s.mail ++ n.keys.map (i, ·, s.fresh)
    packs := Function.update s.packs s.fresh (packOf n m)
    fresh := s.fresh + 1 }

variable (o : ι)

/-- `DEL` at the owner. -/
def delete (s : State ι σ μ) : State ι σ μ :=
  let n := s.node o
  { s.set o ⟨none, none⟩ with down := s.down.send fun k => if n.remote k then [.DELR] else [] }

def SUB (s : State ι σ μ) (i : ι) (source : σ) : State ι σ μ :=
  let n := s.node i
  if i ≠ o ∧ n.channel.isNone then { s with up := s.up.send (.single i [.SUBR source]) }
  else s.set i { n with channel := subscribe n.channel source }

/-- `SUB` after its call of `SUBR`. -/
def subscribed (s : State ι σ μ) (i : ι) (source : σ) (gone : Bool) : State ι σ μ :=
  let n := s.node i
  if gone then s
  else s.set i { n with channel := subscribe (some (n.channel.getD ⟨[], 0⟩)) source }

def USUB (s : State ι σ μ) (i : ι) (source : σ) : State ι σ μ :=
  let n := s.node i
  match n.channel with
  | none => s -- the assertion fails
  | some g =>
    if source ∈ g.keys then
      let g : Group σ := ⟨g.keys.erase source, g.n - 1⟩
      if g.n = 0 ∧ i ≠ o then
        { s.set i { n with channel := none } with up := s.up.send (.single i [.USUBR]) }
      else s.set i { n with channel := some g }
    else s

/-- A message of node `i` at the owner. -/
def State.takeUp (s : State ι σ μ) (i : ι) : Up σ μ → State ι σ μ
  | .SUBR source =>
    let n := s.node o
    match n.channel with
    | none => { s with down := s.down.send (.single i [.response source true]) }
    | some _ =>
      { s.set o { n with
          channel_remote :=
            some (Function.update (n.channel_remote.getD fun _ => false) i true) } with
        down := s.down.send (.single i [.response source false]) }
  | .USUBR =>
    let n := s.node o
    s.set o { n with channel_remote := n.channel_remote.map (Function.update · i false) }
  | .DEL => delete o s
  | .PUB m => publish s o m

/-- A message of the owner at node `i`. -/
def State.takeDown (s : State ι σ μ) (i : ι) : Down σ μ → State ι σ μ
  | .response source gone => subscribed s i source gone
  | .DELR => s.set i { s.node i with channel := none }
  | .PUB m => publish s i m

/-- `dispatch_subscribe` of `multicast.lua`, which always closes the package. -/
def State.receive (s : State ι σ μ) (x : ι × σ × Nat) :
    State ι σ μ × List (Report ι σ μ) :=
  let s := { s with mail := s.mail.erase x }
  match s.packs x.2.2 with
  | none => (s, [.dangling x.1 x.2.1])
  | some p =>
    let (p', invalid) := closelocal p
    ({ s with packs := Function.update s.packs x.2.2 p' },
      .delivered x.1 x.2.1 p.data :: if invalid then [.invalid x.1 x.2.1] else [])

/-- `o` is the owner of the channel. -/
def State.next (s : State ι σ μ) : Event ι σ μ → State ι σ μ × List (Report ι σ μ)
  | .SUB i source => (SUB o s i source, [])
  | .USUB i source => (USUB o s i source, [])
  | .DEL i =>
    (if i ≠ o then { s with up := s.up.send (.single i [.DEL]) } else delete o s, [])
  | .PUB i m =>
    (if i ≠ o then { s with up := s.up.send (.single i [.PUB m]) } else publish s i m, [])
  | .owner i =>
    match s.up i with
    | u :: _ => ({ s with up := s.up.receive i }.takeUp o i u, [])
    | [] => (s, [])
  | .node i =>
    match s.down i with
    | d :: _ => ({ s with down := s.down.receive i }.takeDown i d, [])
    | [] => (s, [])
  | .receive x => s.receive x

def State.Enabled (s : State ι σ μ) : Event ι σ μ → Prop
  | .USUB i source => ∃ g, (s.node i).channel = some g ∧ source ∈ g.keys
  | .owner i => s.up i ≠ []
  | .node i => s.down i ≠ []
  | .receive x => x ∈ s.mail
  | _ => True

def Step (s : State ι σ μ) (l : Event ι σ μ × List (Report ι σ μ)) (t : State ι σ μ) : Prop :=
  s.Enabled l.1 ∧ s.next o l.1 = (t, l.2)

/-- Nothing is in flight. -/
def State.Quiet (s : State ι σ μ) : Prop :=
  (∀ i, s.up i = []) ∧ (∀ i, s.down i = []) ∧ s.mail = []

end XsServer.Multicast
