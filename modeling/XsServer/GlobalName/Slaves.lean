import XsServer.Lib.Channel
import XsServer.Lib.Run
import XsServer.Seri.Encode

/-! `cmaster.lua` and the slaves of `cslave.lua`, with the packages between them.  The connections
of the slaves with each other and what they tell their harbor services are left out. -/

namespace XsServer.GlobalName

open Lib

abbrev Name := List UInt8

abbrev Address := Int64

/-- The packages between a slave and the master, with what the tables of names use of them. -/
inductive Package
  | H
  | R (name : Name) (address : Address)
  | Q (name : Name)
  | N (name : Name) (address : Address)
  deriving DecidableEq

/-- `skynet.packstring` of a package about a name. -/
def Package.packstring : Package → List UInt8
  | .H => []
  | .R name address =>
    Seri.encodeString [82] ++ Seri.encodeString name ++ Seri.encodeInteger address
  | .Q name => Seri.encodeString [81] ++ Seri.encodeString name
  | .N name address =>
    Seri.encodeString [78] ++ Seri.encodeString name ++ Seri.encodeInteger address

/-- `none` is the failed assertion "too long". -/
def pack_package (p : Package) : Option Package :=
  if p.packstring.length ≤ 255 then some p else none

/-- `slave_node[id]`: `nil`, or a table whose `fd` is the connection or 0. -/
inductive SlaveNode
  | none
  | connected
  | down
  deriving DecidableEq

structure Master (ι : Type) where
  slave_node : ι → SlaveNode
  global_name : Name → Option Address

variable {ι ρ : Type} [DecidableEq ι]

/-- What is written to the slaves, or an error. -/
def dispatch_slave (m : Master ι) (i : ι) : Package → Master ι × Option (Channels ι Package)
  | .R name address =>
    let m := if m.global_name name = none then
      { m with global_name := Function.update m.global_name name (some address) } else m
    (m, (pack_package (.N name address)).map fun message k =>
      if m.slave_node k = .connected then [message] else [])
  | .Q name =>
    match m.global_name name with
    | some address => (m, (pack_package (.N name address)).map fun message => .single i [message])
    | none => (m, some fun _ => [])
  | _ => (m, some fun _ => [])

/-! ### A slave -/

/-- What a requester of `QUERYNAME` gets. -/
inductive Answer
  | address (a : Option Address)
  | error
  deriving DecidableEq

structure Slave (ρ : Type) where
  running : Bool
  globalname : Name → Option Address
  queryname : Name → Option (List ρ)

def response_name (s : Slave ρ) (name : Name) : Slave ρ × List (ρ × Answer) :=
  match s.queryname name with
  | some tmp =>
    ({ s with queryname := Function.update s.queryname name none },
      tmp.map (·, .address (s.globalname name)))
  | none => (s, [])

/-- The slave, the packages for the master, and the answers, after a request. -/
abbrev Handled (ρ : Type) := Slave ρ × List Package × List (ρ × Answer)

def REGISTER (s : Slave ρ) (name : Name) (handle : Address) : Handled ρ :=
  if s.globalname name = none then
    let (s, answers) := response_name
      { s with globalname := Function.update s.globalname name (some handle) } name
    (s, (pack_package (.R name handle)).toList, answers)
  else (s, [], [])

/-- `localname` is `skynet.localname`; 46 is the dot. -/
def QUERYNAME (localname : Name → Option Address) (s : Slave ρ) (name : Name) (r : ρ) :
    Handled ρ :=
  if name.head? = some 46 then (s, [], [(r, .address (localname name))])
  else match s.globalname name with
    | some result => (s, [], [(r, .address (some result))])
    | none => match s.queryname name with
      | none => match pack_package (.Q name) with
        | some p =>
          ({ s with queryname := Function.update s.queryname name (some [r]) }, [p], [])
        | none => (s, [], [(r, .error)])
      | some queue =>
        ({ s with queryname := Function.update s.queryname name (some (queue ++ [r])) }, [], [])

/-- A `Q` from the harbor service. -/
def monitor_harbor (s : Slave ρ) (name : Name) : Handled ρ :=
  match s.globalname name with
  | some _ => (s, [], [])
  | none => (s, (pack_package (.Q name)).toList, [])

def monitor_master (s : Slave ρ) : Package → Slave ρ × List (ρ × Answer)
  | .N name address =>
    response_name { s with globalname := Function.update s.globalname name (some address) } name
  | _ => (s, [])

/-! ### All of them -/

structure State (ι ρ : Type) where
  master : Master ι
  slave : ι → Slave ρ
  /-- From each slave to the master. -/
  up : Channels ι Package
  /-- From the master to each slave. -/
  down : Channels ι Package

def State.init : State ι ρ where
  master := ⟨fun _ => .none, fun _ => none⟩
  slave _ := ⟨false, fun _ => none, fun _ => none⟩
  up _ := []
  down _ := []

inductive Event (ι ρ : Type)
  | start (i : ι)
  | REGISTER (i : ι) (name : Name) (handle : Address)
  | QUERYNAME (i : ι) (name : Name) (r : ρ)
  | harbor (i : ι) (name : Name)
  | master (i : ι)
  | receive (i : ι)
  deriving DecidableEq

def State.handled (s : State ι ρ) (i : ι) (h : Handled ρ) : State ι ρ :=
  { s with slave := Function.update s.slave i h.1, up := s.up.send (.single i h.2.1) }

/-- The master is done with a slave: an error in `dispatch_slave`, or no `H` at first. -/
def State.drop (s : State ι ρ) (m : Master ι) (i : ι) : State ι ρ :=
  { s with
    master := { m with slave_node := Function.update m.slave_node i .down }
    up := s.up.lose i }

/-- The master takes a package from slave `i`. -/
def State.serve (s : State ι ρ) (i : ι) (p : Package) : State ι ρ :=
  match s.master.slave_node i with
  | .none =>
    if p = .H then
      { s with
        master := { s.master with slave_node := Function.update s.master.slave_node i .connected }
        up := s.up.receive i }
    else s.drop s.master i
  | .connected =>
    match dispatch_slave s.master i p with
    | (m, some out) => { s with master := m, up := s.up.receive i, down := s.down.send out }
    | (m, none) => s.drop m i
  | .down => s.drop s.master i

variable (localname : Name → Option Address)

def State.next (s : State ι ρ) : Event ι ρ → State ι ρ × List (ι × ρ × Answer)
  | .start i =>
    ({ s with
      slave := Function.update s.slave i { s.slave i with running := true }
      up := s.up.send (.single i [.H]) }, [])
  | .REGISTER i name handle =>
    let h := REGISTER (s.slave i) name handle
    (s.handled i h, h.2.2.map (i, ·))
  | .QUERYNAME i name r =>
    let h := QUERYNAME localname (s.slave i) name r
    (s.handled i h, h.2.2.map (i, ·))
  | .harbor i name =>
    let h := monitor_harbor (s.slave i) name
    (s.handled i h, h.2.2.map (i, ·))
  | .master i =>
    match s.up i with
    | p :: _ => (s.serve i p, [])
    | [] => (s, [])
  | .receive i =>
    match s.down i with
    | p :: _ =>
      let (slave, answers) := monitor_master (s.slave i) p
      ({ s with slave := Function.update s.slave i slave, down := s.down.receive i },
        answers.map (i, ·))
    | [] => (s, [])

def State.Enabled (s : State ι ρ) : Event ι ρ → Prop
  | .start i => (s.slave i).running = false
  | .REGISTER i _ _ => (s.slave i).running = true
  | .QUERYNAME i _ _ => (s.slave i).running = true
  | .harbor i _ => (s.slave i).running = true
  | .master i => s.up i ≠ []
  | .receive i => s.down i ≠ []

instance (s : State ι ρ) : (e : Event ι ρ) → Decidable (s.Enabled e)
  | .start i => inferInstanceAs (Decidable ((s.slave i).running = false))
  | .REGISTER i _ _ => inferInstanceAs (Decidable ((s.slave i).running = true))
  | .QUERYNAME i _ _ => inferInstanceAs (Decidable ((s.slave i).running = true))
  | .harbor i _ => inferInstanceAs (Decidable ((s.slave i).running = true))
  | .master i => inferInstanceAs (Decidable (s.up i ≠ []))
  | .receive i => inferInstanceAs (Decidable (s.down i ≠ []))

def Step (s : State ι ρ) (l : Event ι ρ × List (ι × ρ × Answer)) (t : State ι ρ) : Prop :=
  s.Enabled l.1 ∧ s.next localname l.1 = (t, l.2)

/-- Nothing is in flight. -/
def State.Quiet (s : State ι ρ) : Prop := (∀ i, s.up i = []) ∧ ∀ i, s.down i = []

end XsServer.GlobalName
