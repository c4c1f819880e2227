import XsServer.Mq.Queue
import XsServer.Lib.Family
import Mathlib.Tactic.DeriveFintype
import Mathlib.Data.Nat.Bitwise

/-! The timing wheel, `struct timer` of `skynet_timer.c`.  A list is named by its slot, and a node
carries what `timer_add` copies after it.  `timer_update` gives the lock back while it dispatches
a list, so it runs in steps, between which any thread can call `timer_add`.

Which list holds a node: in terms of quotients by powers of two, `slotOf` is the list that
`add_node` picks and `movedSlot` the one that `timer_shift` moves; when the time advances by one, a
node outside the moved list is in the right list already.  No step loses or copies a node. -/

namespace XsServer.Timer

open Mq Lib.Family

def TIME_NEAR_SHIFT : UInt32 := 8
def TIME_NEAR : UInt32 := 1 <<< TIME_NEAR_SHIFT
def TIME_LEVEL_SHIFT : UInt32 := 6
def TIME_LEVEL : UInt32 := 1 <<< TIME_LEVEL_SHIFT
def TIME_NEAR_MASK : UInt32 := TIME_NEAR - 1
def TIME_LEVEL_MASK : UInt32 := TIME_LEVEL - 1

/-- A list of the wheel: `near[idx]` or `t[level][idx]`. -/
inductive Slot
  | near (idx : Fin 256)
  | t (level : Fin 4) (idx : Fin 64)
  deriving DecidableEq, Fintype

variable {α : Type*}

structure TimerNode (α : Type*) where
  expire : UInt32
  arg : α
  deriving DecidableEq

structure Wheel (α : Type*) where
  list : Slot → List (TimerNode α)
  time : UInt32

def linkClear (T : Wheel α) (slot : Slot) : Wheel α :=
  { T with list := Function.update T.list slot [] }

def link (T : Wheel α) (slot : Slot) (node : TimerNode α) : Wheel α :=
  { T with list := Function.update T.list slot (T.list slot ++ [node]) }

def nearAt (idx : Nat) : Slot := .near (Fin.ofNat 256 idx)

def levelAt (i idx : Nat) : Slot := .t (Fin.ofNat 4 i) (Fin.ofNat 64 idx)

/-- `near[time & TIME_NEAR_MASK]`. -/
def nearSlot (time : UInt32) : Slot := nearAt (time &&& TIME_NEAR_MASK).toNat

/-- `t[i][idx & TIME_LEVEL_MASK]`. -/
def levelSlot (i : Nat) (idx : UInt32) : Slot := levelAt i (idx &&& TIME_LEVEL_MASK).toNat

/-- The loop of `add_node` from round `i` on, with `n` rounds left. -/
def findLevel (time currentTime mask : UInt32) (i : Nat) : Nat → Nat
  | 0 => i
  | n + 1 =>
    if time ||| (mask - 1) = currentTime ||| (mask - 1) then i
    else findLevel time currentTime (mask <<< TIME_LEVEL_SHIFT) (i + 1) n

/-- The list that `add_node` links a node to. -/
def nodeSlot (time currentTime : UInt32) : Slot :=
  if time ||| TIME_NEAR_MASK = currentTime ||| TIME_NEAR_MASK then nearSlot time
  else
    let i := findLevel time currentTime (TIME_NEAR <<< TIME_LEVEL_SHIFT) 0 3
    levelSlot i (time >>> (TIME_NEAR_SHIFT + UInt32.ofNat i * TIME_LEVEL_SHIFT))

def addNode (T : Wheel α) (node : TimerNode α) : Wheel α :=
  link T (nodeSlot node.expire T.time) node

/-- The node that `timer_add` allocates. -/
def newNode (T : Wheel α) (arg : α) (time : Int32) : TimerNode α :=
  { expire := time.toUInt32 + T.time, arg := arg }

def timerAdd (T : Wheel α) (arg : α) (time : Int32) : Wheel α :=
  addNode T (newNode T arg time)

def moveList (T : Wheel α) (slot : Slot) : Wheel α :=
  (T.list slot).foldl addNode (linkClear T slot)

/-- The list that `timer_shift` moves, found by its loop from round `i` on with `n` rounds left.
`mask` overflows only after the last round. -/
def findShift (ct mask time : UInt32) (i : Nat) : Nat → Option Slot
  | 0 => none
  | n + 1 =>
    if ct &&& (mask - 1) = 0 then
      let idx := time &&& TIME_LEVEL_MASK
      if idx ≠ 0 then some (levelSlot i idx)
      else findShift ct (mask <<< TIME_LEVEL_SHIFT) (time >>> TIME_LEVEL_SHIFT) (i + 1) n
    else none

/-- The list that `timer_shift` moves when the time becomes `ct`. -/
def shiftSlot (ct : UInt32) : Option Slot :=
  if ct = 0 then some (levelSlot 3 0)
  else findShift ct TIME_NEAR (ct >>> TIME_NEAR_SHIFT) 0 4

def timerShift (T : Wheel α) : Wheel α :=
  let T := { T with time := T.time + 1 }
  match shiftSlot T.time with
  | some slot => moveList T slot
  | none => T

def timerCreateTimer : Wheel α where
  list := fun _ => []
  time := 0

/-! ### The updating thread -/

/-- `struct timer_event`, which `skynet_timeout` adds. -/
structure TimerEvent where
  handle : UInt32
  session : Int32
  deriving DecidableEq

/-- What a node carries here: the event, and of the call of `timer_add` its argument `time`, how
many calls and how many shifts came before it, and the time of the wheel. -/
structure Added where
  event : TimerEvent
  time : Int32
  serial : Nat
  tick : Nat
  now : UInt32
  deriving DecidableEq

abbrev Node := TimerNode Added

def PTYPE_RESPONSE : UInt64 := 1
def MESSAGE_TYPE_SHIFT : UInt64 := 56

/-- A node that `dispatch_list` has dispatched, the number of shifts before, the time of the
wheel, and whether it was in the second `timer_execute` of the update. -/
structure Dispatch where
  node : Node
  tick : Nat
  now : UInt32
  late : Bool

/-- The message that `dispatch_list` pushes, and the handle it pushes it to. -/
def Dispatch.message (d : Dispatch) : UInt32 × SkynetMessage :=
  (d.node.arg.event.handle,
    { source := 0
      session := d.node.arg.event.session
      data := 0
      sz := PTYPE_RESPONSE <<< MESSAGE_TYPE_SHIFT })

/-- Where the thread that runs `timer_update` is.  `late` tells its second `timer_execute` from
its first. -/
inductive Pc
  | idle
  /-- at the test of the loop of `timer_execute` -/
  | execute (late : Bool)
  /-- in `dispatch_list`, with `node` the current one -/
  | dispatch (late : Bool) (node : Node) (rest : List Node)
  /-- before `timer_shift` -/
  | shift

/-- The wheel, the updating thread, the number of shifts, the nodes that were added and the
dispatches, the first ones first. -/
structure System where
  wheel : Wheel Added
  pc : Pc
  ticks : Nat
  added : List Node
  dispatched : List Dispatch

def start (time : UInt32) : System where
  wheel := { timerCreateTimer with time := time }
  pc := .idle
  ticks := 0
  added := []
  dispatched := []

/-- The next step of `timer_update`. -/
def updateStep (s : System) : System :=
  match s.pc with
  | .idle => { s with pc := .execute false }
  | .execute late =>
    match s.wheel.list (nearSlot s.wheel.time) with
    | [] => { s with pc := if late then .idle else .shift }
    | node :: rest =>
      { s with
        wheel := linkClear s.wheel (nearSlot s.wheel.time)
        pc := .dispatch late node rest }
  | .dispatch late node rest =>
    { s with
      dispatched := s.dispatched ++
        [{ node := node, tick := s.ticks, now := s.wheel.time, late := late }]
      pc :=
        match rest with
        | [] => .execute late
        | node :: rest => .dispatch late node rest }
  | .shift =>
    { s with wheel := timerShift s.wheel, pc := .execute true, ticks := s.ticks + 1 }

/-- The node of a call of `timer_add` by any thread. -/
def addedNode (s : System) (event : TimerEvent) (time : Int32) : Node :=
  newNode s.wheel
    { event := event
      time := time
      serial := s.added.length
      tick := s.ticks
      now := s.wheel.time }
    time

def addStep (s : System) (event : TimerEvent) (time : Int32) : System :=
  { s with
    wheel := timerAdd s.wheel (addedNode s event time).arg time
    added := s.added ++ [addedNode s event time] }

inductive Action
  | update
  | add (event : TimerEvent) (time : Int32)

def Step (s : System) : Action → System → Prop
  | .update, t => t = updateStep s
  | .add event time, t => t = addStep s event time

/-- The list for a node that expires at `e`, at time `c`. -/
def slotOf (e c : Nat) : Slot :=
  if e / 2 ^ 8 = c / 2 ^ 8 then nearAt e
  else if e / 2 ^ 14 = c / 2 ^ 14 then levelAt 0 (e / 2 ^ 8)
  else if e / 2 ^ 20 = c / 2 ^ 20 then levelAt 1 (e / 2 ^ 14)
  else if e / 2 ^ 26 = c / 2 ^ 26 then levelAt 2 (e / 2 ^ 20)
  else levelAt 3 (e / 2 ^ 26)

/-- The list that is moved when the time becomes `c`. -/
def movedSlot (c : Nat) : Option Slot :=
  if c = 0 then some (levelAt 3 0)
  else if c % 2 ^ 8 ≠ 0 then none
  else if c / 2 ^ 8 % 64 ≠ 0 then some (levelAt 0 (c / 2 ^ 8))
  else if c / 2 ^ 14 % 64 ≠ 0 then some (levelAt 1 (c / 2 ^ 14))
  else if c / 2 ^ 20 % 64 ≠ 0 then some (levelAt 2 (c / 2 ^ 20))
  else if c / 2 ^ 26 % 64 ≠ 0 then some (levelAt 3 (c / 2 ^ 26))
  else none

theorem or_two_pow_sub_one (x y k : Nat) :
    x ||| (2 ^ k - 1) = y ||| (2 ^ k - 1) ↔ x / 2 ^ k = y / 2 ^ k := by
  constructor
  · intro h
    refine Nat.eq_of_testBit_eq fun i => ?_
    have hbit := congrArg (fun n => n.testBit (i + k)) h
    simpa [Nat.testBit_div_two_pow, Nat.testBit_two_pow_sub_one] using hbit
  · intro h
    refine Nat.eq_of_testBit_eq fun i => ?_
    rcases Nat.lt_or_ge i k with hlt | hge
    · simp [Nat.testBit_two_pow_sub_one, hlt]
    · have hbit := congrArg (fun n => n.testBit (i - k)) h
      simp only [Nat.testBit_div_two_pow, Nat.sub_add_cancel hge] at hbit
      simp [hbit]

theorem or_mask_eq {mask : UInt32} {k : Nat} (hmask : (mask - 1).toNat = 2 ^ k - 1)
    (x y : UInt32) :
    x ||| (mask - 1) = y ||| (mask - 1) ↔ x.toNat / 2 ^ k = y.toNat / 2 ^ k := by
  rw [← UInt32.toNat_inj, UInt32.toNat_or, UInt32.toNat_or, hmask, or_two_pow_sub_one]

theorem toNat_and_mask {mask : UInt32} {k : Nat} (hmask : (mask - 1).toNat = 2 ^ k - 1)
    (x : UInt32) :
    (x &&& (mask - 1)).toNat = x.toNat % 2 ^ k := by
  rw [UInt32.toNat_and, hmask, Nat.and_two_pow_sub_one_eq_mod]

@[simp] theorem nearAt_mod (n : Nat) : nearAt (n % 256) = nearAt n := by
  simp [nearAt, Fin.ext_iff]

@[simp] theorem levelAt_mod (i n : Nat) : levelAt i (n % 64) = levelAt i n := by
  simp [levelAt, Fin.ext_iff]

theorem nearAt_inj {m n : Nat} : nearAt m = nearAt n ↔ m % 256 = n % 256 := by
  simp [nearAt, Fin.ext_iff]

theorem levelAt_ne_nearAt (i m n : Nat) : levelAt i m ≠ nearAt n := Slot.noConfusion

theorem near_eq (x : UInt32) : nearSlot x = nearAt x.toNat := by
  have h : (x &&& TIME_NEAR_MASK).toNat = x.toNat % 2 ^ 8 := toNat_and_mask (by decide) x
  simp [nearSlot, h]

theorem level_eq (i : Nat) (x : UInt32) :
    levelSlot i x = levelAt i x.toNat := by
  have h : (x &&& TIME_LEVEL_MASK).toNat = x.toNat % 2 ^ 6 := toNat_and_mask (by decide) x
  simp [levelSlot, h]

theorem toNat_shift {shift : UInt32} {k : Nat} (hshift : shift.toNat % 32 = k) (x : UInt32) :
    (x >>> shift).toNat = x.toNat / 2 ^ k := by
  rw [UInt32.toNat_shiftRight, hshift, Nat.shiftRight_eq_div_pow]

theorem nodeSlot_eq (e c : UInt32) : nodeSlot e c = slotOf e.toNat c.toNat := by
  have h8 : e ||| TIME_NEAR_MASK = c ||| TIME_NEAR_MASK ↔ _ :=
    @or_mask_eq TIME_NEAR 8 (by decide) e c
  have h14 := @or_mask_eq (TIME_NEAR <<< TIME_LEVEL_SHIFT) 14 (by decide) e c
  have h20 := @or_mask_eq (TIME_NEAR <<< TIME_LEVEL_SHIFT <<< TIME_LEVEL_SHIFT) 20 (by decide) e c
  have h26 := @or_mask_eq (TIME_NEAR <<< TIME_LEVEL_SHIFT <<< TIME_LEVEL_SHIFT <<< TIME_LEVEL_SHIFT)
    26 (by decide) e c
  unfold nodeSlot slotOf findLevel findLevel findLevel findLevel
  simp only [h8, h14, h20, h26, near_eq, level_eq]
  split
  · rfl
  split
  · rw [@toNat_shift _ 8 (by decide)]
  split
  · rw [@toNat_shift _ 14 (by decide)]
  split
  · rw [@toNat_shift _ 20 (by decide)]
  · rw [@toNat_shift _ 26 (by decide)]

theorem findShift_succ {ct mask time : UInt32} {k : Nat} (hmask : (mask - 1).toNat = 2 ^ k - 1)
    (htime : time.toNat = ct.toNat / 2 ^ k) (i n : Nat) :
    findShift ct mask time i (n + 1) =
      if ct.toNat % 2 ^ k = 0 then
        if ct.toNat / 2 ^ k % 64 ≠ 0 then
          some (levelAt i (ct.toNat / 2 ^ k))
        else findShift ct (mask <<< TIME_LEVEL_SHIFT) (time >>> TIME_LEVEL_SHIFT) (i + 1) n
      else none := by
  have hidx : (time &&& TIME_LEVEL_MASK).toNat = ct.toNat / 2 ^ k % 64 := by
    rw [← htime]
    exact @toNat_and_mask TIME_LEVEL 6 (by decide) time
  have hlow : ct &&& (mask - 1) = 0 ↔ ct.toNat % 2 ^ k = 0 := by
    rw [← UInt32.toNat_inj, toNat_and_mask hmask]; rfl
  have hzero : time &&& TIME_LEVEL_MASK ≠ 0 ↔ ct.toNat / 2 ^ k % 64 ≠ 0 := by
    rw [Ne, ← UInt32.toNat_inj, hidx]; rfl
  have hslot : levelSlot i (time &&& TIME_LEVEL_MASK) =
      levelAt i (ct.toNat / 2 ^ k) := by
    rw [level_eq, hidx, levelAt_mod]
  simp only [findShift, hlow, hzero, hslot]

theorem toNat_shift_shift {x time : UInt32} {k : Nat} (h : time.toNat = x.toNat / 2 ^ k) :
    (time >>> TIME_LEVEL_SHIFT).toNat = x.toNat / 2 ^ (k + 6) := by
  rw [@toNat_shift _ 6 (by decide), h, Nat.div_div_eq_div_mul, pow_add]

theorem shiftSlot_eq (c : UInt32) : shiftSlot c = movedSlot c.toNat := by
  have htime : (c >>> TIME_NEAR_SHIFT).toNat = c.toNat / 2 ^ 8 := toNat_shift (by decide) c
  have hzero : c = 0 ↔ c.toNat = 0 := by rw [← UInt32.toNat_inj]; rfl
  unfold shiftSlot movedSlot
  rw [findShift_succ (by decide) htime, findShift_succ (by decide) (toNat_shift_shift htime),
    findShift_succ (by decide) (toNat_shift_shift (toNat_shift_shift htime)),
    findShift_succ (by decide) (toNat_shift_shift (toNat_shift_shift (toNat_shift_shift htime)))]
  simp only [hzero, findShift, level_eq]
  split
  · rfl
  by_cases h8 : c.toNat % 2 ^ 8 = 0
  · rw [if_pos h8, if_neg (not_not.mpr h8)]
    split
    · rfl
    rw [if_pos (show c.toNat % 2 ^ (8 + 6) = 0 by omega)]
    split
    · rfl
    rw [if_pos (show c.toNat % 2 ^ (8 + 6 + 6) = 0 by omega)]
    split
    · rfl
    rw [if_pos (show c.toNat % 2 ^ (8 + 6 + 6 + 6) = 0 by omega)]
  · rw [if_neg h8, if_pos h8]

/-- When the time `c` becomes `c'`, a node that expires later and is not in the moved list is in
the right list. -/
theorem slotOf_succ {c c' d e : Nat} (hc : c < 2 ^ 32) (hc' : c' = (c + 1) % 2 ^ 32)
    (he : e = (c + d) % 2 ^ 32) (hd : 1 ≤ d) (hlt : d < 2 ^ 31)
    (hne : movedSlot c' ≠ some (slotOf e c)) : slotOf e c' = slotOf e c := by
  have hnext : c' = c + 1 ∧ c' < 2 ^ 32 ∨ c' = 0 ∧ c + 1 = 2 ^ 32 := by omega
  have hahead : e = c + d ∨ e + 2 ^ 32 = c + d := by omega
  clear hc' he
  by_cases h8 : c' % 2 ^ 8 ≠ 0
  · rw [slotOf, slotOf, show c' / 2 ^ 8 = c / 2 ^ 8 by omega,
      show c' / 2 ^ 14 = c / 2 ^ 14 by omega, show c' / 2 ^ 20 = c / 2 ^ 20 by omega,
      show c' / 2 ^ 26 = c / 2 ^ 26 by omega]
  have e8 : e / 2 ^ 8 ≠ c / 2 ^ 8 := by omega
  by_cases h14 : c' % 2 ^ 14 ≠ 0
  · have hmoved : movedSlot c' = some (levelAt 0 (c' / 2 ^ 8)) := by
      rw [movedSlot, if_neg (by omega), if_neg h8, if_pos (by omega)]
    have e8' : e / 2 ^ 8 ≠ c' / 2 ^ 8 := by
      intro h
      rw [hmoved, slotOf, if_neg e8, if_pos (by omega), h] at hne
      exact hne rfl
    rw [slotOf, slotOf, if_neg e8, if_neg e8', show c' / 2 ^ 14 = c / 2 ^ 14 by omega,
      show c' / 2 ^ 20 = c / 2 ^ 20 by omega, show c' / 2 ^ 26 = c / 2 ^ 26 by omega]
  have e14 : e / 2 ^ 14 ≠ c / 2 ^ 14 := by omega
  by_cases h20 : c' % 2 ^ 20 ≠ 0
  · have hmoved : movedSlot c' = some (levelAt 1 (c' / 2 ^ 14)) := by
      rw [movedSlot, if_neg (by omega), if_neg h8, if_neg (by omega), if_pos (by omega)]
    have e14' : e / 2 ^ 14 ≠ c' / 2 ^ 14 := by
      intro h
      rw [hmoved, slotOf, if_neg e8, if_neg e14, if_pos (by omega), h] at hne
      exact hne rfl
    rw [slotOf, slotOf, if_neg e8, if_neg (show e / 2 ^ 8 ≠ c' / 2 ^ 8 by omega), if_neg e14,
      if_neg e14', show c' / 2 ^ 20 = c / 2 ^ 20 by omega, show c' / 2 ^ 26 = c / 2 ^ 26 by omega]
  have e20 : e / 2 ^ 20 ≠ c / 2 ^ 20 := by omega
  by_cases h26 : c' % 2 ^ 26 ≠ 0
  · have hmoved : movedSlot c' = some (levelAt 2 (c' / 2 ^ 20)) := by
      rw [movedSlot, if_neg (by omega), if_neg h8, if_neg (by omega), if_neg (by omega),
        if_pos (by omega)]
    have e20' : e / 2 ^ 20 ≠ c' / 2 ^ 20 := by
      intro h
      rw [hmoved, slotOf, if_neg e8, if_neg e14, if_neg e20, if_pos (by omega), h] at hne
      exact hne rfl
    rw [slotOf, slotOf, if_neg e8, if_neg (show e / 2 ^ 8 ≠ c' / 2 ^ 8 by omega), if_neg e14,
      if_neg (show e / 2 ^ 14 ≠ c' / 2 ^ 14 by omega), if_neg e20, if_neg e20',
      show c' / 2 ^ 26 = c / 2 ^ 26 by omega]
  have e26 : e / 2 ^ 26 ≠ c / 2 ^ 26 := by omega
  have hmoved : movedSlot c' = some (levelAt 3 (c' / 2 ^ 26)) := by
    by_cases hz : c' = 0
    · rw [movedSlot, if_pos hz, hz]; rfl
    · rw [movedSlot, if_neg hz, if_neg h8, if_neg (by omega), if_neg (by omega),
        if_neg (by omega), if_pos (by omega)]
  have e26' : e / 2 ^ 26 ≠ c' / 2 ^ 26 := by
    intro h
    rw [hmoved, slotOf, if_neg e8, if_neg e14, if_neg e20, if_neg e26, h] at hne
    exact hne rfl
  rw [slotOf, slotOf, if_neg e8, if_neg (show e / 2 ^ 8 ≠ c' / 2 ^ 8 by omega), if_neg e14,
    if_neg (show e / 2 ^ 14 ≠ c' / 2 ^ 14 by omega), if_neg e20,
    if_neg (show e / 2 ^ 20 ≠ c' / 2 ^ 20 by omega), if_neg e26, if_neg e26']

theorem slotOf_eq_near {c d e : Nat} (hc : c < 2 ^ 32) (he : e = (c + d) % 2 ^ 32)
    (hlt : d < 2 ^ 31) : slotOf e c = nearAt c ↔ d = 0 := by
  constructor
  · intro h
    unfold slotOf at h
    split_ifs at h with h8
    · have hlow := nearAt_inj.mp h
      omega
    all_goals exact (levelAt_ne_nearAt _ _ _ h).elim
  · rintro rfl
    rw [slotOf, if_pos (by omega), show e = c by omega]

/-! ### Where the nodes are -/

def Wheel.nodes (T : Wheel α) : Multiset (TimerNode α) := total T.list

theorem nodes_link (T : Wheel α) (slot : Slot) (node : TimerNode α) :
    (link T slot node).nodes = T.nodes + {node} :=
  total_append T.list slot node

theorem mem_link {T : Wheel α} {slot slot' : Slot} {node n : TimerNode α}
    (h : n ∈ (link T slot node).list slot') : n ∈ T.list slot' ∨ n = node ∧ slot' = slot := by
  by_cases hs : slot' = slot
  · subst hs
    simpa [link, or_comm] using h
  · exact Or.inl (by simpa [link, hs] using h)

theorem nodes_linkClear (T : Wheel α) (slot : Slot) :
    (linkClear T slot).nodes + (T.list slot : Multiset _) = T.nodes :=
  total_clear T.list slot

theorem nodes_foldl (T : Wheel α) (l : List (TimerNode α)) :
    (l.foldl addNode T).nodes = T.nodes + (l : Multiset _) := by
  induction l generalizing T with
  | nil => simp
  | cons node l ih =>
    rw [List.foldl_cons, ih, addNode, nodes_link, add_assoc, Multiset.singleton_add,
      Multiset.cons_coe]

theorem nodes_moveList (T : Wheel α) (slot : Slot) : (moveList T slot).nodes = T.nodes := by
  rw [moveList, nodes_foldl, nodes_linkClear]

theorem time_foldl (T : Wheel α) (l : List (TimerNode α)) :
    (l.foldl addNode T).time = T.time := by
  induction l generalizing T with
  | nil => rfl
  | cons node l ih => exact ih _

theorem list_foldl (T : Wheel α) (l : List (TimerNode α)) (slot : Slot) :
    (l.foldl addNode T).list slot =
      T.list slot ++ l.filter fun node => nodeSlot node.expire T.time = slot := by
  induction l generalizing T with
  | nil => simp
  | cons node l ih =>
    have hl : (l.foldl addNode (addNode T node)).list slot = (addNode T node).list slot ++
        l.filter fun node => nodeSlot node.expire T.time = slot := ih (addNode T node)
    rw [List.foldl_cons, hl, List.filter_cons]
    by_cases h : nodeSlot node.expire T.time = slot
    · subst h; simp [addNode, link]
    · simp [addNode, link, h, Function.update_of_ne (Ne.symm h)]

theorem time_moveList (T : Wheel α) (slot : Slot) : (moveList T slot).time = T.time :=
  time_foldl _ _

theorem list_moveList (T : Wheel α) (moved slot : Slot) :
    (moveList T moved).list slot = (if slot = moved then [] else T.list slot) ++
      (T.list moved).filter fun node => nodeSlot node.expire T.time = slot := by
  rw [moveList, list_foldl]
  congr 1
  exact Function.update_apply ..

/-- The wheel with its time advanced, before `timer_shift` moves a list. -/
def tick (T : Wheel α) : Wheel α := { T with time := T.time + 1 }

theorem timerShift_cases (T : Wheel α) :
    (shiftSlot (T.time + 1) = none ∧ timerShift T = tick T) ∨
      ∃ moved, shiftSlot (T.time + 1) = some moved ∧ timerShift T = moveList (tick T) moved := by
  cases h : shiftSlot (T.time + 1) with
  | none => exact Or.inl ⟨rfl, by simp only [timerShift, h, tick]⟩
  | some moved => exact Or.inr ⟨moved, rfl, by simp only [timerShift, h, tick]⟩

theorem time_timerShift (T : Wheel α) : (timerShift T).time = T.time + 1 := by
  rcases timerShift_cases T with ⟨-, h⟩ | ⟨moved, -, h⟩
  · rw [h]; rfl
  · rw [h, time_moveList]; rfl

theorem nodes_timerShift (T : Wheel α) : (timerShift T).nodes = T.nodes := by
  rcases timerShift_cases T with ⟨-, h⟩ | ⟨moved, -, h⟩
  · rw [h]; rfl
  · rw [h, nodes_moveList]; rfl

theorem mem_timerShift {T : Wheel α} {slot : Slot} {node : TimerNode α}
    (h : node ∈ (timerShift T).list slot) :
    node ∈ T.list slot ∧ shiftSlot (T.time + 1) ≠ some slot ∨
      (∃ moved, node ∈ T.list moved) ∧ nodeSlot node.expire (T.time + 1) = slot := by
  rcases timerShift_cases T with ⟨hmoved, hshift⟩ | ⟨moved, hmoved, hshift⟩
  · rw [hshift] at h
    exact Or.inl ⟨h, by simp [hmoved]⟩
  · rw [hshift, list_moveList, List.mem_append, List.mem_filter] at h
    rcases h with h | ⟨hmem, hslot⟩
    · by_cases hs : slot = moved
      · simp [hs] at h
      · refine Or.inl ⟨by simpa [hs, tick] using h, ?_⟩
        rw [hmoved]
        simpa using Ne.symm hs
    · exact Or.inr ⟨⟨moved, hmem⟩, of_decide_eq_true hslot⟩

theorem sublist_timerShift {T : Wheel α} {slot : Slot} {l : List (TimerNode α)} {expire : UInt32}
    (h : l.Sublist (T.list slot)) (hl : ∀ node ∈ l, node.expire = expire) :
    ∃ slot', l.Sublist ((timerShift T).list slot') := by
  rcases timerShift_cases T with ⟨-, hshift⟩ | ⟨moved, -, hshift⟩
  · exact ⟨slot, by rw [hshift]; exact h⟩
  · rw [hshift]
    by_cases hs : slot = moved
    · subst hs
      refine ⟨nodeSlot expire (T.time + 1), ?_⟩
      rw [list_moveList]
      refine List.Sublist.trans ?_ (List.sublist_append_right _ _)
      have hfilter : l.filter (fun node => nodeSlot node.expire (T.time + 1) =
          nodeSlot expire (T.time + 1)) = l :=
        List.filter_eq_self.mpr fun node hn => by simp [hl node hn]
      rw [← hfilter]
      exact h.filter _
    · refine ⟨slot, ?_⟩
      rw [list_moveList, if_neg hs]
      exact h.trans (List.sublist_append_left _ _)

theorem sublist_link {T : Wheel α} {slot : Slot} {l : List (TimerNode α)}
    (h : l.Sublist (T.list slot)) (slot' : Slot) (node : TimerNode α) :
    l.Sublist ((link T slot' node).list slot) := by
  by_cases hs : slot = slot'
  · subst hs
    simpa [link] using h.trans (List.sublist_append_left _ _)
  · simpa [link, hs] using h

end XsServer.Timer
