import XsServer.Timer.Wheel
import XsServer.Lib.Run

/-! What holds of the wheel between any two steps: a node added with a positive `time` is in the
list that its expiry and the time of the wheel name, and it is not overdue. -/

namespace XsServer.Timer

open Lib.Family

/-- The timers that `skynet_timeout` adds. -/
def inRange (n : Node) : Prop := 1 ≤ n.arg.time.toInt

instance (n : Node) : Decidable (inRange n) := inferInstanceAs (Decidable (1 ≤ n.arg.time.toInt))

def deadline (n : Node) : Nat := n.arg.tick + n.arg.time.toInt.toNat

def System.current (s : System) : List Node :=
  match s.pc with
  | .dispatch _ node rest => node :: rest
  | _ => []

def System.late (s : System) : Bool :=
  match s.pc with
  | .execute late | .dispatch late _ _ => late
  | _ => false

/-- No node in a list is due before. -/
def System.horizon (s : System) : Nat := if s.late then s.ticks else s.ticks + 1

theorem horizon_le {s t : System} {n : Nat} (hle : s.horizon ≤ n) (hlate : t.late = s.late)
    (hticks : t.ticks = s.ticks) : t.horizon ≤ n := by
  rwa [System.horizon, hlate, hticks]

def System.fired (s : System) : List Node := s.dispatched.map (·.node)

structure Inv (time : UInt32) (s : System) : Prop where
  time_eq : s.wheel.time = time + UInt32.ofNat s.ticks
  stamp : ∀ n ∈ s.added, n.arg.tick ≤ s.ticks ∧ n.arg.now = time + UInt32.ofNat n.arg.tick ∧
    n.expire = n.arg.time.toUInt32 + n.arg.now
  serial : s.added.map (·.arg.serial) = List.range s.added.length
  conserved : s.wheel.nodes + (s.current : Multiset Node) + (s.fired : Multiset Node) =
    (s.added : Multiset Node)
  placed : ∀ slot, ∀ n ∈ s.wheel.list slot, inRange n →
    nodeSlot n.expire s.wheel.time = slot ∧ s.horizon ≤ deadline n
  current : ∀ n ∈ s.current, inRange n → s.late = true ∧ deadline n = s.ticks
  dispatched : ∀ d ∈ s.dispatched, inRange d.node →
    d.late = true ∧ d.tick = deadline d.node ∧ d.now = d.node.expire

theorem inv_start (time : UInt32) : Inv time (start time) where
  time_eq := by simp [start]
  stamp := by simp [start]
  serial := rfl
  conserved := by simp [start, timerCreateTimer, Wheel.nodes, total_empty, System.current,
    System.fired]
  placed := by simp [start, timerCreateTimer]
  current := by simp [start, System.current]
  dispatched := by simp [start]

theorem toNat_time {n : Node} (h : inRange n) :
    n.arg.time.toUInt32.toNat = n.arg.time.toInt.toNat ∧ n.arg.time.toInt.toNat < 2 ^ 31 := by
  have hlt := n.arg.time.toInt_lt
  unfold inRange at h
  refine ⟨Int32.toNat_toUInt32_of_le (Int32.le_iff_toInt_le.mpr ?_), by omega⟩
  rw [Int32.toInt_zero]
  omega

variable {time : UInt32} {s : System}

theorem Inv.mem_list (hi : Inv time s) {slot : Slot} {n : Node} (h : n ∈ s.wheel.list slot) :
    n ∈ s.added := by
  rw [← Multiset.mem_coe, ← hi.conserved, Multiset.mem_add, Multiset.mem_add]
  exact Or.inl (Or.inl (mem_total.mpr ⟨slot, h⟩))

theorem Inv.mem_current (hi : Inv time s) {n : Node} (h : n ∈ s.current) : n ∈ s.added := by
  rw [← Multiset.mem_coe, ← hi.conserved, Multiset.mem_add, Multiset.mem_add]
  exact Or.inl (Or.inr h)

theorem Inv.expire_eq (hi : Inv time s) {n : Node} (hn : n ∈ s.added) (hr : inRange n)
    (hle : s.ticks ≤ deadline n) :
    n.expire.toNat = (s.wheel.time.toNat + (deadline n - s.ticks)) % 2 ^ 32 ∧
      deadline n - s.ticks < 2 ^ 31 := by
  obtain ⟨htick, hnow, hexpire⟩ := hi.stamp n hn
  obtain ⟨htime, hlt⟩ := toNat_time hr
  rw [hexpire, hnow, hi.time_eq]
  simp only [UInt32.toNat_add, htime, UInt32.toNat_ofNat']
  unfold deadline at hle ⊢
  omega

theorem Inv.due (hi : Inv time s) {n : Node} (hn : n ∈ s.wheel.list (nearSlot s.wheel.time))
    (hr : inRange n) : deadline n = s.ticks := by
  obtain ⟨hslot, hle⟩ := hi.placed _ n hn hr
  have hge : s.ticks ≤ deadline n := by unfold System.horizon at hle; split at hle <;> omega
  obtain ⟨hexpire, hlt⟩ := hi.expire_eq (hi.mem_list hn) hr hge
  rw [nodeSlot_eq, near_eq] at hslot
  have := (slotOf_eq_near s.wheel.time.toNat_lt hexpire hlt).mp hslot
  omega

/-! ### The steps of the updating thread -/

theorem Inv.begin (hi : Inv time s) (hpc : s.pc = .idle) :
    Inv time { s with pc := .execute false } where
  time_eq := hi.time_eq
  stamp := hi.stamp
  serial := hi.serial
  conserved := by simpa [System.current, System.fired, hpc] using hi.conserved
  placed := by simpa [System.horizon, System.late, hpc] using hi.placed
  current := by simp [System.current]
  dispatched := hi.dispatched

theorem Inv.leave (hi : Inv time s) {late : Bool} (hpc : s.pc = .execute late)
    (hnil : s.wheel.list (nearSlot s.wheel.time) = []) :
    Inv time { s with pc := if late then .idle else .shift } where
  time_eq := hi.time_eq
  stamp := hi.stamp
  serial := hi.serial
  conserved := by
    cases late <;> simpa [System.current, System.fired, hpc] using hi.conserved
  placed := by
    intro slot n hn hr
    obtain ⟨hslot, hle⟩ := hi.placed slot n hn hr
    refine ⟨hslot, ?_⟩
    have hne : deadline n ≠ s.ticks := by
      intro heq
      obtain ⟨hexpire, hlt⟩ := hi.expire_eq (hi.mem_list hn) hr heq.ge
      rw [nodeSlot_eq, (slotOf_eq_near s.wheel.time.toNat_lt hexpire hlt).mpr (by omega),
        ← near_eq] at hslot
      rw [← hslot, hnil] at hn
      exact List.not_mem_nil hn
    cases late <;> simp [System.horizon, System.late, hpc] at hle ⊢ <;> omega
  current := by cases late <;> simp [System.current]
  dispatched := hi.dispatched

theorem Inv.take (hi : Inv time s) {late : Bool} {node : Node} {rest : List Node}
    (hpc : s.pc = .execute late)
    (hcons : s.wheel.list (nearSlot s.wheel.time) = node :: rest) :
    Inv time
      { s with
        wheel := linkClear s.wheel (nearSlot s.wheel.time)
        pc := .dispatch late node rest } where
  time_eq := hi.time_eq
  stamp := hi.stamp
  serial := hi.serial
  conserved := by
    have h := hi.conserved
    rw [← nodes_linkClear s.wheel (nearSlot s.wheel.time), hcons] at h
    simpa [System.current, System.fired, hpc] using h
  placed := by
    intro slot n hn hr
    have hmem : n ∈ s.wheel.list slot := by
      by_cases h : slot = nearSlot s.wheel.time
      · simp [linkClear, h] at hn
      · simpa [linkClear, h] using hn
    obtain ⟨hslot, hle⟩ := hi.placed slot n hmem hr
    exact ⟨hslot, horizon_le hle (by simp [System.late, hpc]) rfl⟩
  current := by
    intro n hn hr
    have hmem : n ∈ s.wheel.list (nearSlot s.wheel.time) := by rw [hcons]; exact hn
    have hdue := hi.due hmem hr
    have hle := (hi.placed _ n hmem hr).2
    cases late
    · simp [System.horizon, System.late, hpc] at hle; omega
    · exact ⟨rfl, hdue⟩
  dispatched := hi.dispatched

/-- The state after the dispatch of the current node. -/
def afterFire (s : System) (late : Bool) (node : Node) (rest : List Node) : System :=
  { s with
    dispatched := s.dispatched ++
      [{ node := node, tick := s.ticks, now := s.wheel.time, late := late }]
    pc :=
      match rest with
      | [] => .execute late
      | node :: rest => .dispatch late node rest }

theorem current_dispatch {s : System} {late : Bool} {node : Node} {rest : List Node}
    (hpc : s.pc = .dispatch late node rest) : s.current = node :: rest := by
  rw [System.current, hpc]

theorem current_afterFire (s : System) (late : Bool) (node : Node) (rest : List Node) :
    (afterFire s late node rest).current = rest := by
  cases rest <;> rfl

theorem late_afterFire (s : System) (late : Bool) (node : Node) (rest : List Node) :
    (afterFire s late node rest).late = late := by
  cases rest <;> rfl

theorem fired_afterFire (s : System) (late : Bool) (node : Node) (rest : List Node) :
    (afterFire s late node rest).fired = s.fired ++ [node] := by
  simp [afterFire, System.fired]

theorem Inv.fire (hi : Inv time s) {late : Bool} {node : Node} {rest : List Node}
    (hpc : s.pc = .dispatch late node rest) :
    Inv time (afterFire s late node rest) where
  time_eq := hi.time_eq
  stamp := hi.stamp
  serial := hi.serial
  conserved := by
    have h := hi.conserved
    rw [current_dispatch hpc, ← Multiset.cons_coe, ← Multiset.singleton_add] at h
    rw [current_afterFire, fired_afterFire, ← Multiset.coe_add, Multiset.coe_singleton]
    refine Eq.trans ?_ h
    change s.wheel.nodes + _ + _ = _
    abel
  placed := by
    intro slot n hn hr
    obtain ⟨hslot, hle⟩ := hi.placed slot n hn hr
    refine ⟨hslot, horizon_le hle ?_ rfl⟩
    rw [late_afterFire, System.late, hpc]
  current := by
    intro n hn hr
    rw [current_afterFire] at hn
    have hmem : n ∈ s.current := by rw [current_dispatch hpc]; exact List.mem_cons_of_mem _ hn
    have hcur := hi.current n hmem hr
    rw [System.late, hpc] at hcur
    rwa [late_afterFire]
  dispatched := by
    intro d hd hr
    rcases List.mem_append.mp hd with hd | hd
    · exact hi.dispatched d hd hr
    · rw [List.mem_singleton] at hd
      subst hd
      have hmem : node ∈ s.current := by simp [System.current, hpc]
      obtain ⟨hlate, hdue⟩ := hi.current node hmem hr
      obtain ⟨hexpire, -⟩ := hi.expire_eq (hi.mem_current hmem) hr hdue.ge
      refine ⟨by simpa [System.late, hpc] using hlate, hdue.symm, ?_⟩
      have hlt := s.wheel.time.toNat_lt
      rw [← UInt32.toNat_inj]
      simp only [hexpire]
      omega

theorem Inv.shift (hi : Inv time s) (hpc : s.pc = .shift) :
    Inv time
      { s with wheel := timerShift s.wheel, pc := .execute true, ticks := s.ticks + 1 } where
  time_eq := by
    change (timerShift s.wheel).time = _
    rw [time_timerShift, hi.time_eq, UInt32.ofNat_add]
    exact UInt32.add_assoc ..
  stamp := by
    intro n hn
    obtain ⟨htick, hrest⟩ := hi.stamp n hn
    exact ⟨Nat.le_succ_of_le htick, hrest⟩
  serial := hi.serial
  conserved := by
    have h := hi.conserved
    rw [System.current, hpc] at h
    rw [System.current, nodes_timerShift]
    exact h
  placed := by
    intro slot n hn hr
    change n ∈ (timerShift s.wheel).list slot at hn
    have hhorizon : ∀ slot, n ∈ s.wheel.list slot →
        nodeSlot n.expire s.wheel.time = slot ∧ s.ticks + 1 ≤ deadline n := by
      intro slot hmem
      obtain ⟨hslot, hle⟩ := hi.placed slot n hmem hr
      rw [System.horizon, System.late, hpc] at hle
      exact ⟨hslot, hle⟩
    change nodeSlot n.expire (timerShift s.wheel).time = slot ∧ s.ticks + 1 ≤ deadline n
    rw [time_timerShift]
    rcases mem_timerShift hn with ⟨hmem, hmoved⟩ | ⟨⟨moved, hmem⟩, hslot⟩
    · obtain ⟨hslot, hle⟩ := hhorizon slot hmem
      refine ⟨?_, hle⟩
      obtain ⟨hexpire, hlt⟩ := hi.expire_eq (hi.mem_list hmem) hr (by omega)
      rw [shiftSlot_eq] at hmoved
      rw [nodeSlot_eq] at hslot ⊢
      rw [← hslot] at hmoved ⊢
      refine slotOf_succ s.wheel.time.toNat_lt ?_ hexpire (by omega) hlt hmoved
      rw [UInt32.toNat_add]; rfl
    · exact ⟨hslot, (hhorizon moved hmem).2⟩
  current := by simp [System.current]
  dispatched := hi.dispatched

theorem Inv.update (hi : Inv time s) : Inv time (updateStep s) := by
  unfold updateStep
  split
  · rename_i hpc; exact hi.begin hpc
  · rename_i late hpc
    split
    · rename_i hnil; exact hi.leave hpc hnil
    · rename_i node rest hcons; exact hi.take hpc hcons
  · rename_i late node rest hpc; exact hi.fire hpc
  · rename_i hpc; exact hi.shift hpc

theorem Inv.add (hi : Inv time s) (event : TimerEvent) (delay : Int32) :
    Inv time (addStep s event delay) where
  time_eq := hi.time_eq
  stamp := by
    intro n hn
    rcases List.mem_append.mp hn with hn | hn
    · exact hi.stamp n hn
    · rw [List.mem_singleton] at hn
      subst hn
      exact ⟨le_rfl, hi.time_eq, rfl⟩
  serial := by simp [addStep, addedNode, newNode, List.range_succ, hi.serial]
  conserved := by
    have hlink : (addStep s event delay).wheel.nodes = s.wheel.nodes + {addedNode s event delay} :=
      nodes_link ..
    have hadded : ((addStep s event delay).added : Multiset Node) =
        s.added + {addedNode s event delay} := by
      rw [← Multiset.coe_singleton, Multiset.coe_add]; rfl
    rw [hlink, hadded, ← hi.conserved]
    change _ + (s.current : Multiset Node) + (s.fired : Multiset Node) = _
    abel
  placed := by
    intro slot n hn hr
    rcases mem_link hn with hn | ⟨rfl, rfl⟩
    · exact hi.placed slot n hn hr
    · refine ⟨rfl, ?_⟩
      have hpos : 1 ≤ delay.toInt := hr
      change s.horizon ≤ s.ticks + delay.toInt.toNat
      unfold System.horizon
      split <;> omega
  current := hi.current
  dispatched := hi.dispatched

theorem inv_step {t : System} {a : Action} (hi : Inv time s) (h : Step s a t) : Inv time t := by
  cases a with
  | update => rw [show t = updateStep s from h]; exact hi.update
  | add event delay => rw [show t = addStep s event delay from h]; exact hi.add event delay

end XsServer.Timer
