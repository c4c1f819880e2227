import XsServer.Timer.Fire

/-! The timing wheel fires every timer exactly once and exactly on time, and timers that expire at
the same time in the order of their additions, whatever the time it starts from, over any number
of updates, and wherever in an update timers are added. -/

namespace XsServer.Timer

open Lib Lib.Family

/-! ### The order of the dispatches -/

section

/-- The nodes dispatched and those that are about to be, in order. -/
def System.out (s : System) : List Node := s.fired ++ s.current

/-- `a` is dispatched before `b`, or will be. -/
def Ordered (a b : Node) (s : System) : Prop :=
  [a, b].Sublist s.out ∨ (a ∈ s.out ∧ ∃ slot, b ∈ s.wheel.list slot) ∨
    ∃ slot, [a, b].Sublist (s.wheel.list slot)

variable {a b : Node} {s t : System}

theorem pair_sublist_append {l m : List Node} (ha : a ∈ l) (hb : b ∈ m) :
    [a, b].Sublist (l ++ m) :=
  (List.singleton_sublist.mpr ha).append (List.singleton_sublist.mpr hb)

theorem Ordered.congr (h : Ordered a b s) (hout : t.out = s.out)
    (hlist : t.wheel.list = s.wheel.list) : Ordered a b t := by
  simpa only [Ordered, hout, hlist] using h

theorem Ordered.take (h : Ordered a b s) {slot : Slot} (hout : t.out = s.out ++ s.wheel.list slot)
    (hlist : ∀ other, other ≠ slot → t.wheel.list other = s.wheel.list other) :
    Ordered a b t := by
  unfold Ordered
  rw [hout]
  rcases h with h | ⟨ha, other, hb⟩ | ⟨other, h⟩
  · exact Or.inl (h.trans (List.sublist_append_left _ _))
  · by_cases hs : other = slot
    · subst hs
      exact Or.inl (pair_sublist_append ha hb)
    · exact Or.inr (Or.inl ⟨List.mem_append_left _ ha, other, by rwa [hlist other hs]⟩)
  · by_cases hs : other = slot
    · subst hs
      exact Or.inl (h.trans (List.sublist_append_right _ _))
    · exact Or.inr (Or.inr ⟨other, by rwa [hlist other hs]⟩)

theorem Ordered.shift (h : Ordered a b s) (hexpire : a.expire = b.expire) (hout : t.out = s.out)
    (hwheel : t.wheel = timerShift s.wheel) : Ordered a b t := by
  unfold Ordered
  rw [hout, hwheel]
  rcases h with h | ⟨ha, slot, hb⟩ | ⟨slot, h⟩
  · exact Or.inl h
  · have hone : ∀ n ∈ [b], n.expire = b.expire := by simp
    obtain ⟨slot', h⟩ := sublist_timerShift (List.singleton_sublist.mpr hb) hone
    exact Or.inr (Or.inl ⟨ha, slot', List.singleton_sublist.mp h⟩)
  · have hboth : ∀ n ∈ [a, b], n.expire = b.expire := by simp [hexpire]
    exact Or.inr (Or.inr (sublist_timerShift h hboth))

theorem Ordered.update (h : Ordered a b s) (hexpire : a.expire = b.expire) :
    Ordered a b (updateStep s) := by
  unfold updateStep
  split
  · rename_i hpc
    exact h.congr (by simp [System.out, System.fired, System.current, hpc]) rfl
  · rename_i late hpc
    split
    · refine h.congr ?_ rfl
      cases late <;> simp [System.out, System.fired, System.current, hpc]
    · rename_i node rest hcons
      refine @Ordered.take _ _ _ _ h (nearSlot s.wheel.time) ?_ fun other hne => ?_
      · simp [System.out, System.fired, System.current, hpc, hcons]
      · simp [linkClear, hne]
  · rename_i late node rest hpc
    refine h.congr (t := afterFire s late node rest) ?_ rfl
    rw [System.out, System.out, fired_afterFire, current_afterFire, current_dispatch hpc]
    simp
  · rename_i hpc
    exact h.shift hexpire (by simp [System.out, System.fired, System.current, hpc]) rfl

theorem Ordered.add (h : Ordered a b s) (event : TimerEvent) (delay : Int32) :
    Ordered a b (addStep s event delay) := by
  rcases h with h | ⟨ha, slot, hb⟩ | ⟨slot, h⟩
  · exact Or.inl h
  · exact Or.inr (Or.inl ⟨ha, slot, List.singleton_sublist.mp
      (sublist_link (List.singleton_sublist.mpr hb) _ _)⟩)
  · exact Or.inr (Or.inr ⟨slot, sublist_link h _ _⟩)

theorem ordered_step {e : Action} (hexpire : a.expire = b.expire) (h : Ordered a b s)
    (hstep : Step s e t) : Ordered a b t := by
  cases e with
  | update => rw [show t = updateStep s from hstep]; exact h.update hexpire
  | add event delay => rw [show t = addStep s event delay from hstep]; exact h.add event delay

end

/-! ### What holds between any two steps -/

/-- A list of the wheel, the list that is being dispatched or the nodes dispatched. -/
inductive Place
  | slot (slot : Slot)
  | current
  | fired

def System.at (s : System) : Place → List Node
  | .slot slot => s.wheel.list slot
  | .current => s.current
  | .fired => s.fired

structure Exact (s : System) : Prop where
  once : ∀ n ∈ s.added, ∃! p, n ∈ s.at p
  nodup : ∀ p, (s.at p).Nodup
  on_time : ∀ d ∈ s.dispatched, inRange d.node → d.late = true ∧ d.tick = deadline d.node ∧
    d.now.toNat = (d.node.arg.now.toNat + d.node.arg.time.toInt.toNat) % 2 ^ 32
  complete : s.pc = .idle → ∀ n ∈ s.added, inRange n → deadline n ≤ s.ticks → n ∈ s.fired
  in_order : ∀ a b, [a, b].Sublist s.added → inRange a → inRange b → a.expire = b.expire →
    b ∈ s.fired → [a, b].Sublist s.fired

variable {time : UInt32} {s t : System}

theorem Inv.nodup_added (hi : Inv time s) : s.added.Nodup :=
  List.Nodup.of_map _ (hi.serial ▸ List.nodup_range)

theorem Inv.disjoint (hi : Inv time s) :
    (s.wheel.nodes.Nodup ∧ (s.current : Multiset Node).Nodup ∧
        Disjoint s.wheel.nodes (s.current : Multiset Node)) ∧
      (s.fired : Multiset Node).Nodup ∧
        Disjoint (s.wheel.nodes + (s.current : Multiset Node)) (s.fired : Multiset Node) := by
  rw [← Multiset.nodup_add, ← Multiset.nodup_add, hi.conserved]
  exact hi.nodup_added

theorem Inv.nodup_at (hi : Inv time s) (p : Place) : (s.at p).Nodup := by
  obtain ⟨⟨hnodes, hcurrent, -⟩, hfired, -⟩ := hi.disjoint
  cases p with
  | slot slot => exact Multiset.coe_nodup.mp (Multiset.nodup_of_le (le_total _ slot) hnodes)
  | current => exact hcurrent
  | fired => exact hfired

theorem Inv.added_iff (hi : Inv time s) (n : Node) : n ∈ s.added ↔ ∃ p, n ∈ s.at p := by
  rw [← Multiset.mem_coe, ← hi.conserved, Multiset.mem_add, Multiset.mem_add, Wheel.nodes,
    mem_total]
  constructor
  · rintro ((⟨slot, h⟩ | h) | h)
    · exact ⟨.slot slot, h⟩
    · exact ⟨.current, h⟩
    · exact ⟨.fired, h⟩
  · rintro ⟨slot | _ | _, h⟩
    · exact Or.inl (Or.inl ⟨slot, h⟩)
    · exact Or.inl (Or.inr h)
    · exact Or.inr h

theorem Inv.unique (hi : Inv time s) {n : Node} {p q : Place} (hp : n ∈ s.at p)
    (hq : n ∈ s.at q) : q = p := by
  obtain ⟨⟨hnodes, -, hdisj⟩, -, hdisj'⟩ := hi.disjoint
  have hwheel : ∀ slot, n ∈ s.at (.slot slot) → n ∈ s.current ∨ n ∈ s.fired → False := by
    intro slot h
    have hn := mem_total.mpr ⟨slot, h⟩
    rintro (hc | hf)
    · exact Multiset.disjoint_left.mp hdisj hn hc
    · exact Multiset.disjoint_left.mp hdisj' (Multiset.mem_add.mpr (Or.inl hn)) hf
  have hboth : n ∈ s.current → n ∈ s.fired → False := fun hc =>
    Multiset.disjoint_left.mp hdisj' (Multiset.mem_add.mpr (Or.inr hc))
  cases p with
  | slot a =>
    cases q with
    | slot b => rw [eq_of_mem hnodes hp hq]
    | current => exact (hwheel a hp (Or.inl hq)).elim
    | fired => exact (hwheel a hp (Or.inr hq)).elim
  | current =>
    cases q with
    | slot b => exact (hwheel b hq (Or.inl hp)).elim
    | current => rfl
    | fired => exact (hboth hp hq).elim
  | fired =>
    cases q with
    | slot b => exact (hwheel b hq (Or.inr hp)).elim
    | current => exact (hboth hq hp).elim
    | fired => rfl

theorem Inv.on_time (hi : Inv time s) {d : Dispatch} (hd : d ∈ s.dispatched)
    (hr : inRange d.node) : d.late = true ∧ d.tick = deadline d.node ∧
      d.now.toNat = (d.node.arg.now.toNat + d.node.arg.time.toInt.toNat) % 2 ^ 32 := by
  obtain ⟨hlate, htick, hnow⟩ := hi.dispatched d hd hr
  have hadded : d.node ∈ s.added :=
    (hi.added_iff _).mpr ⟨.fired, List.mem_map_of_mem (f := fun d : Dispatch => d.node) hd⟩
  refine ⟨hlate, htick, ?_⟩
  rw [hnow, (hi.stamp _ hadded).2.2, UInt32.toNat_add, (toNat_time hr).1, Nat.add_comm]

theorem Inv.complete (hi : Inv time s) (hpc : s.pc = .idle) {n : Node} (hn : n ∈ s.added)
    (hr : inRange n) (hle : deadline n ≤ s.ticks) : n ∈ s.fired := by
  obtain ⟨slot | _ | _, h⟩ := (hi.added_iff n).mp hn
  · have hhorizon := (hi.placed slot n h hr).2
    rw [System.horizon, System.late, hpc] at hhorizon
    simp at hhorizon
    omega
  · simp [System.at, System.current, hpc] at h
  · exact h

/-- Timers that expire at the same time are dispatched in the order of their additions. -/
def InOrder (s : System) : Prop :=
  ∀ a b, [a, b].Sublist s.added → inRange a → inRange b → a.expire = b.expire → Ordered a b s

theorem added_updateStep (s : System) : (updateStep s).added = s.added := by
  unfold updateStep
  split
  · rfl
  · split <;> rfl
  · rfl
  · rfl

theorem Inv.ordered_new (hi : Inv time s) {a : Node} (ha : a ∈ s.added) (hr : inRange a)
    (event : TimerEvent) (delay : Int32) (hexpire : a.expire = (addedNode s event delay).expire) :
    Ordered a (addedNode s event delay) (addStep s event delay) := by
  have hnew : addedNode s event delay ∈
      (addStep s event delay).wheel.list (nodeSlot a.expire s.wheel.time) := by
    rw [hexpire]
    simp [addStep, timerAdd, addNode, link, addedNode, newNode]
  obtain ⟨slot | _ | _, h⟩ := (hi.added_iff a).mp ha
  · refine Or.inr (Or.inr ⟨slot, ?_⟩)
    have hslot := (hi.placed slot a h hr).1
    have hlist : (addStep s event delay).wheel.list slot =
        s.wheel.list slot ++ [addedNode s event delay] := by
      rw [← hslot, hexpire]
      simp [addStep, timerAdd, addNode, link, addedNode, newNode]
    rw [hlist]
    exact pair_sublist_append h (List.mem_singleton_self _)
  · exact Or.inr (Or.inl ⟨List.mem_append_right _ h, _, hnew⟩)
  · exact Or.inr (Or.inl ⟨List.mem_append_left _ h, _, hnew⟩)

theorem pair_sublist_concat {a b x : Node} {l : List Node} (h : [a, b].Sublist (l ++ [x])) :
    [a, b].Sublist l ∨ a ∈ l ∧ b = x := by
  obtain ⟨l₁, l₂, heq, h₁, h₂⟩ := List.sublist_append_iff.mp h
  rcases List.sublist_singleton.mp h₂ with rfl | rfl
  · rw [List.append_nil] at heq
    exact Or.inl (heq ▸ h₁)
  · obtain ⟨rfl, hx⟩ := List.append_inj' (show [a] ++ [b] = l₁ ++ [x] from heq) rfl
    exact Or.inr ⟨List.singleton_sublist.mp h₁, List.singleton_injective hx⟩

theorem inOrder_step {e : Action} (hi : Inv time s) (h : InOrder s) (hstep : Step s e t) :
    InOrder t := by
  intro a b hab ha hb hexpire
  cases e with
  | update =>
    rw [show t = updateStep s from hstep, added_updateStep] at hab
    exact ordered_step hexpire (h a b hab ha hb hexpire) hstep
  | add event delay =>
    rw [show t = addStep s event delay from hstep] at hab ⊢
    rcases pair_sublist_concat hab with hab | ⟨ha', rfl⟩
    · exact (h a b hab ha hb hexpire).add event delay
    · exact hi.ordered_new ha' ha event delay hexpire

theorem Ordered.fired {a b : Node} (hi : Inv time s) (h : Ordered a b s) (hb : b ∈ s.fired) :
    [a, b].Sublist s.fired := by
  have hfired : b ∈ s.at .fired := hb
  rcases h with h | ⟨-, slot, hslot⟩ | ⟨slot, h⟩
  · obtain ⟨l, m, hlm, hl, hm⟩ := List.sublist_append_iff.mp h
    rcases List.eq_nil_or_concat m with rfl | ⟨m', x, rfl⟩
    · rw [List.append_nil] at hlm
      exact hlm ▸ hl
    · -- the last of the two is not in the list being dispatched
      rw [List.concat_eq_append, ← List.append_assoc] at hlm
      obtain ⟨-, hx⟩ := List.append_inj' (show [a] ++ [b] = _ from hlm) rfl
      obtain rfl : b = x := List.singleton_injective hx
      have hcurrent : b ∈ s.at .current := hm.subset (by simp)
      cases hi.unique hfired hcurrent
  · have hlist : b ∈ s.at (.slot slot) := hslot
    cases hi.unique hfired hlist
  · have hlist : b ∈ s.at (.slot slot) := h.subset (by simp)
    cases hi.unique hfired hlist

theorem Inv.exact (hi : Inv time s) (ho : InOrder s) : Exact s where
  once := by
    intro n hn
    obtain ⟨p, hp⟩ := (hi.added_iff n).mp hn
    exact ⟨p, hp, fun q hq => hi.unique hp hq⟩
  nodup := hi.nodup_at
  on_time := fun d hd hr => hi.on_time hd hr
  complete := fun hpc n hn hr hle => hi.complete hpc hn hr hle
  in_order := fun a b hab ha hb hexpire hfired => (ho a b hab ha hb hexpire).fired hi hfired

/-! ### Updates end -/

/-- The updating thread takes the system from the first state to the second. -/
def Updates (s t : System) : Prop := ∃ k, updateStep^[k] s = t

theorem Updates.refl (s : System) : Updates s s := ⟨0, rfl⟩

theorem Updates.trans {u : System} (h : Updates s t) (h' : Updates t u) : Updates s u := by
  obtain ⟨k, rfl⟩ := h
  obtain ⟨k', rfl⟩ := h'
  exact ⟨k' + k, Function.iterate_add_apply ..⟩

theorem Updates.one (s : System) : Updates s (updateStep s) := ⟨1, rfl⟩

theorem Updates.invariant {I : System → Prop} (h : Updates s t) (hs : I s)
    (hstep : ∀ u, I u → I (updateStep u)) : I t := by
  obtain ⟨k, rfl⟩ := h
  induction k with
  | zero => exact hs
  | succ k ih => rw [Function.iterate_succ_apply']; exact hstep _ ih

theorem updates_dispatch {late : Bool} {node : Node} {rest : List Node}
    (hpc : s.pc = .dispatch late node rest) :
    ∃ t, Updates s t ∧ t.pc = .execute late ∧ t.wheel = s.wheel ∧ t.ticks = s.ticks := by
  induction rest generalizing s node with
  | nil =>
    refine ⟨_, Updates.one s, ?_⟩
    simp [updateStep, hpc]
  | cons next rest ih =>
    have hstep : (updateStep s).pc = .dispatch late next rest := by simp [updateStep, hpc]
    obtain ⟨t, ht, htpc, hwheel, hticks⟩ := ih hstep
    refine ⟨t, (Updates.one s).trans ht, htpc, ?_, ?_⟩
    · rw [hwheel]; simp [updateStep, hpc]
    · rw [hticks]; simp [updateStep, hpc]

theorem updates_execute {late : Bool} (hpc : s.pc = .execute late) :
    ∃ t, Updates s t ∧ t.pc = (if late then .idle else .shift) ∧ t.ticks = s.ticks := by
  have hempty : ∀ s : System, s.pc = .execute late →
      s.wheel.list (nearSlot s.wheel.time) = [] →
      (updateStep s).pc = (if late then .idle else .shift) ∧ (updateStep s).ticks = s.ticks := by
    intro s hpc hnil
    simp [updateStep, hpc, hnil]
  cases hlist : s.wheel.list (nearSlot s.wheel.time) with
  | nil => exact ⟨_, Updates.one s, hempty s hpc hlist⟩
  | cons node rest =>
    have hstep : (updateStep s).pc = .dispatch late node rest := by simp [updateStep, hpc, hlist]
    have hwheel : (updateStep s).wheel = linkClear s.wheel (nearSlot s.wheel.time) ∧
        (updateStep s).ticks = s.ticks := by
      simp [updateStep, hpc, hlist]
    obtain ⟨t, ht, htpc, htwheel, htticks⟩ := updates_dispatch hstep
    have hnil : t.wheel.list (nearSlot t.wheel.time) = [] := by
      rw [htwheel, hwheel.1]
      simp [linkClear]
    obtain ⟨hpc', hticks'⟩ := hempty t htpc hnil
    exact ⟨_, ((Updates.one s).trans ht).trans (Updates.one t), hpc',
      hticks'.trans (htticks.trans hwheel.2)⟩

theorem updates_shift (hpc : s.pc = .shift) :
    ∃ t, Updates s t ∧ t.pc = .idle ∧ t.ticks = s.ticks + 1 := by
  have hstep : (updateStep s).pc = .execute true ∧ (updateStep s).ticks = s.ticks + 1 := by
    simp [updateStep, hpc]
  obtain ⟨t, ht, htpc, hticks⟩ := updates_execute hstep.1
  exact ⟨t, (Updates.one s).trans ht, htpc, hticks.trans hstep.2⟩

theorem updates_early (hpc : s.pc = .execute false) :
    ∃ t, Updates s t ∧ t.pc = .idle ∧ t.ticks = s.ticks + 1 := by
  obtain ⟨t, ht, htpc, hticks⟩ := updates_execute hpc
  obtain ⟨u, hu, hupc, huticks⟩ := updates_shift htpc
  exact ⟨u, ht.trans hu, hupc, by omega⟩

theorem updates_idle (s : System) : ∃ t, Updates s t ∧ t.pc = .idle ∧ s.ticks ≤ t.ticks := by
  cases hpc : s.pc with
  | idle => exact ⟨s, Updates.refl s, hpc, le_rfl⟩
  | execute late =>
    cases late with
    | false =>
      obtain ⟨t, ht, htpc, hticks⟩ := updates_early hpc
      exact ⟨t, ht, htpc, by omega⟩
    | true =>
      obtain ⟨t, ht, htpc, hticks⟩ := updates_execute hpc
      exact ⟨t, ht, htpc, hticks.ge⟩
  | dispatch late node rest =>
    obtain ⟨t, ht, htpc, -, hticks⟩ := updates_dispatch hpc
    cases late with
    | false =>
      obtain ⟨u, hu, hupc, huticks⟩ := updates_early htpc
      exact ⟨u, ht.trans hu, hupc, by omega⟩
    | true =>
      obtain ⟨u, hu, hupc, huticks⟩ := updates_execute htpc
      exact ⟨u, ht.trans hu, hupc, by omega⟩
  | shift =>
    obtain ⟨t, ht, htpc, hticks⟩ := updates_shift hpc
    exact ⟨t, ht, htpc, by omega⟩

theorem updates_ticks (s : System) (n : Nat) :
    ∃ t, Updates s t ∧ t.pc = .idle ∧ n ≤ t.ticks := by
  induction n with
  | zero =>
    obtain ⟨t, ht, htpc, -⟩ := updates_idle s
    exact ⟨t, ht, htpc, Nat.zero_le _⟩
  | succ n ih =>
    obtain ⟨t, ht, htpc, hle⟩ := ih
    have hstep : (updateStep t).pc = .execute false ∧ (updateStep t).ticks = t.ticks := by
      simp [updateStep, htpc]
    obtain ⟨u, hu, hupc, hticks⟩ := updates_early hstep.1
    exact ⟨u, (ht.trans (Updates.one t)).trans hu, hupc, by omega⟩

theorem Inv.fires (hi : Inv time s) {n : Node} (hn : n ∈ s.added) (hr : inRange n) :
    ∃ k, n ∈ (updateStep^[k] s).fired := by
  obtain ⟨t, ht, hpc, hle⟩ := updates_ticks s (deadline n)
  have hit : Inv time t ∧ n ∈ t.added :=
    ht.invariant (I := fun u => Inv time u ∧ n ∈ u.added) ⟨hi, hn⟩ fun u hu =>
      ⟨hu.1.update, by rw [added_updateStep]; exact hu.2⟩
  obtain ⟨k, rfl⟩ := ht
  exact ⟨k, hit.1.complete hpc hit.2 hr hle⟩

theorem reach_inv {es : List Action} (h : Run Step (start time) es s) : Inv time s ∧ InOrder s := by
  refine h.invariant (I := fun u => Inv time u ∧ InOrder u) ⟨inv_start time, ?_⟩
    fun u e v hu hstep => ⟨inv_step hu.1 hstep, inOrder_step hu.1 hu.2 hstep⟩
  intro a b hab
  simp [start] at hab

/-- Between any two steps of any run from an empty wheel at any time: every node added is in
exactly one place; a node in range was dispatched by the second `timer_execute` of the update that
made the time its expiry, is dispatched when that update is over, and is dispatched after some
number of steps of the updating thread; and of nodes that expire at the same time, those in range
are dispatched in the order of their additions, and any in the order in which they are in a list. -/
theorem timer_exact (time : UInt32) {es : List Action} {s : System}
    (h : Run Step (start time) es s) :
    Exact s ∧ (∀ n ∈ s.added, inRange n → ∃ k, n ∈ (updateStep^[k] s).fired) ∧
      ∀ a b slot, [a, b].Sublist (s.wheel.list slot) → a.expire = b.expire →
        ∀ fs t, Run Step s fs t → b ∈ t.fired → [a, b].Sublist t.fired := by
  obtain ⟨hi, ho⟩ := reach_inv h
  refine ⟨hi.exact ho, fun n hn hr => hi.fires hn hr, ?_⟩
  intro a b slot hab hexpire fs t ht hb
  have hordered : Ordered a b t := ht.invariant (Or.inr (Or.inr ⟨slot, hab⟩))
    fun u e v hu hstep => ordered_step hexpire hu hstep
  exact hordered.fired (reach_inv (h.trans ht)).1 hb

theorem timer_exact_at_wrap :
    ∃ s, Run Step (start (-1)) [.add ⟨1, 5⟩ 1] s ∧ s.added.map (·.expire) = [0] ∧
      ∃ k, ∀ n ∈ s.added, n ∈ (updateStep^[k] s).fired := by
  have hrun : Run Step (start (-1)) [.add ⟨1, 5⟩ 1] (addStep (start (-1)) ⟨1, 5⟩ 1) :=
    Run.single rfl
  obtain ⟨-, hfires, -⟩ := timer_exact (-1) hrun
  obtain ⟨k, hk⟩ := hfires (addedNode (start (-1)) ⟨1, 5⟩ 1) (by simp [addStep, start]) (by decide)
  refine ⟨_, hrun, by decide, k, ?_⟩
  intro n hn
  obtain rfl : n = addedNode (start (-1)) ⟨1, 5⟩ 1 := by simpa [addStep, start] using hn
  exact hk

end XsServer.Timer
