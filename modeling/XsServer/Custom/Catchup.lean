import XsServer.Custom.Calls

/-! The loop of `poling`, `while self:execute() do end`, with callbacks that leave the timer alone
and a clock that stands still. -/

namespace XsServer.Custom.Timer

open XsServer.Lib

variable {κ ν : Type*} [DecidableEq ν] {t u : Timer κ ν}

/-- A turn of the loop, with the callback that it calls. -/
inductive Turn (t : Timer κ ν) : κ → Timer κ ν → Prop
  | mk (rede : Node Nat Nat) (call : κ) (hrede : t.Reder (some rede))
    (hcall : (t.execute (some rede)).1 = some call) : Turn t call (t.execute (some rede)).2

/-- `execute` gives `false`. -/
def Done (t : Timer κ ν) : Prop := ∃ rede, t.Reder rede ∧ (t.execute rede).1 = none

/-- The turns are no more than some number, whichever of the first nodes the heap gives. -/
def Ends (t : Timer κ ν) : Prop := ∃ bound, ∀ calls u, Run Turn t calls u → calls.length ≤ bound

/-- Calling the item comes to an end: its period passes, or it has calls left to count down. -/
def Advances (item : Item κ) : Prop := 0 < item.elapse ∨ ∃ n, item.count = some n ∧ 0 < n

def Catches (t : Timer κ ν) : Prop :=
  ∀ node ∈ t.nodes, node.ticks ≤ t.now → Advances (t.items node.data)

omit [DecidableEq ν] in
theorem exists_reder (t : Timer κ ν) : ∃ rede, t.Reder rede := by
  have hleast : ∀ nodes : List (Node Nat Nat), nodes ≠ [] →
      ∃ rede ∈ nodes, ∀ node ∈ nodes, rede.ticks ≤ node.ticks := by
    intro nodes
    induction nodes with
    | nil => exact fun h => absurd rfl h
    | cons first nodes ih =>
      intro _
      by_cases hnil : nodes = []
      · exact ⟨first, List.mem_cons_self, by simp [hnil]⟩
      · obtain ⟨rede, hrede, hle⟩ := ih hnil
        obtain hfirst | hfirst := Nat.le_total first.ticks rede.ticks
        · refine ⟨first, List.mem_cons_self, List.forall_mem_cons.mpr ⟨Nat.le_refl _, ?_⟩⟩
          exact fun node hnode => hfirst.trans (hle node hnode)
        · exact ⟨rede, List.mem_cons_of_mem _ hrede, List.forall_mem_cons.mpr ⟨hfirst, hle⟩⟩
  by_cases hnil : t.nodes = []
  · exact ⟨none, hnil⟩
  · obtain ⟨rede, hrede⟩ := hleast t.nodes hnil
    exact ⟨some rede, hrede⟩

theorem done_iff : Done t ↔ ∀ node ∈ t.nodes, t.now < node.ticks := by
  constructor
  · rintro ⟨rede, hrede, hnone⟩ node hnode
    cases rede with
    | none =>
      rw [show t.nodes = [] from hrede] at hnode
      cases hnode
    | some rede =>
      have hlt := (execute_idle hnone).2 rede rfl
      exact hlt.trans_le (hrede.2 node hnode)
  · intro h
    obtain ⟨rede, hrede⟩ := t.exists_reder
    refine ⟨rede, hrede, ?_⟩
    cases rede with
    | none => rfl
    | some rede => rw [execute_early (h rede hrede.1)]

theorem exists_turn (h : ¬ Done t) : ∃ call u, Turn t call u := by
  obtain ⟨rede, hrede⟩ := t.exists_reder
  cases hcall : (t.execute rede).1 with
  | none => exact absurd ⟨rede, hrede, hcall⟩ h
  | some call =>
    cases rede with
    | none => cases hcall
    | some rede => exact ⟨call, _, .mk rede call hrede hcall⟩

/-! ### What a turn does -/

def Own (t : Timer κ ν) : Prop := (t.nodes.map Node.data).Nodup

omit [DecidableEq ν] in
theorem Sound.own (hs : Sound t) : Own t := (List.nodup_append.mp hs.datas).1

omit [DecidableEq ν] in
theorem Sound.uPause (hs : Sound t) : Sound t.uPause := by
  unfold Timer.uPause
  split
  · have hauto : ∀ d : Nat, (t.nodes.map fun item => { item with ticks := item.ticks + d }).map
        Node.auto = t.nodes.map Node.auto := by simp
    have hdata : ∀ d : Nat, (t.nodes.map fun item => { item with ticks := item.ticks + d }).map
        Node.data = t.nodes.map Node.data := by simp
    exact hs.perm (List.Perm.of_eq (hauto _)) (List.Perm.of_eq (hdata _)) (Nat.le_refl _) rfl rfl
  · exact hs

theorem Own.of_run {now : Nat} {items : Nat → Item κ} {es : List (Event κ ν)}
    (hrun : Run Step (new now items) es t) : Own t := by
  have hsound : Sound t := by
    refine hrun.invariant (.new now items) fun s e v hs hstep => ?_
    by_cases he : e = .uPause
    · subst he
      cases hstep
      exact hs.uPause
    · exact hs.step hstep he
  exact hsound.own

/-- A turn takes a first node that is due, which goes or comes back one period later with one call
less; the other nodes and their items stay. -/
structure Turned (t : Timer κ ν) (rede : Node Nat Nat) (u : Timer κ ν) : Prop where
  mem : rede ∈ t.nodes
  due : rede.ticks ≤ t.now
  now : u.now = t.now
  items : u.items = Function.update t.items rede.data (t.countDown rede)
  nodes : (t.countDown rede).count = some 0 ∧ u.nodes = t.nodes.erase rede ∨
    (t.countDown rede).count ≠ some 0 ∧
      u.nodes = { rede with ticks := rede.ticks + (t.items rede.data).elapse } :: t.nodes.erase rede

theorem Turn.turned {call : κ} (h : Turn t call u) : ∃ rede, Turned t rede u := by
  cases h with
  | mk rede call hrede hcall =>
    obtain ⟨hle, -, hitems, -, -, hnodes⟩ := execute_called hcall
    refine ⟨rede, hrede.1, hle, (t.kept_execute (some rede)).now, hitems, ?_⟩
    obtain ⟨hzero, hnodes, -⟩ | ⟨hzero, hnodes, -⟩ := hnodes
    · exact .inl ⟨hzero, hnodes⟩
    · exact .inr ⟨hzero, hnodes⟩

omit [DecidableEq ν] in
theorem Turned.own {rede : Node Nat Nat} (h : Turned t rede u) (hown : Own t) : Own u := by
  have hperm := (List.perm_cons_erase h.mem).map Node.data
  have hcons := hperm.nodup_iff.mp hown
  obtain ⟨-, hnodes⟩ | ⟨-, hnodes⟩ := h.nodes
  · rw [Own, hnodes]
    exact (List.nodup_cons.mp hcons).2
  · rw [Own, hnodes]
    exact hcons

omit [DecidableEq ν] in
theorem Turned.items_other {rede : Node Nat Nat} (h : Turned t rede u) (hown : Own t) :
    ∀ node ∈ t.nodes.erase rede, u.items node.data = t.items node.data := by
  intro node hnode
  have hperm := (List.perm_cons_erase h.mem).map Node.data
  have hcons := hperm.nodup_iff.mp hown
  have hne : node.data ≠ rede.data := fun heq =>
    (List.nodup_cons.mp hcons).1 (heq ▸ List.mem_map_of_mem hnode)
  rw [h.items, Function.update_of_ne hne]

/-- How often a node is called before its ticks have passed the clock, or before it is gone. -/
def turnsLeft (now : Nat) (ticks : Nat) (item : Item κ) : Nat :=
  if ticks ≤ now then
    if item.elapse = 0 then (item.count.getD 0).toNat else (now - ticks) / item.elapse + 1
  else 0

def total (t : Timer κ ν) : Nat :=
  (t.nodes.map fun node => turnsLeft t.now node.ticks (t.items node.data)).sum

theorem turnsLeft_pos {now ticks : Nat} {item : Item κ} (hle : ticks ≤ now)
    (h : Advances item) : 0 < turnsLeft now ticks item := by
  rw [turnsLeft, if_pos hle]
  split
  · rename_i hzero
    obtain hpos | ⟨n, hn, hpos⟩ := h
    · omega
    · rw [hn, Option.getD_some]
      omega
  · exact Nat.succ_pos _

theorem turnsLeft_again {now ticks : Nat} {item : Item κ} (hle : ticks ≤ now)
    (h : Advances item) (hzero : item.count.map (· - 1) ≠ some 0) :
    turnsLeft now (ticks + item.elapse) { item with count := item.count.map (· - 1) } + 1 ≤
        turnsLeft now ticks item ∧
      Advances { item with count := item.count.map (· - 1) } := by
  by_cases hperiod : item.elapse = 0
  · obtain hpos | ⟨n, hn, hpos⟩ := h
    · omega
    · rw [hn, Option.map_some, Ne, Option.some.injEq] at hzero
      refine ⟨?_, .inr ⟨n - 1, by rw [hn]; rfl, by omega⟩⟩
      simp only [turnsLeft, hperiod, Nat.add_zero, if_pos hle, if_true, hn, Option.map_some,
        Option.getD_some]
      omega
  · refine ⟨?_, .inl (Nat.pos_of_ne_zero hperiod)⟩
    simp only [turnsLeft, if_pos hle, if_neg hperiod]
    split
    · rename_i hnext
      have hdiv : (now - ticks) / item.elapse = (now - ticks - item.elapse) / item.elapse + 1 :=
        Nat.div_eq_sub_div (Nat.pos_of_ne_zero hperiod) (by omega)
      rw [hdiv, Nat.sub_sub]
    · exact Nat.succ_le_succ (Nat.zero_le _)

omit [DecidableEq ν] in
theorem Turned.total {rede : Node Nat Nat} (h : Turned t rede u) (hown : Own t)
    (hcatch : Catches t) : u.total + 1 ≤ t.total ∧ Catches u := by
  have hother := h.items_other hown
  have hadvances := hcatch rede h.mem h.due
  have hsum : t.total = turnsLeft t.now rede.ticks (t.items rede.data) +
      ((t.nodes.erase rede).map fun node =>
        turnsLeft t.now node.ticks (t.items node.data)).sum := by
    rw [Timer.total, ((List.perm_cons_erase h.mem).map _).sum_nat, List.map_cons, List.sum_cons]
  have hsame : ((t.nodes.erase rede).map fun node =>
      turnsLeft u.now node.ticks (u.items node.data)) =
      (t.nodes.erase rede).map fun node => turnsLeft t.now node.ticks (t.items node.data) :=
    List.map_congr_left fun node hnode => by rw [hother node hnode, h.now]
  have hrest : ∀ node ∈ t.nodes.erase rede, node.ticks ≤ u.now → Advances (u.items node.data) := by
    intro node hnode hle
    rw [hother node hnode]
    exact hcatch node (List.mem_of_mem_erase hnode) (h.now ▸ hle)
  obtain ⟨-, hnodes⟩ | ⟨hzero, hnodes⟩ := h.nodes
  · have hpos := turnsLeft_pos h.due hadvances
    refine ⟨?_, fun node hnode => hrest node (hnodes ▸ hnode)⟩
    rw [hsum, Timer.total, hnodes, hsame]
    omega
  · have hitem : u.items rede.data = t.countDown rede := by rw [h.items, Function.update_self]
    obtain ⟨hless, hagain⟩ := turnsLeft_again h.due hadvances hzero
    refine ⟨?_, fun node hnode hle => ?_⟩
    · rw [hsum, Timer.total, hnodes, List.map_cons, List.sum_cons, hsame, hitem, h.now]
      have hcount : turnsLeft t.now (rede.ticks + (t.items rede.data).elapse) (t.countDown rede) +
          1 ≤ turnsLeft t.now rede.ticks (t.items rede.data) := hless
      simp only
      omega
    · rw [hnodes] at hnode
      obtain rfl | hnode := List.mem_cons.mp hnode
      · show Advances (u.items rede.data)
        rw [hitem]
        exact hagain
      · exact hrest node hnode hle

theorem length_le_total {calls : List κ} (hown : Own t) (hcatch : Catches t)
    (hrun : Run Turn t calls u) : calls.length + u.total ≤ t.total ∧ Own u ∧ Catches u := by
  induction hrun with
  | nil => exact ⟨by simp, hown, hcatch⟩
  | snoc _ hturn ih =>
    obtain ⟨hle, hown, hcatch⟩ := ih
    obtain ⟨rede, hturned⟩ := hturn.turned
    obtain ⟨hless, hcatch'⟩ := hturned.total hown hcatch
    refine ⟨?_, hturned.own hown, hcatch'⟩
    rw [List.length_append, List.length_singleton]
    omega

/-- A node is due, has no period and no calls to count down. -/
def Stuck (t : Timer κ ν) : Prop :=
  ∃ node ∈ t.nodes, node.ticks ≤ t.now ∧ ¬ Advances (t.items node.data)

omit [DecidableEq ν] in
theorem not_catches_iff : ¬ Catches t ↔ Stuck t := by
  rw [Catches, Stuck]
  push Not
  rfl

theorem Stuck.not_done (h : Stuck t) : ¬ Done t := by
  rw [done_iff]
  intro hall
  obtain ⟨node, hnode, hle, -⟩ := h
  have := hall node hnode
  omega

omit [DecidableEq ν] in
theorem Turned.stuck {rede : Node Nat Nat} (h : Turned t rede u) (hown : Own t)
    (hstuck : Stuck t) : Stuck u := by
  obtain ⟨node, hnode, hle, hnot⟩ := hstuck
  by_cases heq : node = rede
  · subst heq
    have hperiod : (t.items node.data).elapse = 0 := by
      by_contra hpos
      exact hnot (.inl (Nat.pos_of_ne_zero hpos))
    have hcount : ∀ n, (t.items node.data).count = some n → n ≤ 0 := by
      intro n hn
      by_contra hpos
      exact hnot (.inr ⟨n, hn, by omega⟩)
    have hmap : ∀ n, (t.countDown node).count = some n → n < 0 := by
      intro n hn
      obtain ⟨m, hm, rfl⟩ := Option.map_eq_some_iff.mp hn
      have := hcount m hm
      omega
    obtain ⟨hzero, -⟩ | ⟨-, hnodes⟩ := h.nodes
    · exact absurd (hmap 0 hzero) (by omega)
    · refine ⟨_, by rw [hnodes]; exact List.mem_cons_self, ?_, ?_⟩
      · show node.ticks + (t.items node.data).elapse ≤ u.now
        rw [hperiod, h.now]
        exact hle
      · show ¬ Advances (u.items node.data)
        rw [h.items, Function.update_self]
        rintro (hpos | ⟨n, hn, hpos⟩)
        · have hsame : (t.countDown node).elapse = (t.items node.data).elapse := rfl
          omega
        · have := hmap n hn
          omega
  · have hmem : node ∈ t.nodes.erase rede := (List.mem_erase_of_ne heq).mpr hnode
    have hkept : node ∈ u.nodes := by
      obtain ⟨-, hnodes⟩ | ⟨-, hnodes⟩ := h.nodes
      · rwa [hnodes]
      · rw [hnodes]
        exact List.mem_cons_of_mem _ hmem
    refine ⟨node, hkept, by rwa [h.now], ?_⟩
    rwa [h.items_other hown node hmem]

theorem Stuck.run {calls : List κ} (hown : Own t) (h : Stuck t) (hrun : Run Turn t calls u) :
    Own u ∧ Stuck u := by
  induction hrun with
  | nil => exact ⟨hown, h⟩
  | snoc _ hturn ih =>
    obtain ⟨rede, hturned⟩ := hturn.turned
    exact ⟨hturned.own ih.1, hturned.stuck ih.1 ih.2⟩

theorem Stuck.turns (hown : Own t) (h : Stuck t) (n : Nat) :
    ∃ calls u, Run Turn t calls u ∧ calls.length = n := by
  induction n with
  | zero => exact ⟨[], t, .nil t, rfl⟩
  | succ n ih =>
    obtain ⟨calls, u, hrun, hlen⟩ := ih
    obtain ⟨call, v, hturn⟩ := exists_turn (h.run hown hrun).2.not_done
    exact ⟨calls ++ [call], v, .snoc hrun hturn, by rw [List.length_append, hlen]; rfl⟩

theorem exists_done (hown : Own t) (hcatch : Catches t) :
    ∃ calls u, Run Turn t calls u ∧ Done u := by
  have hbound : ∀ n (s : Timer κ ν), s.total ≤ n → Own s → Catches s →
      ∃ calls u, Run Turn s calls u ∧ Done u := by
    intro n
    induction n with
    | zero =>
      intro s hn hown hcatch
      refine ⟨[], s, .nil s, ?_⟩
      by_contra hnot
      obtain ⟨call, v, hturn⟩ := exists_turn hnot
      obtain ⟨rede, hturned⟩ := hturn.turned
      have := (hturned.total hown hcatch).1
      omega
    | succ n ih =>
      intro s hn hown hcatch
      by_cases hdone : Done s
      · exact ⟨[], s, .nil s, hdone⟩
      · obtain ⟨call, v, hturn⟩ := exists_turn hdone
        obtain ⟨rede, hturned⟩ := hturn.turned
        obtain ⟨hless, hcatch'⟩ := hturned.total hown hcatch
        obtain ⟨calls, u, hrun, hu⟩ := ih v (by omega) (hturned.own hown) hcatch'
        exact ⟨call :: calls, u, .cons hturn hrun, hu⟩
  exact hbound t.total t (Nat.le_refl _) hown hcatch

/-- The loop ends if and only if every timer that is due advances; it ends with no timer due, and
it does not end at all if one does not advance. -/
theorem poling_ends_iff (hown : Own t) :
    (Ends t ↔ Catches t) ∧
      (Catches t → ∃ calls u, Run Turn t calls u ∧ Done u) ∧
      (¬ Catches t → ∀ calls u, Run Turn t calls u → ¬ Done u) ∧
      ∀ calls u, Run Turn t calls u → Done u → ∀ node ∈ u.nodes, u.now < node.ticks := by
  refine ⟨⟨?_, fun hcatch => ⟨t.total, fun calls u hrun => ?_⟩⟩, exists_done hown, ?_,
    fun calls u _ hdone => done_iff.mp hdone⟩
  · rintro ⟨bound, hbound⟩
    by_contra hnot
    obtain ⟨calls, u, hrun, hlen⟩ := (not_catches_iff.mp hnot).turns hown (bound + 1)
    have := hbound calls u hrun
    omega
  · have := (length_le_total hown hcatch hrun).1
    omega
  · intro hnot calls u hrun
    exact ((not_catches_iff.mp hnot).run hown hrun).2.not_done

/-- A timer that is called once. -/
theorem poling_ends_iff_once : ∃ t : Timer Unit Unit,
    Step (new 0 fun _ => ⟨0, none, ()⟩) (.append 0 (some 1) () 1) t ∧ Own t ∧ Ends t := by
  have hstep : Step (new 0 fun _ => ⟨0, none, ()⟩ : Timer Unit Unit) (.append 0 (some 1) () 1) _ :=
    .append 0 (some 1) ()
  have hown := Own.of_run (.single hstep)
  refine ⟨_, hstep, hown, (poling_ends_iff hown).1.mpr fun node hnode _ => ?_⟩
  obtain rfl := List.mem_singleton.mp hnode
  exact .inr ⟨1, rfl, by decide⟩

/-- A timer with no period that is called for ever. -/
theorem poling_forever : ∃ t : Timer Unit Unit,
    Step (new 0 fun _ => ⟨0, none, ()⟩) (.append 0 none () 1) t ∧ ¬ Ends t ∧
      ∀ calls u, Run Turn t calls u → ¬ Done u := by
  have hstep : Step (new 0 fun _ => ⟨0, none, ()⟩ : Timer Unit Unit) (.append 0 none () 1) _ :=
    .append 0 none ()
  have hown := Own.of_run (.single hstep)
  have hnot : ¬ Advances (⟨0, none, ()⟩ : Item Unit) := by
    rintro (hpos | ⟨n, hn, -⟩)
    · cases hpos
    · cases hn
  have hstuck : Stuck ((new 0 fun _ => ⟨0, none, ()⟩ : Timer Unit Unit).append 0 none ()).2 :=
    ⟨⟨0, 1, 0⟩, List.mem_singleton.mpr rfl, Nat.le_refl 0, hnot⟩
  refine ⟨_, hstep, ?_, fun calls u hrun => (hstuck.run hown hrun).2.not_done⟩
  rintro ⟨bound, hbound⟩
  obtain ⟨calls, u, hrun, hlen⟩ := hstuck.turns hown (bound + 1)
  have := hbound calls u hrun
  omega

end XsServer.Custom.Timer
