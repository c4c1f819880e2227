import XsServer.Custom.Polling
import Mathlib.Data.List.Nodup
import Mathlib.Tactic.Ring

/-! The calls of a timer that is not paused.  A registration is followed through its node: after `k`
calls its ticks are `k + 1` periods after the registration, and its item has `k` calls less. -/

namespace XsServer.Custom.Timer

open XsServer.Lib

variable {κ ν : Type*} {t u : Timer κ ν}

/-- The calls of an identifier, each with its callback and the clock. -/
def calls (iden : Int) (es : List (Event κ ν)) : List (κ × Nat) :=
  es.filterMap fun e => match e with
    | .called i call inow => if i = iden then some (call, inow) else none
    | _ => none

theorem calls_append (iden : Int) (es fs : List (Event κ ν)) :
    calls iden (es ++ fs) = calls iden es ++ calls iden fs := List.filterMap_append

theorem calls_single {iden : Int} {e : Event κ ν} (h : ∀ call inow, e ≠ .called iden call inow) :
    calls iden [e] = [] := by
  cases e with
  | called i call inow =>
    have hne : i ≠ iden := fun heq => h call inow (by rw [heq])
    simp [calls, hne]
  | _ => rfl

theorem calls_called (iden : Int) (call : κ) (inow : Nat) :
    calls iden [(.called iden call inow : Event κ ν)] = [(call, inow)] := by
  simp [calls]

/-! ### Nodes and items -/

/-- The identifiers and the items of the nodes are different, and the items are not in `store`. -/
structure Sound (t : Timer κ ν) : Prop where
  autos : (t.nodes.map Node.auto).Nodup
  autos_le : ∀ node ∈ t.nodes, node.auto ≤ t.auto
  datas : (t.nodes.map Node.data ++ t.store).Nodup
  below : ∀ r ∈ t.nodes.map Node.data ++ t.store, r < t.next

theorem Sound.new (now : Nat) (items : Nat → Item κ) : Sound (new now items : Timer κ ν) where
  autos := List.nodup_nil
  autos_le := fun _ h => absurd h List.not_mem_nil
  datas := List.nodup_nil
  below := fun _ h => absurd h List.not_mem_nil

theorem Sound.nodup (hs : Sound t) : t.nodes.Nodup := hs.autos.of_map

theorem Sound.eq_of_auto (hs : Sound t) {m n : Node Nat Nat} (hm : m ∈ t.nodes) (hn : n ∈ t.nodes)
    (h : m.auto = n.auto) : m = n := List.inj_on_of_nodup_map hs.autos hm hn h

theorem Sound.data_ne (hs : Sound t) {m n : Node Nat Nat} (hm : m ∈ t.nodes) (hn : n ∈ t.nodes)
    (h : m.auto ≠ n.auto) : m.data ≠ n.data := fun heq =>
  h (congrArg Node.auto (List.inj_on_of_nodup_map (List.nodup_append.mp hs.datas).1 hm hn heq))

theorem Sound.perm (hs : Sound t) (hauto : (u.nodes.map Node.auto).Perm (t.nodes.map Node.auto))
    (hdata : (u.nodes.map Node.data).Perm (t.nodes.map Node.data)) (hle : t.auto ≤ u.auto)
    (hstore : u.store = t.store) (hnext : u.next = t.next) : Sound u where
  autos := hauto.nodup_iff.mpr hs.autos
  autos_le node hnode := by
    obtain ⟨m, hm, heq⟩ := List.mem_map.mp (hauto.mem_iff.mp (List.mem_map_of_mem hnode))
    have := hs.autos_le m hm
    omega
  datas := by
    rw [hstore]
    exact (hdata.append_right _).nodup_iff.mpr hs.datas
  below r hr := by
    rw [hstore] at hr
    rw [hnext]
    exact hs.below r ((hdata.append_right _).mem_iff.mp hr)

variable {node : Node Nat Nat}

theorem Sound.erase (hs : Sound t) (hnode : node ∈ t.nodes)
    (hnodes : u.nodes = t.nodes.erase node) (hauto : u.auto = t.auto)
    (hstore : u.store = t.store ∨ u.store = t.store ++ [node.data]) (hnext : u.next = t.next) :
    Sound u := by
  have hsub : (t.nodes.erase node).Sublist t.nodes := List.erase_sublist
  have hperm : (t.nodes.map Node.data).Perm (node.data :: (t.nodes.erase node).map Node.data) :=
    (List.perm_cons_erase hnode).map Node.data
  have hdatas : (u.nodes.map Node.data ++ u.store).Subperm (t.nodes.map Node.data ++ t.store) := by
    rw [hnodes]
    have hall := hperm.append_right t.store
    obtain hstore | hstore := hstore
    · rw [hstore]
      exact ((List.sublist_cons_self _ _).subperm).trans hall.symm.subperm
    · rw [hstore, ← List.append_assoc]
      exact ((List.perm_append_singleton _ _).trans hall.symm).subperm
  constructor
  · rw [hnodes]
    exact hs.autos.sublist (hsub.map _)
  · intro m hm
    rw [hnodes] at hm
    rw [hauto]
    exact hs.autos_le m (hsub.subset hm)
  · obtain ⟨list, hlist, hsublist⟩ := hdatas
    exact hlist.nodup_iff.mp (hs.datas.sublist hsublist)
  · intro r hr
    rw [hnext]
    exact hs.below r (hdatas.subset hr)

theorem get_cases (t : Timer κ ν) :
    (∃ r store, t.store = store ++ [r] ∧ t.get = (r, { t with store })) ∨
      t.store = [] ∧ t.get = (t.next, { t with next := t.next + 1 }) := by
  unfold get
  split
  case h_1 r hr =>
    exact Or.inl ⟨r, _, (List.dropLast_append_getLast? r hr).symm, rfl⟩
  case h_2 hr => exact Or.inr ⟨List.getLast?_eq_none_iff.mp hr, rfl⟩

theorem append_nodes (t : Timer κ ν) (elapse : Nat) (count : Option Int) (call : κ) :
    (t.append elapse count call).2.nodes =
      ⟨t.now + elapse, (t.auto + 1 : Nat), t.get.1⟩ :: t.nodes := by
  obtain ⟨r, store, -, hget⟩ | ⟨-, hget⟩ := t.get_cases
  · simp only [Timer.append, hget]
  · simp only [Timer.append, hget]

theorem Sound.append (hs : Sound t) (elapse : Nat) (count : Option Int) (call : κ) :
    Sound (t.append elapse count call).2 ∧ (t.append elapse count call).2.auto = t.auto + 1 ∧
      ∃ r, (∀ node ∈ t.nodes, node.data ≠ r) ∧
        (t.append elapse count call).2.nodes = ⟨t.now + elapse, (t.auto + 1 : Nat), r⟩ :: t.nodes ∧
        (t.append elapse count call).2.items =
          Function.update t.items r ⟨elapse, count, call⟩ := by
  have hautos : (((t.auto + 1 : Nat) : Int) :: t.nodes.map Node.auto).Nodup := by
    refine List.nodup_cons.mpr ⟨fun hmem => ?_, hs.autos⟩
    obtain ⟨node, hnode, heq⟩ := List.mem_map.mp hmem
    have := hs.autos_le node hnode
    omega
  have hle : ∀ (node : Node Nat Nat) (r : Nat),
      node ∈ (⟨t.now + elapse, (t.auto + 1 : Nat), r⟩ :: t.nodes : List (Node Nat Nat)) →
        node.auto ≤ (t.auto + 1 : Nat) := by
    intro node r hnode
    rcases List.mem_cons.mp hnode with rfl | hnode
    · exact le_rfl
    · have := hs.autos_le node hnode
      omega
  obtain ⟨r, store, hstore, hget⟩ | ⟨hstore, hget⟩ := t.get_cases
  · have hmove : (r :: (t.nodes.map Node.data ++ store)).Perm
        (t.nodes.map Node.data ++ t.store) := by
      rw [hstore]
      refine List.perm_middle.symm.trans ?_
      exact (List.perm_append_singleton r store).symm.append_left _
    have hnodup := hmove.nodup_iff.mpr hs.datas
    have hrun : (t.append elapse count call).2 = { t with
        store
        items := Function.update t.items r ⟨elapse, count, call⟩
        nodes := ⟨t.now + elapse, (t.auto + 1 : Nat), r⟩ :: t.nodes
        auto := t.auto + 1 } := by
      simp only [Timer.append, hget]
    rw [hrun]
    refine ⟨⟨hautos, fun node => hle node r, hnodup, fun q hq => hs.below q (hmove.mem_iff.mp hq)⟩,
      rfl, r, fun node hnode heq => ?_, rfl, rfl⟩
    exact (List.nodup_cons.mp hnodup).1 (List.mem_append_left _ (heq ▸ List.mem_map_of_mem hnode))
  · have hnew : t.next ∉ t.nodes.map Node.data ++ t.store := fun h => lt_irrefl _ (hs.below _ h)
    have hrun : (t.append elapse count call).2 = { t with
        next := t.next + 1
        items := Function.update t.items t.next ⟨elapse, count, call⟩
        nodes := ⟨t.now + elapse, (t.auto + 1 : Nat), t.next⟩ :: t.nodes
        auto := t.auto + 1 } := by
      simp only [Timer.append, hget]
    rw [hrun]
    refine ⟨⟨hautos, fun node => hle node t.next, List.nodup_cons.mpr ⟨hnew, hs.datas⟩, ?_⟩,
      rfl, t.next, fun node hnode heq => ?_, rfl, rfl⟩
    · intro q hq
      rcases List.mem_cons.mp hq with rfl | hq
      · exact Nat.lt_succ_self _
      · exact Nat.lt_succ_of_lt (hs.below q hq)
    · exact hnew (List.mem_append_left _ (heq ▸ List.mem_map_of_mem hnode))

@[simp] theorem clearName_nodes [DecidableEq ν] (t : Timer κ ν) (iden : Int) :
    (t.clearName iden).nodes = t.nodes := by
  unfold clearName
  split <;> rfl

@[simp] theorem clearName_items [DecidableEq ν] (t : Timer κ ν) (iden : Int) :
    (t.clearName iden).items = t.items := by
  unfold clearName
  split <;> rfl

@[simp] theorem clearName_store [DecidableEq ν] (t : Timer κ ν) (iden : Int) :
    (t.clearName iden).store = t.store := by
  unfold clearName
  split <;> rfl

@[simp] theorem clearName_auto [DecidableEq ν] (t : Timer κ ν) (iden : Int) :
    (t.clearName iden).auto = t.auto := by
  unfold clearName
  split <;> rfl

@[simp] theorem clearName_next [DecidableEq ν] (t : Timer κ ν) (iden : Int) :
    (t.clearName iden).next = t.next := by
  unfold clearName
  split <;> rfl

/-- The period, the count and the callback of a timer, and when it was registered. -/
structure Registration (κ : Type*) where
  iden : Int
  now : Nat
  elapse : Nat
  count : Option Nat
  call : κ

variable {r : Registration κ} {k : Nat}

/-- The timer has been called `k` times. -/
structure Tracked (r : Registration κ) (k : Nat) (t : Timer κ ν) : Prop where
  iden_le : r.iden ≤ t.auto
  calls_le : ∀ n, r.count = some n → n ≠ 0 → k ≤ n
  ticks_eq : ∀ node ∈ t.nodes, node.auto = r.iden → node.ticks = r.now + (k + 1) * r.elapse
  item_eq : ∀ node ∈ t.nodes, node.auto = r.iden →
    t.items node.data = ⟨r.elapse, r.count.map fun n => (n : Int) - k, r.call⟩
  calls_lt : ∀ node ∈ t.nodes, node.auto = r.iden → ∀ n, r.count = some n → n ≠ 0 → k < n
  now_le : r.now + k * r.elapse ≤ t.now

/-- The identifier is given out and no node has it. -/
def Gone (iden : Int) (t : Timer κ ν) : Prop :=
  iden ≤ t.auto ∧ ∀ node ∈ t.nodes, node.auto ≠ iden

def Live (iden : Int) (t : Timer κ ν) : Prop := ∃ node ∈ t.nodes, node.auto = iden

theorem Sound.registered (hs : Sound t) (hnow : r.now = t.now)
    (hiden : r.iden = (t.auto + 1 : Nat)) :
    Tracked r 0 (t.append r.elapse (r.count.map fun n => (n : Int)) r.call).2 ∧
      Live r.iden (t.append r.elapse (r.count.map fun n => (n : Int)) r.call).2 := by
  obtain ⟨-, hauto, q, hq, hnodes, hitems⟩ :=
    hs.append r.elapse (r.count.map fun n => (n : Int)) r.call
  have hnew : ∀ node ∈ (t.append r.elapse (r.count.map fun n => (n : Int)) r.call).2.nodes,
      node.auto = r.iden → node = ⟨t.now + r.elapse, (t.auto + 1 : Nat), q⟩ := by
    intro node hnode hnodeid
    rw [hnodes] at hnode
    rcases List.mem_cons.mp hnode with rfl | hnode
    · rfl
    · have := hs.autos_le node hnode
      omega
  refine ⟨⟨by omega, fun n _ _ => Nat.zero_le n, ?_, ?_, ?_, ?_⟩, ?_⟩
  · intro node hnode hnodeid
    rw [hnew node hnode hnodeid, hnow]
    simp
  · intro node hnode hnodeid
    rw [hnew node hnode hnodeid, hitems, Function.update_self]
    simp
  · exact fun _ _ _ n _ h0 => Nat.pos_of_ne_zero h0
  · rw [(t.kept_append _ _ _).now, hnow]
    simp
  · rw [Live, hnodes]
    exact ⟨_, List.mem_cons_self, hiden.symm⟩

theorem reder_single {t : Timer κ ν} (h : t.nodes = [node]) :
    t.Reder (some node) := by
  rw [Reder, h]
  refine ⟨List.mem_singleton.mpr rfl, fun m hm => ?_⟩
  rw [List.mem_singleton.mp hm]

/-! ### What one step does to the nodes -/

theorem search_eq_some {iden : Option Int} (h : t.search iden = some node) :
    node ∈ t.nodes ∧ iden = some node.auto := by
  obtain ⟨i, rfl, hfind⟩ := Option.bind_eq_some_iff.mp h
  have hauto := List.find?_some hfind
  simp only [decide_eq_true_eq] at hauto
  exact ⟨List.mem_of_find?_eq_some hfind, by rw [hauto]⟩

theorem search_eq_none {iden : Int} (h : t.search (some iden) = none) :
    ∀ node ∈ t.nodes, node.auto ≠ iden := fun node hnode =>
  of_decide_eq_false (by simpa using List.find?_eq_none.mp h node hnode)

theorem Sound.dropName (hs : Sound t) (name : ν) : Sound (t.dropName name) := by
  unfold Timer.dropName
  split
  case h_1 node hsearch => exact hs.erase (search_eq_some hsearch).1 rfl rfl (Or.inl rfl) rfl
  case h_2 => exact hs

theorem dropName_nodes (t : Timer κ ν) (name : ν) :
    (t.dropName name).auto = t.auto ∧ (t.dropName name).items = t.items ∧
      (t.dropName name).now = t.now ∧
      (t.search (t.names name) = none ∧ (t.dropName name).nodes = t.nodes ∨
        ∃ node, t.search (t.names name) = some node ∧
          (t.dropName name).nodes = t.nodes.erase node) := by
  unfold Timer.dropName
  split
  case h_1 node hsearch => exact ⟨rfl, rfl, rfl, Or.inr ⟨node, hsearch, rfl⟩⟩
  case h_2 hsearch => exact ⟨rfl, rfl, rfl, Or.inl ⟨hsearch, rfl⟩⟩

variable [DecidableEq ν] {e : Event κ ν}

theorem remove_nodes (t : Timer κ ν) (iden : Int) :
    (t.remove iden).auto = t.auto ∧ (t.remove iden).items = t.items ∧
      (t.search (some iden) = none ∧ (t.remove iden).nodes = t.nodes ∨
        ∃ node, t.search (some iden) = some node ∧ (t.remove iden).nodes = t.nodes.erase node) := by
  unfold Timer.remove
  split
  case h_1 node hsearch =>
    exact ⟨by simp, by simp, Or.inr ⟨node, hsearch, by simp⟩⟩
  case h_2 hsearch => exact ⟨rfl, rfl, Or.inl ⟨hsearch, rfl⟩⟩

theorem Sound.remove (hs : Sound t) (iden : Int) : Sound (t.remove iden) := by
  unfold Timer.remove
  split
  case h_1 node hsearch =>
    exact hs.erase (search_eq_some hsearch).1 (by simp) (by simp) (Or.inr (by simp)) (by simp)
  case h_2 => exact hs

variable {rede : Node Nat Nat}

theorem execute_early (h : t.now < rede.ticks) :
    t.execute (some rede) = (none, t) := by
  have hexp : ¬ ifExpire t.now rede.ticks = true := by simpa [ifExpire] using h
  exact if_neg hexp

theorem execute_last (h : rede.ticks ≤ t.now)
    (hzero : (t.countDown rede).count = some 0) :
    t.execute (some rede) = (some (t.items rede.data).call, ({ t with
      items := Function.update t.items rede.data (t.countDown rede)
      nodes := t.nodes.erase rede
      store := t.store ++ [rede.data] } : Timer κ ν).clearName rede.auto) := by
  have hexp : ifExpire t.now rede.ticks = true := by simpa [ifExpire] using h
  exact (if_pos hexp).trans (if_pos hzero)

theorem execute_again (h : rede.ticks ≤ t.now)
    (hzero : (t.countDown rede).count ≠ some 0) :
    t.execute (some rede) = (some (t.items rede.data).call, { t with
      items := Function.update t.items rede.data (t.countDown rede)
      nodes := { rede with ticks := rede.ticks + (t.items rede.data).elapse } ::
        t.nodes.erase rede }) := by
  have hexp : ifExpire t.now rede.ticks = true := by simpa [ifExpire] using h
  exact (if_pos hexp).trans (if_neg hzero)

variable {call : κ}

/-- The turn that calls takes one from the count of the item, and the node goes at 0 or gets the
ticks of the next period. -/
theorem execute_called
    (hcall : (t.execute (some rede)).1 = some call) :
    rede.ticks ≤ t.now ∧ call = (t.items rede.data).call ∧
      (t.execute (some rede)).2.items = Function.update t.items rede.data (t.countDown rede) ∧
      (t.execute (some rede)).2.auto = t.auto ∧ (t.execute (some rede)).2.next = t.next ∧
      ((t.countDown rede).count = some 0 ∧
          (t.execute (some rede)).2.nodes = t.nodes.erase rede ∧
          (t.execute (some rede)).2.store = t.store ++ [rede.data] ∨
        (t.countDown rede).count ≠ some 0 ∧
          (t.execute (some rede)).2.nodes =
            { rede with ticks := rede.ticks + (t.items rede.data).elapse } :: t.nodes.erase rede ∧
          (t.execute (some rede)).2.store = t.store) := by
  obtain hlt | hle := lt_or_ge t.now rede.ticks
  · rw [execute_early hlt] at hcall
    cases hcall
  · by_cases hzero : (t.countDown rede).count = some 0
    · rw [execute_last hle hzero] at hcall ⊢
      exact ⟨hle, (Option.some.inj hcall).symm, by simp, by simp, by simp,
        Or.inl ⟨hzero, by simp, by simp⟩⟩
    · rw [execute_again hle hzero] at hcall ⊢
      exact ⟨hle, (Option.some.inj hcall).symm, rfl, rfl, rfl, Or.inr ⟨hzero, rfl, rfl⟩⟩

theorem execute_idle {rede : Option (Node Nat Nat)} (hcall : (t.execute rede).1 = none) :
    (t.execute rede).2 = t ∧ ∀ node ∈ rede, t.now < node.ticks := by
  cases rede with
  | none => exact ⟨rfl, fun _ h => absurd h (by simp)⟩
  | some rede =>
    obtain hlt | hle := lt_or_ge t.now rede.ticks
    · refine ⟨by rw [execute_early hlt], fun node hnode => ?_⟩
      obtain rfl := Option.some.inj hnode
      exact hlt
    · by_cases hzero : (t.countDown rede).count = some 0
      · rw [execute_last hle hzero] at hcall
        cases hcall
      · rw [execute_again hle hzero] at hcall
        cases hcall

theorem Sound.called (hs : Sound t) (hrede : rede ∈ t.nodes)
    (hcall : (t.execute (some rede)).1 = some call) : Sound (t.execute (some rede)).2 := by
  obtain ⟨-, -, -, hauto, hnext, ⟨-, hnodes, hstore⟩ | ⟨-, hnodes, hstore⟩⟩ := execute_called hcall
  · exact hs.erase hrede hnodes hauto (Or.inr hstore) hnext
  · have hperm := (List.perm_cons_erase hrede).symm
    refine hs.perm ?_ ?_ (Nat.le_of_eq hauto.symm) hstore hnext
    · rw [hnodes]
      exact hperm.map Node.auto
    · rw [hnodes]
      exact hperm.map Node.data

theorem Sound.step (hs : Sound t) (hstep : Step t e u) (he : e ≠ .uPause) :
    Sound u := by
  cases hstep with
  | clock => exact ⟨hs.autos, hs.autos_le, hs.datas, hs.below⟩
  | expire =>
    unfold Timer.expire poling
    split <;> exact ⟨hs.autos, hs.autos_le, hs.datas, hs.below⟩
  | called rede call _ hrede hcall => exact hs.called hrede.1 hcall
  | idle rede _ _ hcall =>
    rw [(execute_idle hcall).1]
    exact ⟨hs.autos, hs.autos_le, hs.datas, hs.below⟩
  | append elapse count call => exact (hs.append elapse count call).1
  | appendBy name elapse count call =>
    have h := ((hs.dropName name).append elapse count call).1
    exact ⟨h.autos, h.autos_le, h.datas, h.below⟩
  | remove iden => exact hs.remove iden
  | pause =>
    unfold Timer.pause
    split <;> exact ⟨hs.autos, hs.autos_le, hs.datas, hs.below⟩
  | uPause => exact absurd rfl he

theorem Step.now_le (hstep : Step t e u) : t.now ≤ u.now := by
  cases hstep with
  | clock now hle => exact hle
  | expire =>
    unfold Timer.expire poling
    split <;> exact Nat.le_refl _
  | called rede => exact (t.kept_execute (some rede)).now.symm.le
  | idle rede => exact (t.kept_execute rede).now.symm.le
  | append elapse count call => exact (t.kept_append elapse count call).now.symm.le
  | appendBy name elapse count call => exact (t.kept_appendBy name elapse count call).now.symm.le
  | remove iden => exact (t.kept_remove iden).now.symm.le
  | pause =>
    unfold Timer.pause
    split <;> exact Nat.le_refl _
  | uPause =>
    unfold Timer.uPause poling
    split <;> exact Nat.le_refl _

section Old

variable {iden : Int}

theorem Sound.old (hs : Sound t) (hstep : Step t e u) (he : e ≠ .uPause) (hle : iden ≤ t.auto)
    (hcalled : ∀ call inow, e ≠ .called iden call inow) :
    t.auto ≤ u.auto ∧ ∀ node ∈ u.nodes, node.auto = iden →
      node ∈ t.nodes ∧ u.items node.data = t.items node.data := by
  have happend : ∀ {s : Timer κ ν}, Sound s → s.auto = t.auto → s.items = t.items →
      (∀ node ∈ s.nodes, node ∈ t.nodes) → ∀ elapse count call,
      t.auto ≤ (s.append elapse count call).2.auto ∧
        ∀ node ∈ (s.append elapse count call).2.nodes, node.auto = iden →
          node ∈ t.nodes ∧ (s.append elapse count call).2.items node.data = t.items node.data := by
    intro s hs hauto hitems hsub elapse count call
    obtain ⟨-, hauto', r, hr, hnodes, hitems'⟩ := hs.append elapse count call
    refine ⟨by omega, fun node hnode hiden => ?_⟩
    rw [hnodes] at hnode
    rcases List.mem_cons.mp hnode with rfl | hnode
    · have : ((s.auto + 1 : Nat) : Int) = iden := hiden
      omega
    · rw [hitems', Function.update_of_ne (hr node hnode), hitems]
      exact ⟨hsub node hnode, rfl⟩
  cases hstep with
  | clock => exact ⟨Nat.le_refl _, fun node hnode _ => ⟨hnode, rfl⟩⟩
  | expire =>
    unfold Timer.expire poling
    split <;> exact ⟨Nat.le_refl _, fun node hnode _ => ⟨hnode, rfl⟩⟩
  | called rede call _ hrede hcall =>
    obtain ⟨-, -, hitems, hauto, -, hcases⟩ := execute_called hcall
    have hne : rede.auto ≠ iden := fun h => hcalled call t.now (by rw [h])
    refine ⟨hauto.symm.le, fun node hnode hiden => ?_⟩
    have hmem : node ∈ t.nodes := by
      obtain ⟨-, hnodes, -⟩ | ⟨-, hnodes, -⟩ := hcases
      · rw [hnodes] at hnode
        exact List.mem_of_mem_erase hnode
      · rw [hnodes] at hnode
        rcases List.mem_cons.mp hnode with rfl | hnode
        · exact absurd hiden hne
        · exact List.mem_of_mem_erase hnode
    have hdata := hs.data_ne hmem hrede.1 (fun h => hne (h.symm.trans hiden))
    exact ⟨hmem, by rw [hitems, Function.update_of_ne hdata]⟩
  | idle rede _ _ hcall =>
    rw [(execute_idle hcall).1]
    exact ⟨Nat.le_refl _, fun node hnode _ => ⟨hnode, rfl⟩⟩
  | append elapse count call => exact happend hs rfl rfl (fun _ h => h) elapse count call
  | appendBy name elapse count call =>
    obtain ⟨hauto, hitems, -, hcases⟩ := t.dropName_nodes name
    refine happend (hs.dropName name) hauto hitems (fun node hnode => ?_) elapse count call
    obtain ⟨-, hnodes⟩ | ⟨old, -, hnodes⟩ := hcases
    · rwa [hnodes] at hnode
    · rw [hnodes] at hnode
      exact List.mem_of_mem_erase hnode
  | remove i =>
    obtain ⟨hauto, hitems, hcases⟩ := t.remove_nodes i
    refine ⟨hauto.symm.le, fun node hnode _ => ⟨?_, by rw [hitems]⟩⟩
    obtain ⟨-, hnodes⟩ | ⟨old, -, hnodes⟩ := hcases
    · rwa [hnodes] at hnode
    · rw [hnodes] at hnode
      exact List.mem_of_mem_erase hnode
  | pause =>
    unfold Timer.pause
    split <;> exact ⟨Nat.le_refl _, fun node hnode _ => ⟨hnode, rfl⟩⟩
  | uPause => exact absurd rfl he

/-- The step takes the identifier out of the heap without a call. -/
def Drops (iden : Int) : Event κ ν → Prop
  | .remove i => i = iden
  | .appendBy _ _ _ _ old _ => old = some iden
  | _ => False

theorem Step.stays (hstep : Step t e u) (he : e ≠ .uPause)
    (hcalled : ∀ call inow, e ≠ .called iden call inow) (hdrop : ¬ Drops iden e)
    (hnode : node ∈ t.nodes) (hiden : node.auto = iden) :
    node ∈ u.nodes := by
  cases hstep with
  | clock => exact hnode
  | expire =>
    unfold Timer.expire poling
    split <;> exact hnode
  | called rede call _ hrede hcall =>
    obtain ⟨-, -, -, -, -, hcases⟩ := execute_called hcall
    have hne : node ≠ rede := fun h => hcalled call t.now (by rw [← h, hiden])
    have hmem := (List.mem_erase_of_ne hne).mpr hnode
    obtain ⟨-, hnodes, -⟩ | ⟨-, hnodes, -⟩ := hcases
    · rwa [hnodes]
    · rw [hnodes]
      exact List.mem_cons_of_mem _ hmem
  | idle rede _ _ hcall =>
    rw [(execute_idle hcall).1]
    exact hnode
  | append elapse count call =>
    rw [append_nodes]
    exact List.mem_cons_of_mem _ hnode
  | appendBy name elapse count call =>
    have hmem : node ∈ (t.dropName name).nodes := by
      obtain ⟨-, -, -, ⟨-, hnodes⟩ | ⟨old, hsearch, hnodes⟩⟩ := t.dropName_nodes name
      · rwa [hnodes]
      · rw [hnodes]
        refine (List.mem_erase_of_ne fun h => hdrop ?_).mpr hnode
        show (t.search (t.names name)).map Node.auto = some iden
        rw [hsearch, ← hiden, h]
        rfl
    show node ∈ ((t.dropName name).append elapse count call).2.nodes
    rw [append_nodes]
    exact List.mem_cons_of_mem _ hmem
  | remove i =>
    obtain ⟨-, -, ⟨-, hnodes⟩ | ⟨old, hsearch, hnodes⟩⟩ := t.remove_nodes i
    · rwa [hnodes]
    · rw [hnodes]
      refine (List.mem_erase_of_ne fun h => hdrop ?_).mpr hnode
      obtain ⟨-, hold⟩ := search_eq_some hsearch
      show i = iden
      rw [Option.some.inj hold, ← h, hiden]
  | pause =>
    unfold Timer.pause
    split <;> exact hnode
  | uPause => exact absurd rfl he

end Old

theorem Tracked.step (ht : Tracked r k t) (hs : Sound t) (hstep : Step t e u) (he : e ≠ .uPause)
    (hcalled : ∀ call inow, e ≠ .called r.iden call inow) : Tracked r k u := by
  obtain ⟨hauto, hold⟩ := hs.old hstep he ht.iden_le hcalled
  refine ⟨ht.iden_le.trans (by omega), ht.calls_le, ?_, ?_, ?_, ht.now_le.trans hstep.now_le⟩
  · exact fun node hnode hiden => ht.ticks_eq node (hold node hnode hiden).1 hiden
  · intro node hnode hiden
    obtain ⟨hmem, hitem⟩ := hold node hnode hiden
    rw [hitem]
    exact ht.item_eq node hmem hiden
  · exact fun node hnode hiden => ht.calls_lt node (hold node hnode hiden).1 hiden

variable {inow : Nat}

/-- A call comes after its period and is of the registered callback; the node that is left has one
call more behind it. -/
theorem Tracked.called (ht : Tracked r k t) (hs : Sound t)
    (hstep : Step t (.called r.iden call inow) u) :
    Tracked r (k + 1) u ∧ r.now + (k + 1) * r.elapse ≤ inow ∧ call = r.call := by
  have hnow := hstep.now_le
  generalize hiden : r.iden = iden at hstep
  cases hstep with
  | called rede call _ hrede hcall =>
    obtain ⟨hle, hcall', hitems, hauto, -, hcases⟩ := execute_called hcall
    have hticks := ht.ticks_eq rede hrede.1 hiden.symm
    have hitem := ht.item_eq rede hrede.1 hiden.symm
    have hlt := ht.calls_lt rede hrede.1 hiden.symm
    have hcount : t.countDown rede =
        ⟨r.elapse, r.count.map fun n => (n : Int) - (k + 1 : Nat), r.call⟩ := by
      rw [countDown, hitem, Option.map_map]
      congr 2
      funext n
      show (n : Int) - k - 1 = n - (k + 1 : Nat)
      omega
    have hcalls : ∀ n, r.count = some n → n ≠ 0 → k + 1 ≤ n := hlt
    -- of the nodes before, only the one that was called has the identifier
    have hother : ∀ node ∈ t.nodes.erase rede, node.auto ≠ r.iden := by
      intro node hnode hauto
      have hmem := (hs.nodup.mem_erase_iff.mp hnode)
      exact hmem.1 (hs.eq_of_auto hmem.2 hrede.1 (hauto.trans hiden))
    have hleft : ∀ node ∈ (t.execute (some rede)).2.nodes, node.auto = r.iden →
        node = { rede with ticks := rede.ticks + (t.items rede.data).elapse } ∧
          (t.countDown rede).count ≠ some 0 := by
      intro node hnode hnodeid
      obtain ⟨-, hnodes, -⟩ | ⟨hzero, hnodes, -⟩ := hcases
      · rw [hnodes] at hnode
        exact absurd hnodeid (hother node hnode)
      · rw [hnodes] at hnode
        rcases List.mem_cons.mp hnode with rfl | hnode
        · exact ⟨rfl, hzero⟩
        · exact absurd hnodeid (hother node hnode)
    refine ⟨⟨by rw [hauto]; exact ht.iden_le, hcalls, ?_, ?_, ?_, ?_⟩, by omega, ?_⟩
    · intro node hnode hnodeid
      rw [(hleft node hnode hnodeid).1]
      show rede.ticks + (t.items rede.data).elapse = _
      rw [hticks, hitem]
      push_cast
      ring
    · intro node hnode hnodeid
      rw [(hleft node hnode hnodeid).1, hitems, ← hcount]
      exact Function.update_self ..
    · intro node hnode hnodeid n hn h0
      have hzero := (hleft node hnode hnodeid).2
      rw [hcount, hn] at hzero
      have hne : (n : Int) - (k + 1 : Nat) ≠ 0 := fun h => hzero (congrArg some h)
      have := hcalls n hn h0
      omega
    · rw [← hticks]
      omega
    · rw [hcall', hitem]

theorem Gone.not_called {iden : Int} (hg : Gone iden t)
    (hstep : Step t e u) : e ≠ .called iden call inow := by
  rintro rfl
  cases hstep with
  | called rede _ _ hrede => exact hg.2 rede hrede.1 rfl

theorem Gone.step {iden : Int} (hg : Gone iden t) (hs : Sound t) (hstep : Step t e u)
    (he : e ≠ .uPause) : Gone iden u := by
  obtain ⟨hauto, hold⟩ := hs.old hstep he hg.1 fun _ _ => hg.not_called hstep
  refine ⟨hg.1.trans (by omega), fun node hnode hiden => ?_⟩
  exact hg.2 node (hold node hnode hiden).1 hiden

theorem Gone.of_remove {iden : Int} (hs : Sound t) (hle : iden ≤ t.auto) :
    Gone iden (t.remove iden) := by
  obtain ⟨hauto, -, ⟨hsearch, hnodes⟩ | ⟨node, hsearch, hnodes⟩⟩ := t.remove_nodes iden
  · refine ⟨by rwa [hauto], ?_⟩
    rw [hnodes]
    exact search_eq_none hsearch
  · refine ⟨by rwa [hauto], fun m hm hiden => ?_⟩
    obtain ⟨hnode, hnodeid⟩ := search_eq_some hsearch
    rw [hnodes] at hm
    have hmem := hs.nodup.mem_erase_iff.mp hm
    exact hmem.1 (hs.eq_of_auto hmem.2 hnode (hiden.trans (Option.some.inj hnodeid)))

theorem Tracked.live_called (ht : Tracked r k t)
    (hcount : r.count = none ∨ r.count = some 0)
    (hstep : Step t (.called r.iden call inow) u) : Live r.iden u := by
  generalize hiden : r.iden = iden at hstep
  cases hstep with
  | called rede call _ hrede hcall =>
    obtain ⟨-, -, -, -, -, ⟨hzero, -⟩ | ⟨-, hnodes, -⟩⟩ := execute_called hcall
    · rw [countDown, ht.item_eq rede hrede.1 hiden.symm] at hzero
      obtain hcount | hcount := hcount
      · rw [hcount] at hzero
        cases hzero
      · rw [hcount] at hzero
        have hone : ((0 : Nat) : Int) - k - 1 = 0 := Option.some.inj hzero
        omega
    · rw [Live, hnodes]
      exact ⟨_, List.mem_cons_self, rfl⟩

theorem Tracked.idle (ht : Tracked r k t) (hl : Live r.iden t)
    (hstep : Step t (.idle inow) u) :
    k = (inow - r.now) / r.elapse := by
  cases hstep with
  | idle rede _ hrede hcall =>
    obtain ⟨node, hnode, hiden⟩ := hl
    cases rede with
    | none =>
      rw [show t.nodes = [] from hrede] at hnode
      exact absurd hnode List.not_mem_nil
    | some rede =>
      have hlt := (execute_idle hcall).2 rede rfl
      have hle := hrede.2 node hnode
      have hticks := ht.ticks_eq node hnode hiden
      have hnow := ht.now_le
      symm
      apply Nat.div_eq_of_lt_le
      · omega
      · show t.now - r.now < (k + 1) * r.elapse
        omega

/-! ### Runs -/

/-- The timer does not go on after a pause. -/
def Steady (_ : Timer κ ν) (e : Event κ ν) : Prop := e ≠ .uPause

def Registers (r : Registration κ) (e : Event κ ν) : Prop :=
  e = .append r.elapse (r.count.map fun n => (n : Int)) r.call r.iden ∨
    ∃ name old, e = .appendBy name r.elapse (r.count.map fun n => (n : Int)) r.call old r.iden

/-- What holds in every run, of the calls of one registration. -/
structure Follows (r : Registration κ) (es : List (Event κ ν)) (t : Timer κ ν) : Prop where
  sound : Sound t
  tracked : Tracked r (calls r.iden es).length t
  calls_eq : ∀ k c, (calls r.iden es)[k]? = some c →
    c.1 = r.call ∧ r.now + (k + 1) * r.elapse ≤ c.2

theorem Follows.snoc {es : List (Event κ ν)} (hf : Follows r es t) (hstep : Step t e u)
    (he : e ≠ .uPause) : Follows r (es ++ [e]) u := by
  by_cases hcalled : ∃ call inow, e = .called r.iden call inow
  · obtain ⟨call, inow, rfl⟩ := hcalled
    obtain ⟨htracked, hle, hcall⟩ := hf.tracked.called hf.sound hstep
    refine ⟨hf.sound.step hstep he, ?_, ?_⟩
    · rw [calls_append, calls_called, List.length_append]
      exact htracked
    · intro k c hc
      rw [calls_append, calls_called, List.getElem?_append] at hc
      split at hc
      case isTrue hlt => exact hf.calls_eq k c hc
      case isFalse hlt =>
        obtain ⟨hk, rfl⟩ := List.getElem?_eq_some_iff.mp hc
        obtain rfl : k = (calls r.iden es).length := by simp at hk; omega
        simpa using ⟨hcall, hle⟩
  · have hnot : ∀ call inow, e ≠ .called r.iden call inow := by simpa using hcalled
    have hcalls : calls r.iden (es ++ [e]) = calls r.iden es := by
      rw [calls_append, calls_single hnot, List.append_nil]
    refine ⟨hf.sound.step hstep he, ?_, ?_⟩
    · rw [hcalls]
      exact hf.tracked.step hf.sound hstep he hnot
    · rw [hcalls]
      exact hf.calls_eq

theorem Step.of_append {elapse : Nat} {count : Option Int} {iden : Int}
    (h : Step t (.append elapse count call iden) u) :
    iden = (t.auto + 1 : Nat) ∧ u = (t.append elapse count call).2 := by
  cases h
  exact ⟨rfl, rfl⟩

theorem Step.of_appendBy {name : ν} {elapse : Nat} {count old : Option Int} {iden : Int}
    (h : Step t (.appendBy name elapse count call old iden) u) :
    iden = ((t.dropName name).auto + 1 : Nat) ∧
      u = (t.appendBy name elapse count call).2 := by
  cases h
  exact ⟨rfl, rfl⟩

theorem Registers.follows (hr : Registers r e) (hs : Sound t) (hstep : Step t e u)
    (hnow : r.now = t.now) : Follows r ([] : List (Event κ ν)) u ∧ Live r.iden u := by
  have hnone : ∀ k c, (calls r.iden ([] : List (Event κ ν)))[k]? = some c →
      c.1 = r.call ∧ r.now + (k + 1) * r.elapse ≤ c.2 := fun k c hc => absurd hc (by simp [calls])
  obtain rfl | ⟨name, old, rfl⟩ := hr
  · have hsound := hs.step hstep (by simp)
    obtain ⟨hiden, rfl⟩ := hstep.of_append
    obtain ⟨htracked, hlive⟩ := hs.registered hnow hiden
    exact ⟨⟨hsound, htracked, hnone⟩, hlive⟩
  · have hsound := hs.step hstep (by simp)
    obtain ⟨hiden, rfl⟩ := hstep.of_appendBy
    obtain ⟨htracked, hlive⟩ := (hs.dropName name).registered
      (hnow.trans (t.kept_dropName name).now.symm) hiden
    refine ⟨⟨hsound, ?_, hnone⟩, hlive⟩
    exact ⟨htracked.iden_le, htracked.calls_le, htracked.ticks_eq, htracked.item_eq,
      htracked.calls_lt, htracked.now_le⟩

theorem Sound.run {now : Nat} {items : Nat → Item κ} {es : List (Event κ ν)}
    (hrun : Run (Guarded Steady Step) (Timer.new now items) es t) : Sound t :=
  hrun.invariant (.new now items) fun _ _ _ hs hstep => hs.step hstep.2 hstep.1

theorem Follows.run {es : List (Event κ ν)} (hf : Follows r ([] : List (Event κ ν)) t)
    (hrun : Run (Guarded Steady Step) t es u) : Follows r es u := by
  induction hrun with
  | nil => exact hf
  | snoc _ hstep ih => exact ih.snoc hstep.2 hstep.1

theorem Gone.run {iden : Int} {es : List (Event κ ν)} (hg : Gone iden t) (hs : Sound t)
    (hrun : Run (Guarded Steady Step) t es u) : calls iden es = [] := by
  have h : Gone iden u ∧ Sound u ∧ calls iden es = [] := by
    induction hrun with
    | nil => exact ⟨hg, hs, rfl⟩
    | snoc _ hstep ih =>
      obtain ⟨hg', hs', hcalls⟩ := ih
      refine ⟨hg'.step hs' hstep.2 hstep.1, hs'.step hstep.2 hstep.1, ?_⟩
      rw [calls_append, hcalls, calls_single fun _ _ => hg'.not_called hstep.2]
      rfl
  exact h.2.2

theorem Live.run {es : List (Event κ ν)} (hl : Live r.iden t)
    (hf : Follows r ([] : List (Event κ ν)) t) (hcount : r.count = none ∨ r.count = some 0)
    (hrun : Run (Guarded Steady Step) t es u) (hdrop : ∀ e ∈ es, ¬ Drops r.iden e) :
    Live r.iden u := by
  induction hrun with
  | nil => exact hl
  | @snoc s v es e hrun hstep ih =>
    have hlive := ih fun e he => hdrop e (List.mem_append_left _ he)
    have hfollows := hf.run hrun
    by_cases hcalled : ∃ call inow, e = .called r.iden call inow
    · obtain ⟨call, inow, rfl⟩ := hcalled
      exact hfollows.tracked.live_called hcount hstep.2
    · obtain ⟨node, hnode, hiden⟩ := hlive
      refine ⟨node, hstep.2.stays hstep.1 (by simpa using hcalled) (hdrop e ?_) hnode hiden, hiden⟩
      exact List.mem_append_right _ List.mem_cons_self

/-- What a registration is good for, over the events after it. -/
structure Promised (r : Registration κ) (es : List (Event κ ν)) : Prop where
  at_most : ∀ n, r.count = some n → (calls r.iden es).length ≤ n
  on_time : ∀ k c, (calls r.iden es)[k]? = some c →
    c.1 = r.call ∧ r.now + (k + 1) * r.elapse ≤ c.2
  removed : ∀ fs gs, es = fs ++ .remove r.iden :: gs → calls r.iden gs = []
  periodic : ∀ fs inow gs, es = fs ++ .idle inow :: gs → r.count = none → 0 < r.elapse →
    (∀ e ∈ fs, ¬ Drops r.iden e) → (calls r.iden fs).length = (inow - r.now) / r.elapse

section Promise

variable {s : Timer κ ν} {es : List (Event κ ν)}

theorem Follows.periodic {fs gs : List (Event κ ν)}
    (hf : Follows r ([] : List (Event κ ν)) t) (hl : Live r.iden t)
    (hrun : Run (Guarded Steady Step) t (fs ++ .idle inow :: gs) u)
    (hcount : r.count = none ∨ r.count = some 0) (hdrop : ∀ e ∈ fs, ¬ Drops r.iden e) :
    (calls r.iden fs).length = (inow - r.now) / r.elapse := by
  obtain ⟨v, hfs, hrest⟩ := hrun.split
  obtain ⟨w, hidle, -⟩ := hrest.of_cons
  exact (hf.run hfs).tracked.idle (hl.run hf hcount hfs hdrop) hidle.2

theorem Follows.promised (hf : Follows r ([] : List (Event κ ν)) t) (hl : Live r.iden t)
    (hrun : Run (Guarded Steady Step) t es u) (hcount : r.count ≠ some 0) : Promised r es where
  at_most n hn := by
    refine (hf.run hrun).tracked.calls_le n hn ?_
    rintro rfl
    exact hcount hn
  on_time := (hf.run hrun).calls_eq
  removed fs gs hes := by
    subst hes
    obtain ⟨v, hfs, hrest⟩ := hrun.split
    obtain ⟨w, hremove, hgs⟩ := hrest.of_cons
    have hv := hf.run hfs
    have hw : w = v.remove r.iden := by
      cases hremove.2
      rfl
    subst hw
    exact (Gone.of_remove hv.sound hv.tracked.iden_le).run (hv.sound.remove r.iden) hgs
  periodic fs inow gs hes hnone _ hdrop := by
    subst hes
    exact hf.periodic hl hrun (Or.inl hnone) hdrop

/-- A registration is as promised unless its count is 0.  With the count 0 it is called like one
without a count, once its period has passed. -/
theorem registered_calls {now : Nat} {items : Nat → Item κ} {es' : List (Event κ ν)}
    (hrun : Run (Guarded Steady Step) (new now items) es s) (hstep : Step s e t)
    (hr : Registers r e) (hnow : r.now = s.now)
    (hrun' : Run (Guarded Steady Step) t es' u) :
    (r.count ≠ some 0 → Promised r es') ∧
      (r.count = some 0 → ∀ fs inow gs, es' = fs ++ .idle inow :: gs → 0 < r.elapse →
        (∀ e ∈ fs, ¬ Drops r.iden e) → r.now + r.elapse ≤ inow → ¬ Promised r es') := by
  obtain ⟨hf, hl⟩ := hr.follows (Sound.run hrun) hstep hnow
  refine ⟨hf.promised hl hrun', fun hzero fs inow gs hes helapse hdrop hlate hp => ?_⟩
  subst hes
  have hcalls := hf.periodic hl hrun' (Or.inr hzero) hdrop
  have hpos : 0 < (inow - r.now) / r.elapse := Nat.div_pos (by omega) helapse
  have hmost := hp.at_most 0 hzero
  rw [calls_append, List.length_append] at hmost
  omega

end Promise

/-- One call, of a timer with the count 1. -/
theorem registered_calls_one : ∃ t u : Timer Unit Unit,
    Step (new 0 fun _ => ⟨0, none, ()⟩) (.append 5 (some 1) () 1) t ∧
    Run (Guarded Steady Step) t [.clock 5, .expire, .called 1 () 5] u ∧
    Promised ⟨1, 0, 5, some 1, ()⟩
      ([.clock 5, .expire, .called 1 () 5] : List (Event Unit Unit)) := by
  have hstep : Step (new 0 fun _ => ⟨0, none, ()⟩ : Timer Unit Unit) (.append 5 (some 1) () 1) _ :=
    .append 5 (some 1) ()
  have hrun : Run (Guarded Steady Step)
      ((new 0 fun _ => ⟨0, none, ()⟩ : Timer Unit Unit).append 5 (some 1) ()).2
      [.clock 5, .expire, .called 1 () 5] _ :=
    .cons (.of_step (.clock 5 (by decide)) (by simp [Steady])) <|
    .cons (.of_step (.expire (by decide)) (by simp [Steady])) <|
    .cons (.of_step (.called ⟨5, 1, 0⟩ () (by decide) (reder_single rfl) rfl)
      (by simp [Steady])) <| .nil _
  refine ⟨_, _, hstep, hrun, ?_⟩
  exact (registered_calls (r := ⟨1, 0, 5, some 1, ()⟩) (.nil _) hstep (Or.inl rfl) rfl hrun).1
    (by simp)

/-- Two calls, of a timer with the count 0. -/
theorem zero_called : ∃ t u : Timer Unit Unit,
    Step (new 0 fun _ => ⟨0, none, ()⟩) (.append 5 (some 0) () 1) t ∧
    Run Step t [.clock 5, .expire, .called 1 () 5, .clock 10, .called 1 () 10] u ∧
    ¬ Promised ⟨1, 0, 5, some 0, ()⟩
      ([.clock 5, .expire, .called 1 () 5, .clock 10, .called 1 () 10] :
        List (Event Unit Unit)) := by
  refine ⟨_, _, .append 5 (some 0) (), .cons (.clock 5 (by decide)) <|
    .cons (.expire (by decide)) <|
    .cons (.called ⟨5, 1, 0⟩ () (by decide) (reder_single rfl) rfl) <|
    .cons (.clock 10 (by decide)) <|
    .cons (.called ⟨10, 1, 0⟩ () (by decide) (reder_single rfl) rfl) <| .nil _, ?_⟩
  exact fun h => absurd (h.at_most 0 rfl) (by decide)

end XsServer.Custom.Timer
