import XsServer.Custom.Heap
import Mathlib.Data.Multiset.MapFold

/-! The nodes of a heap over its runs.  Whatever the loops do to the order, the nodes of the list
are those that were appended and not deleted, and no table of theirs is given out a second time. -/

namespace XsServer.Custom

open XsServer.Lib

variable {α δ : Type*}

/-- The calls of a heap that make, change and remove its nodes. -/
inductive Op (α δ : Type*)
  | append (ticks : α) (data : δ)
  | appendBy (ticks : α) (auto : Int) (data : δ)
  | adjustBy (auto : Int) (ticks : α)
  | delete (pos : Int)
  | deleteBy (auto : Int)
  | fetch

/-- What a call returns; of a node, what its table has. -/
inductive Reply (α δ : Type*)
  | auto (auto : Int)
  | node (node : Option (Node α δ))
  | done

namespace Heap

variable {h t : Heap α δ} {pos r : Nat} {front : List Nat}

@[simp] theorem write_mem (h : Heap α δ) (r : Nat) (n : Node α δ) :
    (h.write r n).mem = Function.update h.mem r n := rfl

@[simp] theorem write_list (h : Heap α δ) (r : Nat) (n : Node α δ) :
    (h.write r n).list = h.list := rfl

theorem key_write_of_ne {q : Nat} (n : Node α δ) (hne : q ≠ r) : (h.write r n).key q = h.key q := by
  rw [key, write_mem, Function.update_of_ne hne, key]

theorem key_setTicks_self (h : Heap α δ) (r : Nat) (ticks : α) :
    (h.setTicks r ticks).key r = ticks := by
  rw [key, setTicks, write_mem, Function.update_self]

theorem node?_cast (h : Heap α δ) (hpos : 1 ≤ pos) : h.node? pos = h.list[pos - 1]? := by
  rw [node?, if_pos (by omega), Int.toNat_natCast]

theorem node?_eq_some {pos : Int} : h.node? pos = some r ↔
    1 ≤ pos ∧ ∃ hlt : pos.toNat - 1 < h.list.length, h.list[pos.toNat - 1] = r := by
  unfold node?
  split
  · rw [List.getElem?_eq_some_iff]
    constructor
    · exact fun h => ⟨by omega, h⟩
    · exact fun h => h.2
  · constructor
    · intro h
      exact absurd h (by simp)
    · intro h
      omega

theorem node?_eq_none {pos : Int} :
    h.node? pos = none ↔ ¬ (1 ≤ pos ∧ pos ≤ h.list.length) := by
  unfold node?
  split
  · rw [List.getElem?_eq_none_iff]
    omega
  · simp only [true_iff]
    omega

theorem get_cases (h : Heap α δ) :
    (∃ r store, h.store = store ++ [r] ∧ h.get = (r, { h with store })) ∨
      h.store = [] ∧ h.get = (h.next, { h with next := h.next + 1 }) := by
  unfold get
  split
  case h_1 r hr =>
    exact Or.inl ⟨r, _, (List.dropLast_append_getLast? r hr).symm, rfl⟩
  case h_2 hr => exact Or.inr ⟨List.getLast?_eq_none_iff.mp hr, rfl⟩

theorem search_eq_some {auto : Int} (hs : h.search auto = some pos) :
    1 ≤ pos ∧ ∃ hlt : pos - 1 < h.list.length, (h.mem h.list[pos - 1]).auto = auto := by
  obtain ⟨i, hi, rfl⟩ := Option.map_eq_some_iff.mp hs
  obtain ⟨hlt, hauto, -⟩ := List.findIdx?_eq_some_iff_getElem.mp hi
  exact ⟨by omega, hlt, of_decide_eq_true hauto⟩

theorem search_eq_none {auto : Int} (hs : h.search auto = none) :
    ∀ r ∈ h.list, (h.mem r).auto ≠ auto := by
  intro r hr
  have := List.findIdx?_eq_none_iff.mp (Option.map_eq_none_iff.mp hs) r hr
  exact of_decide_eq_false this

/-! ### Nodes and tables -/

def nodesOf (mem : Nat → Node α δ) (list : List Nat) : Multiset (Node α δ) :=
  (list : Multiset Nat).map mem

theorem nodesOf_cons (mem : Nat → Node α δ) (r : Nat) (list : List Nat) :
    nodesOf mem (r :: list) = mem r ::ₘ nodesOf mem list := rfl

theorem nodesOf_perm (mem : Nat → Node α δ) {list list' : List Nat} (hperm : list.Perm list') :
    nodesOf mem list = nodesOf mem list' := by
  unfold nodesOf
  rw [Multiset.coe_eq_coe.mpr hperm]

theorem nodesOf_update (mem : Nat → Node α δ) (n : Node α δ) {list : List Nat} (hr : r ∉ list) :
    nodesOf (Function.update mem r n) list = nodesOf mem list := by
  apply Multiset.map_congr rfl
  intro q hq
  exact Function.update_of_ne (ne_of_mem_of_not_mem hq hr) n mem

def nodes (h : Heap α δ) : Multiset (Node α δ) := nodesOf h.mem h.list

theorem card_nodes (h : Heap α δ) : h.nodes.card = h.list.length := by
  rw [nodes, nodesOf, Multiset.card_map, Multiset.coe_card]

theorem forall_nodes {p : Node α δ → Prop} : (∀ n ∈ h.nodes, p n) ↔ ∀ r ∈ h.list, p (h.mem r) := by
  simp [nodes, nodesOf]

/-- The list and the free list have each table at most once, and not both; what `next` gives is in
neither. -/
structure Sound (h : Heap α δ) : Prop where
  nodup : (h.list ++ h.store).Nodup
  below : ∀ r ∈ h.list ++ h.store, r < h.next

theorem Sound.new (mem : Nat → Node α δ) : Sound (Heap.new mem) :=
  ⟨List.nodup_nil, fun _ hr => absurd hr List.not_mem_nil⟩

theorem Sound.perm {list store : List Nat} (hs : Sound h) (mem : Nat → Node α δ) (auto : Nat)
    (hperm : (list ++ store).Perm (h.list ++ h.store)) :
    Sound { h with mem, list, store, auto } where
  nodup := hperm.nodup_iff.mpr hs.nodup
  below r hr := hs.below r (hperm.mem_iff.mp hr)

theorem Sound.get (hs : Sound h) :
    ∃ r store next, h.get = (r, { h with store, next }) ∧ r ∉ h.list ∧
      ∀ (mem : Nat → Node α δ) auto list, list.Perm (r :: h.list) →
        Sound ⟨mem, list, store, auto, next⟩ := by
  obtain ⟨r, store, hstore, hget⟩ | ⟨hstore, hget⟩ := h.get_cases
  · have hmove : (r :: h.list ++ store).Perm (h.list ++ h.store) := by
      rw [hstore]
      exact List.perm_middle.symm.trans ((List.perm_append_singleton r store).symm.append_left _)
    refine ⟨r, store, h.next, hget, ?_, fun mem auto list hperm => ?_⟩
    · have hnodup := hmove.nodup_iff.mpr hs.nodup
      rw [List.cons_append, List.nodup_cons, List.mem_append] at hnodup
      exact fun hr => hnodup.1 (Or.inl hr)
    · exact hs.perm mem auto ((hperm.append_right store).trans hmove)
  · have hnot : h.next ∉ h.list ++ h.store := fun hr => lt_irrefl _ (hs.below _ hr)
    refine ⟨h.next, h.store, h.next + 1, hget, fun hr => hnot (List.mem_append_left _ hr), ?_⟩
    intro mem auto list hperm
    have hmove : (list ++ h.store).Perm (h.next :: (h.list ++ h.store)) :=
      hperm.append_right h.store
    constructor
    · exact hmove.nodup_iff.mpr (List.nodup_cons.mpr ⟨hnot, hs.nodup⟩)
    · intro r hr
      show r < h.next + 1
      cases List.mem_cons.mp (hmove.mem_iff.mp hr) with
      | inl hnew => omega
      | inr hold => exact Nat.lt_succ_of_lt (hs.below r hold)

theorem Sound.nodup_list (hs : Sound h) : h.list.Nodup := (List.nodup_append.mp hs.nodup).1

/-! ### What one operation does -/

variable [LinearOrder α]

theorem insert_spec (h : Heap α δ) (r : Nat) :
    ∃ list, h.insert r = { h with list } ∧ list.Perm (r :: h.list) := by
  refine ⟨_, rfl, (upward_perm (by simp) (Nat.le_refl _)).trans ?_⟩
  have hput : put (h.list ++ [r]) (h.list ++ [r]).length r = h.list ++ [r] := by
    unfold put
    simp
  rw [hput]
  exact List.perm_append_singleton r h.list

theorem up_spec (h : Heap α δ) (hpos : 1 ≤ pos) :
    ∃ list, h.up pos = { h with list } ∧ list.Perm h.list := by
  unfold up
  split
  case h_1 r hr =>
    obtain ⟨-, hlt, rfl⟩ := node?_eq_some.mp hr
    rw [Int.toNat_natCast] at hlt
    refine ⟨_, rfl, (upward_perm hpos (by omega)).trans ?_⟩
    unfold put
    simp
  case h_2 => exact ⟨h.list, rfl, List.Perm.refl _⟩

theorem down_first {root : Nat} {rest : List Nat} (hlist : h.list = root :: rest) :
    ∃ list, h.down 1 = some { h with list } ∧ list.Perm h.list ∧
      list.head? = some (firstOf h.key root rest) := by
  obtain ⟨list, hrun, hperm, hhead⟩ := downward_first h.key root rest
  rw [← hlist] at hrun hperm
  refine ⟨list, ?_, hperm, hhead⟩
  rw [down, node?_cast h (Nat.le_refl 1), hlist]
  show (downward h.key root (root :: rest) 1).map _ = _
  rw [← hlist, hrun]
  rfl

theorem down_below (h : Heap α δ) (hpos : 2 ≤ pos) :
    ∃ list, h.down pos = some { h with list } ∧ list.Perm h.list ∧
      list.head? = h.list.head? := by
  unfold down
  split
  case h_1 r hr =>
    obtain ⟨-, hlt, rfl⟩ := node?_eq_some.mp hr
    simp only [Int.toNat_natCast] at hlt ⊢
    obtain ⟨list, hrun, hperm, hhead⟩ := downward_spec h.key h.list[pos - 1] hpos
      (show pos ≤ h.list.length by omega)
    refine ⟨list, by rw [hrun]; rfl, hperm.trans ?_, hhead⟩
    unfold put
    simp
  case h_2 => exact ⟨h.list, rfl, List.Perm.refl _, rfl⟩

theorem down_spec (h : Heap α δ) (hpos : 1 ≤ pos) :
    ∃ list, h.down pos = some { h with list } ∧ list.Perm h.list ∧
      (pos ≠ 1 → list.head? = h.list.head?) := by
  obtain rfl | hlt := hpos.eq_or_lt'
  · cases hlist : h.list with
    | nil =>
      have hnode : h.node? (1 : Nat) = none := by
        rw [node?_cast h (Nat.le_refl 1), hlist]
        rfl
      refine ⟨h.list, ?_, by rw [hlist], fun hne => absurd rfl hne⟩
      rw [down, hnode]
    | cons root rest =>
      obtain ⟨list, hrun, hperm, -⟩ := down_first hlist
      exact ⟨list, hrun, hlist ▸ hperm, fun hne => absurd rfl hne⟩
  · obtain ⟨list, hrun, hperm, hhead⟩ := h.down_below hlt
    exact ⟨list, hrun, hperm, fun _ => hhead⟩

theorem adjust_spec (h : Heap α δ) (hpos : 1 ≤ pos) :
    ∃ list, h.adjust pos = some { h with list } ∧ list.Perm h.list := by
  obtain ⟨list1, hup, hperm1⟩ := h.up_spec hpos
  obtain ⟨list2, hdown, hperm2, -⟩ := (h.up pos).down_spec hpos
  rw [hup] at hdown hperm2
  refine ⟨list2, ?_, hperm2.trans hperm1⟩
  rw [adjust, hup]
  exact hdown

theorem delete_of_none {pos : Int} (hnode : h.node? pos = none) :
    h.delete pos = some (none, h) := by
  rw [delete, hnode]

theorem delete_at_last (hlist : h.list = front ++ [r]) :
    h.delete h.list.length = some (some r, { h with list := front, store := h.store ++ [r] }) := by
  have hnode : h.node? h.list.length = some r := by
    rw [node?_cast h (by simp [hlist]), hlist]
    simp
  have hdrop : h.list.dropLast = front := by rw [hlist, List.dropLast_concat]
  have hlen : h.list.length = front.length + 1 := by rw [hlist, List.length_append]; rfl
  simp only [delete, hnode, hdrop]
  rw [if_neg (by omega)]

theorem delete_before_last {last : Nat} (hlist : h.list = front ++ [last]) (hpos : 1 ≤ pos)
    (hle : pos ≤ front.length) :
    h.delete pos = (({ h with list := put front pos last } : Heap α δ).down pos).map fun t =>
      (some front[pos - 1], { t with store := t.store ++ [front[pos - 1]] }) := by
  have hnode : h.node? pos = some front[pos - 1] := by
    rw [node?_cast h hpos, hlist, List.getElem?_append_left (by omega), List.getElem?_eq_getElem]
  simp only [delete, hnode, hlist]
  simp [hle]

/-- A node that is removed goes to the free list, and the others are still in the list; the first
one stays if it is not removed. -/
theorem delete_of_some {pos : Int} (hnode : h.node? pos = some r) :
    ∃ list, h.delete pos = some (some r, { h with list, store := h.store ++ [r] }) ∧
      (r :: list).Perm h.list ∧ (pos ≠ 1 → ∀ a ∈ list.head?, a ∈ h.list.head?) := by
  obtain ⟨hpos, hlt, hr⟩ := node?_eq_some.mp hnode
  obtain ⟨pos, rfl⟩ : ∃ n : Nat, pos = n := ⟨pos.toNat, by omega⟩
  rw [Int.toNat_natCast] at hlt
  simp only [Int.toNat_natCast] at hr
  obtain ⟨front, last, hlist⟩ : ∃ front last, h.list = front ++ [last] :=
    ⟨_, _, (List.dropLast_concat_getLast (List.ne_nil_of_length_pos (by omega))).symm⟩
  have hlen : h.list.length = front.length + 1 := by rw [hlist, List.length_append]; rfl
  by_cases hle : pos ≤ front.length
  · have hlt' : pos - 1 < front.length := by omega
    have hr' : front[pos - 1] = r := by
      rw [← hr]
      simp only [hlist]
      rw [List.getElem_append_left]
    obtain ⟨list, hdown, hperm, hhead⟩ :=
      down_spec { h with list := put front pos last } (show 1 ≤ pos by omega)
    refine ⟨list, ?_, ?_, fun hone => ?_⟩
    · rw [delete_before_last hlist (by omega) hle, hdown, hr']
      rfl
    · have hput : (r :: list).Perm (r :: last :: front.eraseIdx (pos - 1)) :=
        (hperm.trans (List.set_perm_cons_eraseIdx hlt' _)).cons r
      have htake : (last :: r :: front.eraseIdx (pos - 1)).Perm (last :: front) := by
        rw [← hr']
        exact (List.getElem_cons_eraseIdx_perm hlt').cons _
      rw [hlist]
      exact hput.trans ((List.Perm.swap ..).trans
        (htake.trans (List.perm_append_singleton last front).symm))
    · rw [hhead (by omega), head?_put _ _ (by omega) (by omega), hlist]
      exact fun a ha => List.mem_head?_append_of_mem_head? ha
  · obtain rfl : pos = h.list.length := by omega
    obtain rfl : last = r := by
      rw [← hr]
      simp [hlist]
    refine ⟨front, delete_at_last hlist, ?_, fun _ => ?_⟩
    · rw [hlist]
      exact (List.perm_append_singleton last front).symm
    · rw [hlist]
      exact fun a ha => List.mem_head?_append_of_mem_head? ha

/-! ### Runs -/

end Heap

section Calls

variable [LinearOrder α]

/-- A call; `none` is one that does not return. -/
def Op.run (h : Heap α δ) : Op α δ → Option (Reply α δ × Heap α δ)
  | .append ticks data => some (.auto (h.append ticks data).1, (h.append ticks data).2)
  | .appendBy ticks auto data =>
    some (.auto (h.appendBy ticks auto data).1, (h.appendBy ticks auto data).2)
  | .adjustBy auto ticks => (h.adjustBy auto ticks).map fun t => (.done, t)
  | .delete pos => (h.delete pos).map fun (r, t) => (.node (r.map t.mem), t)
  | .deleteBy auto => (h.deleteBy auto).map fun (r, t) => (.node (r.map t.mem), t)
  | .fetch => h.fetch.map fun (r, t) => (.node (r.map t.mem), t)

def Op.Step (h : Heap α δ) (e : Op α δ × Reply α δ) (t : Heap α δ) : Prop :=
  e.1.run h = some (e.2, t)

end Calls

/-- What the calls and their values say of the nodes.  Of nodes with one identifier, `adjustBy` and
`deleteBy` take any. -/
inductive Change : Multiset (Node α δ) → Op α δ × Reply α δ → Multiset (Node α δ) → Prop
  | append (b : Multiset (Node α δ)) (ticks : α) (auto : Int) (data : δ) :
    Change b (.append ticks data, .auto auto) (⟨ticks, auto, data⟩ ::ₘ b)
  | appendBy (b : Multiset (Node α δ)) (ticks : α) (auto : Int) (data : δ) :
    Change b (.appendBy ticks auto data, .auto auto) (⟨ticks, auto, data⟩ ::ₘ b)
  | adjustBy (b : Multiset (Node α δ)) (n : Node α δ) (ticks : α) :
    Change (n ::ₘ b) (.adjustBy n.auto ticks, .done) ({ n with ticks } ::ₘ b)
  | adjustByNone (b : Multiset (Node α δ)) (auto : Int) (ticks : α) (h : ∀ n ∈ b, n.auto ≠ auto) :
    Change b (.adjustBy auto ticks, .done) b
  | delete (b : Multiset (Node α δ)) (n : Node α δ) (pos : Int) (h : 1 ≤ pos)
    (hle : pos ≤ (n ::ₘ b).card) : Change (n ::ₘ b) (.delete pos, .node (some n)) b
  | deleteNone (b : Multiset (Node α δ)) (pos : Int) (h : ¬ (1 ≤ pos ∧ pos ≤ b.card)) :
    Change b (.delete pos, .node none) b
  | deleteBy (b : Multiset (Node α δ)) (n : Node α δ) :
    Change (n ::ₘ b) (.deleteBy n.auto, .node (some n)) b
  | deleteByNone (b : Multiset (Node α δ)) (auto : Int) (h : ∀ n ∈ b, n.auto ≠ auto) :
    Change b (.deleteBy auto, .node none) b
  | fetch (b : Multiset (Node α δ)) (n : Node α δ) :
    Change (n ::ₘ b) (.fetch, .node (some n)) b
  | fetchNone : Change 0 (.fetch, .node none) 0

theorem Change.of_appendBy {b c : Multiset (Node α δ)} {ticks : α} {auto : Int} {data : δ}
    {reply : Reply α δ} (h : Change b (.appendBy ticks auto data, reply) c) :
    c = ⟨ticks, auto, data⟩ ::ₘ b := by
  cases h
  rfl

theorem Change.of_adjustBy {b c : Multiset (Node α δ)} {auto : Int} {ticks : α}
    {reply : Reply α δ} (h : Change b (.adjustBy auto ticks, reply) c) :
    (∃ n rest, n.auto = auto ∧ b = n ::ₘ rest ∧ c = { n with ticks } ::ₘ rest) ∨
      (∀ n ∈ b, n.auto ≠ auto) ∧ c = b := by
  cases h with
  | adjustBy rest n => exact .inl ⟨n, rest, rfl, rfl, rfl⟩
  | adjustByNone _ _ _ hnone => exact .inr ⟨hnone, rfl⟩

namespace Heap

variable [LinearOrder α] {h : Heap α δ}

theorem Sound.enter (hs : Sound h) (auto : Nat) (n : Node α δ) :
    ∃ r t g, ({ h with auto } : Heap α δ).get = (r, g) ∧ (g.write r n).insert r = t ∧ Sound t ∧
      t.nodes = n ::ₘ h.nodes := by
  obtain ⟨r, store, next, hget, hr, hsound⟩ := Sound.get (h := { h with auto }) ⟨hs.nodup, hs.below⟩
  obtain ⟨list, hinsert, hperm⟩ :=
    insert_spec (({ h with auto, store, next } : Heap α δ).write r n) r
  refine ⟨r, _, _, hget, hinsert, hsound _ _ _ hperm, ?_⟩
  calc nodesOf (Function.update h.mem r n) list
    _ = nodesOf (Function.update h.mem r n) (r :: h.list) := nodesOf_perm _ hperm
    _ = n ::ₘ nodesOf (Function.update h.mem r n) h.list := by
      rw [nodesOf_cons, Function.update_self]
    _ = n ::ₘ h.nodes := by rw [nodesOf_update h.mem n hr, nodes]

theorem Sound.append (hs : Sound h) (ticks : α) (data : δ) :
    Sound (h.append ticks data).2 ∧
      Change h.nodes (.append ticks data, .auto (h.append ticks data).1)
        (h.append ticks data).2.nodes := by
  obtain ⟨r, t, g, hget, hinsert, hsound, hnodes⟩ :=
    hs.enter (h.auto + 1) ⟨ticks, (h.auto + 1 : Nat), data⟩
  have hrun : h.append ticks data = (((h.auto + 1 : Nat) : Int), t) := by
    unfold Heap.append
    simp only [hget, hinsert]
  rw [hrun]
  refine ⟨hsound, ?_⟩
  show Change h.nodes _ t.nodes
  rw [hnodes]
  exact .append ..

theorem Sound.appendBy (hs : Sound h) (ticks : α) (auto : Int) (data : δ) :
    Sound (h.appendBy ticks auto data).2 ∧
      Change h.nodes (.appendBy ticks auto data, .auto (h.appendBy ticks auto data).1)
        (h.appendBy ticks auto data).2.nodes := by
  obtain ⟨r, t, g, hget, hinsert, hsound, hnodes⟩ := hs.enter h.auto ⟨ticks, auto, data⟩
  have hrun : h.appendBy ticks auto data = (auto, t) := by
    unfold Heap.appendBy
    simp only [hget, hinsert]
  rw [hrun]
  refine ⟨hsound, ?_⟩
  show Change h.nodes _ t.nodes
  rw [hnodes]
  exact .appendBy ..

theorem Sound.adjustBy (hs : Sound h) (auto : Int) (ticks : α) :
    ∃ t, h.adjustBy auto ticks = some t ∧ Sound t ∧
      Change h.nodes (.adjustBy auto ticks, .done) t.nodes := by
  unfold Heap.adjustBy
  split
  case h_1 pos hpos =>
    obtain ⟨h1, hlt, rfl⟩ := search_eq_some hpos
    rw [node?_cast h h1, List.getElem?_eq_getElem hlt]
    obtain ⟨list, hadjust, hperm⟩ := (h.setTicks h.list[pos - 1] ticks).adjust_spec h1
    refine ⟨_, hadjust, hs.perm _ _ (hperm.append_right _), ?_⟩
    have htake := List.getElem_cons_eraseIdx_perm hlt
    have hr : h.list[pos - 1] ∉ h.list.eraseIdx (pos - 1) :=
      (List.nodup_cons.mp (htake.nodup_iff.mpr hs.nodup_list)).1
    generalize h.list[pos - 1] = r at *
    have hold : h.nodes = h.mem r ::ₘ nodesOf h.mem (h.list.eraseIdx (pos - 1)) :=
      (nodesOf_perm h.mem htake).symm
    have hnew : nodesOf (h.setTicks r ticks).mem list =
        { h.mem r with ticks } ::ₘ nodesOf h.mem (h.list.eraseIdx (pos - 1)) := by
      rw [nodesOf_perm _ (hperm.trans htake.symm), nodesOf_cons]
      rw [setTicks, write_mem, Function.update_self, nodesOf_update h.mem _ hr]
    show Change h.nodes _ (nodesOf (h.setTicks r ticks).mem list)
    rw [hold, hnew]
    exact .adjustBy ..
  case h_2 hnone =>
    exact ⟨h, rfl, hs, .adjustByNone _ _ _ (forall_nodes.mpr (search_eq_none hnone))⟩

theorem Sound.delete (hs : Sound h) (pos : Int) :
    h.node? pos = none ∧ h.delete pos = some (none, h) ∨
      ∃ r t, h.node? pos = some r ∧ h.delete pos = some (some r, t) ∧ t.mem = h.mem ∧ Sound t ∧
        h.nodes = t.mem r ::ₘ t.nodes := by
  cases hnode : h.node? pos with
  | none => exact Or.inl ⟨rfl, delete_of_none hnode⟩
  | some r =>
    obtain ⟨list, hrun, hperm, -⟩ := delete_of_some hnode
    refine Or.inr ⟨r, _, rfl, hrun, rfl, ?_, (nodesOf_perm h.mem hperm).symm⟩
    refine hs.perm _ _ (List.Perm.trans ?_ (hperm.append_right h.store))
    rw [← List.append_assoc]
    exact List.perm_append_singleton r (list ++ h.store)

theorem Sound.run (hs : Sound h) (op : Op α δ) :
    ∃ reply t, Op.Step h (op, reply) t ∧ Sound t ∧ Change h.nodes (op, reply) t.nodes := by
  cases op with
  | append ticks data => exact ⟨_, _, rfl, hs.append ticks data⟩
  | appendBy ticks auto data => exact ⟨_, _, rfl, hs.appendBy ticks auto data⟩
  | adjustBy auto ticks =>
    obtain ⟨t, hrun, hsound, hchange⟩ := hs.adjustBy auto ticks
    exact ⟨_, t, by rw [Op.Step, Op.run, hrun]; rfl, hsound, hchange⟩
  | delete pos =>
    obtain ⟨hnode, hrun⟩ | ⟨r, t, hnode, hrun, -, hsound, hnodes⟩ := hs.delete pos
    · refine ⟨_, h, by rw [Op.Step, Op.run, hrun]; rfl, hs, .deleteNone _ _ ?_⟩
      rw [card_nodes]
      exact node?_eq_none.mp hnode
    · refine ⟨_, t, by rw [Op.Step, Op.run, hrun]; rfl, hsound, ?_⟩
      have hcard := card_nodes h
      rw [hnodes] at hcard ⊢
      obtain ⟨h1, hlt, -⟩ := node?_eq_some.mp hnode
      exact .delete _ _ _ h1 (by omega)
  | deleteBy auto =>
    cases hsearch : h.search auto with
    | none =>
      refine ⟨_, h, by rw [Op.Step, Op.run, Heap.deleteBy, hsearch]; rfl, hs, ?_⟩
      exact .deleteByNone _ _ (forall_nodes.mpr (search_eq_none hsearch))
    | some pos =>
      obtain ⟨h1, hlt, hauto⟩ := search_eq_some hsearch
      have hnode := node?_cast h h1
      rw [List.getElem?_eq_getElem hlt] at hnode
      obtain ⟨hnode', -⟩ | ⟨r, t, hnode', hrun, hmem, hsound, hnodes⟩ := hs.delete pos
      · rw [hnode] at hnode'
        exact absurd hnode' (by simp)
      · refine ⟨_, t, by simp only [Op.Step, Op.run, Heap.deleteBy, hsearch, hrun]; rfl, hsound, ?_⟩
        obtain rfl := Option.some.inj (hnode.symm.trans hnode')
        rw [hnodes, ← hauto, ← hmem]
        exact .deleteBy ..
  | fetch =>
    obtain ⟨hnode, hrun⟩ | ⟨r, t, hnode, hrun, -, hsound, hnodes⟩ := hs.delete 1
    · refine ⟨_, h, by rw [Op.Step, Op.run, Heap.fetch, hrun]; rfl, hs, ?_⟩
      have hcard := card_nodes h
      have hout := node?_eq_none.mp hnode
      rw [Multiset.card_eq_zero.mp (show h.nodes.card = 0 by omega)]
      exact .fetchNone
    · refine ⟨_, t, by rw [Op.Step, Op.run, Heap.fetch, hrun]; rfl, hsound, ?_⟩
      rw [hnodes]
      exact .fetch ..

theorem Sound.step {t : Heap α δ} {e : Op α δ × Reply α δ} (hs : Sound h) (hstep : Op.Step h e t) :
    Sound t ∧ Change h.nodes e t.nodes := by
  obtain ⟨op, reply⟩ := e
  obtain ⟨reply', t', hrun, hsound, hchange⟩ := hs.run op
  obtain ⟨rfl, rfl⟩ := Prod.mk.inj (Option.some.inj (hrun.symm.trans hstep))
  exact ⟨hsound, hchange⟩

/-- The nodes of the list are as the calls say, the next call returns, and `get` gives a table that
no node of the list has. -/
theorem nodes_kept {mem : Nat → Node α δ} {es : List (Op α δ × Reply α δ)} {h : Heap α δ}
    (hrun : Run Op.Step (Heap.new mem) es h) :
    Run Change 0 es h.nodes ∧ h.get.1 ∉ h.list ∧ ∀ op, ∃ reply t, Op.Step h (op, reply) t := by
  have hkept : Sound h ∧ Run Change 0 es h.nodes := by
    induction hrun with
    | nil => exact ⟨.new mem, .nil 0⟩
    | snoc _ hstep ih =>
      obtain ⟨hsound, hchange⟩ := ih.1.step hstep
      exact ⟨hsound, ih.2.snoc hchange⟩
  refine ⟨hkept.2, ?_, fun op => ?_⟩
  · obtain ⟨r, store, next, hget, hr, -⟩ := hkept.1.get
    rw [hget]
    exact hr
  · obtain ⟨reply, t, hstep, -⟩ := hkept.1.run op
    exact ⟨reply, t, hstep⟩

theorem nodes_kept_three : ∃ h : Heap Nat Unit,
    Run Change 0 [(.append 5 (), .auto 1), (.append 7 (), .auto 2),
      (.fetch, .node (some ⟨5, 1, ()⟩))] h.nodes ∧ h.get.1 ∉ h.list := by
  have hfetch : ∃ t, Op.Step
      (((Heap.new fun _ => (⟨0, 0, ()⟩ : Node Nat Unit)).append 5 ()).2.append 7 ()).2
      (.fetch, .node (some ⟨5, 1, ()⟩)) t := by
    simp [Op.Step, Op.run, Heap.append, Heap.new, Heap.get, Heap.insert, upward, Heap.write, uos,
      Heap.key, defaultCompare, at1, put, Heap.fetch, Heap.delete, Heap.node?, Heap.down, downward]
  obtain ⟨t, hfetch⟩ := hfetch
  have hrun : Run Op.Step (Heap.new fun _ => (⟨0, 0, ()⟩ : Node Nat Unit))
      [(.append 5 (), .auto 1), (.append 7 (), .auto 2), (.fetch, .node (some ⟨5, 1, ()⟩))] t :=
    .cons rfl <| .cons rfl <| .cons hfetch <| .nil t
  exact ⟨t, (nodes_kept hrun).1, (nodes_kept hrun).2.1⟩

end Heap

end XsServer.Custom
