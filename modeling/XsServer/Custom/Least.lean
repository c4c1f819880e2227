import XsServer.Custom.Nodes

/-! The first node of a heap.  `upward` brings a node that is below all others to the first position
and leaves the first one otherwise; `downward` compares what comes to the first position with the
second node only. -/

namespace XsServer.Custom

open XsServer.Lib

variable {α δ : Type*}

/-- The calls of a heap.  With `node` the caller makes a table of its own or writes it, with
`adjustByFirst` it has changed the ticks of the first node. -/
inductive Call (α δ : Type*)
  | op (op : Op α δ)
  | node (r : Nat) (n : Node α δ)
  | insert (r : Nat)
  | adjustByFirst (ticks : α)
  | clear

namespace Heap

variable {h : Heap α δ}

/-- The list has each table once, and what `next` gives is in neither list. -/
structure Placed (h : Heap α δ) : Prop where
  nodup : h.list.Nodup
  below : ∀ r ∈ h.list ++ h.store, r < h.next

theorem Placed.of_subset {list store : List Nat} (hp : h.Placed) (mem : Nat → Node α δ) (auto : Nat)
    (hnodup : list.Nodup) (hsub : ∀ r ∈ list ++ store, r ∈ h.list ++ h.store) :
    Placed { h with mem, list, store, auto } :=
  ⟨hnodup, fun r hr => hp.below r (hsub r hr)⟩

theorem Placed.perm {list : List Nat} (hp : h.Placed) (mem : Nat → Node α δ)
    (hperm : list.Perm h.list) : Placed { h with mem, list } :=
  hp.of_subset mem h.auto (hperm.nodup_iff.mpr hp.nodup) fun _ hr =>
    (hperm.append_right h.store).mem_iff.mp hr

theorem Placed.get (hp : h.Placed) (hfresh : ∀ r ∈ h.store.getLast?, r ∉ h.list) :
    ∃ r store next, h.get = (r, { h with store, next }) ∧ r ∉ h.list ∧
      ∀ (mem : Nat → Node α δ) auto list, list.Perm (r :: h.list) →
        Placed ⟨mem, list, store, auto, next⟩ := by
  obtain ⟨r, store, hstore, hget⟩ | ⟨hstore, hget⟩ := h.get_cases
  · have hr : r ∉ h.list := hfresh r (by rw [hstore, List.getLast?_concat]; rfl)
    refine ⟨r, store, h.next, hget, hr, fun mem auto list hperm => ?_⟩
    refine hp.of_subset mem auto (hperm.nodup_iff.mpr (List.nodup_cons.mpr ⟨hr, hp.nodup⟩)) ?_
    intro q hq
    rw [hstore]
    have := (hperm.append_right store).mem_iff.mp hq
    simp only [List.mem_append, List.mem_cons] at this ⊢
    tauto
  · have hr : h.next ∉ h.list := fun hr => lt_irrefl _ (hp.below _ (List.mem_append_left _ hr))
    refine ⟨h.next, h.store, h.next + 1, hget, hr, fun mem auto list hperm => ?_⟩
    refine ⟨hperm.nodup_iff.mpr (List.nodup_cons.mpr ⟨hr, hp.nodup⟩), fun q hq => ?_⟩
    show q < h.next + 1
    rcases List.mem_cons.mp ((hperm.append_right h.store).mem_iff.mp hq) with rfl | hq
    · exact Nat.lt_succ_self _
    · exact Nat.lt_succ_of_lt (hp.below q hq)

end Heap

variable [LinearOrder α]

def Call.run (h : Heap α δ) : Call α δ → Option (Reply α δ × Heap α δ)
  | .op o => o.run h
  | .node r n => some (.done, { h.write r n with next := max h.next (r + 1) })
  | .insert r => some (.auto (h.mem r).auto, h.insert r)
  | .adjustByFirst ticks =>
    match h.reder with
    | some r => (h.setTicks r ticks).adjustByFirst.map fun t => (.done, t)
    | none => some (.done, h)
  | .clear => some (.done, h.clear)

def Call.Step (h : Heap α δ) (e : Call α δ × Reply α δ) (t : Heap α δ) : Prop :=
  e.1.run h = some (e.2, t)

/-- The carried node is below the rest, or the second one is below all. -/
def LeastOfTwo (key : Nat → α) (node : Nat) (rest : List Nat) : Prop :=
  (∀ r ∈ rest, key node ≤ key r) ∨ ∃ second ∈ rest.head?, ∀ r ∈ node :: rest, key second ≤ key r

theorem leastOfTwo_iff {key : Nat → α} {node : Nat} {rest : List Nat} :
    LeastOfTwo key node rest ↔ ∀ r ∈ node :: rest, key (firstOf key node rest) ≤ key r := by
  cases rest with
  | nil => simp [LeastOfTwo, firstOf]
  | cons second rest =>
    rw [firstOf]
    split
    case isTrue hless =>
      constructor
      · rintro (hnode | ⟨second', hsecond, hall⟩)
        · exact absurd hless (not_lt_of_ge (hnode second List.mem_cons_self))
        · obtain rfl := Option.some.inj hsecond
          exact hall
      · exact fun hall => Or.inr ⟨second, rfl, hall⟩
    case isFalse hless =>
      constructor
      · rintro (hnode | ⟨second', hsecond, hall⟩)
        · exact List.forall_mem_cons.mpr ⟨le_rfl, hnode⟩
        · obtain rfl := Option.some.inj hsecond
          exact fun r hr => (not_lt.mp hless).trans (hall r hr)
      · exact fun hall => Or.inl (List.forall_mem_cons.mp hall).2

namespace Heap

variable {h : Heap α δ} {r : Nat}

/-- The node that `reder` gives has the least ticks of all. -/
def LeastFirst (h : Heap α δ) : Prop := ∀ r ∈ h.reder, ∀ n ∈ h.nodes, h.key r ≤ n.ticks

def RemoveFirst (h : Heap α δ) : Prop :=
  LeastOfTwo h.key (h.list.getLastD 0) h.list.dropLast.tail

def ChangeFirst (h : Heap α δ) (ticks : α) : Prop :=
  ∀ r ∈ h.reder, LeastOfTwo (h.setTicks r ticks).key r h.list.tail

/-- No table comes into the list that is in it, from the caller or from the free list. -/
def Fresh (h : Heap α δ) : Call α δ → Prop
  | .op (.append ..) => ∀ r ∈ h.store.getLast?, r ∉ h.list
  | .op (.appendBy ..) => ∀ r ∈ h.store.getLast?, r ∉ h.list
  | .node r _ => r ∉ h.list
  | .insert r => r < h.next ∧ r ∉ h.list
  | _ => True

/-- Where the first node is removed or changed, the least one is among the two that `downward`
compares. -/
def Clear (h : Heap α δ) : Call α δ → Prop
  | .op (.adjustBy auto ticks) => h.search auto = some 1 → h.ChangeFirst ticks
  | .op (.delete pos) => pos = 1 → h.RemoveFirst
  | .op (.deleteBy auto) => h.search auto = some 1 → h.RemoveFirst
  | .op .fetch => h.RemoveFirst
  | .adjustByFirst ticks => h.ChangeFirst ticks
  | _ => True

theorem leastFirst_iff :
    h.LeastFirst ↔ ∀ a ∈ h.list.head?, ∀ r ∈ h.list, h.key a ≤ h.key r := by
  unfold LeastFirst
  simp only [forall_nodes]
  rfl

theorem leastFirst_of_head {a : Nat} {list : List Nat} (hperm : h.list.Perm list)
    (hhead : h.list.head? = some a) : h.LeastFirst ↔ ∀ r ∈ list, h.key a ≤ h.key r := by
  rw [leastFirst_iff, hhead]
  constructor
  · exact fun hall r hr => hall a rfl r (hperm.mem_iff.mpr hr)
  · intro hall b hb r hr
    obtain rfl := Option.some.inj hb
    exact hall r (hperm.mem_iff.mp hr)

theorem leastFirst_write (n : Node α δ) (hr : r ∉ h.list) :
    (h.write r n).LeastFirst ↔ h.LeastFirst := by
  have hkey : ∀ q ∈ h.list, (h.write r n).key q = h.key q := fun q hq =>
    key_write_of_ne n (ne_of_mem_of_not_mem hq hr)
  rw [leastFirst_iff, leastFirst_iff]
  refine forall₂_congr fun a ha => forall₂_congr fun q hq => ?_
  rw [hkey a (List.mem_of_mem_head? ha), hkey q hq]

theorem LeastFirst.insert (hl : h.LeastFirst) (r : Nat) : (h.insert r).LeastFirst := by
  obtain ⟨list, hinsert, hperm⟩ := h.insert_spec r
  have hlen : (h.list ++ [r]).length = h.list.length + 1 := List.length_append
  have hlist : list = upward h.key r (h.list ++ [r]) (h.list ++ [r]).length :=
    (congrArg Heap.list hinsert).symm
  rw [leastFirst_iff] at hl
  by_cases hbelow : ∀ a ∈ h.list, h.key r < h.key a
  · have hhead : list.head? = some r := by
      rw [hlist]
      refine upward_head?_of_lt (by omega) (Nat.le_refl _) fun i hi hne => ?_
      rw [List.getElem_append_left (by omega)]
      exact hbelow _ (List.getElem_mem _)
    rw [hinsert]
    refine (leastFirst_of_head (h := { h with list }) hperm hhead).mpr ?_
    exact List.forall_mem_cons.mpr ⟨le_rfl, fun a ha => (hbelow a ha).le⟩
  · simp only [not_forall, not_lt] at hbelow
    obtain ⟨a, ha, hle⟩ := hbelow
    obtain ⟨root, rest, hroot⟩ := List.exists_cons_of_ne_nil (List.ne_nil_of_mem ha)
    have hall := hl root (by rw [hroot]; rfl)
    have hhead : list.head? = some root := by
      rw [hlist, upward_head? _ (Nat.le_refl _)]
      · rw [hroot]
        rfl
      · intro b hb
        obtain rfl : root = b := by
          rw [hroot] at hb
          exact Option.some.inj hb
        exact (hall a ha).trans hle
      · rw [hlen, hroot, List.length_cons]
        omega
    rw [hinsert]
    refine (leastFirst_of_head (h := { h with list }) hperm hhead).mpr ?_
    exact List.forall_mem_cons.mpr ⟨(hall a ha).trans hle, hall⟩

theorem up_one (h : Heap α δ) : h.up 1 = h := by
  have hup : ∀ r, h.list.head? = some r → put h.list 1 r = h.list := by
    intro r hr
    obtain ⟨rest, hlist⟩ := List.head?_eq_some_iff.mp hr
    rw [hlist]
    rfl
  unfold up
  split
  case h_1 r hr =>
    rw [node?_cast h (Nat.le_refl 1), ← List.head?_eq_getElem?] at hr
    rw [upward, if_neg (Nat.lt_irrefl 1), hup r hr]
  case h_2 => rfl

theorem adjust_first {root : Nat} {rest : List Nat} (hlist : h.list = root :: rest) :
    ∃ list, h.adjust 1 = some { h with list } ∧ list.Perm h.list ∧
      (LeastFirst { h with list } ↔ LeastOfTwo h.key root rest) := by
  obtain ⟨list, hdown, hperm, hhead⟩ := down_first hlist
  refine ⟨list, ?_, hperm, ?_⟩
  · rw [adjust, up_one]
    exact hdown
  · rw [hlist] at hperm
    rw [leastOfTwo_iff]
    exact leastFirst_of_head (h := { h with list }) hperm hhead

theorem LeastFirst.adjust {pos : Nat} (hl : h.LeastFirst) (hnodup : h.list.Nodup) (hpos : 2 ≤ pos)
    (hlt : pos - 1 < h.list.length) (ticks : α) :
    ∃ list, (h.setTicks h.list[pos - 1] ticks).adjust pos =
        some { h.setTicks h.list[pos - 1] ticks with list } ∧ list.Perm h.list ∧
      LeastFirst { h.setTicks h.list[pos - 1] ticks with list } := by
  generalize hr : h.list[pos - 1] = r
  obtain ⟨root, rest, hroot⟩ : ∃ root rest, h.list = root :: rest :=
    List.exists_cons_of_ne_nil (List.ne_nil_of_length_pos (Nat.zero_lt_of_lt hlt))
  have hall := leastFirst_iff.mp hl root (by rw [hroot]; rfl)
  have hother : ∀ q, q ≠ r → (h.setTicks r ticks).key q = h.key q := fun q hq =>
    key_write_of_ne _ hq
  have hself := key_setTicks_self h r ticks
  have hup : (h.setTicks r ticks).up pos = { h.setTicks r ticks with
      list := upward (h.setTicks r ticks).key r h.list pos } := by
    have hnode : (h.setTicks r ticks).node? pos = some r := by
      rw [node?_cast _ (by omega), setTicks, write_list, List.getElem?_eq_getElem hlt, hr]
    rw [up, hnode]
    rfl
  have hperm : (upward (h.setTicks r ticks).key r h.list pos).Perm h.list := by
    refine (upward_perm (by omega) (by omega)).trans ?_
    rw [put, ← hr, List.set_getElem_self]
  obtain ⟨list, hdown, hperm', hhead⟩ := ((h.setTicks r ticks).up pos).down_below hpos
  rw [hup] at hdown hperm' hhead
  refine ⟨list, ?_, hperm'.trans hperm, ?_⟩
  · rw [Heap.adjust, hup]
    exact hdown
  · by_cases hless : ticks < h.key root
    · -- the node gets to the first position
      have hfirst : (upward (h.setTicks r ticks).key r h.list pos).head? = some r := by
        refine upward_head?_of_lt (by omega) (by omega) fun i hi hne => ?_
        have hiq : h.list[i] ≠ r := by
          rw [← hr]
          exact fun heq => hne (hnodup.getElem_inj_iff.mp heq)
        rw [hself, hother _ hiq]
        exact hless.trans_le (hall _ (List.getElem_mem _))
      refine (leastFirst_of_head (hperm'.trans hperm) (hhead.trans hfirst)).mpr fun q hq => ?_
      show (h.setTicks r ticks).key r ≤ (h.setTicks r ticks).key q
      by_cases hqr : q = r
      · rw [hqr]
      · rw [hself, hother q hqr]
        exact (hless.trans_le (hall q hq)).le
    · have hne : root ≠ r := by
        intro heq
        have hpos0 : 0 < h.list.length := Nat.zero_lt_of_lt hlt
        have h0 : h.list[0] = h.list[pos - 1] := by
          rw [hr, ← heq]
          simp [hroot]
        have := hnodup.getElem_inj_iff.mp h0
        omega
      have hle := not_lt.mp hless
      have hfirst : (upward (h.setTicks r ticks).key r h.list pos).head? = some root := by
        rw [upward_head? hpos (by omega), hroot]
        · rfl
        · rw [hroot]
          intro q hq
          obtain rfl := Option.some.inj hq
          rwa [hself, hother _ hne]
      refine (leastFirst_of_head (hperm'.trans hperm) (hhead.trans hfirst)).mpr fun q hq => ?_
      show (h.setTicks r ticks).key root ≤ (h.setTicks r ticks).key q
      by_cases hqr : q = r
      · rwa [hqr, hself, hother _ hne]
      · rw [hother _ hne, hother q hqr]
        exact hall q hq

theorem delete_first (h : Heap α δ) :
    ∃ o t, h.delete 1 = some (o, t) ∧ (t.LeastFirst ↔ h.RemoveFirst) := by
  cases hlist : h.list with
  | nil =>
    refine ⟨none, h, delete_of_none (node?_eq_none.mpr (by rw [hlist]; simp)), ?_⟩
    simp [leastFirst_iff, RemoveFirst, LeastOfTwo, hlist]
  | cons root rest =>
    obtain ⟨front, last, hfront⟩ : ∃ front last, h.list = front ++ [last] :=
      ⟨_, _, (List.dropLast_concat_getLast (by rw [hlist]; simp)).symm⟩
    have hrem : h.RemoveFirst ↔ LeastOfTwo h.key last front.tail := by
      unfold RemoveFirst
      rw [hfront]
      simp
    rw [hrem]
    cases front with
    | nil =>
      have hlen : ((1 : Nat) : Int) = h.list.length := by rw [hfront]; rfl
      refine ⟨_, _, by
        show h.delete ((1 : Nat) : Int) = _
        rw [hlen]
        exact delete_at_last hfront, ?_⟩
      simp [leastFirst_iff, LeastOfTwo]
    | cons root' front =>
      obtain ⟨list, hdown, hperm, hhead⟩ := down_first (h := { h with list := last :: front }) rfl
      refine ⟨_, _, by
        show h.delete ((1 : Nat) : Int) = _
        rw [delete_before_last hfront (Nat.le_refl 1) (by simp)]
        show (({ h with list := last :: front } : Heap α δ).down 1).map _ = _
        rw [hdown]
        rfl, ?_⟩
      rw [List.tail_cons, leastOfTwo_iff]
      exact leastFirst_of_head (h := { h with list, store := h.store ++ [root'] }) hperm hhead

theorem LeastFirst.delete {pos : Int} (hl : h.LeastFirst) (hpos : pos ≠ 1) :
    ∃ o t, h.delete pos = some (o, t) ∧ t.LeastFirst := by
  cases hnode : h.node? pos with
  | none => exact ⟨_, _, delete_of_none hnode, hl⟩
  | some r =>
    obtain ⟨list, hrun, hperm, hhead⟩ := delete_of_some hnode
    refine ⟨_, _, hrun, leastFirst_iff.mpr fun a ha q hq => ?_⟩
    have hmem : q ∈ h.list := hperm.mem_iff.mp (List.mem_cons_of_mem r hq)
    exact leastFirst_iff.mp hl a (hhead hpos a ha) q hmem

theorem Placed.enter (hp : h.Placed) (hl : h.LeastFirst)
    (hfresh : ∀ r ∈ h.store.getLast?, r ∉ h.list) (auto : Nat) (n : Node α δ) :
    ∃ r t g, ({ h with auto } : Heap α δ).get = (r, g) ∧ (g.write r n).insert r = t ∧ Placed t ∧
      t.LeastFirst := by
  obtain ⟨r, store, next, hget, hr, hplaced⟩ :=
    Placed.get (h := { h with auto }) ⟨hp.nodup, hp.below⟩ hfresh
  obtain ⟨list, hinsert, hperm⟩ :=
    insert_spec (({ h with auto, store, next } : Heap α δ).write r n) r
  have hleast : (({ h with auto, store, next } : Heap α δ).write r n).LeastFirst :=
    (leastFirst_write n hr).mpr hl
  refine ⟨r, _, _, hget, rfl, ?_, hleast.insert r⟩
  rw [hinsert]
  exact hplaced _ _ _ hperm

theorem Placed.adjustBy (hp : h.Placed) (hl : h.LeastFirst) (auto : Int) (ticks : α) :
    ∃ t, h.adjustBy auto ticks = some t ∧ t.Placed ∧
      (t.LeastFirst ↔ (h.search auto = some 1 → h.ChangeFirst ticks)) := by
  unfold Heap.adjustBy
  split
  case h_1 pos hsearch =>
    obtain ⟨h1, hlt, -⟩ := search_eq_some hsearch
    rw [node?_cast h h1, List.getElem?_eq_getElem hlt, hsearch]
    obtain rfl | h2 := h1.eq_or_lt'
    · obtain ⟨root, rest, hroot⟩ : ∃ root rest, h.list = root :: rest :=
        List.exists_cons_of_ne_nil (List.ne_nil_of_length_pos hlt)
      have hr : h.list[1 - 1] = root := by simp [hroot]
      rw [hr]
      obtain ⟨list, hadjust, hperm, hiff⟩ := adjust_first (h := h.setTicks root ticks) hroot
      refine ⟨_, hadjust, hp.perm _ hperm, hiff.trans ?_⟩
      simp [ChangeFirst, reder, hroot]
    · obtain ⟨list, hadjust, hperm, hleast⟩ := hl.adjust hp.nodup h2 hlt ticks
      refine ⟨_, hadjust, hp.perm _ hperm, iff_of_true hleast fun hone => ?_⟩
      have := Option.some.inj hone
      omega
  case h_2 hsearch =>
    refine ⟨h, rfl, hp, iff_of_true hl fun hone => ?_⟩
    rw [hsearch] at hone
    exact absurd hone (by simp)

theorem Placed.adjustByFirst (hp : h.Placed) (ticks : α) :
    ∃ reply t, Call.Step h (.adjustByFirst ticks, reply) t ∧ t.Placed ∧
      (t.LeastFirst ↔ h.ChangeFirst ticks) := by
  cases hlist : h.list with
  | nil =>
    have hreder : h.reder = none := by rw [reder, hlist]; rfl
    refine ⟨.done, h, ?_, hp, ?_⟩
    · rw [Call.Step, Call.run, hreder]
    · simp [LeastFirst, ChangeFirst, hreder]
  | cons root rest =>
    have hreder : h.reder = some root := by rw [reder, hlist]; rfl
    obtain ⟨list, hadjust, hperm, hiff⟩ := adjust_first (h := h.setTicks root ticks) hlist
    refine ⟨.done, _, ?_, hp.perm _ hperm, hiff.trans ?_⟩
    · simp only [Call.Step, Call.run, hreder, Heap.adjustByFirst, hadjust]
      rfl
    · simp [ChangeFirst, hreder, hlist]

theorem Placed.delete (hp : h.Placed) (hl : h.LeastFirst) (pos : Int) :
    ∃ o t, h.delete pos = some (o, t) ∧ t.Placed ∧
      (t.LeastFirst ↔ (pos = 1 → h.RemoveFirst)) := by
  have hplaced : ∀ o t, h.delete pos = some (o, t) → t.Placed := by
    intro o t hrun
    cases hnode : h.node? pos with
    | none =>
      rw [delete_of_none hnode] at hrun
      cases hrun
      exact hp
    | some r =>
      obtain ⟨list, hrun', hperm, -⟩ := delete_of_some hnode
      rw [hrun'] at hrun
      cases hrun
      refine hp.of_subset _ _ (List.nodup_cons.mp (hperm.nodup_iff.mpr hp.nodup)).2 fun q hq => ?_
      have hmem := hperm.mem_iff (a := q)
      simp only [List.mem_append, List.mem_cons, List.not_mem_nil, or_false] at hq hmem ⊢
      tauto
  by_cases hone : pos = 1
  · subst hone
    obtain ⟨o, t, hrun, hiff⟩ := h.delete_first
    exact ⟨o, t, hrun, hplaced o t hrun, hiff.trans (true_imp_iff.symm.trans (by simp))⟩
  · obtain ⟨o, t, hrun, hleast⟩ := hl.delete hone
    exact ⟨o, t, hrun, hplaced o t hrun, iff_of_true hleast fun h => absurd h hone⟩

theorem Placed.run (hp : h.Placed) (hl : h.LeastFirst) (c : Call α δ) (hfresh : h.Fresh c) :
    ∃ reply t, Call.Step h (c, reply) t ∧ t.Placed ∧ (t.LeastFirst ↔ h.Clear c) := by
  cases c with
  | op o =>
    cases o with
    | append ticks data =>
      obtain ⟨r, t, g, hget, hinsert, hplaced, hleast⟩ :=
        hp.enter hl hfresh (h.auto + 1) ⟨ticks, (h.auto + 1 : Nat), data⟩
      refine ⟨.auto (h.auto + 1 : Nat), t, ?_, hplaced, iff_of_true hleast trivial⟩
      simp only [Call.Step, Call.run, Op.run, Heap.append, hget, hinsert]
    | appendBy ticks auto data =>
      obtain ⟨r, t, g, hget, hinsert, hplaced, hleast⟩ :=
        hp.enter hl hfresh h.auto ⟨ticks, auto, data⟩
      refine ⟨.auto auto, t, ?_, hplaced, iff_of_true hleast trivial⟩
      simp only [Call.Step, Call.run, Op.run, Heap.appendBy, hget, hinsert]
    | adjustBy auto ticks =>
      obtain ⟨t, hrun, hplaced, hiff⟩ := hp.adjustBy hl auto ticks
      exact ⟨_, t, by rw [Call.Step, Call.run, Op.run, hrun]; rfl, hplaced, hiff⟩
    | delete pos =>
      obtain ⟨o, t, hrun, hplaced, hiff⟩ := hp.delete hl pos
      exact ⟨_, t, by rw [Call.Step, Call.run, Op.run, hrun]; rfl, hplaced, hiff⟩
    | deleteBy auto =>
      cases hsearch : h.search auto with
      | none =>
        refine ⟨_, h, by rw [Call.Step, Call.run, Op.run, Heap.deleteBy, hsearch]; rfl, hp, ?_⟩
        exact iff_of_true hl fun hone => absurd (hsearch.symm.trans hone) (by simp)
      | some pos =>
        obtain ⟨o, t, hrun, hplaced, hiff⟩ := hp.delete hl pos
        refine ⟨.node (o.map t.mem), t, ?_, hplaced, hiff.trans ?_⟩
        · simp only [Call.Step, Call.run, Op.run, Heap.deleteBy, hsearch, hrun]
          rfl
        · have hone : ((pos : Int) = 1) ↔ some pos = some 1 := by
            rw [Option.some_inj]
            omega
          rw [Clear, hsearch, hone]
    | fetch =>
      obtain ⟨o, t, hrun, hplaced, hiff⟩ := hp.delete hl 1
      exact ⟨_, t, by rw [Call.Step, Call.run, Op.run, Heap.fetch, hrun]; rfl, hplaced,
        hiff.trans (by simp [Clear])⟩
  | node r n =>
    refine ⟨_, _, rfl, ⟨hp.nodup, fun q hq => ?_⟩, iff_of_true ?_ trivial⟩
    · exact (hp.below q hq).trans_le (le_max_left _ _)
    · exact (leastFirst_write n hfresh).mpr hl
  | insert r =>
    obtain ⟨list, hinsert, hperm⟩ := h.insert_spec r
    refine ⟨_, _, rfl, ?_, iff_of_true (hl.insert r) trivial⟩
    rw [hinsert]
    refine ⟨hperm.nodup_iff.mpr (List.nodup_cons.mpr ⟨hfresh.2, hp.nodup⟩), fun q hq => ?_⟩
    rcases List.mem_cons.mp ((hperm.append_right h.store).mem_iff.mp hq) with rfl | hq
    · exact hfresh.1
    · exact hp.below q hq
  | adjustByFirst ticks => exact hp.adjustByFirst ticks
  | clear =>
    have hleast : h.clear.LeastFirst := fun r hr => absurd hr (by simp [reder, Heap.clear])
    refine ⟨_, _, rfl, ?_, iff_of_true hleast trivial⟩
    exact hp.of_subset _ _ List.nodup_nil fun q hq => List.mem_append_right _ hq

/-- The ticks of the nodes that calls of `fetch` returned, in order. -/
def fetched (es : List (Call α δ × Reply α δ)) : List α :=
  es.filterMap fun e => match e with
    | (_, .node (some n)) => some n.ticks
    | _ => none

theorem fetch_step {t : Heap α δ} {reply : Reply α δ}
    (hstep : Call.Step h (.op .fetch, reply) t) :
    reply = .node none ∧ t = h ∨
      ∃ r ∈ h.reder, reply = .node (some (h.mem r)) ∧ h.nodes = h.mem r ::ₘ t.nodes := by
  unfold Call.Step Call.run Op.run Heap.fetch at hstep
  cases hnode : h.node? 1 with
  | none =>
    rw [delete_of_none hnode] at hstep
    obtain ⟨rfl, rfl⟩ := Prod.mk.inj (Option.some.inj hstep)
    exact Or.inl ⟨rfl, rfl⟩
  | some r =>
    obtain ⟨list, hrun, hperm, -⟩ := delete_of_some hnode
    rw [hrun] at hstep
    obtain ⟨rfl, rfl⟩ := Prod.mk.inj (Option.some.inj hstep)
    refine Or.inr ⟨r, ?_, rfl, (nodesOf_perm h.mem hperm).symm⟩
    have hhead := node?_cast h (Nat.le_refl 1)
    rw [← List.head?_eq_getElem?] at hhead
    exact hhead.symm.trans hnode

/-- The steps whose tables are fresh and that are clear. -/
def Ordered (h : Heap α δ) (e : Call α δ × Reply α δ) : Prop := h.Fresh e.1 ∧ h.Clear e.1

theorem Ordered.kept {s t : Heap α δ} {es : List (Call α δ × Reply α δ)} (hp : s.Placed)
    (hl : s.LeastFirst) (hrun : Run (Guarded Ordered Call.Step) s es t) :
    t.Placed ∧ t.LeastFirst := by
  refine hrun.invariant (I := fun h => h.Placed ∧ h.LeastFirst) ⟨hp, hl⟩ ?_
  rintro h ⟨c, reply⟩ t ⟨hp, hl⟩ ⟨⟨hfresh, hclear⟩, hstep⟩
  obtain ⟨reply', t', hstep', hp', hiff⟩ := hp.run hl c hfresh
  obtain ⟨-, rfl⟩ := Prod.mk.inj (Option.some.inj (hstep.symm.trans hstep'))
  exact ⟨hp', hiff.mpr hclear⟩

theorem fetched_sorted {s t : Heap α δ} {es : List (Call α δ × Reply α δ)} (hp : s.Placed)
    (hl : s.LeastFirst) (hrun : Run (Guarded Ordered Call.Step) s es t)
    (hall : ∀ e ∈ es, e.1 = .op .fetch) :
    (fetched es).Pairwise (· ≤ ·) ∧ ∀ ticks ∈ fetched es, ∀ n ∈ t.nodes, ticks ≤ n.ticks := by
  induction hrun with
  | nil => exact ⟨List.Pairwise.nil, fun _ h => absurd h List.not_mem_nil⟩
  | @snoc h u es e hrun hstep ih =>
    obtain ⟨hsorted, hbelow⟩ := ih fun e he => hall e (List.mem_append_left _ he)
    obtain ⟨c, reply⟩ := e
    obtain rfl : c = .op .fetch := hall (c, reply) (by simp)
    have hfetched : fetched (es ++ [(Call.op .fetch, reply)]) =
        fetched es ++ fetched [(Call.op .fetch, reply)] := List.filterMap_append
    rw [hfetched]
    obtain ⟨rfl, rfl⟩ | ⟨r, hr, rfl, hnodes⟩ := fetch_step hstep.2
    · rw [show fetched [((Call.op .fetch : Call α δ), Reply.node none)] = [] from rfl,
        List.append_nil]
      exact ⟨hsorted, hbelow⟩
    · have hone : fetched [((Call.op .fetch : Call α δ), Reply.node (some (h.mem r)))] =
          [h.key r] := rfl
      rw [hone]
      have hleast := (Ordered.kept hp hl hrun).2 r hr
      rw [hnodes] at hbelow hleast
      constructor
      · refine List.pairwise_append.mpr ⟨hsorted, List.pairwise_singleton _ _, ?_⟩
        intro a ha b hb
        rw [List.mem_singleton.mp hb]
        exact hbelow a ha _ (Multiset.mem_cons_self _ _)
      · intro a ha n hn
        rcases List.mem_append.mp ha with ha | ha
        · exact hbelow a ha n (Multiset.mem_cons_of_mem hn)
        · rw [List.mem_singleton.mp ha]
          exact hleast n (Multiset.mem_cons_of_mem hn)

/-- While the steps are ordered, `reder` gives a least node, and none only when there is no node.
The next call returns, and keeps this if and only if it is clear.  A run of `fetch` returns the
nodes in order. -/
theorem least_first {mem : Nat → Node α δ} {es : List (Call α δ × Reply α δ)} {h : Heap α δ}
    (hrun : Run (Guarded Ordered Call.Step) (Heap.new mem) es h) :
    h.LeastFirst ∧ (h.reder = none ↔ h.nodes = 0) ∧
    (∀ c, h.Fresh c → ∃ reply t, Call.Step h (c, reply) t ∧ (t.LeastFirst ↔ h.Clear c)) ∧
    ∀ fs t, Run (Guarded Ordered Call.Step) h fs t → (∀ e ∈ fs, e.1 = .op .fetch) →
      (fetched fs).Pairwise (· ≤ ·) := by
  have hnew : (Heap.new mem).Placed :=
    ⟨List.nodup_nil, fun _ hr => absurd hr List.not_mem_nil⟩
  obtain ⟨hp, hl⟩ := Ordered.kept hnew (fun r hr => absurd hr (by simp [reder, Heap.new])) hrun
  refine ⟨hl, ?_, fun c hfresh => ?_, fun fs t hfs hall => (fetched_sorted hp hl hfs hall).1⟩
  · rw [reder, List.head?_eq_none_iff, ← Multiset.card_eq_zero, card_nodes,
      List.length_eq_zero_iff]
  · obtain ⟨reply, t, hstep, -, hiff⟩ := hp.run hl c hfresh
    exact ⟨reply, t, hstep, hiff⟩

/-- Table `r` has the ticks `r + 1`. -/
def counted (list store : List Nat) (n : Nat) : Heap Nat Unit :=
  ⟨fun r => ⟨r + 1, (r + 1 : Nat), ()⟩, list, store, n, n⟩

theorem counted_append (list : List Nat) (n : Nat)
    (hlist : upward (fun r => r + 1) n (list ++ [n]) (list ++ [n]).length = list ++ [n]) :
    Call.Step (counted list [] n) (.op (.append (n + 1) ()), .auto (n + 1 : Nat))
      (counted (list ++ [n]) [] (n + 1)) := by
  have hwrite : (counted list [] (n + 1)).write n ⟨n + 1, (n + 1 : Nat), ()⟩ =
      counted list [] (n + 1) := by
    rw [write, show Function.update (counted list [] (n + 1)).mem n ⟨n + 1, (n + 1 : Nat), ()⟩ =
      (counted list [] (n + 1)).mem from Function.update_eq_self n _]
  have hrun : (counted list [] n).append (n + 1) () =
      (((n + 1 : Nat) : Int), counted (list ++ [n]) [] (n + 1)) := by
    show (_, ((counted list [] (n + 1)).write n ⟨n + 1, (n + 1 : Nat), ()⟩).insert n) = _
    rw [hwrite, insert]
    show (_, Heap.mk _ (upward (fun r => r + 1) n (list ++ [n]) (list ++ [n]).length) _ _ _) = _
    rw [hlist]
    rfl
  show some _ = some _
  rw [hrun]

theorem counted_fetch {list list' store : List Nat} {n r : Nat}
    (hrun : (counted list store n).delete 1 = some (some r, counted list' (store ++ [r]) n)) :
    Call.Step (counted list store n) (.op .fetch, .node (some ⟨r + 1, (r + 1 : Nat), ()⟩))
      (counted list' (store ++ [r]) n) := by
  show Option.map _ ((counted list store n).delete 1) = _
  rw [hrun]
  rfl

theorem counted_ordered (list : List Nat) (n : Nat)
    (hlist : upward (fun r => r + 1) n (list ++ [n]) (list ++ [n]).length = list ++ [n]) :
    Guarded Ordered Call.Step (counted list [] n) (.op (.append (n + 1) ()), .auto (n + 1 : Nat))
      (counted (list ++ [n]) [] (n + 1)) :=
  .of_step (counted_append list n hlist) ⟨fun _ hr => absurd hr (by simp [counted]), trivial⟩

theorem least_first_fetched : ∃ h : Heap Nat Unit,
    Run (Guarded Ordered Call.Step) (Heap.new fun r => ⟨r + 1, (r + 1 : Nat), ()⟩)
      [(.op (.append 1 ()), .auto 1), (.op (.append 2 ()), .auto 2), (.op (.append 3 ()), .auto 3),
        (.op .fetch, .node (some ⟨1, 1, ()⟩)), (.op .fetch, .node (some ⟨2, 2, ()⟩))] h ∧
    h.LeastFirst ∧ (h.reder = none ↔ h.nodes = 0) := by
  have h1 : (counted [0, 1, 2] [] 3).delete 1 = some (some 0, counted [1, 2] [0] 3) := by
    simp [counted, key, Heap.delete, node?, down, downward, los, defaultCompare, at1, put]
  have h2 : (counted [1, 2] [0] 3).delete 1 = some (some 1, counted [2] [0, 1] 3) := by
    simp [counted, Heap.delete, node?, down, downward, put]
  have hclear1 : (counted [0, 1, 2] [] 3).RemoveFirst := .inr ⟨1, rfl, by decide⟩
  have hclear2 : (counted [1, 2] [0] 3).RemoveFirst := .inl fun r hr => absurd hr List.not_mem_nil
  have hrun := Run.cons (counted_ordered [] 0 (by simp [upward, put])) <|
    .cons (counted_ordered [0] 1 (by simp [upward, uos, defaultCompare, at1, put])) <|
    .cons (counted_ordered [0, 1] 2 (by simp [upward, uos, defaultCompare, at1, put])) <|
    .cons (.of_step (counted_fetch h1) ⟨trivial, hclear1⟩) <|
    .single (.of_step (counted_fetch h2) ⟨trivial, hclear2⟩)
  have h := least_first hrun
  exact ⟨_, hrun, h.1, h.2.1⟩

/-- Of five nodes two are fetched; the node with the ticks 3 is left behind the one with 4. -/
theorem fetch_unordered : ∃ t u : Heap Nat Unit,
    Run Call.Step (Heap.new fun r => ⟨r + 1, (r + 1 : Nat), ()⟩)
      [(.op (.append 1 ()), .auto 1), (.op (.append 2 ()), .auto 2),
        (.op (.append 3 ()), .auto 3), (.op (.append 4 ()), .auto 4),
        (.op (.append 5 ()), .auto 5), (.op .fetch, .node (some ⟨1, 1, ()⟩)),
        (.op .fetch, .node (some ⟨2, 2, ()⟩))] t ∧
    ¬ t.LeastFirst ∧
    Run Call.Step t [(.op .fetch, .node (some ⟨4, 4, ()⟩)),
      (.op .fetch, .node (some ⟨3, 3, ()⟩))] u := by
  have h1 : (counted [0, 1, 2, 3, 4] [] 5).delete 1 =
      some (some 0, counted [1, 3, 2, 4] [0] 5) := by
    simp [counted, key, Heap.delete, node?, down, downward, los, defaultCompare, at1, put]
  have h2 : (counted [1, 3, 2, 4] [0] 5).delete 1 =
      some (some 1, counted [3, 2, 4] [0, 1] 5) := by
    simp [counted, key, Heap.delete, node?, down, downward, los, defaultCompare, at1, put]
  have h3 : (counted [3, 2, 4] [0, 1] 5).delete 1 =
      some (some 3, counted [2, 4] [0, 1, 3] 5) := by
    simp [counted, key, Heap.delete, node?, down, downward, los, defaultCompare, at1, put]
  have h4 : (counted [2, 4] [0, 1, 3] 5).delete 1 =
      some (some 2, counted [4] [0, 1, 3, 2] 5) := by
    simp [counted, Heap.delete, node?, down, downward, put]
  refine ⟨counted [3, 2, 4] [0, 1] 5, counted [4] [0, 1, 3, 2] 5, ?_, ?_, ?_⟩
  · refine .cons (counted_append [] 0 ?_) <| .cons (counted_append [0] 1 ?_) <|
      .cons (counted_append [0, 1] 2 ?_) <| .cons (counted_append [0, 1, 2] 3 ?_) <|
      .cons (counted_append [0, 1, 2, 3] 4 ?_) <|
      .cons (counted_fetch h1) <| .cons (counted_fetch h2) <| .nil _
    all_goals simp [upward, uos, defaultCompare, at1, put]
  · intro hleast
    have h := hleast 3 rfl ⟨3, 3, ()⟩ (by decide)
    exact absurd h (by decide)
  · exact .cons (counted_fetch h3) <| .cons (counted_fetch h4) <| .nil _

end Heap

end XsServer.Custom
