import XsServer.Datacenter.Service
import XsServer.Lib.Run
import Mathlib.Data.List.Perm.Basic

/-! What the datacenter is for: a value for each path, and requests that wait for one.  The service
refines it while no request goes to a path where a table stands, or past a missing table. -/

namespace XsServer.Datacenter

open Lib

variable {α ρ : Type} [DecidableEq α]

/-! ### The abstract datacenter -/

/-- The value of each path, and the requests that wait in the order in which they came. -/
structure Center (α ρ : Type) where
  values : Path α → Option (Scalar α)
  waiting : List (Path α × ρ)

def Center.init : Center α ρ := ⟨fun _ => none, []⟩

def answerOf (v : Option (Scalar α)) : Answer α := .value (v.map .leaf)

/-- `nil` and `false` do not answer a `WAIT` at once. -/
def isTrue (v : Option (Scalar α)) : Bool := truthy (v.map .leaf)

def Center.waitingAt (c : Center α ρ) (p : Path α) : List ρ :=
  (c.waiting.filter (·.1 = p)).map (·.2)

def Center.handle (c : Center α ρ) : Request α ρ → Center α ρ × List (ρ × Answer α)
  | .QUERY key keys r => (c, [(r, answerOf (c.values (key :: keys)))])
  | .UPDATE key keys none r =>
    ({ c with values := Function.update c.values (key :: keys) none },
      [(r, answerOf (c.values (key :: keys)))])
  | .UPDATE key keys (some v) r =>
    (⟨Function.update c.values (key :: keys) (some v), c.waiting.filter (·.1 ≠ key :: keys)⟩,
      (c.waitingAt (key :: keys)).map (·, answerOf (some v)) ++
        [(r, answerOf (c.values (key :: keys)))])
  | .WAIT key keys r =>
    if isTrue (c.values (key :: keys)) then (c, [(r, answerOf (c.values (key :: keys)))])
    else ({ c with waiting := c.waiting ++ [(key :: keys, r)] }, [])

def Center.run (c : Center α ρ) : List (Request α ρ) → Center α ρ × List (List (ρ × Answer α))
  | [] => (c, [])
  | req :: reqs =>
    (((c.handle req).1.run reqs).1, (c.handle req).2 :: ((c.handle req).1.run reqs).2)

theorem Center.run_snoc (c : Center α ρ) (reqs : List (Request α ρ)) (req : Request α ρ) :
    c.run (reqs ++ [req]) =
      (((c.run reqs).1.handle req).1, (c.run reqs).2 ++ [((c.run reqs).1.handle req).2]) := by
  induction reqs generalizing c with
  | nil => rfl
  | cons req' reqs ih => rw [List.cons_append, Center.run, ih]; rfl

theorem Center.handle_perm (c : Center α ρ) (req : Request α ρ) :
    List.Perm ((c.handle req).2.map (·.1) ++ (c.handle req).1.waiting.map (·.2))
      (c.waiting.map (·.2) ++ [req.requester]) := by
  have hone : ∀ (r : ρ) (a : Answer α) (waiting : List (Path α × ρ)),
      List.Perm ([(r, a)].map (·.1) ++ waiting.map (·.2)) (waiting.map (·.2) ++ [r]) :=
    fun r a waiting => (List.perm_append_singleton r _).symm
  cases req with
  | QUERY key keys r => exact hone r _ c.waiting
  | UPDATE key keys value r =>
    cases value with
    | none => exact hone r _ c.waiting
    | some v =>
      have hsplit := (List.filter_append_perm (·.1 = key :: keys) c.waiting).map (·.2)
      rw [List.map_append] at hsplit
      simp only [Center.handle, Center.waitingAt, Request.requester, List.map_append, List.map_map]
      rw [List.append_assoc]
      refine List.Perm.trans ?_ (hsplit.append_right [r])
      rw [List.append_assoc]
      refine List.Perm.append_left _ ?_
      simpa using hone r (.error : Answer α) (c.waiting.filter (·.1 ≠ key :: keys))
  | WAIT key keys r =>
    rw [Center.handle]
    split
    · exact hone r _ c.waiting
    · exact List.Perm.of_eq (by rw [List.map_append]; rfl)

theorem Center.answered_once (reqs : List (Request α ρ)) :
    List.Perm (((Center.init : Center α ρ).run reqs).2.flatten.map (·.1) ++
      ((Center.init : Center α ρ).run reqs).1.waiting.map (·.2)) (reqs.map (·.requester)) := by
  induction reqs using List.reverseRecOn with
  | nil => exact List.Perm.nil
  | append_singleton reqs req ih =>
    rw [Center.run_snoc, List.flatten_append, List.flatten_singleton, List.map_append,
      List.map_append, List.append_assoc]
    refine ((Center.handle_perm _ req).append_left _).trans ?_
    rw [← List.append_assoc]
    exact ih.append_right _

/-! ### The refinement -/

/-- The service holds what the abstract datacenter knows.  The inner tables of the second tree
outlive the requests that waited there; then there is a table in the database too. -/
structure Refines (s : State α ρ) (c : Center α ρ) : Prop where
  values : ∀ p v, s.database.find p = some (.leaf v) ↔ c.values p = some v
  queues : ∀ p, queueOf (s.waitQueue.find p) = c.waitingAt p
  nonempty : ∀ p, s.waitQueue.find p ≠ some (.leaf [])
  branches : ∀ p, KeyTree.IsNode (s.waitQueue.find p) → KeyTree.IsNode (s.database.find p) ∨
    ∃ q, c.waitingAt q ≠ [] ∧ p <+: q ∧ p ≠ q
  quiet : ∀ p, isTrue (c.values p) → c.waitingAt p = []

def State.Used (s : State α ρ) (p : Path α) : Prop :=
  (∃ v, s.database.find p = some (.leaf v)) ∨ ∃ q, s.waitQueue.find p = some (.leaf q)

/-- The request leaves a value at its path, or waits there. -/
def Request.Keeps : Request α ρ → Prop
  | .QUERY _ _ _ => False
  | .UPDATE _ _ value _ => value ≠ none
  | .WAIT _ _ _ => True

/-- No path in use is a proper prefix of another one. -/
def PrefixFree (s : State α ρ) (req : Request α ρ) : Prop :=
  (∀ q, s.Used q → q <+: req.path → q = req.path) ∧
    (req.Keeps → ∀ q, s.Used q → req.path <+: q → q = req.path)

/-- Where the functions go wrong: `query` at a table that is missing after the first key, and for a
first key whose value is `false`; and an `UPDATE` with a value, where `false` was the value. -/
def Readable (s : State α ρ) : Request α ρ → Prop
  | .UPDATE key keys value _ => value ≠ none →
      s.database.find (key :: keys) ≠ some (.leaf (.boolean false))
  | .QUERY key keys _ => s.database.find [key] ≠ some (.leaf (.boolean false)) ∧
      (KeyTree.IsNode (s.database.find [key]) → ∀ q, q ≠ [] → q <+: key :: keys → q ≠ key :: keys →
        KeyTree.IsNode (s.database.find q))
  | .WAIT key keys _ => KeyTree.IsNode (s.database.find [key]) → ∀ q, q ≠ [] → q <+: key :: keys →
      q ≠ key :: keys → KeyTree.IsNode (s.database.find q)

def Fits (s : State α ρ) (req : Request α ρ) : Prop :=
  PrefixFree s req ∧ ¬ KeyTree.IsNode (s.database.find req.path) ∧ Readable s req

def Step (s : State α ρ) (l : Request α ρ × List (ρ × Answer α)) (t : State α ρ) : Prop :=
  s.handle l.1 = (t, l.2)

variable {s : State α ρ} {c : Center α ρ}

theorem refines_init : Refines (State.init : State α ρ) Center.init where
  values := by
    intro p v
    by_cases hp : p = []
    · subst hp
      exact ⟨fun h => (by cases h), fun h => (by cases h)⟩
    · change Table.find (fun _ => none) p = _ ↔ _
      rw [Table.find_empty hp]
      exact ⟨fun h => (by cases h), fun h => (by cases h)⟩
  queues := by
    intro p
    by_cases hp : p = []
    · subst hp
      rfl
    · change queueOf (Table.find (fun _ => none) p) = _
      rw [Table.find_empty hp]
      rfl
  nonempty := by
    intro p h
    by_cases hp : p = []
    · subst hp
      cases h
    · change Table.find (fun _ => none) p = _ at h
      rw [Table.find_empty hp] at h
      cases h
  branches := by
    rintro p ⟨get, h⟩
    by_cases hp : p = []
    · exact .inl (by rw [hp]; exact ⟨_, rfl⟩)
    · change Table.find (fun _ => none) p = _ at h
      rw [Table.find_empty hp] at h
      cases h
  quiet := fun _ _ => rfl

omit [DecidableEq α] in
theorem PrefixFree.database {req : Request α ρ} (h : PrefixFree s req) :
    s.database.Clear req.path :=
  fun q _ hpre hne a ha => hne (h.1 q (.inl ⟨a, ha⟩) hpre)

omit [DecidableEq α] in
theorem PrefixFree.waitQueue {req : Request α ρ} (h : PrefixFree s req) :
    s.waitQueue.Clear req.path :=
  fun q _ hpre hne a ha => hne (h.1 q (.inr ⟨a, ha⟩) hpre)

theorem Refines.find_eq (h : Refines s c) {p : Path α} (hp : ¬ KeyTree.IsNode (s.database.find p)) :
    s.database.find p = (c.values p).map .leaf := by
  cases hfind : s.database.find p with
  | none =>
    cases hv : c.values p with
    | none => rfl
    | some v =>
      rw [(h.values p v).mpr hv] at hfind
      cases hfind
  | some t =>
    cases t with
    | leaf v => rw [(h.values p v).mp hfind]; rfl
    | node get => exact absurd ⟨get, hfind⟩ hp

omit [DecidableEq α] in
theorem QUERY_eq {db : Database α} {key : Scalar α} {keys : Path α}
    (hclear : db.Clear (key :: keys))
    (hread : KeyTree.IsNode (db.find [key]) → ∀ q, q ≠ [] → q <+: key :: keys → q ≠ key :: keys →
      KeyTree.IsNode (db.find q)) :
    QUERY db key keys = some (if truthy (db key) then db.find (key :: keys) else none) ∧
      (truthy (db key) = false → db.find (key :: keys) = none ∨
        db.find (key :: keys) = some (.leaf (.boolean false)) ∧
          db.find [key] = some (.leaf (.boolean false))) := by
  rw [QUERY, Table.find_cons, Table.find_singleton]
  rw [Table.find_singleton] at hread
  cases hkey : db key with
  | none => exact ⟨rfl, fun _ => .inl (KeyTree.sub_none _)⟩
  | some t =>
    cases t with
    | leaf a =>
      cases keys with
      | nil =>
        cases a with
        | boolean b =>
          cases b with
          | false => exact ⟨rfl, fun _ => .inr ⟨rfl, rfl⟩⟩
          | true => exact ⟨rfl, fun h => by cases h⟩
        | other a => exact ⟨rfl, fun h => by cases h⟩
      | cons key' keys => exact absurd hkey (hclear.head a)
    | node get =>
      refine ⟨?_, fun h => by cases h⟩
      have htrue : truthy (some (KeyTree.node get) : Option (Node α)) = true := rfl
      rw [if_pos htrue, if_pos htrue]
      apply query_eq
      intro q hq hne
      have := hread ⟨get, hkey⟩ (key :: q) (List.cons_ne_nil _ _)
        (List.cons_prefix_cons.mpr ⟨rfl, hq⟩) fun heq => hne (List.cons.inj heq).2
      rwa [Table.find_cons, hkey] at this

omit [DecidableEq α] in
theorem queueOf_congr {x y : Option (KeyTree (Scalar α) (List ρ))}
    (h : ∀ q, x = some (.leaf q) ↔ y = some (.leaf q)) : queueOf x = queueOf y := by
  have hleaf : ∀ {z w : Option (KeyTree (Scalar α) (List ρ))},
      (∀ q, z = some (.leaf q) ↔ w = some (.leaf q)) → ∀ q, z = some (.leaf q) →
        queueOf z = queueOf w :=
    fun hzw q hz => by rw [hz, (hzw q).mp hz]
  cases x with
  | none =>
    cases y with
    | none => rfl
    | some t =>
      cases t with
      | leaf q => exact (hleaf (fun q => (h q).symm) q rfl).symm
      | node get => rfl
  | some t =>
    cases t with
    | leaf q => exact hleaf h q rfl
    | node get =>
      cases y with
      | none => rfl
      | some t =>
        cases t with
        | leaf q => exact (hleaf (fun q => (h q).symm) q rfl).symm
        | node get' => rfl

theorem queueOf_put {db : WaitQueue α ρ} {p q : Path α} {t : Option (KeyTree (Scalar α) (List ρ))}
    (hp : p ≠ []) (hclear : db.Clear p) (hf : ¬ KeyTree.IsNode (db.find p))
    (ht : ¬ KeyTree.IsNode t) :
    queueOf ((db.put p t).find q) = if q = p then queueOf t else queueOf (db.find q) := by
  by_cases hq : q = p
  · subst hq
    rw [Table.find_put_self hp, if_pos rfl]
  · rw [if_neg hq]
    apply queueOf_congr
    intro l
    rw [Table.find_put_leaf hp hclear hf ht, if_neg hq]

theorem Refines.values_put (h : Refines s c) {p : Path α} (hp : p ≠ [])
    (hclear : s.database.Clear p) (hf : ¬ KeyTree.IsNode (s.database.find p))
    (value : Option (Scalar α)) (q : Path α) (v : Scalar α) :
    (s.database.put p (value.map .leaf)).find q = some (.leaf v) ↔
      Function.update c.values p value q = some v := by
  have ht : ¬ KeyTree.IsNode (value.map .leaf : Option (Node α)) := by
    rintro ⟨get, hget⟩
    cases value <;> cases hget
  rw [Table.find_put_leaf hp hclear hf ht]
  by_cases hq : q = p
  · subst hq
    rw [if_pos rfl, Function.update_self]
    cases value with
    | none => exact ⟨fun h => (by cases h), fun h => (by cases h)⟩
    | some v' => exact ⟨fun h => (by cases h; rfl), fun h => (by cases h; rfl)⟩
  · rw [if_neg hq, Function.update_of_ne hq]
    exact h.values q v

theorem Center.waitingAt_filter (c : Center α ρ) (values : Path α → Option (Scalar α))
    (p q : Path α) :
    Center.waitingAt ⟨values, c.waiting.filter (·.1 ≠ p)⟩ q =
    if q = p then [] else c.waitingAt q := by
  rw [Center.waitingAt, Center.waitingAt]
  dsimp only
  rw [List.filter_filter]
  by_cases hq : q = p
  · subst hq
    rw [if_pos rfl, List.filter_eq_nil_iff.mpr fun x _ => by simp]
    rfl
  · rw [if_neg hq]
    congr 1
    apply List.filter_congr
    intro x _
    by_cases hx : x.1 = q
    · simp [hx, hq]
    · simp [hx]

theorem Refines.used (h : Refines s c) {q : Path α} (hq : c.waitingAt q ≠ []) : s.Used q := by
  rw [← h.queues q] at hq
  cases hfind : s.waitQueue.find q with
  | none => rw [hfind] at hq; exact absurd rfl hq
  | some t =>
    cases t with
    | leaf l => exact .inr ⟨l, hfind⟩
    | node get => rw [hfind] at hq; exact absurd rfl hq

theorem Refines.no_branch (h : Refines s c) {req : Request α ρ} (hfree : PrefixFree s req)
    (hkeeps : req.Keeps) (hnode : ¬ KeyTree.IsNode (s.database.find req.path)) :
    ¬ KeyTree.IsNode (s.waitQueue.find req.path) := by
  intro hbranch
  rcases h.branches _ hbranch with hdb | ⟨q, hq, hpre, hne⟩
  · exact hnode hdb
  · exact hne (hfree.2 hkeeps q (h.used hq) hpre).symm

theorem Refines.query (h : Refines s c) {key : Scalar α} {keys : Path α} {r : ρ}
    (hfits : Fits s (.QUERY key keys r)) :
    s.handle (.QUERY key keys r) = (s, [(r, answerOf (c.values (key :: keys)))]) := by
  obtain ⟨hfree, hnode, hfalse, hread⟩ := hfits
  obtain ⟨hquery, huntrue⟩ := QUERY_eq hfree.database hread
  have hfind : s.database.find (key :: keys) = (c.values (key :: keys)).map .leaf := h.find_eq hnode
  have hret : QUERY s.database key keys = some ((c.values (key :: keys)).map .leaf) := by
    rw [hquery, ← hfind]
    cases htrue : truthy (s.database key) with
    | true => rfl
    | false =>
      rcases huntrue htrue with hnone | ⟨_, hone⟩
      · rw [hnone]; rfl
      · exact absurd hone hfalse
  simp only [State.handle, hret, answerOf]

theorem Refines.update_nil (h : Refines s c) {key : Scalar α} {keys : Path α} {r : ρ}
    (hfits : Fits s (.UPDATE key keys none r)) :
    Refines (s.handle (.UPDATE key keys none r)).1 (c.handle (.UPDATE key keys none r)).1 ∧
      (s.handle (.UPDATE key keys none r)).2 = (c.handle (.UPDATE key keys none r)).2 := by
  obtain ⟨hfree, hnode, _⟩ := hfits
  have hp : key :: keys ≠ [] := List.cons_ne_nil _ _
  have hclear : s.database.Clear (key :: keys) := hfree.database
  change ¬ KeyTree.IsNode (s.database.find (key :: keys)) at hnode
  have hhandle : s.handle (.UPDATE key keys none r) =
      (⟨s.database.put (key :: keys) none, s.waitQueue⟩,
        [(r, answerOf (c.values (key :: keys)))]) := by
    simp only [State.handle, update_eq hclear, h.find_eq hnode, answerOf]
    rfl
  have hnone : ¬ KeyTree.IsNode (none : Option (Node α)) := by
    rintro ⟨get, hget⟩
    cases hget
  rw [hhandle]
  refine ⟨⟨fun q v => h.values_put hp hclear hnode none q v, h.queues, h.nonempty, ?_, ?_⟩, rfl⟩
  · intro q hq
    rcases h.branches q hq with hdb | hwait
    · exact .inl ((Table.isNode_put hp hclear hnode hnone).mpr (.inl hdb))
    · exact .inr hwait
  · intro q hq
    by_cases heq : q = key :: keys
    · subst heq
      have hself : isTrue (Function.update c.values (key :: keys) none (key :: keys)) = true := hq
      rw [Function.update_self] at hself
      cases hself
    · have hother : isTrue (Function.update c.values (key :: keys) none q) = true := hq
      rw [Function.update_of_ne heq] at hother
      exact h.quiet q hother

/-- What an `UPDATE` with a value does: the queue of the path, if there is one, is taken out of the
second tree and answered. -/
theorem Refines.wakes (h : Refines s c) {key v : Scalar α} {keys : Path α} {r : ρ}
    (hfits : Fits s (.UPDATE key keys (some v) r)) :
    ∃ waitQueue, s.handle (.UPDATE key keys (some v) r) =
        (⟨s.database.put (key :: keys) (some (.leaf v)), waitQueue⟩,
          (c.waitingAt (key :: keys)).map (·, answerOf (some v)) ++
            [(r, answerOf (c.values (key :: keys)))]) ∧
      (∀ q, queueOf (waitQueue.find q) =
        if q = key :: keys then [] else queueOf (s.waitQueue.find q)) ∧
      (∀ q, waitQueue.find q ≠ some (.leaf [])) ∧
      (∀ q, KeyTree.IsNode (waitQueue.find q) →
        KeyTree.IsNode (s.waitQueue.find q) ∨ (q <+: key :: keys ∧ q ≠ key :: keys)) := by
  obtain ⟨hfree, hnode, hread⟩ := hfits
  have hp : key :: keys ≠ [] := List.cons_ne_nil _ _
  have hclear : s.database.Clear (key :: keys) := hfree.database
  have hqueueClear : s.waitQueue.Clear (key :: keys) := hfree.waitQueue
  have hbranch : ¬ KeyTree.IsNode (s.waitQueue.find (key :: keys)) :=
    h.no_branch hfree (Option.some_ne_none v) hnode
  have hfind : s.database.find (key :: keys) = (c.values (key :: keys)).map .leaf := h.find_eq hnode
  -- where nobody waits, the second tree stays
  have hsame : c.waitingAt (key :: keys) = [] → ∀ q, queueOf (s.waitQueue.find q) =
      if q = key :: keys then [] else queueOf (s.waitQueue.find q) := by
    intro hnil q
    by_cases hq : q = key :: keys
    · rw [if_pos hq, hq, h.queues, hnil]
    · rw [if_neg hq]
  simp only [State.handle, update_eq hclear, hfind]
  cases htrue : truthy ((c.values (key :: keys)).map .leaf : Option (Node α)) with
  | true =>
    have hnil := h.quiet _ htrue
    exact ⟨s.waitQueue, by rw [hnil]; rfl, hsame hnil, h.nonempty, fun q hq => .inl hq⟩
  | false =>
    have hprevious : c.values (key :: keys) = none := by
      have hfalse := hread (Option.some_ne_none v)
      rw [hfind] at hfalse
      rcases hv : c.values (key :: keys) with _ | (b | a)
      · rfl
      · rw [hv] at htrue hfalse
        cases b with
        | false => exact absurd rfl hfalse
        | true => cases htrue
      · rw [hv] at htrue
        cases htrue
    rw [hprevious]
    cases hqueue : s.waitQueue.find (key :: keys) with
    | none =>
      have hnil : c.waitingAt (key :: keys) = [] := by rw [← h.queues, hqueue]; rfl
      rw [wakeup_none hp hqueue hqueueClear]
      exact ⟨s.waitQueue, by rw [hnil]; rfl, hsame hnil, h.nonempty, fun q hq => .inl hq⟩
    | some t =>
      cases t with
      | node get => exact absurd ⟨get, hqueue⟩ hbranch
      | leaf l =>
        have hl : c.waitingAt (key :: keys) = l := by rw [← h.queues, hqueue]; rfl
        have hnone : ¬ KeyTree.IsNode (none : Option (KeyTree (Scalar α) (List ρ))) := by
          rintro ⟨get, hget⟩
          cases hget
        rw [wakeup_leaf hqueue]
        refine ⟨s.waitQueue.put (key :: keys) none, by rw [hl]; rfl, fun q => ?_, fun q hq => ?_,
          fun q hq => (Table.isNode_put hp hqueueClear hbranch hnone).mp hq⟩
        · exact queueOf_put hp hqueueClear hbranch hnone
        · rw [Table.find_put_leaf hp hqueueClear hbranch hnone] at hq
          split at hq
          · cases hq
          · exact h.nonempty q hq

theorem Refines.update_some (h : Refines s c) {key v : Scalar α} {keys : Path α} {r : ρ}
    (hfits : Fits s (.UPDATE key keys (some v) r)) :
    Refines (s.handle (.UPDATE key keys (some v) r)).1 (c.handle (.UPDATE key keys (some v) r)).1 ∧
      (s.handle (.UPDATE key keys (some v) r)).2 = (c.handle (.UPDATE key keys (some v) r)).2 := by
  obtain ⟨waitQueue, hhandle, hqueues, hnonempty, hbranches⟩ := h.wakes hfits
  obtain ⟨hfree, hnode, _⟩ := hfits
  have hp : key :: keys ≠ [] := List.cons_ne_nil _ _
  have hclear : s.database.Clear (key :: keys) := hfree.database
  change ¬ KeyTree.IsNode (s.database.find (key :: keys)) at hnode
  have hleaf : ¬ KeyTree.IsNode (some (.leaf v) : Option (Node α)) := by
    rintro ⟨get, hget⟩
    cases hget
  rw [hhandle]
  refine ⟨⟨fun q a => h.values_put hp hclear hnode (some v) q a, fun q => ?_, hnonempty,
    fun q hq => ?_, fun q hq => ?_⟩, rfl⟩
  · rw [hqueues, h.queues]
    exact (c.waitingAt_filter _ _ _).symm
  · have habove : q <+: key :: keys ∧ q ≠ key :: keys →
        KeyTree.IsNode ((s.database.put (key :: keys) (some (.leaf v))).find q) :=
      fun habove => Table.find_put_above habove.1 habove.2
    rcases hbranches q hq with hq | hq
    · rcases h.branches q hq with hdb | ⟨q', hwait, hpre, hne⟩
      · exact .inl ((Table.isNode_put hp hclear hnode hleaf).mpr (.inl hdb))
      · by_cases hq' : q' = key :: keys
        · exact .inl (habove ⟨hq' ▸ hpre, hq' ▸ hne⟩)
        · refine .inr ⟨q', ?_, hpre, hne⟩
          rw [Center.handle, c.waitingAt_filter, if_neg hq']
          exact hwait
    · exact .inl (habove hq)
  · rw [Center.handle, c.waitingAt_filter]
    by_cases heq : q = key :: keys
    · rw [if_pos heq]
    · rw [if_neg heq]
      have hother : isTrue (Function.update c.values (key :: keys) (some v) q) = true := hq
      rw [Function.update_of_ne heq] at hother
      exact h.quiet q hother

theorem Center.waitingAt_append (c : Center α ρ) (p q : Path α) (r : ρ) :
    Center.waitingAt ⟨c.values, c.waiting ++ [(p, r)]⟩ q =
      if q = p then c.waitingAt q ++ [r] else c.waitingAt q := by
  rw [Center.waitingAt, Center.waitingAt]
  dsimp only
  rw [List.filter_append, List.map_append]
  by_cases hq : q = p
  · subst hq
    rw [if_pos rfl]
    congr 1
    simp
  · rw [if_neg hq]
    have hp : p ≠ q := fun heq => hq heq.symm
    simp [hp]

theorem Refines.joins (h : Refines s c) {key : Scalar α} {keys : Path α} {r : ρ}
    (hfits : Fits s (.WAIT key keys r)) (huntrue : isTrue (c.values (key :: keys)) = false) :
    Refines ⟨s.database, s.waitQueue.put (key :: keys)
        (some (.leaf (queueOf (s.waitQueue.find (key :: keys)) ++ [r])))⟩
      ⟨c.values, c.waiting ++ [(key :: keys, r)]⟩ := by
  obtain ⟨hfree, hnode, _⟩ := hfits
  have hp : key :: keys ≠ [] := List.cons_ne_nil _ _
  have hclear : s.waitQueue.Clear (key :: keys) := hfree.waitQueue
  have hbranch : ¬ KeyTree.IsNode (s.waitQueue.find (key :: keys)) :=
    h.no_branch hfree trivial hnode
  have hleaf : ∀ l : List ρ,
      ¬ KeyTree.IsNode (some (.leaf l) : Option (KeyTree (Scalar α) (List ρ))) := by
    rintro l ⟨get, hget⟩
    cases hget
  refine ⟨h.values, fun q => ?_, fun q hq => ?_, fun q hq => ?_, fun q hq => ?_⟩
  · rw [queueOf_put hp hclear hbranch (hleaf _), c.waitingAt_append]
    by_cases heq : q = key :: keys
    · rw [if_pos heq, if_pos heq, heq, h.queues]
      rfl
    · rw [if_neg heq, if_neg heq]
      exact h.queues q
  · rw [Table.find_put_leaf hp hclear hbranch (hleaf _)] at hq
    split at hq
    · have := Option.some.inj hq
      simp at this
    · exact h.nonempty q hq
  · rcases (Table.isNode_put hp hclear hbranch (hleaf _)).mp hq with hq | ⟨hpre, hne⟩
    · rcases h.branches q hq with hdb | ⟨q', hwait, hpre, hne⟩
      · exact .inl hdb
      · refine .inr ⟨q', ?_, hpre, hne⟩
        rw [c.waitingAt_append]
        split
        · simp
        · exact hwait
    · refine .inr ⟨key :: keys, ?_, hpre, hne⟩
      rw [c.waitingAt_append, if_pos rfl]
      simp
  · rw [c.waitingAt_append]
    have hne : q ≠ key :: keys := by
      rintro rfl
      have htrue : isTrue (c.values (key :: keys)) = true := hq
      rw [huntrue] at htrue
      cases htrue
    rw [if_neg hne]
    exact h.quiet q hq

theorem Refines.wait (h : Refines s c) {key : Scalar α} {keys : Path α} {r : ρ}
    (hfits : Fits s (.WAIT key keys r)) :
    Refines (s.handle (.WAIT key keys r)).1 (c.handle (.WAIT key keys r)).1 ∧
      (s.handle (.WAIT key keys r)).2 = (c.handle (.WAIT key keys r)).2 := by
  have hjoins := h.joins hfits
  obtain ⟨hfree, hnode, hread⟩ := hfits
  obtain ⟨hquery, huntrue⟩ := QUERY_eq hfree.database hread
  have hclear : s.waitQueue.Clear (key :: keys) := hfree.waitQueue
  have hbranch : ¬ KeyTree.IsNode (s.waitQueue.find (key :: keys)) :=
    h.no_branch hfree trivial hnode
  have hfind : s.database.find (key :: keys) = (c.values (key :: keys)).map .leaf := h.find_eq hnode
  have hwaits : isTrue (c.values (key :: keys)) = false →
      ∀ ret, QUERY s.database key keys = some ret → truthy ret = false →
      Refines (s.handle (.WAIT key keys r)).1 (c.handle (.WAIT key keys r)).1 ∧
        (s.handle (.WAIT key keys r)).2 = (c.handle (.WAIT key keys r)).2 := by
    intro hfalse ret hret hretFalse
    have hhandle : s.handle (.WAIT key keys r) = (⟨s.database, s.waitQueue.put (key :: keys)
        (some (.leaf (queueOf (s.waitQueue.find (key :: keys)) ++ [r])))⟩, []) := by
      simp only [State.handle, hret, hretFalse, waitfor_eq hclear hbranch, Bool.false_eq_true,
        ↓reduceIte]
    have hcenter : c.handle (.WAIT key keys r) =
        (⟨c.values, c.waiting ++ [(key :: keys, r)]⟩, []) := by
      rw [Center.handle, if_neg (by rw [hfalse]; exact Bool.false_ne_true)]
    rw [hhandle, hcenter]
    exact ⟨hjoins hfalse, rfl⟩
  cases htrue : truthy (s.database key) with
  | false =>
    rw [htrue, if_neg Bool.false_ne_true] at hquery
    refine hwaits ?_ none hquery rfl
    rcases huntrue htrue with hnone | ⟨hfalse, _⟩
    · rw [isTrue, ← hfind, hnone]
      rfl
    · rw [isTrue, ← hfind, hfalse]
      rfl
  | true =>
    rw [htrue, if_pos rfl, hfind] at hquery
    cases hvalue : isTrue (c.values (key :: keys)) with
    | false => exact hwaits hvalue _ hquery hvalue
    | true =>
      have hhandle : s.handle (.WAIT key keys r) =
          (s, [(r, answerOf (c.values (key :: keys)))]) := by
        simp only [State.handle, hquery]
        exact if_pos hvalue
      have hcenter : c.handle (.WAIT key keys r) =
          (c, [(r, answerOf (c.values (key :: keys)))]) := by
        rw [Center.handle, if_pos hvalue]
      rw [hhandle, hcenter]
      exact ⟨h, rfl⟩

theorem Refines.step (h : Refines s c) {req : Request α ρ} (hfits : Fits s req) :
    Refines (s.handle req).1 (c.handle req).1 ∧ (s.handle req).2 = (c.handle req).2 := by
  cases req with
  | QUERY key keys r =>
    rw [h.query hfits]
    exact ⟨h, rfl⟩
  | UPDATE key keys value r =>
    cases value with
    | none => exact h.update_nil hfits
    | some v => exact h.update_some hfits
  | WAIT key keys r => exact h.wait hfits

/-! ### Runs -/

theorem run_refines {ls : List (Request α ρ × List (ρ × Answer α))}
    (h : Run (Guarded (fun s l => Fits s l.1) Step) State.init ls s) :
    Refines s ((Center.init : Center α ρ).run (ls.map (·.1))).1 ∧
      ls.map (·.2) = ((Center.init : Center α ρ).run (ls.map (·.1))).2 := by
  induction h with
  | nil => exact ⟨refines_init, rfl⟩
  | @snoc t u ls l _ hstep ih =>
    obtain ⟨hfits, hstep⟩ := hstep
    obtain ⟨hrefines, hanswers⟩ := ih
    obtain ⟨hrefines', hanswers'⟩ := hrefines.step hfits
    have hhandle : t.handle l.1 = (u, l.2) := hstep
    rw [hhandle] at hrefines' hanswers'
    rw [List.map_append, List.map_append, List.map_singleton, List.map_singleton, Center.run_snoc,
      hanswers, ← hanswers']
    exact ⟨hrefines', rfl⟩

theorem Center.handle_ne_error {req : Request α ρ} {a : ρ × Answer α} (ha : a ∈ (c.handle req).2) :
    a.2 ≠ .error := by
  have hone : ∀ {r : ρ} {v : Option (Scalar α)}, a ∈ [(r, answerOf v)] → a.2 ≠ .error := by
    intro r v h
    rw [List.mem_singleton.mp h]
    intro herror
    cases herror
  cases req with
  | QUERY key keys r => exact hone ha
  | UPDATE key keys value r =>
    cases value with
    | none => exact hone ha
    | some v =>
      rcases List.mem_append.mp ha with ha | ha
      · obtain ⟨r', _, rfl⟩ := List.mem_map.mp ha
        intro herror
        cases herror
      · exact hone ha
  | WAIT key keys r =>
    rw [Center.handle] at ha
    split at ha
    · exact hone ha
    · exact absurd ha List.not_mem_nil

theorem Center.run_ne_error (c : Center α ρ) (reqs : List (Request α ρ)) :
    ∀ out ∈ (c.run reqs).2, ∀ a ∈ out, a.2 ≠ .error := by
  induction reqs generalizing c with
  | nil => exact fun out hout => absurd hout List.not_mem_nil
  | cons req reqs ih =>
    intro out hout a ha
    rcases List.mem_cons.mp hout with rfl | hout
    · exact Center.handle_ne_error ha
    · exact ih _ out hout a ha

/-- While every request fits, the service answers as the abstract datacenter does: each request
once, or not yet when it waits, and none with an error. -/
theorem datacenter_answers {ls : List (Request α ρ × List (ρ × Answer α))}
    (h : Run (Guarded (fun s l => Fits s l.1) Step) State.init ls s) :
    ls.map (·.2) = ((Center.init : Center α ρ).run (ls.map (·.1))).2 ∧
      List.Perm ((ls.flatMap (·.2)).map (·.1) ++
        ((Center.init : Center α ρ).run (ls.map (·.1))).1.waiting.map (·.2))
        (ls.map (·.1.requester)) ∧
      ∀ l ∈ ls, ∀ a ∈ l.2, a.2 ≠ .error := by
  obtain ⟨_, hanswers⟩ := run_refines h
  refine ⟨hanswers, ?_, fun l hl a ha => ?_⟩
  · have honce := Center.answered_once (ls.map (·.1))
    rw [← hanswers, List.map_map] at honce
    rw [List.flatMap_def]
    exact honce
  · apply Center.run_ne_error Center.init (ls.map (·.1)) l.2 _ a ha
    rw [← hanswers]
    exact List.mem_map_of_mem hl

def key (n : Nat) : Scalar Nat := .other n

/-- A request waits for a value, and another one sets it. -/
def awaited : List (Request Nat Nat × List (Nat × Answer Nat)) :=
  [(.WAIT (key 0) [key 1] 1, []),
    (.UPDATE (key 0) [key 1] (some (key 7)) 2,
      [(1, .value (some (.leaf (key 7)))), (2, .value none)])]

theorem step_handle (s : State Nat Nat) (req : Request Nat Nat) :
    Step s (req, (s.handle req).2) (s.handle req).1 := rfl

theorem unused_init {q : Path Nat} : ¬ (State.init : State Nat Nat).Used q := by
  by_cases hq : q = []
  · subst hq
    rintro (⟨v, h⟩ | ⟨l, h⟩) <;> cases h
  · rintro (⟨v, h⟩ | ⟨l, h⟩) <;> cases (Table.find_empty hq).symm.trans h

theorem init_fits {req : Request Nat Nat} (hread : Readable State.init req) :
    Fits State.init req := by
  refine ⟨⟨fun q hq => absurd hq unused_init, fun _ q hq => absurd hq unused_init⟩, ?_, hread⟩
  rintro ⟨get, hget⟩
  have hpath : req.path ≠ [] := by cases req <;> exact List.cons_ne_nil _ _
  cases (Table.find_empty hpath).symm.trans hget

theorem datacenter_answers_awaited :
    List.Perm ([1, 2] ++
      ((Center.init : Center Nat Nat).run (awaited.map (·.1))).1.waiting.map (·.2)) [1, 2] := by
  have hused : ∀ q, (State.init.handle (.WAIT (key 0) [key 1] 1)).1.Used q →
      q = [key 0, key 1] := by
    rintro q (⟨v, h⟩ | ⟨l, h⟩)
    · exact absurd (.inl ⟨v, h⟩) (unused_init (q := q))
    · exact Table.find_put_empty (List.cons_ne_nil _ _) h
  have hwait : Fits State.init (.WAIT (key 0) [key 1] 1) :=
    init_fits fun hnode => by obtain ⟨get, hget⟩ := hnode; cases hget
  have hupdate : Fits (State.init.handle (.WAIT (key 0) [key 1] 1)).1
      (.UPDATE (key 0) [key 1] (some (key 7)) 2) := by
    refine ⟨⟨fun q hq _ => hused q hq, fun _ q hq _ => hused q hq⟩, ?_, fun _ h => nomatch h⟩
    rintro ⟨get, hget⟩
    cases hget
  have hrun : Run (Guarded (fun s l => Fits s l.1) Step) State.init awaited
      ((State.init.handle (.WAIT (key 0) [key 1] 1)).1.handle
        (.UPDATE (key 0) [key 1] (some (key 7)) 2)).1 :=
    .snoc (.single (.of_step (step_handle _ _) hwait)) (.of_step (step_handle _ _) hupdate)
  exact (datacenter_answers hrun).2.1

/-- A table stands at the first key of a path, and none at the second. -/
def missing : List (Request Nat Nat × List (Nat × Answer Nat)) :=
  [(.UPDATE (key 0) [key 1] (some (key 7)) 1, [(1, .value none)]),
    (.QUERY (key 0) [key 2, key 3] 2, [(2, .error)])]

theorem datacenter_fails :
    ¬ ∀ (ls : List (Request Nat Nat × List (Nat × Answer Nat))) (s : State Nat Nat),
      Run (Guarded (fun s l => PrefixFree s l.1) Step) State.init ls s →
        ls.map (·.2) = ((Center.init : Center Nat Nat).run (ls.map (·.1))).2 := by
  intro hall
  have hused : ∀ q, (State.init.handle (.UPDATE (key 0) [key 1] (some (key 7)) 1)).1.Used q →
      q = [key 0, key 1] := by
    rintro q (⟨v, h⟩ | ⟨l, h⟩)
    · exact Table.find_put_empty (List.cons_ne_nil _ _) h
    · exact absurd (.inr ⟨l, h⟩) (unused_init (q := q))
  have hupdate : Fits State.init (.UPDATE (key 0) [key 1] (some (key 7)) 1) :=
    init_fits fun _ h => nomatch h
  have hquery : PrefixFree (State.init.handle (.UPDATE (key 0) [key 1] (some (key 7)) 1)).1
      (.QUERY (key 0) [key 2, key 3] 2) := by
    refine ⟨fun q hq hpre => ?_, fun hkeeps => hkeeps.elim⟩
    rw [hused q hq] at hpre
    exact absurd hpre (by decide)
  have hrun : Run (Guarded (fun s l => PrefixFree s l.1) Step) State.init missing
      ((State.init.handle (.UPDATE (key 0) [key 1] (some (key 7)) 1)).1.handle
        (.QUERY (key 0) [key 2, key 3] 2)).1 :=
    .snoc (.single (.of_step (step_handle _ _) hupdate.1)) (.of_step (step_handle _ _) hquery)
  have heq := hall missing _ hrun
  cases heq

end XsServer.Datacenter
