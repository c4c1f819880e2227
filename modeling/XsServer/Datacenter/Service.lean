import XsServer.Lib.Tree

/-! `datacenterd.lua`: values in nested tables, and the responses that wait for a value in a second
tree of tables. -/

namespace XsServer.Datacenter

open Lib

/-- A key or a value: `false` and `true`, and what is neither a boolean nor a table. -/
inductive Scalar (α : Type)
  | boolean (b : Bool)
  | other (a : α)
  deriving DecidableEq

variable {α ρ : Type} [DecidableEq α]

abbrev Path (α : Type) := List (Scalar α)

abbrev Node (α : Type) := KeyTree (Scalar α) (Scalar α)

abbrev Database (α : Type) := Table (Scalar α) (Scalar α)

/-- The leaves are the tables with the mode `"queue"`, the others have the mode `"branch"`. -/
abbrev WaitQueue (α ρ : Type) := Table (Scalar α) (List ρ)

/-- What Lua takes for true. -/
def truthy : Option (Node α) → Bool
  | none => false
  | some (.leaf (.boolean b)) => b
  | some _ => true

/-- `query` for what stands at the keys so far; `none` is the error of an index into `nil` or into a
value.  (A string may be indexed in Lua; the functions it gives are no values here.) -/
def query : Option (Node α) → Path α → Option (Option (Node α))
  | db, [] => some db
  | some (.node get), key :: keys => query (get key) keys
  | _, _ :: _ => none

def QUERY (database : Database α) (key : Scalar α) (keys : Path α) : Option (Option (Node α)) :=
  if truthy (database key) then query (database key) keys else some none

/-- `update` returns what stood at the path. -/
def update : Path α → Database α → Scalar α → Option (Scalar α) →
    Option (Option (Node α) × Database α)
  | [], db, key, value => some (db key, Function.update db key (value.map .leaf))
  | key' :: keys, db, key, value =>
    match db key with
    | none => do
      let (ret, inner) ← update keys (fun _ => none) key' value
      some (ret, Function.update db key (some (.node inner)))
    | some (.node get) => do
      let (ret, inner) ← update keys get key' value
      some (ret, Function.update db key (some (.node inner)))
    | some (.leaf _) => none

/-- What `wakeup` finds: the queue at the path, or one that it fails on the way. -/
structure Woken (ρ : Type) where
  queue : List ρ
  failed : List ρ

/-- `wakeup` takes the keys of the path and the value after them. -/
def wakeup : List (Scalar α) → WaitQueue α ρ → Woken ρ × WaitQueue α ρ
  | [], db => (⟨[], []⟩, db)
  | key1 :: args, db =>
    match db key1 with
    | none => (⟨[], []⟩, db)
    | some (.leaf q) =>
      (if args.length ≠ 1 then ⟨[], q⟩ else ⟨q, []⟩, Function.update db key1 none)
    | some (.node get) =>
      let (woken, inner) := wakeup args get
      (woken, Function.update db key1 (some (.node inner)))

/-- `none` is a failed assertion about the mode. -/
def waitfor : Path α → WaitQueue α ρ → Scalar α → ρ → Option (WaitQueue α ρ)
  | [], db, key1, response =>
    match db key1 with
    | none => some (Function.update db key1 (some (.leaf [response])))
    | some (.leaf q) => some (Function.update db key1 (some (.leaf (q ++ [response]))))
    | some (.node _) => none
  | key2 :: keys, db, key1, response =>
    match db key1 with
    | none => do
      let inner ← waitfor keys (fun _ => none) key2 response
      some (Function.update db key1 (some (.node inner)))
    | some (.node get) => do
      let inner ← waitfor keys get key2 response
      some (Function.update db key1 (some (.node inner)))
    | some (.leaf _) => none

/-- A request comes with the one that waits for its answer. -/
inductive Request (α ρ : Type)
  | QUERY (key : Scalar α) (keys : Path α) (requester : ρ)
  | UPDATE (key : Scalar α) (keys : Path α) (value : Option (Scalar α)) (requester : ρ)
  | WAIT (key : Scalar α) (keys : Path α) (requester : ρ)

def Request.path : Request α ρ → Path α
  | .QUERY key keys _ => key :: keys
  | .UPDATE key keys _ _ => key :: keys
  | .WAIT key keys _ => key :: keys

def Request.requester : Request α ρ → ρ
  | .QUERY _ _ r => r
  | .UPDATE _ _ _ r => r
  | .WAIT _ _ r => r

/-- What a requester gets: a response, or an error (`response(false)`, or an error in the
handler). -/
inductive Answer (α : Type)
  | value (v : Option (Node α))
  | error

structure State (α ρ : Type) where
  database : Database α
  waitQueue : WaitQueue α ρ

def State.init : State α ρ := ⟨fun _ => none, fun _ => none⟩

/-- The answers that a request leads to, in their order. -/
def State.handle (s : State α ρ) : Request α ρ → State α ρ × List (ρ × Answer α)
  | .QUERY key keys r =>
    match QUERY s.database key keys with
    | none => (s, [(r, .error)])
    | some ret => (s, [(r, .value ret)])
  | .UPDATE key keys value r =>
    match update keys s.database key value with
    | none => (s, [(r, .error)])
    | some (ret, database) =>
      match value with
      | none => ({ s with database }, [(r, .value ret)])
      | some v =>
        if truthy ret then ({ s with database }, [(r, .value ret)])
        else
          let (woken, waitQueue) := wakeup (key :: keys ++ [v]) s.waitQueue
          -- the function ends without a `return`
          (⟨database, waitQueue⟩, woken.failed.map (·, .error) ++
            woken.queue.map (·, .value (some (.leaf v))) ++ [(r, .value none)])
  | .WAIT key keys r =>
    match QUERY s.database key keys with
    | none => (s, [(r, .error)])
    | some ret =>
      if truthy ret then (s, [(r, .value ret)])
      else match waitfor keys s.waitQueue key r with
        | none => (s, [(r, .error)])
        | some waitQueue => ({ s with waitQueue }, [])

def queueOf : Option (KeyTree (Scalar α) (List ρ)) → List ρ
  | some (.leaf q) => q
  | _ => []

omit [DecidableEq α] in
theorem query_eq {db : Option (Node α)} {keys : Path α}
    (h : ∀ q, q <+: keys → q ≠ keys → KeyTree.IsNode (KeyTree.sub db q)) :
    query db keys = some (KeyTree.sub db keys) := by
  induction keys generalizing db with
  | nil => rw [KeyTree.sub_nil]; cases db with
    | none => rfl
    | some t => cases t <;> rfl
  | cons key keys ih =>
    obtain ⟨get, hget⟩ := h [] List.nil_prefix (List.cons_ne_nil _ _).symm
    rw [KeyTree.sub_nil] at hget
    subst hget
    exact ih fun q hq hne => h (key :: q) (List.cons_prefix_cons.mpr ⟨rfl, hq⟩)
      fun heq => hne (List.cons.inj heq).2

theorem update_eq {db : Database α} {key : Scalar α} {keys : Path α} {value : Option (Scalar α)}
    (h : db.Clear (key :: keys)) : update keys db key value =
      some (db.find (key :: keys), db.put (key :: keys) (value.map .leaf)) := by
  induction keys generalizing db key with
  | nil => rw [Table.find_singleton]; rfl
  | cons key' keys ih =>
    have hinner := ih h.tail
    rw [update]
    rw [Table.find_children h.head (List.cons_ne_nil _ _), Table.put]
    cases hkey : db key with
    | none =>
      rw [hkey] at hinner
      simp only [KeyTree.children] at hinner ⊢
      rw [hinner]
      rfl
    | some t =>
      cases t with
      | leaf a => exact absurd hkey (h.head a)
      | node get =>
        rw [hkey] at hinner
        simp only [KeyTree.children] at hinner ⊢
        rw [hinner]
        rfl

theorem wakeup_leaf {db : WaitQueue α ρ} {p : Path α} {v : Scalar α} {q : List ρ}
    (h : db.find p = some (.leaf q)) : wakeup (p ++ [v]) db = (⟨q, []⟩, db.put p none) := by
  induction p generalizing db with
  | nil => cases h
  | cons key p ih =>
    rw [List.cons_append, wakeup]
    rw [Table.find_cons] at h
    cases hkey : db key with
    | none => rw [hkey, KeyTree.sub_none] at h; cases h
    | some t =>
      rw [hkey] at h
      cases t with
      | leaf q' =>
        cases p with
        | nil => cases h; rfl
        | cons => cases h
      | node get =>
        cases p with
        | nil => cases h
        | cons key' p =>
          dsimp only
          rw [ih h, Table.put, hkey]
          rfl

theorem wakeup_none {db : WaitQueue α ρ} {p : Path α} {v : Scalar α} (hp : p ≠ [])
    (h : db.find p = none) (hclear : db.Clear p) : wakeup (p ++ [v]) db = (⟨[], []⟩, db) := by
  induction p generalizing db with
  | nil => exact absurd rfl hp
  | cons key p ih =>
    rw [List.cons_append, wakeup]
    cases hkey : db key with
    | none => rfl
    | some t =>
      cases p with
      | nil => rw [Table.find_singleton, hkey] at h; cases h
      | cons key' p =>
        cases t with
        | leaf q => exact absurd hkey (hclear.head q)
        | node get =>
          have htail := hclear.tail
          rw [Table.find_children hclear.head (List.cons_ne_nil _ _)] at h
          rw [hkey] at h htail
          have hinner := ih (List.cons_ne_nil _ _) h htail
          simp only [KeyTree.children] at hinner ⊢
          rw [hinner, ← hkey, Function.update_eq_self]

theorem waitfor_eq {db : WaitQueue α ρ} {key : Scalar α} {keys : Path α} {r : ρ}
    (hclear : db.Clear (key :: keys)) (h : ¬ KeyTree.IsNode (db.find (key :: keys))) :
    waitfor keys db key r = some (db.put (key :: keys)
      (some (.leaf (queueOf (db.find (key :: keys)) ++ [r])))) := by
  induction keys generalizing db key with
  | nil =>
    rw [Table.find_singleton] at h ⊢
    rw [waitfor, Table.put]
    cases hkey : db key with
    | none => rfl
    | some t =>
      cases t with
      | leaf q => rfl
      | node get => exact absurd ⟨get, hkey⟩ h
  | cons key' keys ih =>
    rw [Table.find_children hclear.head (List.cons_ne_nil _ _)] at h ⊢
    have hinner := ih hclear.tail h
    rw [waitfor, Table.put]
    cases hkey : db key with
    | none =>
      rw [hkey] at hinner
      simp only [KeyTree.children] at hinner ⊢
      rw [hinner]
      rfl
    | some t =>
      cases t with
      | leaf a => exact absurd hkey (hclear.head a)
      | node get =>
        rw [hkey] at hinner
        simp only [KeyTree.children] at hinner ⊢
        rw [hinner]
        rfl

end XsServer.Datacenter
