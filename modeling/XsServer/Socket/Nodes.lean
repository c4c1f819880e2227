import XsServer.Lib.Chain
import XsServer.Lib.Results
import XsServer.Socket.Buffer

/-! The nodes behind the socket buffers, from `lua-socket.c`: chunks of nodes that are made when no
free one is left, the linked list of the free ones, and buffers that are linked lists as well. -/

namespace XsServer.Socket.Nodes

open XsServer.Lib XsServer.ServiceGate

/-- What keeps a call from returning: an assertion, an access through a null pointer or of a
negative length, or a list without an end. -/
inductive Fault
  | assertion
  | memory
  | endless
  deriving DecidableEq

/-- `struct buffer_node`; `sz` is the length of the message, and a free node has none. -/
structure BufferNode where
  msg : List UInt8
  next : Option Nat

/-- `struct socket_buffer`; a pointer is an index. -/
structure SocketBuffer where
  size : Int
  offset : Nat
  head : Option Nat
  tail : Option Nat

/-- The table of the chunks: `free` is its first entry, `len` its length, and `top` the number of
nodes in its chunks. -/
structure Pool where
  node : Nat → BufferNode
  free : Option Nat
  len : Nat
  top : Nat

abbrev Pool.next (p : Pool) (i : Nat) : Option Nat := (p.node i).next

def LARGE_PAGE_NODE : Nat := 12

/-- `buffer_pool[1]` is not set in an empty table. -/
def newpool : Pool := ⟨fun _ => ⟨[], none⟩, none, 0, 0⟩

def lnewbuffer : SocketBuffer := ⟨0, 0, none, none⟩

/-- The chunk comes behind the entry `tsz`; `free_node` is its first node. -/
def lnewpool (p : Pool) (tsz sz : Nat) : Pool where
  node i := if p.top ≤ i ∧ i < p.top + sz then
      ⟨[], if i + 1 < p.top + sz then some (i + 1) else none⟩
    else p.node i
  free := some p.top
  len := tsz + 1
  top := p.top + sz

def freeNode (p : Pool) : Pool × Nat :=
  match p.free with
  | some i => (p, i)
  | none =>
    let tsz := if p.len = 0 then 1 else p.len
    let size := if tsz ≤ LARGE_PAGE_NODE - 3 then 8 <<< tsz else 8 <<< (LARGE_PAGE_NODE - 3)
    (lnewpool p tsz size, p.top)

def lpushbuffer (p : Pool) (sb : SocketBuffer) (msg : List UInt8) :
    Except Fault (Int × Pool × SocketBuffer) :=
  let (p, i) := freeNode p
  let p := { p with free := p.next i, node := Function.update p.node i ⟨msg, none⟩ }
  let size := int32 (sb.size + msg.length)
  match sb.head with
  | none =>
    if sb.tail ≠ none then .error .assertion
    else .ok (size, p, { sb with size, head := some i, tail := some i })
  | some _ =>
    match sb.tail with
    | none => .error .memory
    | some t =>
      let node := Function.update p.node t { p.node t with next := some i }
      .ok (size, { p with node }, { sb with size, tail := some i })

def returnFreeNode (p : Pool) (sb : SocketBuffer) (i : Nat) : Pool × SocketBuffer :=
  let head := p.next i
  ({ p with node := Function.update p.node i ⟨[], p.free⟩, free := some i },
    { sb with offset := 0, head, tail := if head = none then none else sb.tail })

/-- The loop of `pop_lstring`; `current` is the head of the buffer. -/
def popLoop : Nat → Pool → SocketBuffer → Nat → Nat → Nat →
    Except Fault (List UInt8 × Pool × SocketBuffer)
  | 0, _, _, _, _, _ => .error .endless
  | n + 1, p, sb, current, sz, skip =>
    let msg := (p.node current).msg
    let bytes := msg.length - sb.offset
    if sz ≤ bytes then
      let added := if skip < sz then (msg.drop sb.offset).take (sz - skip) else []
      if bytes = sz then .ok (added, returnFreeNode p sb current)
      else .ok (added, p, { sb with offset := sb.offset + sz })
    else
      let realSz := sz - skip
      let added := (msg.drop sb.offset).take (if realSz < bytes then realSz else bytes)
      let (p, sb) := returnFreeNode p sb current
      match sb.head with
      | none => .error .assertion
      | some current => do
        let (b, p, sb) ← popLoop n p sb current (sz - bytes) skip
        .ok (added ++ b, p, sb)

def popLstring (p : Pool) (sb : SocketBuffer) (sz skip : Nat) :
    Except Fault (List UInt8 × Pool × SocketBuffer) :=
  match sb.head with
  | none => .error .memory
  | some current =>
    let msg := (p.node current).msg
    if sz < msg.length - sb.offset then
      .ok ((msg.drop sb.offset).take (sz - skip), p, { sb with offset := sb.offset + sz })
    else if sz = msg.length - sb.offset then
      .ok ((msg.drop sb.offset).take (sz - skip), returnFreeNode p sb current)
    else popLoop p.top p sb current sz skip

/-- The bytes or nil, and the size that is left. -/
def lpopbuffer (p : Pool) (sb : SocketBuffer) (n : Nat) :
    Except Fault ((Option (List UInt8) × Int) × Pool × SocketBuffer) :=
  let sz := int32 n
  if sb.size < sz ∨ sz = 0 then .ok ((none, sb.size), p, sb)
  else if sz < 0 then .error .memory
  else do
    let (s, p, sb) ← popLstring p sb sz.toNat 0
    .ok ((some s, sb.size - sz), p, { sb with size := sb.size - sz })

/-- The loop of `lreadall`, and of `lclearbuffer`, which drops the bytes. -/
def readallLoop : Nat → Pool → SocketBuffer → Except Fault (List UInt8 × Pool × SocketBuffer)
  | n, p, sb =>
    match sb.head with
    | none => .ok ([], p, sb)
    | some current =>
      match n with
      | 0 => .error .endless
      | n + 1 => do
        let added := (p.node current).msg.drop sb.offset
        let (p, sb) := returnFreeNode p sb current
        let (b, p, sb) ← readallLoop n p sb
        .ok (added ++ b, p, sb)

def lclearbuffer (p : Pool) (sb : SocketBuffer) : Except Fault (Pool × SocketBuffer) := do
  let (_, p, sb) ← readallLoop p.top p sb
  .ok (p, { sb with size := 0 })

def lreadall (p : Pool) (sb : SocketBuffer) :
    Except Fault (List UInt8 × Pool × SocketBuffer) := do
  let (b, p, sb) ← readallLoop p.top p sb
  .ok (b, p, { sb with size := 0 })

/-- Whether the separator stands at `pos` of the node, going on in the next ones. -/
def checkSep (p : Pool) : Nat → Option Nat → Nat → List UInt8 → Except Fault Bool
  | _, none, _, _ => .error .memory
  | 0, some _, _, _ => .error .endless
  | n + 1, some i, pos, sep =>
    let msg := (p.node i).msg
    let sz := msg.length - pos
    if sep.length ≤ sz then .ok (decide ((msg.drop pos).take sep.length = sep))
    else if 0 < sz ∧ msg.drop pos ≠ sep.take sz then .ok false
    else checkSep p n (p.next i) 0 (sep.drop sz)

/-- The loop of `lreadline` from `i` on, with the number of rounds that its bound leaves. -/
def findSep (p : Pool) (sep : List UInt8) : Nat → Nat → Nat → Nat → Except Fault (Option Nat)
  | 0, _, _, _ => .ok none
  | k + 1, current, pos, i => do
    if ← checkSep p p.top (some current) pos sep then .ok (some i)
    else if pos + 1 = (p.node current).msg.length then
      match p.next current with
      | none => .ok none
      | some next => findSep p sep k next 0 (i + 1)
    else findSep p sep k current (pos + 1) (i + 1)

/-- The number of bytes before the separator; its length is cut to an `int`. -/
def sepPosition (p : Pool) (sb : SocketBuffer) (sep : List UInt8) : Except Fault (Option Nat) :=
  let seplen := int32 sep.length
  let rounds := (int32 (sb.size - seplen) + 1).toNat
  match sb.head with
  | none => .ok none
  | some current =>
    if seplen < 0 ∧ 0 < rounds then .error .memory
    else findSep p (sep.take seplen.toNat) rounds current sb.offset 0

/-- `lreadline` without a table for the pool, which only checks. -/
def lreadlineCheck (p : Pool) (sb : SocketBuffer) (sep : List UInt8) : Except Fault Bool := do
  .ok (← sepPosition p sb sep).isSome

def lreadline (p : Pool) (sb : SocketBuffer) (sep : List UInt8) :
    Except Fault (Option (List UInt8) × Pool × SocketBuffer) := do
  match ← sepPosition p sb sep with
  | none => .ok (none, p, sb)
  | some i =>
    let seplen := (int32 sep.length).toNat
    let (line, p, sb) ← popLstring p sb (i + seplen) seplen
    .ok (some line, p, { sb with size := sb.size - (i + seplen : Nat) })

/-! ### The list of a buffer and the free list -/

variable {p p' p'' : Pool} {sb sb' sb'' : SocketBuffer} {l l₁ l₂ l₃ free : List Nat} {i n : Nat}
  {sep : List UInt8} {sz skip pos : Nat}

/-- The nodes of the buffer are `l`, and the free ones are `free`. -/
structure Linked (p : Pool) (sb : SocketBuffer) (l free : List Nat) : Prop where
  chain : Chain p.next sb.head l
  tail_eq : sb.tail = l.getLast?
  free_chain : Chain p.next p.free free
  disjoint : List.Disjoint l free

/-- The nodes `l₁` went to the free list, and `l₂` are the nodes of the buffer. -/
structure Returned (p : Pool) (free : List Nat) (p' : Pool) (sb' : SocketBuffer)
    (l₁ l₂ : List Nat) : Prop where
  linked : Linked p' sb' l₂ (l₁.reverse ++ free)
  frame : ∀ j ∉ l₁, p'.node j = p.node j
  top_eq : p'.top = p.top

def msgs (p : Pool) (l : List Nat) : List (List UInt8) := l.map fun i => (p.node i).msg

/-- The buffer with the messages of its nodes as a list. -/
def SocketBuffer.view (sb : SocketBuffer) (p : Pool) (l : List Nat) : Socket.SocketBuffer :=
  ⟨sb.size, sb.offset, msgs p l⟩

/-- The first nodes of the buffer went to the free list, and what is left is `v`. -/
def Leaves (p : Pool) (l free : List Nat) (v : Socket.SocketBuffer) (p' : Pool)
    (sb' : SocketBuffer) : Prop :=
  ∃ l₁ l₂, l = l₁ ++ l₂ ∧ Returned p free p' sb' l₁ l₂ ∧ sb'.view p' l₂ = v

theorem Returned.refl (h : Linked p sb l free) : Returned p free p sb [] l :=
  ⟨h, fun _ _ => rfl, rfl⟩

theorem Returned.trans (h : Returned p free p' sb' l₁ l)
    (h' : Returned p' (l₁.reverse ++ free) p'' sb'' l₂ l₃) :
    Returned p free p'' sb'' (l₁ ++ l₂) l₃ where
  linked := by
    rw [List.reverse_append, List.append_assoc]
    exact h'.linked
  frame j hj := by
    rw [List.mem_append, not_or] at hj
    rw [h'.frame j hj.2, h.frame j hj.1]
  top_eq := h'.top_eq.trans h.top_eq

theorem Returned.msgs_eq (h : Returned p free p' sb' l₁ l₂) : msgs p' l₂ = msgs p l₂ := by
  apply List.map_congr_left
  intro j hj
  have hj₁ : j ∉ l₁ := by
    intro hmem
    apply h.linked.disjoint hj
    exact List.mem_append_left _ (List.mem_reverse.mpr hmem)
  rw [h.frame j hj₁]

theorem Linked.leaves_self (h : Linked p sb l free) : Leaves p l free (sb.view p l) p sb :=
  ⟨[], l, rfl, Returned.refl h, rfl⟩

theorem Linked.head_eq (h : Linked p sb l free) : sb.head = l.head? := h.chain.start

theorem Linked.congr (h : Linked p sb l free) (hhead : sb'.head = sb.head)
    (htail : sb'.tail = sb.tail) : Linked p sb' l free :=
  ⟨hhead ▸ h.chain, htail ▸ h.tail_eq, h.free_chain, h.disjoint⟩

theorem returnFreeNode_returned (h : Linked p sb (i :: l) free) :
    Returned p free (returnFreeNode p sb i).1 (returnFreeNode p sb i).2 [i] l := by
  have hnot : i ∉ l := (List.nodup_cons.mp h.chain.nodup).1
  have hfree : i ∉ free := fun hmem => h.disjoint List.mem_cons_self hmem
  have hrest : Chain p.next (p.next i) l := h.chain.tail
  have hnode : ∀ j, j ≠ i → (returnFreeNode p sb i).1.node j = p.node j := fun j hj =>
    Function.update_of_ne hj ..
  have hnext : ∀ j, j ≠ i → (returnFreeNode p sb i).1.next j = p.next j := fun j hj =>
    congrArg BufferNode.next (hnode j hj)
  refine ⟨⟨?_, ?_, ?_, ?_⟩, fun j hj => hnode j (mt List.mem_singleton.mpr hj), rfl⟩
  · apply hrest.congr
    intro j hj
    exact hnext j (ne_of_mem_of_not_mem hj hnot)
  · change (if p.next i = none then none else sb.tail) = _
    rw [hrest.start, h.tail_eq]
    cases l with
    | nil | cons => rfl
  · apply h.free_chain.push hfree _ hnext
    change (Function.update p.node i ⟨[], p.free⟩ i).next = p.free
    rw [Function.update_self]
  · intro j hj hmem
    rcases List.mem_cons.mp hmem with rfl | hmem
    · exact hnot hj
    · exact h.disjoint (List.mem_cons_of_mem _ hj) hmem

theorem Leaves.cons {v : Socket.SocketBuffer} (h : Returned p free p' sb' [i] l)
    (h' : Leaves p' l (i :: free) v p'' sb'') : Leaves p (i :: l) free v p'' sb'' := by
  obtain ⟨l₁, l₂, rfl, hret, hview⟩ := h'
  exact ⟨i :: l₁, l₂, rfl, h.trans hret, hview⟩

theorem Returned.leaves (h : Returned p free p' sb' [i] l) :
    Leaves p (i :: l) free (sb'.view p l) p' sb' := by
  refine ⟨[i], l, rfl, h, ?_⟩
  rw [SocketBuffer.view, h.msgs_eq]
  rfl

theorem popLoop_refines {b : List UInt8} {offset : Nat} {nodes : List (List UInt8)}
    (h : Linked p sb (i :: l) free) (hn : l.length < n)
    (hpop : Socket.popLoop (msgs p (i :: l)) sb.offset sz skip = .ok (b, offset, nodes)) :
    ∃ p' sb', popLoop n p sb i sz skip = .ok (b, p', sb') ∧
      Leaves p (i :: l) free ⟨sb.size, offset, nodes⟩ p' sb' := by
  induction n generalizing p sb i l free sz b with
  | zero => exact absurd hn (Nat.not_lt_zero _)
  | succ n ih =>
    have hret := returnFreeNode_returned h
    change Socket.popLoop ((p.node i).msg :: msgs p l) sb.offset sz skip = _ at hpop
    rw [Socket.popLoop] at hpop
    rw [popLoop]
    by_cases hin : sz ≤ (p.node i).msg.length - sb.offset
    · simp only [if_pos hin] at hpop ⊢
      by_cases heq : (p.node i).msg.length - sb.offset = sz
      · rw [if_pos heq] at hpop ⊢
        cases hpop
        exact ⟨_, _, rfl, hret.leaves⟩
      · rw [if_neg heq] at hpop ⊢
        cases hpop
        have hmoved : Linked p { sb with offset := sb.offset + sz } (i :: l) free :=
          h.congr rfl rfl
        exact ⟨_, _, rfl, hmoved.leaves_self⟩
    · simp only [if_neg hin] at hpop ⊢
      obtain ⟨⟨b', offset', nodes'⟩, hrec, hok⟩ := bind_ok hpop
      cases hok
      cases l with
      | nil => cases hrec
      | cons j l =>
        have hhead := hret.linked.head_eq
        change (returnFreeNode p sb i).2.head = some j at hhead
        rw [← hret.msgs_eq] at hrec
        obtain ⟨p', sb', hloop, hleaves⟩ := ih hret.linked (Nat.lt_of_succ_lt_succ hn) hrec
        refine ⟨p', sb', ?_, hleaves.cons hret⟩
        simp only [hhead, hloop]
        rfl

theorem popLstring_refines {b : List UInt8} {v : Socket.SocketBuffer} (h : Linked p sb l free)
    (hn : l.length ≤ p.top) (hpop : Socket.popLstring (sb.view p l) sz skip = .ok (b, v)) :
    ∃ p' sb', popLstring p sb sz skip = .ok (b, p', sb') ∧ Leaves p l free v p' sb' ∧
      v.size = sb.size := by
  cases l with
  | nil => cases hpop
  | cons i l =>
    have hret := returnFreeNode_returned h
    obtain ⟨size, offset, head, tail⟩ := sb
    obtain rfl : head = some i := h.head_eq
    rw [popLstring]
    change Socket.popLstring ⟨size, offset, (p.node i).msg :: msgs p l⟩ sz skip = _ at hpop
    rw [Socket.popLstring] at hpop
    by_cases hlt : sz < (p.node i).msg.length - offset
    · simp only [if_pos hlt] at hpop ⊢
      cases hpop
      have hmoved : Linked p ⟨size, offset + sz, some i, tail⟩ (i :: l) free := h.congr rfl rfl
      exact ⟨_, _, rfl, hmoved.leaves_self, rfl⟩
    · by_cases heq : sz = (p.node i).msg.length - offset
      · simp only [if_neg hlt, if_pos heq] at hpop ⊢
        cases hpop
        exact ⟨_, _, rfl, hret.leaves, rfl⟩
      · simp only [if_neg hlt, if_neg heq] at hpop ⊢
        obtain ⟨⟨b', offset, nodes⟩, hloop, hok⟩ := bind_ok hpop
        cases hok
        obtain ⟨p', sb', hrun, hleaves⟩ := popLoop_refines h hn hloop
        exact ⟨p', sb', hrun, hleaves, rfl⟩

theorem Leaves.setSize {v : Socket.SocketBuffer} (h : Leaves p l free v p' sb') (size : Int) :
    Leaves p l free { v with size } p' { sb' with size } := by
  obtain ⟨l₁, l₂, rfl, hret, rfl⟩ := h
  exact ⟨l₁, l₂, rfl, ⟨hret.linked.congr rfl rfl, hret.frame, hret.top_eq⟩, rfl⟩

theorem lpopbuffer_refines {s : Option (List UInt8)} {v : Socket.SocketBuffer}
    (h : Linked p sb l free) (hn : l.length ≤ p.top)
    (hpop : Socket.lpopbuffer (sb.view p l) n = .ok (s, v)) :
    ∃ p' sb', lpopbuffer p sb n = .ok ((s, v.size), p', sb') ∧ Leaves p l free v p' sb' := by
  rw [lpopbuffer]
  rw [Socket.lpopbuffer] at hpop
  change (if sb.size < int32 n ∨ int32 n = 0 then _ else _) = _ at hpop
  by_cases hnil : sb.size < int32 n ∨ int32 n = 0
  · simp only [if_pos hnil] at hpop ⊢
    cases hpop
    exact ⟨p, sb, rfl, h.leaves_self⟩
  · by_cases hneg : int32 n < 0
    · simp only [if_neg hnil, if_pos hneg] at hpop
      cases hpop
    · simp only [if_neg hnil, if_neg hneg] at hpop ⊢
      obtain ⟨⟨b, v'⟩, hstring, hok⟩ := bind_ok hpop
      obtain ⟨p', sb', hrun, hleaves, hsize⟩ := popLstring_refines h hn hstring
      cases hok
      have hsize' : sb'.size = sb.size := by
        obtain ⟨_, _, _, _, hview⟩ := hleaves
        rw [← hsize, ← hview]
        rfl
      refine ⟨p', { sb' with size := sb'.size - int32 n }, ?_, ?_⟩
      · rw [hrun, hsize, ← hsize']
        rfl
      · rw [hsize, ← hsize']
        exact hleaves.setSize _

theorem readallLoop_refines (h : Linked p sb l free) (hn : l.length ≤ n) :
    ∃ p' sb', readallLoop n p sb = .ok (Socket.readallLoop (msgs p l) sb.offset, p', sb') ∧
      Leaves p l free ⟨sb.size, if msgs p l = [] then sb.offset else 0, []⟩ p' sb' := by
  induction n generalizing p sb l free with
  | zero =>
    obtain rfl := List.length_eq_zero_iff.mp (Nat.le_zero.mp hn)
    refine ⟨p, sb, ?_, h.leaves_self⟩
    rw [readallLoop, h.head_eq]
    rfl
  | succ n ih =>
    cases l with
    | nil =>
      refine ⟨p, sb, ?_, h.leaves_self⟩
      rw [readallLoop, h.head_eq]
      rfl
    | cons i l =>
      have hret := returnFreeNode_returned h
      obtain ⟨p', sb', hrun, hleaves⟩ := ih hret.linked (Nat.le_of_succ_le_succ hn)
      refine ⟨p', sb', ?_, ?_⟩
      · rw [readallLoop, h.head_eq]
        change (do
          let r ← readallLoop n (returnFreeNode p sb i).1 (returnFreeNode p sb i).2
          Except.ok ((p.node i).msg.drop sb.offset ++ r.1, r.2)) = _
        rw [hrun, hret.msgs_eq]
        rfl
      · have hoffset : (returnFreeNode p sb i).2.offset = 0 := rfl
        rw [hoffset, ite_self] at hleaves
        exact hleaves.cons hret

theorem lclearbuffer_refines (h : Linked p sb l free) (hn : l.length ≤ p.top) :
    ∃ p' sb', lclearbuffer p sb = .ok (p', sb') ∧
      Leaves p l free (Socket.lclearbuffer (sb.view p l)) p' sb' := by
  obtain ⟨p', sb', hrun, hleaves⟩ := readallLoop_refines h hn
  refine ⟨p', { sb' with size := 0 }, ?_, ?_⟩
  · rw [lclearbuffer, hrun]
    rfl
  · exact hleaves.setSize 0

theorem lreadall_refines (h : Linked p sb l free) (hn : l.length ≤ p.top) :
    ∃ p' sb', lreadall p sb = .ok ((Socket.lreadall (sb.view p l)).1, p', sb') ∧
      Leaves p l free (Socket.lreadall (sb.view p l)).2 p' sb' := by
  obtain ⟨p', sb', hrun, hleaves⟩ := readallLoop_refines h hn
  refine ⟨p', { sb' with size := 0 }, ?_, ?_⟩
  · rw [lreadall, hrun]
    rfl
  · exact hleaves.setSize 0

theorem checkSep_refines {o : Option Nat} {found : Bool} (h : Chain p.next o l)
    (hn : l.length ≤ n) (hcheck : Socket.checkSep (msgs p l) pos sep = .ok found) :
    checkSep p n o pos sep = .ok found := by
  induction h generalizing n pos sep with
  | nil => cases hcheck
  | @cons i l _ ih =>
    cases n with
    | zero => exact absurd hn (Nat.not_succ_le_zero _)
    | succ n =>
      change Socket.checkSep ((p.node i).msg :: msgs p l) pos sep = _ at hcheck
      rw [Socket.checkSep] at hcheck
      rw [checkSep]
      by_cases hin : sep.length ≤ (p.node i).msg.length - pos
      · simp only [if_pos hin] at hcheck ⊢
        cases hcheck
        rfl
      · simp only [if_neg hin] at hcheck ⊢
        by_cases hne : 0 < (p.node i).msg.length - pos ∧ (p.node i).msg.drop pos ≠
            sep.take ((p.node i).msg.length - pos)
        · rw [if_pos hne] at hcheck ⊢
          cases hcheck
          rfl
        · rw [if_neg hne] at hcheck ⊢
          exact ih (Nat.le_of_succ_le_succ hn) hcheck

theorem findSep_refines {k j : Nat} {r : Option Nat} (h : Chain p.next (some i) (i :: l))
    (hn : l.length < p.top) (hfind : Socket.findSep sep k (msgs p (i :: l)) pos j = .ok r) :
    findSep p sep k i pos j = .ok r := by
  induction k generalizing i l pos j with
  | zero =>
    cases hfind
    rfl
  | succ k ih =>
    change Socket.findSep sep (k + 1) ((p.node i).msg :: msgs p l) pos j = _ at hfind
    rw [Socket.findSep] at hfind
    obtain ⟨found, hcheck, hrest⟩ := bind_ok hfind
    rw [findSep, checkSep_refines h hn hcheck]
    change (if found = true then _ else _) = _ at hrest
    change (if found = true then _ else _) = _
    by_cases hfound : found = true
    · rw [if_pos hfound] at hrest ⊢
      cases hrest
      rfl
    · rw [if_neg hfound] at hrest ⊢
      by_cases hend : pos + 1 = (p.node i).msg.length
      · rw [if_pos hend] at hrest ⊢
        cases h with
        | cons h =>
          have hstart := h.start
          cases l with
          | nil =>
            cases hrest
            simp only [hstart, List.head?_nil]
          | cons j l =>
            simp only [hstart, List.head?_cons]
            rw [hstart, List.head?_cons] at h
            exact ih h (Nat.lt_of_succ_lt hn) hrest
      · rw [if_neg hend] at hrest ⊢
        exact ih h hn hrest

theorem sepPosition_refines {r : Option Nat} (h : Linked p sb l free) (hn : l.length ≤ p.top)
    (hpos : Socket.sepPosition (sb.view p l) sep = .ok r) : sepPosition p sb sep = .ok r := by
  have hhead := h.head_eq
  have hchain := h.chain
  rw [hhead] at hchain
  unfold sepPosition
  unfold Socket.sepPosition at hpos
  cases l with
  | nil =>
    cases hpos
    simp only [hhead, List.head?_nil]
  | cons i l =>
    simp only [hhead, List.head?_cons]
    simp only [SocketBuffer.view, msgs, List.map_cons, reduceCtorEq, if_false] at hpos
    by_cases hneg : int32 sep.length < 0 ∧ 0 < (int32 (sb.size - int32 sep.length) + 1).toNat
    · rw [if_pos hneg] at hpos
      cases hpos
    · rw [if_neg hneg] at hpos ⊢
      exact findSep_refines hchain hn hpos

theorem lreadlineCheck_refines {found : Bool} (h : Linked p sb l free) (hn : l.length ≤ p.top)
    (hline : Socket.lreadlineCheck (sb.view p l) sep = .ok found) :
    lreadlineCheck p sb sep = .ok found := by
  obtain ⟨r, hpos, hok⟩ := bind_ok hline
  rw [lreadlineCheck, sepPosition_refines h hn hpos]
  cases hok
  rfl

theorem lreadline_refines {line : Option (List UInt8)} {v : Socket.SocketBuffer}
    (h : Linked p sb l free) (hn : l.length ≤ p.top)
    (hline : Socket.lreadline (sb.view p l) sep = .ok (line, v)) :
    ∃ p' sb', lreadline p sb sep = .ok (line, p', sb') ∧ Leaves p l free v p' sb' := by
  obtain ⟨r, hpos, hrest⟩ := bind_ok hline
  rw [lreadline, sepPosition_refines h hn hpos]
  cases r with
  | none =>
    cases hrest
    exact ⟨p, sb, rfl, h.leaves_self⟩
  | some i =>
    obtain ⟨⟨b, v'⟩, hstring, hok⟩ := bind_ok hrest
    obtain ⟨p', sb', hrun, hleaves, -⟩ := popLstring_refines h hn hstring
    cases hok
    have hsize : sb'.size = v'.size := by
      obtain ⟨_, _, _, _, hview⟩ := hleaves
      rw [← hview]
      rfl
    refine ⟨p', { sb' with size := sb'.size - (i + (int32 sep.length).toNat : Nat) }, ?_, ?_⟩
    · change (do
        let r ← popLstring p sb (i + (int32 sep.length).toNat) (int32 sep.length).toNat
        Except.ok (some r.1, r.2.1,
          { r.2.2 with size := r.2.2.size - (i + (int32 sep.length).toNat : Nat) })) = _
      rw [hrun]
      rfl
    · rw [hsize]
      exact hleaves.setSize _

/-- The nodes after `i` got a message and came behind `t`. -/
def attach (p : Pool) (t i : Nat) (msg : List UInt8) : Nat → BufferNode :=
  let node := Function.update p.node i ⟨msg, none⟩
  Function.update node t { node t with next := some i }

theorem attach_of_ne {t j : Nat} (msg : List UInt8) (hjt : j ≠ t) (hji : j ≠ i) :
    attach p t i msg j = p.node j := by
  unfold attach
  dsimp only
  rw [Function.update_of_ne hjt, Function.update_of_ne hji]

theorem attach_last {t : Nat} (msg : List UInt8) (hti : t ≠ i) :
    attach p t i msg t = ⟨(p.node t).msg, some i⟩ := by
  unfold attach
  dsimp only
  rw [Function.update_self, Function.update_of_ne hti]

theorem attach_new {t : Nat} (msg : List UInt8) (hti : t ≠ i) :
    attach p t i msg i = ⟨msg, none⟩ := by
  unfold attach
  dsimp only
  rw [Function.update_of_ne hti.symm, Function.update_self]

theorem lpushbuffer_refines (msg : List UInt8) (hfree : freeNode p = (p', i))
    (h : Linked p' sb l (i :: free)) :
    ∃ p'' sb'', lpushbuffer p sb msg = .ok ((Socket.lpushbuffer (sb.view p' l) msg).1, p'', sb'') ∧
      Linked p'' sb'' (l ++ [i]) free ∧ (∀ j, j ∉ l → j ≠ i → p''.node j = p'.node j) ∧
      sb''.view p'' (l ++ [i]) = (Socket.lpushbuffer (sb.view p' l) msg).2 ∧
      p''.top = p'.top := by
  have hil : i ∉ l := fun hmem => h.disjoint hmem List.mem_cons_self
  have hifree : i ∉ free := (List.nodup_cons.mp h.free_chain.nodup).1
  have hrest : Chain p'.next (p'.next i) free := h.free_chain.tail
  have hdis : List.Disjoint (l ++ [i]) free := by
    intro j hj hmem
    rcases List.mem_append.mp hj with hj | hj
    · exact h.disjoint hj (List.mem_cons_of_mem _ hmem)
    · exact hifree (List.mem_singleton.mp hj ▸ hmem)
  unfold lpushbuffer
  simp only [hfree, h.head_eq, h.tail_eq]
  rcases List.eq_nil_or_concat l with rfl | ⟨l, t, rfl⟩
  · refine ⟨_, _, rfl, ⟨.cons ?_, rfl, ?_, hdis⟩, ?_, ?_, rfl⟩
    · change Chain _ (Function.update p'.node i ⟨msg, none⟩ i).next []
      rw [Function.update_self]
      exact .nil
    · apply hrest.congr
      intro j hj
      exact congrArg BufferNode.next (Function.update_of_ne (ne_of_mem_of_not_mem hj hifree) ..)
    · intro j _ hj
      exact Function.update_of_ne hj ..
    · simp [SocketBuffer.view, Socket.lpushbuffer, msgs]
  · rw [List.concat_eq_append] at h hil hdis ⊢
    have hti : t ≠ i := fun heq => hil (List.mem_append_right _ (List.mem_singleton.mpr heq.symm))
    have hlt : t ∉ l := fun hmem => by
      have hnodup := h.chain.nodup
      rw [List.nodup_append] at hnodup
      exact hnodup.2.2 t hmem t List.mem_cons_self rfl
    have htfree : t ∉ free := fun hmem =>
      hdis (List.mem_append_left _ (List.mem_append_right _ List.mem_cons_self)) hmem
    have hhead : ∃ first, (l ++ [t]).head? = some first := by
      cases l with
      | nil => exact ⟨t, rfl⟩
      | cons a _ => exact ⟨a, rfl⟩
    obtain ⟨first, hfirst⟩ := hhead
    simp only [hfirst, List.getLast?_concat]
    refine ⟨_, _, rfl, ⟨?_, ?_, ?_, hdis⟩, ?_, ?_, rfl⟩
    · change Chain (fun j => (attach p' t i msg j).next) (some first) ((l ++ [t]) ++ [i])
      rw [List.append_assoc]
      have hchain : Chain p'.next (some first) (l ++ t :: []) := by
        rw [← hfirst, ← h.head_eq]
        exact h.chain
      apply hchain.splice
      · intro j hj
        rw [attach_of_ne msg (ne_of_mem_of_not_mem hj hlt)
          (ne_of_mem_of_not_mem (List.mem_append_left _ hj) hil)]
      · rw [attach_last msg hti]
        apply Chain.cons
        rw [attach_new msg hti]
        exact .nil
    · exact List.getLast?_concat.symm
    · change Chain (fun j => (attach p' t i msg j).next) (p'.next i) free
      apply hrest.congr
      intro j hj
      rw [attach_of_ne msg (ne_of_mem_of_not_mem hj htfree) (ne_of_mem_of_not_mem hj hifree)]
    · intro j hj hji
      apply attach_of_ne msg _ hji
      rintro rfl
      exact hj (List.mem_append_right _ List.mem_cons_self)
    · change Socket.SocketBuffer.mk _ _
        ((l ++ [t] ++ [i]).map fun j => (attach p' t i msg j).msg) = _
      have hmsgs : (l ++ [t]).map (fun j => (attach p' t i msg j).msg) = msgs p' (l ++ [t]) := by
        apply List.map_congr_left
        intro j hj
        by_cases hjt : j = t
        · rw [hjt, attach_last msg hti]
        · rw [attach_of_ne msg hjt (ne_of_mem_of_not_mem hj hil)]
      rw [List.map_append, hmsgs, List.map_singleton, attach_new msg hti]
      rfl

end XsServer.Socket.Nodes
