import XsServer.Lib.Run
import XsServer.Socket.Nodes

/-! Socket buffers that share their pool of nodes are queues of bytes. -/

namespace XsServer.Socket.Nodes

open XsServer.Lib XsServer.ServiceGate

inductive Op
  | push (msg : List UInt8)
  | pop (n : Nat)
  | readline (check : Bool) (sep : List UInt8)
  | readall
  | clear

inductive Answer
  | size (n : Int)
  | popped (s : Option (List UInt8)) (size : Int)
  | line (s : Option (List UInt8))
  | found (b : Bool)
  | all (s : List UInt8)
  | cleared
  deriving DecidableEq

def call (p : Pool) (sb : SocketBuffer) : Op → Except Fault (Answer × Pool × SocketBuffer)
  | .push msg => do
    let (n, r) ← lpushbuffer p sb msg
    .ok (.size n, r)
  | .pop n => do
    let ((s, size), r) ← lpopbuffer p sb n
    .ok (.popped s size, r)
  | .readline true sep => do .ok (.found (← lreadlineCheck p sb sep), p, sb)
  | .readline false sep => do
    let (s, r) ← lreadline p sb sep
    .ok (.line s, r)
  | .readall => do
    let (s, r) ← lreadall p sb
    .ok (.all s, r)
  | .clear => do .ok (.cleared, ← lclearbuffer p sb)

structure State (β : Type*) where
  pool : Pool
  buffer : β → SocketBuffer

variable {β : Type*}

def State.start : State β := ⟨newpool, fun _ => lnewbuffer⟩

section Step

variable [DecidableEq β]

def State.step (s : State β) (b : β) (op : Op) : Except Fault (Answer × State β) :=
  (call s.pool (s.buffer b) op).map fun (r, pool, sb) =>
    (r, ⟨pool, Function.update s.buffer b sb⟩)

def Calls (s : State β) (e : β × Op × Answer) (t : State β) : Prop :=
  s.step e.1 e.2.1 = .ok (e.2.2, t)

end Step

/-- A block has a byte, a byte is asked for, and a separator is not empty. -/
def Op.Valid : Op → Prop
  | .push msg => msg ≠ []
  | .pop n => 0 < n
  | .readline _ sep => sep ≠ []
  | _ => True

inductive QueueStep : List UInt8 → Op → Answer → List UInt8 → Prop
  | push (q msg : List UInt8) :
    QueueStep q (.push msg) (.size (q.length + msg.length : Nat)) (q ++ msg)
  | pop {q : List UInt8} {n : Nat} (h : n ≤ q.length) :
    QueueStep q (.pop n) (.popped (some (q.take n)) (q.length - n : Nat)) (q.drop n)
  | short {q : List UInt8} {n : Nat} (h : q.length < n) :
    QueueStep q (.pop n) (.popped none q.length) q
  | line {q sep : List UInt8} {i : Nat} (h : FirstAt sep q i) :
    QueueStep q (.readline false sep) (.line (some (q.take i))) (q.drop (i + sep.length))
  | noLine {q sep : List UInt8} (h : ¬ sep <:+: q) :
    QueueStep q (.readline false sep) (.line none) q
  | check (q sep : List UInt8) :
    QueueStep q (.readline true sep) (.found (decide (sep <:+: q))) q
  | readall (q : List UInt8) : QueueStep q .readall (.all q) []
  | clear (q : List UInt8) : QueueStep q .clear .cleared []

def QueueCalls [DecidableEq β] (q : β → List UInt8) (e : β × Op × Answer) (q' : β → List UInt8) :
    Prop :=
  ∃ c, QueueStep (q e.1) e.2.1 e.2.2 c ∧ q' = Function.update q e.1 c

/-! ### What the buffers hold -/

/-- A size that is more than there is stays so as an `int`, or becomes 0; a separator and the bytes
of the buffer are not too long for an `int`. -/
def SocketBuffer.Fits (sb : SocketBuffer) : Op → Prop
  | .push msg => sb.size + msg.length ≤ INT_MAX
  | .pop n => (n : Int) ≤ sb.size ∨ sb.size < int32 n ∨ int32 n = 0
  | .readline _ sep => sb.head = none ∨ sep.length ≤ INT_MAX
  | _ => True

instance (sb : SocketBuffer) : (op : Op) → Decidable (sb.Fits op)
  | .push _ => Int.decLe ..
  | .pop _ => instDecidableOr
  | .readline .. => instDecidableOr
  | .readall => .isTrue trivial
  | .clear => .isTrue trivial

def State.first (s : State β) : Option β → Option Nat
  | none => s.pool.free
  | some b => (s.buffer b).head

/-- Each node of the pool is in one buffer or in the free list. -/
structure State.Shares (s : State β) (list : Option β → List Nat) : Prop where
  lists : Lists s.pool.next s.first (fun i => i < s.pool.top) list
  tail_eq : ∀ b, (s.buffer b).tail = (list (some b)).getLast?

/-- The bytes of the buffers with the nodes `list` are those of the queues. -/
def State.Bytes (s : State β) (list : Option β → List Nat) (q : β → List UInt8) : Prop :=
  ∀ b, ((s.buffer b).view s.pool (list (some b))).Sound ∧
    ((s.buffer b).view s.pool (list (some b))).unread = q b

/-- Each node is in one place, the bytes of the buffers are those of the queues, and their sizes are
the numbers of these bytes. -/
def State.Holds (s : State β) (q : β → List UInt8) : Prop :=
  ∃ list, s.Shares list ∧ s.Bytes list q

variable {s t : State β} {list : Option β → List Nat} {b c : β} {q : β → List UInt8}

theorem State.Shares.linked (h : s.Shares list) (b : β) :
    Linked s.pool (s.buffer b) (list (some b)) (list none) where
  chain := h.lists.chain (some b)
  tail_eq := h.tail_eq b
  free_chain := h.lists.chain none
  disjoint := h.lists.disjoint nofun

theorem State.Shares.length_le (h : s.Shares list) (o : Option β) :
    (list o).length ≤ s.pool.top := by
  have hsub : list o ⊆ List.range s.pool.top := fun i hi =>
    List.mem_range.mpr (h.lists.mem_used o i hi)
  have hle := (List.subperm_of_subset (h.lists.chain o).nodup hsub).length_le
  rwa [List.length_range] at hle

theorem State.holds_start : (State.start : State β).Holds fun _ => [] := by
  refine ⟨fun _ => [], ⟨⟨fun o => ?_, fun _ _ hi => absurd hi List.not_mem_nil, ?_⟩, fun _ => rfl⟩,
    fun _ => ⟨sound_new, rfl⟩⟩
  · cases o with
    | none | some b => exact .nil
  · intro i hi
    exact absurd hi (Nat.not_lt_zero i)

section Holds

variable [DecidableEq β] {v : Socket.SocketBuffer} {p' : Pool} {sb' : SocketBuffer} {op : Op}
  {r : Answer} {l free : List Nat}

theorem State.Shares.holds_update (h : s.Shares list) (hq : s.Bytes list q)
    (hlinked : Linked p' sb' l free) (htop : p'.top = s.pool.top)
    (hmem : ∀ i, i ∈ l ∨ i ∈ free ↔ i ∈ list (some b) ∨ i ∈ list none)
    (hnode : ∀ j, j ∉ list (some b) → j ∉ list none → p'.node j = s.pool.node j)
    (hv : (sb'.view p' l).Sound) :
    State.Holds ⟨p', Function.update s.buffer b sb'⟩
      (Function.update q b (sb'.view p' l).unread) := by
  have hself : Function.update s.buffer b sb' b = sb' := Function.update_self ..
  have hother : ∀ c, c ≠ b → Function.update s.buffer b sb' c = s.buffer c := fun c hc =>
    Function.update_of_ne hc ..
  have hlists : Lists p'.next (State.first ⟨p', Function.update s.buffer b sb'⟩)
      (fun i => i < s.pool.top)
      (Function.update (Function.update list (some b) l) none free) := by
    apply h.lists.move (Option.some_ne_none b) _ hlinked.free_chain hmem hlinked.disjoint
    · rintro (_ | c) hc hn
      · exact absurd rfl hn
      · exact congrArg SocketBuffer.head (hother c fun heq => hc (congrArg some heq))
    · intro j hjb hjn
      exact congrArg BufferNode.next (hnode j hjb hjn)
    · change Chain p'.next (Function.update s.buffer b sb' b).head l
      rw [hself]
      exact hlinked.chain
  have hlist : ∀ c, Function.update (Function.update list (some b) l) none free (some c) =
      if c = b then l else list (some c) := by
    intro c
    rw [Function.update_of_ne (Option.some_ne_none c)]
    by_cases hc : c = b
    · rw [if_pos hc, hc, Function.update_self]
    · rw [if_neg hc, Function.update_of_ne fun heq => hc (Option.some_injective _ heq)]
  refine ⟨_, ⟨htop ▸ hlists, fun c => ?_⟩, fun c => ?_⟩
  · rw [hlist]
    change (Function.update s.buffer b sb' c).tail = _
    by_cases hc : c = b
    · rw [if_pos hc, hc, hself]
      exact hlinked.tail_eq
    · rw [if_neg hc, hother c hc]
      exact h.tail_eq c
  · rw [hlist]
    change ((Function.update s.buffer b sb' c).view p' _).Sound ∧
      ((Function.update s.buffer b sb' c).view p' _).unread = _
    by_cases hc : c = b
    · rw [if_pos hc, hc, hself, Function.update_self]
      exact ⟨hv, rfl⟩
    · have hview : (s.buffer c).view p' (list (some c)) =
          (s.buffer c).view s.pool (list (some c)) := by
        rw [SocketBuffer.view, SocketBuffer.view, msgs, msgs]
        congr 1
        apply List.map_congr_left
        intro j hj
        have hjb : j ∉ list (some b) := fun hmem =>
          hc (Option.some_injective _ (h.lists.eq_of_mem hj hmem))
        have hjn : j ∉ list none := fun hmem =>
          Option.some_ne_none c (h.lists.eq_of_mem hj hmem)
        rw [hnode j hjb hjn]
      rw [if_neg hc, hother c hc, hview, Function.update_of_ne hc]
      exact hq c

theorem State.Shares.holds_leaves (h : s.Shares list) (hq : s.Bytes list q)
    (hleaves : Leaves s.pool (list (some b)) (list none) v p' sb') (hv : v.Sound) :
    State.Holds ⟨p', Function.update s.buffer b sb'⟩ (Function.update q b v.unread) := by
  obtain ⟨l₁, l₂, happ, hret, rfl⟩ := hleaves
  apply h.holds_update hq hret.linked hret.top_eq _ _ hv
  · intro i
    rw [happ, List.mem_append, List.mem_append, List.mem_reverse]
    tauto
  · intro j hj _
    apply hret.frame
    intro hmem
    rw [happ] at hj
    exact hj (List.mem_append_left _ hmem)

theorem freeNode_none {p : Pool} (hfree : p.free = none) :
    ∃ tsz sz, 0 < sz ∧ freeNode p = (lnewpool p tsz sz, p.top) := by
  rw [freeNode, hfree]
  refine ⟨_, _, ?_, rfl⟩
  have hpos : ∀ n, 0 < 8 <<< n := fun n => by
    rw [Nat.shiftLeft_eq]
    exact Nat.mul_pos (by decide) (Nat.two_pow_pos n)
  split_ifs
  all_goals exact hpos _

theorem lnewpool_chain (p : Pool) (tsz : Nat) {sz : Nat} (hpos : 0 < sz) :
    Chain (lnewpool p tsz sz).next (some p.top) (List.range' p.top sz) := by
  have hrow := @chain_range' (lnewpool p tsz sz).next p.top sz
  rw [if_pos hpos] at hrow
  apply hrow
  intro i hle hlt
  change (if p.top ≤ i ∧ i < p.top + sz then _ else _ : BufferNode).next = _
  rw [if_pos ⟨hle, hlt⟩]

theorem State.Shares.lnewpool (h : s.Shares list) (hq : s.Bytes list q) (hempty : list none = [])
    (tsz : Nat) {sz : Nat} (hpos : 0 < sz) :
    State.Shares ⟨lnewpool s.pool tsz sz, s.buffer⟩
        (Function.update list none (List.range' s.pool.top sz)) ∧
      State.Bytes ⟨Nodes.lnewpool s.pool tsz sz, s.buffer⟩
        (Function.update list none (List.range' s.pool.top sz)) q := by
  have hnode : ∀ j, j < s.pool.top → (Nodes.lnewpool s.pool tsz sz).node j = s.pool.node j := by
    intro j hj
    exact if_neg (by omega)
  refine ⟨⟨?_, fun c => ?_⟩, fun c => ?_⟩
  · apply h.lists.grow hempty (lnewpool_chain s.pool tsz hpos)
    · intro i hi hlt
      have := (List.mem_range'_1.mp hi).1
      omega
    · intro i
      rw [List.mem_range'_1]
      change i < s.pool.top + sz ↔ _
      omega
    · rintro (_ | c) hne
      · exact absurd rfl hne
      · rfl
    · intro j hj
      exact congrArg BufferNode.next (hnode j hj)
  · rw [Function.update_of_ne (Option.some_ne_none c)]
    exact h.tail_eq c
  · rw [Function.update_of_ne (Option.some_ne_none c)]
    have hmsgs : msgs (Nodes.lnewpool s.pool tsz sz) (list (some c)) =
        msgs s.pool (list (some c)) := by
      apply List.map_congr_left
      intro j hj
      rw [hnode j (h.lists.mem_used _ j hj)]
    rw [SocketBuffer.view, hmsgs]
    exact hq c

theorem State.Shares.exists_free (h : s.Shares list) (hq : s.Bytes list q) :
    ∃ i free list', State.Shares ⟨(freeNode s.pool).1, s.buffer⟩ list' ∧
      State.Bytes ⟨(freeNode s.pool).1, s.buffer⟩ list' q ∧ list' none = i :: free ∧
      (freeNode s.pool).2 = i := by
  have hchain : Chain s.pool.next s.pool.free (list none) := h.lists.chain none
  cases hfree : s.pool.free with
  | some i =>
    have heq : freeNode s.pool = (s.pool, i) := by
      rw [freeNode, hfree]
    rw [hfree] at hchain
    generalize hlist : list none = free at hchain
    cases hchain with
    | cons => exact ⟨i, _, list, heq ▸ h, heq ▸ hq, hlist, by rw [heq]⟩
  | none =>
    have hempty : list none = [] := by
      rw [hfree] at hchain
      generalize list none = free at hchain ⊢
      cases hchain
      rfl
    obtain ⟨tsz, sz, hpos, heq⟩ := freeNode_none hfree
    rw [heq]
    obtain ⟨hshares, hbytes⟩ := h.lnewpool hq hempty tsz hpos
    refine ⟨s.pool.top, List.range' (s.pool.top + 1) (sz - 1), _, hshares, hbytes, ?_, rfl⟩
    obtain ⟨n, rfl⟩ := Nat.exists_eq_succ_of_ne_zero hpos.ne'
    rw [Function.update_self]
    rfl

theorem State.Shares.step_leaves (h : s.Shares list) (hq : s.Bytes list q)
    (hcall : call s.pool (s.buffer b) op = .ok (r, p', sb'))
    (hleaves : Leaves s.pool (list (some b)) (list none) v p' sb') (hv : v.Sound)
    (hstep : QueueStep (q b) op r v.unread) :
    ∃ r t c, s.step b op = .ok (r, t) ∧ QueueStep (q b) op r c ∧
      t.Holds (Function.update q b c) := by
  refine ⟨r, _, v.unread, ?_, hstep, h.holds_leaves hq hleaves hv⟩
  rw [State.step, hcall]
  rfl

theorem State.Holds.push (h : s.Holds q) {msg : List UInt8} (hmsg : msg ≠ [])
    (hfits : (s.buffer b).size + msg.length ≤ INT_MAX) :
    ∃ r t c, s.step b (.push msg) = .ok (r, t) ∧ QueueStep (q b) (.push msg) r c ∧
      t.Holds (Function.update q b c) := by
  obtain ⟨list, hshares, hq⟩ := h
  obtain ⟨i, free, list', hshares', hq', hlist, hi⟩ := hshares.exists_free hq
  obtain ⟨hsound, hunread⟩ := hq' b
  have hlinked := hshares'.linked b
  rw [hlist] at hlinked
  have hfree : freeNode s.pool = ((freeNode s.pool).1, i) := Prod.ext rfl hi
  obtain ⟨p', sb', hpush, hlinked', hnode, hview, htop⟩ :=
    lpushbuffer_refines msg hfree hlinked
  have hmax : ((s.buffer b).view (freeNode s.pool).1 (list' (some b))).unread.length +
      msg.length ≤ INT_MAX := by
    have hsize := hsound.size_eq
    change (s.buffer b).size = _ at hsize
    rw [hsize] at hfits
    exact_mod_cast hfits
  obtain ⟨hsize, hunread', hsound'⟩ := lpushbuffer_spec hsound hmsg hmax
  rw [← hview, hunread] at hunread'
  rw [hsize, hunread] at hpush
  rw [← hview] at hsound'
  refine ⟨.size ((q b).length + msg.length : Nat), ⟨p', Function.update s.buffer b sb'⟩, _, ?_, ?_,
    hshares'.holds_update hq' hlinked' htop ?_ ?_ hsound'⟩
  · change (Except.map _ (bind (lpushbuffer s.pool (s.buffer b) msg) _) : Except _ _) = _
    rw [hpush]
    rfl
  · rw [hunread']
    exact .push ..
  · intro j
    rw [hlist, List.mem_append, List.mem_singleton, List.mem_cons]
    tauto
  · intro j hj hn
    apply hnode j hj
    rintro rfl
    rw [hlist] at hn
    exact hn List.mem_cons_self

theorem State.Holds.pop (h : s.Holds q) {n : Nat} (hn : 0 < n)
    (hfits : (s.buffer b).Fits (.pop n)) :
    ∃ r t c, s.step b (.pop n) = .ok (r, t) ∧ QueueStep (q b) (.pop n) r c ∧
      t.Holds (Function.update q b c) := by
  obtain ⟨list, hshares, hq⟩ := h
  obtain ⟨hsound, hunread⟩ := hq b
  have hlinked := hshares.linked b
  have hlen := hshares.length_le (some b)
  have hsize := hsound.size_eq
  rw [hunread] at hsize
  change (s.buffer b).size = _ at hsize
  by_cases hle : n ≤ (q b).length
  · obtain ⟨v, hpop, hdrop, hv⟩ := lpopbuffer_of_le hsound hn (hunread ▸ hle)
    obtain ⟨p', sb', hrun, hleaves⟩ := lpopbuffer_refines hlinked hlen hpop
    have hcall : call s.pool (s.buffer b) (.pop n) =
        .ok (.popped (some ((q b).take n)) v.size, p', sb') := by
      rw [call, hrun, hunread]
      rfl
    apply hshares.step_leaves hq hcall hleaves hv
    rw [hv.size_eq, hdrop, hunread, List.length_drop]
    exact .pop hle
  · have hlt : (q b).length < n := Nat.lt_of_not_le hle
    have hpop : Socket.lpopbuffer ((s.buffer b).view s.pool (list (some b))) n =
        .ok (none, (s.buffer b).view s.pool (list (some b))) := by
      have hcut : (s.buffer b).size < int32 n ∨ int32 n = 0 := Or.resolve_left hfits (by omega)
      rw [Socket.lpopbuffer]
      exact if_pos hcut
    obtain ⟨p', sb', hrun, hleaves⟩ := lpopbuffer_refines hlinked hlen hpop
    have hcall : call s.pool (s.buffer b) (.pop n) =
        .ok (.popped none (q b).length, p', sb') := by
      rw [call, hrun, ← hsize]
      rfl
    apply hshares.step_leaves hq hcall hleaves hsound
    rw [hunread]
    exact .short hlt

theorem State.Holds.readline (h : s.Holds q) {check : Bool} {sep : List UInt8} (hsep : sep ≠ [])
    (hfits : (s.buffer b).Fits (.readline check sep)) :
    ∃ r t c, s.step b (.readline check sep) = .ok (r, t) ∧
      QueueStep (q b) (.readline check sep) r c ∧ t.Holds (Function.update q b c) := by
  obtain ⟨list, hshares, hq⟩ := h
  obtain ⟨hsound, hunread⟩ := hq b
  have hlinked := hshares.linked b
  have hlen := hshares.length_le (some b)
  rcases hfits with hempty | hmax
  · -- an empty buffer has no line, however long the separator is
    have hnodes : list (some b) = [] := by
      have hstart := hlinked.head_eq
      rw [hempty] at hstart
      exact List.head?_eq_none_iff.mp hstart.symm
    have hqb : q b = [] := by
      rw [← hunread, hnodes]
      exact List.drop_nil
    have hno : ¬ sep <:+: q b := by
      rw [hqb, List.infix_nil]
      exact hsep
    have hpos : sepPosition s.pool (s.buffer b) sep = .ok none := by
      rw [sepPosition, hempty]
    cases check with
    | true =>
      have hcall : call s.pool (s.buffer b) (.readline true sep) =
          .ok (.found (decide (sep <:+: q b)), s.pool, s.buffer b) := by
        rw [call, lreadlineCheck, hpos, decide_eq_false hno]
        rfl
      apply hshares.step_leaves hq hcall hlinked.leaves_self hsound
      rw [hunread]
      exact .check ..
    | false =>
      have hcall : call s.pool (s.buffer b) (.readline false sep) =
          .ok (.line none, s.pool, s.buffer b) := by
        rw [call, lreadline, hpos]
        rfl
      apply hshares.step_leaves hq hcall hlinked.leaves_self hsound
      rw [hunread]
      exact .noLine hno
  · cases check with
    | true =>
      have hline := lreadlineCheck_refines hlinked hlen (lreadlineCheck_spec hsound hsep hmax)
      rw [hunread] at hline
      have hcall : call s.pool (s.buffer b) (.readline true sep) =
          .ok (.found (decide (sep <:+: q b)), s.pool, s.buffer b) := by
        rw [call, hline]
        rfl
      apply hshares.step_leaves hq hcall hlinked.leaves_self hsound
      rw [hunread]
      exact .check ..
    | false =>
      by_cases hin : sep <:+: q b
      · obtain ⟨i, v, hi, hline, hrest, hv⟩ := lreadline_some hsound hsep hmax (hunread ▸ hin)
        obtain ⟨p', sb', hrun, hleaves⟩ := lreadline_refines hlinked hlen hline
        rw [hunread] at hi hrest hrun
        have hcall : call s.pool (s.buffer b) (.readline false sep) =
            .ok (.line (some ((q b).take i)), p', sb') := by
          rw [call, hrun]
          rfl
        apply hshares.step_leaves hq hcall hleaves hv
        rw [hrest]
        exact .line hi
      · have hline := lreadline_none hsound hsep hmax (hunread ▸ hin)
        obtain ⟨p', sb', hrun, hleaves⟩ := lreadline_refines hlinked hlen hline
        have hcall : call s.pool (s.buffer b) (.readline false sep) =
            .ok (.line none, p', sb') := by
          rw [call, hrun]
          rfl
        apply hshares.step_leaves hq hcall hleaves hsound
        rw [hunread]
        exact .noLine hin

theorem State.Holds.step (h : s.Holds q) (hvalid : op.Valid) (hfits : (s.buffer b).Fits op) :
    ∃ r t c, s.step b op = .ok (r, t) ∧ QueueStep (q b) op r c ∧
      t.Holds (Function.update q b c) := by
  cases op with
  | push msg => exact h.push hvalid hfits
  | pop n => exact h.pop hvalid hfits
  | readline check sep => exact h.readline hvalid hfits
  | readall =>
    obtain ⟨list, hshares, hq⟩ := h
    obtain ⟨hsound, hunread⟩ := hq b
    obtain ⟨p', sb', hrun, hleaves⟩ :=
      lreadall_refines (hshares.linked b) (hshares.length_le (some b))
    rw [lreadall_spec hsound, hunread] at hrun
    rw [lreadall_spec hsound] at hleaves
    have hcall : call s.pool (s.buffer b) .readall = .ok (.all (q b), p', sb') := by
      rw [call, hrun]
      rfl
    apply hshares.step_leaves hq hcall hleaves (lclearbuffer_sound hsound)
    rw [lclearbuffer_unread]
    exact .readall _
  | clear =>
    obtain ⟨list, hshares, hq⟩ := h
    obtain ⟨p', sb', hrun, hleaves⟩ :=
      lclearbuffer_refines (hshares.linked b) (hshares.length_le (some b))
    have hcall : call s.pool (s.buffer b) .clear = .ok (.cleared, p', sb') := by
      rw [call, hrun]
      rfl
    apply hshares.step_leaves hq hcall hleaves (lclearbuffer_sound (hq b).1)
    rw [lclearbuffer_unread]
    exact .clear _

/-- The calls that are not too large for the `int`s of the buffer. -/
def Fitting (s : State β) (e : β × Op × Answer) : Prop := e.2.1.Valid ∧ (s.buffer e.1).Fits e.2.1

/-- The buffers are queues of bytes: after any calls that are not too large, each answer was that of
the queue, the sizes are the numbers of bytes, each node is in one buffer or free, and the next such
call returns what its queue gives. -/
theorem buffers_are_queues {es : List (β × Op × Answer)}
    (h : Run (Guarded Fitting Calls) State.start es s) :
    ∃ q, Run QueueCalls (fun _ => []) es q ∧ s.Holds q ∧
      ∀ b op, op.Valid → (s.buffer b).Fits op →
        ∃ r t c, s.step b op = .ok (r, t) ∧ QueueStep (q b) op r c ∧
          t.Holds (Function.update q b c) := by
  induction h with
  | nil => exact ⟨_, .nil _, State.holds_start, fun b op => State.holds_start.step⟩
  | @snoc s t es e _ hstep ih =>
    obtain ⟨q, hrun, hq, hnext⟩ := ih
    obtain ⟨⟨hvalid, hfits⟩, hcalls⟩ := hstep
    obtain ⟨r, t', c, hok, hqueue, ht⟩ := hnext _ _ hvalid hfits
    obtain ⟨hr, rfl⟩ := Prod.ext_iff.mp (Except.ok.inj (hok.symm.trans hcalls))
    change r = e.2.2 at hr
    subst hr
    exact ⟨_, hrun.snoc ⟨c, hqueue, rfl⟩, ht, fun b op => ht.step⟩

end Holds

/-- A separator that the bounds of two blocks cut. -/
theorem buffers_are_queues_cut : ∃ (s : State Bool) (q : Bool → List UInt8),
    Run (Guarded Fitting Calls) State.start
      [(true, .push [97, 13], .size 2), (false, .push [98], .size 1), (true, .push [10], .size 3),
        (true, .readline false [13, 10], .line (some [97]))] s ∧
      Run QueueCalls (fun _ => [])
      [(true, .push [97, 13], .size 2), (false, .push [98], .size 1), (true, .push [10], .size 3),
        (true, .readline false [13, 10], .line (some [97]))] q ∧ s.Holds q := by
  have h : Run (Guarded Fitting Calls) (State.start : State Bool)
      [(true, .push [97, 13], .size 2), (false, .push [98], .size 1), (true, .push [10], .size 3),
        (true, .readline false [13, 10], .line (some [97]))] _ :=
    .cons ⟨⟨List.cons_ne_nil _ _, by decide⟩, rfl⟩ <|
      .cons ⟨⟨List.cons_ne_nil _ _, by decide⟩, rfl⟩ <|
      .cons ⟨⟨List.cons_ne_nil _ _, by decide⟩, rfl⟩ <|
      .cons ⟨⟨List.cons_ne_nil _ _, Or.inr (by decide)⟩, rfl⟩ (.nil _)
  obtain ⟨q, hrun, hq, -⟩ := buffers_are_queues h
  exact ⟨_, q, h, hrun, hq⟩

/-- One byte is there, and a size that is cut to 1 pops it. -/
theorem pop_cut : ∃ s : State Unit,
    Run (Guarded (fun _ e => e.2.1.Valid) Calls) State.start
      [((), .push [65], .size 1), ((), .pop (2 ^ 32 + 1), .popped (some [65]) 0)] s ∧
    ¬ ∃ q, Run QueueCalls (fun _ : Unit => [])
      [((), .push [65], .size 1), ((), .pop (2 ^ 32 + 1), .popped (some [65]) 0)] q := by
  refine ⟨_, .cons ⟨List.cons_ne_nil _ _, rfl⟩ (.cons ⟨Nat.succ_pos _, rfl⟩ (.nil _)), ?_⟩
  rintro ⟨q, hrun⟩
  obtain ⟨q₁, ⟨c, hpush, rfl⟩, hrest⟩ := hrun.of_cons
  obtain ⟨q₂, ⟨c', hpop, -⟩, -⟩ := hrest.of_cons
  cases hpush
  rw [Function.update_self] at hpop
  cases hpop with
  | pop hle => exact absurd hle (by decide)

end XsServer.Socket.Nodes
