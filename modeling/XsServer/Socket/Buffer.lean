import XsServer.Lib.Occurs
import XsServer.ServiceGate.Buffer

/-! The buffer of a socket, from `lua-socket.c`: the messages that have come and are not read to
their end, and how much of the first one is read. -/

namespace XsServer.Socket

open XsServer.Lib XsServer.ServiceGate

/-- What ends a call: an assertion of the Lua code or of the C code, or an access through a null
pointer or of a negative length. -/
inductive Fault
  | assertion
  | memory
  deriving DecidableEq

/-- `struct socket_buffer`; the nodes from `head` to `tail` are a list. -/
structure SocketBuffer where
  size : Int
  offset : Nat
  nodes : List (List UInt8)
  deriving DecidableEq

def lnewbuffer : SocketBuffer := ⟨0, 0, []⟩

/-- The size after the push, and the buffer. -/
def lpushbuffer (sb : SocketBuffer) (msg : List UInt8) : Int × SocketBuffer :=
  let size := int32 (sb.size + msg.length)
  (size, { sb with size, nodes := sb.nodes ++ [msg] })

/-- The loop of `pop_lstring` over the nodes from `current` on: what is added to the string, and the
offset and the nodes that are left. -/
def popLoop : List (List UInt8) → Nat → Nat → Nat →
    Except Fault (List UInt8 × Nat × List (List UInt8))
  | [], _, _, _ => .error .assertion
  | current :: next, offset, sz, skip =>
    let bytes := current.length - offset
    if sz ≤ bytes then
      let added := if skip < sz then (current.drop offset).take (sz - skip) else []
      if bytes = sz then .ok (added, 0, next) else .ok (added, offset + sz, current :: next)
    else do
      let realSz := sz - skip
      let added := (current.drop offset).take (if realSz < bytes then realSz else bytes)
      let (b, offset', nodes) ← popLoop next 0 (sz - bytes) skip
      .ok (added ++ b, offset', nodes)

def popLstring (sb : SocketBuffer) (sz skip : Nat) : Except Fault (List UInt8 × SocketBuffer) :=
  match sb.nodes with
  | [] => .error .memory
  | current :: next =>
    if sz < current.length - sb.offset then
      .ok ((current.drop sb.offset).take (sz - skip), { sb with offset := sb.offset + sz })
    else if sz = current.length - sb.offset then
      .ok ((current.drop sb.offset).take (sz - skip), { sb with offset := 0, nodes := next })
    else do
      let (b, offset, nodes) ← popLoop (current :: next) sb.offset sz skip
      .ok (b, { sb with offset, nodes })

/-- The first `n` bytes, or nil when they are not there; `luaL_checkinteger` is cut to an `int`. -/
def lpopbuffer (sb : SocketBuffer) (n : Nat) : Except Fault (Option (List UInt8) × SocketBuffer) :=
  let sz := int32 n
  if sb.size < sz ∨ sz = 0 then .ok (none, sb)
  else if sz < 0 then .error .memory
  else do
    let (s, sb) ← popLstring sb sz.toNat 0
    .ok (some s, { sb with size := sb.size - sz })

def lclearbuffer (sb : SocketBuffer) : SocketBuffer :=
  { sb with size := 0, offset := if sb.nodes = [] then sb.offset else 0, nodes := [] }

/-- The loop of `lreadall`; returning a node sets the offset to 0. -/
def readallLoop : List (List UInt8) → Nat → List UInt8
  | [], _ => []
  | current :: next, offset => current.drop offset ++ readallLoop next 0

def lreadall (sb : SocketBuffer) : List UInt8 × SocketBuffer :=
  (readallLoop sb.nodes sb.offset, lclearbuffer sb)

/-- Whether the separator stands at `pos` of the first node, going on in the next ones. -/
def checkSep : List (List UInt8) → Nat → List UInt8 → Except Fault Bool
  | [], _, _ => .error .memory
  | node :: next, pos, sep =>
    let sz := node.length - pos
    if sep.length ≤ sz then .ok (decide ((node.drop pos).take sep.length = sep))
    else if 0 < sz ∧ node.drop pos ≠ sep.take sz then .ok false
    else checkSep next 0 (sep.drop sz)

/-- The loop of `lreadline` from `i` on, with the number of rounds that its bound leaves. -/
def findSep (sep : List UInt8) : Nat → List (List UInt8) → Nat → Nat → Except Fault (Option Nat)
  | 0, _, _, _ => .ok none
  | _ + 1, [], _, _ => .error .memory
  | k + 1, current :: next, pos, i => do
    if ← checkSep (current :: next) pos sep then .ok (some i)
    else if pos + 1 = current.length then
      if next = [] then .ok none else findSep sep k next 0 (i + 1)
    else findSep sep k (current :: next) (pos + 1) (i + 1)

/-- The number of bytes before the separator; its length is cut to an `int`. -/
def sepPosition (sb : SocketBuffer) (sep : List UInt8) : Except Fault (Option Nat) :=
  let seplen := int32 sep.length
  let rounds := (int32 (sb.size - seplen) + 1).toNat
  if sb.nodes = [] then .ok none
  else if seplen < 0 ∧ 0 < rounds then .error .memory
  else findSep (sep.take seplen.toNat) rounds sb.nodes sb.offset 0

/-- `lreadline` without a pool, which only checks. -/
def lreadlineCheck (sb : SocketBuffer) (sep : List UInt8) : Except Fault Bool := do
  .ok (← sepPosition sb sep).isSome

def lreadline (sb : SocketBuffer) (sep : List UInt8) :
    Except Fault (Option (List UInt8) × SocketBuffer) := do
  match ← sepPosition sb sep with
  | none => .ok (none, sb)
  | some i =>
    let seplen := (int32 sep.length).toNat
    let (line, sb) ← popLstring sb (i + seplen) seplen
    .ok (some line, { sb with size := sb.size - (i + seplen : Nat) })

/-! ### The bytes of a buffer -/

/-- The bytes that have come and are not read. -/
def SocketBuffer.unread (sb : SocketBuffer) : List UInt8 := sb.nodes.flatten.drop sb.offset

/-- No node is empty, and the offset lies inside the first one. -/
structure Shape (nodes : List (List UInt8)) (offset : Nat) : Prop where
  nonempty : ∀ m ∈ nodes, m ≠ []
  offset_lt : ∀ m ∈ nodes.head?, offset < m.length
  offset_nil : nodes = [] → offset = 0

structure SocketBuffer.Sound (sb : SocketBuffer) : Prop where
  shape : Shape sb.nodes sb.offset
  size_eq : sb.size = sb.unread.length
  le_max : sb.unread.length ≤ INT_MAX

/-- The size of a read that is the same as an `int`, or that no buffer can hold. -/
def IntSize (n : Nat) : Prop := n ≤ INT_MAX ∨ int32 n = 0

theorem sound_new : lnewbuffer.Sound where
  shape :=
    { nonempty _ h := (List.not_mem_nil h).elim
      offset_lt m h := by cases h
      offset_nil _ := rfl }
  size_eq := rfl
  le_max := Nat.zero_le _

variable {current sep : List UInt8} {next nodes : List (List UInt8)} {offset pos sz skip : Nat}

theorem Shape.tail (h : Shape (current :: next) offset) : Shape next 0 where
  nonempty m hm := h.nonempty m (List.mem_cons_of_mem _ hm)
  offset_lt m hm := by
    apply List.length_pos_iff.mpr
    exact h.nonempty m (List.mem_cons_of_mem _ (List.mem_of_mem_head? hm))
  offset_nil _ := rfl

theorem Shape.offset_lt_head (h : Shape (current :: next) offset) : offset < current.length :=
  h.offset_lt current rfl

theorem Shape.advance (h : Shape (current :: next) offset) (hlt : pos < current.length) :
    Shape (current :: next) pos where
  nonempty := h.nonempty
  offset_lt m hm := by
    cases hm
    exact hlt
  offset_nil h := by cases h

theorem flatten_cons_drop (h : offset ≤ current.length) :
    (current :: next).flatten.drop offset = current.drop offset ++ next.flatten := by
  rw [List.flatten_cons, List.drop_append_of_le_length h]

theorem popLoop_spec (h : Shape nodes offset) (skip : Nat) (hsz : 0 < sz)
    (hle : sz ≤ (nodes.flatten.drop offset).length) :
    ∃ offset' nodes', popLoop nodes offset sz skip =
        .ok ((nodes.flatten.drop offset).take (sz - skip), offset', nodes') ∧
      nodes'.flatten.drop offset' = (nodes.flatten.drop offset).drop sz ∧ Shape nodes' offset' := by
  induction nodes generalizing offset sz with
  | nil => simp at hle; omega
  | cons current next ih =>
    have hlt := h.offset_lt_head
    have hlen : (current.drop offset).length = current.length - offset := List.length_drop
    rw [flatten_cons_drop hlt.le] at hle ⊢
    rw [popLoop]
    by_cases hin : sz ≤ current.length - offset
    · have hadded : (if skip < sz then (current.drop offset).take (sz - skip) else []) =
          (current.drop offset ++ next.flatten).take (sz - skip) := by
        rw [List.take_append_of_le_length (by omega)]
        split
        · rfl
        · rw [show sz - skip = 0 by omega, List.take_zero]
      simp only [if_pos hin, hadded]
      by_cases heq : current.length - offset = sz
      · refine ⟨0, next, by rw [if_pos heq], ?_, h.tail⟩
        rw [List.drop_append_of_le_length (by omega), ← heq, ← hlen, List.drop_length,
          List.nil_append, List.drop_zero]
      · refine ⟨offset + sz, current :: next, by rw [if_neg heq], ?_, h.advance (by omega)⟩
        rw [flatten_cons_drop (by omega), List.drop_append_of_le_length (by omega), List.drop_drop]
    · simp only [if_neg hin]
      have hrest : sz - (current.length - offset) ≤ (next.flatten.drop 0).length := by
        rw [List.length_append] at hle
        rw [List.drop_zero]
        omega
      obtain ⟨offset', nodes', hpop, hdrop, hshape⟩ := ih h.tail (by omega) hrest
      refine ⟨offset', nodes', ?_, ?_, hshape⟩
      · have hadded : (current.drop offset).take
            (if sz - skip < current.length - offset then sz - skip else current.length - offset) =
            (current.drop offset).take (sz - skip) := by
          split
          · rfl
          · rw [List.take_of_length_le (by omega), List.take_of_length_le (by omega)]
        rw [hpop, hadded, List.drop_zero, List.take_append, hlen]
        rw [show sz - skip - (current.length - offset) = sz - (current.length - offset) - skip by
          omega]
        rfl
      · have hnone : (current.drop offset).drop sz = [] := List.drop_eq_nil_of_le (by omega)
        rw [hdrop, List.drop_zero, List.drop_append, hnone, hlen, List.nil_append]

theorem popLstring_eq {sb : SocketBuffer} (h : sb.nodes ≠ []) (hskip : skip ≤ sz) :
    popLstring sb sz skip = (popLoop sb.nodes sb.offset sz skip).map fun r =>
      (r.1, { sb with offset := r.2.1, nodes := r.2.2 }) := by
  obtain ⟨size, offset, nodes⟩ := sb
  cases nodes with
  | nil => exact absurd rfl h
  | cons current next =>
    have hadded : (if skip < sz then (current.drop offset).take (sz - skip) else []) =
        (current.drop offset).take (sz - skip) := by
      split
      · rfl
      · rw [show sz - skip = 0 by omega, List.take_zero]
    simp only [popLstring]
    by_cases hlt : sz < current.length - offset
    · simp only [if_pos hlt, popLoop, if_pos hlt.le, if_neg hlt.ne', hadded]
      rfl
    · by_cases heq : sz = current.length - offset
      · simp only [if_neg hlt, if_pos heq, popLoop, if_pos heq.le, if_pos heq.symm, hadded]
        rfl
      · simp only [if_neg hlt, if_neg heq]
        cases popLoop (current :: next) offset sz skip <;> rfl

variable {sb : SocketBuffer} {bs : List UInt8} {n : Nat}

theorem SocketBuffer.Sound.nodes_ne_nil (h : 0 < sb.unread.length) : sb.nodes ≠ [] := by
  intro hnil
  rw [SocketBuffer.unread, hnil] at h
  simp at h

theorem popLstring_spec (h : sb.Sound) (hsz : 0 < sz) (hskip : skip ≤ sz)
    (hle : sz ≤ sb.unread.length) :
    ∃ sb', popLstring sb sz skip = .ok (sb.unread.take (sz - skip), sb') ∧ sb'.size = sb.size ∧
      sb'.unread = sb.unread.drop sz ∧ Shape sb'.nodes sb'.offset := by
  obtain ⟨offset', nodes', hpop, hdrop, hshape⟩ := popLoop_spec h.shape skip hsz hle
  refine ⟨{ sb with offset := offset', nodes := nodes' }, ?_, rfl, hdrop, hshape⟩
  rw [popLstring_eq (SocketBuffer.Sound.nodes_ne_nil (by omega)) hskip, hpop]
  rfl

theorem SocketBuffer.Sound.of_drop {sb' : SocketBuffer} (h : sb.Sound)
    (hshape : Shape sb'.nodes sb'.offset) (hsz : sz ≤ sb.unread.length)
    (hunread : sb'.unread = sb.unread.drop sz) (hsize : sb'.size = sb.size - sz) : sb'.Sound where
  shape := hshape
  size_eq := by
    rw [hsize, h.size_eq, hunread, List.length_drop]
    omega
  le_max := by
    have := h.le_max
    rw [hunread, List.length_drop]
    omega

theorem int32_eq_self' {z : Int} (h0 : -2 ^ 31 ≤ z) (h : z < 2 ^ 31) : int32 z = z := by
  unfold int32
  rw [Int.bmod_eq_of_le (by omega) (by omega)]

theorem int32_of_le_max (h : n ≤ INT_MAX) : int32 n = n := by
  unfold INT_MAX at h
  exact int32_eq_self (by omega) (by omega)

/-! ### The operations on the bytes -/

theorem lpopbuffer_of_le (h : sb.Sound) (h0 : 0 < n) (hle : n ≤ sb.unread.length) :
    ∃ sb', lpopbuffer sb n = .ok (some (sb.unread.take n), sb') ∧
      sb'.unread = sb.unread.drop n ∧ sb'.Sound := by
  have hint := int32_of_le_max (hle.trans h.le_max)
  obtain ⟨sb', hpop, hsize, hunread, hshape⟩ := popLstring_spec h h0 (Nat.zero_le n) hle
  have hsz := h.size_eq
  refine ⟨{ sb' with size := sb'.size - n }, ?_, hunread, ?_⟩
  · simp only [lpopbuffer, hint, Int.toNat_natCast, hpop, Nat.sub_zero]
    rw [if_neg (by omega), if_neg (by omega)]
    rfl
  · refine h.of_drop hshape hle hunread ?_
    rw [← hsize]

theorem lpopbuffer_of_lt (h : sb.Sound) (hn : IntSize n) (hlt : sb.unread.length < n) :
    lpopbuffer sb n = .ok (none, sb) := by
  have hsz := h.size_eq
  unfold lpopbuffer
  rcases hn with hn | hn
  · rw [int32_of_le_max hn]
    exact if_pos (Or.inl (by omega))
  · rw [hn]
    exact if_pos (Or.inr rfl)

theorem lpushbuffer_spec (h : sb.Sound) (hbs : bs ≠ [])
    (hmax : sb.unread.length + bs.length ≤ INT_MAX) :
    (lpushbuffer sb bs).1 = (sb.unread.length + bs.length : Nat) ∧
      (lpushbuffer sb bs).2.unread = sb.unread ++ bs ∧ (lpushbuffer sb bs).2.Sound := by
  have hlen : sb.offset ≤ sb.nodes.flatten.length := by
    cases hnodes : sb.nodes with
    | nil => rw [h.shape.offset_nil hnodes]; exact Nat.zero_le _
    | cons m next =>
      have hlt := h.shape.offset_lt m (by rw [hnodes]; rfl)
      rw [List.flatten_cons, List.length_append]
      omega
  have hunread : (sb.nodes ++ [bs]).flatten.drop sb.offset = sb.unread ++ bs := by
    rw [List.flatten_append, List.drop_append_of_le_length hlen, List.flatten_singleton]
    rfl
  have hsize : int32 (sb.size + bs.length) = (sb.unread.length + bs.length : Nat) := by
    rw [h.size_eq, ← Nat.cast_add]
    exact int32_of_le_max hmax
  refine ⟨hsize, hunread, ⟨?_, ?_, ?_⟩, ?_, ?_⟩
  · intro m hm
    rcases List.mem_append.mp hm with hm | hm
    · exact h.shape.nonempty m hm
    · rw [List.mem_singleton.mp hm]
      exact hbs
  · intro m hm
    change m ∈ (sb.nodes ++ [bs]).head? at hm
    change sb.offset < m.length
    cases hnodes : sb.nodes with
    | nil =>
      rw [hnodes] at hm
      cases hm
      rw [h.shape.offset_nil hnodes]
      exact List.length_pos_iff.mpr hbs
    | cons m' next =>
      rw [hnodes] at hm
      cases hm
      exact h.shape.offset_lt _ (by rw [hnodes]; rfl)
  · intro hnil
    simp [lpushbuffer] at hnil
  · change int32 _ = ((sb.nodes ++ [bs]).flatten.drop sb.offset).length
    rw [hsize, hunread, List.length_append]
  · change ((sb.nodes ++ [bs]).flatten.drop sb.offset).length ≤ INT_MAX
    rw [hunread, List.length_append]
    exact hmax

@[simp] theorem lclearbuffer_unread (sb : SocketBuffer) : (lclearbuffer sb).unread = [] :=
  List.drop_nil

theorem lclearbuffer_sound (h : sb.Sound) : (lclearbuffer sb).Sound where
  shape :=
    { nonempty _ h := (List.not_mem_nil h).elim
      offset_lt m h := by cases h
      offset_nil _ := by
        change (if sb.nodes = [] then sb.offset else 0) = 0
        split
        · exact h.shape.offset_nil ‹_›
        · rfl }
  size_eq := by
    rw [lclearbuffer_unread]
    rfl
  le_max := by
    rw [lclearbuffer_unread]
    exact Nat.zero_le _

theorem lclearbuffer_eq (h : sb.Sound) (hnil : sb.unread = []) : lclearbuffer sb = sb := by
  obtain ⟨size, offset, nodes⟩ := sb
  have hsize : size = 0 := by
    have := h.size_eq
    rwa [hnil] at this
  subst hsize
  cases nodes with
  | nil => rfl
  | cons m next =>
    have hlt : offset < m.length := h.shape.offset_lt_head
    have hpos := congrArg List.length hnil
    rw [SocketBuffer.unread, flatten_cons_drop hlt.le, List.length_append, List.length_drop] at hpos
    change m.length - offset + next.flatten.length = 0 at hpos
    omega

theorem readallLoop_eq (h : Shape nodes offset) :
    readallLoop nodes offset = nodes.flatten.drop offset := by
  induction nodes generalizing offset with
  | nil => exact List.drop_nil.symm
  | cons current next ih =>
    rw [readallLoop, ih h.tail, flatten_cons_drop h.offset_lt_head.le, List.drop_zero]

theorem lreadall_spec (h : sb.Sound) : lreadall sb = (sb.unread, lclearbuffer sb) := by
  rw [lreadall, readallLoop_eq h.shape]
  rfl

theorem checkSep_spec (h : Shape nodes offset) (hsep : sep ≠ [])
    (hle : sep.length ≤ (nodes.flatten.drop offset).length) :
    checkSep nodes offset sep = .ok (decide (sep <+: nodes.flatten.drop offset)) := by
  induction nodes generalizing offset sep with
  | nil => exact absurd (by simpa using hle) hsep
  | cons node next ih =>
    have hlt := h.offset_lt_head
    have hlen : (node.drop offset).length = node.length - offset := List.length_drop
    rw [flatten_cons_drop hlt.le] at hle ⊢
    rw [checkSep]
    by_cases hin : sep.length ≤ node.length - offset
    · simp only [if_pos hin]
      congr 1
      rw [decide_eq_decide, List.prefix_iff_eq_take, List.take_append_of_le_length (by omega)]
      exact eq_comm
    · simp only [if_neg hin]
      have hsplit : sep.take (node.length - offset) ++ sep.drop (node.length - offset) = sep :=
        List.take_append_drop ..
      have htake : (sep.take (node.length - offset)).length = (node.drop offset).length := by
        rw [List.length_take, hlen]
        omega
      by_cases heq : node.drop offset = sep.take (node.length - offset)
      · have hnext : (sep.drop (node.length - offset)).length ≤ (next.flatten.drop 0).length := by
          rw [List.length_append] at hle
          rw [List.length_drop, List.drop_zero]
          omega
        have hne : sep.drop (node.length - offset) ≠ [] := by
          intro hnil
          have := List.drop_eq_nil_iff.mp hnil
          omega
        rw [if_neg (fun hc => hc.2 heq), ih h.tail hne hnext, List.drop_zero]
        congr 2
        conv_rhs => rw [← hsplit, heq]
        rw [List.prefix_append_right_inj]
      · rw [if_pos ⟨by omega, heq⟩]
        congr 1
        refine (decide_eq_false fun hpre => heq ?_).symm
        rw [← hsplit] at hpre
        have hhead := (List.prefix_append _ _).trans hpre
        have := List.prefix_iff_eq_take.mp hhead
        rw [this, htake, List.take_left]

theorem findSep_spec (h : Shape nodes pos) (hsep : sep ≠ []) (k i : Nat)
    (hk : k + sep.length = (nodes.flatten.drop pos).length + 1) :
    (∃ j, FirstAt sep (nodes.flatten.drop pos) j ∧ findSep sep k nodes pos i = .ok (some (i + j))) ∨
      (¬ sep <:+: nodes.flatten.drop pos ∧ findSep sep k nodes pos i = .ok none) := by
  induction k generalizing nodes pos i with
  | zero =>
    refine Or.inr ⟨fun hin => ?_, rfl⟩
    have := hin.length_le
    omega
  | succ k ih =>
    cases nodes with
    | nil =>
      have := List.length_pos_iff.mpr hsep
      simp at hk
      omega
    | cons current next =>
      have hlt := h.offset_lt_head
      have hcheck := checkSep_spec h hsep (by omega)
      by_cases hpre : sep <+: (current :: next).flatten.drop pos
      · refine Or.inl ⟨0, FirstAt.zero hpre, ?_⟩
        rw [findSep, hcheck, decide_eq_true hpre]
        rfl
      · have hstep : findSep sep (k + 1) (current :: next) pos i =
            if pos + 1 = current.length then
              if next = [] then .ok none else findSep sep k next 0 (i + 1)
            else findSep sep k (current :: next) (pos + 1) (i + 1) := by
          rw [findSep, hcheck, decide_eq_false hpre]
          rfl
        rw [hstep]
        by_cases hend : pos + 1 = current.length
        · have htail : ((current :: next).flatten.drop pos).drop 1 = next.flatten.drop 0 := by
            rw [List.drop_drop, hend, List.flatten_cons, List.drop_left, List.drop_zero]
          have hlen := congrArg List.length htail
          rw [List.length_drop] at hlen
          rw [if_pos hend]
          by_cases hnext : next = []
          · rw [if_pos hnext]
            refine Or.inr ⟨not_isInfix_of_drop hpre ?_, rfl⟩
            rw [htail, hnext]
            exact fun hin => hsep (List.infix_nil.mp hin)
          · rw [if_neg hnext]
            have hpos := List.length_pos_iff.mpr (h.nonempty current (List.mem_cons_self ..))
            have hgt : 0 < ((current :: next).flatten.drop pos).length := by
              rw [flatten_cons_drop hlt.le, List.length_append, List.length_drop]
              omega
            rcases ih h.tail (i + 1) (by omega) with ⟨j, hj, hfind⟩ | ⟨hno, hfind⟩
            · refine Or.inl ⟨j + 1, FirstAt.succ hpre (htail ▸ hj), ?_⟩
              rw [hfind, Nat.add_assoc, Nat.add_comm 1]
            · exact Or.inr ⟨not_isInfix_of_drop hpre (htail ▸ hno), hfind⟩
        · have htail : ((current :: next).flatten.drop pos).drop 1 =
              (current :: next).flatten.drop (pos + 1) := List.drop_drop ..
          have hlen := congrArg List.length htail
          rw [List.length_drop] at hlen
          have hgt : 0 < ((current :: next).flatten.drop pos).length := by
            rw [flatten_cons_drop hlt.le, List.length_append, List.length_drop]
            omega
          rw [if_neg hend]
          rcases @ih _ (pos + 1) (h.advance (by omega)) (i + 1) (by omega) with
            ⟨j, hj, hfind⟩ | ⟨hno, hfind⟩
          · refine Or.inl ⟨j + 1, FirstAt.succ hpre (htail ▸ hj), ?_⟩
            rw [hfind, Nat.add_assoc, Nat.add_comm 1]
          · exact Or.inr ⟨not_isInfix_of_drop hpre (htail ▸ hno), hfind⟩

theorem sepPosition_spec (h : sb.Sound) (hsep : sep ≠ []) (hmax : sep.length ≤ INT_MAX) :
    (∃ i, FirstAt sep sb.unread i ∧ sepPosition sb sep = .ok (some i)) ∨
      (¬ sep <:+: sb.unread ∧ sepPosition sb sep = .ok none) := by
  have hpos := List.length_pos_iff.mpr hsep
  have hle := h.le_max
  have hsz := h.size_eq
  unfold INT_MAX at hle hmax
  unfold sepPosition
  simp only [int32_of_le_max hmax, Int.toNat_natCast, List.take_length]
  by_cases hnodes : sb.nodes = []
  · refine Or.inr ⟨fun hin => ?_, if_pos hnodes⟩
    rw [SocketBuffer.unread, hnodes, List.flatten_nil, List.drop_nil] at hin
    exact hsep (List.infix_nil.mp hin)
  · rw [if_neg hnodes, if_neg (by omega), int32_eq_self' (by omega) (by omega)]
    by_cases hlong : sb.unread.length < sep.length
    · refine Or.inr ⟨fun hin => ?_, ?_⟩
      · have := hin.length_le
        omega
      · rw [show (sb.size - (sep.length : Int) + 1).toNat = 0 by omega]
        rfl
    · have := findSep_spec h.shape hsep (sb.size - (sep.length : Int) + 1).toNat 0 (by
        change _ = sb.unread.length + 1
        omega)
      simp only [Nat.zero_add] at this
      exact this

theorem lreadlineCheck_spec (h : sb.Sound) (hsep : sep ≠ []) (hmax : sep.length ≤ INT_MAX) :
    lreadlineCheck sb sep = .ok (decide (sep <:+: sb.unread)) := by
  rcases sepPosition_spec h hsep hmax with ⟨i, hi, hfind⟩ | ⟨hno, hfind⟩
  · rw [lreadlineCheck, hfind, decide_eq_true hi.isInfix]
    rfl
  · rw [lreadlineCheck, hfind, decide_eq_false hno]
    rfl

theorem lreadline_none (h : sb.Sound) (hsep : sep ≠ []) (hmax : sep.length ≤ INT_MAX)
    (hno : ¬ sep <:+: sb.unread) : lreadline sb sep = .ok (none, sb) := by
  rcases sepPosition_spec h hsep hmax with ⟨i, hi, -⟩ | ⟨-, hfind⟩
  · exact absurd hi.isInfix hno
  · rw [lreadline, hfind]
    rfl

theorem lreadline_some (h : sb.Sound) (hsep : sep ≠ []) (hmax : sep.length ≤ INT_MAX)
    (hin : sep <:+: sb.unread) :
    ∃ i sb', FirstAt sep sb.unread i ∧ lreadline sb sep = .ok (some (sb.unread.take i), sb') ∧
      sb'.unread = sb.unread.drop (i + sep.length) ∧ sb'.Sound := by
  rcases sepPosition_spec h hsep hmax with ⟨i, hi, hfind⟩ | ⟨hno, -⟩
  · have hpos := List.length_pos_iff.mpr hsep
    have hle := hi.add_length_le hsep
    obtain ⟨sb', hpop, hsize, hunread, hshape⟩ :=
      popLstring_spec h (by omega) (Nat.le_add_left sep.length i) hle
    refine ⟨i, { sb' with size := sb'.size - (i + sep.length : Nat) }, hi, ?_, hunread, ?_⟩
    · rw [lreadline, hfind, int32_of_le_max hmax]
      change (do
        let r ← popLstring sb (i + sep.length) sep.length
        Except.ok (some r.1, { r.2 with size := r.2.size - (i + sep.length : Nat) })) = _
      rw [hpop, Nat.add_sub_cancel]
      rfl
    · refine h.of_drop hshape hle hunread ?_
      rw [← hsize]
  · exact absurd hin hno

end XsServer.Socket
