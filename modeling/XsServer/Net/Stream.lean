import XsServer.Net.Filter
import Mathlib.Data.List.Forall2

/-! The packets of a gate do not depend on how the bytes of its sockets are cut into messages.  The
abstract gate keeps what is left of each socket's stream and a list of packets; the queue refines it
as long as its ring can grow. -/

namespace XsServer.Net

open Lib Lib.Ring

inductive Event
  | filter (msg : SocketMessage)
  | pop

/-- What a call returns, and for `filter` the packets that it adds to the ring. -/
inductive Output
  | filtered (result : Filtered) (ring : List Netpack)
  | popped (np : Option Netpack)

def exec : Option Queue → List Event → Option (Option Queue × List Output)
  | o, [] => some (o, [])
  | o, .filter msg :: events => do
    let (o', result) ← lfilter o msg
    let (o'', outputs) ← exec o' events
    some (o'', .filtered result ((pending o').drop (pending o).length) :: outputs)
  | o, .pop :: events => do
    let (np, o') := lpop o
    let (o'', outputs) ← exec o' events
    some (o'', .popped np :: outputs)

structure Gate where
  rest : Int32 → List UInt8
  queue : List Netpack

def Gate.init : Gate := ⟨fun _ => [], []⟩

def Gate.receive (g : Gate) (fd : Int32) (buffer : List UInt8) : Gate × Filtered × List Netpack :=
  let r := packets.split (g.rest fd ++ buffer)
  (⟨Function.update g.rest fd r.2, g.queue ++ queued fd r⟩, verdict fd r, queued fd r)

def Gate.drop (g : Gate) (fd : Int32) : Gate := { g with rest := Function.update g.rest fd [] }

def Gate.filter (g : Gate) : SocketMessage → Gate × Filtered × List Netpack
  | .data id buffer => g.receive id buffer
  | .connect _ => (g, .nothing, [])
  | .close id => (g.drop id, .close id, [])
  | .accept _ ud addr => (g, .opened ud addr, [])
  | .error id msg => (g.drop id, .error id msg, [])
  | .warning id ud => (g, .warning id ud, [])
  | .other => (g, .nothing, [])

def Gate.exec : Gate → List Event → Gate × List Output
  | g, [] => (g, [])
  | g, .filter msg :: events =>
    let r := g.filter msg
    let s := Gate.exec r.1 events
    (s.1, .filtered r.2.1 r.2.2 :: s.2)
  | g, .pop :: events =>
    let s := Gate.exec { g with queue := g.queue.tail } events
    (s.1, .popped g.queue.head? :: s.2)

/-! ### The queue refines the gate -/

structure Refines (o : Option Queue) (g : Gate) : Prop where
  ring : pending o = g.queue
  stored : ∀ fd, Stored fd (g.rest fd) (nodes o fd)

theorem refines_init : Refines none Gate.init := ⟨rfl, fun _ => rfl⟩

variable {o o' : Option Queue} {g : Gate} {fd : Int32}

theorem Refines.holds {ps : List Netpack} {rest : List UInt8} (h : Refines o g)
    (h' : Holds o fd ps rest o') : Refines o' ⟨Function.update g.rest fd rest, g.queue ++ ps⟩ where
  ring := by rw [h'.ring, h.ring]
  stored := by
    intro fd'
    change Stored fd' (Function.update g.rest fd rest fd') _
    by_cases hfd : fd' = fd
    · subst hfd
      rw [Function.update_self]
      exact h'.stored
    · rw [Function.update_of_ne hfd, h'.other fd' hfd]
      exact h.stored fd'

theorem Refines.close (h : Refines o g) (fd : Int32) :
    Refines (closeUncomplete o fd) (g.drop fd) := by
  have := h.holds (closeUncomplete_spec (h.stored fd))
  rwa [List.append_nil] at this

theorem pending_close (h : Refines o g) (fd : Int32) :
    pending (closeUncomplete o fd) = pending o := by
  rw [(closeUncomplete_spec (h.stored fd)).ring, List.append_nil]

/-- Every `DATA` message has bytes. -/
def SocketMessage.HasBytes : SocketMessage → Prop
  | .data _ buffer => buffer ≠ []
  | _ => True

theorem lfilter_refines {msg : SocketMessage} (h : Refines o g) (hmsg : msg.HasBytes)
    (hlt : (g.filter msg).1.queue.length < LIMIT) :
    ∃ o', lfilter o msg = some (o', (g.filter msg).2.1) ∧ Refines o' (g.filter msg).1 ∧
      pending o' = pending o ++ (g.filter msg).2.2 := by
  cases msg with
  | data id buffer =>
    have hlt' : (pending o).length +
        (queued id (packets.split (g.rest id ++ buffer))).length < LIMIT := by
      rw [h.ring, ← List.length_append]
      exact hlt
    obtain ⟨o', ho', hholds⟩ := filterData_spec (h.stored id) hmsg rfl hlt'
    exact ⟨o', ho', h.holds hholds, hholds.ring⟩
  | close id | error id msg =>
    exact ⟨_, rfl, h.close id, by rw [pending_close h]; simp [Gate.filter]⟩
  | _ => exact ⟨o, rfl, h, (List.append_nil _).symm⟩

def Event.HasBytes : Event → Prop
  | .filter msg => msg.HasBytes
  | .pop => True

theorem exec_refines (events : List Event) (h : Refines o g) (hbytes : ∀ e ∈ events, e.HasBytes)
    (hlt : ∀ before, before <+: events → (g.exec before).1.queue.length < LIMIT) :
    ∃ o', exec o events = some (o', (g.exec events).2) ∧ Refines o' (g.exec events).1 := by
  induction events generalizing o g with
  | nil => exact ⟨o, rfl, h⟩
  | cons e events ih =>
    obtain ⟨he, hevents⟩ := List.forall_mem_cons.mp hbytes
    cases e with
    | filter msg =>
      obtain ⟨o1, ho1, h1, hring⟩ := lfilter_refines h he (hlt [.filter msg] (by simp))
      obtain ⟨o2, ho2, h2⟩ := ih h1 hevents fun before hb =>
        hlt (.filter msg :: before) (by simpa using hb)
      refine ⟨o2, ?_, h2⟩
      simp [exec, Gate.exec, ho1, ho2, hring]
    | pop =>
      obtain ⟨hret, hring, hnodes⟩ := @lpop_spec 0 o
      have h1 : Refines (lpop o).2 { g with queue := g.queue.tail } := by
        refine ⟨by rw [hring, h.ring], fun fd => ?_⟩
        rw [(@lpop_spec fd o).2.2]
        exact h.stored fd
      obtain ⟨o2, ho2, h2⟩ := ih h1 hevents fun before hb =>
        hlt (.pop :: before) (by simpa using hb)
      refine ⟨o2, ?_, h2⟩
      simp [exec, Gate.exec, ho2, hret, h.ring]

/-! ### What the gate hands out -/

def Output.available : Output → List Netpack
  | .filtered (.data fd msg size) ring => ring ++ [⟨fd, size, msg⟩]
  | .filtered _ ring => ring
  | .popped _ => []

def Output.ring : Output → List Netpack
  | .filtered _ ring => ring
  | .popped _ => []

def Output.handed : Output → List Netpack
  | .filtered _ _ => []
  | .popped np => np.toList

/-- The packets in the streams of a socket, where `bytes` came before on the first stream.  A
stream ends when the socket is closed or fails. -/
def framesOf (fd : Int32) (bytes : List UInt8) : List Event → List (List UInt8)
  | [] => (packets.split bytes).1
  | .filter (.data id buffer) :: events =>
    framesOf fd (if id = fd then bytes ++ buffer else bytes) events
  | .filter (.close id) :: events | .filter (.error id _) :: events =>
    if id = fd then (packets.split bytes).1 ++ framesOf fd [] events else framesOf fd bytes events
  | _ :: events => framesOf fd bytes events

theorem available_verdict (fd : Int32) (r : List (List UInt8) × List UInt8) :
    (Output.filtered (verdict fd r) (queued fd r)).available = r.1.map (toPack fd) := by
  obtain ⟨_ | ⟨p, _ | ⟨p', ps⟩⟩, _ | ⟨b, bs⟩⟩ := r <;> rfl

theorem filter_toPack (id fd : Int32) (ps : List (List UInt8)) :
    (ps.map (toPack id)).filter (fun np => np.id = fd) =
    if id = fd then ps.map (toPack fd) else [] := by
  split
  · rename_i h
    subst h
    exact List.filter_eq_self.mpr fun np hnp => by
      obtain ⟨p, -, rfl⟩ := List.mem_map.mp hnp
      exact decide_eq_true rfl
  · rename_i h
    refine List.filter_eq_nil_iff.mpr fun np hnp => ?_
    obtain ⟨p, -, rfl⟩ := List.mem_map.mp hnp
    exact fun hid => h (of_decide_eq_true hid)

theorem filter_frames (fd : Int32) (msg : SocketMessage) (events : List Event) {bytes : List UInt8}
    (h : g.rest fd = (packets.split bytes).2) : ∃ ended bytes',
      (g.filter msg).1.rest fd = (packets.split bytes').2 ∧
      framesOf fd bytes (.filter msg :: events) = ended ++ framesOf fd bytes' events ∧
      (packets.split bytes).1.map (toPack fd) ++
        (Output.filtered (g.filter msg).2.1 (g.filter msg).2.2).available.filter
          (fun np => np.id = fd) = (ended ++ (packets.split bytes').1).map (toPack fd) := by
  have hdrop : ∀ id, (g.drop id).rest fd = if id = fd then [] else g.rest fd := by
    intro id
    simp [Gate.drop, Function.update_apply, eq_comm]
  have hclose : ∀ id, ∃ ended bytes', (g.drop id).rest fd = (packets.split bytes').2 ∧
      (if id = fd then (packets.split bytes).1 ++ framesOf fd [] events
        else framesOf fd bytes events) = ended ++ framesOf fd bytes' events ∧
      (packets.split bytes).1.map (toPack fd) =
        (ended ++ (packets.split bytes').1).map (toPack fd) := by
    intro id
    rw [hdrop]
    by_cases hid : id = fd
    · exact ⟨(packets.split bytes).1, [], by rw [if_pos hid, split_nil], if_pos hid,
        by rw [split_nil, List.append_nil]⟩
    · exact ⟨[], bytes, by rw [if_neg hid, h], if_neg hid, rfl⟩
  cases msg with
  | data id buffer =>
    refine ⟨[], if id = fd then bytes ++ buffer else bytes, ?_, rfl, ?_⟩
    · change Function.update g.rest id _ fd = _
      by_cases hid : id = fd
      · subst hid
        rw [if_pos rfl, Function.update_self, Framing.split_append bytes, h]
      · rw [if_neg hid, Function.update_of_ne (Ne.symm hid), h]
    · change _ ++ (Output.filtered (verdict id _) (queued id _)).available.filter _ = _
      rw [available_verdict, filter_toPack]
      by_cases hid : id = fd
      · subst hid
        rw [if_pos rfl, if_pos rfl, Framing.split_append bytes, h, List.nil_append, List.map_append]
      · rw [if_neg hid, if_neg hid, List.append_nil, List.nil_append]
  | close id | error id msg =>
    obtain ⟨ended, bytes', hrest, hframes, hmap⟩ := hclose id
    exact ⟨ended, bytes', hrest, hframes, by rw [← hmap]; exact List.append_nil _⟩
  | _ => exact ⟨[], bytes, h, rfl, List.append_nil _⟩

theorem available_eq (fd : Int32) (events : List Event) {bytes : List UInt8}
    (h : g.rest fd = (packets.split bytes).2) :
    (packets.split bytes).1.map (toPack fd) ++
        ((g.exec events).2.flatMap Output.available).filter (fun np => np.id = fd) =
      (framesOf fd bytes events).map (toPack fd) := by
  induction events generalizing g bytes with
  | nil => simp [Gate.exec, framesOf]
  | cons e events ih =>
    cases e with
    | pop => exact @ih { g with queue := g.queue.tail } bytes h
    | filter msg =>
      obtain ⟨ended, bytes', hrest, hframes, hmap⟩ := filter_frames fd msg events h
      rw [hframes, List.map_append, ← ih hrest, Gate.exec, List.flatMap_cons, List.filter_append,
        ← List.append_assoc, hmap, List.map_append, List.append_assoc]

theorem handed_eq (g : Gate) (events : List Event) :
    g.queue ++ (g.exec events).2.flatMap Output.ring =
      (g.exec events).2.flatMap Output.handed ++ (g.exec events).1.queue := by
  induction events generalizing g with
  | nil => simp [Gate.exec]
  | cons e events ih =>
    cases e with
    | filter msg =>
      have hqueue : (g.filter msg).1.queue = g.queue ++ (g.filter msg).2.2 := by
        cases msg <;> simp [Gate.filter, Gate.receive, Gate.drop]
      have := ih (g.filter msg).1
      rw [hqueue, List.append_assoc] at this
      simpa [Gate.exec, Output.ring, Output.handed] using this
    | pop =>
      have := ih { g with queue := g.queue.tail }
      cases hq : g.queue with
      | nil => simpa [Gate.exec, Output.ring, Output.handed, hq] using this
      | cons np queue =>
        rw [hq] at this
        simpa [Gate.exec, Output.ring, Output.handed, hq] using this

theorem readSize_of_lt {n : Nat} (h : n < 0x10000) :
    readSize (UInt8.ofNat (n >>> 8 &&& 0xff)) (UInt8.ofNat (n &&& 0xff)) = n := by
  have hmask : ∀ m : Nat, m &&& 0xff = m % 2 ^ 8 := Nat.and_two_pow_sub_one_eq_mod (n := 8)
  have hbyte : ∀ m : Nat, (UInt8.ofNat (m % 2 ^ 8)).toNat = m % 2 ^ 8 := by
    intro m
    rw [UInt8.toNat_ofNat']
    omega
  rw [readSize, hmask, hmask, hbyte, hbyte, ← Nat.shiftLeft_add_eq_or_of_lt (by omega),
    Nat.shiftLeft_eq, Nat.shiftRight_eq_div_pow]
  omega

theorem next_lpack {s w : List UInt8} (h : lpack s = some w) : packets.next w = some (s, []) := by
  simp only [lpack, Option.ite_none_left_eq_some, Option.some.injEq] at h
  obtain ⟨hlt, rfl⟩ := h
  rw [show packets.next = nextPacket from rfl, nextPacket, readSize_of_lt (by omega),
    if_neg (by omega), List.take_length, List.drop_length]

/-- As long as less than `2^30 + 1024` packets are in the ring at once, the queue does what the
abstract gate does: the packets of each socket that become available are those of its streams, each
with its socket, and the ring hands out in order what goes to it.  Packed strings are the packets of
their concatenation. -/
theorem netpack_framing (events : List Event) (hbytes : ∀ e ∈ events, e.HasBytes)
    (hlt : ∀ before, before <+: events → (Gate.init.exec before).1.queue.length < LIMIT) :
    (∃ o outputs, exec none events = some (o, outputs) ∧ outputs = (Gate.init.exec events).2 ∧
      (∀ fd, (outputs.flatMap Output.available).filter (fun np => np.id = fd) =
        (framesOf fd [] events).map (toPack fd)) ∧
      outputs.flatMap Output.ring = outputs.flatMap Output.handed ++ pending o) ∧
    ∀ ss ws, List.Forall₂ (fun s w => lpack s = some w) ss ws →
      packets.split ws.flatten = (ss, []) := by
  constructor
  · obtain ⟨o, hexec, hrefines⟩ := exec_refines events refines_init hbytes hlt
    refine ⟨o, _, hexec, rfl, fun fd => ?_, ?_⟩
    · have h := @available_eq Gate.init fd events [] (by rw [split_nil]; rfl)
      rwa [split_nil] at h
    · rw [hrefines.ring]
      exact handed_eq Gate.init events
  · intro ss ws h
    exact Framing.split_flatten (h.imp fun _ _ => next_lpack)

/-- A packet without bytes and the first byte of a header, then a pop. -/
theorem netpack_framing_pop : ∃ o outputs,
    exec none [.filter (.data 7 [0, 0, 0]), .pop] = some (o, outputs) ∧
      (outputs.flatMap Output.available).filter (fun np => np.id = 7) = [⟨7, 0, []⟩] := by
  have hsplit : packets.split [0, 0, 0] = ([[]], [0]) := by
    rw [split_packet (Nat.zero_le _)]
    change ([[]] ++ (packets.split [0]).1, (packets.split [0]).2) = _
    rw [split_header]
    rfl
  have hfilter : (Gate.init.filter (.data 7 [0, 0, 0])).1.queue = [toPack 7 []] := by
    simp only [Gate.filter, Gate.receive, Gate.init, List.nil_append, hsplit]
    rfl
  obtain ⟨⟨o, outputs, hexec, -, havailable, -⟩, -⟩ := netpack_framing
    [.filter (.data 7 [0, 0, 0]), .pop] (by simp [Event.HasBytes, SocketMessage.HasBytes]) (by
      intro before hb
      simp only [List.prefix_cons_iff, List.prefix_nil] at hb
      rcases hb with rfl | ⟨_, rfl, rfl | ⟨_, rfl, rfl⟩⟩
      · decide
      · simp [Gate.exec, hfilter, LIMIT]
      · simp [Gate.exec, hfilter, LIMIT])
  refine ⟨o, outputs, hexec, ?_⟩
  rw [havailable 7]
  simp [framesOf, hsplit, toPack]

/-! ### The length at which the ring overflows -/

theorem exec_append (o : Option Queue) (events events' : List Event) :
    exec o (events ++ events') =
      (exec o events).bind fun r => (exec r.1 events').map fun r' => (r'.1, r.2 ++ r'.2) := by
  induction events generalizing o with
  | nil => simp [exec]
  | cons e events ih =>
    cases e with
    | filter msg =>
      cases hf : lfilter o msg with
      | none => simp [exec, hf]
      | some r =>
        cases hx : exec r.1 events with
        | none => simp [exec, hf, ih, hx]
        | some r' => cases hx' : exec r'.1 events' <;> simp [exec, hf, ih, hx, hx']
    | pop =>
      cases hx : exec (lpop o).2 events with
      | none => simp [exec, ih, hx]
      | some r' => cases hx' : exec r'.1 events' <;> simp [exec, ih, hx, hx']

def twoEmpty : Event := .filter (.data 1 [0, 0, 0, 0])

/-- The ring has `n` packets from `head` on, and the socket 1 has no node. -/
structure RingAt (o : Option Queue) (cap head n : Nat) : Prop where
  cap_eq : (getQueue o).cap = cap
  head_eq : (getQueue o).head = head
  length_eq : (pending o).length = n
  nodes_eq : nodes o 1 = []

variable {cap head n : Nat}

theorem RingAt.lt (h : RingAt o cap head n) : head < cap ∧ n < cap ∧ 1024 ∣ cap := by
  obtain ⟨hcap, hhead, hlen, -⟩ := h
  obtain ⟨k, hk⟩ := (getQueue o).cap_form
  have hlt := fill_lt (getQueue o).head_lt (getQueue o).tail_lt
  rw [pending, length_contents] at hlen
  rw [← hcap, ← hhead, ← hlen]
  exact ⟨(getQueue o).head_lt, hlt, k, hk⟩

theorem RingAt.next_eq (h : RingAt o cap head n) :
    (getQueue o).head = next (getQueue o).cap (getQueue o).tail ↔ n + 1 = cap := by
  rw [next_tail_eq (getQueue o).head_lt (getQueue o).tail_lt, ← length_contents, ← h.cap_eq,
    ← h.length_eq]
  rfl

theorem RingAt.push (h : RingAt o cap head n) (hn : n + 1 < cap) (hcap : cap ≤ LIMIT) :
    ∃ q, pushData o 1 [] 0 = some q ∧ RingAt (some q) cap head (n + 1) := by
  obtain ⟨q, hq, hpush⟩ := holds_push h.nodes_eq [] 0 (by rw [h.length_eq]; omega)
  have hstore : pushData o 1 [] 0 = some (store (getQueue o) ⟨1, 0, []⟩) :=
    if_neg fun hfull => by
      have := h.next_eq.mp hfull
      omega
  have hqs : q = store (getQueue o) ⟨1, 0, []⟩ := Option.some.inj (hq.symm.trans hstore)
  refine ⟨q, hq, ?_, ?_, ?_, hpush.stored⟩
  · rw [hqs]
    exact h.cap_eq
  · rw [hqs]
    exact h.head_eq
  · rw [hpush.ring, List.length_append, h.length_eq, List.length_singleton]

theorem RingAt.grow (h : RingAt o cap head n) (hn : n + 1 = cap) (hcap : cap < LIMIT) :
    ∃ q, pushData o 1 [] 0 = some q ∧ RingAt (some q) (cap + QUEUESIZE) 0 (n + 1) := by
  obtain ⟨q, hq, hpush⟩ := holds_push h.nodes_eq [] 0 (by rw [h.length_eq]; omega)
  have hexpand : pushData o 1 [] 0 = expandQueue (store (getQueue o) ⟨1, 0, []⟩) :=
    if_pos (h.next_eq.mpr hn)
  have hroom := @grow_le (store (getQueue o) ⟨1, 0, []⟩) (by
    change (getQueue o).cap < LIMIT
    rwa [h.cap_eq])
  rw [expandQueue, dif_pos hroom, hq] at hexpand
  have hqe := Option.some.inj hexpand
  refine ⟨q, hq, ?_, ?_, ?_, hpush.stored⟩
  · rw [hqe]
    exact congrArg (· + QUEUESIZE) h.cap_eq
  · rw [hqe]
    rfl
  · rw [hpush.ring, List.length_append, h.length_eq, List.length_singleton]

theorem RingAt.push_undefined (h : RingAt o cap head n) (hn : n + 1 = cap)
    (hlt : INT_MAX < head + (cap - 1)) : pushData o 1 [] 0 = none := by
  refine (if_pos (h.next_eq.mpr hn)).trans (dif_neg ?_)
  rintro ⟨-, hle⟩
  change (getQueue o).head + ((getQueue o).cap - 1) ≤ INT_MAX at hle
  rw [h.head_eq, h.cap_eq] at hle
  omega

theorem RingAt.pop (h : RingAt o cap head n) (hn : 0 < n) :
    RingAt (lpop o).2 cap (next cap head) (n - 1) := by
  obtain ⟨-, hring, hnodes⟩ := @lpop_spec 1 o
  have hlen : (pending (lpop o).2).length = n - 1 := by
    rw [hring, List.length_tail, h.length_eq]
  cases o with
  | none =>
    have := h.length_eq
    change 0 = n at this
    omega
  | some q =>
    have hne : q.head ≠ q.tail := by
      intro heq
      have hzero : fill q.cap q.head q.tail = 0 := (fill_eq_zero q.head_lt).mpr heq
      have := h.length_eq
      rw [pending, length_contents] at this
      change fill q.cap q.head q.tail = n at this
      omega
    have hpop : (lpop (some q)).2 = some { q with
        head := next q.cap q.head
        head_lt := next_lt (Nat.zero_lt_of_lt q.head_lt) } := by rw [lpop, if_neg hne]
    refine ⟨?_, ?_, hlen, hnodes.trans h.nodes_eq⟩
    · rw [hpop]
      exact h.cap_eq
    · rw [hpop]
      exact congrArg₂ next h.cap_eq h.head_eq

theorem exec_twoEmpty (h : nodes o 1 = []) {q : Queue} (hq : pushData o 1 [] 0 = some q) :
    (∀ q', pushData (some q) 1 [] 0 = some q' →
      ∃ outputs, exec o [twoEmpty] = some (some q', outputs)) ∧
    (pushData (some q) 1 [] 0 = none → exec o [twoEmpty] = none) := by
  have hfilter : filterData o 1 [0, 0, 0, 0] =
      (pushData (some q) 1 [] 0).map fun q' => (some q', .more) := by
    cases hq' : pushData (some q) 1 [] 0 <;>
      simp [filterData, find_none h, readSize, hq, pushMore, hq']
  constructor
  · intro q' hq'
    rw [hq'] at hfilter
    simp [exec, twoEmpty, lfilter, hfilter]
  · intro hq'
    rw [hq'] at hfilter
    simp [exec, twoEmpty, lfilter, hfilter]

theorem exec_trans {events events' : List Event} {o'' : Option Queue}
    {outputs outputs' : List Output}
    (h : exec o events = some (o', outputs)) (h' : exec o' events' = some (o'', outputs')) :
    ∃ outputs, exec o (events ++ events') = some (o'', outputs) := by
  refine ⟨outputs ++ outputs', ?_⟩
  rw [exec_append, h, Option.bind_some, h']
  rfl

theorem RingAt.push_any (h : RingAt o cap 0 n) (hcap : cap ≤ n + QUEUESIZE) (hn : n + 1 < LIMIT) :
    ∃ q cap', pushData o 1 [] 0 = some q ∧ RingAt (some q) cap' 0 (n + 1) ∧
      cap' ≤ n + 1 + QUEUESIZE := by
  obtain ⟨-, hlt, hdvd⟩ := h.lt
  by_cases hfull : n + 1 = cap
  · obtain ⟨q, hq, hring⟩ := h.grow hfull (by omega)
    exact ⟨q, _, hq, hring, by omega⟩
  · have hle : cap ≤ LIMIT := by
      simp only [LIMIT, QUEUESIZE] at *
      omega
    obtain ⟨q, hq, hring⟩ := h.push (by omega) hle
    exact ⟨q, cap, hq, hring, by omega⟩

theorem exec_pushes (m : Nat) (hm : 2 * m < LIMIT) : ∃ o outputs cap,
    exec none (List.replicate m twoEmpty) = some (o, outputs) ∧ RingAt o cap 0 (2 * m) ∧
      cap ≤ 2 * m + QUEUESIZE := by
  induction m with
  | zero => exact ⟨none, [], QUEUESIZE, rfl, ⟨rfl, rfl, rfl, rfl⟩, by omega⟩
  | succ m ih =>
    obtain ⟨o, outputs, cap, hexec, hring, hcap⟩ := ih (by omega)
    obtain ⟨q1, cap1, hq1, hring1, hcap1⟩ := hring.push_any hcap (by omega)
    obtain ⟨q2, cap2, hq2, hring2, hcap2⟩ := hring1.push_any hcap1 (by omega)
    obtain ⟨outputs', hlast⟩ := (exec_twoEmpty hring.nodes_eq hq1).1 q2 hq2
    obtain ⟨outputs'', hall⟩ := exec_trans hexec hlast
    exact ⟨some q2, outputs'', cap2, by rw [List.replicate_succ', hall], hring2, hcap2⟩

theorem exec_rotate (h : RingAt o cap 0 n) (hn : 2 ≤ n) (hroom : n + 2 = cap) (hcap : cap ≤ LIMIT)
    (k : Nat) (hk : 2 * k < cap) : ∃ o' outputs,
      exec o (List.replicate k [.pop, .pop, twoEmpty]).flatten = some (o', outputs) ∧
        RingAt o' cap (2 * k) n := by
  induction k with
  | zero => exact ⟨o, [], rfl, h⟩
  | succ k ih =>
    obtain ⟨o1, outputs, hexec, hring⟩ := ih (by omega)
    have hpop := (hring.pop (by omega)).pop (by omega)
    have hnext : next cap (next cap (2 * k)) = 2 * (k + 1) := by
      have hone : next cap (2 * k) = 2 * k + 1 := if_neg (by omega)
      rw [hone]
      exact if_neg (by omega)
    rw [hnext] at hpop
    obtain ⟨q1, hq1, hring1⟩ := hpop.push (by omega) hcap
    obtain ⟨q2, hq2, hring2⟩ := hring1.push (by omega) hcap
    obtain ⟨outputs', hlast⟩ := (exec_twoEmpty hpop.nodes_eq hq1).1 q2 hq2
    have hturn : ∃ outputs, exec o1 [.pop, .pop, twoEmpty] = some (some q2, outputs) := by
      refine ⟨.popped (lpop o1).1 :: .popped (lpop (lpop o1).2).1 :: outputs', ?_⟩
      simp [exec, hlast]
    obtain ⟨outputs'', hturn⟩ := hturn
    obtain ⟨outputs3, hall⟩ := exec_trans hexec hturn
    refine ⟨some q2, outputs3, ?_, ?_⟩
    · rw [List.replicate_succ', List.flatten_append, List.flatten_singleton, hall]
    · rwa [show n - 1 - 1 + 1 + 1 = n by omega] at hring2

theorem exec_overflow {m k : Nat} (hm : 2 * m = 2 ^ 30 + 1022) (hk : 2 * k = 2 ^ 30 - 1022) :
    exec none (List.replicate m twoEmpty ++ (List.replicate k [.pop, .pop, twoEmpty]).flatten ++
      [twoEmpty]) = none := by
  obtain ⟨o, outputs, cap, hexec, hring, hle⟩ := exec_pushes m (by rw [hm]; decide)
  have hcap : cap = LIMIT := by
    obtain ⟨-, hlt, hdvd⟩ := hring.lt
    simp only [LIMIT, QUEUESIZE] at *
    omega
  rw [hm] at hring
  obtain ⟨o', outputs', hexec', hring'⟩ := exec_rotate hring (by omega)
    (by rw [hcap]; rfl) hcap.le k (by rw [hcap, hk]; decide)
  rw [hk] at hring'
  obtain ⟨outputs'', hall⟩ := exec_trans hexec hexec'
  obtain ⟨q, hq, hring''⟩ := hring'.push (by rw [hcap]; decide) hcap.le
  have hundefined := hring''.push_undefined (by rw [hcap]; rfl) (by rw [hcap]; decide)
  rw [exec_append, hall, Option.bind_some, (exec_twoEmpty hring'.nodes_eq hq).2 hundefined]
  rfl

/-- With `2^30 + 1022` packets in the ring, pops and packets move its start to the cell
`2^30 - 1022`; when it is full the next time, `q->head + i` no longer fits in `int`. -/
theorem netpack_overflow : ∃ events : List Event, (∀ e ∈ events, e.HasBytes) ∧
    exec none events = none := by
  refine ⟨_, ?_, @exec_overflow (2 ^ 29 + 511) (2 ^ 29 - 511) rfl rfl⟩
  intro e he
  simp only [List.mem_append, List.mem_flatten, List.mem_replicate, List.mem_singleton] at he
  have htwo : twoEmpty.HasBytes := List.cons_ne_nil _ _
  rcases he with (⟨-, rfl⟩ | ⟨_, ⟨-, rfl⟩, he⟩) | rfl
  · exact htwo
  · simp only [List.mem_cons, List.not_mem_nil, or_false] at he
    rcases he with rfl | rfl | rfl
    · exact trivial
    · exact trivial
    · exact htwo
  · exact htwo

end XsServer.Net
