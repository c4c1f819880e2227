import XsServer.Lib.Bytes
import XsServer.Lib.Ring

/-! The message queue of a service, `struct message_queue` of `skynet_mq.c`, and the functions that
run under its lock.  The link `next` and the global queue are in `XsServer.Sched.Model`: here a
function that calls `skynet_globalmq_push` returns `true` for that call.

The ring buffer is a FIFO list of messages as long as fewer than `2^30` messages are pending: at
that length the capacity no longer doubles within `int`. -/

namespace XsServer.Mq

open Lib Lib.Ring

def DEFAULT_QUEUE_SIZE : Nat := 64
def MQ_OVERLOAD : Nat := 1024

/-- `struct skynet_message`; `data` is an address. -/
structure SkynetMessage where
  source : UInt32
  session : Int32
  data : UInt64
  sz : UInt64
  deriving DecidableEq, Inhabited

/-- `struct message_queue` with the facts that every function keeps: the indices are cells of the
array, the capacity is an `int`, and the capacity and the threshold are doublings of their first
values. -/
structure MessageQueue where
  handle : UInt32
  cap : Nat
  head : Nat
  tail : Nat
  release : Bool
  inGlobal : Bool
  overload : Nat
  overloadThreshold : Nat
  queue : Array SkynetMessage
  head_lt : head < cap
  tail_lt : tail < cap
  size_eq : queue.size = cap
  cap_le : cap ≤ INT_MAX
  cap_form : ∃ k, cap = DEFAULT_QUEUE_SIZE * 2 ^ k
  threshold_form : ∃ k, overloadThreshold = MQ_OVERLOAD * 2 ^ k

def skynetMqCreate (handle : UInt32) : MessageQueue where
  handle := handle
  cap := DEFAULT_QUEUE_SIZE
  head := 0
  tail := 0
  release := false
  inGlobal := true
  overload := 0
  overloadThreshold := MQ_OVERLOAD
  queue := Array.replicate DEFAULT_QUEUE_SIZE default
  head_lt := by decide
  tail_lt := by decide
  size_eq := by simp
  cap_le := by decide
  cap_form := ⟨0, rfl⟩
  threshold_form := ⟨0, rfl⟩

def skynetMqLength (q : MessageQueue) : Nat := fill q.cap q.head q.tail

/-- The loop of `skynet_mq_pop` that doubles the threshold until it reaches `length`: the new
values of `overload` and `overload_threshold`.  The source does not test that the threshold is
positive; it always is. -/
def raiseThreshold (length overload threshold : Nat) : Nat × Nat :=
  if 0 < threshold ∧ threshold < length then raiseThreshold length length (threshold * 2)
  else (overload, threshold)
  termination_by length - threshold

theorem raiseThreshold_form (length overload threshold : Nat)
    (h : ∃ k, threshold = MQ_OVERLOAD * 2 ^ k) :
    ∃ k, (raiseThreshold length overload threshold).2 = MQ_OVERLOAD * 2 ^ k := by
  fun_induction raiseThreshold with
  | case1 _ threshold _ ih =>
    obtain ⟨k, rfl⟩ := h
    exact ih ⟨k + 1, by rw [pow_succ, Nat.mul_assoc]⟩
  | case2 => exact h

theorem le_raiseThreshold (length overload threshold : Nat) (h : 0 < threshold) :
    length ≤ (raiseThreshold length overload threshold).2 := by
  fun_induction raiseThreshold with
  | case1 _ threshold _ ih => exact ih (by omega)
  | case2 _ _ hn => simp only; omega

/-- The message, or `none` where the source returns 1. -/
def skynetMqPop (q : MessageQueue) : Option SkynetMessage × MessageQueue :=
  if q.head ≠ q.tail then
    let head := next q.cap q.head
    let raised := raiseThreshold (fill q.cap head q.tail) q.overload q.overloadThreshold
    (some q.queue[q.head]!,
      { q with
        head := head
        overload := raised.1
        overloadThreshold := raised.2
        head_lt := next_lt (Nat.zero_lt_of_lt q.head_lt)
        threshold_form := raiseThreshold_form _ _ _ q.threshold_form })
  else
    (none,
      { q with
        overloadThreshold := MQ_OVERLOAD
        inGlobal := false
        threshold_form := ⟨0, rfl⟩ })

/-- `none` where `q->cap *= 2` overflows `int`, which the language leaves undefined. -/
def expandQueue (q : MessageQueue) : Option MessageQueue :=
  if h : q.cap * 2 ≤ INT_MAX then
    some
      { q with
        head := 0
        tail := q.cap
        cap := q.cap * 2
        queue := Array.ofFn fun i : Fin (q.cap * 2) =>
          if i < q.cap then q.queue[(q.head + i) % q.cap]! else default
        head_lt := by have := q.head_lt; omega
        tail_lt := by have := q.head_lt; omega
        size_eq := Array.size_ofFn
        cap_le := h
        cap_form := by
          obtain ⟨k, hk⟩ := q.cap_form
          exact ⟨k + 1, by rw [hk, pow_succ, Nat.mul_assoc]⟩ }
  else none

/-- The message in the cell at `tail`, and `tail` advanced: the first half of `skynet_mq_push`. -/
def store (q : MessageQueue) (message : SkynetMessage) : MessageQueue :=
  { q with
    queue := q.queue.set! q.tail message
    tail := next q.cap q.tail
    tail_lt := next_lt (Nat.zero_lt_of_lt q.tail_lt)
    size_eq := by simpa using q.size_eq }

/-- The last lines of `skynet_mq_push`: a queue that is neither in the global queue nor being
dispatched is pushed to the global queue. -/
def linkIdle (q : MessageQueue) : MessageQueue × Bool :=
  if q.inGlobal = false then ({ q with inGlobal := true }, true) else (q, false)

def skynetMqPush (q : MessageQueue) (message : SkynetMessage) : Option (MessageQueue × Bool) :=
  let q := store q message
  (if q.head = q.tail then expandQueue q else some q).map linkIdle

/-- `none` where `assert(q->release == 0)` fails; otherwise the queue, and whether it was pushed to
the global queue. -/
def skynetMqMarkRelease (q : MessageQueue) : Option (MessageQueue × Bool) :=
  if q.release then none else some ({ q with release := true }, q.inGlobal = false)

def MessageQueue.contents (q : MessageQueue) : List SkynetMessage :=
  window (fun i => q.queue[i]!) q.cap q.head (skynetMqLength q)

@[simp] theorem length_contents (q : MessageQueue) : q.contents.length = skynetMqLength q :=
  window_length ..

theorem contents_create (handle : UInt32) : (skynetMqCreate handle).contents = [] := rfl

theorem length_lt_cap (q : MessageQueue) : q.contents.length < q.cap := by
  rw [length_contents]
  exact fill_lt q.head_lt q.tail_lt

theorem cap_le_two_pow (q : MessageQueue) : q.cap ≤ 2 ^ 30 := by
  obtain ⟨k, hk⟩ := q.cap_form
  have hle := q.cap_le
  rw [hk, show DEFAULT_QUEUE_SIZE = 2 ^ 6 from rfl, ← pow_add] at hle ⊢
  refine Nat.pow_le_pow_right (by decide) ?_
  by_contra hlt
  have : 2 ^ 31 ≤ 2 ^ (6 + k) := Nat.pow_le_pow_right (by decide) (by omega)
  simp only [INT_MAX] at hle
  omega

theorem contents_eq_nil (q : MessageQueue) : q.contents = [] ↔ q.head = q.tail := by
  rw [← List.length_eq_zero_iff, length_contents]
  exact fill_eq_zero q.head_lt

theorem pop_contents (q : MessageQueue) :
    (skynetMqPop q).1 = q.contents.head? ∧ (skynetMqPop q).2.contents = q.contents.tail := by
  by_cases h : q.head = q.tail
  · have hnil := (contents_eq_nil q).mpr h
    have hsame : (skynetMqPop q).2.contents = q.contents := by
      simp [skynetMqPop, h, MessageQueue.contents, skynetMqLength]
    rw [hsame, hnil]
    exact ⟨by simp [skynetMqPop, h], rfl⟩
  · have hfill := fill_next_head q.head_lt q.tail_lt h
    have hcons : q.contents = q.queue[q.head]! ::
        window (fun i => q.queue[i]!) q.cap (next q.cap q.head)
          (fill q.cap (next q.cap q.head) q.tail) := by
      rw [MessageQueue.contents, skynetMqLength, ← hfill, window_cons _ _ q.head_lt]
    rw [hcons]
    simp [skynetMqPop, h, MessageQueue.contents, skynetMqLength]

/-- The threshold after a pop is at least the number of messages that remain, and is reset when
there was none. -/
theorem pop_threshold (q : MessageQueue) :
    (q.contents = [] → (skynetMqPop q).2.overloadThreshold = MQ_OVERLOAD) ∧
      (q.contents ≠ [] →
        (skynetMqPop q).2.contents.length ≤ (skynetMqPop q).2.overloadThreshold) := by
  rw [Ne, contents_eq_nil]
  constructor
  · intro h
    simp [skynetMqPop, h]
  · intro h
    obtain ⟨k, hk⟩ := q.threshold_form
    have hpos : 0 < q.overloadThreshold := by
      rw [hk]; exact Nat.mul_pos (by decide) (Nat.two_pow_pos k)
    simpa [skynetMqPop, h, skynetMqLength] using le_raiseThreshold _ q.overload _ hpos

theorem window_store (q : MessageQueue) (message : SkynetMessage) :
    window (fun i => (store q message).queue[i]!) q.cap q.head (skynetMqLength q + 1) =
      q.contents ++ [message] :=
  window_set q.size_eq q.head_lt q.tail_lt message

theorem expand_contents {q : MessageQueue} (h : q.cap * 2 ≤ INT_MAX) :
    ∃ q', expandQueue q = some q' ∧ q'.inGlobal = q.inGlobal ∧
      q'.contents = window (fun i => q.queue[i]!) q.cap q.head q.cap := by
  refine ⟨_, dif_pos h, rfl, ?_⟩
  have hlen : fill (q.cap * 2) 0 q.cap = q.cap := by simp [fill]
  simp only [MessageQueue.contents, skynetMqLength, hlen]
  exact window_ofFn q.queue (by omega)

theorem linkIdle_contents (q : MessageQueue) : (linkIdle q).1.contents = q.contents := by
  unfold linkIdle; split <;> rfl

theorem linkIdle_inGlobal (q : MessageQueue) :
    (linkIdle q).1.inGlobal = true ∧ (linkIdle q).2 = !q.inGlobal := by
  cases h : q.inGlobal <;> simp [linkIdle, h]

theorem double_le {q : MessageQueue} (h : q.cap < 2 ^ 30) : q.cap * 2 ≤ INT_MAX := by
  obtain ⟨k, hk⟩ := q.cap_form
  have hpow : q.cap = 2 ^ (6 + k) := by rw [hk, pow_add]; rfl
  rw [hpow] at h ⊢
  have hlt : 6 + k < 30 := (Nat.pow_lt_pow_iff_right (by decide)).mp h
  have : 2 ^ (6 + k) ≤ 2 ^ 29 := Nat.pow_le_pow_right (by decide) (by omega)
  simp only [INT_MAX]
  omega

theorem push_undefined {q : MessageQueue} (message : SkynetMessage)
    (h : q.contents.length + 1 = 2 ^ 30) : skynetMqPush q message = none := by
  have hcap := cap_le_two_pow q
  have hlt := length_lt_cap q
  have hfull : q.head = next q.cap q.tail := by
    refine (next_tail_eq q.head_lt q.tail_lt).mpr ?_
    rw [length_contents] at h hlt
    simp only [skynetMqLength] at h hlt
    omega
  have hexp : expandQueue (store q message) = none := by
    refine dif_neg ?_
    simp only [store, INT_MAX]
    omega
  exact congrArg (Option.map linkIdle) ((if_pos hfull).trans hexp)

/-- A push that leaves fewer than `2^30` messages pending adds the message after the pending
ones, and sets `in_global`, linking the queue if it was clear. -/
theorem push_contents {q : MessageQueue} (message : SkynetMessage)
    (h : q.contents.length + 1 < 2 ^ 30) :
    ∃ q', skynetMqPush q message = some (q', !q.inGlobal) ∧ q'.inGlobal = true ∧
      q'.contents = q.contents ++ [message] := by
  have hwin := window_store q message
  obtain ⟨q1, hq1, hin, hcont⟩ : ∃ q1,
      (if q.head = next q.cap q.tail then expandQueue (store q message)
        else some (store q message)) = some q1 ∧ q1.inGlobal = q.inGlobal ∧
      q1.contents = q.contents ++ [message] := by
    by_cases hfull : q.head = next q.cap q.tail
    · have hlen : skynetMqLength q + 1 = q.cap := (next_tail_eq q.head_lt q.tail_lt).mp hfull
      rw [length_contents] at h
      obtain ⟨q1, hq1, hin, hcont⟩ := expand_contents (q := store q message)
        (double_le (show q.cap < 2 ^ 30 by omega))
      rw [hlen] at hwin
      exact ⟨q1, (if_pos hfull).trans hq1, hin, hcont.trans hwin⟩
    · have hlen := fill_next_tail q.head_lt q.tail_lt hfull
      refine ⟨store q message, if_neg hfull, rfl, ?_⟩
      rw [← hwin]
      simp only [MessageQueue.contents, skynetMqLength]
      rw [← hlen]
      rfl
  refine ⟨(linkIdle q1).1, ?_, (linkIdle_inGlobal q1).1, (linkIdle_contents q1).trans hcont⟩
  rw [← hin, ← (linkIdle_inGlobal q1).2]
  exact congrArg (Option.map linkIdle) hq1

theorem pop_none {q mq : MessageQueue} (h : skynetMqPop q = (none, mq)) :
    q.contents = [] ∧ mq.contents = [] ∧ mq.inGlobal = false ∧ mq.handle = q.handle ∧
      mq.release = q.release := by
  obtain ⟨hhead, htail⟩ := pop_contents q
  rw [h] at hhead htail
  have hnil : q.contents = [] := List.head?_eq_none_iff.mp hhead.symm
  have hends : ¬ q.head ≠ q.tail := not_not.mpr ((contents_eq_nil q).mp hnil)
  refine ⟨hnil, by rw [htail, hnil]; rfl, ?_⟩
  rw [skynetMqPop, if_neg hends] at h
  cases h
  exact ⟨rfl, rfl, rfl⟩

theorem pop_some {q mq : MessageQueue} {message : SkynetMessage}
    (h : skynetMqPop q = (some message, mq)) :
    q.contents = message :: mq.contents ∧ mq.inGlobal = q.inGlobal ∧ mq.handle = q.handle ∧
      mq.release = q.release := by
  obtain ⟨hhead, htail⟩ := pop_contents q
  rw [h] at hhead htail
  refine ⟨?_, ?_⟩
  · rw [htail]
    exact List.eq_cons_of_mem_head? hhead.symm
  · unfold skynetMqPop at h
    split at h
    · cases h
      exact ⟨rfl, rfl, rfl⟩
    · cases h

theorem push_some {q mq : MessageQueue} {message : SkynetMessage} {called : Bool}
    (h : skynetMqPush q message = some (mq, called)) :
    mq.handle = q.handle ∧ mq.release = q.release := by
  obtain ⟨q1, hq1, heq⟩ := Option.map_eq_some_iff.mp h
  have hsame : q1.handle = q.handle ∧ q1.release = q.release := by
    split at hq1
    · unfold expandQueue at hq1
      split at hq1
      · cases hq1
        exact ⟨rfl, rfl⟩
      · cases hq1
    · cases hq1
      exact ⟨rfl, rfl⟩
  rw [linkIdle] at heq
  split at heq <;> cases heq <;> exact hsame

theorem mark_some {q mq : MessageQueue} {called : Bool}
    (h : skynetMqMarkRelease q = some (mq, called)) :
    mq.handle = q.handle ∧ mq.release = true ∧ mq.inGlobal = q.inGlobal ∧
      mq.contents = q.contents ∧ called = !q.inGlobal := by
  unfold skynetMqMarkRelease at h
  split at h
  · cases h
  · cases h
    refine ⟨rfl, rfl, rfl, rfl, ?_⟩
    cases q.inGlobal <;> rfl

inductive Call
  | push (message : SkynetMessage)
  | pop

/-- The queue after the calls, and what the pops returned. -/
def exec : MessageQueue → List Call → Option (MessageQueue × List (Option SkynetMessage))
  | q, [] => some (q, [])
  | q, .push message :: calls => do
    let (q, _) ← skynetMqPush q message
    exec q calls
  | q, .pop :: calls => do
    let (message, q) := skynetMqPop q
    let (q, popped) ← exec q calls
    some (q, message :: popped)

/-- The same calls on an unbounded list of pending messages, the oldest first. -/
def fifo : List SkynetMessage → List Call → List SkynetMessage × List (Option SkynetMessage)
  | pending, [] => (pending, [])
  | pending, .push message :: calls => fifo (pending ++ [message]) calls
  | pending, .pop :: calls =>
    let (pending', popped) := fifo pending.tail calls
    (pending', pending.head? :: popped)

/-- From a queue on, as long as fewer than `2^30` messages are pending, the calls do what they do
on the list. -/
theorem exec_eq_fifo (q : MessageQueue) (calls : List Call)
    (h : ∀ before, before <+: calls → (fifo q.contents before).1.length < 2 ^ 30) :
    ∃ q', exec q calls = some (q', (fifo q.contents calls).2) ∧
      q'.contents = (fifo q.contents calls).1 := by
  induction calls generalizing q with
  | nil => exact ⟨q, rfl, rfl⟩
  | cons call calls ih =>
    cases call with
    | push message =>
      have hone := h [.push message] (by simp)
      simp only [fifo, List.length_append, List.length_singleton] at hone
      obtain ⟨q1, hq1, -, hcont⟩ := push_contents message hone
      obtain ⟨q2, hq2, hcont2⟩ := ih q1 fun before hb => by
        rw [hcont]
        exact h (.push message :: before) (by simpa using hb)
      refine ⟨q2, ?_, ?_⟩
      · simp [exec, hq1, hq2, hcont, fifo]
      · simp [hcont2, hcont, fifo]
    | pop =>
      obtain ⟨hret, hcont⟩ := pop_contents q
      obtain ⟨q2, hq2, hcont2⟩ := ih (skynetMqPop q).2 fun before hb => by
        rw [hcont]
        exact h (.pop :: before) (by simpa using hb)
      refine ⟨q2, ?_, ?_⟩
      · simp [exec, hq2, hcont, fifo, hret]
      · simp [hcont2, hcont, fifo]

/-- The ring buffer refines the FIFO list, from a new queue on, as long as fewer than `2^30`
messages are pending at once. -/
theorem mq_refines_fifo (handle : UInt32) (calls : List Call)
    (h : ∀ before, before <+: calls → (fifo [] before).1.length < 2 ^ 30) :
    ∃ q, exec (skynetMqCreate handle) calls = some (q, (fifo [] calls).2) ∧
      q.contents = (fifo [] calls).1 ∧
      skynetMqLength q = (fifo [] calls).1.length ∧
      (∃ k, q.overloadThreshold = MQ_OVERLOAD * 2 ^ k) ∧
      ((fifo [] calls).1 = [] →
        (skynetMqPop q).1 = none ∧ (skynetMqPop q).2.overloadThreshold = MQ_OVERLOAD) ∧
      (∀ message rest, (fifo [] calls).1 = message :: rest →
        (skynetMqPop q).1 = some message ∧ (skynetMqPop q).2.contents = rest ∧
          rest.length ≤ (skynetMqPop q).2.overloadThreshold) := by
  obtain ⟨q, hexec, hcont⟩ := exec_eq_fifo (skynetMqCreate handle) calls h
  rw [contents_create] at hexec hcont
  obtain ⟨hret, hrest⟩ := pop_contents q
  obtain ⟨hempty, hsome⟩ := pop_threshold q
  refine ⟨q, hexec, hcont, by rw [← hcont, length_contents], q.threshold_form, ?_, ?_⟩
  · intro hnil
    rw [← hcont] at hnil
    exact ⟨by rw [hret, hnil]; rfl, hempty hnil⟩
  · intro message rest hcons
    rw [← hcont] at hcons
    have hle := hsome (by simp [hcons])
    rw [hrest, hcons] at hle
    exact ⟨by rw [hret, hcons]; rfl, by rw [hrest, hcons]; rfl, hle⟩

def pushed (data : UInt64) : SkynetMessage := ⟨1, 0, data, 8⟩

theorem mq_refines_fifo_three :
    ∃ q, exec (skynetMqCreate 1)
        [.push (pushed 7), .push (pushed 8), .pop, .push (pushed 9), .pop, .pop, .pop] =
        some (q, [some (pushed 7), some (pushed 8), some (pushed 9), none]) ∧ q.contents = [] := by
  obtain ⟨q, hexec, hcont, -⟩ := mq_refines_fifo 1
    [.push (pushed 7), .push (pushed 8), .pop, .push (pushed 9), .pop, .pop, .pop] (by
    intro before hb
    have hle := hb.length_le
    rw [List.prefix_iff_eq_take.mp hb]
    generalize before.length = n at hle
    revert n
    decide)
  exact ⟨q, hexec, hcont⟩

theorem fifo_replicate_push (message : SkynetMessage) (pending : List SkynetMessage) (n : Nat) :
    fifo pending (List.replicate n (.push message)) =
      (pending ++ List.replicate n message, []) := by
  induction n generalizing pending with
  | zero => simp [fifo]
  | succ n ih => simp [List.replicate_succ, fifo, ih]

theorem exec_append_push (q : MessageQueue) (calls : List Call) (message : SkynetMessage) :
    exec q (calls ++ [.push message]) = (exec q calls).bind fun r =>
      (skynetMqPush r.1 message).map fun p => (p.1, r.2) := by
  induction calls generalizing q with
  | nil => cases h : skynetMqPush q message <;> simp [exec, h]
  | cons call calls ih =>
    cases call with
    | push m => cases h : skynetMqPush q m <;> simp [exec, h, ih]
    | pop =>
      cases h : exec (skynetMqPop q).2 calls with
      | none => simp [exec, ih, h]
      | some r => cases h' : skynetMqPush r.1 message <;> simp [exec, ih, h, h']

theorem exec_replicate_push (message : SkynetMessage) (handle : UInt32) {n : Nat}
    (hn : n = 2 ^ 30) :
    exec (skynetMqCreate handle) (List.replicate n (.push message)) = none := by
  obtain ⟨m, rfl⟩ : ∃ m, n = m + 1 := ⟨n - 1, by omega⟩
  -- all but the last of the pushes are within the bound
  obtain ⟨q, hexec, hcont⟩ := exec_eq_fifo (skynetMqCreate handle)
    (List.replicate m (.push message)) fun before hb => by
      have hle := hb.length_le
      rw [List.length_replicate] at hle
      rw [List.prefix_replicate_iff.mp hb |>.2, contents_create, fifo_replicate_push]
      simp only [List.nil_append, List.length_replicate]
      omega
  rw [contents_create, fifo_replicate_push] at hcont
  have hlast := push_undefined (q := q) message (by rw [hcont]; simpa using hn)
  rw [List.replicate_succ', exec_append_push, hexec]
  simp [hlast]

/-- After `2^30` pushes the doubled capacity does not fit in `int`. -/
theorem push_two_pow_30_undefined :
    exec (skynetMqCreate 1) (List.replicate (2 ^ 30) (.push default)) = none :=
  exec_replicate_push default 1 rfl

end XsServer.Mq
