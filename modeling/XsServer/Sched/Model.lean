import XsServer.Mq.Queue
import XsServer.Sched.Global
import XsServer.SkynetServer.Context

/-! The workers of `skynet_start.c` and the services they run, from `skynet_server.c` and
`skynet_mq.c`.  Any number of threads run their functions, one atomic step at a time, as in
`XsServer.SkynetServer.Context`; here the steps have their message queues too. -/

namespace XsServer.Sched

open XsServer.Lib XsServer.Handle XsServer.Mq
open XsServer.SkynetServer (Context)

inductive Frame
  /-- A worker with the queue that it goes on with, or a thread outside of these functions. -/
  | idle (q : Option Nat)
  -- `skynet_context_new`
  | new
  | storeHandle (ctx : Nat) (handle : Nat)
  | createQueue (ctx : Nat)
  | instanceInit (ctx q : Nat)
  | releaseNew (ctx q : Nat)
  | setInit (ctx q : Nat)
  | globalmqPush (ret : Option Nat) (q : Nat)
  | launch (ret : Nat)
  | failed (ctx q : Nat)
  | readHandle (ctx q : Nat)
  | releaseFailed (ctx q : Nat) (handle : Nat)
  -- `skynet_context_release` and `delete_context`
  | release (ctx : Nat)
  | closeLogfile (ctx : Nat)
  | instanceRelease (ctx : Nat)
  | markRelease (ctx : Nat)
  | free (ctx : Nat)
  -- `skynet_handle_retire` and a round of `skynet_handle_retireall`
  | retire (handle : Nat)
  | retireSlot (i : Nat)
  -- `skynet_context_push`
  | push (handle : Nat) (message : SkynetMessage)
  | mqPush (ctx : Nat) (message : SkynetMessage)
  -- `skynet_context_message_dispatch`, in the round `i` of `n`
  | dispatch (q : Nat) (handle : Nat)
  | mqPop (q ctx : Nat) (i n : Nat)
  | popped (q ctx : Nat) (message : SkynetMessage) (i n : Nat)
  | overload (q ctx : Nat) (message : SkynetMessage) (i n : Nat)
  | readCb (q ctx : Nat) (message : SkynetMessage) (i n : Nat)
  | dispatchMessage (q ctx : Nat) (message : SkynetMessage) (i n : Nat)
  | cb (q ctx : Nat) (message : SkynetMessage) (i n : Nat)
  | countCost (q ctx : Nat) (i n : Nat)
  | checkQueue (q ctx : Nat)
  | pushBack (q nq ctx : Nat)
  | globalmqPop
  -- `skynet_mq_release`, and the loop of `_drop_queue`
  | mqRelease (q : Nat) (handle : Nat)
  | dropQueue (q : Nat) (handle : Nat)
  deriving DecidableEq

/-- The module of a service runs, or a thread outside of these functions: they may call
`skynet_context_new`, `skynet_handle_retire`, `skynet_handle_retireall` and
`skynet_context_push`. -/
def Frame.Callback : Frame → Prop
  | idle none | instanceInit .. | instanceRelease _ | cb .. => True
  | _ => False

def Frame.Call : Frame → Prop
  | new | retire _ | retireSlot _ | push .. => True
  | _ => False

/-- The next round of the loop over the messages, or its end. -/
def again (q ctx i n : Nat) : Frame :=
  if i + 1 < n then .mqPop q ctx (i + 1) n else .checkQueue q ctx

/-- The steps that change no context and no queue. -/
inductive Goes : Frame → List Frame → Prop
  | call {f g : Frame} (hf : f.Callback) (hg : g.Call) : Goes f [g, f]
  | initOk {ctx q : Nat} : Goes (.instanceInit ctx q) [.releaseNew ctx q]
  | initFailed {ctx q : Nat} : Goes (.instanceInit ctx q) [.failed ctx q]
  -- `skynet_error` pushes to the logger, if there is one
  | launch {ret : Nat} : Goes (.launch ret) []
  | launchLog {ret logger : Nat} {message : SkynetMessage} :
    Goes (.launch ret) [.push logger message]
  | failed {ctx q : Nat} : Goes (.failed ctx q) [.readHandle ctx q]
  | failedLog {ctx q logger : Nat} {message : SkynetMessage} :
    Goes (.failed ctx q) [.push logger message, .readHandle ctx q]
  | closeLogfile {ctx : Nat} : Goes (.closeLogfile ctx) [.instanceRelease ctx]
  | instanceRelease {ctx : Nat} : Goes (.instanceRelease ctx) [.markRelease ctx]
  -- `i > 0` or `weight < 0`
  | popped {q ctx i n : Nat} {message : SkynetMessage} :
    Goes (.popped q ctx message i n) [.overload q ctx message i n]
  -- `ctx->cb == NULL`
  | noCb {q ctx i n : Nat} {message : SkynetMessage} :
    Goes (.readCb q ctx message i n) [again q ctx i n]
  | readCb {q ctx i n : Nat} {message : SkynetMessage} :
    Goes (.readCb q ctx message i n) [.dispatchMessage q ctx message i n]
  | cb {q ctx i n : Nat} {message : SkynetMessage} :
    Goes (.cb q ctx message i n) [.countCost q ctx i n]
  | countCost {q ctx i n : Nat} : Goes (.countCost q ctx i n) [again q ctx i n]

/-- The frames that call `skynet_context_release`: the context, and what they do next if it is still
there and if not. -/
def Frame.releases : Frame → Option (Nat × List Frame × List Frame)
  | release ctx => some (ctx, [], [])
  | releaseNew ctx q => some (ctx, [setInit ctx q], [globalmqPush none q])
  | releaseFailed ctx q handle =>
    some (ctx, [retire handle, mqRelease q handle], [retire handle, mqRelease q handle])
  | _ => none

/-- The frames that call `skynet_handle_grab`: the handle, and what they do next with the result. -/
def Frame.grabs : Frame → Option (Nat × (Option Nat → List Frame))
  | push handle message => some (handle, fun ctx => (ctx.map (mqPush · message)).toList)
  | dispatch q handle =>
    some (handle, fun ctx => match ctx with
      | some ctx => [mqPop q ctx 0 1]
      | none => [mqRelease q handle, globalmqPop])
  | _ => none

/-- A frame that runs with a reference of its own, for which it may call
`skynet_context_reserve`. -/
def Frame.runs : Frame → Option Nat
  | instanceInit ctx _ | cb _ ctx _ _ _ => some ctx
  | _ => none

/-- The handle table, the contexts, the queues and the threads.  `pushed`, `dispatched` and
`dropped` keep what went through each queue. -/
structure State where
  storage : HandleStorage Nat
  ctx : Nat → Context
  next : Nat
  reserved : List Nat
  threads : List (List Frame)
  global : GlobalQueue Nat
  queue : Nat → MessageQueue
  /-- `_release(q)` -/
  freed : Nat → Bool
  nextQueue : Nat
  /-- `ctx->queue` -/
  queueOf : Nat → Option Nat
  pushed : Nat → List SkynetMessage
  dispatched : Nat → List SkynetMessage
  dropped : Nat → List SkynetMessage
  /-- An assertion failed. -/
  aborted : Bool

def State.init (harbor threads : Nat) : State where
  storage := skynetHandleInit harbor
  ctx _ := ⟨0, 0, false, 0, false⟩
  next := 0
  reserved := []
  threads := List.replicate threads [.idle none]
  global := skynetMqInit
  queue _ := skynetMqCreate 0
  freed _ := false
  nextQueue := 0
  queueOf _ := none
  pushed _ := []
  dispatched _ := []
  dropped _ := []
  aborted := false

def State.handleOf (s : State) (ctx : Nat) : Nat := (s.ctx ctx).handle

def State.setCtx (s : State) (ctx : Nat) (c : Context) : State :=
  { s with ctx := Function.update s.ctx ctx c }

/-- The state after `skynet_handle_grab` with this result. -/
def State.grabbed (s : State) : Option Nat → State
  | some ctx => s.setCtx ctx (s.ctx ctx).grab
  | none => s

/-- The handle in a slot, which `skynet_handle_retireall` retires if it is not 0. -/
def State.retireSlot (s : State) (i : Nat) : List Frame :=
  match slotAt s.storage.slot i with
  | some ctx => if s.handleOf ctx ≠ 0 then [.retire (s.handleOf ctx)] else []
  | none => []

def State.setQueue (s : State) (q : Nat) (mq : MessageQueue) : State :=
  { s with queue := Function.update s.queue q mq }

/-- `skynet_globalmq_push(q)`, if it is called. -/
def State.link (s : State) (q : Nat) (called : Bool) : Option State :=
  if called then (skynetGlobalmqPush s.global q).map fun g => { s with global := g } else some s

/-- `skynet_globalmq_pop()` -/
def State.unlink (s : State) : Option (Option Nat × State) :=
  (skynetGlobalmqPop s.global).map fun p => (p.1, { s with global := p.2 })

/-- `l` with one more message in the history of `q`. -/
def record (l : Nat → List SkynetMessage) (q : Nat) (message : SkynetMessage) :
    Nat → List SkynetMessage :=
  Function.update l q (l q ++ [message])

def PTYPE_ERROR : UInt64 := 7
def MESSAGE_TYPE_SHIFT : UInt64 := 56

/-- The error that `drop_message` sends to the source of a message, but not to 0. -/
def dropMessage (message : SkynetMessage) (handle : Nat) : List Frame :=
  if message.source = 0 then []
  else [.push message.source.toNat
    ⟨UInt32.ofNat handle, 0, 0, PTYPE_ERROR <<< MESSAGE_TYPE_SHIFT⟩]

/-- What a frame does that works on the queues, and what comes next; `none` where an assertion
fails, where `ctx->queue` is not there yet, or where a queue grows beyond `int`. -/
def State.act (s : State) : Frame → Option (State × List Frame)
  -- `ctx->queue = skynet_mq_create(ctx->handle)`
  | .createQueue ctx =>
    some ({ s.setQueue s.nextQueue (skynetMqCreate (UInt32.ofNat (s.handleOf ctx))) with
      nextQueue := s.nextQueue + 1, queueOf := Function.update s.queueOf ctx (some s.nextQueue) },
      [.instanceInit ctx s.nextQueue])
  | .globalmqPush ret q => do
    let s ← s.link q true
    some (s, (ret.map .launch).toList)
  | .markRelease ctx => do
    let q ← s.queueOf ctx
    let (mq, called) ← skynetMqMarkRelease (s.queue q)
    let s ← (s.setQueue q mq).link q called
    some (s, [.free ctx])
  | .mqPush ctx message => do
    let q ← s.queueOf ctx
    let (mq, called) ← skynetMqPush (s.queue q) message
    let s ← (s.setQueue q mq).link q called
    some ({ s with pushed := record s.pushed q message }, [.release ctx])
  -- the worker takes a queue, and reads its handle
  | .idle none => do
    let (q, s) ← s.unlink
    some (s, [match q with | some q => .dispatch q (s.queue q).handle.toNat | none => .idle none])
  | .idle (some q) => some (s, [.dispatch q (s.queue q).handle.toNat])
  | .globalmqPop => do
    let (q, s) ← s.unlink
    some (s, [.idle q])
  | .mqPop q ctx i n =>
    match skynetMqPop (s.queue q) with
    | (none, mq) => some (s.setQueue q mq, [.release ctx, .globalmqPop])
    | (some message, mq) =>
      some ({ s.setQueue q mq with dispatched := record s.dispatched q message },
        [.popped q ctx message i n])
  -- `assert(q == ctx->queue)`, and the next queue, if there is one
  | .checkQueue q ctx =>
    if s.queueOf ctx ≠ some q then none
    else do
      let (nq, s) ← s.unlink
      some (s, match nq with
        | some nq => [.pushBack q nq ctx]
        | none => [.release ctx, .idle (some q)])
  | .pushBack q nq ctx => do
    let s ← s.link q true
    some (s, [.release ctx, .idle (some nq)])
  | .mqRelease q handle =>
    if (s.queue q).release then some (s, [.dropQueue q handle])
    else do
      let s ← s.link q true
      some (s, [])
  -- a message is dropped, or `_release(q)` is called
  | .dropQueue q handle =>
    match skynetMqPop (s.queue q) with
    | (some message, mq) =>
      some ({ s.setQueue q mq with dropped := record s.dropped q message },
        dropMessage message handle ++ [.dropQueue q handle])
    | (none, mq) =>
      if (s.global.next q).isSome then none
      else some ({ s.setQueue q mq with freed := Function.update s.freed q true }, [])
  | _ => none

def Frame.Acts : Frame → Prop
  | createQueue _ | globalmqPush .. | markRelease _ | mqPush .. | idle _ | globalmqPop | mqPop ..
  | checkQueue .. | pushBack .. | mqRelease .. | dropQueue .. => True
  | _ => False

inductive Step : State → Frame → State → Prop
  | goes {s : State} {f : Frame} {fs : List Frame} {ts : List (List Frame)} (h : Goes f fs)
    (ht : Replaces s.threads f fs ts) : Step s f { s with threads := ts }
  | act {s s1 : State} {f : Frame} {fs : List Frame} {ts : List (List Frame)}
    (h : s.act f = some (s1, fs)) (ht : Replaces s.threads f fs ts) :
    Step s f { s1 with threads := ts }
  | abort {s : State} {f : Frame} (hf : f.Acts) (h : s.act f = none)
    (ht : Replaces s.threads f [f] s.threads) : Step s f { s with aborted := true }
  -- `skynet_malloc`, `ctx->ref = 2`, `ctx->handle = 0` and `skynet_handle_register(ctx)`
  | new {s : State} {handle : Nat} {storage : HandleStorage Nat} {ts : List (List Frame)}
    (h : skynetHandleRegister (s.setCtx s.next ⟨2, 0, false, 0, false⟩).handleOf s.next s.storage =
      .ok (handle, storage))
    (ht : Replaces s.threads .new [.storeHandle s.next handle] ts) :
    Step s .new { s.setCtx s.next ⟨2, 0, false, 0, false⟩ with
      storage := storage, next := s.next + 1, threads := ts }
  | storeHandle {s : State} {ctx : Nat} {handle : Nat} {ts : List (List Frame)}
    (ht : Replaces s.threads (.storeHandle ctx handle) [.createQueue ctx] ts) :
    Step s (.storeHandle ctx handle)
      { s.setCtx ctx { s.ctx ctx with handle := handle } with threads := ts }
  | setInit {s : State} {ctx q : Nat} {ts : List (List Frame)}
    (ht : Replaces s.threads (.setInit ctx q) [.globalmqPush (some ctx) q] ts) :
    Step s (.setInit ctx q) { s.setCtx ctx { s.ctx ctx with init := true } with threads := ts }
  | readHandle {s : State} {ctx q : Nat} {ts : List (List Frame)}
    (ht : Replaces s.threads (.readHandle ctx q) [.releaseFailed ctx q (s.handleOf ctx)] ts) :
    Step s (.readHandle ctx q) { s with threads := ts }
  | release {s : State} {f : Frame} {ctx : Nat} {alive gone : List Frame} {ts : List (List Frame)}
    (h : f.releases = some (ctx, alive, gone))
    (ht : Replaces s.threads f (if (s.ctx ctx).ref = 1 then .closeLogfile ctx :: gone else alive)
      ts) :
    Step s f { s.setCtx ctx (s.ctx ctx).release with threads := ts }
  | free {s : State} {ctx : Nat} {ts : List (List Frame)}
    (ht : Replaces s.threads (.free ctx) [] ts) :
    Step s (.free ctx) { s.setCtx ctx { s.ctx ctx with freed := true } with threads := ts }
  | retire {s : State} {handle : Nat} {ts : List (List Frame)}
    (ht : Replaces s.threads (.retire handle)
      ((skynetHandleRetire s.handleOf handle s.storage).1.map .release).toList ts) :
    Step s (.retire handle)
      { s with storage := (skynetHandleRetire s.handleOf handle s.storage).2, threads := ts }
  | retireSlot {s : State} {i : Nat} {ts : List (List Frame)}
    (ht : Replaces s.threads (.retireSlot i) (s.retireSlot i) ts) :
    Step s (.retireSlot i) { s with threads := ts }
  | grab {s : State} {f : Frame} {handle : Nat} {after : Option Nat → List Frame}
    {ts : List (List Frame)} (h : f.grabs = some (handle, after))
    (ht : Replaces s.threads f (after (skynetHandleGrab s.handleOf handle s.storage)) ts) :
    Step s f { s.grabbed (skynetHandleGrab s.handleOf handle s.storage) with threads := ts }
  | reserve {s : State} {f : Frame} {ctx : Nat} (h : f.runs = some ctx)
    (ht : Replaces s.threads f [f] s.threads) :
    Step s f { s.setCtx ctx (s.ctx ctx).grab with reserved := ctx :: s.reserved }
  | unreserve {s : State} {ctx : Nat} {ts : List (List Frame)} (h : ctx ∈ s.reserved)
    (ht : Replaces s.threads (.idle none) [.release ctx, .idle none] ts) :
    Step s (.idle none) { s with reserved := s.reserved.erase ctx, threads := ts }
  -- `n = skynet_mq_length(q)`, `n >>= weight`
  | length {s : State} {q ctx n weight : Nat} {message : SkynetMessage} {ts : List (List Frame)}
    (ht : Replaces s.threads (.popped q ctx message 0 n)
      [.overload q ctx message 0 (skynetMqLength (s.queue q) >>> weight)] ts) :
    Step s (.popped q ctx message 0 n) { s with threads := ts }
  -- `skynet_mq_overload(q)`, and `skynet_error` if it is not 0
  | overload {s : State} {q ctx i n : Nat} {message : SkynetMessage} {log : List Frame}
    {ts : List (List Frame)}
    (hlog : log = [] ∨ (s.queue q).overload ≠ 0 ∧ ∃ logger text, log = [.push logger text])
    (ht : Replaces s.threads (.overload q ctx message i n) (log ++ [.readCb q ctx message i n])
      ts) :
    Step s (.overload q ctx message i n)
      { s.setQueue q { s.queue q with overload := 0 } with threads := ts }
  -- without `assert(ctx->init)`
  | dispatchMessage {s : State} {q ctx i n : Nat} {message : SkynetMessage}
    {ts : List (List Frame)}
    (ht : Replaces s.threads (.dispatchMessage q ctx message i n) [.cb q ctx message i n] ts) :
    Step s (.dispatchMessage q ctx message i n) { s with threads := ts }

/-- The queues that a thread holds: a worker, or the creator of the service. -/
def Frame.queues : Frame → List Nat
  | idle q => q.toList
  | instanceInit _ q | releaseNew _ q | setInit _ q | globalmqPush _ q | failed _ q
  | readHandle _ q | releaseFailed _ q _ | dispatch q _ | mqPop q _ _ _ | popped q _ _ _ _
  | overload q _ _ _ _ | readCb q _ _ _ _ | dispatchMessage q _ _ _ _ | cb q _ _ _ _
  | countCost q _ _ _ | checkQueue q _ | mqRelease q _ | dropQueue q _ => [q]
  | pushBack q nq _ => [q, nq]
  | _ => []

def State.held (s : State) (q : Nat) : Nat := weight (fun f => f.queues.count q) s.threads

/-- Each queue waits in the global queue, once, or is held by one frame, or is idle: it is not in
the global queue, and empty.  The messages of a queue are dispatched in the order in which they were
pushed, and those that are left when the service is gone are dropped. -/
structure State.Sound (s : State) : Prop where
  running : s.aborted = false
  scheduled : ∃ l, s.global.Linked l ∧ (∀ q ∈ l, q < s.nextQueue ∧ s.freed q = false) ∧
    ∀ q < s.nextQueue, s.freed q = false →
      l.count q = 1 ∧ s.held q = 0 ∨ l.count q = 0 ∧ s.held q = 1 ∨
      l.count q = 0 ∧ s.held q = 0 ∧ (s.queue q).inGlobal = false ∧ (s.queue q).contents = []
  fifo : ∀ q, s.pushed q = s.dispatched q ++ s.dropped q ++ (s.queue q).contents
  dropped : ∀ q, s.dropped q ≠ [] → (s.queue q).release = true
  freed : ∀ q, s.freed q = true → s.held q = 0 ∧ (s.queue q).contents = []
  /-- The code of a service runs in one thread at a time. -/
  exclusive : ∀ ctx, tally Frame.runs s.threads ctx ≤ 1

/-- `skynet_context_new` after its own release, with the context still to be used. -/
def Frame.returning : Frame → Option Nat
  | setInit ctx _ | globalmqPush (some ctx) _ | launch ctx => some ctx
  | _ => none

/-- A service has the handle: it was issued, and the queue of the service is not freed. -/
def State.InUse (s : State) (ctx handle : Nat) : Prop :=
  .storeHandle ctx handle ∈ s.threads.flatten ∨
  .createQueue ctx ∈ s.threads.flatten ∧ s.handleOf ctx = handle ∨
  ∃ q, s.queueOf ctx = some q ∧ s.freed q = false ∧ (s.queue q).handle.toNat = handle

structure Defined (s : State) (f : Frame) : Prop where
  /-- No context is freed while `skynet_context_new` is still going to use it. -/
  clear : ∀ ctx, f = .free ctx → ∀ g ∈ s.threads.flatten, g.returning ≠ some ctx
  /-- No handle is issued that another service still has. -/
  fresh : f = .new → ∀ handle storage,
    skynetHandleRegister (s.setCtx s.next ⟨2, 0, false, 0, false⟩).handleOf s.next s.storage =
      .ok (handle, storage) → ∀ ctx, ¬ s.InUse ctx handle
  /-- No message is sent to a service whose queue is not there yet. -/
  ready : ∀ handle message, f = .push handle message → ∀ ctx,
    skynetHandleGrab s.handleOf handle s.storage = some ctx → s.queueOf ctx ≠ none
  /-- A queue has fewer than `2^30` messages. -/
  room : ∀ ctx message q, f = .mqPush ctx message → s.queueOf ctx = some q →
    (s.queue q).contents.length + 1 < 2 ^ 30

end XsServer.Sched
