import XsServer.Handle.Storage
import XsServer.Lib.Run
import XsServer.Lib.Threads

/-! The references to the contexts of services, from `skynet_server.c` and `skynet_handle.c`.  Any
number of threads run their functions, one atomic step at a time: a lock section, an increment or
decrement of `ref`, or the accesses to the fields of one context between two of these. -/

namespace XsServer.SkynetServer

open XsServer.Lib XsServer.Handle

/-- The fields of `struct skynet_context` that the steps change, and what became of it. -/
structure Context where
  ref : Int
  handle : Nat
  init : Bool
  /-- How often `delete_context` was called. -/
  deletes : Nat
  /-- `skynet_free(ctx)` -/
  freed : Bool
  deriving DecidableEq, Repr

inductive Frame
  /-- None of these functions. -/
  | idle
  -- `skynet_context_new`
  | new
  | storeHandle (ctx : Nat) (handle : Nat)
  | createQueue (ctx : Nat)
  | instanceInit (ctx : Nat)
  | releaseNew (ctx : Nat)
  | setInit (ctx : Nat)
  | globalmqPush (ret : Option Nat)
  | launch (ret : Nat)
  | failed (ctx : Nat)
  | readHandle (ctx : Nat)
  | releaseFailed (ctx : Nat) (handle : Nat)
  -- `skynet_context_release` and `delete_context`
  | release (ctx : Nat)
  | closeLogfile (ctx : Nat)
  | instanceRelease (ctx : Nat)
  | markRelease (ctx : Nat)
  | free (ctx : Nat)
  -- `skynet_handle_retire` and a round of `skynet_handle_retireall`
  | retire (handle : Nat)
  | retireSlot (i : Nat)
  -- `skynet_context_push`
  | push (handle : Nat)
  | mqPush (ctx : Nat)
  -- `skynet_context_message_dispatch`, and `skynet_mq_release` with `drop_message`
  | dispatch (handle : Nat)
  | mqPop (ctx : Nat)
  | overload (ctx : Nat)
  | readCb (ctx : Nat)
  | dispatchMessage (ctx : Nat)
  | cb (ctx : Nat)
  | countCost (ctx : Nat)
  | checkQueue (ctx : Nat)
  | mqRelease
  deriving DecidableEq, Repr

/-- The module of a service runs, and may call `skynet_context_new`, `skynet_handle_retire`,
`skynet_handle_retireall` and `skynet_context_push`. -/
def Frame.Callback : Frame → Prop
  | idle | instanceInit _ | instanceRelease _ | cb _ => True
  | _ => False

def Frame.Call : Frame → Prop
  | new | retire _ | retireSlot _ | push _ => True
  | _ => False

/-- The steps that change no context. -/
inductive Goes : Frame → List Frame → Prop
  | call {f g : Frame} (hf : f.Callback) (hg : g.Call) : Goes f [g, f]
  | worker {handle : Nat} : Goes .idle [.dispatch handle, .idle]
  -- `ctx->queue = skynet_mq_create(ctx->handle)`
  | createQueue {ctx : Nat} : Goes (.createQueue ctx) [.instanceInit ctx]
  | initOk {ctx : Nat} : Goes (.instanceInit ctx) [.releaseNew ctx]
  | initFailed {ctx : Nat} : Goes (.instanceInit ctx) [.failed ctx]
  | globalmqPush {ret : Option Nat} : Goes (.globalmqPush ret) (ret.map .launch).toList
  -- `skynet_error` reads the handle of the context and pushes to the logger, if there is one
  | launch {ret : Nat} : Goes (.launch ret) []
  | launchLog {ret : Nat} {logger : Nat} : Goes (.launch ret) [.push logger]
  | failed {ctx : Nat} : Goes (.failed ctx) [.readHandle ctx]
  | failedLog {ctx : Nat} {logger : Nat} : Goes (.failed ctx) [.push logger, .readHandle ctx]
  -- `if (ctx->logfile)`
  | closeLogfile {ctx : Nat} : Goes (.closeLogfile ctx) [.instanceRelease ctx]
  | instanceRelease {ctx : Nat} : Goes (.instanceRelease ctx) [.markRelease ctx]
  | markRelease {ctx : Nat} : Goes (.markRelease ctx) [.free ctx]
  | mqPush {ctx : Nat} : Goes (.mqPush ctx) [.release ctx]
  | mqPopEmpty {ctx : Nat} : Goes (.mqPop ctx) [.release ctx]
  | mqPop {ctx : Nat} : Goes (.mqPop ctx) [.overload ctx]
  | overload {ctx : Nat} : Goes (.overload ctx) [.readCb ctx]
  | overloadLog {ctx : Nat} {logger : Nat} : Goes (.overload ctx) [.push logger, .readCb ctx]
  -- `ctx->cb == NULL`, and then the next message or the end of the loop
  | noCb {ctx : Nat} : Goes (.readCb ctx) [.mqPop ctx]
  | noCbLast {ctx : Nat} : Goes (.readCb ctx) [.checkQueue ctx]
  | readCb {ctx : Nat} : Goes (.readCb ctx) [.dispatchMessage ctx]
  -- `ctx->init`, `ctx->handle`, `ctx->logfile`, `ctx->message_count`, `ctx->profile`
  | dispatchMessage {ctx : Nat} : Goes (.dispatchMessage ctx) [.cb ctx]
  | cb {ctx : Nat} : Goes (.cb ctx) [.countCost ctx]
  | countCost {ctx : Nat} : Goes (.countCost ctx) [.mqPop ctx]
  | countCostLast {ctx : Nat} : Goes (.countCost ctx) [.checkQueue ctx]
  -- `assert(q == ctx->queue)` and the exchange with the global queue
  | checkQueue {ctx : Nat} : Goes (.checkQueue ctx) [.release ctx]
  | mqRelease : Goes .mqRelease []
  | dropMessage {source : Nat} : Goes .mqRelease [.push source, .mqRelease]

/-- The frames that call `skynet_context_release`: the context, and what they do next if it is still
there and if not. -/
def Frame.releases : Frame → Option (Nat × List Frame × List Frame)
  | release ctx => some (ctx, [], [])
  | releaseNew ctx => some (ctx, [setInit ctx], [globalmqPush none])
  | releaseFailed ctx handle =>
    some (ctx, [retire handle, mqRelease], [retire handle, mqRelease])
  | _ => none

/-- The frames that call `skynet_handle_grab`: the handle, and what they do next with the result. -/
def Frame.grabs : Frame → Option (Nat × (Option Nat → List Frame))
  | push handle => some (handle, fun ctx => (ctx.map mqPush).toList)
  | dispatch handle => some (handle, fun ctx => [(ctx.map mqPop).getD mqRelease])
  | _ => none

/-- The handle table and the contexts, those that `skynet_context_reserve` was called for, and the
threads. -/
structure State where
  storage : HandleStorage Nat
  ctx : Nat → Context
  next : Nat
  reserved : List Nat
  threads : List (List Frame)

def State.init (harbor threads : Nat) : State where
  storage := skynetHandleInit harbor
  ctx _ := ⟨0, 0, false, 0, false⟩
  next := 0
  reserved := []
  threads := List.replicate threads [.idle]

def State.handleOf (s : State) (ctx : Nat) : Nat := (s.ctx ctx).handle

def State.setCtx (s : State) (ctx : Nat) (c : Context) : State :=
  { s with ctx := Function.update s.ctx ctx c }

/-- `skynet_context_grab` -/
def Context.grab (c : Context) : Context := { c with ref := c.ref + 1 }

/-- The decrement of `skynet_context_release`, which calls `delete_context` at 0. -/
def Context.release (c : Context) : Context :=
  { c with ref := c.ref - 1, deletes := if c.ref = 1 then c.deletes + 1 else c.deletes }

/-- The state after `skynet_handle_grab` with this result. -/
def State.grabbed (s : State) : Option Nat → State
  | some ctx => s.setCtx ctx (s.ctx ctx).grab
  | none => s

/-- The handle in a slot, which `skynet_handle_retireall` retires if it is not 0. -/
def State.retireSlot (s : State) (i : Nat) : List Frame :=
  match slotAt s.storage.slot i with
  | some ctx => if s.handleOf ctx ≠ 0 then [.retire (s.handleOf ctx)] else []
  | none => []

/-- A frame that runs with a reference of its own, for which it may call
`skynet_context_reserve`. -/
def Frame.runs : Frame → Option Nat
  | instanceInit ctx | cb ctx => some ctx
  | _ => none

inductive Step : State → Frame → State → Prop
  | goes {s : State} {f : Frame} {fs : List Frame} {ts : List (List Frame)} (h : Goes f fs)
    (ht : Replaces s.threads f fs ts) : Step s f { s with threads := ts }
  -- `skynet_malloc`, `ctx->ref = 2`, `ctx->handle = 0` and `skynet_handle_register(ctx)`
  | new {s : State} {handle : Nat} {storage : HandleStorage Nat} {ts : List (List Frame)}
    (h : skynetHandleRegister (s.setCtx s.next ⟨2, 0, false, 0, false⟩).handleOf s.next s.storage =
      .ok (handle, storage))
    (ht : Replaces s.threads .new [.storeHandle s.next handle] ts) :
    Step s .new { s.setCtx s.next ⟨2, 0, false, 0, false⟩ with
      storage := storage, next := s.next + 1, threads := ts }
  | storeHandle {s : State} {ctx : Nat} {handle : Nat} {ts : List (List Frame)}
    (ht : Replaces s.threads (.storeHandle ctx handle) [.createQueue ctx] ts) :
    Step s (.storeHandle ctx handle)
      { s.setCtx ctx { s.ctx ctx with handle := handle } with threads := ts }
  | setInit {s : State} {ctx : Nat} {ts : List (List Frame)}
    (ht : Replaces s.threads (.setInit ctx) [.globalmqPush (some ctx)] ts) :
    Step s (.setInit ctx) { s.setCtx ctx { s.ctx ctx with init := true } with threads := ts }
  -- `uint32_t handle = ctx->handle`
  | readHandle {s : State} {ctx : Nat} {ts : List (List Frame)}
    (ht : Replaces s.threads (.readHandle ctx) [.releaseFailed ctx (s.handleOf ctx)] ts) :
    Step s (.readHandle ctx) { s with threads := ts }
  | release {s : State} {f : Frame} {ctx : Nat} {alive gone : List Frame} {ts : List (List Frame)}
    (h : f.releases = some (ctx, alive, gone))
    (ht : Replaces s.threads f (if (s.ctx ctx).ref = 1 then .closeLogfile ctx :: gone else alive)
      ts) :
    Step s f { s.setCtx ctx (s.ctx ctx).release with threads := ts }
  | free {s : State} {ctx : Nat} {ts : List (List Frame)}
    (ht : Replaces s.threads (.free ctx) [] ts) :
    Step s (.free ctx) { s.setCtx ctx { s.ctx ctx with freed := true } with threads := ts }
  | retire {s : State} {handle : Nat} {ts : List (List Frame)}
    (ht : Replaces s.threads (.retire handle)
      ((skynetHandleRetire s.handleOf handle s.storage).1.map .release).toList ts) :
    Step s (.retire handle)
      { s with storage := (skynetHandleRetire s.handleOf handle s.storage).2, threads := ts }
  -- the handle of the context in the slot is read in a lock section of its own
  | retireSlot {s : State} {i : Nat} {ts : List (List Frame)}
    (ht : Replaces s.threads (.retireSlot i) (s.retireSlot i) ts) :
    Step s (.retireSlot i) { s with threads := ts }
  | grab {s : State} {f : Frame} {handle : Nat} {after : Option Nat → List Frame}
    {ts : List (List Frame)} (h : f.grabs = some (handle, after))
    (ht : Replaces s.threads f (after (skynetHandleGrab s.handleOf handle s.storage)) ts) :
    Step s f { s.grabbed (skynetHandleGrab s.handleOf handle s.storage) with threads := ts }
  -- `skynet_context_reserve`, and the release of the reserved context later
  | reserve {s : State} {f : Frame} {ctx : Nat} (h : f.runs = some ctx)
    (ht : Replaces s.threads f [f] s.threads) :
    Step s f { s.setCtx ctx (s.ctx ctx).grab with reserved := ctx :: s.reserved }
  | unreserve {s : State} {ctx : Nat} {ts : List (List Frame)} (h : ctx ∈ s.reserved)
    (ht : Replaces s.threads .idle [.release ctx, .idle] ts) :
    Step s .idle { s with reserved := s.reserved.erase ctx, threads := ts }

/-- The holder of a reference to a context: the creator until its release, and a grab that is not
released.  `skynet_handle_retire` releases the reference of the table. -/
def Frame.holds : Frame → Option Nat
  | storeHandle ctx _ | createQueue ctx | instanceInit ctx | releaseNew ctx | failed ctx
  | readHandle ctx | releaseFailed ctx _ | release ctx | mqPush ctx | mqPop ctx | overload ctx
  | readCb ctx | dispatchMessage ctx | cb ctx | countCost ctx | checkQueue ctx => some ctx
  | _ => none

/-- `delete_context` -/
def Frame.deletes : Frame → Option Nat
  | closeLogfile ctx | instanceRelease ctx | markRelease ctx | free ctx => some ctx
  | _ => none

/-- `skynet_context_new` after its own release, with the context still to be used. -/
def Frame.returning : Frame → Option Nat
  | setInit ctx | globalmqPush (some ctx) | launch ctx => some ctx
  | _ => none

/-- The number of holders: the table, the reserved contexts and the threads. -/
def State.holders (s : State) (ctx : Nat) : Nat :=
  s.storage.slot.count (some ctx) + s.reserved.count ctx + tally Frame.holds s.threads ctx

/-- The next step of the frame reads or writes a field of the context. -/
def State.Uses (s : State) (f : Frame) (ctx : Nat) : Prop :=
  match f with
  -- the table may be doubled
  | .new => some ctx ∈ s.storage.slot
  | .retire handle | .push handle | .dispatch handle =>
    slotAt s.storage.slot (hash s.storage.slotSize handle) = some ctx
  | .retireSlot i => slotAt s.storage.slot i = some ctx
  -- only the message queue is used
  | .globalmqPush _ | .mqPop _ => False
  | f => f.holds = some ctx ∨ f.deletes = some ctx ∨ f.returning = some ctx

/-- `ref` counts the holders, `delete_context` was called once if there is none, and not before, and
no thread is about to use a context that was freed. -/
structure State.Sound (s : State) : Prop where
  refs : ∀ ctx < s.next, (s.ctx ctx).ref = s.holders ctx
  deletes : ∀ ctx < s.next, (s.ctx ctx).deletes = if (s.ctx ctx).ref = 0 then 1 else 0
  used : ∀ f st, f :: st ∈ s.threads → ∀ ctx, s.Uses f ctx → (s.ctx ctx).freed = false

/-- No context is freed while `skynet_context_new` is still going to use it. -/
def Clear (s : State) (f : Frame) : Prop :=
  ∀ ctx, f = .free ctx → ∀ g ∈ s.threads.flatten, g.returning ≠ some ctx

end XsServer.SkynetServer
