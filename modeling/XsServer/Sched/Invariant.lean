import XsServer.Sched.Contexts

/-! No queue is lost, and none is held twice: a queue whose flag `in_global` is set, or that is to
be released, is in the global queue or held by one frame, and every other queue is empty. -/

namespace XsServer.Sched

open XsServer.Lib XsServer.Handle XsServer.Mq
open XsServer.SkynetServer (Context)

/-- `skynet_context_new` before the queue is there. -/
def Frame.creates : Frame → Option Nat
  | storeHandle ctx _ | createQueue ctx => some ctx
  | _ => none

/-- `delete_context` before `skynet_mq_mark_release`. -/
def Frame.unmarked : Frame → Option Nat
  | closeLogfile ctx | instanceRelease ctx | markRelease ctx => some ctx
  | _ => none

/-- A frame that has a reference to a context, and its queue. -/
def Frame.serves : Frame → Option (Nat × Nat)
  | instanceInit ctx q | releaseNew ctx q | failed ctx q | readHandle ctx q
  | releaseFailed ctx q _ | mqPop q ctx _ _ | popped q ctx _ _ _ | overload q ctx _ _ _
  | readCb q ctx _ _ _ | dispatchMessage q ctx _ _ _ | cb q ctx _ _ _ | countCost q ctx _ _
  | checkQueue q ctx | pushBack q _ ctx => some (ctx, q)
  | _ => none

def State.Good (s : State) : Frame → Prop
  | .storeHandle ctx handle => 0 < handle ∧ handle < 2 ^ 32 ∧ s.handleOf ctx = 0
  | .createQueue ctx => 0 < s.handleOf ctx ∧ s.handleOf ctx < 2 ^ 32
  | .mqPush ctx _ => s.queueOf ctx ≠ none
  | .dispatch q handle => (s.queue q).handle.toNat = handle
  | .dropQueue q _ => (s.queue q).release = true
  | f => ∀ ctx q, f.serves = some (ctx, q) → s.queueOf ctx = some q

/-- How often a queue is to be in the global queue or held. -/
def State.due (s : State) (q : Nat) : Nat :=
  if q < s.nextQueue ∧ s.freed q = false ∧
    ((s.queue q).inGlobal = true ∨ (s.queue q).release = true) then 1 else 0

structure State.Links (s : State) : Prop where
  owner : ∀ ctx q, s.queueOf ctx = some q → ctx < s.next ∧ q < s.nextQueue ∧
    (s.queue q).handle.toNat = s.handleOf ctx ∧ 0 < s.handleOf ctx
  inj : ∀ c c' q, s.queueOf c = some q → s.queueOf c' = some q → c = c'
  owned : ∀ q < s.nextQueue, ∃ ctx, s.queueOf ctx = some q
  creating : ∀ ctx, tally Frame.creates s.threads ctx =
    if ctx < s.next ∧ s.queueOf ctx = none then 1 else 0
  marked : ∀ ctx q, s.queueOf ctx = some q →
    (if (s.queue q).release then 1 else 0) + tally Frame.unmarked s.threads ctx =
      (s.ctx ctx).deletes
  good : ∀ f ∈ s.threads.flatten, s.Good f
  unique : ∀ c c' handle, s.InUse c handle → s.InUse c' handle → c = c'

structure State.Inv (s : State) : Prop where
  base : s.forget.Inv
  running : s.aborted = false
  links : s.Links
  held : ∃ l, s.global.Linked l ∧ ∀ q, l.count q + s.held q = s.due q
  empty : ∀ q, (s.queue q).inGlobal = false → (s.queue q).contents = []
  gone : ∀ q, s.freed q = true → (s.queue q).release = true ∧ (s.queue q).inGlobal = false
  fresh : ∀ q, s.nextQueue ≤ q →
    s.freed q = false ∧ s.pushed q = [] ∧ s.dispatched q = [] ∧ s.dropped q = []
  fifo : ∀ q, s.pushed q = s.dispatched q ++ s.dropped q ++ (s.queue q).contents
  order : ∀ q, s.dropped q ≠ [] → (s.queue q).release = true

variable {s s' : State} {f : Frame} {fs : List Frame} {ts : List (List Frame)}

theorem State.due_le (s : State) (q : Nat) : s.due q ≤ 1 := by
  unfold State.due
  split <;> omega

/-! ### Frames -/

theorem held_step (s' : State) (ht : Replaces s.threads f fs s'.threads) (q : Nat) :
    s'.held q + f.queues.count q = s.held q + (fs.flatMap Frame.queues).count q := by
  rw [List.count_flatMap]
  exact ht.weight fun f => f.queues.count q

variable {q : Nat}

theorem held_pos (hf : f ∈ s.threads.flatten) (hq : q ∈ f.queues) : 0 < s.held q :=
  Nat.lt_of_lt_of_le (List.count_pos_iff.mpr hq) (le_weight (fun f => f.queues.count q) hf)

theorem serves_holds {ctx q : Nat} (h : f.serves = some (ctx, q)) :
    f.base.holds = some ctx ∧ q ∈ f.queues := by
  cases f <;> cases h <;> simp [Frame.base, SkynetServer.Frame.holds, Frame.queues]

variable {ctx : Nat}

theorem creates_holds (h : f.creates = some ctx) : f.base.holds = some ctx := by
  cases f <;> cases h <;> rfl

theorem State.Good.serves (h : s.Good f) {ctx q : Nat} (hf : f.serves = some (ctx, q)) :
    s.queueOf ctx = some q := by
  cases f <;> first | exact h ctx q hf | cases hf

theorem State.Good.mono (h : s.Good f) (hctx : ∀ c, s'.handleOf c = s.handleOf c)
    (hqueueOf : s'.queueOf = s.queueOf)
    (hqueue : ∀ q, (s'.queue q).handle = (s.queue q).handle ∧
      ((s.queue q).release = true → (s'.queue q).release = true)) : s'.Good f := by
  cases f with
  | storeHandle ctx handle => exact ⟨h.1, h.2.1, (hctx ctx).trans h.2.2⟩
  | createQueue ctx => simpa only [State.Good, hctx] using h
  | mqPush ctx message => simpa only [State.Good, hqueueOf] using h
  | dispatch q handle => exact (congrArg UInt32.toNat (hqueue q).1).trans h
  | dropQueue q handle => exact (hqueue q).2 h
  | _ =>
    intro ctx q hf
    rw [hqueueOf]
    exact h ctx q hf

variable {g : Frame}

theorem not_inUse_of_fs (hfs : ∀ g ∈ fs, g.creates = none)
    (hg : g.creates = some ctx) : g ∉ fs := by
  intro hmem
  rw [hfs g hmem] at hg
  cases hg

theorem State.Links.keep (hl : s.Links) (ht : Replaces s.threads f fs s'.threads)
    (hctx : ∀ c, s'.handleOf c = s.handleOf c) (hnext : s'.next = s.next)
    (hqueueOf : s'.queueOf = s.queueOf) (hnextQueue : s'.nextQueue = s.nextQueue)
    (hqueue : ∀ q, (s'.queue q).handle = (s.queue q).handle ∧
      ((s.queue q).release = true → (s'.queue q).release = true))
    (hfreed : ∀ q, s'.freed q = false → s.freed q = false) (hf : f.creates = none)
    (hfs : ∀ g ∈ fs, g.creates = none)
    (hmarked : ∀ ctx q, s.queueOf ctx = some q →
      (if (s'.queue q).release then 1 else 0) + tally Frame.unmarked s'.threads ctx =
        (s'.ctx ctx).deletes)
    (hgood : ∀ g ∈ fs, s'.Good g) : s'.Links where
  owner ctx q h := by
    rw [hqueueOf] at h
    rw [hnext, hnextQueue, (hqueue q).1, hctx]
    exact hl.owner ctx q h
  inj c c' q h h' := by
    rw [hqueueOf] at h h'
    exact hl.inj c c' q h h'
  owned q h := by
    rw [hnextQueue] at h
    rw [hqueueOf]
    exact hl.owned q h
  creating ctx := by
    have htally := ht.tally Frame.creates ctx
    have hnone : fs.filterMap Frame.creates = [] := List.filterMap_eq_nil_iff.mpr hfs
    rw [hnone, List.filterMap_cons_none hf] at htally
    rw [hnext, hqueueOf, ← hl.creating ctx]
    simpa using htally
  marked ctx q h := hmarked ctx q (hqueueOf ▸ h)
  good g hg := by
    obtain hg | hg := ht.of_mem hg
    · exact hgood g hg
    · exact (hl.good g hg).mono hctx hqueueOf hqueue
  unique c c' handle h h' := by
    have hold : ∀ {c}, s'.InUse c handle → s.InUse c handle := by
      rintro c (h | ⟨h, hh⟩ | ⟨q, hq, hqf, hqh⟩)
      · exact .inl ((ht.of_mem h).resolve_left (not_inUse_of_fs hfs rfl))
      · refine .inr (.inl ⟨(ht.of_mem h).resolve_left (not_inUse_of_fs hfs rfl), ?_⟩)
        rw [← hctx]
        exact hh
      · refine .inr (.inr ⟨q, hqueueOf ▸ hq, hfreed q hqf, ?_⟩)
        rw [← (hqueue q).1]
        exact hqh
    exact hl.unique c c' handle (hold h) (hold h')

theorem State.Inv.quiet (hi : s.Inv) (hbase : s'.forget.Inv) (hrun : s'.aborted = s.aborted)
    (hlinks : s'.Links) (hnext : s'.nextQueue = s.nextQueue) (hfreed : s'.freed = s.freed)
    (hqueue : ∀ q, (s'.queue q).inGlobal = (s.queue q).inGlobal ∧
      (s'.queue q).release = (s.queue q).release ∧ (s'.queue q).contents = (s.queue q).contents)
    (hhistory : s'.pushed = s.pushed ∧ s'.dispatched = s.dispatched ∧ s'.dropped = s.dropped)
    (hheld : ∃ l, s'.global.Linked l ∧ ∀ q, l.count q + s'.held q = s.due q) : s'.Inv where
  base := hbase
  running := hrun.trans hi.running
  links := hlinks
  held := by
    obtain ⟨l, hl, hcount⟩ := hheld
    refine ⟨l, hl, fun q => ?_⟩
    rw [hcount, State.due, State.due, hnext, hfreed, (hqueue q).1, (hqueue q).2.1]
  empty q h := by
    rw [(hqueue q).2.2]
    exact hi.empty q ((hqueue q).1 ▸ h)
  gone q h := by
    rw [(hqueue q).1, (hqueue q).2.1]
    exact hi.gone q (hfreed ▸ h)
  fresh q h := by
    rw [hfreed, hhistory.1, hhistory.2.1, hhistory.2.2]
    exact hi.fresh q (hnext ▸ h)
  fifo q := by
    rw [hhistory.1, hhistory.2.1, hhistory.2.2, (hqueue q).2.2]
    exact hi.fifo q
  order q h := by
    rw [(hqueue q).2.1]
    exact hi.order q (hhistory.2.2 ▸ h)

theorem State.Inv.turn (hi : s.Inv) (hbase : s'.forget.Inv) (hrun : s'.aborted = s.aborted)
    (hlinks : s'.Links) (hlt : q < s'.nextQueue)
    (hnext : ∀ x, x ≠ q → (x < s'.nextQueue ↔ x < s.nextQueue))
    (hother : ∀ x, x ≠ q → s'.queue x = s.queue x ∧ s'.freed x = s.freed x ∧
      s'.pushed x = s.pushed x ∧ s'.dispatched x = s.dispatched x ∧ s'.dropped x = s.dropped x)
    (hheld : ∃ l, s'.global.Linked l ∧ ∀ x, l.count x + s'.held x =
      if x = q then s'.due q else s.due x)
    (hempty : (s'.queue q).inGlobal = false → (s'.queue q).contents = [])
    (hgone : s'.freed q = true → (s'.queue q).release = true ∧ (s'.queue q).inGlobal = false)
    (hfifo : s'.pushed q = s'.dispatched q ++ s'.dropped q ++ (s'.queue q).contents)
    (horder : s'.dropped q ≠ [] → (s'.queue q).release = true) : s'.Inv where
  base := hbase
  running := hrun.trans hi.running
  links := hlinks
  held := by
    obtain ⟨l, hl, hcount⟩ := hheld
    refine ⟨l, hl, fun x => ?_⟩
    rw [hcount]
    split
    case isTrue h => rw [h]
    case isFalse h =>
      obtain ⟨hqueue, hfreed, -⟩ := hother x h
      simp only [State.due, hnext x h, hfreed, hqueue]
  empty x := by
    by_cases hx : x = q
    · rwa [hx]
    · rw [(hother x hx).1]
      exact hi.empty x
  gone x := by
    by_cases hx : x = q
    · rwa [hx]
    · obtain ⟨hqueue, hfreed, -⟩ := hother x hx
      rw [hqueue, hfreed]
      exact hi.gone x
  fresh x hx := by
    have hne : x ≠ q := by omega
    obtain ⟨-, hfreed, hp, hd, hr⟩ := hother x hne
    rw [hfreed, hp, hd, hr]
    exact hi.fresh x (Nat.not_lt.mp (mt (hnext x hne).mpr (Nat.not_lt.mpr hx)))
  fifo x := by
    by_cases hx : x = q
    · rwa [hx]
    · obtain ⟨hqueue, -, hp, hd, hr⟩ := hother x hx
      rw [hqueue, hp, hd, hr]
      exact hi.fifo x
  order x := by
    by_cases hx : x = q
    · rwa [hx]
    · obtain ⟨hqueue, -, -, -, hr⟩ := hother x hx
      rw [hqueue, hr]
      exact hi.order x

theorem held_by (hf : f ∈ s.threads.flatten) (hq : q ∈ f.queues) {l : List Nat}
    (hcount : ∀ q, l.count q + s.held q = s.due q) :
    q ∉ l ∧ s.held q = 1 ∧ s.due q = 1 ∧ q < s.nextQueue ∧ s.freed q = false := by
  have hpos := held_pos hf hq
  have hc := hcount q
  have hle := s.due_le q
  have hdue : s.due q = 1 := by omega
  refine ⟨List.count_eq_zero.mp (by omega), by omega, hdue, ?_⟩
  unfold State.due at hdue
  split at hdue
  case isTrue h => exact ⟨h.1, h.2.1⟩
  case isFalse => cases hdue

namespace State.Inv

variable (hi : s.Inv)
include hi

theorem not_freed (h : (s.queue q).release = false) : s.freed q = false := by
  by_contra hfreed
  cases h.symm.trans (hi.gone q (Bool.eq_true_of_not_eq_false hfreed)).1

theorem alive (h : 0 < s.forget.holders ctx) :
    ctx < s.next ∧ (s.ctx ctx).deletes = 0 ∧
      ∀ q, s.queueOf ctx = some q → (s.queue q).release = false ∧ s.freed q = false := by
  obtain ⟨hlt, -, hdel, -⟩ := hi.base.live h
  refine ⟨hlt, hdel, fun q hq => ?_⟩
  have hmarked := hi.links.marked ctx q hq
  have hrel : (s.queue q).release = false := by
    rw [show (s.ctx ctx).deletes = 0 from hdel] at hmarked
    by_contra hr
    rw [if_pos (Bool.eq_true_of_not_eq_false hr)] at hmarked
    omega
  exact ⟨hrel, hi.not_freed hrel⟩

theorem alive_of_frame (hf : f ∈ s.threads.flatten) (h : f.base.holds = some ctx) :
    ctx < s.next ∧ (s.ctx ctx).deletes = 0 ∧
      ∀ q, s.queueOf ctx = some q → (s.queue q).release = false ∧ s.freed q = false :=
  hi.alive (SkynetServer.State.holders_pos_of_frame (base_mem_forget hf) h)

theorem grab_owner {q handle ctx : Nat} (hf : .dispatch q handle ∈ s.threads.flatten)
    (hgrab : skynetHandleGrab s.handleOf handle s.storage = some ctx) :
    s.queueOf ctx = some q := by
  obtain ⟨l, -, hcount⟩ := hi.held
  obtain ⟨-, -, -, hlt, hfreed⟩ := held_by hf (List.mem_singleton_self q) hcount
  have hhandle : (s.queue q).handle.toNat = handle := hi.links.good _ hf
  obtain ⟨owner, howner⟩ := hi.links.owned q hlt
  have huse : s.InUse owner handle := .inr (.inr ⟨q, howner, hfreed, hhandle⟩)
  obtain ⟨hslot, hctx⟩ := grab_eq_some.mp hgrab
  obtain ⟨hnext, -, hqueues⟩ := hi.alive (SkynetServer.State.holders_pos_of_slot hslot)
  cases hq : s.queueOf ctx with
  | some q' =>
    have huse' : s.InUse ctx handle :=
      .inr (.inr ⟨q', hq, (hqueues q' hq).2, (hi.links.owner ctx q' hq).2.2.1.trans hctx⟩)
    rw [hi.links.unique ctx owner handle huse' huse, howner] at hq
    exact hq.symm
  | none =>
    have hpos : 0 < tally Frame.creates s.threads ctx := by
      rw [hi.links.creating, if_pos ⟨hnext, hq⟩]
      exact Nat.one_pos
    obtain ⟨g, hg, hcreates⟩ := List.mem_filterMap.mp (List.count_pos_iff.mp hpos)
    have hgood := hi.links.good g hg
    have howned := hi.links.owner owner q howner
    cases g <;> cases hcreates
    · have hzero : s.handleOf ctx = 0 := hgood.2.2
      omega
    · have huse' : s.InUse ctx handle := .inr (.inl ⟨hg, hctx⟩)
      rw [hi.links.unique ctx owner handle huse' huse, howner] at hq
      cases hq

theorem unmarked (hf : f ∈ s.threads.flatten) (h : f.unmarked = some ctx) :
    ∃ q, s.queueOf ctx = some q ∧ (s.queue q).release = false ∧ s.freed q = false ∧
      tally Frame.unmarked s.threads ctx = 1 ∧ (s.ctx ctx).deletes = 1 := by
  have hdel : f.base.deletes = some ctx := by cases f <;> cases h <;> rfl
  have hpos := tally_pos (base_mem_forget hf) hdel
  have hpos' := tally_pos hf h
  have hbase := hi.base.freed ctx
  change tally SkynetServer.Frame.deletes (forgetThreads s.threads) ctx + _ =
    (s.ctx ctx).deletes at hbase
  have hlt : ctx < s.next := by
    by_contra hge
    have : (s.ctx ctx).deletes = 0 := (hi.base.fresh ctx (Nat.le_of_not_lt hge)).2
    omega
  have hone : (s.ctx ctx).deletes ≤ 1 := by
    rw [show (s.ctx ctx).deletes = _ from hi.base.deletes ctx hlt]
    split <;> omega
  cases hq : s.queueOf ctx with
  | none =>
    have hcreating : 0 < tally Frame.creates s.threads ctx := by
      rw [hi.links.creating, if_pos ⟨hlt, hq⟩]
      exact Nat.one_pos
    obtain ⟨g, hg, hcreates⟩ := List.mem_filterMap.mp (List.count_pos_iff.mp hcreating)
    have := (hi.alive_of_frame hg (creates_holds hcreates)).2.1
    omega
  | some q =>
    have hmarked := hi.links.marked ctx q hq
    have hrel : (s.queue q).release = false := by
      by_contra hr
      rw [if_pos (Bool.eq_true_of_not_eq_false hr)] at hmarked
      omega
    rw [hrel] at hmarked
    simp only [Bool.false_eq_true, if_false] at hmarked
    exact ⟨q, rfl, hrel, hi.not_freed hrel, by omega, by omega⟩

end State.Inv

/-! ### Steps that change contexts -/

structure SameQueues (s s' : State) : Prop where
  global : s'.global = s.global
  freed : s'.freed = s.freed
  nextQueue : s'.nextQueue = s.nextQueue
  queueOf : s'.queueOf = s.queueOf
  aborted : s'.aborted = s.aborted
  history : s'.pushed = s.pushed ∧ s'.dispatched = s.dispatched ∧ s'.dropped = s.dropped
  queue : ∀ q, (s'.queue q).handle = (s.queue q).handle ∧
    (s'.queue q).inGlobal = (s.queue q).inGlobal ∧
    (s'.queue q).release = (s.queue q).release ∧ (s'.queue q).contents = (s.queue q).contents

def State.queues (s : State) :=
  (s.global, s.freed, s.nextQueue, s.queueOf, s.aborted, s.pushed, s.dispatched, s.dropped, s.queue)

theorem SameQueues.of_eq (h : s'.queues = s.queues) : SameQueues s s' := by
  simp only [State.queues, Prod.mk.injEq] at h
  obtain ⟨hglobal, hfreed, hnext, hqueueOf, haborted, hp, hd, hr, hqueue⟩ := h
  exact ⟨hglobal, hfreed, hnext, hqueueOf, haborted, ⟨hp, hd, hr⟩, fun q => by rw [hqueue]; simp⟩

theorem State.Inv.hold (hi : s.Inv) (hbase : s'.forget.Inv) (hlinks : s'.Links)
    (hsame : SameQueues s s') (ht : Replaces s.threads f fs s'.threads)
    (hqueues : fs.flatMap Frame.queues = f.queues) : s'.Inv := by
  refine hi.quiet hbase hsame.aborted hlinks hsame.nextQueue hsame.freed
    (fun q => (hsame.queue q).2) hsame.history ?_
  obtain ⟨l, hl, hcount⟩ := hi.held
  refine ⟨l, hsame.global ▸ hl, fun q => ?_⟩
  have hheld := held_step s' ht q
  rw [hqueues] at hheld
  rw [← hcount q]
  omega

theorem State.Inv.context (hi : s.Inv) (hbase : s'.forget.Inv) (hsame : SameQueues s s')
    (ht : Replaces s.threads f fs s'.threads) (hqueues : fs.flatMap Frame.queues = f.queues)
    (hctx : ∀ c, s'.handleOf c = s.handleOf c) (hnext : s'.next = s.next)
    (hf : f.creates = none) (hfs : ∀ g ∈ fs, g.creates = none)
    (hmarked : ∀ ctx, (fs.filterMap Frame.unmarked).count ctx + (s.ctx ctx).deletes =
      ([f].filterMap Frame.unmarked).count ctx + (s'.ctx ctx).deletes)
    (hgood : ∀ g ∈ fs, s'.Good g) : s'.Inv := by
  refine hi.hold hbase ?_ hsame ht hqueues
  refine hi.links.keep ht hctx hnext hsame.queueOf hsame.nextQueue
    (fun q => ⟨(hsame.queue q).1, fun h => (hsame.queue q).2.2.1.trans h⟩)
    (fun q h => hsame.freed ▸ h) hf hfs (fun ctx q hq => ?_) hgood
  have htally := ht.tally Frame.unmarked ctx
  have hold := hi.links.marked ctx q hq
  have hnew := hmarked ctx
  rw [(hsame.queue q).2.2.1]
  omega

theorem good_of_serves_none (hs : g.serves = none)
    (h : match g with
      | .storeHandle .. | .createQueue _ | .mqPush .. | .dispatch .. | .dropQueue .. => False
      | _ => True) : s.Good g := by
  cases g <;> first | exact h.elim | (intro ctx q hq; rw [hs] at hq; cases hq)

theorem State.Good.go (h : s.Good f) (hs : g.serves = f.serves)
    (hg : match g with
      | .storeHandle .. | .createQueue _ | .mqPush .. | .dispatch .. | .dropQueue .. => False
      | _ => True) : s.Good g := by
  have hold : ∀ ctx q, f.serves = some (ctx, q) → s.queueOf ctx = some q := fun _ _ => h.serves
  rw [← hs] at hold
  cases g <;> first | exact hg.elim | exact hold

theorem again_cases (q ctx i n : Nat) :
    (again q ctx i n).creates = none ∧ (again q ctx i n).queues = [q] ∧
      (again q ctx i n).unmarked = none ∧ (s.queueOf ctx = some q → s.Good (again q ctx i n)) := by
  obtain h | h := again_forget q ctx i n <;> rw [h] <;>
    exact ⟨rfl, rfl, rfl, fun hq ctx' q' heq => by cases heq; exact hq⟩

structure Quiet (s : State) (f : Frame) (fs : List Frame) : Prop where
  before : f.creates = none
  creates : ∀ g ∈ fs, g.creates = none
  queues : fs.flatMap Frame.queues = f.queues
  unmarked : fs.filterMap Frame.unmarked = [f].filterMap Frame.unmarked
  good : ∀ g ∈ fs, s.Good g

theorem State.Inv.same (hi : s.Inv) (hbase : s'.forget.Inv)
    (ht : Replaces s.threads f fs s'.threads) (h : Quiet s f fs) (hqueues : s'.queues = s.queues)
    (hnext : s'.next = s.next)
    (hctx : ∀ c, (s'.ctx c).handle = (s.ctx c).handle ∧ (s'.ctx c).deletes = (s.ctx c).deletes) :
    s'.Inv := by
  have hsame := SameQueues.of_eq hqueues
  refine hi.context hbase hsame ht h.queues (fun c => (hctx c).1) hnext h.before h.creates
    (fun c => by rw [h.unmarked, (hctx c).2]) fun g hg => ?_
  exact (h.good g hg).mono (fun c => (hctx c).1) hsame.queueOf fun q =>
    ⟨(hsame.queue q).1, fun h => (hsame.queue q).2.2.1.trans h⟩

theorem Goes.quiet (h : Goes f fs) (hgood : s.Good f) : Quiet s f fs := by
  cases h with
  | @call f g hf hg =>
    have hcall : g.creates = none ∧ g.queues = [] ∧ g.unmarked = none ∧ s.Good g := by
      cases g <;> first | exact hg.elim | exact ⟨rfl, rfl, rfl, by simp [State.Good, Frame.serves]⟩
    obtain ⟨hc, hq, hu, hgg⟩ := hcall
    have hfc : f.creates = none := by cases f <;> first | exact hf.elim | rfl
    refine ⟨hfc, by simp [hc, hfc], by simp [hq], ?_, by simp [hgg, hgood]⟩
    rw [List.filterMap_cons_none hu]
  | launch => exact ⟨rfl, by simp, rfl, rfl, by simp⟩
  | @noCb q ctx i n | @countCost q ctx i n =>
    obtain ⟨hc, hq, hu, hg⟩ := again_cases (s := s) q ctx i n
    refine ⟨rfl, by simp [hc], ?_, ?_, by simpa using hg (hgood _ _ rfl)⟩
    · rw [List.flatMap_singleton, hq]
      rfl
    · rw [List.filterMap_cons_none hu]
      rfl
  | launchLog | closeLogfile | instanceRelease =>
    exact ⟨rfl, by simp [Frame.creates], rfl, rfl, by simp [State.Good, Frame.serves]⟩
  | failedLog =>
    refine ⟨rfl, by simp [Frame.creates], rfl, rfl, fun g hg => ?_⟩
    obtain rfl | rfl : g = _ ∨ g = _ := by simpa using hg
    · exact good_of_serves_none rfl trivial
    · exact hgood.go rfl trivial
  | _ =>
    refine ⟨rfl, by simp [Frame.creates], rfl, rfl, fun g hg => ?_⟩
    rw [List.mem_singleton.mp hg]
    exact hgood.go rfl trivial

theorem releases_quiet {alive gone : List Frame}
    (h : f.releases = some (ctx, alive, gone)) : Quiet s f alive ∧ Quiet s f gone := by
  cases f <;> cases h <;>
    exact ⟨⟨rfl, by simp [Frame.creates], rfl, rfl, by simp [State.Good, Frame.serves]⟩,
      rfl, by simp [Frame.creates], rfl, rfl, by simp [State.Good, Frame.serves]⟩

theorem State.Inv.grabs_quiet (hi : s.Inv) (hd : Defined s f) (hf : f ∈ s.threads.flatten)
    {handle : Nat} {after : Option Nat → List Frame} (h : f.grabs = some (handle, after)) :
    Quiet s f (after (skynetHandleGrab s.handleOf handle s.storage)) := by
  cases hgrab : skynetHandleGrab s.handleOf handle s.storage with
  | none =>
    cases f <;> cases h <;>
      exact ⟨rfl, by simp [Frame.creates], rfl, rfl, by simp [State.Good, Frame.serves]⟩
  | some ctx =>
    cases f <;> cases h <;> refine ⟨rfl, by simp [Frame.creates], rfl, rfl, fun g hg => ?_⟩ <;>
      rw [List.mem_singleton.mp hg]
    · exact hd.ready _ _ rfl ctx hgrab
    · intro c q heq
      cases heq
      exact hi.grab_owner hf hgrab

theorem register_bounds {handleOf : Nat → Nat} {ctx handle n : Nat} {t t' : HandleStorage Nat}
    (h : registerLoop handleOf ctx n t = .ok (handle, t')) : 0 < handle ∧ handle < 2 ^ 32 := by
  induction n generalizing t with
  | zero => cases h
  | succ n ih =>
    cases hprobe : probe t.slot t.slotSize t.handleIndex with
    | some handle' =>
      rw [registerLoop_some hprobe] at h
      cases h
      obtain ⟨hpos, hle⟩ := probe_bounds t.index_pos hprobe
      obtain ⟨b, hb, hharbor⟩ := t.harbor_form
      refine ⟨Nat.lt_of_lt_of_le hpos Nat.left_le_or, Nat.or_lt_two_pow ?_ ?_⟩
      · simp only [HANDLE_MASK] at hle
        omega
      · rw [hharbor, HANDLE_REMOTE_SHIFT, Nat.shiftLeft_eq]
        omega
    | none =>
      rw [registerLoop_none hprobe] at h
      cases hgrow : grow handleOf t with
      | error e =>
        rw [hgrow] at h
        cases h
      | ok t1 =>
        rw [hgrow] at h
        exact ih h

theorem State.Links.creates_lt (hl : s.Links) (hf : f ∈ s.threads.flatten)
    (h : f.creates = some ctx) :
    ctx < s.next ∧ s.queueOf ctx = none := by
  have hpos := tally_pos hf h
  have htally := hl.creating ctx
  split at htally
  case isTrue hc => exact hc
  case isFalse => omega

theorem State.Inv.creation (hi : s.Inv) {ctx k : Nat}
    (ht : Replaces s.threads f [g] s'.threads) (hnone : s.queueOf ctx = none)
    (hf : f.creates = some ctx ∨ f.creates = none ∧ ctx = s.next)
    (hg : g.creates = some ctx ∧ s'.queueOf ctx = none ∨ g.creates = none ∧ s'.queueOf ctx ≠ none)
    (hlt : ctx < s'.next) (hnext : ∀ c, c ≠ ctx → (c < s'.next ↔ c < s.next))
    (hu : f.unmarked = none) (hu' : g.unmarked = none)
    (hother : ∀ c, c ≠ ctx → s'.ctx c = s.ctx c ∧ s'.queueOf c = s.queueOf c)
    (hqueue : ∀ q < s.nextQueue, q < s'.nextQueue ∧ s'.queue q = s.queue q)
    (hfreed : s'.freed = s.freed)
    (hnew : ∀ q, s'.queueOf ctx = some q ↔ s.nextQueue ≤ q ∧ q < s'.nextQueue)
    (hown : ∀ q, s'.queueOf ctx = some q → (s'.queue q).handle.toNat = s'.handleOf ctx ∧
      0 < s'.handleOf ctx ∧ (if (s'.queue q).release then 1 else 0) +
        tally Frame.unmarked s.threads ctx = (s'.ctx ctx).deletes)
    (hgood : s'.Good g)
    (hkey : g = .storeHandle ctx k ∨ (∀ k', g ≠ .storeHandle ctx k') ∧ s'.handleOf ctx = k)
    (huse : s.InUse ctx k ∨ ∀ c, ¬ s.InUse c k) : s'.Links := by
  have hl := hi.links
  obtain ⟨l, -, hcount⟩ := hi.held
  have hcase : ∀ {c q}, s'.queueOf c = some q → c = ctx ∧ s.nextQueue ≤ q ∧ q < s'.nextQueue ∨
      c ≠ ctx ∧ s.queueOf c = some q ∧ q < s.nextQueue := by
    intro c q hq
    by_cases hc : c = ctx
    · exact .inl ⟨hc, (hnew q).mp (hc ▸ hq)⟩
    · have hold := (hother c hc).2.symm.trans hq
      exact .inr ⟨hc, hold, (hl.owner c q hold).2.1⟩
  have hhas : ∀ {c q}, s.queueOf c = some q → c ≠ ctx := by
    rintro c q hq rfl
    cases hnone.symm.trans hq
  have hunmarked : ∀ c, tally Frame.unmarked s'.threads c = tally Frame.unmarked s.threads c :=
    fun c => by simpa [hu, hu'] using ht.tally Frame.unmarked c
  have hcreates : ∀ {c}, g.creates = some c → c = ctx := by
    intro c hc
    obtain ⟨hg, -⟩ | ⟨hg, -⟩ := hg <;> cases hg.symm.trans hc
    rfl
  have hcreating : ∀ c, tally Frame.creates s'.threads c =
      if c < s'.next ∧ s'.queueOf c = none then 1 else 0 := by
    intro c
    have h := ht.tally Frame.creates c
    rw [hl.creating] at h
    by_cases hc : c = ctx
    · subst hc
      have hold : f.creates = some c → c < s.next := fun h => (hl.creates_lt ht.mem h).1
      obtain hf | ⟨hf, rfl⟩ := hf <;> obtain ⟨hg, hq⟩ | ⟨hg, hq⟩ := hg <;>
        simp_all
    · obtain hf | ⟨hf, rfl⟩ := hf <;> obtain ⟨hg, hq⟩ | ⟨hg, hq⟩ := hg <;>
        simpa [hf, hg, Ne.symm hc, hnext c hc, (hother c hc).2] using h
  have hmem : g ∈ s'.threads.flatten := by
    obtain ⟨l, st, r, -, h⟩ := ht
    rw [h]
    simp
  have hrest : ∀ {h}, h ∈ s'.threads.flatten → h.creates = some ctx → h = g := by
    intro h hh hc
    have hone := hcreating ctx
    have hpos := tally_pos hh hc
    by_contra hne
    obtain ⟨hg, -⟩ | ⟨-, hq⟩ := hg
    · have := tally_two hh hmem hne hc hg
      split at hone <;> omega
    · rw [if_neg fun h => hq h.2] at hone
      omega
  have hin : ∀ {c k'}, s'.InUse c k' → c = ctx ∧ k' = k ∨ c ≠ ctx ∧ s.InUse c k' := by
    intro c k' h
    by_cases hc : c = ctx
    · subst hc
      refine .inl ⟨rfl, ?_⟩
      obtain h | ⟨h, hk⟩ | ⟨q, hq, -, hk⟩ := h
      · obtain rfl | ⟨hne, -⟩ := hkey
        · cases hrest h rfl
          rfl
        · exact absurd (hrest h rfl).symm (hne k')
      · obtain rfl | ⟨-, hkey⟩ := hkey
        · cases hrest h rfl
        · exact hk.symm.trans hkey
      · obtain rfl | ⟨-, hkey⟩ := hkey
        · obtain ⟨-, hg⟩ | ⟨hg, -⟩ := hg
          · cases hg.symm.trans hq
          · cases hg
        · exact hk.symm.trans ((hown q hq).1.trans hkey)
    · have hold : ∀ {h}, h ∈ s'.threads.flatten → h.creates = some c → h ∈ s.threads.flatten :=
        fun hh hcr => (ht.of_mem hh).resolve_left fun hm =>
          hc (hcreates (List.mem_singleton.mp hm ▸ hcr))
      refine .inr ⟨hc, ?_⟩
      obtain h | ⟨h, hk⟩ | ⟨q, hq, hqf, hk⟩ := h
      · exact .inl (hold h rfl)
      · exact .inr (.inl ⟨hold h rfl, (congrArg Context.handle (hother c hc).1).symm.trans hk⟩)
      · have hq := (hother c hc).2.symm.trans hq
        rw [(hqueue q (hl.owner c q hq).2.1).2] at hk
        exact .inr (.inr ⟨q, hq, hfreed ▸ hqf, hk⟩)
  refine ⟨fun c q hq => ?_, fun c c' q hq hq' => ?_, fun q hq => ?_, hcreating, fun c q hq => ?_,
    fun h hh => ?_, fun c c' k' h h' => ?_⟩
  · obtain ⟨rfl, -, hqlt⟩ | ⟨hc, hold, hqlt⟩ := hcase hq
    · exact ⟨hlt, hqlt, (hown q hq).1, (hown q hq).2.1⟩
    · rw [hnext c hc, (hqueue q hqlt).2, State.handleOf, (hother c hc).1]
      have := hl.owner c q hold
      exact ⟨this.1, (hqueue q hqlt).1, this.2.2⟩
  · obtain ⟨rfl, hge, -⟩ | ⟨-, hold, hqlt⟩ := hcase hq <;>
      obtain ⟨rfl, hge', -⟩ | ⟨-, hold', hqlt'⟩ := hcase hq'
    · rfl
    · omega
    · omega
    · exact hl.inj c c' q hold hold'
  · by_cases hold : q < s.nextQueue
    · obtain ⟨c, hc⟩ := hl.owned q hold
      exact ⟨c, (hother c (hhas hc)).2.trans hc⟩
    · exact ⟨ctx, (hnew q).mpr ⟨Nat.not_lt.mp hold, hq⟩⟩
  · rw [hunmarked]
    obtain ⟨rfl, -, -⟩ | ⟨hc, hold, hqlt⟩ := hcase hq
    · exact (hown q hq).2.2
    · rw [(hqueue q hqlt).2, (hother c hc).1]
      exact hl.marked c q hold
  · by_cases hc : h.creates = some ctx
    · exact hrest hh hc ▸ hgood
    obtain hh | hh := ht.of_mem hh
    · exact List.mem_singleton.mp hh ▸ hgood
    have hold := hl.good h hh
    have hheld : ∀ {q}, q ∈ h.queues → s'.queue q = s.queue q := fun hq =>
      (hqueue _ (held_by hh hq hcount).2.2.2.1).2
    cases h with
    | storeHandle c k =>
      have heq := congrArg Context.handle (hother c fun h => hc (congrArg some h)).1
      exact ⟨hold.1, hold.2.1, heq.trans hold.2.2⟩
    | createQueue c =>
      have heq := congrArg Context.handle (hother c fun h => hc (congrArg some h)).1
      exact ⟨hold.1.trans_eq heq.symm, heq.trans_lt hold.2⟩
    | mqPush c message => exact (hother c fun h => hold (h ▸ hnone)).2.trans_ne hold
    | dispatch q k =>
      have heq : (s.queue q).handle.toNat = k := hold
      exact (congrArg (fun mq => mq.handle.toNat) (hheld List.mem_cons_self)).trans heq
    | dropQueue q k => exact (congrArg MessageQueue.release (hheld List.mem_cons_self)).trans hold
    | _ => exact fun c q heq => (hother c (hhas (hold c q heq))).2.trans (hold c q heq)
  · obtain ⟨rfl, rfl⟩ | ⟨hc, h⟩ := hin h <;> obtain ⟨rfl, hk⟩ | ⟨hc', h'⟩ := hin h'
    · rfl
    · exact huse.elim (fun hu => hl.unique _ _ _ hu h') fun hn => absurd h' (hn _)
    · exact huse.elim (fun hu => hl.unique _ _ _ h (hk ▸ hu)) fun hn => absurd h (hk ▸ hn _)
    · exact hl.unique c c' k' h h'

theorem handleOf_setCtx (ctx : Nat) (c : Context) : (s.setCtx ctx c).handleOf ctx = c.handle := by
  simp [State.handleOf, State.setCtx]

theorem State.Inv.new (hi : s.Inv) (hd : Defined s .new) {handle : Nat}
    {storage : HandleStorage Nat}
    (h : skynetHandleRegister (s.setCtx s.next ⟨2, 0, false, 0, false⟩).handleOf s.next s.storage =
      .ok (handle, storage))
    (ht : Replaces s.threads .new [.storeHandle s.next handle] ts) :
    State.Links { s.setCtx s.next ⟨2, 0, false, 0, false⟩ with
      storage := storage, next := s.next + 1, threads := ts } := by
  have hfree : s.queueOf s.next = none := by
    cases hq : s.queueOf s.next with
    | none => rfl
    | some q => exact absurd (hi.links.owner _ q hq).1 (Nat.lt_irrefl _)
  have hno : ∀ q, s.queueOf s.next ≠ some q := fun q hq => by cases hfree.symm.trans hq
  obtain ⟨hpos, hbound⟩ := register_bounds h
  exact hi.creation ht hfree (.inr ⟨rfl, rfl⟩) (.inl ⟨rfl, hfree⟩) (Nat.lt_succ_self _)
    (fun c hc => ⟨fun h => Nat.lt_of_le_of_ne (Nat.le_of_lt_succ h) hc, Nat.lt_succ_of_lt⟩) rfl rfl
    (fun c hc => ⟨Function.update_of_ne hc .., rfl⟩) (fun q hq => ⟨hq, rfl⟩) rfl
    (fun q => iff_of_false (hno q) fun h => absurd h.2 (Nat.not_lt.mpr h.1))
    (fun q hq => absurd hq (hno q))
    ⟨hpos, hbound, handleOf_setCtx s.next _⟩ (.inl rfl)
    (.inr (hd.fresh rfl _ _ h))

theorem State.Inv.storeHandle (hi : s.Inv) {ctx handle : Nat}
    (ht : Replaces s.threads (.storeHandle ctx handle) [.createQueue ctx] ts) :
    State.Links { s.setCtx ctx { s.ctx ctx with handle := handle } with threads := ts } := by
  obtain ⟨hlt, hnone⟩ := hi.links.creates_lt ht.mem rfl
  have hgood := hi.links.good _ ht.mem
  have hself : (s.setCtx ctx { s.ctx ctx with handle := handle }).handleOf ctx = handle :=
    handleOf_setCtx ctx _
  have hno : ∀ q, s.queueOf ctx ≠ some q := fun q hq => by cases hnone.symm.trans hq
  exact hi.creation ht hnone (.inl rfl) (.inl ⟨rfl, hnone⟩) hlt (fun _ _ => Iff.rfl) rfl rfl
    (fun c hc => ⟨Function.update_of_ne hc .., rfl⟩) (fun q hq => ⟨hq, rfl⟩) rfl
    (fun q => iff_of_false (hno q) fun h => absurd h.2 (Nat.not_lt.mpr h.1))
    (fun q hq => absurd hq (hno q)) ⟨hgood.1.trans_eq hself.symm, hself.trans_lt hgood.2.1⟩
    (.inr ⟨by simp, hself⟩) (.inl (.inl ht.mem))

end XsServer.Sched
