import XsServer.Sched.Invariant

/-! The steps that make, link, take and free queues keep the invariant. -/

namespace XsServer.Sched

open XsServer.Lib XsServer.Handle XsServer.Mq
open XsServer.SkynetServer (Context)

variable {s s' : State} {f : Frame} {fs : List Frame} {ts : List (List Frame)}

theorem update_apply {α β : Type} (p : α → β) {g : Nat → α} {i : Nat} {a : α} (h : p a = p (g i))
    (x : Nat) : p (Function.update g i a x) = p (g x) := by
  by_cases hx : x = i
  · subst hx
    exact (congrArg p (Function.update_self ..)).trans h
  · exact congrArg p (Function.update_of_ne hx ..)

variable {ctx : Nat}

theorem setCtx_same {c : Context} (hh : c.handle = (s.ctx ctx).handle)
    (hd : c.deletes = (s.ctx ctx).deletes) (x : Nat) :
    ((s.setCtx ctx c).ctx x).handle = (s.ctx x).handle ∧
      ((s.setCtx ctx c).ctx x).deletes = (s.ctx x).deletes :=
  ⟨update_apply Context.handle hh x, update_apply Context.deletes hd x⟩

theorem State.Inv.release (hi : s.Inv) {ctx : Nat} {alive gone : List Frame}
    (h : f.releases = some (ctx, alive, gone))
    (ht : Replaces s.threads f (if (s.ctx ctx).ref = 1 then .closeLogfile ctx :: gone else alive)
      ts) (hbase : State.forget { s.setCtx ctx (s.ctx ctx).release with threads := ts } |>.Inv) :
    State.Inv { s.setCtx ctx (s.ctx ctx).release with threads := ts } := by
  obtain ⟨halive, hgone⟩ := releases_quiet (s := s) h
  by_cases hone : (s.ctx ctx).ref = 1
  · rw [if_pos hone] at ht
    have hhandle : ∀ x, (s.setCtx ctx (s.ctx ctx).release).handleOf x = s.handleOf x :=
      update_apply Context.handle rfl
    refine hi.context hbase (.of_eq rfl) ht hgone.queues hhandle rfl hgone.before
      (List.forall_mem_cons.mpr ⟨rfl, hgone.creates⟩) (fun x => ?_)
      (List.forall_mem_cons.mpr ⟨good_of_serves_none rfl trivial, fun g hg => ?_⟩)
    · rw [List.filterMap_cons_some (show (Frame.closeLogfile ctx).unmarked = some ctx from rfl),
        hgone.unmarked]
      change (ctx :: _).count x + _ = _ + (Function.update s.ctx ctx (s.ctx ctx).release x).deletes
      by_cases hx : x = ctx
      · subst hx
        rw [Function.update_self, List.count_cons_self, Context.release, if_pos hone]
        exact Nat.add_right_comm ..
      · rw [Function.update_of_ne hx, List.count_cons_of_ne (Ne.symm hx)]
    · exact (hgone.good g hg).mono hhandle rfl fun _ => ⟨rfl, id⟩
  · rw [if_neg hone] at ht
    exact hi.same hbase ht halive rfl rfl (setCtx_same rfl (if_neg hone))

/-! ### Steps on the queues -/

variable {g : GlobalQueue Nat}

theorem State.Inv.moved (hi : s.Inv) {l l' : List Nat}
    (hcount : ∀ q, l.count q + s.held q = s.due q)
    (ht : Replaces s.threads f fs ts) (hs : s' = { s with global := g, threads := ts })
    (hbase : s'.forget.Inv) (hl' : g.Linked l')
    (hmoved : ∀ x, l'.count x + (fs.flatMap Frame.queues).count x =
      l.count x + f.queues.count x)
    (hf : f.creates = none) (hfs : ∀ g ∈ fs, g.creates = none)
    (hu : fs.filterMap Frame.unmarked = [f].filterMap Frame.unmarked)
    (hgood : ∀ h ∈ fs, s.Good h) : s'.Inv := by
  subst hs
  refine hi.quiet hbase rfl ?_ rfl rfl (fun _ => ⟨rfl, rfl, rfl⟩) ⟨rfl, rfl, rfl⟩ ⟨l', hl', ?_⟩
  · refine hi.links.keep ht (fun _ => rfl) rfl rfl rfl (fun _ => ⟨rfl, id⟩) (fun _ h => h) hf hfs
      (fun ctx q hq => ?_)
      fun h hh => (hgood h hh).mono (fun _ => rfl) rfl fun _ => ⟨rfl, id⟩
    have htally := ht.tally Frame.unmarked ctx
    rw [hu] at htally
    rw [← hi.links.marked ctx q hq, ← Nat.add_right_cancel htally]
  · intro x
    have hheld := held_step { s with global := g, threads := ts } ht x
    have := hcount x
    have := hmoved x
    omega

variable {q : Nat}

theorem State.Inv.changed (hi : s.Inv) {mq : MessageQueue}
    {r : Nat → Bool} {p d e : Nat → List SkynetMessage} {l l' : List Nat}
    (hcount : ∀ q, l.count q + s.held q = s.due q) (ht : Replaces s.threads f fs ts)
    (hs : s' = { s.setQueue q mq with
      global := g, freed := r, pushed := p, dispatched := d, dropped := e, threads := ts })
    (hbase : s'.forget.Inv) (hlt : q < s.nextQueue) (hfreed : s.freed q = false)
    (hhandle : mq.handle = (s.queue q).handle)
    (hrel : (s.queue q).release = true → mq.release = true)
    (hother : ∀ x, x ≠ q →
      r x = s.freed x ∧ p x = s.pushed x ∧ d x = s.dispatched x ∧ e x = s.dropped x)
    (hl' : g.Linked l')
    (hmoved : ∀ x, x ≠ q → l'.count x + (fs.flatMap Frame.queues).count x =
      l.count x + f.queues.count x)
    (hdue' : l'.count q + (fs.flatMap Frame.queues).count q + s.due q =
      l.count q + f.queues.count q +
        if r q = false ∧ (mq.inGlobal = true ∨ mq.release = true) then 1 else 0)
    (hf : f.creates = none) (hfs : ∀ g ∈ fs, g.creates = none)
    (hmarked : ∀ ctx, (if mq.release ∧ s.queueOf ctx = some q then 1 else 0) +
        (fs.filterMap Frame.unmarked).count ctx =
      (if (s.queue q).release ∧ s.queueOf ctx = some q then 1 else 0) +
        ([f].filterMap Frame.unmarked).count ctx)
    (hgood : ∀ t : State, t.queueOf = s.queueOf → t.queue q = mq → ∀ g ∈ fs, t.Good g)
    (hempty : mq.inGlobal = false → mq.contents = [])
    (hgone : r q = false ∨ mq.release = true ∧ mq.inGlobal = false)
    (hfifo : p q = d q ++ e q ++ mq.contents) (horder : e q ≠ [] → mq.release = true) :
    s'.Inv := by
  have ht' : Replaces s.threads f fs s'.threads := hs ▸ ht
  have hheld := held_step s' ht'
  have hself : s'.queue q = mq := hs ▸ Function.update_self ..
  have hsame : ∀ x, x ≠ q → s'.queue x = s.queue x := fun x hx => hs ▸ Function.update_of_ne hx ..
  have hdue : s'.due q =
      if r q = false ∧ (mq.inGlobal = true ∨ mq.release = true) then 1 else 0 := by
    rw [State.due, hself, hs]
    exact if_congr (and_iff_right hlt) rfl rfl
  have hqueue : ∀ x, (s'.queue x).handle = (s.queue x).handle ∧
      ((s.queue x).release = true → (s'.queue x).release = true) := by
    intro x
    by_cases hx : x = q
    · rw [hx, hself]
      exact ⟨hhandle, hrel⟩
    · rw [hsame x hx]
      exact ⟨rfl, id⟩
  have hmark : ∀ ctx x, s.queueOf ctx = some x →
      (if (s'.queue x).release then 1 else 0) + tally Frame.unmarked s'.threads ctx =
        (s.ctx ctx).deletes := by
    intro ctx x hx
    have htally := ht'.tally Frame.unmarked ctx
    have hold := hi.links.marked ctx x hx
    have hm := hmarked ctx
    rw [← hold]
    by_cases hxq : x = q
    · subst hxq
      rw [hself]
      simp only [hx, and_true] at hm
      omega
    · have hne : ¬ s.queueOf ctx = some q := by
        rw [hx]
        simpa using hxq
      simp only [hne, and_false, if_false, Nat.zero_add] at hm
      rw [hsame x hxq]
      omega
  have hglobal : ∀ x, l'.count x + s'.held x = if x = q then s'.due q else s.due x := by
    intro x
    have hh := hheld x
    have hc := hcount x
    by_cases hx : x = q
    · subst hx
      rw [if_pos rfl, hdue]
      omega
    · rw [if_neg hx]
      have := hmoved x hx
      omega
  have hfreeing : r q = true → mq.release = true ∧ mq.inGlobal = false := fun h =>
    hgone.resolve_left (by simp [h])
  subst hs
  refine hi.turn hbase rfl ?_ hlt (fun _ _ => Iff.rfl)
    (fun x hx => ⟨hsame x hx, hother x hx⟩) ⟨l', hl', hglobal⟩ (hself.symm ▸ hempty)
    (hself.symm ▸ hfreeing) (hself.symm ▸ hfifo) (hself.symm ▸ horder)
  refine hi.links.keep ht (fun _ => rfl) rfl rfl rfl hqueue (fun x hx => ?_) hf hfs hmark
    (hgood _ rfl hself)
  by_cases hxq : x = q
  · rw [hxq]
    exact hfreed
  · exact (hother x hxq).1.symm.trans hx

theorem State.Inv.not_unmarked (hi : s.Inv) (h : (s.ctx ctx).deletes = 0) :
    tally Frame.unmarked s.threads ctx = 0 := by
  by_contra hne
  obtain ⟨g, hg, hu⟩ := List.mem_filterMap.mp (List.count_pos_iff.mp (Nat.pos_of_ne_zero hne))
  obtain ⟨-, -, -, -, -, hone⟩ := hi.unmarked hg hu
  omega

def State.withQueue (s : State) (ctx : Nat) : State :=
  { s.setQueue s.nextQueue (skynetMqCreate (UInt32.ofNat (s.handleOf ctx))) with
    nextQueue := s.nextQueue + 1, queueOf := Function.update s.queueOf ctx (some s.nextQueue) }

theorem withQueue_self (ctx : Nat) :
    (s.withQueue ctx).queue s.nextQueue = skynetMqCreate (UInt32.ofNat (s.handleOf ctx)) :=
  Function.update_self ..

theorem withQueue_of_ne {ctx q : Nat} (h : q ≠ s.nextQueue) :
    (s.withQueue ctx).queue q = s.queue q :=
  Function.update_of_ne h ..

theorem State.Inv.createQueue_links (hi : s.Inv)
    (ht : Replaces s.threads (.createQueue ctx) [.instanceInit ctx s.nextQueue] ts) :
    State.Links { s.withQueue ctx with threads := ts } := by
  obtain ⟨hlt, hnone⟩ := hi.links.creates_lt ht.mem rfl
  obtain ⟨hpos, hbound⟩ : 0 < s.handleOf ctx ∧ s.handleOf ctx < 2 ^ 32 := hi.links.good _ ht.mem
  have hself : (s.withQueue ctx).queueOf ctx = some s.nextQueue := Function.update_self ..
  refine hi.creation ht hnone (.inl rfl) (.inr ⟨rfl, fun h => by cases hself.symm.trans h⟩) hlt
    (fun _ _ => Iff.rfl) rfl rfl (fun c hc => ⟨rfl, Function.update_of_ne hc ..⟩)
    (fun q hq => ⟨Nat.lt_succ_of_lt hq, withQueue_of_ne (Nat.ne_of_lt hq)⟩) rfl (fun q => ?_)
    (fun q hq => ?_) (fun c q heq => ?_) (.inr ⟨by simp, rfl⟩) (.inl (.inr (.inl ⟨ht.mem, rfl⟩)))
  · change (s.withQueue ctx).queueOf ctx = some q ↔ s.nextQueue ≤ q ∧ q < s.nextQueue + 1
    rw [hself, Option.some_inj]
    omega
  · cases hself.symm.trans hq
    have hdel := (hi.alive_of_frame ht.mem rfl).2.1
    change ((s.withQueue ctx).queue _).handle.toNat = s.handleOf ctx ∧ 0 < s.handleOf ctx ∧
      (if ((s.withQueue ctx).queue _).release then 1 else 0) + _ = (s.ctx ctx).deletes
    rw [withQueue_self, hi.not_unmarked hdel, hdel]
    exact ⟨UInt32.toNat_ofNat_of_lt' hbound, hpos, rfl⟩
  · cases heq
    exact hself

theorem State.Inv.createQueue (hi : s.Inv)
    (ht : Replaces s.threads (.createQueue ctx) [.instanceInit ctx s.nextQueue] ts)
    (hbase : State.forget { s.withQueue ctx with threads := ts } |>.Inv) :
    State.Inv { s.withQueue ctx with threads := ts } := by
  obtain ⟨hfreed, hpushed, hdispatched, hdropped⟩ := hi.fresh s.nextQueue (Nat.le_refl _)
  have hself := @withQueue_self s ctx
  have hgone : s.freed s.nextQueue = true → False := by simp [hfreed]
  refine hi.turn hbase rfl (hi.createQueue_links ht) (Nat.lt_succ_self s.nextQueue)
    (fun x hx => ⟨fun h => Nat.lt_of_le_of_ne (Nat.le_of_lt_succ h) hx, Nat.lt_succ_of_lt⟩)
    (fun x hx => ⟨withQueue_of_ne hx, rfl, rfl, rfl, rfl⟩) ?_ (fun h => ?_)
    (fun h => (hgone h).elim) ?_ fun h => absurd hdropped h
  · obtain ⟨l, hl, hcount⟩ := hi.held
    refine ⟨l, hl, fun x => ?_⟩
    have hheld : State.held { s.withQueue ctx with threads := ts } x =
        s.held x + [s.nextQueue].count x :=
      held_step (s := s) { s.withQueue ctx with threads := ts } ht x
    have hc := hcount x
    rw [hheld]
    by_cases hx : x = s.nextQueue
    · subst hx
      have hdue : State.due { s.withQueue ctx with threads := ts } s.nextQueue = 1 :=
        if_pos ⟨Nat.lt_succ_self _, hfreed, .inl (congrArg MessageQueue.inGlobal hself)⟩
      rw [State.due, if_neg fun h => Nat.lt_irrefl _ h.1] at hc
      rw [List.count_singleton_self, if_pos rfl, hdue]
      omega
    · have hzero : [s.nextQueue].count x = 0 := List.count_eq_zero.mpr (by simpa using hx)
      rw [hzero, if_neg hx]
      exact hc
  · cases (congrArg MessageQueue.inGlobal hself).symm.trans h
  · change s.pushed _ = s.dispatched _ ++ s.dropped _ ++ ((s.withQueue ctx).queue _).contents
    rw [hself, hpushed, hdispatched, hdropped]
    rfl

theorem record_self (l : Nat → List SkynetMessage) (q : Nat) (message : SkynetMessage) :
    record l q message q = l q ++ [message] :=
  Function.update_self ..

theorem record_of_ne (l : Nat → List SkynetMessage) {q x : Nat} (message : SkynetMessage)
    (h : x ≠ q) : record l q message x = l x :=
  Function.update_of_ne h ..

theorem State.Inv.due_alive (hi : s.Inv) {ctx q : Nat} (hq : s.queueOf ctx = some q)
    (hrel : (s.queue q).release = false) (hfreed : s.freed q = false) :
    s.dropped q = [] ∧ q < s.nextQueue ∧ s.due q = if (s.queue q).inGlobal then 1 else 0 := by
  have hlt := (hi.links.owner ctx q hq).2.1
  refine ⟨?_, hlt, ?_⟩
  · by_contra hd
    have := hi.order q hd
    rw [hrel] at this
    cases this
  · rw [State.due, hrel, hfreed]
    simp [hlt]

theorem linked_push {l : List Nat} {called : Bool}
    (hl : s.global.Linked l) (hq : called = true → q ∉ l)
    (hg : called = false ∧ g = s.global ∨ called = true ∧ skynetGlobalmqPush s.global q = some g) :
    ∃ l', g.Linked l' ∧ ∀ x, l'.count x = l.count x + if called ∧ x = q then 1 else 0 := by
  obtain ⟨rfl, rfl⟩ | ⟨rfl, hg⟩ := hg
  · exact ⟨l, hl, fun x => by simp⟩
  · refine ⟨_, hl.of_push (hq rfl) hg, fun x => ?_⟩
    rw [List.count_append, List.count_singleton]
    by_cases hx : x = q
    · simp [hx]
    · simp [hx, Ne.symm hx]

theorem not_linked {l : List Nat} (hcount : ∀ q, l.count q + s.held q = s.due q)
    (hdue : s.due q = if (s.queue q).inGlobal then 1 else 0) (h : (s.queue q).inGlobal = false) :
    q ∉ l := by
  have hc := hcount q
  rw [hdue, h] at hc
  simp only [Bool.false_eq_true, if_false] at hc
  exact List.count_eq_zero.mp (by omega)

/-- The invariant is kept by what a frame does on the queues. -/
def Keeps (s : State) (f : Frame) : Prop :=
  ∀ {s1 : State} {fs : List Frame} {ts : List (List Frame)}, s.act f = some (s1, fs) →
    Replaces s.threads f fs ts → (State.forget { s1 with threads := ts }).Inv →
    State.Inv { s1 with threads := ts }

theorem State.Inv.markRelease (hi : s.Inv) (ctx : Nat) : Keeps s (.markRelease ctx) := by
  intro s1 fs ts h ht hbase
  obtain ⟨q, mq, called, g, hq, hmq, hg, heq⟩ := act_markRelease h
  cases heq
  obtain ⟨q', hq', hrel, hfreed, -, -⟩ := hi.unmarked ht.mem rfl
  cases hq.symm.trans hq'
  obtain ⟨hdropped, hlt, hdue⟩ := hi.due_alive hq hrel hfreed
  obtain ⟨l, hl, hcount⟩ := hi.held
  obtain ⟨hhandle, hrel', hin, hcontents, rfl⟩ := mark_some hmq
  have hzero : (!(s.queue q).inGlobal) = true → q ∉ l := fun h =>
    not_linked hcount hdue (by simpa using h)
  obtain ⟨l', hl', hcount'⟩ := linked_push hl hzero hg
  refine hi.changed (r := s.freed) hcount ht rfl hbase hlt hfreed hhandle (fun _ => hrel')
    (fun _ _ => ⟨rfl, rfl, rfl, rfl⟩) hl' (fun x hx => ?_) ?_ rfl (by simp [Frame.creates])
    (fun c => ?_) (by simp [State.Good, Frame.serves]) ?_ (.inl hfreed) ?_
    fun h => absurd hdropped h
  · simp [hcount', hx, Frame.queues]
  · rw [hcount', hdue, hrel']
    cases (s.queue q).inGlobal <;> simp [Frame.queues, hfreed]
  · rw [hrel, hrel', show [Frame.free ctx].filterMap Frame.unmarked = [] from rfl,
      show [Frame.markRelease ctx].filterMap Frame.unmarked = [ctx] from rfl]
    by_cases hc : c = ctx
    · subst hc
      simp [hq]
    · have hne : ¬ s.queueOf c = some q := fun h => hc (hi.links.inj c ctx q h hq)
      have hcnt : [ctx].count c = 0 := List.count_eq_zero.mpr (by simpa using hc)
      simp [hne, hcnt]
  · rw [hin, hcontents]
    exact hi.empty q
  · rw [hcontents]
    exact hi.fifo q

theorem State.Inv.mqPush (hi : s.Inv) {message : SkynetMessage}
    (hd : Defined s (.mqPush ctx message)) : Keeps s (.mqPush ctx message) := by
  intro s1 fs ts h ht hbase
  obtain ⟨q, mq, called, g, hq, hmq, hg, heq⟩ := act_mqPush h
  cases heq
  obtain ⟨hrel, hfreed⟩ := (hi.alive_of_frame ht.mem rfl).2.2 q hq
  obtain ⟨hdropped, hlt, hdue⟩ := hi.due_alive hq hrel hfreed
  obtain ⟨l, hl, hcount⟩ := hi.held
  obtain ⟨hhandle, hrel'⟩ := push_some hmq
  obtain ⟨mq', hmq', hin, hcontents⟩ := push_contents message (hd.room ctx message q rfl hq)
  cases hmq.symm.trans hmq'
  have hzero : (!(s.queue q).inGlobal) = true → q ∉ l := fun h =>
    not_linked hcount hdue (by simpa using h)
  obtain ⟨l', hl', hcount'⟩ := linked_push hl hzero hg
  refine hi.changed (r := s.freed) hcount ht rfl hbase hlt hfreed hhandle (fun h => hrel'.trans h)
    (fun x hx => ⟨rfl, record_of_ne _ _ hx, rfl, rfl⟩) hl' (fun x hx => ?_) ?_ rfl
    (by simp [Frame.creates]) (fun c => by rw [hrel']; rfl) (by simp [State.Good, Frame.serves])
    (fun h => ?_) (.inl hfreed) ?_ fun h => absurd hdropped h
  · simp [hcount', hx, Frame.queues]
  · rw [hcount', hdue, hin]
    cases (s.queue q).inGlobal <;> simp [Frame.queues, hfreed]
  · exact absurd (hin.symm.trans h) (by simp)
  · change record s.pushed q message q = s.dispatched q ++ s.dropped q ++ mq.contents
    rw [hcontents, record_self, hi.fifo q, List.append_assoc]

theorem State.Inv.due_pop (hi : s.Inv) {mq : MessageQueue} {message : SkynetMessage}
    (hmq : skynetMqPop (s.queue q) = (some message, mq)) (hlt : q < s.nextQueue) :
    (mq.inGlobal = false → mq.contents = []) ∧ s.due q =
      if s.freed q = false ∧ (mq.inGlobal = true ∨ mq.release = true) then 1 else 0 := by
  obtain ⟨hcontents, hin, -, hrel'⟩ := pop_some hmq
  refine ⟨fun h => ?_, ?_⟩
  · have hnil := hi.empty q (hin.symm.trans h)
    rw [hcontents] at hnil
    cases hnil
  · rw [State.due, hin, hrel']
    exact if_congr (and_iff_right hlt) rfl rfl

theorem State.Inv.mqPop (hi : s.Inv) {q ctx i n : Nat} : Keeps s (.mqPop q ctx i n) := by
  intro s1 fs ts h ht hbase
  have hq : s.queueOf ctx = some q := (hi.links.good _ ht.mem).serves rfl
  obtain ⟨hrel, hfreed⟩ := (hi.alive_of_frame ht.mem rfl).2.2 q hq
  obtain ⟨hdropped, hlt, -⟩ := hi.due_alive hq hrel hfreed
  obtain ⟨l, hl, hcount⟩ := hi.held
  obtain ⟨mq, hmq, heq⟩ | ⟨message, mq, hmq, heq⟩ := act_mqPop h
  · cases heq
    obtain ⟨-, -, hdue, -, -⟩ := held_by ht.mem (List.mem_singleton_self q) hcount
    obtain ⟨hnil, hcontents, hin, hhandle, hrel'⟩ := pop_none hmq
    refine hi.changed (r := s.freed) hcount ht rfl hbase hlt hfreed hhandle
      (fun h => hrel'.trans h) (fun _ _ => ⟨rfl, rfl, rfl, rfl⟩) hl (fun x hx => ?_) ?_ rfl
      (by simp [Frame.creates]) (fun c => by rw [hrel']; rfl) (by simp [State.Good, Frame.serves])
      (fun _ => hcontents) (.inl hfreed) ?_ fun h => absurd hdropped h
    · simp [Frame.queues, Ne.symm hx]
    · simp [hdue, hin, hrel', hrel, Frame.queues]
    · rw [hcontents, ← hnil]
      exact hi.fifo q
  · cases heq
    obtain ⟨hcontents, -, hhandle, hrel'⟩ := pop_some hmq
    obtain ⟨hempty, hdue⟩ := hi.due_pop hmq hlt
    refine hi.changed (r := s.freed) hcount ht rfl hbase hlt hfreed hhandle
      (fun h => hrel'.trans h) (fun x hx => ⟨rfl, rfl, record_of_ne _ _ hx, rfl⟩) hl
      (fun _ _ => rfl) (congrArg _ hdue) rfl (by simp [Frame.creates])
      (fun c => by rw [hrel']; rfl) (fun t ht' _ g hg => ?_) hempty (.inl hfreed) ?_
      fun h => absurd hdropped h
    · rw [List.mem_singleton.mp hg]
      rintro c q' heq
      cases heq
      rw [ht', hq]
    · change s.pushed q = record s.dispatched q message q ++ s.dropped q ++ mq.contents
      rw [record_self, hi.fifo q, hcontents, hdropped]
      simp

theorem State.Inv.dropQueue (hi : s.Inv) {q handle : Nat} : Keeps s (.dropQueue q handle) := by
  intro s1 fs ts h ht hbase
  have hrel : (s.queue q).release = true := hi.links.good _ ht.mem
  obtain ⟨l, hl, hcount⟩ := hi.held
  obtain ⟨-, -, hdue, hlt, hfreed⟩ := held_by ht.mem (List.mem_singleton_self q) hcount
  obtain ⟨message, mq, hmq, heq⟩ | ⟨mq, hmq, heq⟩ := act_dropQueue h
  · cases heq
    obtain ⟨hcontents, -, hhandle, hrel'⟩ := pop_some hmq
    obtain ⟨hempty, hdue'⟩ := hi.due_pop hmq hlt
    have hframes : ∀ g ∈ dropMessage message handle,
        g.creates = none ∧ g.queues = [] ∧ g.unmarked = none ∧ ∀ t : State, t.Good g := by
      intro g hg
      obtain hd | ⟨source, text, hd⟩ := dropMessage_cases message handle
      · rw [hd] at hg
        cases hg
      · rw [hd] at hg
        rw [List.mem_singleton.mp hg]
        exact ⟨rfl, rfl, rfl, fun _ => good_of_serves_none rfl trivial⟩
    have hqueues : (dropMessage message handle ++ [Frame.dropQueue q handle]).flatMap Frame.queues =
        [q] := by
      rw [List.flatMap_append, List.flatMap_eq_nil_iff.mpr fun g hg => (hframes g hg).2.1]
      rfl
    have hunmarked : (dropMessage message handle).filterMap Frame.unmarked = [] :=
      List.filterMap_eq_nil_iff.mpr fun g hg => (hframes g hg).2.2.1
    refine hi.changed (r := s.freed) hcount ht rfl hbase hlt hfreed hhandle
      (fun h => hrel'.trans h) (fun x hx => ⟨rfl, rfl, rfl, record_of_ne _ _ hx⟩) hl
      (fun x _ => by rw [hqueues]; rfl) (by rw [hqueues, hdue']; rfl) rfl (fun g hg => ?_)
      (fun c => ?_) (fun t _ ht' g hg => ?_) hempty (.inl hfreed) ?_ fun _ => hrel'.trans hrel
    · obtain hg | hg := List.mem_append.mp hg
      · exact (hframes g hg).1
      · rw [List.mem_singleton.mp hg]
        rfl
    · rw [hrel', List.filterMap_append, hunmarked]
      rfl
    · obtain hg | hg := List.mem_append.mp hg
      · exact (hframes g hg).2.2.2 t
      · rw [List.mem_singleton.mp hg]
        exact (congrArg MessageQueue.release ht').trans (hrel'.trans hrel)
    · change s.pushed q = s.dispatched q ++ record s.dropped q message q ++ mq.contents
      rw [record_self, hi.fifo q, hcontents]
      simp
  · cases heq
    obtain ⟨hnil, hcontents, hin, hhandle, hrel'⟩ := pop_none hmq
    refine hi.changed hcount ht rfl hbase hlt hfreed hhandle (fun h => hrel'.trans h)
      (fun x hx => ⟨Function.update_of_ne hx .., rfl, rfl, rfl⟩) hl (fun x hx => ?_) ?_ rfl
      (by simp) (fun c => by rw [hrel']; rfl) (by simp) (fun _ => hcontents)
      (.inr ⟨hrel'.trans hrel, hin⟩) ?_ fun _ => hrel'.trans hrel
    · simp [Frame.queues, Ne.symm hx]
    · simp [hdue, Frame.queues]
    · rw [hcontents, ← hnil]
      exact hi.fifo q

theorem State.Inv.act (hi : s.Inv) (hd : Defined s f) : Keeps s f := by
  intro s1 fs ts h ht hbase
  obtain ⟨l, hl, hcount⟩ := hi.held
  have hgood := hi.links.good f ht.mem
  cases f with
  | createQueue ctx =>
    cases h
    exact hi.createQueue ht hbase
  | globalmqPush ret q =>
    obtain ⟨g, hg, heq⟩ := act_globalmqPush h
    cases heq
    have hnone := (held_by ht.mem (List.mem_singleton_self q) hcount).1
    refine hi.moved hcount ht rfl hbase (hl.of_push hnone hg) (fun x => ?_) rfl ?_ ?_ ?_
    · rw [List.count_append]
      cases ret <;> rfl
    · cases ret <;> simp [Frame.creates]
    · cases ret <;> rfl
    · cases ret <;> simp [State.Good, Frame.serves]
  | markRelease ctx =>
    exact hi.markRelease ctx h ht hbase
  | mqPush ctx message =>
    exact hi.mqPush hd h ht hbase
  | idle q =>
    cases q with
    | none =>
      obtain ⟨q, g, hg, heq⟩ := act_idle h
      cases heq
      obtain ⟨l', rfl, hl'⟩ := hl.of_pop hg
      cases q with
      | none =>
        exact hi.moved hcount ht rfl hbase hl' (fun _ => rfl) rfl (by simp [Frame.creates]) rfl
          (by simp [State.Good, Frame.serves])
      | some q =>
        refine hi.moved hcount ht rfl hbase hl' (fun x => ?_) rfl (by simp [Frame.creates]) rfl
          (by simp [State.Good])
        rw [List.count_append, Nat.add_comm]
        rfl
    | some q =>
      cases h
      exact hi.moved hcount ht rfl hbase hl (fun _ => rfl) rfl (by simp [Frame.creates]) rfl
        (by simp [State.Good])
  | globalmqPop =>
    obtain ⟨q, g, hg, heq⟩ := act_globalmqPop h
    cases heq
    obtain ⟨l', rfl, hl'⟩ := hl.of_pop hg
    refine hi.moved hcount ht rfl hbase hl' (fun x => ?_) rfl (by simp [Frame.creates]) rfl
      (by simp [State.Good, Frame.serves])
    rw [List.count_append, List.flatMap_singleton, Nat.add_comm]
    rfl
  | mqPop q ctx i n =>
    exact hi.mqPop h ht hbase
  | checkQueue q ctx =>
    obtain ⟨nq, g, hg, heq⟩ := act_checkQueue h
    cases heq
    obtain ⟨l', rfl, hl'⟩ := hl.of_pop hg
    cases nq with
    | none =>
      exact hi.moved hcount ht rfl hbase hl' (fun _ => rfl) rfl (by simp [Frame.creates]) rfl
        (by simp [State.Good, Frame.serves])
    | some nq =>
      refine hi.moved hcount ht rfl hbase hl' (fun x => ?_) rfl (by simp [Frame.creates]) rfl ?_
      · change _ + [q, nq].count x = ([nq] ++ l').count x + [q].count x
        rw [List.count_append, List.count_cons, List.count_singleton, List.count_singleton]
        omega
      · intro g hg
        rw [List.mem_singleton.mp hg]
        exact hgood.go rfl trivial
  | pushBack q nq ctx =>
    obtain ⟨g, hg, heq⟩ := act_pushBack h
    cases heq
    have hnone := (held_by ht.mem (List.mem_cons_self : q ∈ [q, nq]) hcount).1
    refine hi.moved hcount ht rfl hbase (hl.of_push hnone hg) (fun x => ?_) rfl
      (by simp [Frame.creates]) rfl (by simp [State.Good, Frame.serves])
    have hpair : ([q] ++ [nq]).count x = [q].count x + [nq].count x := List.count_append
    change _ + [nq].count x = _ + ([q] ++ [nq]).count x
    rw [List.count_append, hpair]
    omega
  | mqRelease q handle =>
    obtain ⟨hrel, heq⟩ | ⟨-, g, hg, heq⟩ := act_mqRelease h
    · cases heq
      refine hi.moved hcount ht rfl hbase hl (fun _ => rfl) rfl (by simp [Frame.creates]) rfl ?_
      intro g hg
      rw [List.mem_singleton.mp hg]
      exact hrel
    · cases heq
      have hnone := (held_by ht.mem (List.mem_singleton_self q) hcount).1
      refine hi.moved hcount ht rfl hbase (hl.of_push hnone hg) (fun x => ?_) rfl (by simp) rfl
        (by simp)
      rw [List.count_append]
      rfl
  | dropQueue q handle =>
    exact hi.dropQueue h ht hbase
  | _ => cases h

end XsServer.Sched
