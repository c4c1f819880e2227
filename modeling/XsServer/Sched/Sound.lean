import XsServer.Sched.Queues

/-! Every service waits for a worker, or is with one, as long as it has messages; and its messages
are dispatched one at a time, in order. -/

namespace XsServer.Sched

open XsServer.Lib XsServer.Handle XsServer.Mq
open XsServer.SkynetServer (Context)

variable {s s' : State} {f : Frame} {fs : List Frame} {ts : List (List Frame)}

theorem link_isSome (s : State) {q : Nat} (called : Bool)
    (h : called = true → ∃ g, skynetGlobalmqPush s.global q = some g) :
    ∃ s1, s.link q called = some s1 := by
  cases called with
  | false => exact ⟨s, rfl⟩
  | true =>
    obtain ⟨g, hg⟩ := h rfl
    exact ⟨_, congrArg (Option.map _) hg⟩

theorem unlink_isSome {l : List Nat} (hl : s.global.Linked l) : ∃ r, s.unlink = some r := by
  cases l with
  | nil => exact ⟨_, congrArg (Option.map _) hl.pop_nil⟩
  | cons q l =>
    obtain ⟨g, hg, -⟩ := hl.pop_cons
    exact ⟨_, congrArg (Option.map _) hg⟩

theorem State.Inv.act_ne_none (hi : s.Inv) (hd : Defined s f) (hf : f ∈ s.threads.flatten)
    (ha : f.Acts) : s.act f ≠ none := by
  obtain ⟨l, hl, hcount⟩ := hi.held
  have hgood := hi.links.good f hf
  have hpush : ∀ q ∈ f.queues, ∃ g, skynetGlobalmqPush s.global q = some g := fun q hq =>
    (hl.push (held_by hf hq hcount).1).imp fun _ h => h.1
  cases f with
  | createQueue ctx => simp [State.act]
  | globalmqPush ret q =>
    obtain ⟨s1, hs1⟩ := link_isSome s true fun _ => hpush q List.mem_cons_self
    simp [State.act, hs1]
  | markRelease ctx =>
    obtain ⟨q, hq, hrel, hfreed, -, -⟩ := hi.unmarked hf rfl
    obtain ⟨-, -, hdue⟩ := hi.due_alive hq hrel hfreed
    cases hmq : skynetMqMarkRelease (s.queue q) with
    | none => simp [skynetMqMarkRelease, hrel] at hmq
    | some r =>
      obtain ⟨mq, called⟩ := r
      obtain ⟨-, -, -, -, rfl⟩ := mark_some hmq
      obtain ⟨s1, hs1⟩ := link_isSome (s.setQueue q mq) (!(s.queue q).inGlobal)
        fun h => (hl.push (not_linked hcount hdue (by simpa using h))).imp fun _ h => h.1
      simp [State.act, hq, hmq, hs1]
  | mqPush ctx message =>
    obtain ⟨q, hq⟩ := Option.ne_none_iff_exists'.mp hgood
    obtain ⟨hrel, hfreed⟩ := (hi.alive_of_frame hf rfl).2.2 q hq
    obtain ⟨-, -, hdue⟩ := hi.due_alive hq hrel hfreed
    obtain ⟨mq, hmq, -⟩ := push_contents message (hd.room ctx message q rfl hq)
    obtain ⟨s1, hs1⟩ := link_isSome (s.setQueue q mq) (!(s.queue q).inGlobal)
      fun h => (hl.push (not_linked hcount hdue (by simpa using h))).imp fun _ h => h.1
    simp [State.act, hq, hmq, hs1]
  | idle q =>
    cases q with
    | none =>
      obtain ⟨r, hr⟩ := unlink_isSome hl
      simp [State.act, hr]
    | some q => simp [State.act]
  | globalmqPop =>
    obtain ⟨r, hr⟩ := unlink_isSome hl
    simp [State.act, hr]
  | mqPop q ctx i n =>
    simp only [State.act]
    split <;> simp
  | checkQueue q ctx =>
    obtain ⟨r, hr⟩ := unlink_isSome hl
    have hq : s.queueOf ctx = some q := hgood.serves rfl
    simp [State.act, hq, hr]
  | pushBack q nq ctx =>
    obtain ⟨s1, hs1⟩ := link_isSome s true fun _ => hpush q List.mem_cons_self
    simp [State.act, hs1]
  | mqRelease q handle =>
    obtain ⟨s1, hs1⟩ := link_isSome s true fun _ => hpush q List.mem_cons_self
    simp only [State.act]
    split <;> simp [hs1]
  | dropQueue q handle =>
    have hnext : s.global.next q = none :=
      hl.clear q (held_by hf (List.mem_singleton_self q) hcount).1
    simp only [State.act, hnext]
    split <;> simp
  | _ => exact ha.elim

theorem State.inv_step (hi : s.Inv) (h : Guarded Defined Step s f s') : s'.Inv := by
  obtain ⟨hd, h⟩ := h
  have hbase := forget_inv hi.base hd h
  have hctx : ∀ c, (s.ctx c).handle = (s.ctx c).handle ∧ (s.ctx c).deletes = (s.ctx c).deletes :=
    fun _ => ⟨rfl, rfl⟩
  cases h with
  | goes h ht => exact hi.same hbase ht (h.quiet (hi.links.good _ ht.mem)) rfl rfl hctx
  | act h ht => exact hi.act hd h ht hbase
  | abort hf h ht => exact absurd h (hi.act_ne_none hd ht.mem hf)
  | new h ht => exact hi.hold hbase (hi.new hd h ht) (.of_eq rfl) ht rfl
  | storeHandle ht => exact hi.hold hbase (hi.storeHandle ht) (.of_eq rfl) ht rfl
  | setInit ht =>
    exact hi.same hbase ht
      ⟨rfl, by simp [Frame.creates], rfl, rfl, by simp [State.Good, Frame.serves]⟩ rfl rfl
      (setCtx_same rfl rfl)
  | readHandle ht | length ht | dispatchMessage ht =>
    refine hi.same hbase ht ⟨rfl, by simp [Frame.creates], rfl, rfl, fun g hg => ?_⟩ rfl rfl hctx
    rw [List.mem_singleton.mp hg]
    exact (hi.links.good _ ht.mem).go rfl trivial
  | release h ht => exact hi.release h ht hbase
  | free ht =>
    exact hi.same hbase ht ⟨rfl, by simp, rfl, rfl, by simp⟩ rfl rfl (setCtx_same rfl rfl)
  | @retire handle ts ht =>
    refine hi.same hbase ht ?_ rfl rfl hctx
    cases (skynetHandleRetire s.handleOf handle s.storage).1 <;>
      exact ⟨rfl, by simp [Frame.creates], rfl, rfl, by simp [State.Good, Frame.serves]⟩
  | @retireSlot i ts ht =>
    refine hi.same hbase ht ?_ rfl rfl hctx
    unfold State.retireSlot
    split
    · split <;>
        exact ⟨rfl, by simp [Frame.creates], rfl, rfl, by simp [State.Good, Frame.serves]⟩
    · exact ⟨rfl, by simp, rfl, rfl, by simp⟩
  | @grab _ handle after ts h ht =>
    have hquiet := hi.grabs_quiet hd ht.mem h
    cases hgrab : skynetHandleGrab s.handleOf handle s.storage with
    | none =>
      rw [hgrab] at ht hquiet hbase
      exact hi.same hbase ht hquiet rfl rfl hctx
    | some ctx =>
      rw [hgrab] at ht hquiet hbase
      exact hi.same hbase ht hquiet rfl rfl (setCtx_same rfl rfl)
  | reserve h ht =>
    have hf : f.creates = none := by cases f <;> cases h <;> rfl
    refine hi.same hbase ht ⟨hf, by simpa using hf, List.flatMap_singleton .., rfl, fun g hg => ?_⟩
      rfl rfl (setCtx_same rfl rfl)
    rw [List.mem_singleton.mp hg]
    exact hi.links.good _ ht.mem
  | unreserve h ht =>
    exact hi.same hbase ht
      ⟨rfl, by simp [Frame.creates], rfl, rfl, by simp [State.Good, Frame.serves]⟩ rfl rfl hctx
  | @overload q ctx i n message log ts hlog ht =>
    have hover := fun {β : Type} (p : MessageQueue → β) =>
      @update_apply _ β p s.queue q { s.queue q with overload := 0 }
    have hsame : SameQueues s
        { s.setQueue q { s.queue q with overload := 0 } with threads := ts } :=
      ⟨rfl, rfl, rfl, rfl, rfl, ⟨rfl, rfl, rfl⟩, fun x => ⟨hover MessageQueue.handle rfl x,
        hover MessageQueue.inGlobal rfl x, hover MessageQueue.release rfl x,
        hover MessageQueue.contents rfl x⟩⟩
    have hread : State.Good { s.setQueue q { s.queue q with overload := 0 } with threads := ts }
        (.readCb q ctx message i n) :=
      ((hi.links.good _ ht.mem).go rfl trivial).mono (fun _ => rfl) rfl fun x =>
        ⟨(hsame.queue x).1, fun h => (hsame.queue x).2.2.1.trans h⟩
    obtain rfl | ⟨-, logger, text, rfl⟩ := hlog
    · exact hi.context hbase hsame ht rfl (fun _ => rfl) rfl rfl (by simp [Frame.creates])
        (fun _ => rfl) (by simpa using hread)
    · refine hi.context hbase hsame ht rfl (fun _ => rfl) rfl rfl (by simp [Frame.creates])
        (fun _ => rfl) (List.forall_mem_cons.mpr ⟨good_of_serves_none rfl trivial, ?_⟩)
      simpa using hread

theorem State.forget_init (harbor threads : Nat) :
    (State.init harbor threads).forget = SkynetServer.State.init harbor threads := by
  have hthreads : forgetThreads (List.replicate threads [Frame.idle none]) =
      List.replicate threads [SkynetServer.Frame.idle] := List.map_replicate
  simp only [State.forget, State.init, SkynetServer.State.init, hthreads]

theorem State.sched_init (harbor threads : Nat) : (State.init harbor threads).Inv := by
  have hidle : ∀ f ∈ (State.init harbor threads).threads.flatten, f = .idle none := by
    intro f hf
    obtain ⟨st, hst, hf⟩ := List.mem_flatten.mp hf
    rw [List.eq_of_mem_replicate hst] at hf
    exact List.mem_singleton.mp hf
  have hheld : ∀ q, (State.init harbor threads).held q = 0 := by
    intro q
    simp [State.held, weight, State.init, Frame.queues]
  have htally : ∀ ctx, tally Frame.creates (State.init harbor threads).threads ctx = 0 := by
    intro ctx
    refine List.count_eq_zero.mpr fun hmem => ?_
    obtain ⟨f, hf, hc⟩ := List.mem_filterMap.mp hmem
    rw [hidle f hf] at hc
    cases hc
  refine ⟨?_, rfl, ?_, ⟨[], linked_init, fun q => ?_⟩, fun _ h => (by cases h),
    fun _ h => (by cases h), fun _ _ => ⟨rfl, rfl, rfl, rfl⟩, fun _ => rfl, fun _ h => absurd rfl h⟩
  · rw [State.forget_init]
    exact SkynetServer.State.inv_init harbor threads
  · refine ⟨fun _ _ h => (by cases h), fun _ _ _ h => (by cases h),
      fun q h => absurd h q.not_lt_zero, fun ctx => ?_, fun _ _ h => (by cases h),
      fun f hf => ?_, fun c _ handle h => ?_⟩
    · rw [htally, if_neg fun h => absurd h.1 ctx.not_lt_zero]
    · rw [hidle f hf]
      exact good_of_serves_none rfl trivial
    · obtain h | ⟨h, -⟩ | ⟨q, hq, -⟩ := h
      · cases hidle _ h
      · cases hidle _ h
      · cases hq
  · rw [hheld, State.due, if_neg fun h => absurd h.1 q.not_lt_zero]
    rfl

theorem runs_serves {ctx : Nat} (h : f.runs = some ctx) : ∃ q, f.serves = some (ctx, q) := by
  cases f <;> cases h <;> exact ⟨_, rfl⟩

theorem State.Inv.sound (hi : s.Inv) : s.Sound where
  running := hi.running
  scheduled := by
    obtain ⟨l, hl, hcount⟩ := hi.held
    refine ⟨l, hl, fun q hq => ?_, fun q hlt hfreed => ?_⟩
    · have hpos := List.count_pos_iff.mpr hq
      have hc := hcount q
      unfold State.due at hc
      split at hc
      case isTrue h => exact ⟨h.1, h.2.1⟩
      case isFalse => omega
    · have hc := hcount q
      unfold State.due at hc
      split at hc
      case isTrue => omega
      case isFalse h =>
        have hin : (s.queue q).inGlobal = false := by
          by_contra hin
          exact h ⟨hlt, hfreed, .inl (Bool.eq_true_of_not_eq_false hin)⟩
        exact .inr (.inr ⟨by omega, by omega, hin, hi.empty q hin⟩)
  fifo := hi.fifo
  dropped := hi.order
  freed q hq := by
    obtain ⟨l, -, hcount⟩ := hi.held
    have hc := hcount q
    rw [State.due, if_neg fun h => absurd (hq.symm.trans h.2.1) (by simp)] at hc
    exact ⟨by omega, hi.empty q (hi.gone q hq).2⟩
  exclusive ctx := by
    by_contra hgt
    obtain ⟨f, hf, hruns⟩ := List.mem_filterMap.mp
      (List.count_pos_iff.mp (Nat.lt_of_lt_of_le Nat.one_pos (Nat.le_of_lt (Nat.lt_of_not_le hgt))))
    obtain ⟨q, hserves⟩ := runs_serves hruns
    have hq := (hi.links.good f hf).serves hserves
    have hle : tally Frame.runs s.threads ctx ≤ s.held q := by
      refine tally_le_weight fun g hg hgr => ?_
      obtain ⟨q', hs⟩ := runs_serves hgr
      cases hq.symm.trans ((hi.links.good g hg).serves hs)
      exact List.count_pos_iff.mpr (serves_holds hs).2
    obtain ⟨l, -, hcount⟩ := hi.held
    have := hcount q
    have := s.due_le q
    omega

/-- In every run of any number of threads, as long as what the code relies on holds, no assertion
fails, every queue is in the global queue once, or held by one frame, or idle and empty; the
messages of each service are dispatched in the order in which they were pushed, and its code runs in
one thread at a time. -/
theorem sched_sound {harbor threads : Nat} {fs : List Frame}
    (h : Run (Guarded Defined Step) (State.init harbor threads) fs s) : s.Sound :=
  (h.invariant (State.sched_init harbor threads) fun _ _ _ hi hs => State.inv_step hi hs).sound

theorem Defined.of_other (h : match f with
    | .free _ | .new | .push .. | .mqPush .. => False
    | _ => True) : Defined s f := by
  cases f <;> first | exact h.elim | exact ⟨by simp, by simp, by simp, by simp⟩

/-- A service is created, and a worker takes its queue. -/
theorem sched_sound_new : ∃ s, Run (Guarded Defined Step) (State.init 0 2)
    [.idle none, .new, .storeHandle 0 1, .createQueue 0, .instanceInit 0 0, .releaseNew 0 0,
      .setInit 0 0, .globalmqPush (some 0) 0, .idle none] s ∧ s.Sound := by
  have hnew : ∀ {s : State}, (∀ f ∈ s.threads.flatten, f.creates = none) →
      (∀ ctx, s.queueOf ctx = none) → Defined s .new := by
    intro s hf hq
    refine ⟨by simp, fun _ handle _ _ ctx huse => ?_, by simp, by simp⟩
    obtain h | ⟨h, -⟩ | ⟨q, h, -⟩ := huse
    · cases hf _ h
    · cases hf _ h
    · rw [hq] at h
      cases h
  have hrun : ∃ s, Run (Guarded Defined Step) (State.init 0 2)
      [.idle none, .new, .storeHandle 0 1, .createQueue 0, .instanceInit 0 0, .releaseNew 0 0,
        .setInit 0 0, .globalmqPush (some 0) 0, .idle none] s :=
    ⟨_, Run.cons ⟨.of_other trivial,
      .goes (.call trivial (g := .new) trivial) ⟨[], [], _, rfl, rfl⟩⟩
      (Run.cons ⟨hnew (by decide) (fun _ => rfl), .new rfl ⟨[], [.idle none], _, rfl, rfl⟩⟩
      (Run.cons ⟨.of_other trivial,
        .storeHandle ⟨[], [.idle none], _, rfl, rfl⟩⟩
      (Run.cons ⟨.of_other trivial,
        .act rfl ⟨[], [.idle none], _, rfl, rfl⟩⟩
      (Run.cons ⟨.of_other trivial,
        .goes .initOk ⟨[], [.idle none], _, rfl, rfl⟩⟩
      (Run.cons ⟨.of_other trivial,
        .release rfl ⟨[], [.idle none], _, rfl, rfl⟩⟩
      (Run.cons ⟨.of_other trivial,
        .setInit ⟨[], [.idle none], _, rfl, rfl⟩⟩
      (Run.cons ⟨.of_other trivial,
        .act rfl ⟨[], [.idle none], _, rfl, rfl⟩⟩
      (Run.single ⟨.of_other trivial,
        .act rfl ⟨[_], [], [], rfl, rfl⟩⟩))))))))⟩
  obtain ⟨s, hrun⟩ := hrun
  exact ⟨s, hrun, sched_sound hrun⟩

end XsServer.Sched
