import XsServer.Sched.Model
import XsServer.SkynetServer.Refs

/-! A run of the workers, without its queues, is a run of `XsServer.SkynetServer`: what holds of the
references to contexts there holds here. -/

namespace XsServer.Sched

open XsServer.Lib XsServer.Handle XsServer.Mq
open XsServer.SkynetServer (Context)

def Frame.base : Frame → SkynetServer.Frame
  | idle _ | globalmqPop => .idle
  | new => .new
  | storeHandle ctx handle => .storeHandle ctx handle
  | createQueue ctx => .createQueue ctx
  | instanceInit ctx _ => .instanceInit ctx
  | releaseNew ctx _ => .releaseNew ctx
  | setInit ctx _ => .setInit ctx
  | globalmqPush ret _ => .globalmqPush ret
  | launch ret => .launch ret
  | failed ctx _ => .failed ctx
  | readHandle ctx _ => .readHandle ctx
  | releaseFailed ctx _ handle => .releaseFailed ctx handle
  | release ctx => .release ctx
  | closeLogfile ctx => .closeLogfile ctx
  | instanceRelease ctx => .instanceRelease ctx
  | markRelease ctx => .markRelease ctx
  | free ctx => .free ctx
  | retire handle => .retire handle
  | retireSlot i => .retireSlot i
  | push handle _ => .push handle
  | mqPush ctx _ => .mqPush ctx
  | dispatch _ handle => .dispatch handle
  | mqPop _ ctx _ _ => .mqPop ctx
  | popped _ ctx _ _ _ | overload _ ctx _ _ _ => .overload ctx
  | readCb _ ctx _ _ _ => .readCb ctx
  | dispatchMessage _ ctx _ _ _ => .dispatchMessage ctx
  | cb _ ctx _ _ _ => .cb ctx
  | countCost _ ctx _ _ => .countCost ctx
  | checkQueue _ ctx | pushBack _ _ ctx => .checkQueue ctx
  | mqRelease _ _ | dropQueue _ _ => .mqRelease

/-- `skynet_context_message_dispatch` returns to a worker. -/
def Frame.below : Frame → List SkynetServer.Frame
  | dispatch .. | mqPop .. | popped .. | overload .. | readCb .. | dispatchMessage .. | cb ..
  | countCost .. | checkQueue .. | pushBack .. => [.idle]
  | _ => []

def Frame.forget (f : Frame) : List SkynetServer.Frame := f.base :: f.below

def forgetThreads (ts : List (List Frame)) : List (List SkynetServer.Frame) :=
  ts.map fun st => st.flatMap Frame.forget

def State.forget (s : State) : SkynetServer.State where
  storage := s.storage
  ctx := s.ctx
  next := s.next
  reserved := s.reserved
  threads := forgetThreads s.threads

variable {s s' : State} {f : Frame} {fs : List Frame} {ts ts' : List (List Frame)}

theorem forget_replaces (ht : Replaces ts f fs ts') {gs : List SkynetServer.Frame}
    (h : fs.flatMap Frame.forget = gs ++ f.below) :
    Replaces (forgetThreads ts) f.base gs (forgetThreads ts') := by
  obtain ⟨l, st, r, rfl, rfl⟩ := ht
  refine ⟨forgetThreads l, f.below ++ st.flatMap Frame.forget, forgetThreads r, ?_, ?_⟩
  · simp [forgetThreads, Frame.forget]
  · simp [forgetThreads, h]

theorem forget_same (ht : Replaces ts f fs ts') (h : fs.flatMap Frame.forget = f.forget) :
    forgetThreads ts' = forgetThreads ts := by
  obtain ⟨l, st, r, rfl, rfl⟩ := ht
  simp [forgetThreads, h]

theorem mem_forget {g : SkynetServer.Frame} (h : g ∈ (forgetThreads ts).flatten) :
    ∃ f ∈ ts.flatten, g = f.base ∨ g = .idle := by
  obtain ⟨st, hst, hg⟩ := List.mem_flatten.mp h
  obtain ⟨st', hst', rfl⟩ := List.mem_map.mp hst
  obtain ⟨f, hf, hg⟩ := List.mem_flatMap.mp hg
  refine ⟨f, List.mem_flatten.mpr ⟨st', hst', hf⟩, ?_⟩
  obtain rfl | hg := List.mem_cons.mp hg
  · exact .inl rfl
  · refine .inr ?_
    cases f <;> simp_all [Frame.below]

theorem base_mem_forget (h : f ∈ ts.flatten) : f.base ∈ (forgetThreads ts).flatten := by
  obtain ⟨st, hst, hf⟩ := List.mem_flatten.mp h
  exact List.mem_flatten.mpr ⟨_, List.mem_map.mpr ⟨st, hst, rfl⟩,
    List.mem_flatMap.mpr ⟨f, hf, List.mem_cons_self⟩⟩

/-- Without its queue, the step of a frame is one of `XsServer.SkynetServer`, or none. -/
def Follows (s : State) (f : Frame) (s' : State) : Prop :=
  SkynetServer.Step s.forget f.base s'.forget ∨ s'.forget = s.forget

theorem Follows.goes {gs : List SkynetServer.Frame} (h : SkynetServer.Goes f.base gs)
    (ht : Replaces s.threads f fs s'.threads) (hfs : fs.flatMap Frame.forget = gs ++ f.below)
    (hs : s'.forget = { s.forget with threads := forgetThreads s'.threads }) : Follows s f s' := by
  refine .inl ?_
  rw [hs]
  exact .goes h (forget_replaces ht hfs)

theorem Follows.same (ht : Replaces s.threads f fs s'.threads)
    (hfs : fs.flatMap Frame.forget = f.forget)
    (hs : s'.forget = { s.forget with threads := forgetThreads s'.threads }) : Follows s f s' := by
  refine .inr ?_
  rw [hs, forget_same ht hfs]
  rfl

theorem again_forget (q ctx i n : Nat) :
    again q ctx i n = .mqPop q ctx (i + 1) n ∨ again q ctx i n = .checkQueue q ctx := by
  unfold again
  split
  · exact .inl rfl
  · exact .inr rfl

theorem Goes.follows (h : Goes f fs) (ht : Replaces s.threads f fs ts) :
    Follows s f { s with threads := ts } := by
  cases h with
  | @call f g hf hg =>
    refine .goes (.call (g := g.base) ?_ ?_) ht (?_ : _ = [g.base, f.base] ++ f.below) rfl
    · cases f <;> trivial
    · cases g <;> trivial
    · cases g <;> first | exact hg.elim | simp [Frame.forget, Frame.base, Frame.below]
  | initOk => exact .goes .initOk ht rfl rfl
  | initFailed => exact .goes .initFailed ht rfl rfl
  | launch => exact .goes .launch ht rfl rfl
  | launchLog => exact .goes .launchLog ht rfl rfl
  | failed => exact .goes .failed ht rfl rfl
  | failedLog => exact .goes .failedLog ht rfl rfl
  | closeLogfile => exact .goes .closeLogfile ht rfl rfl
  | instanceRelease => exact .goes .instanceRelease ht rfl rfl
  | popped => exact .same ht rfl rfl
  | @noCb q ctx i n =>
    obtain h | h := again_forget q ctx i n
    · rw [h] at ht
      exact .goes .noCb ht rfl rfl
    · rw [h] at ht
      exact .goes .noCbLast ht rfl rfl
  | readCb => exact .goes .readCb ht rfl rfl
  | cb => exact .goes .cb ht rfl rfl
  | @countCost q ctx i n =>
    obtain h | h := again_forget q ctx i n
    · rw [h] at ht
      exact .goes .countCost ht rfl rfl
    · rw [h] at ht
      exact .goes .countCostLast ht rfl rfl

variable {s1 : State}

theorem link_some {q : Nat} {called : Bool} (h : s.link q called = some s1) :
    ∃ g, s1 = { s with global := g } ∧
      (called = false ∧ g = s.global ∨ called = true ∧ skynetGlobalmqPush s.global q = some g) := by
  cases called with
  | false =>
    cases h
    exact ⟨s.global, rfl, .inl ⟨rfl, rfl⟩⟩
  | true =>
    obtain ⟨g, hg, rfl⟩ := Option.map_eq_some_iff.mp h
    exact ⟨g, rfl, .inr ⟨rfl, hg⟩⟩

theorem link_called {q : Nat} (h : s.link q true = some s1) :
    ∃ g, s1 = { s with global := g } ∧ skynetGlobalmqPush s.global q = some g := by
  obtain ⟨g, hs, ⟨hf, -⟩ | ⟨-, hg⟩⟩ := link_some h
  · cases hf
  · exact ⟨g, hs, hg⟩

theorem unlink_some {q : Option Nat} (h : s.unlink = some (q, s1)) :
    ∃ g, s1 = { s with global := g } ∧ skynetGlobalmqPop s.global = some (q, g) := by
  obtain ⟨⟨q', g⟩, hg, heq⟩ := Option.map_eq_some_iff.mp h
  cases heq
  exact ⟨g, rfl, hg⟩

/-! ### What the frames do that work on the queues -/

variable {r : State × List Frame}

theorem act_globalmqPush {ret : Option Nat} {q : Nat}
    (h : s.act (.globalmqPush ret q) = some r) :
    ∃ g, skynetGlobalmqPush s.global q = some g ∧
      r = ({ s with global := g }, (ret.map Frame.launch).toList) := by
  obtain ⟨s1, hs1, hr⟩ := Option.bind_eq_some_iff.mp h
  obtain ⟨g, rfl, hg⟩ := link_called hs1
  cases hr
  exact ⟨g, hg, rfl⟩

theorem act_markRelease {ctx : Nat}
    (h : s.act (.markRelease ctx) = some r) :
    ∃ q mq called g, s.queueOf ctx = some q ∧
      skynetMqMarkRelease (s.queue q) = some (mq, called) ∧
      (called = false ∧ g = s.global ∨ called = true ∧ skynetGlobalmqPush s.global q = some g) ∧
      r = ({ s.setQueue q mq with global := g }, [Frame.free ctx]) := by
  obtain ⟨q, hq, h⟩ := Option.bind_eq_some_iff.mp h
  obtain ⟨⟨mq, called⟩, hmq, h⟩ := Option.bind_eq_some_iff.mp h
  obtain ⟨s1, hs1, hr⟩ := Option.bind_eq_some_iff.mp h
  obtain ⟨g, rfl, hg⟩ := link_some hs1
  cases hr
  exact ⟨q, mq, called, g, hq, hmq, hg, rfl⟩

theorem act_mqPush {ctx : Nat} {message : SkynetMessage}
    (h : s.act (.mqPush ctx message) = some r) :
    ∃ q mq called g, s.queueOf ctx = some q ∧
      skynetMqPush (s.queue q) message = some (mq, called) ∧
      (called = false ∧ g = s.global ∨ called = true ∧ skynetGlobalmqPush s.global q = some g) ∧
      r = ({ s.setQueue q mq with global := g, pushed := record s.pushed q message },
        [Frame.release ctx]) := by
  obtain ⟨q, hq, h⟩ := Option.bind_eq_some_iff.mp h
  obtain ⟨⟨mq, called⟩, hmq, h⟩ := Option.bind_eq_some_iff.mp h
  obtain ⟨s1, hs1, hr⟩ := Option.bind_eq_some_iff.mp h
  obtain ⟨g, rfl, hg⟩ := link_some hs1
  cases hr
  exact ⟨q, mq, called, g, hq, hmq, hg, rfl⟩

theorem act_idle (h : s.act (.idle none) = some r) :
    ∃ q g, skynetGlobalmqPop s.global = some (q, g) ∧
      r = ({ s with global := g }, [match q with
        | some q => Frame.dispatch q (s.queue q).handle.toNat
        | none => .idle none]) := by
  obtain ⟨⟨q, s1⟩, hs1, hr⟩ := Option.bind_eq_some_iff.mp h
  obtain ⟨g, rfl, hg⟩ := unlink_some hs1
  cases hr
  exact ⟨q, g, hg, rfl⟩

theorem act_globalmqPop (h : s.act .globalmqPop = some r) :
    ∃ q g, skynetGlobalmqPop s.global = some (q, g) ∧
      r = ({ s with global := g }, [Frame.idle q]) := by
  obtain ⟨⟨q, s1⟩, hs1, hr⟩ := Option.bind_eq_some_iff.mp h
  obtain ⟨g, rfl, hg⟩ := unlink_some hs1
  cases hr
  exact ⟨q, g, hg, rfl⟩

theorem act_mqPop {q ctx i n : Nat}
    (h : s.act (.mqPop q ctx i n) = some r) :
    (∃ mq, skynetMqPop (s.queue q) = (none, mq) ∧
      r = (s.setQueue q mq, [Frame.release ctx, .globalmqPop])) ∨
    ∃ message mq, skynetMqPop (s.queue q) = (some message, mq) ∧
      r = ({ s.setQueue q mq with dispatched := record s.dispatched q message },
        [Frame.popped q ctx message i n]) := by
  simp only [State.act] at h
  split at h
  case h_1 mq hmq =>
    cases h
    exact .inl ⟨mq, hmq, rfl⟩
  case h_2 message mq hmq =>
    cases h
    exact .inr ⟨message, mq, hmq, rfl⟩

theorem act_checkQueue {q ctx : Nat}
    (h : s.act (.checkQueue q ctx) = some r) :
    ∃ nq g, skynetGlobalmqPop s.global = some (nq, g) ∧
      r = ({ s with global := g }, match nq with
        | some nq => [Frame.pushBack q nq ctx]
        | none => [.release ctx, .idle (some q)]) := by
  simp only [State.act] at h
  split at h
  · cases h
  · obtain ⟨⟨nq, s1⟩, hs1, hr⟩ := Option.bind_eq_some_iff.mp h
    obtain ⟨g, rfl, hg⟩ := unlink_some hs1
    cases hr
    exact ⟨nq, g, hg, rfl⟩

theorem act_pushBack {q nq ctx : Nat}
    (h : s.act (.pushBack q nq ctx) = some r) :
    ∃ g, skynetGlobalmqPush s.global q = some g ∧
      r = ({ s with global := g }, [Frame.release ctx, .idle (some nq)]) := by
  obtain ⟨s1, hs1, hr⟩ := Option.bind_eq_some_iff.mp h
  obtain ⟨g, rfl, hg⟩ := link_called hs1
  cases hr
  exact ⟨g, hg, rfl⟩

theorem act_mqRelease {q handle : Nat}
    (h : s.act (.mqRelease q handle) = some r) :
    ((s.queue q).release = true ∧ r = (s, [Frame.dropQueue q handle])) ∨
    (s.queue q).release = false ∧
      ∃ g, skynetGlobalmqPush s.global q = some g ∧ r = ({ s with global := g }, []) := by
  simp only [State.act] at h
  split at h
  case isTrue hrel =>
    cases h
    exact .inl ⟨hrel, rfl⟩
  case isFalse hrel =>
    obtain ⟨s1, hs1, hr⟩ := Option.bind_eq_some_iff.mp h
    obtain ⟨g, rfl, hg⟩ := link_called hs1
    cases hr
    exact .inr ⟨Bool.eq_false_iff.mpr hrel, g, hg, rfl⟩

theorem act_dropQueue {q handle : Nat}
    (h : s.act (.dropQueue q handle) = some r) :
    (∃ message mq, skynetMqPop (s.queue q) = (some message, mq) ∧
      r = ({ s.setQueue q mq with dropped := record s.dropped q message },
        dropMessage message handle ++ [Frame.dropQueue q handle])) ∨
    ∃ mq, skynetMqPop (s.queue q) = (none, mq) ∧
      r = ({ s.setQueue q mq with freed := Function.update s.freed q true }, []) := by
  simp only [State.act] at h
  split at h
  case h_1 message mq hmq =>
    cases h
    exact .inl ⟨message, mq, hmq, rfl⟩
  case h_2 mq hmq =>
    split at h
    · cases h
    · cases h
      exact .inr ⟨mq, hmq, rfl⟩

theorem dropMessage_cases (message : SkynetMessage) (handle : Nat) :
    dropMessage message handle = [] ∨
      ∃ source text, dropMessage message handle = [.push source text] := by
  unfold dropMessage
  split
  · exact .inl rfl
  · exact .inr ⟨_, _, rfl⟩

theorem act_follows (h : s.act f = some (s1, fs))
    (ht : Replaces s.threads f fs ts) : Follows s f { s1 with threads := ts } := by
  cases f with
  | createQueue ctx =>
    cases h
    exact .goes .createQueue ht rfl rfl
  | globalmqPush ret q =>
    obtain ⟨g, -, heq⟩ := act_globalmqPush h
    cases heq
    exact .goes .globalmqPush ht (by cases ret <;> rfl) rfl
  | markRelease ctx =>
    obtain ⟨q, mq, called, g, -, -, -, heq⟩ := act_markRelease h
    cases heq
    exact .goes .markRelease ht rfl rfl
  | mqPush ctx message =>
    obtain ⟨q, mq, called, g, -, -, -, heq⟩ := act_mqPush h
    cases heq
    exact .goes .mqPush ht rfl rfl
  | idle q =>
    cases q with
    | none =>
      obtain ⟨q, g, -, heq⟩ := act_idle h
      cases heq
      cases q with
      | none => exact .same ht rfl rfl
      | some q => exact .goes .worker ht rfl rfl
    | some q =>
      cases h
      exact .goes .worker ht rfl rfl
  | globalmqPop =>
    obtain ⟨q, g, -, heq⟩ := act_globalmqPop h
    cases heq
    exact .same ht rfl rfl
  | mqPop q ctx i n =>
    obtain ⟨mq, -, heq⟩ | ⟨message, mq, -, heq⟩ := act_mqPop h
    · cases heq
      exact .goes .mqPopEmpty ht rfl rfl
    · cases heq
      exact .goes .mqPop ht rfl rfl
  | checkQueue q ctx =>
    obtain ⟨nq, g, -, heq⟩ := act_checkQueue h
    cases heq
    cases nq with
    | none => exact .goes .checkQueue ht rfl rfl
    | some nq => exact .same ht rfl rfl
  | pushBack q nq ctx =>
    obtain ⟨g, -, heq⟩ := act_pushBack h
    cases heq
    exact .goes .checkQueue ht rfl rfl
  | mqRelease q handle =>
    obtain ⟨-, heq⟩ | ⟨-, g, -, heq⟩ := act_mqRelease h
    · cases heq
      exact .same ht rfl rfl
    · cases heq
      exact .goes .mqRelease ht rfl rfl
  | dropQueue q handle =>
    obtain ⟨message, mq, -, heq⟩ | ⟨mq, -, heq⟩ := act_dropQueue h
    · cases heq
      obtain hd | ⟨source, text, hd⟩ := dropMessage_cases message handle
      · rw [hd] at ht
        exact .same ht rfl rfl
      · rw [hd] at ht
        exact .goes (@SkynetServer.Goes.dropMessage source) ht rfl rfl
    · cases heq
      exact .goes .mqRelease ht rfl rfl
  | _ => cases h

theorem releases_base {ctx : Nat} {alive gone : List Frame}
    (h : f.releases = some (ctx, alive, gone)) :
    f.base.releases = some (ctx, alive.map Frame.base, gone.map Frame.base) ∧ f.below = [] ∧
      (∀ g ∈ alive, g.below = []) ∧ ∀ g ∈ gone, g.below = [] := by
  cases f <;> cases h <;>
    simp [Frame.base, Frame.below, SkynetServer.Frame.releases]

theorem flatMap_forget {l : List Frame} (h : ∀ g ∈ l, g.below = []) :
    l.flatMap Frame.forget = l.map Frame.base := by
  induction l with
  | nil => rfl
  | cons g l ih =>
    rw [List.flatMap_cons, List.map_cons, ih fun g hg => h g (List.mem_cons_of_mem _ hg),
      Frame.forget, h g List.mem_cons_self]
    rfl

theorem grabs_base {handle : Nat} {after : Option Nat → List Frame}
    (h : f.grabs = some (handle, after)) :
    ∃ after', f.base.grabs = some (handle, after') ∧
      ∀ ctx, (after ctx).flatMap Frame.forget = after' ctx ++ f.below := by
  cases f <;> cases h
  · refine ⟨_, rfl, fun ctx => ?_⟩
    cases ctx <;> rfl
  · refine ⟨_, rfl, fun ctx => ?_⟩
    cases ctx <;> rfl

theorem Step.follows (h : Step s f s') : Follows s f s' := by
  cases h with
  | goes h ht => exact h.follows ht
  | act h ht => exact act_follows h ht
  | abort => exact .inr rfl
  | new h ht => exact .inl (.new h (forget_replaces ht rfl))
  | storeHandle ht => exact .inl (.storeHandle (forget_replaces ht rfl))
  | setInit ht => exact .inl (.setInit (forget_replaces ht rfl))
  | readHandle ht => exact .inl (.readHandle (forget_replaces ht rfl))
  | @release _ ctx alive gone ts h ht =>
    obtain ⟨hbase, hbelow, ha, hg⟩ := releases_base h
    refine .inl (.release hbase (forget_replaces ht ?_))
    rw [hbelow, List.append_nil]
    change _ = if (s.ctx ctx).ref = 1 then _ else _
    split
    · rw [List.flatMap_cons, flatMap_forget hg]
      rfl
    · exact flatMap_forget ha
  | free ht => exact .inl (.free (forget_replaces ht rfl))
  | @retire handle ts ht =>
    refine .inl (.retire (forget_replaces ht ?_))
    change _ = ((skynetHandleRetire s.handleOf handle s.storage).1.map
      SkynetServer.Frame.release).toList ++ []
    cases (skynetHandleRetire s.handleOf handle s.storage).1 <;> rfl
  | @retireSlot i ts ht =>
    refine .inl (.retireSlot (forget_replaces ht ?_))
    unfold State.retireSlot SkynetServer.State.retireSlot
    change _ = (match slotAt s.storage.slot i with
      | some ctx => if s.handleOf ctx ≠ 0 then [SkynetServer.Frame.retire (s.handleOf ctx)] else []
      | none => []) ++ []
    cases slotAt s.storage.slot i with
    | none => rfl
    | some ctx =>
      by_cases hzero : s.handleOf ctx ≠ 0
      · simp only [if_pos hzero]
        rfl
      · simp only [if_neg hzero]
        rfl
  | @grab _ handle after ts h ht =>
    obtain ⟨after', hbase, hafter⟩ := grabs_base h
    have hstep := SkynetServer.Step.grab (s := s.forget) hbase (forget_replaces ht (hafter _))
    refine .inl ?_
    cases hgrab : skynetHandleGrab s.handleOf handle s.storage <;>
      rw [show skynetHandleGrab s.forget.handleOf handle s.forget.storage = _ from hgrab]
        at hstep <;>
      exact hstep
  | @reserve _ ctx h ht =>
    have hbase : f.base.runs = some ctx := by cases f <;> cases h <;> rfl
    have hfs : [f].flatMap Frame.forget = [f.base] ++ f.below := by simp [Frame.forget]
    exact .inl (.reserve hbase (forget_replaces ht hfs))
  | unreserve h ht => exact .inl (.unreserve h (forget_replaces ht rfl))
  | length ht => exact .same ht rfl rfl
  | overload hlog ht =>
    obtain rfl | ⟨-, logger, text, rfl⟩ := hlog
    · exact .goes .overload ht rfl rfl
    · exact .goes .overloadLog ht rfl rfl
  | dispatchMessage ht => exact .goes .dispatchMessage ht rfl rfl

theorem returning_base (g : Frame) : g.base.returning = g.returning := by
  cases g with
  | globalmqPush ret q => cases ret <;> rfl
  | _ => rfl

theorem forget_inv (hi : s.forget.Inv) (hd : Defined s f) (h : Step s f s') : s'.forget.Inv := by
  obtain hstep | heq := h.follows
  · refine SkynetServer.State.inv_step hi ⟨fun ctx hfree g hg => ?_, hstep⟩
    have hf : f = .free ctx := by
      cases f <;> cases hfree
      rfl
    obtain ⟨g', hg', rfl | rfl⟩ := mem_forget hg
    · rw [returning_base]
      exact hd.clear ctx hf g' hg'
    · simp [SkynetServer.Frame.returning]
  · rw [heq]
    exact hi

end XsServer.Sched
