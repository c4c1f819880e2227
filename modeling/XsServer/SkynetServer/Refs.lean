import XsServer.Handle.Register
import XsServer.SkynetServer.Context

/-! `ref` counts the holders of a context in every run, and no context is used after it was freed as
long as `skynet_context_new` is done with each context that is freed. -/

namespace XsServer.SkynetServer

open XsServer.Lib XsServer.Handle

section Table

variable {slot : List (Option Nat)} {i : Nat} {ctx : Nat}

theorem count_set_free (hi : i < slot.length) (h : slotAt slot i = none) (c : Nat) :
    (slot.set i (some ctx)).count (some c) = slot.count (some c) + [ctx].count c := by
  have hnone : slot[i] = none := by
    rw [slotAt, List.getElem?_eq_getElem hi] at h
    exact h
  rw [List.count_set hi, hnone, List.count_singleton]
  simp

theorem count_set_none (h : slotAt slot i = some ctx) (c : Nat) :
    (slot.set i none).count (some c) + [ctx].count c = slot.count (some c) := by
  have hi := slotAt_lt h
  have hsome : slot[i] = some ctx := by
    rw [slotAt, List.getElem?_eq_getElem hi] at h
    exact h
  have hpos : 0 < slot.count (some ctx) := List.count_pos_iff.mpr (mem_iff_slotAt.mpr ⟨i, h⟩)
  rw [List.count_set hi, hsome, List.count_singleton]
  by_cases hc : ctx = c
  · subst hc
    simp
    omega
  · simp [hc]

theorem rehash_count {handleOf : Nat → Nat} {old new : List (Option Nat)}
    (hsize : ∃ k, new.length = 2 ^ k) (h : rehash handleOf old new = .ok slot) (c : Nat) :
    slot.count (some c) = old.count (some c) + new.count (some c) := by
  induction old generalizing new with
  | nil =>
    cases h
    rw [List.count_nil, Nat.zero_add]
  | cons entry old ih =>
    cases entry with
    | none => cases h
    | some ctx =>
      simp only [rehash] at h
      split at h
      case isTrue hfree =>
        have hi := Handle.hash_lt (handleOf ctx) hsize
        have hcons : (some ctx :: old).count (some c) = old.count (some c) + [ctx].count c := by
          rw [List.count_cons, List.count_singleton]
          simp
        rw [ih (by rwa [List.length_set]) h,
          count_set_free hi (Option.isNone_iff_eq_none.mp hfree), hcons]
        omega
      case isFalse => cases h

variable {handleOf : Nat → Nat} {s s' : HandleStorage Nat} {handle : Nat}

theorem grow_count (h : grow handleOf s = .ok s') (c : Nat) :
    s'.slot.count (some c) = s.slot.count (some c) := by
  unfold grow at h
  split at h
  case isTrue =>
    split at h
    case h_1 slot hslot =>
      cases h
      have hsize : ∃ k, (List.replicate (s.slotSize * 2) (none : Option Nat)).length = 2 ^ k := by
        obtain ⟨k, hk⟩ := s.size_pow
        exact ⟨k + 1, by rw [List.length_replicate, hk, pow_succ]⟩
      have hcount := rehash_count hsize hslot c
      rw [List.count_replicate] at hcount
      simpa using hcount
    case h_2 => cases h
  case isFalse => cases h

theorem registerLoop_count {n : Nat} (h : registerLoop handleOf ctx n s = .ok (handle, s'))
    (c : Nat) : s'.slot.count (some c) = s.slot.count (some c) + [ctx].count c := by
  induction n generalizing s with
  | zero => cases h
  | succ n ih =>
    cases hprobe : probe s.slot s.slotSize s.handleIndex with
    | some handle' =>
      rw [registerLoop_some hprobe] at h
      cases h
      exact count_set_free (s.hash_lt handle') (probe_some hprobe) c
    | none =>
      rw [registerLoop_none hprobe] at h
      cases hgrow : grow handleOf s with
      | error e =>
        rw [hgrow] at h
        cases h
      | ok s1 =>
        rw [hgrow] at h
        rw [ih h, grow_count hgrow]

theorem retire_count (handleOf : Nat → Nat) (handle : Nat) (s : HandleStorage Nat) (c : Nat) :
    (skynetHandleRetire handleOf handle s).2.slot.count (some c) +
      ((skynetHandleRetire handleOf handle s).1.toList).count c = s.slot.count (some c) := by
  obtain ⟨ctx, hr, hslot, -⟩ | ⟨hr, -⟩ := retire_cases handleOf handle s
  · rw [hr]
    exact count_set_none hslot c
  · rw [hr]
    rfl

end Table

structure State.Inv (s : State) : Prop where
  refs : ∀ ctx, (s.ctx ctx).ref = s.holders ctx
  deletes : ∀ ctx < s.next, (s.ctx ctx).deletes = if (s.ctx ctx).ref = 0 then 1 else 0
  fresh : ∀ ctx, s.next ≤ ctx → (s.ctx ctx).ref = 0 ∧ (s.ctx ctx).deletes = 0
  freed : ∀ ctx, tally Frame.deletes s.threads ctx + (if (s.ctx ctx).freed then 1 else 0) =
    (s.ctx ctx).deletes
  returning : ∀ f ∈ s.threads.flatten, ∀ ctx, f.returning = some ctx → (s.ctx ctx).freed = false

theorem State.inv_init (harbor threads : Nat) : (State.init harbor threads).Inv := by
  have hidle : ∀ f ∈ (State.init harbor threads).threads.flatten, f = .idle := by
    intro f hf
    obtain ⟨st, hst, hf⟩ := List.mem_flatten.mp hf
    rw [List.eq_of_mem_replicate hst] at hf
    exact List.mem_singleton.mp hf
  have htally : ∀ (p : Frame → Option Nat) ctx, p .idle = none →
      tally p (State.init harbor threads).threads ctx = 0 := by
    intro p ctx hp
    rw [tally, List.count_eq_zero]
    intro hmem
    obtain ⟨f, hf, hpf⟩ := List.mem_filterMap.mp hmem
    rw [hidle f hf, hp] at hpf
    cases hpf
  refine ⟨fun ctx => ?_, fun ctx h => absurd h ctx.not_lt_zero, fun _ _ => ⟨rfl, rfl⟩,
    fun ctx => ?_, fun f hf ctx hret => ?_⟩
  · rw [State.holders, htally _ _ rfl, show (State.init harbor threads).storage.slot =
      List.replicate DEFAULT_SLOT_SIZE none from rfl, List.count_replicate]
    rfl
  · rw [htally _ _ rfl]
    rfl
  · rw [hidle f hf] at hret
    cases hret

variable {s s' : State}

theorem State.Inv.live (hi : s.Inv) {ctx : Nat} (h : 0 < s.holders ctx) :
    ctx < s.next ∧ 0 < (s.ctx ctx).ref ∧ (s.ctx ctx).deletes = 0 ∧ (s.ctx ctx).freed = false := by
  have href := hi.refs ctx
  have hlt : ctx < s.next := by
    by_contra! hle
    have := (hi.fresh ctx hle).1
    omega
  have hdel : (s.ctx ctx).deletes = 0 := by
    rw [hi.deletes ctx hlt, if_neg (by omega)]
  have hfreed := hi.freed ctx
  refine ⟨hlt, by omega, hdel, ?_⟩
  by_contra hf
  rw [Bool.not_eq_false] at hf
  rw [hf, if_pos rfl] at hfreed
  omega

variable {f : Frame}

theorem State.holders_pos_of_frame (hf : f ∈ s.threads.flatten) {ctx : Nat}
    (h : f.holds = some ctx) : 0 < s.holders ctx := by
  have := tally_pos hf h
  rw [State.holders]
  omega

theorem State.holders_pos_of_slot {i : Nat} {ctx : Nat}
    (h : slotAt s.storage.slot i = some ctx) : 0 < s.holders ctx := by
  have : 0 < s.storage.slot.count (some ctx) :=
    List.count_pos_iff.mpr (mem_iff_slotAt.mpr ⟨i, h⟩)
  rw [State.holders]
  omega

theorem State.Inv.keep (hi : s.Inv) (hnext : s'.next = s.next)
    (hctx : ∀ ctx, (s'.ctx ctx).ref = (s.ctx ctx).ref ∧
      (s'.ctx ctx).deletes = (s.ctx ctx).deletes ∧ (s'.ctx ctx).freed = (s.ctx ctx).freed)
    (hholders : ∀ ctx, s'.holders ctx = s.holders ctx)
    (hdel : ∀ ctx, tally Frame.deletes s'.threads ctx = tally Frame.deletes s.threads ctx)
    (hret : ∀ f ∈ s'.threads.flatten, ∀ ctx, f.returning = some ctx →
      ∃ g ∈ s.threads.flatten, g.returning = some ctx) : s'.Inv where
  refs ctx := by rw [(hctx ctx).1, hholders, hi.refs]
  deletes ctx h := by
    rw [(hctx ctx).1, (hctx ctx).2.1]
    exact hi.deletes ctx (hnext ▸ h)
  fresh ctx h := by
    rw [(hctx ctx).1, (hctx ctx).2.1]
    exact hi.fresh ctx (hnext ▸ h)
  freed ctx := by
    rw [(hctx ctx).2.1, (hctx ctx).2.2, hdel]
    exact hi.freed ctx
  returning f hf ctx h := by
    obtain ⟨g, hg, hgr⟩ := hret f hf ctx h
    rw [(hctx ctx).2.2]
    exact hi.returning g hg ctx hgr

theorem Goes.keeps {fs : List Frame} (h : Goes f fs) :
    fs.filterMap Frame.holds = [f].filterMap Frame.holds ∧
      fs.filterMap Frame.deletes = [f].filterMap Frame.deletes ∧
      ∀ g ∈ fs, ∀ ctx, g.returning = some ctx → f.returning = some ctx := by
  cases h with
  | @call f g hf hg =>
    cases g <;> first | exact hg.elim | skip
    all_goals
      refine ⟨rfl, rfl, fun g hmem ctx hret => ?_⟩
      obtain rfl | rfl : g = _ ∨ g = f := by simpa using hmem
      · cases hret
      · exact hret
  | @globalmqPush ret =>
    cases ret with
    | none => exact ⟨rfl, rfl, fun _ h => absurd h List.not_mem_nil⟩
    | some ctx =>
      refine ⟨rfl, rfl, fun g hmem c hret => ?_⟩
      rw [List.mem_singleton.mp hmem] at hret
      exact hret
  | _ => exact ⟨rfl, rfl, by simp [Frame.returning]⟩

/-! ### Steps -/

@[simp] theorem State.setCtx_self (s : State) (ctx : Nat) (c : Context) :
    (s.setCtx ctx c).ctx ctx = c :=
  Function.update_self ..

theorem State.setCtx_of_ne {ctx x : Nat} (h : x ≠ ctx) (c : Context) :
    (s.setCtx ctx c).ctx x = s.ctx x :=
  Function.update_of_ne h ..

theorem State.Inv.follow (hi : s.Inv) {fs : List Frame}
    (ht : Replaces s.threads f fs s'.threads) (hnext : s'.next = s.next)
    (hctx : ∀ ctx, (s'.ctx ctx).ref = (s.ctx ctx).ref ∧
      (s'.ctx ctx).deletes = (s.ctx ctx).deletes ∧ (s'.ctx ctx).freed = (s.ctx ctx).freed)
    (hrefs : ∀ ctx, s'.storage.slot.count (some ctx) + s'.reserved.count ctx +
        (fs.filterMap Frame.holds).count ctx =
      s.storage.slot.count (some ctx) + s.reserved.count ctx +
        ([f].filterMap Frame.holds).count ctx)
    (hdel : fs.filterMap Frame.deletes = [f].filterMap Frame.deletes)
    (hret : ∀ g ∈ fs, ∀ ctx, g.returning = some ctx → f.returning = some ctx) : s'.Inv := by
  refine hi.keep hnext hctx (fun ctx => ?_) (fun ctx => ?_) fun g hg ctx hgr => ?_
  · have := ht.tally Frame.holds ctx
    have := hrefs ctx
    rw [State.holders, State.holders]
    omega
  · have := ht.tally Frame.deletes ctx
    rw [hdel] at this
    omega
  · obtain hg | hg := ht.of_mem hg
    · exact ⟨f, ht.mem, hret g hg ctx hgr⟩
    · exact ⟨g, hg, hgr⟩

theorem State.setCtx_same {ctx : Nat} {c : Context} (hr : c.ref = (s.ctx ctx).ref)
    (hd : c.deletes = (s.ctx ctx).deletes) (hf : c.freed = (s.ctx ctx).freed) (x : Nat) :
    ((s.setCtx ctx c).ctx x).ref = (s.ctx x).ref ∧
      ((s.setCtx ctx c).ctx x).deletes = (s.ctx x).deletes ∧
      ((s.setCtx ctx c).ctx x).freed = (s.ctx x).freed := by
  by_cases hx : x = ctx
  · subst hx
    rw [State.setCtx_self]
    exact ⟨hr, hd, hf⟩
  · rw [State.setCtx_of_ne hx]
    exact ⟨rfl, rfl, rfl⟩

theorem State.Inv.change (hi : s.Inv) {ctx : Nat} {c : Context} (hlt : ctx < s'.next)
    (hnext : s.next ≤ s'.next) (hle : s'.next ≤ s.next + 1) (hnew : s.next < s'.next → ctx = s.next)
    (hctx : s'.ctx = Function.update s.ctx ctx c)
    (href : c.ref = s'.holders ctx) (hdel : c.deletes = if c.ref = 0 then 1 else 0)
    (hfreed : tally Frame.deletes s'.threads ctx + (if c.freed then 1 else 0) = c.deletes)
    (hholders : ∀ x, x ≠ ctx → s'.holders x = s.holders x)
    (htally : ∀ x, x ≠ ctx → tally Frame.deletes s'.threads x = tally Frame.deletes s.threads x)
    (hret : ∀ f ∈ s'.threads.flatten, ∀ x, f.returning = some x →
      x = ctx ∧ c.freed = false ∨ x ≠ ctx ∧ ∃ g ∈ s.threads.flatten, g.returning = some x) :
    s'.Inv := by
  have hself : s'.ctx ctx = c := by rw [hctx, Function.update_self]
  have hother : ∀ x, x ≠ ctx → s'.ctx x = s.ctx x := fun x hx => by
    rw [hctx, Function.update_of_ne hx]
  refine ⟨fun x => ?_, fun x hx => ?_, fun x hx => ?_, fun x => ?_, fun f hf x hfx => ?_⟩
  · by_cases hxc : x = ctx
    · rw [hxc, hself, href]
    · rw [hother x hxc, hholders x hxc, hi.refs]
  · by_cases hxc : x = ctx
    · rw [hxc, hself, hdel]
    · rw [hother x hxc]
      refine hi.deletes x ?_
      by_contra! hge
      exact hxc ((show x = s.next by omega).trans (hnew (by omega)).symm)
  · rw [hother x (by omega)]
    exact hi.fresh x (by omega)
  · by_cases hxc : x = ctx
    · rw [hxc, hself, hfreed]
    · rw [hother x hxc, htally x hxc, hi.freed]
  · obtain ⟨rfl, hc⟩ | ⟨hxc, g, hg, hgx⟩ := hret f hf x hfx
    · rw [hself, hc]
    · rw [hother x hxc]
      exact hi.returning g hg x hgx

variable {ts : List (List Frame)}

theorem State.Inv.new (hi : s.Inv) {handle : Nat} {storage : HandleStorage Nat}
    (h : skynetHandleRegister (s.setCtx s.next ⟨2, 0, false, 0, false⟩).handleOf s.next s.storage =
      .ok (handle, storage))
    (ht : Replaces s.threads .new [.storeHandle s.next handle] ts) :
    State.Inv { s.setCtx s.next ⟨2, 0, false, 0, false⟩ with
      storage := storage, next := s.next + 1, threads := ts } := by
  have hcount := registerLoop_count h
  have hfresh := hi.fresh s.next (Nat.le_refl _)
  have hzero : s.holders s.next = 0 := by
    have := hi.refs s.next
    omega
  have hholds : ∀ x, tally Frame.holds ts x = tally Frame.holds s.threads x + [s.next].count x :=
    ht.tally Frame.holds
  have hdels : ∀ x, tally Frame.deletes ts x = tally Frame.deletes s.threads x :=
    ht.tally Frame.deletes
  refine hi.change (Nat.lt_succ_self _) (Nat.le_succ _) (Nat.le_refl _) (fun _ => rfl) rfl ?_ rfl
    ?_ ?_ (fun x _ => hdels x) ?_
  · have hc := hcount s.next
    have hh := hholds s.next
    rw [List.count_singleton_self] at hc hh
    rw [State.holders] at hzero
    change (2 : Int) = ((storage.slot.count (some s.next) + s.reserved.count s.next +
      tally Frame.holds ts s.next : Nat) : Int)
    omega
  · have hf := hi.freed s.next
    have := hdels s.next
    change tally Frame.deletes ts s.next + 0 = 0
    omega
  · intro x hx
    have hne : [s.next].count x = 0 := List.count_eq_zero.mpr (by simpa using hx)
    have hc := hcount x
    have hh := hholds x
    rw [hne] at hc hh
    change storage.slot.count (some x) + s.reserved.count x + tally Frame.holds ts x = s.holders x
    rw [hc, hh]
    rfl
  · intro f hf x hfx
    obtain hf | hf := ht.of_mem hf
    · rw [List.mem_singleton.mp hf] at hfx
      cases hfx
    · by_cases hx : x = s.next
      · exact .inl ⟨hx, rfl⟩
      · exact .inr ⟨hx, f, hf, hfx⟩

theorem Frame.releases_keeps {ctx : Nat} {alive gone : List Frame}
    (h : f.releases = some (ctx, alive, gone)) :
    f.holds = some ctx ∧ f.deletes = none ∧ alive.filterMap Frame.holds = [] ∧
      alive.filterMap Frame.deletes = [] ∧ gone.filterMap Frame.holds = [] ∧
      gone.filterMap Frame.deletes = [] ∧
      (∀ g ∈ alive, ∀ x, g.returning = some x → x = ctx) ∧
      ∀ g ∈ gone, g.returning = none := by
  cases f <;> cases h <;> simp [Frame.holds, Frame.deletes, Frame.returning]

theorem State.Inv.release (hi : s.Inv) {f : Frame} {ctx : Nat} {alive gone : List Frame}
    {ts : List (List Frame)} (h : f.releases = some (ctx, alive, gone))
    (ht : Replaces s.threads f (if (s.ctx ctx).ref = 1 then .closeLogfile ctx :: gone else alive)
      ts) : State.Inv { s.setCtx ctx (s.ctx ctx).release with threads := ts } := by
  obtain ⟨hholds, hdeletes, ha, had, hg, hgd, har, hgr⟩ := Frame.releases_keeps h
  obtain ⟨hlt, hpos, hdel, hfreed⟩ := hi.live (State.holders_pos_of_frame ht.mem hholds)
  have href := hi.refs ctx
  have hf1 : ∀ x, ([f].filterMap Frame.holds).count x = [ctx].count x := by
    intro x
    rw [List.filterMap_cons_some hholds, List.filterMap_nil]
  have hf2 : [f].filterMap Frame.deletes = [] := by
    rw [List.filterMap_cons_none hdeletes, List.filterMap_nil]
  have htally := ht.tally Frame.holds
  have htally' := ht.tally Frame.deletes
  simp only [hf1] at htally
  simp only [hf2, List.count_nil, Nat.add_zero] at htally'
  have hnone : ∀ x, tally Frame.holds ts x + [ctx].count x = tally Frame.holds s.threads x := by
    intro x
    rw [htally]
    split
    · rw [List.filterMap_cons_none rfl, hg, List.count_nil, Nat.add_zero]
    · rw [ha, List.count_nil, Nat.add_zero]
  have hother : ∀ x, x ≠ ctx → [ctx].count x = 0 := fun x hx =>
    List.count_eq_zero.mpr (by simpa using hx)
  have hclose : (Frame.closeLogfile ctx :: gone).filterMap Frame.deletes =
      ctx :: gone.filterMap Frame.deletes := List.filterMap_cons_some rfl
  refine hi.change hlt (Nat.le_refl _) (Nat.le_succ _) (fun h => absurd h (Nat.lt_irrefl _)) rfl
    ?_ ?_ ?_ ?_ ?_ ?_
  · have := hnone ctx
    rw [List.count_singleton_self] at this
    change (s.ctx ctx).ref - 1 = ((s.storage.slot.count (some ctx) + s.reserved.count ctx +
      tally Frame.holds ts ctx : Nat) : Int)
    rw [State.holders] at href
    omega
  · change (if (s.ctx ctx).ref = 1 then (s.ctx ctx).deletes + 1 else (s.ctx ctx).deletes) =
      if (s.ctx ctx).ref - 1 = 0 then 1 else 0
    rw [hdel]
    simp only [sub_eq_zero]
  · have hzero := hi.freed ctx
    rw [hdel, hfreed] at hzero
    change tally Frame.deletes ts ctx + (if (s.ctx ctx).freed then 1 else 0) =
      if (s.ctx ctx).ref = 1 then (s.ctx ctx).deletes + 1 else (s.ctx ctx).deletes
    rw [htally', hfreed, hdel]
    split
    · rw [hclose, hgd, List.count_singleton_self]
      omega
    · rw [had, List.count_nil]
      omega
  · intro x hx
    have := hnone x
    rw [hother x hx, Nat.add_zero] at this
    change s.storage.slot.count (some x) + s.reserved.count x + tally Frame.holds ts x = s.holders x
    rw [this]
    rfl
  · intro x hx
    change tally Frame.deletes ts x = _
    rw [htally']
    split
    · rw [hclose, hgd, hother x hx, Nat.add_zero]
    · rw [had, List.count_nil, Nat.add_zero]
  · intro g hg' x hgx
    obtain hg' | hg' := ht.of_mem hg'
    · split at hg'
      · obtain rfl | hg' := List.mem_cons.mp hg'
        · cases hgx
        · rw [hgr g hg'] at hgx
          cases hgx
      · exact .inl ⟨har g hg' x hgx, hfreed⟩
    · by_cases hx : x = ctx
      · exact .inl ⟨hx, hfreed⟩
      · exact .inr ⟨hx, g, hg', hgx⟩

theorem State.Inv.grab (hi : s.Inv) {ctx : Nat} (hpos : 0 < s.holders ctx)
    (hnext : s'.next = s.next) (hctx : s'.ctx = Function.update s.ctx ctx (s.ctx ctx).grab)
    (hholders : ∀ x, s'.holders x = s.holders x + [ctx].count x)
    (htally : ∀ x, tally Frame.deletes s'.threads x = tally Frame.deletes s.threads x)
    (hret : ∀ f ∈ s'.threads.flatten, ∀ x, f.returning = some x →
      ∃ g ∈ s.threads.flatten, g.returning = some x) : s'.Inv := by
  obtain ⟨hlt, href, hdel, hfreed⟩ := hi.live hpos
  have hself := hholders ctx
  rw [List.count_singleton_self] at hself
  refine hi.change (hnext ▸ hlt) hnext.ge (by omega) (fun h => absurd h (by omega)) hctx ?_ ?_ ?_
    ?_ (fun x _ => htally x) ?_
  · have := hi.refs ctx
    change (s.ctx ctx).ref + 1 = _
    omega
  · change (s.ctx ctx).deletes = if (s.ctx ctx).ref + 1 = 0 then 1 else 0
    rw [if_neg (by omega), hdel]
  · rw [htally]
    exact hi.freed ctx
  · intro x hx
    rw [hholders, List.count_eq_zero.mpr (by simpa using hx), Nat.add_zero]
  · intro f hf x hfx
    obtain ⟨g, hg, hgx⟩ := hret f hf x hfx
    by_cases hx : x = ctx
    · exact .inl ⟨hx, hfreed⟩
    · exact .inr ⟨hx, g, hg, hgx⟩

theorem Frame.grabs_keeps {handle : Nat} {after : Option Nat → List Frame}
    (h : f.grabs = some (handle, after)) (ctx : Option Nat) :
    f.holds = none ∧ f.deletes = none ∧ (after ctx).filterMap Frame.holds = ctx.toList ∧
      (after ctx).filterMap Frame.deletes = [] ∧ ∀ g ∈ after ctx, g.returning = none := by
  cases f <;> cases h <;> cases ctx <;> simp [Frame.holds, Frame.deletes, Frame.returning]

theorem State.Inv.lookup (hi : s.Inv) {handle : Nat} {after : Option Nat → List Frame}
    (h : f.grabs = some (handle, after))
    (ht : Replaces s.threads f (after (skynetHandleGrab s.handleOf handle s.storage)) ts) :
    State.Inv { s.grabbed (skynetHandleGrab s.handleOf handle s.storage) with threads := ts } := by
  obtain ⟨hf, hfd, hholds, hdel, hret⟩ :=
    Frame.grabs_keeps h (skynetHandleGrab s.handleOf handle s.storage)
  have hf1 : [f].filterMap Frame.holds = [] := by
    rw [List.filterMap_cons_none hf, List.filterMap_nil]
  have hf2 : [f].filterMap Frame.deletes = [] := by
    rw [List.filterMap_cons_none hfd, List.filterMap_nil]
  have htally := ht.tally Frame.holds
  have htally' := ht.tally Frame.deletes
  simp only [hholds, hf1, List.count_nil, Nat.add_zero] at htally
  simp only [hdel, hf2, List.count_nil, Nat.add_zero] at htally'
  cases hgrab : skynetHandleGrab s.handleOf handle s.storage with
  | none =>
    rw [hgrab] at ht hholds hdel hret
    refine hi.follow ht rfl (fun _ => ⟨rfl, rfl, rfl⟩) (fun x => ?_) ?_ ?_
    · rw [hholds, hf1]
      rfl
    · rw [hdel, hf2]
    · intro g hg x hgx
      rw [hret g hg] at hgx
      cases hgx
  | some ctx =>
    rw [hgrab] at ht htally hret
    have hslot := (grab_eq_some.mp hgrab).1
    refine hi.grab (State.holders_pos_of_slot hslot) rfl rfl (fun x => ?_) htally' ?_
    · change s.storage.slot.count (some x) + s.reserved.count x + tally Frame.holds ts x = _
      rw [htally, ← Nat.add_assoc]
      rfl
    · intro g hg x hgx
      obtain hg | hg := ht.of_mem hg
      · rw [hret g hg] at hgx
        cases hgx
      · exact ⟨g, hg, hgx⟩

theorem State.Inv.retire (hi : s.Inv) {handle : Nat} {ts : List (List Frame)}
    (ht : Replaces s.threads (.retire handle)
      ((skynetHandleRetire s.handleOf handle s.storage).1.map .release).toList ts) :
    State.Inv { s with
      storage := (skynetHandleRetire s.handleOf handle s.storage).2, threads := ts } := by
  have hcount := retire_count s.handleOf handle s.storage
  refine hi.follow ht rfl (fun _ => ⟨rfl, rfl, rfl⟩) (fun x => ?_) ?_ ?_
  · have hx := hcount x
    change (skynetHandleRetire s.handleOf handle s.storage).2.slot.count (some x) +
      s.reserved.count x + _ = _
    cases hr : (skynetHandleRetire s.handleOf handle s.storage).1 with
    | none =>
      rw [hr] at hx
      change _ + s.reserved.count x + 0 = _ + s.reserved.count x + 0
      rw [← hx]
      rfl
    | some ctx =>
      rw [hr] at hx
      change _ + s.reserved.count x + [ctx].count x = _ + s.reserved.count x + 0
      rw [← hx, Option.toList_some]
      omega
  · cases (skynetHandleRetire s.handleOf handle s.storage).1 <;> rfl
  · cases (skynetHandleRetire s.handleOf handle s.storage).1 <;> simp [Frame.returning]

theorem State.Inv.free (hi : s.Inv) {ctx : Nat}
    (hclear : Clear s (.free ctx)) (ht : Replaces s.threads (.free ctx) [] ts) :
    State.Inv { s.setCtx ctx { s.ctx ctx with freed := true } with threads := ts } := by
  have htally := ht.tally Frame.deletes
  have hfreed := hi.freed ctx
  have hpos : 0 < tally Frame.deletes s.threads ctx := tally_pos ht.mem rfl
  have hlt : ctx < s.next := by
    by_contra! hle
    have := (hi.fresh ctx hle).2
    omega
  have hdel := hi.deletes ctx hlt
  have hone : tally Frame.deletes ts ctx + 1 = tally Frame.deletes s.threads ctx := by
    have := htally ctx
    rw [show [Frame.free ctx].filterMap Frame.deletes = [ctx] from rfl,
      List.count_singleton_self] at this
    simpa using this
  refine hi.change hlt (Nat.le_refl _) (Nat.le_succ _) (fun h => absurd h (Nat.lt_irrefl _)) rfl
    ?_ hdel ?_ ?_ ?_ ?_
  · have hh := ht.tally Frame.holds ctx
    change (s.ctx ctx).ref = ((s.storage.slot.count (some ctx) + s.reserved.count ctx +
      tally Frame.holds ts ctx : Nat) : Int)
    rw [show tally Frame.holds ts ctx = tally Frame.holds s.threads ctx from hh]
    exact hi.refs ctx
  · change tally Frame.deletes ts ctx + 1 = (s.ctx ctx).deletes
    split at hdel <;> split at hfreed <;> omega
  · intro x _
    have hh := ht.tally Frame.holds x
    change s.storage.slot.count (some x) + s.reserved.count x + tally Frame.holds ts x = _
    rw [show tally Frame.holds ts x = tally Frame.holds s.threads x from hh]
    rfl
  · intro x hx
    have hh := htally x
    rw [show [Frame.free ctx].filterMap Frame.deletes = [ctx] from rfl,
      List.count_eq_zero.mpr (show x ∉ [ctx] by simpa using hx)] at hh
    exact hh
  · intro g hg x hgx
    obtain hg' | hg' := ht.of_mem hg
    · exact absurd hg' List.not_mem_nil
    · refine .inr ⟨?_, g, hg', hgx⟩
      rintro rfl
      exact hclear x rfl g hg' hgx

theorem State.inv_step (hi : s.Inv) (h : Guarded Clear Step s f s') : s'.Inv := by
  obtain ⟨hclear, h⟩ := h
  cases h with
  | goes h ht =>
    obtain ⟨hholds, hdel, hret⟩ := h.keeps
    exact hi.follow ht rfl (fun _ => ⟨rfl, rfl, rfl⟩) (fun x => by rw [hholds]) hdel hret
  | new h ht => exact hi.new h ht
  | storeHandle ht | setInit ht =>
    exact hi.follow ht rfl (State.setCtx_same rfl rfl rfl) (fun _ => rfl) rfl
      (by simp [Frame.returning])
  | readHandle ht =>
    exact hi.follow ht rfl (fun _ => ⟨rfl, rfl, rfl⟩) (fun _ => rfl) rfl (by simp [Frame.returning])
  | release h ht => exact hi.release h ht
  | free ht => exact hi.free hclear ht
  | retire ht => exact hi.retire ht
  | @retireSlot i ts ht =>
    have hfs : s.retireSlot i = [] ∨ ∃ handle, s.retireSlot i = [.retire handle] := by
      unfold State.retireSlot
      split
      · split
        · exact .inr ⟨_, rfl⟩
        · exact .inl rfl
      · exact .inl rfl
    obtain hfs | ⟨handle, hfs⟩ := hfs
    · rw [hfs] at ht
      exact hi.follow ht rfl (fun _ => ⟨rfl, rfl, rfl⟩) (fun _ => rfl) rfl (by simp)
    · rw [hfs] at ht
      exact hi.follow ht rfl (fun _ => ⟨rfl, rfl, rfl⟩) (fun _ => rfl) rfl
        (by simp [Frame.returning])
  | grab h ht => exact hi.lookup h ht
  | reserve h ht =>
    rename_i ctx
    have hholds : f.holds = some ctx := by cases f <;> cases h <;> rfl
    refine hi.grab (State.holders_pos_of_frame ht.mem hholds) rfl rfl (fun x => ?_) (fun _ => rfl)
      fun g hg x hgx => ⟨g, hg, hgx⟩
    change s.storage.slot.count (some x) + (ctx :: s.reserved).count x +
      tally Frame.holds s.threads x = _
    rw [List.count_cons, State.holders, List.count_singleton]
    omega
  | @unreserve ctx ts h ht =>
    refine hi.follow ht rfl (fun _ => ⟨rfl, rfl, rfl⟩) (fun x => ?_) rfl (by simp [Frame.returning])
    have hperm := (List.perm_cons_erase h).count_eq x
    rw [List.count_cons, ← List.count_singleton] at hperm
    change s.storage.slot.count (some x) + (s.reserved.erase ctx).count x + [ctx].count x =
      s.storage.slot.count (some x) + s.reserved.count x + 0
    omega

theorem State.Inv.sound (hi : s.Inv) : s.Sound where
  refs ctx _ := hi.refs ctx
  deletes := hi.deletes
  used := by
    intro f st hst ctx huse
    have hf : f ∈ s.threads.flatten := List.mem_flatten.mpr ⟨_, hst, List.mem_cons_self⟩
    have hdel : f.deletes = some ctx → (s.ctx ctx).freed = false := by
      intro h
      have hpos := tally_pos hf h
      have hfreed := hi.freed ctx
      have hle : (s.ctx ctx).deletes ≤ 1 := by
        by_cases hlt : ctx < s.next
        · rw [hi.deletes ctx hlt]
          split <;> omega
        · rw [(hi.fresh ctx (by omega)).2]
          omega
      by_contra hne
      rw [Bool.not_eq_false] at hne
      rw [hne, if_pos rfl] at hfreed
      omega
    have hfield : f.holds = some ctx ∨ f.deletes = some ctx ∨ f.returning = some ctx →
        (s.ctx ctx).freed = false := by
      rintro (h | h | h)
      · exact (hi.live (State.holders_pos_of_frame hf h)).2.2.2
      · exact hdel h
      · exact hi.returning f hf ctx h
    have hslot : ∀ {i}, slotAt s.storage.slot i = some ctx → (s.ctx ctx).freed = false :=
      fun h => (hi.live (State.holders_pos_of_slot h)).2.2.2
    cases f with
    | new =>
      obtain ⟨i, h⟩ := mem_iff_slotAt.mp huse
      exact hslot h
    | retire handle | push handle | dispatch handle | retireSlot i => exact hslot huse
    | globalmqPush ret | mqPop c => exact huse.elim
    | _ => exact hfield huse

/-- In every run in which no context is freed while `skynet_context_new` is still going to use it,
`ref` counts the holders, contexts are deleted once, without holders, and no step uses a context
that was freed. -/
theorem context_outlives {harbor threads : Nat} {fs : List Frame}
    (h : Run (Guarded Clear Step) (State.init harbor threads) fs s) : s.Sound :=
  (h.invariant (State.inv_init harbor threads) fun _ _ _ hi hs => State.inv_step hi hs).sound

/-- A service is created, and retired while a worker dispatches its messages: the worker, which
holds the last reference, frees it. -/
def retired : List Frame :=
  [.idle, .new, .storeHandle 0 1, .createQueue 0, .instanceInit 0, .releaseNew 0, .setInit 0,
    .globalmqPush (some 0), .launch 0, .idle, .dispatch 1, .idle, .retire 1, .release 0, .mqPop 0,
    .release 0, .closeLogfile 0, .instanceRelease 0, .markRelease 0, .free 0]

theorem run_retired : ∃ s, Run (Guarded Clear Step) (State.init 0 2) retired s ∧
    s.threads = [[.idle], [.idle]] ∧ s.ctx 0 = ⟨0, 1, true, 1, true⟩ := by
  have hclear : ∀ {s : State} {f : Frame}, (∀ ctx, f ≠ .free ctx) → Clear s f :=
    fun h ctx heq => absurd heq (h ctx)
  refine ⟨_, Run.cons ⟨hclear (by simp), .goes (.call trivial (g := .new) trivial)
      ⟨[], [], _, rfl, rfl⟩⟩
    (Run.cons ⟨hclear (by simp), .new rfl ⟨[], [.idle], _, rfl, rfl⟩⟩
    (Run.cons ⟨hclear (by simp), .storeHandle ⟨[], [.idle], _, rfl, rfl⟩⟩
    (Run.cons ⟨hclear (by simp), .goes .createQueue ⟨[], [.idle], _, rfl, rfl⟩⟩
    (Run.cons ⟨hclear (by simp), .goes .initOk ⟨[], [.idle], _, rfl, rfl⟩⟩
    (Run.cons ⟨hclear (by simp), .release rfl ⟨[], [.idle], _, rfl, rfl⟩⟩
    (Run.cons ⟨hclear (by simp), .setInit ⟨[], [.idle], _, rfl, rfl⟩⟩
    (Run.cons ⟨hclear (by simp), .goes .globalmqPush ⟨[], [.idle], _, rfl, rfl⟩⟩
    (Run.cons ⟨hclear (by simp), .goes .launch ⟨[], [.idle], _, rfl, rfl⟩⟩
    (Run.cons ⟨hclear (by simp), .goes (@Goes.worker 1) ⟨[[.idle]], [], [], rfl, rfl⟩⟩
    (Run.cons ⟨hclear (by simp), .grab rfl ⟨[[.idle]], [.idle], [], rfl, rfl⟩⟩
    (Run.cons ⟨hclear (by simp), .goes (.call trivial (g := .retire 1) trivial)
      ⟨[], [], _, rfl, rfl⟩⟩
    (Run.cons ⟨hclear (by simp), .retire ⟨[], [.idle], _, rfl, rfl⟩⟩
    (Run.cons ⟨hclear (by simp), .release rfl ⟨[], [.idle], _, rfl, rfl⟩⟩
    (Run.cons ⟨hclear (by simp), .goes .mqPopEmpty ⟨[[.idle]], [.idle], [], rfl, rfl⟩⟩
    (Run.cons ⟨hclear (by simp), .release rfl ⟨[[.idle]], [.idle], [], rfl, rfl⟩⟩
    (Run.cons ⟨hclear (by simp), .goes .closeLogfile ⟨[[.idle]], [.idle], [], rfl, rfl⟩⟩
    (Run.cons ⟨hclear (by simp), .goes .instanceRelease ⟨[[.idle]], [.idle], [], rfl, rfl⟩⟩
    (Run.cons ⟨hclear (by simp), .goes .markRelease ⟨[[.idle]], [.idle], [], rfl, rfl⟩⟩
    (Run.single ⟨?_, .free ⟨[[.idle]], [.idle], [], rfl, rfl⟩⟩))))))))))))))))))), rfl, rfl⟩
  rintro ctx - g hg
  have hall : ∀ g ∈ [Frame.idle, .free 0, .idle], g.returning = none := by decide
  rw [hall g hg]
  exact nofun

theorem context_outlives_retired : ∃ s, Run (Guarded Clear Step) (State.init 0 2) retired s ∧
    (s.ctx 0).freed = true ∧ s.Sound := by
  obtain ⟨s, hrun, -, hctx⟩ := run_retired
  exact ⟨s, hrun, by rw [hctx], context_outlives hrun⟩

/-- Another thread retires the service after its creator has released it, and the creator then sets
`init` in the freed context. -/
theorem used_after_free : ∃ s, Run Step (State.init 0 2)
    [.idle, .new, .storeHandle 0 1, .createQueue 0, .instanceInit 0, .releaseNew 0, .idle,
      .retire 1, .release 0, .closeLogfile 0, .instanceRelease 0, .markRelease 0, .free 0] s ∧
      s.threads = [[.setInit 0, .idle], [.idle]] ∧ (s.ctx 0).freed = true ∧ ¬ s.Sound := by
  refine ⟨_, Run.cons (.goes (.call trivial (g := .new) trivial) ⟨[], [], _, rfl, rfl⟩)
    (Run.cons (.new rfl ⟨[], [.idle], _, rfl, rfl⟩)
    (Run.cons (.storeHandle ⟨[], [.idle], _, rfl, rfl⟩)
    (Run.cons (.goes .createQueue ⟨[], [.idle], _, rfl, rfl⟩)
    (Run.cons (.goes .initOk ⟨[], [.idle], _, rfl, rfl⟩)
    (Run.cons (.release rfl ⟨[], [.idle], _, rfl, rfl⟩)
    (Run.cons (.goes (.call trivial (g := .retire 1) trivial)
      ⟨[[.setInit 0, .idle]], [], [], rfl, rfl⟩)
    (Run.cons (.retire ⟨[[.setInit 0, .idle]], [.idle], [], rfl, rfl⟩)
    (Run.cons (.release rfl ⟨[[.setInit 0, .idle]], [.idle], [], rfl, rfl⟩)
    (Run.cons (.goes .closeLogfile ⟨[[.setInit 0, .idle]], [.idle], [], rfl, rfl⟩)
    (Run.cons (.goes .instanceRelease ⟨[[.setInit 0, .idle]], [.idle], [], rfl, rfl⟩)
    (Run.cons (.goes .markRelease ⟨[[.setInit 0, .idle]], [.idle], [], rfl, rfl⟩)
    (Run.single (.free ⟨[[.setInit 0, .idle]], [.idle], [], rfl, rfl⟩))))))))))))), rfl, rfl, ?_⟩
  intro h
  have := h.used (.setInit 0) [.idle] (by decide) 0 (.inr (.inr rfl))
  cases this

end XsServer.SkynetServer
