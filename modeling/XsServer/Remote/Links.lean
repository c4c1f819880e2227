import XsServer.Remote.World

/-! The connections of the harbor service: what waits in the queues, and what was written. -/

namespace XsServer.Remote

open Lib

variable {alive : UInt32 → Bool} {h h' : Harbor} {id : UInt8} {fd : Int32} {es : List Effect}
  {w w' : World} {e : Event} {l : Letter}

def Packet.harborMsg (p : Packet) : HarborMsg := ⟨p.cookie, p.msg⟩

/-- A connection at its stages: the packets for the harbor wait in its queue or have been
written. -/
inductive Slot (own : UInt8) (es : List Effect) (out : List Packet) : Slave → Prop
  | wait {queue : Option Queue} : queue.getD [] = out.map Packet.harborMsg →
      Slot own es out ⟨0, queue, .wait⟩
  | handshake {fd : Int32} {queue : Option Queue} : fd ≠ 0 →
      queue.getD [] = out.map Packet.harborMsg → writes fd es = [[own]] →
      Slot own es out ⟨fd, queue, .handshake⟩
  | up {fd : Int32} {status : Status} : fd ≠ 0 → status.Up →
      writes fd es = [own] :: out.map Packet.bytes → Slot own es out ⟨fd, none, status⟩

/-- The connections of a harbor that has had these effects, with the packets for the others. -/
structure Links (h : Harbor) (es : List Effect) (out : UInt8 → List Packet) : Prop where
  slots : ∀ id ≠ h.id, Slot h.id es (out id) (h.s id)
  own : h.s h.id = ⟨0, none, .wait⟩
  distinct : ∀ i j, (h.s i).fd ≠ 0 → (h.s i).fd = (h.s j).fd → i = j
  unwritten : ∀ fd, fd = 0 ∨ (∀ j, (h.s j).fd ≠ fd) → writes fd es = []
  small : ∀ id ≠ h.id, AllWritten (out id)

variable {out out' : UInt8 → List Packet} {es' : List Effect} {s s' : Slave}

theorem Slot.congr {own : UInt8} {ps : List Packet} (h : Slot own es ps s)
    (hes : s.fd ≠ 0 → writes s.fd es' = writes s.fd es) : Slot own es' ps s := by
  cases h with
  | wait hqueue => exact .wait hqueue
  | handshake hfd hqueue hw => exact .handshake hfd hqueue ((hes hfd).trans hw)
  | up hfd hup hw => exact .up hfd hup ((hes hfd).trans hw)

theorem Links.quiet (hl : Links h es out) (hquiet : ∀ fd, writes fd es' = [])
    (hout : ∀ id ≠ h.id, out' id = out id) : Links h (es ++ es') out' := by
  have hsame : ∀ fd, writes fd (es ++ es') = writes fd es := fun fd => by
    rw [writes_append, hquiet, List.append_nil]
  refine ⟨fun id hid => ?_, hl.own, hl.distinct, fun fd hfd => ?_, fun id hid => ?_⟩
  · rw [hout id hid]
    exact (hl.slots id hid).congr fun _ => hsame _
  · rw [hsame]
    exact hl.unwritten fd hfd
  · rw [hout id hid]
    exact hl.small id hid

theorem Links.change (hl : Links h es out) (hid : id ≠ h.id)
    (hfd : s'.fd = (h.s id).fd ∨ (h.s id).fd = 0 ∧ ∀ j, (h.s j).fd ≠ s'.fd)
    (hquiet : ∀ fd, fd = 0 ∨ fd ≠ s'.fd → writes fd es' = [])
    (hslot : Slot h.id (es ++ es') (out' id) s') (hsmall : AllWritten (out' id))
    (hout : ∀ j ≠ h.id, j ≠ id → out' j = out j) :
    Links (setSlave h id s') (es ++ es') out' := by
  have hself : (setSlave h id s').s id = s' := Function.update_self ..
  have hothers : ∀ j ≠ id, (setSlave h id s').s j = h.s j :=
    fun j hj => Function.update_of_ne hj _ _
  have hunlike : ∀ j ≠ id, (h.s j).fd ≠ 0 → (h.s j).fd ≠ s'.fd := by
    intro j hj hzero heq
    rcases hfd with hfd | ⟨-, hfresh⟩
    · exact hj (hl.distinct j id hzero (heq.trans hfd))
    · exact hfresh j heq
  refine ⟨fun j hj => ?_, ?_, fun i j hi hij => ?_, fun fd hfd' => ?_, fun j hj => ?_⟩
  · by_cases hj' : j = id
    · rw [hj', hself]
      exact hslot
    · rw [hothers j hj', hout j hj hj']
      refine (hl.slots j hj).congr fun hzero => ?_
      rw [writes_append, hquiet _ (Or.inr (hunlike j hj' hzero)), List.append_nil]
  · exact (hothers _ (Ne.symm hid)).trans hl.own
  · by_cases hi' : i = id <;> by_cases hj' : j = id
    · rw [hi', hj']
    · rw [hi', hself] at hi hij
      rw [hothers j hj'] at hij
      exact absurd hij.symm (hunlike j hj' (hij ▸ hi))
    · rw [hothers i hi'] at hi hij
      rw [hj', hself] at hij
      exact absurd hij (hunlike i hi' hi)
    · rw [hothers i hi'] at hi hij
      rw [hothers j hj'] at hij
      exact hl.distinct i j hi hij
  · have hs' : fd = 0 ∨ fd ≠ s'.fd := hfd'.imp_right fun hall heq => hall id (by rw [hself, heq])
    rw [writes_append, hquiet fd hs', List.append_nil]
    apply hl.unwritten
    rcases hfd' with hzero | hall
    · exact Or.inl hzero
    · refine (Classical.em (fd = 0)).imp_right fun hzero j heq => ?_
      by_cases hj : j = id
      · rw [hj] at heq
        rcases hfd with hfd | ⟨hnone, -⟩
        · exact hall id (by rw [hself, hfd, heq])
        · exact hzero (heq.symm.trans hnone)
      · exact hall j (by rw [hothers j hj, heq])
  · by_cases hj' : j = id
    · rw [hj']
      exact hsmall
    · rw [hout j hj hj']
      exact hl.small j hj

/-! ### Letters with a handle -/

def Letter.Small (l : Letter) : Prop := l.msg.length + HEADER_COOKIE_LENGTH ≤ UINT32_MAX

def Letter.effect (handle : UInt32) (l : Letter) : Effect :=
  .send l.source handle l.type l.session l.msg

def addPackets (out : UInt8 → List Packet) (handle : UInt32) (ls : List Letter) :
    UInt8 → List Packet :=
  Function.update out (harborOf handle) (out (harborOf handle) ++ ls.map (Letter.packet handle))

/-- The letters for a handle have been sent, written or queued. -/
structure Posts (h : Harbor) (es : List Effect) (out : UInt8 → List Packet) (handle : UInt32)
    (ls : List Letter) (h' : Harbor) (es' : List Effect) : Prop where
  map : h'.map = h.map
  id : h'.id = h.id
  slave : h'.slave = h.slave
  links : Links h' (es ++ es') (addPackets out handle ls)
  letters : es'.filter Effect.isLetter =
    if harborOf handle = h.id then ls.map (Letter.effect handle) else []

variable {handle : UInt32} {ls : List Letter} {p : Packet} {ps : List Packet}

theorem sendRemote_packet (hp : p.msg.length + HEADER_COOKIE_LENGTH ≤ UINT32_MAX) (fd : Int32) :
    sendRemote fd p.msg p.cookie = [.write fd p.bytes] := by
  have hlen : p.body.length = p.msg.length + HEADER_COOKIE_LENGTH := by
    rw [Packet.body, List.length_append, headerToMessage_length]
  rw [sendRemote, if_neg (Nat.not_lt.mpr hp), Packet.bytes, hlen, Packet.body, List.append_assoc]

theorem sendRemote_packets (hps : AllWritten ps) (fd : Int32) :
    (ps.flatMap fun p => sendRemote fd p.msg p.cookie) = ps.map fun p => .write fd p.bytes := by
  induction ps with
  | nil => rfl
  | cons p ps ih =>
    obtain ⟨hp, hps⟩ := List.forall_mem_cons.mp hps
    rw [List.flatMap_cons, List.map_cons, sendRemote_packet hp, ih hps]
    rfl

theorem writes_map (fd fd' : Int32) (ps : List Packet) :
    writes fd (ps.map fun p => .write fd' p.bytes) =
      if fd' = fd then ps.map Packet.bytes else [] := by
  by_cases h : fd' = fd <;> simp [writes, List.filterMap_map, h]

theorem filter_map_write (fd : Int32) (ps : List Packet) :
    (ps.map fun p => Effect.write fd p.bytes).filter Effect.isLetter = [] := by
  refine List.filter_eq_nil_iff.mpr fun e he => ?_
  obtain ⟨p, -, rfl⟩ := List.mem_map.mp he
  exact Bool.false_ne_true

theorem posts_own (hl : Links h es out) (hown : harborOf handle = h.id)
    (hsource : ∀ l ∈ ls, l.source ≠ 0) :
    Posts h es out handle ls h (ls.map (Letter.effect handle)) := by
  refine ⟨rfl, rfl, rfl, ?_, ?_⟩
  · apply hl.quiet
    · intro fd
      refine List.filterMap_eq_nil_iff.mpr fun e he => ?_
      obtain ⟨l, -, rfl⟩ := List.mem_map.mp he
      rfl
    · intro id hid
      exact Function.update_of_ne (hown ▸ hid) _ _
  · rw [if_pos hown]
    refine List.filter_eq_self.mpr fun e he => ?_
    obtain ⟨l, hl, rfl⟩ := List.mem_map.mp he
    exact decide_eq_true (hsource l hl)

theorem allWritten_add (hw : AllWritten ps) (hls : ∀ l ∈ ls, l.Small) (handle : UInt32) :
    AllWritten (ps ++ ls.map (Letter.packet handle)) := by
  intro p hp
  rcases List.mem_append.mp hp with hp | hp
  · exact hw p hp
  · obtain ⟨l, hl, rfl⟩ := List.mem_map.mp hp
    exact hls l hl

theorem posts_up (hl : Links h es out) (hown : harborOf handle ≠ h.id) (hls : ∀ l ∈ ls, l.Small)
    (hup : (h.s (harborOf handle)).status.Up) :
    Posts h es out handle ls h
      ((ls.map (Letter.packet handle)).map fun p => .write (h.s (harborOf handle)).fd p.bytes) := by
  have hslot := hl.slots _ hown
  generalize hs : h.s (harborOf handle) = s at hslot hup
  cases hslot with
  | wait | handshake => cases hup
  | @up fd status hfd _ hw =>
    refine ⟨rfl, rfl, rfl, ?_, by rw [if_neg hown]; exact filter_map_write _ _⟩
    have hchange := @Links.change h (harborOf handle) es out (addPackets out handle ls)
      ((ls.map (Letter.packet handle)).map fun p => .write fd p.bytes) ⟨fd, none, status⟩ hl hown
      (Or.inl (by rw [hs])) (fun fd' hne => ?_) ?_ ?_ (fun j _ hj => Function.update_of_ne hj _ _)
    · have hsame : setSlave h (harborOf handle) ⟨fd, none, status⟩ = h := by
        rw [← hs, setSlave, Function.update_eq_self]
      rwa [hsame] at hchange
    · rw [writes_map, if_neg]
      rintro rfl
      rcases hne with hne | hne
      · exact hfd hne
      · exact hne rfl
    · rw [addPackets, Function.update_self]
      refine .up hfd hup ?_
      rw [writes_append, hw, writes_map, if_pos rfl, List.map_append, List.cons_append]
    · rw [addPackets, Function.update_self]
      exact allWritten_add (hl.small _ hown) hls handle

theorem posts_queue (hl : Links h es out) (hown : harborOf handle ≠ h.id)
    (hls : ∀ l ∈ ls, l.Small)
    (hwaits : (h.s (harborOf handle)).fd = 0 ∨ (h.s (harborOf handle)).status = .handshake) :
    Posts h es out handle ls
      (setSlave h (harborOf handle) { h.s (harborOf handle) with
        queue := some ((h.s (harborOf handle)).queue.getD [] ++
          ls.map fun l => (l.packet handle).harborMsg) }) [] := by
  have hslot := hl.slots _ hown
  refine ⟨rfl, rfl, rfl, ?_, by rw [if_neg hown]; rfl⟩
  refine hl.change hown (Or.inl rfl) (fun _ _ => rfl) ?_ ?_ fun j _ hj =>
    Function.update_of_ne hj _ _
  · rw [List.append_nil, addPackets, Function.update_self]
    generalize h.s (harborOf handle) = s at hslot hwaits
    have hadd : ∀ {queue : Option Queue} {ps : List Packet},
        queue.getD [] = ps.map Packet.harborMsg →
        (some (queue.getD [] ++ ls.map fun l => (l.packet handle).harborMsg)).getD [] =
          (ps ++ ls.map (Letter.packet handle)).map Packet.harborMsg := by
      intro queue ps hqueue
      rw [Option.getD_some, hqueue, List.map_append, List.map_map]
      rfl
    cases hslot with
    | wait hqueue => exact .wait (hadd hqueue)
    | handshake hfd hqueue hw => exact .handshake hfd (hadd hqueue) hw
    | up hfd hup hw =>
      rcases hwaits with hzero | hstatus
      · exact absurd hzero hfd
      · exact absurd hstatus hup.ne_handshake
  · rw [addPackets, Function.update_self]
    exact allWritten_add (hl.small _ hown) hls handle

theorem Slot.not_down {own : UInt8} {ps : List Packet} (hslot : Slot own es ps s) :
    s.status ≠ .down := by
  intro hdown
  cases hslot with
  | wait | handshake => cases hdown
  | up hfd hup hw => exact hup.ne_down hdown

theorem Slot.up_of_not {own : UInt8} {ps : List Packet} (hslot : Slot own es ps s)
    (hnot : ¬(s.fd = 0 ∨ s.status = .handshake)) : s.status.Up := by
  cases hslot with
  | wait => exact absurd (Or.inl rfl) hnot
  | handshake => exact absurd (Or.inr rfl) hnot
  | up hfd hup hw => exact hup

theorem pushQueue_some {queue q : Queue} {m : HarborMsg} (hrun : pushQueue queue m = some q) :
    q = queue ++ [m] := by
  unfold pushQueue at hrun
  split at hrun
  · exact (Option.some.inj hrun).symm
  · cases hrun

theorem remoteSendHandle_posts (hl : Links h es out) (hsource : l.source ≠ 0) (hsmall : l.Small)
    (hrun : remoteSendHandle h l.source handle l.type l.session l.msg = some (h', es')) :
    Posts h es out handle [l] h' es' := by
  have hls : ∀ l' ∈ [l], l'.Small := List.forall_mem_singleton.mpr hsmall
  simp only [remoteSendHandle] at hrun
  by_cases hown : harborOf handle = h.id
  · rw [if_pos hown] at hrun
    obtain ⟨rfl, rfl⟩ := Prod.mk.inj (Option.some.inj hrun)
    exact posts_own hl hown (List.forall_mem_singleton.mpr hsource)
  · rw [if_neg hown] at hrun
    have hslot := hl.slots _ hown
    by_cases hwaits : (h.s (harborOf handle)).fd = 0 ∨ (h.s (harborOf handle)).status = .handshake
    · rw [if_pos hwaits, if_neg hslot.not_down] at hrun
      obtain ⟨queue, hpush, hrun⟩ := Option.bind_eq_some_iff.mp hrun
      obtain ⟨rfl, rfl⟩ := Prod.mk.inj (Option.some.inj hrun)
      rw [pushQueue_some hpush]
      exact posts_queue hl hown hls hwaits
    · rw [if_neg hwaits] at hrun
      obtain ⟨rfl, rfl⟩ := Prod.mk.inj (Option.some.inj hrun)
      have hwrite := @sendRemote_packet (l.packet handle) hsmall (h.s (harborOf handle)).fd
      have hposts := posts_up hl hown hls (hslot.up_of_not hwaits)
      rw [List.map_singleton, List.map_singleton, ← hwrite] at hposts
      exact hposts

def Letter.nameMsg (l : Letter) : HarborMsg :=
  ⟨⟨l.source, l.type.toUInt32 <<< HANDLE_REMOTE_SHIFT, l.session.toUInt32⟩, l.msg⟩

theorem harborOf_type (type : UInt8) : harborOf (type.toUInt32 <<< HANDLE_REMOTE_SHIFT) = type := by
  have h := harborOf_cookie type 0
  rwa [cookieDestination, UInt32.zero_and, UInt32.or_zero] at h

theorem dispatchNameQueue_posts (hl : Links h es out) (hsource : ∀ l ∈ ls, l.source ≠ 0)
    (hls : ∀ l ∈ ls, l.Small) (hslave : harborOf h.slave = h.id)
    (hprompt : harborOf handle = h.id ∨ (h.s (harborOf handle)).status.Up)
    (hrun : dispatchNameQueue h handle (ls.map Letter.nameMsg) = some (h', es')) :
    Posts h es out handle ls h' es' := by
  simp only [dispatchNameQueue] at hrun
  by_cases hown : harborOf handle = h.id
  · have hslot : h.s (harborOf handle) = ⟨0, none, .wait⟩ := hown ▸ hl.own
    rw [hslot] at hrun
    simp only [if_true, hown, hslave, moveQueue, reduceCtorEq, if_false, Option.bind_eq_bind,
      Option.bind_some] at hrun
    obtain ⟨rfl, rfl⟩ := Prod.mk.inj (Option.some.inj hrun)
    have hsame : setSlave h h.id ⟨0, none, .wait⟩ = h := by
      rw [← hl.own, setSlave, Function.update_eq_self]
    rw [hsame, List.map_map]
    have heffect : (ls.map ((fun m : HarborMsg => Effect.send m.header.source handle
        (harborOf m.header.destination) (Int32.ofUInt32 m.header.session) m.buffer) ∘
          Letter.nameMsg)) = ls.map (Letter.effect handle) := by
      refine List.map_congr_left fun l _ => ?_
      simp only [Function.comp_apply, Letter.nameMsg, harborOf_type, Letter.effect]
    rw [heffect]
    exact posts_own hl hown hsource
  · have hup := hprompt.resolve_left hown
    have hslot := hl.slots _ hown
    have hfd : (h.s (harborOf handle)).fd ≠ 0 := by
      generalize h.s (harborOf handle) = s at hslot hup
      cases hslot with
      | wait => cases hup
      | handshake hfd | up hfd => exact hfd
    rw [if_neg hfd] at hrun
    obtain ⟨rfl, rfl⟩ := Prod.mk.inj (Option.some.inj hrun)
    have hposts := posts_up hl hown hls hup
    have hw : AllWritten (ls.map (Letter.packet handle)) := by
      have hnone : AllWritten [] := fun p hp => absurd hp List.not_mem_nil
      have hadd := @allWritten_add ls [] hnone hls handle
      rwa [List.nil_append] at hadd
    rw [← sendRemote_packets hw, List.flatMap_map] at hposts
    rw [List.flatMap_map]
    exact hposts

theorem dispatchQueue_eq (h : Harbor) (id : UInt8) :
    dispatchQueue h id = (setSlave h id { h.s id with queue := none },
      ((h.s id).queue.getD []).flatMap fun m => sendRemote (h.s id).fd m.buffer m.header) := by
  cases hqueue : (h.s id).queue with
  | none =>
    have hsame : { h.s id with queue := none } = h.s id := by rw [← hqueue]
    rw [hsame, setSlave, Function.update_eq_self]
    simp only [dispatchQueue, hqueue]
    rfl
  | some queue => simp only [dispatchQueue, hqueue, Option.getD_some]

theorem flush_packets {queue : Option Queue} (hqueue : queue.getD [] = ps.map Packet.harborMsg)
    (hw : AllWritten ps) (fd : Int32) :
    ((queue.getD []).flatMap fun m => sendRemote fd m.buffer m.header) =
      ps.map fun p => .write fd p.bytes := by
  rw [hqueue, List.flatMap_map]
  exact sendRemote_packets hw fd

theorem connect_links (hl : Links h es out) (accept : Bool) (hid : id ≠ h.id)
    (hfresh : ∀ j, (h.s j).fd ≠ fd) (hrun : connect h accept fd id = (h', es')) :
    (h'.map = h.map ∧ h'.id = h.id ∧ h'.slave = h.slave) ∧ Links h' (es ++ es') out ∧
      es'.filter Effect.isLetter = [] := by
  unfold connect at hrun
  have herror : Links h (es ++ [.error]) out := hl.quiet (fun _ => rfl) fun _ _ => rfl
  simp only at hrun
  split at hrun
  · obtain ⟨rfl, rfl⟩ := Prod.mk.inj hrun
    exact ⟨⟨rfl, rfl, rfl⟩, herror, rfl⟩
  rename_i hvalid
  have hfd : fd ≠ 0 := fun h => hvalid (Or.inl h)
  split at hrun
  · obtain ⟨rfl, rfl⟩ := Prod.mk.inj hrun
    exact ⟨⟨rfl, rfl, rfl⟩, herror, rfl⟩
  rename_i hnone
  have hzero : (h.s id).fd = 0 := not_not.mp hnone
  have hslot := hl.slots id hid
  have hw := hl.small id hid
  have hunwritten := hl.unwritten fd (Or.inr hfresh)
  have hchange : ∀ {s : Slave} {es' : List Effect}, s.fd = fd →
      (∀ fd', fd' = 0 ∨ fd' ≠ fd → writes fd' es' = []) → Slot h.id (es ++ es') (out id) s →
      Links (setSlave h id s) (es ++ es') out := fun hs hquiet hslot =>
    hl.change hid (Or.inr ⟨hzero, hs ▸ hfresh⟩) (hs ▸ hquiet) hslot hw fun _ _ _ => rfl
  generalize hs : h.s id = s at hslot hrun hzero
  cases hslot with
  | handshake hfd' | up hfd' => exact absurd hzero hfd'
  | @wait queue hqueue =>
    have hquiet : ∀ fd', fd' = 0 ∨ fd' ≠ fd →
        writes fd' [.start fd, .write fd [h.id]] = [] := by
      intro fd' hfd'
      have hne : fd ≠ fd' := by
        rintro rfl
        rcases hfd' with hfd' | hfd'
        · exact hfd hfd'
        · exact hfd' rfl
      simp [writes, hne]
    have hown : writes fd [.start fd, .write fd [h.id]] = [[h.id]] := by simp [writes]
    split at hrun
    · rw [dispatchQueue_eq] at hrun
      simp only [setSlave, Function.update_self, Function.update_idem,
        flush_packets hqueue hw] at hrun
      obtain ⟨rfl, rfl⟩ := Prod.mk.inj hrun
      refine ⟨⟨rfl, rfl, rfl⟩, hchange rfl (fun fd' hfd' => ?_) (.up hfd trivial ?_), ?_⟩
      · have hne : fd ≠ fd' := by
          rintro rfl
          rcases hfd' with hfd' | hfd'
          · exact hfd hfd'
          · exact hfd' rfl
        rw [writes_append, hquiet fd' hfd', writes_map, if_neg hne]
        rfl
      · rw [writes_append, writes_append, hunwritten, hown, writes_map, if_pos rfl]
        rfl
      · rw [List.filter_append, filter_map_write]
        rfl
    · obtain ⟨rfl, rfl⟩ := Prod.mk.inj hrun
      refine ⟨⟨rfl, rfl, rfl⟩, hchange rfl hquiet (.handshake hfd hqueue ?_), rfl⟩
      rw [writes_append, hunwritten, hown]
      rfl

theorem pushLoop_wait {buffer : List UInt8} (hs : (h.s id).status = .wait) :
    pushLoop alive h id buffer = some (h, []) := by
  rw [pushLoop.eq_def]
  split <;> simp_all

theorem pushLoop_handshake {buffer : List UInt8} (hs : (h.s id).status = .handshake)
    (hrun : pushLoop alive h id buffer = some (h', es)) (hdown : (h'.s id).status ≠ .down) :
    ∃ st es', st.Up ∧ h' = setSlave h id ⟨(h.s id).fd, none, st⟩ ∧
      es = ((h.s id).queue.getD []).flatMap
        (fun m => sendRemote (h.s id).fd m.buffer m.header) ++ es' ∧
      ∀ fd, writes fd es' = [] := by
  rw [pushLoop.eq_def] at hrun
  split at hrun
  · split at hrun
    · cases hrun
    rename_i remote buffer
    split at hrun
    · obtain ⟨rfl, -⟩ := Prod.mk.inj (Option.some.inj hrun)
      exact absurd (closeHarbor_status ..) hdown
    rw [dispatchQueue_eq] at hrun
    obtain ⟨⟨h2, es2⟩, hloop, hrun⟩ := Option.bind_eq_some_iff.mp hrun
    obtain ⟨rfl, rfl⟩ := Prod.mk.inj (Option.some.inj hrun)
    have hslave : setSlave (setStatus h id (.header .zero)) id
        { (setStatus h id (.header .zero)).s id with queue := none } =
        setSlave h id ⟨(h.s id).fd, none, .header .zero⟩ := by
      simp only [setStatus, setSlave, Function.update_self, Function.update_idem]
    rw [hslave] at hloop
    have hup : ((setSlave h id ⟨(h.s id).fd, none, .header .zero⟩).s id).status.Up := by
      simp only [setSlave, Function.update_self]
      trivial
    obtain ⟨⟨st, hst, rfl⟩, hquiet⟩ := pushLoop_up alive _ id buffer _ _ hup hloop hdown
    refine ⟨st, es2, hst, ?_, ?_, hquiet⟩
    · simp only [setStatus, setSlave, Function.update_self, Function.update_idem]
    · simp only [setStatus, setSlave, Function.update_self]
  all_goals simp_all

theorem data_links (hl : Links h es out) {buffer : List UInt8}
    (hrun : pushSocketData alive h fd buffer = some (h', es'))
    (hup : ∀ id, (h'.s id).status ≠ .down) :
    (h'.map = h.map ∧ h'.id = h.id ∧ h'.slave = h.slave) ∧ Links h' (es ++ es') out := by
  unfold pushSocketData at hrun
  split at hrun
  · obtain ⟨rfl, rfl⟩ := Prod.mk.inj (Option.some.inj hrun)
    exact ⟨⟨rfl, rfl, rfl⟩, hl.quiet (fun _ => rfl) fun _ _ => rfl⟩
  rename_i id hfind
  by_cases hown : id = h.id
  · rw [pushLoop_wait (by rw [hown, hl.own])] at hrun
    obtain ⟨rfl, rfl⟩ := Prod.mk.inj (Option.some.inj hrun)
    exact ⟨⟨rfl, rfl, rfl⟩, hl.quiet (fun _ => rfl) fun _ _ => rfl⟩
  have hslot := hl.slots id hown
  have hw := hl.small id hown
  generalize hs : h.s id = s at hslot
  cases hslot with
  | wait =>
    rw [pushLoop_wait (by rw [hs])] at hrun
    obtain ⟨rfl, rfl⟩ := Prod.mk.inj (Option.some.inj hrun)
    exact ⟨⟨rfl, rfl, rfl⟩, hl.quiet (fun _ => rfl) fun _ _ => rfl⟩
  | @handshake fd queue hfd hqueue hwritten =>
    obtain ⟨st, es2, hst, rfl, rfl, hquiet⟩ := pushLoop_handshake (by rw [hs]) hrun (hup id)
    rw [hs]
    refine ⟨⟨rfl, rfl, rfl⟩, hl.change hown (Or.inl (by rw [hs])) (fun fd' hfd' => ?_) ?_ hw
      fun _ _ _ => rfl⟩
    · rw [flush_packets hqueue hw, writes_append, hquiet, writes_map, if_neg]
      · rfl
      rintro rfl
      rcases hfd' with hfd' | hfd'
      · exact hfd hfd'
      · exact hfd' rfl
    · refine .up hfd hst ?_
      rw [flush_packets hqueue hw, writes_append, writes_append, hquiet, hwritten, writes_map,
        if_pos rfl, List.append_nil]
      rfl
  | @up fd status hfd hstatus hwritten =>
    obtain ⟨⟨st, hst, rfl⟩, hquiet⟩ := pushLoop_up alive h id buffer _ _ (by rw [hs]; exact hstatus)
      hrun (hup id)
    refine ⟨⟨rfl, rfl, rfl⟩, hl.change hown (Or.inl rfl) (fun fd' _ => hquiet fd') ?_ hw
      fun _ _ _ => rfl⟩
    rw [hs]
    refine .up hfd hst ?_
    rw [writes_append, hquiet, hwritten, List.append_nil]

end XsServer.Remote
