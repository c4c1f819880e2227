import XsServer.Remote.Links

/-! The letters that the harbor service delivers, over whole runs. -/

namespace XsServer.Remote

open Lib

structure World.Inv (w : World) : Prop where
  keeps : w.mail.Keeps w.sent
  names : ∀ name, (w.harbor.map name).value = w.mail.names name
  queues : ∀ name, (w.harbor.map name).queue.getD [] =
    (lettersTo (.name name) w.mail.waiting).map Letter.nameMsg
  links : Links w.harbor w.effects w.mail.packets
  own : w.delivered = (w.mail.packets w.harbor.id).map fun p =>
    .send p.source p.destination p.type p.session p.msg
  slave : harborOf w.harbor.slave = w.harbor.id
  letters : ∀ l ∈ w.mail.waiting, l.source ≠ 0 ∧ l.Small

variable {alive : UInt32 → Bool} {h h' : Harbor} {id : UInt8} {fd : Int32} {es es' : List Effect}
  {w w' : World} {e : Event} {l : Letter} {handle : UInt32} {ls : List Letter} {m : Mail}
  {out : UInt8 → List Packet}

theorem inv_init {slave : UInt32} (hslave : harborOf slave = id) : (World.init id slave).Inv where
  keeps := keeps_init
  names := fun _ => rfl
  queues := fun _ => rfl
  links := ⟨fun _ _ => .wait rfl, rfl, fun _ _ hne => absurd rfl hne, fun _ _ => rfl,
    fun _ _ _ hp => nomatch hp⟩
  own := rfl
  slave := hslave
  letters := fun _ hl => nomatch hl

theorem packets_resolve (m : Mail) (handle : UInt32) (ls : List Letter)
    (names : Name → UInt32) (waiting : List Letter) :
    Mail.packets ⟨names, waiting, m.resolved ++ ls.map (handle, ·)⟩ =
      addPackets m.packets handle ls := by
  funext id
  rw [Mail.packets, List.filter_append, List.map_append]
  by_cases hid : id = harborOf handle
  · have hall : (ls.map (handle, ·)).filter (fun r => harborOf r.1 = id) = ls.map (handle, ·) := by
      refine List.filter_eq_self.mpr fun r hr => ?_
      obtain ⟨l, -, rfl⟩ := List.mem_map.mp hr
      exact decide_eq_true hid.symm
    rw [hall, hid, addPackets, Function.update_self, List.map_map]
    rfl
  · have hnone : (ls.map (handle, ·)).filter (fun r => harborOf r.1 = id) = [] := by
      refine List.filter_eq_nil_iff.mpr fun r hr heq => hid ?_
      obtain ⟨l, -, rfl⟩ := List.mem_map.mp hr
      exact (of_decide_eq_true heq).symm
    rw [hnone, addPackets, Function.update_of_ne hid, List.map_nil, List.append_nil]
    rfl

theorem Posts.own {delivered : List Effect} (hp : Posts h es out handle ls h' es')
    (hown : delivered = (out h.id).map fun p =>
      .send p.source p.destination p.type p.session p.msg) :
    delivered ++ es'.filter Effect.isLetter = (addPackets out handle ls h'.id).map fun p =>
      .send p.source p.destination p.type p.session p.msg := by
  rw [hp.letters, hp.id, hown]
  by_cases hid : h.id = harborOf handle
  · rw [if_pos hid.symm, hid, addPackets, Function.update_self, List.map_append, List.map_map]
    rfl
  · rw [if_neg (Ne.symm hid), addPackets, Function.update_of_ne hid, List.append_nil]

theorem Links.setNode (hl : Links h es out) (name : Name) (node : KeyValue) :
    Links (setNode h name node) es out :=
  ⟨hl.slots, hl.own, hl.distinct, hl.unwritten, hl.small⟩

theorem send_posts (hi : w.Inv) (hsend : w.mail.send l =
      { w.mail with resolved := w.mail.resolved ++ [(handle, l)] })
    (hsource : l.source ≠ 0) (hsmall : l.Small)
    (hrun : remoteSendHandle w.harbor l.source handle l.type l.session l.msg = some (h', es)) :
    (w.next (.send l) h' es).Inv := by
  have hposts := remoteSendHandle_posts hi.links hsource hsmall hrun
  have hpackets := packets_resolve w.mail handle [l] w.mail.names w.mail.waiting
  rw [List.map_singleton, ← hsend] at hpackets
  have hlinks := hposts.links
  have hown := hposts.own hi.own
  rw [← hpackets] at hlinks hown
  have hnames : (w.mail.send l).names = w.mail.names := by rw [hsend]
  have hwaiting : (w.mail.send l).waiting = w.mail.waiting := by rw [hsend]
  refine ⟨hi.keeps.send l, fun name => ?_, fun name => ?_, hlinks, hown, ?_, ?_⟩
  · simp only [World.next, hposts.map, hnames]
    exact hi.names name
  · simp only [World.next, hposts.map, hwaiting]
    exact hi.queues name
  · simp only [World.next, hposts.slave, hposts.id]
    exact hi.slave
  · simp only [World.next, hwaiting]
    exact hi.letters

theorem send_waits (hi : w.Inv) {name : Name} (haddr : l.address = .name name)
    (hzero : (w.harbor.map name).value = 0) (hsource : l.source ≠ 0) (hsmall : l.Small)
    (hrun : remoteSendName w.harbor l.source name l.type l.session l.msg = some (h', es)) :
    (w.next (.send l) h' es).Inv := by
  simp only [remoteSendName, if_pos hzero] at hrun
  obtain ⟨queue, hpush, hrun⟩ := Option.bind_eq_some_iff.mp hrun
  obtain ⟨rfl, rfl⟩ := Prod.mk.inj (Option.some.inj hrun)
  have hsend : w.mail.send l = { w.mail with waiting := w.mail.waiting ++ [l] } := by
    rw [Mail.send, haddr]
    exact if_pos ((hi.names name).symm.trans hzero)
  have hpackets : (w.mail.send l).packets = w.mail.packets := by rw [hsend]; rfl
  have hquiet := @Links.quiet w.harbor w.effects w.mail.packets w.mail.packets
    [.send 0 w.harbor.slave PTYPE_TEXT 0 ([0x51, 0x20] ++ name)] hi.links (fun _ => rfl)
    fun _ _ => rfl
  refine ⟨hi.keeps.send l, fun name' => ?_, fun name' => ?_, ?_, ?_, hi.slave, fun l' hl' => ?_⟩
  · simp only [World.next, hsend, setNode]
    rw [← hi.names name']
    by_cases hname : name' = name
    · rw [hname, Function.update_self]
    · rw [Function.update_of_ne hname]
  · simp only [World.next, hsend, setNode, lettersTo_append, lettersTo_singleton, haddr,
      List.map_append]
    rw [← hi.queues name']
    by_cases hname : name' = name
    · rw [hname, Function.update_self, if_pos rfl, Option.getD_some, pushQueue_some hpush]
      rfl
    · have hne : Address.name name ≠ .name name' := fun h => hname (Address.name.inj h).symm
      rw [Function.update_of_ne hname, if_neg hne, List.map_nil, List.append_nil]
  · simp only [World.next, hpackets]
    exact hquiet.setNode _ _
  · simp only [World.next, hpackets]
    exact (List.append_nil _).trans hi.own
  · simp only [World.next, hsend] at hl'
    rcases List.mem_append.mp hl' with hl' | hl'
    · exact hi.letters l' hl'
    · rw [List.mem_singleton.mp hl']
      exact ⟨hsource, hsmall⟩

theorem send_inv (hi : w.Inv) (hallowed : w.Allowed (.send l)) (hprompt : w.Prompt (.send l))
    (hrun : exec alive w.harbor (.send l) = some (h', es)) : (w.next (.send l) h' es).Inv := by
  obtain ⟨hsource, -⟩ := hallowed
  simp only [exec] at hrun
  split at hrun
  · rename_i handle haddr
    exact send_posts hi (by rw [Mail.send, haddr]) hsource hprompt hrun
  · rename_i name haddr
    by_cases hzero : (w.harbor.map name).value = 0
    · exact send_waits hi haddr hzero hsource hprompt hrun
    · simp only [remoteSendName, if_neg hzero] at hrun
      refine send_posts hi ?_ hsource hprompt hrun
      have hne : w.mail.names name ≠ 0 := by rwa [← hi.names name]
      rw [Mail.send, haddr, hi.names name]
      exact if_neg hne

theorem name_inv (hi : w.Inv) {name : Name} (hprompt : w.Prompt (.name name handle))
    (hrun : updateName w.harbor name handle = some (h', es)) :
    (w.next (.name name handle) h' es).Inv := by
  have hpackets : (w.mail.bind name handle).packets =
      addPackets w.mail.packets handle (lettersTo (.name name) w.mail.waiting) :=
    packets_resolve ..
  have hqueue := hi.queues name
  have hlinks := hi.links.setNode name ⟨handle, none⟩
  have hmine : ∀ l ∈ lettersTo (.name name) w.mail.waiting, l.source ≠ 0 ∧ l.Small := fun l hl =>
    hi.letters l (List.mem_filter.mp hl).1
  have hposts : Posts (setNode w.harbor name ⟨handle, none⟩) w.effects w.mail.packets handle
      (lettersTo (.name name) w.mail.waiting) h' es := by
    simp only [updateName] at hrun
    split at hrun
    · rename_i hnone
      rw [hnone] at hqueue
      have hnil : lettersTo (.name name) w.mail.waiting = [] := List.map_eq_nil_iff.mp hqueue.symm
      obtain ⟨rfl, rfl⟩ := Prod.mk.inj (Option.some.inj hrun)
      rw [hnil]
      refine ⟨rfl, rfl, rfl, hlinks.quiet (fun _ => rfl) fun id _ => ?_, ?_⟩
      · rw [addPackets, List.map_nil, List.append_nil, Function.update_eq_self]
      · split <;> rfl
    · rename_i queue hsome
      rw [hsome, Option.getD_some] at hqueue
      rw [hqueue] at hrun
      exact dispatchNameQueue_posts hlinks (fun l hl => (hmine l hl).1)
        (fun l hl => (hmine l hl).2) hi.slave
        (hprompt (by rw [hsome]; exact Option.some_ne_none _)) hrun
  have hlinks' := hposts.links
  have hown := hposts.own hi.own
  rw [← hpackets] at hlinks' hown
  refine ⟨hi.keeps.bind name handle, fun name' => ?_, fun name' => ?_, hlinks', hown, ?_, ?_⟩
  · simp only [World.next, hposts.map, setNode, Mail.bind]
    by_cases hname : name' = name
    · rw [hname, Function.update_self, Function.update_self]
    · rw [Function.update_of_ne hname, Function.update_of_ne hname]
      exact hi.names name'
  · simp only [World.next, hposts.map, setNode, lettersTo_bind]
    by_cases hname : name' = name
    · rw [hname, Function.update_self, if_pos rfl]
      rfl
    · rw [Function.update_of_ne hname, if_neg fun h => hname (Address.name.inj h)]
      exact hi.queues name'
  · simp only [World.next, hposts.slave, hposts.id]
    exact hi.slave
  · intro l hl
    exact hi.letters l (List.mem_filter.mp hl).1

/-! ### Runs -/

theorem connect_inv (hi : w.Inv) {accept : Bool} (hallowed : w.Allowed (.connect accept fd id))
    (hrun : connect w.harbor accept fd id = (h', es)) :
    (w.next (.connect accept fd id) h' es).Inv := by
  obtain ⟨hid, hfresh⟩ := hallowed
  obtain ⟨⟨hmap, hown, hslave⟩, hlinks, hnone⟩ := connect_links hi.links accept hid hfresh hrun
  refine ⟨hi.keeps, fun name => ?_, fun name => ?_, hlinks, ?_, ?_, hi.letters⟩
  · simp only [World.next, hmap]
    exact hi.names name
  · simp only [World.next, hmap]
    exact hi.queues name
  · simp only [World.next, hnone, hown, List.append_nil]
    exact hi.own
  · simp only [World.next, hslave, hown]
    exact hi.slave

theorem data_inv (hi : w.Inv) {buffer : List UInt8}
    (hrun : pushSocketData alive w.harbor fd buffer = some (h', es))
    (hup : ∀ id, (h'.s id).status ≠ .down) : (w.next (.data fd buffer) h' es).Inv := by
  obtain ⟨⟨hmap, hown, hslave⟩, hlinks⟩ := data_links hi.links hrun hup
  refine ⟨hi.keeps, fun name => ?_, fun name => ?_, hlinks, ?_, ?_, hi.letters⟩
  · simp only [World.next, hmap]
    exact hi.names name
  · simp only [World.next, hmap]
    exact hi.queues name
  · simp only [World.next, hown]
    exact hi.own
  · simp only [World.next, hslave, hown]
    exact hi.slave

theorem inv_step (hi : w.Inv) (hprompt : w.Prompt e) (hs : World.Step alive w e w') : w'.Inv := by
  cases hs with
  | mk hallowed hrun hup =>
    cases e with
    | send l => exact send_inv hi hallowed hprompt hrun
    | name name handle => exact name_inv hi hprompt hrun
    | connect accept fd id => exact connect_inv hi hallowed (Option.some.inj hrun)
    | data fd buffer => exact data_inv hi hrun hup

theorem World.Inv.delivers (hi : w.Inv) : w.Delivers := by
  refine ⟨hi.keeps, hi.names, fun id hid hfd => ?_, hi.own⟩
  have hslot := hi.links.slots id hid
  generalize w.harbor.s id = s at hslot hfd
  cases hslot with
  | wait => exact absurd rfl hfd
  | handshake _ _ hw =>
    rw [if_pos rfl]
    exact hw
  | up _ hup hw =>
    rw [if_neg hup.ne_handshake]
    exact hw

/-- In every run in which names with letters get their handles in time, every letter is delivered
once, to its handle and in order. -/
theorem harbor_delivers (alive : UInt32 → Bool) (id : UInt8) (slave : UInt32)
    (hslave : harborOf slave = id) (es : List Event) (w : World)
    (hr : Run (Guarded World.Prompt (World.Step alive)) (World.init id slave) es w) :
    w.Delivers := by
  have hi : w.Inv := hr.invariant (inv_init hslave) fun _ _ _ hi hs => inv_step hi hs.1 hs.2
  exact hi.delivers

/-- The world after an event that the code can execute. -/
def World.after (alive : UInt32 → Bool) (w : World) (e : Event) : World :=
  let r := (exec alive w.harbor e).getD (w.harbor, [])
  w.next e r.1 r.2

theorem update_down {s : Slave} {i id : UInt8} {f : UInt8 → Slave} (hs : s.status ≠ .down)
    (hf : ∀ id, (f id).status ≠ .down) : (Function.update f i s id).status ≠ .down := by
  by_cases hid : id = i
  · rwa [hid, Function.update_self]
  · rw [Function.update_of_ne hid]
    exact hf id

/-- A letter for a name whose handle comes after the connection. -/
theorem harbor_delivers_name : ∃ w : World,
    Run (Guarded World.Prompt (World.Step fun _ => true)) (World.init 1 0x1000001)
      [.connect true 7 2, .send ⟨0x1000005, .name [97], 0, 3, [8]⟩, .name [97] 0x2000009] w ∧
    w.Delivers := by
  let w1 := (World.init 1 0x1000001).after (fun _ => true) (.connect true 7 2)
  let w2 := w1.after (fun _ => true) (.send ⟨0x1000005, .name [97], 0, 3, [8]⟩)
  let w3 := w2.after (fun _ => true) (.name [97] 0x2000009)
  have hinit : ∀ id, ((harborInit 1 0x1000001).s id).status ≠ .down := fun _ h => nomatch h
  have hup : ∀ id, (w1.harbor.s id).status ≠ .down := fun id =>
    update_down (fun h => nomatch h) hinit
  have hr : Run (Guarded World.Prompt (World.Step fun _ => true)) (World.init 1 0x1000001)
      [.connect true 7 2, .send ⟨0x1000005, .name [97], 0, 3, [8]⟩, .name [97] 0x2000009] w3 := by
    refine Run.cons (t := w1)
      ⟨trivial, .mk ⟨by decide, fun _ => (by decide : (0 : Int32) ≠ 7)⟩ rfl hup⟩ ?_
    refine Run.cons (t := w2) ⟨(by decide : 1 + HEADER_COOKIE_LENGTH ≤ UINT32_MAX),
      .mk ⟨by decide, fun h => nomatch h⟩ rfl hup⟩ ?_
    exact Run.single ⟨fun _ => Or.inr trivial, .mk (by decide : (0x2000009 : UInt32) ≠ 0) rfl hup⟩
  exact ⟨w3, hr, harbor_delivers _ 1 0x1000001 (by decide) _ w3 hr⟩

/-- The name gets its handle before the harbor is connected, and the letter is written without
it. -/
theorem harbor_loses_handle : ¬∀ (alive : UInt32 → Bool) (id : UInt8) (slave : UInt32),
    harborOf slave = id → ∀ (es : List Event) (w : World),
      Run (World.Step alive) (World.init id slave) es w → w.Delivers := by
  intro hall
  let l : Letter := ⟨0x1000005, .name [97], 0, 3, [8]⟩
  let m : HarborMsg := ⟨⟨0x1000005, 0, 3⟩, [8]⟩
  let h1 := setNode (harborInit 1 0x1000001) [97] ⟨0, some [m]⟩
  let h2 := setSlave (setNode h1 [97] ⟨0x2000009, none⟩) 2 ⟨0, some [m], .wait⟩
  let h3 := setSlave (setSlave h2 2 ⟨7, some [m], .header .zero⟩) 2 ⟨7, none, .header .zero⟩
  let es3 : List Effect := [.start 7, .write 7 [1]] ++ sendRemote 7 [8] ⟨0x1000005, 0, 3⟩
  let w1 := (World.init 1 0x1000001).next (.send l) h1 [.send 0 0x1000001 PTYPE_TEXT 0 [81, 32, 97]]
  let w2 := w1.next (.name [97] 0x2000009) h2 []
  let w3 := w2.next (.connect true 7 2) h3 es3
  have hinit : ∀ id, ((harborInit 1 0x1000001).s id).status ≠ .down :=
    fun _ h => Status.noConfusion h
  have hwait : ∀ id, (h2.s id).status ≠ .down := fun id =>
    update_down (fun h => Status.noConfusion h) hinit
  have hup : ∀ id, (h3.s id).status ≠ .down := fun id =>
    update_down (fun h => Status.noConfusion h) fun id =>
      update_down (fun h => Status.noConfusion h) hwait
  have hfresh : ∀ id, (h2.s id).fd ≠ 7 := by
    intro id
    by_cases hid : id = 2
    · rw [hid]
      decide
    · rw [show h2.s id = (harborInit 1 0x1000001).s id from Function.update_of_ne hid _ _]
      exact (by decide : (0 : Int32) ≠ 7)
  have hsend : exec (fun _ => true) (harborInit 1 0x1000001) (.send l) =
      some (h1, [.send 0 0x1000001 PTYPE_TEXT 0 [81, 32, 97]]) := by
    have hpush : pushQueue [] m = some [m] := if_pos (by decide)
    have hnode : (harborInit 1 0x1000001).map [97] = ⟨0, none⟩ := rfl
    have hheader : (⟨⟨0x1000005, (0 : UInt8).toUInt32 <<< HANDLE_REMOTE_SHIFT,
      (3 : Int32).toUInt32⟩, [8]⟩ : HarborMsg) = m := by decide
    simp only [exec, l, remoteSendName, hnode, if_true, Option.getD_none, hheader, hpush]
    rfl
  have hname : exec (fun _ => true) h1 (.name [97] 0x2000009) = some (h2, []) := by
    have hid : harborOf 0x2000009 = 2 := by decide
    have hnode : h1.map [97] = ⟨0, some [m]⟩ := rfl
    have hs : (setNode h1 [97] ⟨0x2000009, none⟩).s 2 = ⟨0, none, .wait⟩ := rfl
    have hother : (2 : UInt8) ≠ harborOf (setNode h1 [97] ⟨0x2000009, none⟩).slave := by
      exact (by decide : (2 : UInt8) ≠ harborOf 0x1000001)
    simp only [exec, updateName, hnode, dispatchNameQueue, hid, hs, if_true, if_neg hother]
    rw [if_neg fun h => Status.noConfusion h]
    rfl
  have hr : Run (World.Step fun _ => true) (World.init 1 0x1000001)
      [.send l, .name [97] 0x2000009, .connect true 7 2] w3 := by
    refine Run.cons (t := w1) (.mk ⟨by decide, fun h => Address.noConfusion h⟩ hsend hinit) ?_
    refine Run.cons (t := w2) (.mk (by decide : (0x2000009 : UInt32) ≠ 0) hname hwait) ?_
    exact Run.single (.mk ⟨by decide, hfresh⟩ rfl hup)
  have hremote := (hall _ 1 0x1000001 (by decide) _ w3 hr).remote 2 (by decide : (2 : UInt8) ≠ 1)
    (by decide : (7 : Int32) ≠ 0)
  have hwritten : writes 7 w3.effects =
      [[1], Bytes.be 4 13 ++ [8] ++ headerToMessage ⟨0x1000005, 0, 3⟩] := by decide
  have hletters : lettersTo (.name [97]) [l] = [l] := by rw [lettersTo_singleton, if_pos rfl]
  have hmail : w3.mail.resolved = [(0x2000009, l)] := by
    change [] ++ (lettersTo (.name [97]) [l]).map (0x2000009, ·) = _
    rw [hletters]
    rfl
  have hpackets : w3.mail.packets 2 = [⟨0x1000005, 0x2000009, 0, 3, [8]⟩] := by
    rw [Mail.packets, hmail, List.filter_cons_of_pos (by decide)]
    rfl
  have hs : w3.harbor.s 2 = ⟨7, none, .header .zero⟩ := rfl
  rw [hs, if_neg fun h => Status.noConfusion h, hpackets, hwritten] at hremote
  exact absurd hremote (by decide)

end XsServer.Remote
