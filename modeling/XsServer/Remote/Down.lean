import XsServer.Remote.Links

/-! What becomes of a harbor whose connection is closed.  `close_harbor` leaves the socket in the
slave, so that the branches for a harbor that is down, which ask for no socket, are never taken. -/

namespace XsServer.Remote

open Lib

/-- The messages of the service, and the report that a socket was closed or failed. -/
inductive HarborEvent
  | event (e : Event)
  | closed (fd : Int32)

def reportHarborDown (h : Harbor) (id : UInt8) : List Effect :=
  [.send 0 h.slave PTYPE_TEXT 0
    ([0x44, 0x20] ++ (Nat.toDigits 10 id.toNat).map fun c => UInt8.ofNat c.toNat)]

def HarborEvent.exec (alive : UInt32 → Bool) (h : Harbor) :
    HarborEvent → Option (Harbor × List Effect)
  | .event e => Remote.exec alive h e
  | .closed fd =>
    match findSlave h fd with
    | some id => some (h, reportHarborDown h id)
    | none => some (h, [.error])

def HarborEvent.Connects (h : Harbor) (id : UInt8) : HarborEvent → Prop
  | .event (.connect _ fd id') => id' = id ∧ fd ≠ 0 ∧ id ≠ 0 ∧ (h.s id).fd = 0
  | _ => False

/-- The connection of the harbor is gone: the service has closed it, or has heard that it is. -/
def HarborEvent.Closes (h h' : Harbor) (id : UInt8) (e : HarborEvent) : Prop :=
  (h'.s id).status = .down ∨ ∃ fd, e = .closed fd ∧ findSlave h fd = some id

/-- The harbors whose connections are closed. -/
structure Watch where
  harbor : Harbor
  closed : UInt8 → Prop

def Watch.init (id : UInt8) (slave : UInt32) : Watch := ⟨harborInit id slave, fun _ => False⟩

def Watch.next (w : Watch) (e : HarborEvent) (h : Harbor) : Watch where
  harbor := h
  closed id := (w.closed id ∨ e.Closes w.harbor h id) ∧ ¬e.Connects w.harbor id

/-- There is no socket 0. -/
inductive Watch.Step (alive : UInt32 → Bool) : Watch → HarborEvent → Watch → Prop
  | mk {w : Watch} {e : HarborEvent} {h : Harbor} {es : List Effect} : e ≠ .closed 0 →
      e.exec alive w.harbor = some (h, es) → Step alive w e (w.next e h)

/-- A message for a handle comes back as an error, and nothing is written to its harbor. -/
def Reported (h : Harbor) (source destination : UInt32) (type : UInt8) (session : Int32)
    (msg : List UInt8) : Prop :=
  ∃ h' es, remoteSendHandle h source destination type session msg = some (h', es) ∧
    .send destination source PTYPE_ERROR 0 [] ∈ es ∧
    ∀ bytes, .write (h.s (harborOf destination)).fd bytes ∉ es

/-- The messages for a name are dropped with a line in the log, and nothing is written. -/
def Dropped (h : Harbor) (handle : UInt32) (queue : Queue) : Prop :=
  ∃ h', dispatchNameQueue h handle queue = some (h', [.error])

/-! ### Sockets -/

variable {alive : UInt32 → Bool} {h h' : Harbor} {id : UInt8} {es : List Effect} {w w' : Watch}
  {own : UInt8}

/-- Every harbor keeps its socket, and none leaves the status at the start. -/
structure Stays (h h' : Harbor) : Prop where
  own : h'.id = h.id
  fd : ∀ i, (h'.s i).fd = (h.s i).fd
  wait : ∀ i, (h.s i).status = .wait → (h'.s i).status = .wait

theorem Stays.refl (h : Harbor) : Stays h h := ⟨rfl, fun _ => rfl, fun _ hwait => hwait⟩

theorem Stays.trans {h'' : Harbor} (h₁ : Stays h h') (h₂ : Stays h' h'') : Stays h h'' :=
  ⟨h₂.own.trans h₁.own, fun i => (h₂.fd i).trans (h₁.fd i), fun i hi => h₂.wait i (h₁.wait i hi)⟩

theorem stays_setSlave {s : Slave} (hfd : s.fd = (h.s id).fd)
    (hwait : (h.s id).status = .wait → s.status = .wait) : Stays h (setSlave h id s) := by
  refine ⟨rfl, fun i => ?_, fun i hi => ?_⟩
  · by_cases heq : i = id
    · subst heq
      simp only [setSlave, Function.update_self, hfd]
    · simp only [setSlave, Function.update_of_ne heq]
  · by_cases heq : i = id
    · subst heq
      simp only [setSlave, Function.update_self]
      exact hwait hi
    · simp only [setSlave, Function.update_of_ne heq, hi]

theorem stays_setStatus {status : Status} (hs : (h.s id).status ≠ .wait) :
    Stays h (setStatus h id status) :=
  stays_setSlave rfl fun hwait => absurd hwait hs

theorem stays_closeHarbor (hs : (h.s id).status ≠ .wait) : Stays h (closeHarbor h id).1 :=
  stays_setSlave rfl fun hwait => absurd hwait hs

theorem stays_dispatchQueue (h : Harbor) (id : UInt8) : Stays h (dispatchQueue h id).1 := by
  unfold dispatchQueue
  dsimp only
  split
  · exact Stays.refl h
  · exact stays_setSlave rfl fun hwait => hwait

theorem pushLoop_stays (alive : UInt32 → Bool) (h : Harbor) (id : UInt8) (buffer : List UInt8) :
    ∀ h' es, pushLoop alive h id buffer = some (h', es) → Stays h h' := by
  fun_induction pushLoop alive h id buffer with
  | case1 h hs => intro h' es hrun; cases hrun
  | case2 h hs remote buffer hne r =>
    intro h' es hrun
    obtain ⟨rfl, -⟩ := Prod.mk.inj (Option.some.inj hrun)
    exact stays_closeHarbor (by rw [hs]; rintro ⟨⟩)
  | case3 h hs remote buffer heq r ih =>
    intro h' es hrun
    obtain ⟨⟨h₁, es₁⟩, hloop, hrun⟩ := Option.bind_eq_some_iff.mp hrun
    obtain ⟨rfl, -⟩ := Prod.mk.inj (Option.some.inj hrun)
    have hup : Stays h (setStatus h _ (.header .zero)) :=
      stays_setStatus (by rw [hs]; rintro ⟨⟩)
    exact (hup.trans (stays_dispatchQueue ..)).trans (ih h₁ es₁ hloop)
  | case4 h buffer size hs need hlt =>
    intro h' es hrun
    obtain ⟨rfl, -⟩ := Prod.mk.inj (Option.some.inj hrun)
    exact stays_setStatus (by rw [hs]; rintro ⟨⟩)
  | case5 h buffer size hs =>
    intro h' es hrun
    obtain ⟨rfl, -⟩ := Prod.mk.inj (Option.some.inj hrun)
    exact stays_closeHarbor (by rw [hs]; rintro ⟨⟩)
  | case6 h buffer size hs =>
    intro h' es hrun
    obtain ⟨rfl, -⟩ := Prod.mk.inj (Option.some.inj hrun)
    exact stays_setStatus (by rw [hs]; rintro ⟨⟩)
  | case7 h buffer size hs need _ bytes _ h₁ _ ih =>
    intro h' es hrun
    have hstep : Stays h h₁ := stays_setStatus (by rw [hs]; rintro ⟨⟩)
    exact hstep.trans (ih h' es hrun)
  | case8 h buffer length recv hs =>
    intro h' es hrun
    obtain ⟨rfl, -⟩ := Prod.mk.inj (Option.some.inj hrun)
    exact stays_setStatus (by rw [hs]; rintro ⟨⟩)
  | case9 h buffer length recv hs need _ ih =>
    intro h' es hrun
    obtain ⟨es₁, -, hrun⟩ := Option.bind_eq_some_iff.mp hrun
    have hstep : Stays h (setStatus h _ (.header .zero)) :=
      stays_setStatus (by rw [hs]; rintro ⟨⟩)
    simp only at hrun
    split at hrun
    · obtain ⟨rfl, -⟩ := Prod.mk.inj (Option.some.inj hrun)
      exact hstep
    · obtain ⟨⟨h₂, es₂⟩, hloop, hrun⟩ := Option.bind_eq_some_iff.mp hrun
      obtain ⟨rfl, -⟩ := Prod.mk.inj (Option.some.inj hrun)
      exact hstep.trans (ih h₂ es₂ hloop)
  | case10 h =>
    intro h' es hrun
    obtain ⟨rfl, -⟩ := Prod.mk.inj (Option.some.inj hrun)
    exact Stays.refl h

variable {source destination : UInt32} {msg : List UInt8} {session : Int32} {type : UInt8}

theorem remoteSendHandle_stays
    (hrun : remoteSendHandle h source destination type session msg = some (h', es)) :
    Stays h h' := by
  unfold remoteSendHandle at hrun
  dsimp only at hrun
  split at hrun
  · obtain ⟨rfl, -⟩ := Prod.mk.inj (Option.some.inj hrun)
    exact Stays.refl h
  · split at hrun
    · split at hrun
      · obtain ⟨rfl, -⟩ := Prod.mk.inj (Option.some.inj hrun)
        exact Stays.refl h
      · obtain ⟨queue, -, hrun⟩ := Option.bind_eq_some_iff.mp hrun
        obtain ⟨rfl, -⟩ := Prod.mk.inj (Option.some.inj hrun)
        exact stays_setSlave rfl fun hwait => hwait
    · obtain ⟨rfl, -⟩ := Prod.mk.inj (Option.some.inj hrun)
      exact Stays.refl h

theorem remoteSendName_stays {source : UInt32} {name : Name}
    (hrun : remoteSendName h source name type session msg = some (h', es)) :
    Stays h h' := by
  unfold remoteSendName at hrun
  dsimp only at hrun
  split at hrun
  · obtain ⟨queue, -, hrun⟩ := Option.bind_eq_some_iff.mp hrun
    obtain ⟨rfl, -⟩ := Prod.mk.inj (Option.some.inj hrun)
    exact ⟨rfl, fun _ => rfl, fun _ hwait => hwait⟩
  · exact remoteSendHandle_stays hrun

variable {handle : UInt32}

theorem dispatchNameQueue_stays {queue : Queue}
    (hrun : dispatchNameQueue h handle queue = some (h', es)) : Stays h h' := by
  unfold dispatchNameQueue at hrun
  dsimp only at hrun
  split at hrun
  · split at hrun
    · obtain ⟨rfl, -⟩ := Prod.mk.inj (Option.some.inj hrun)
      exact Stays.refl h
    · obtain ⟨moved, -, hrun⟩ := Option.bind_eq_some_iff.mp hrun
      split at hrun
      · obtain ⟨rfl, -⟩ := Prod.mk.inj (Option.some.inj hrun)
        exact stays_setSlave rfl fun hwait => hwait
      · obtain ⟨rfl, -⟩ := Prod.mk.inj (Option.some.inj hrun)
        exact stays_setSlave rfl fun hwait => hwait
  · obtain ⟨rfl, -⟩ := Prod.mk.inj (Option.some.inj hrun)
    exact Stays.refl h

theorem updateName_stays {name : Name}
    (hrun : updateName h name handle = some (h', es)) : Stays h h' := by
  have hnode (node : KeyValue) : Stays h (setNode h name node) :=
    ⟨rfl, fun _ => rfl, fun _ hwait => hwait⟩
  unfold updateName at hrun
  dsimp only at hrun
  split at hrun
  · obtain ⟨rfl, -⟩ := Prod.mk.inj (Option.some.inj hrun)
    exact hnode _
  · exact (hnode _).trans (dispatchNameQueue_stays hrun)

/-- The harbors whose connections are closed had one, and every harbor that left the status at the
start has. -/
structure Watch.Inv (own : UInt8) (w : Watch) : Prop where
  own : w.harbor.id = own
  wait : ∀ i, (w.harbor.s i).status ≠ .wait → (w.harbor.s i).fd ≠ 0
  closed : ∀ i, w.closed i → (w.harbor.s i).fd ≠ 0

theorem Watch.Inv.init (own : UInt8) (slave : UInt32) : (Watch.init own slave).Inv own :=
  ⟨rfl, fun _ hne => absurd rfl hne, fun _ hclosed => hclosed.elim⟩

theorem findSlave_fd {fd : Int32} (hfind : findSlave h fd = some id) : (h.s id).fd = fd := by
  have hfd := List.find?_some hfind
  exact of_decide_eq_true hfd

theorem Watch.Inv.stays {e : HarborEvent} (hinv : w.Inv own) (he : e ≠ .closed 0)
    (hstays : Stays w.harbor h) : (w.next e h).Inv own := by
  have hwait : ∀ i, (h.s i).status ≠ .wait → (h.s i).fd ≠ 0 := by
    intro i hne
    rw [hstays.fd]
    exact hinv.wait i fun hs => hne (hstays.wait i hs)
  refine ⟨hstays.own.trans hinv.own, hwait, ?_⟩
  rintro i ⟨hclosed | hdown | ⟨fd, rfl, hfind⟩, -⟩
  · exact (hstays.fd i).trans_ne (hinv.closed i hclosed)
  · exact hwait i (by rw [hdown]; exact nofun)
  · have hfd := findSlave_fd hfind
    rw [show ((w.next (.closed fd) h).harbor.s i).fd = fd from (hstays.fd i).trans hfd]
    rintro rfl
    exact he rfl

theorem Watch.Inv.connect (hinv : w.Inv own) (accept : Bool) (fd : Int32) (id : UInt8) :
    (w.next (.event (.connect accept fd id)) (Remote.connect w.harbor accept fd id).1).Inv own := by
  have hne : HarborEvent.event (.connect accept fd id) ≠ .closed 0 := fun h => by cases h
  by_cases hzero : fd = 0 ∨ id = 0
  · rw [Remote.connect, if_pos hzero]
    exact hinv.stays hne (Stays.refl _)
  by_cases hfd : (w.harbor.s id).fd ≠ 0
  · rw [Remote.connect, if_neg hzero, if_pos hfd]
    exact hinv.stays hne (Stays.refl _)
  have hself : ((Remote.connect w.harbor accept fd id).1.s id).fd = fd := by
    rw [Remote.connect, if_neg hzero, if_neg hfd]
    cases accept with
    | false => simp [setSlave]
    | true =>
      dsimp only
      rw [if_pos rfl, (stays_dispatchQueue _ id).fd]
      simp [setSlave]
  have hother : ∀ i, i ≠ id → (Remote.connect w.harbor accept fd id).1.s i = w.harbor.s i := by
    intro i hi
    rw [Remote.connect, if_neg hzero, if_neg hfd]
    cases accept with
    | false => simp [setSlave, Function.update_of_ne hi]
    | true =>
      dsimp only
      rw [if_pos rfl, dispatchQueue_eq]
      simp [setSlave, Function.update_of_ne hi]
  have hstatus : ((Remote.connect w.harbor accept fd id).1.s id).fd ≠ 0 := by
    rw [hself]
    exact fun h => hzero (.inl h)
  constructor
  · change (Remote.connect w.harbor accept fd id).1.id = own
    rw [Remote.connect, if_neg hzero, if_neg hfd]
    cases accept with
    | false => exact hinv.own
    | true =>
      dsimp only
      rw [if_pos rfl]
      exact (stays_dispatchQueue _ id).own.trans hinv.own
  · intro i hi
    by_cases hid : i = id
    · rw [hid]
      exact hstatus
    · change ((Remote.connect w.harbor accept fd id).1.s i).status ≠ .wait at hi
      change ((Remote.connect w.harbor accept fd id).1.s i).fd ≠ 0
      rw [hother i hid] at hi ⊢
      exact hinv.wait i hi
  · rintro i ⟨hclosed, -⟩
    by_cases hid : i = id
    · rw [hid]
      exact hstatus
    · change ((Remote.connect w.harbor accept fd id).1.s i).fd ≠ 0
      rw [hother i hid]
      obtain hclosed | hdown | ⟨fd', heq, -⟩ := hclosed
      · exact hinv.closed i hclosed
      · rw [hother i hid] at hdown
        exact hinv.wait i (by rw [hdown]; decide)
      · cases heq

theorem Watch.Inv.step {e : HarborEvent} (hinv : w.Inv own) (hstep : Watch.Step alive w e w') :
    w'.Inv own := by
  obtain ⟨he, hrun⟩ := hstep
  cases e with
  | closed fd =>
    rw [HarborEvent.exec] at hrun
    split at hrun
    · obtain ⟨rfl, -⟩ := Prod.mk.inj (Option.some.inj hrun)
      exact hinv.stays he (Stays.refl _)
    · obtain ⟨rfl, -⟩ := Prod.mk.inj (Option.some.inj hrun)
      exact hinv.stays he (Stays.refl _)
  | event e =>
    rw [HarborEvent.exec] at hrun
    cases e with
    | send l =>
      rw [Remote.exec] at hrun
      split at hrun
      · exact hinv.stays he (remoteSendHandle_stays hrun)
      · exact hinv.stays he (remoteSendName_stays hrun)
    | name name handle => exact hinv.stays he (updateName_stays hrun)
    | connect accept fd id =>
      have heq := Option.some.inj hrun
      have hnext := hinv.connect accept fd id
      rw [heq] at hnext
      exact hnext
    | data fd buffer =>
      rw [Remote.exec, pushSocketData] at hrun
      split at hrun
      · obtain ⟨rfl, -⟩ := Prod.mk.inj (Option.some.inj hrun)
        exact hinv.stays he (Stays.refl _)
      · exact hinv.stays he (pushLoop_stays _ _ _ _ _ _ hrun)

/-! ### Messages to a harbor that is closed -/

theorem not_mem_sendRemote {fd : Int32} {buffer : List UInt8} {cookie : Header} :
    Effect.send source destination type session msg ∉ sendRemote fd buffer cookie := by
  unfold sendRemote
  dsimp only
  split
  · simp
  · simp

theorem not_reported
    (hown : harborOf destination ≠ h.id)
    (hfd : (h.s (harborOf destination)).fd ≠ 0) :
    ¬Reported h source destination type session msg := by
  rintro ⟨h', es, hrun, hsend, -⟩
  unfold remoteSendHandle at hrun
  dsimp only at hrun
  rw [if_neg hown] at hrun
  split at hrun
  case isTrue hwait =>
    have hshake := hwait.resolve_left hfd
    rw [if_neg (by rw [hshake]; exact nofun)] at hrun
    obtain ⟨queue, -, hrun⟩ := Option.bind_eq_some_iff.mp hrun
    obtain ⟨-, rfl⟩ := Prod.mk.inj (Option.some.inj hrun)
    cases hsend
  case isFalse =>
    obtain ⟨-, rfl⟩ := Prod.mk.inj (Option.some.inj hrun)
    exact not_mem_sendRemote hsend

theorem not_dropped {queue : Queue} (hfd : (h.s (harborOf handle)).fd ≠ 0)
    {m : HarborMsg} (hm : m ∈ queue)
    (hsmall : m.buffer.length + HEADER_COOKIE_LENGTH ≤ UINT32_MAX) :
    ¬Dropped h handle queue := by
  rintro ⟨h', hrun⟩
  unfold dispatchNameQueue at hrun
  dsimp only at hrun
  rw [if_neg hfd] at hrun
  obtain ⟨-, heq⟩ := Prod.mk.inj (Option.some.inj hrun)
  have hwrite : ∀ e ∈ sendRemote (h.s (harborOf handle)).fd m.buffer
      { m.header with destination := m.header.destination ||| (handle &&& HANDLE_MASK) },
      e = .error := by
    intro e he
    have hmem : e ∈ [Effect.error] := by
      rw [← heq]
      exact List.mem_flatMap.mpr ⟨m, hm, he⟩
    exact List.mem_singleton.mp hmem
  rw [sendRemote, if_neg (Nat.not_lt.mpr hsmall), List.forall_mem_singleton] at hwrite
  cases hwrite

/-- In every run, no message to another harbor whose connection is closed is reported, and none that
waits for a name there is dropped in the way that is meant for it. -/
theorem dead_harbor_unreported (alive : UInt32 → Bool) (own : UInt8) (slave : UInt32)
    {es : List HarborEvent} (hrun : Run (Watch.Step alive) (Watch.init own slave) es w)
    {id : UInt8} (hclosed : w.closed id) (hid : id ≠ own) :
    (∀ source destination type session msg, harborOf destination = id →
      ¬Reported w.harbor source destination type session msg) ∧
      ∀ handle queue, harborOf handle = id →
        (∃ m ∈ queue, m.buffer.length + HEADER_COOKIE_LENGTH ≤ UINT32_MAX) →
        ¬Dropped w.harbor handle queue := by
  have hinv : w.Inv own := hrun.invariant (Watch.Inv.init own slave) fun _ _ _ hinv hstep =>
    hinv.step hstep
  have hfd := hinv.closed id hclosed
  refine ⟨?_, ?_⟩
  · rintro source destination type session msg rfl
    exact not_reported (by rwa [hinv.own]) hfd
  · rintro handle queue rfl ⟨m, hm, hsmall⟩
    exact not_dropped hfd hm hsmall

theorem pushLoop_refused (hs : (h.s id).status = .handshake) {remote : UInt8} (hne : remote ≠ id)
    (buffer : List UInt8) :
    pushLoop alive h id (remote :: buffer) =
      some ((closeHarbor h id).1, .error :: (closeHarbor h id).2) := by
  rw [pushLoop.eq_def]
  split
  · exact if_pos hne
  all_goals simp_all

theorem refused_run : ∃ w,
    Run (Watch.Step fun _ => true) (Watch.init 1 0x1000001)
      [.event (.connect false 7 2), .event (.data 7 [3])] w ∧ w.closed 2 ∧
      w.harbor.id = 1 ∧ (w.harbor.s 2).fd = 7 := by
  let h := setSlave (harborInit 1 0x1000001) 2 ⟨7, none, .handshake⟩
  have hslave : h.s 2 = ⟨7, none, .handshake⟩ := by simp only [h, setSlave, Function.update_self]
  have hconnect : (HarborEvent.event (.connect false 7 2)).exec (fun _ => true)
      (harborInit 1 0x1000001) = some (h, [.start 7, .write 7 [1]]) := by
    rw [HarborEvent.exec, exec, connect, if_neg (by decide), if_neg (by decide)]
    rfl
  have hexec : (HarborEvent.event (.data 7 [3])).exec (fun _ => true) h =
      some ((closeHarbor h 2).1, .error :: (closeHarbor h 2).2) := by
    have hfind : findSlave h 7 = some 2 := by decide
    rw [HarborEvent.exec, exec, pushSocketData, hfind]
    exact pushLoop_refused (by rw [hslave]) (by decide) []
  have hnonzero (e : Event) : HarborEvent.event e ≠ .closed 0 := fun h => by cases h
  refine ⟨_, ((Run.nil _).snoc ⟨hnonzero _, hconnect⟩).snoc ⟨hnonzero _, hexec⟩,
    ⟨.inr (.inl ?_), ?_⟩, rfl, ?_⟩
  · exact closeHarbor_status h 2
  · exact fun hconnects => hconnects
  · rw [Watch.next]
    simp only [closeHarbor, setSlave, Function.update_self, hslave]

/-- A message to the harbor that was refused. -/
theorem dead_harbor_unreported_two : ∃ w : Watch,
    w.closed 2 ∧ ¬Reported w.harbor 0x1000005 0x2000009 1 1 [104, 105] := by
  obtain ⟨w, hrun, hclosed, -⟩ := refused_run
  have hall := dead_harbor_unreported (fun _ => true) 1 0x1000001 hrun hclosed (by decide)
  exact ⟨w, hclosed, hall.1 0x1000005 0x2000009 1 1 [104, 105] (by decide)⟩

/-- It goes to the socket that was closed. -/
theorem dead_harbor_written :
    ¬∀ (alive : UInt32 → Bool) (own : UInt8) (slave : UInt32) (es : List HarborEvent) (w : Watch),
      Run (Watch.Step alive) (Watch.init own slave) es w → ∀ id, w.closed id → id ≠ own →
      ∀ source destination type session msg, harborOf destination = id →
        Reported w.harbor source destination type session msg := by
  intro h
  obtain ⟨w, hrun, hclosed, hid, hfd⟩ := refused_run
  have hharbor : harborOf 0x2000009 = 2 := by decide
  refine not_reported ?_ ?_
    (h _ _ _ _ w hrun 2 hclosed (by decide) 0x1000005 0x2000009 1 1 [104, 105] hharbor)
  · rw [hharbor, hid]
    decide
  · rw [hharbor, hfd]
    decide

end XsServer.Remote
