import XsServer.Remote.Stream
import XsServer.Lib.Run

/-! What the harbor service is for: a letter waits until the handle of its name is known, and then
goes to the harbor of that handle.  Over it the runs of the service, and the letters that it
delivers.  The letters that wait for a name are lost where their harbor is not connected when the
name is known: they lose the handle there, and during a handshake they go before it. -/

namespace XsServer.Remote

open Lib

section Mail

inductive Address
  | handle (handle : UInt32)
  | name (name : Name)
  deriving DecidableEq

structure Letter where
  source : UInt32
  address : Address
  type : UInt8
  session : Int32
  msg : List UInt8

/-- The handles of the names, the letters to names without a handle, and the others with the
handle that they go to, in the order in which it was known. -/
structure Mail where
  names : Name → UInt32
  waiting : List Letter
  resolved : List (UInt32 × Letter)

def Mail.init : Mail := ⟨fun _ => 0, [], []⟩

def Mail.send (m : Mail) (l : Letter) : Mail :=
  match l.address with
  | .handle handle => { m with resolved := m.resolved ++ [(handle, l)] }
  | .name name =>
    if m.names name = 0 then { m with waiting := m.waiting ++ [l] }
    else { m with resolved := m.resolved ++ [(m.names name, l)] }

def lettersTo (a : Address) (ls : List Letter) : List Letter := ls.filter (·.address = a)

def Mail.bind (m : Mail) (name : Name) (handle : UInt32) : Mail where
  names := Function.update m.names name handle
  waiting := m.waiting.filter (·.address ≠ .name name)
  resolved := m.resolved ++ (lettersTo (.name name) m.waiting).map (handle, ·)

/-- Every letter that was sent is there once; the letters to one address are in their order, and
only those to names without a handle wait. -/
structure Mail.Keeps (m : Mail) (sent : List Letter) : Prop where
  once : ∀ a, lettersTo a (m.resolved.map Prod.snd) ++ lettersTo a m.waiting = lettersTo a sent
  unknown : ∀ l ∈ m.waiting, ∃ name, l.address = .name name ∧ m.names name = 0

variable {m : Mail} {sent : List Letter} {a : Address} {l : Letter} {name : Name}
  {handle : UInt32}

@[simp] theorem lettersTo_append (a : Address) (ls ls' : List Letter) :
    lettersTo a (ls ++ ls') = lettersTo a ls ++ lettersTo a ls' :=
  List.filter_append ..

theorem lettersTo_singleton (a : Address) (l : Letter) :
    lettersTo a [l] = if l.address = a then [l] else [] := by
  by_cases h : l.address = a <;> simp [lettersTo, h]

theorem keeps_init : Mail.init.Keeps [] :=
  ⟨fun _ => rfl, fun _ h => nomatch h⟩

theorem Mail.Keeps.none_waiting (h : m.Keeps sent)
    (ha : ∀ name, a = .name name → m.names name ≠ 0) :
    lettersTo a m.waiting = [] := by
  refine List.filter_eq_nil_iff.mpr fun l hl heq => ?_
  obtain ⟨name, haddr, hzero⟩ := h.unknown l hl
  exact ha name ((of_decide_eq_true heq).symm.trans haddr) hzero

theorem Mail.Keeps.deliver (h : m.Keeps sent)
    (hl : ∀ name, l.address = .name name → m.names name ≠ 0) (handle : UInt32) :
    Mail.Keeps { m with resolved := m.resolved ++ [(handle, l)] } (sent ++ [l]) := by
  refine ⟨fun a => ?_, h.unknown⟩
  simp only [List.map_append, List.map_singleton, lettersTo_append, ← h.once a]
  rw [lettersTo_singleton]
  by_cases haddr : l.address = a
  · have hnone : lettersTo a m.waiting = [] := h.none_waiting fun name hname =>
      hl name (haddr.trans hname)
    rw [hnone, List.append_nil, List.append_nil]
  · rw [if_neg haddr, List.append_nil, List.append_nil]

theorem Mail.Keeps.send (h : m.Keeps sent) (l : Letter) : (m.send l).Keeps (sent ++ [l]) := by
  unfold Mail.send
  split
  · rename_i handle haddr
    apply h.deliver
    intro name hname
    rw [haddr] at hname
    cases hname
  · rename_i name haddr
    split
    · rename_i hzero
      refine ⟨fun a => ?_, fun l' hl' => ?_⟩
      · rw [lettersTo_append, lettersTo_append, ← h.once a, List.append_assoc]
      · rcases List.mem_append.mp hl' with hl' | hl'
        · exact h.unknown l' hl'
        · rw [List.mem_singleton.mp hl']
          exact ⟨name, haddr, hzero⟩
    · rename_i hne
      apply h.deliver
      intro name' hname
      rw [haddr] at hname
      cases hname
      exact hne

theorem lettersTo_bind (m : Mail) (name : Name) (handle : UInt32) (a : Address) :
    lettersTo a (m.bind name handle).waiting =
      if a = .name name then [] else lettersTo a m.waiting := by
  rw [Mail.bind, lettersTo, List.filter_filter]
  by_cases ha : a = .name name
  · subst ha
    rw [if_pos rfl]
    refine List.filter_eq_nil_iff.mpr fun l _ h => ?_
    simp at h
  · rw [if_neg ha, lettersTo]
    refine List.filter_congr fun l _ => ?_
    by_cases haddr : l.address = a
    · simp [haddr, ha]
    · simp [haddr]

theorem Mail.Keeps.bind (h : m.Keeps sent) (name : Name) (handle : UInt32) :
    (m.bind name handle).Keeps sent := by
  refine ⟨fun a => ?_, fun l hl => ?_⟩
  · have hmap : (m.bind name handle).resolved.map Prod.snd =
        m.resolved.map Prod.snd ++ lettersTo (.name name) m.waiting := by
      rw [Mail.bind, List.map_append, List.map_map]
      exact congrArg _ (List.map_id _)
    rw [← h.once a, hmap, lettersTo_append, List.append_assoc, lettersTo_bind]
    congr 1
    by_cases ha : a = .name name
    · rw [ha, if_pos rfl, List.append_nil]
      exact List.filter_filter.trans (List.filter_congr fun _ _ => Bool.and_self _)
    · have hother : lettersTo a (lettersTo (.name name) m.waiting) = [] := by
        refine List.filter_eq_nil_iff.mpr fun l hl heq => ha ?_
        have hname := of_decide_eq_true (List.mem_filter.mp hl).2
        exact (of_decide_eq_true heq).symm.trans hname
      rw [hother, List.nil_append, if_neg ha]
  · obtain ⟨hl, hne⟩ := List.mem_filter.mp hl
    obtain ⟨name', haddr, hzero⟩ := h.unknown l hl
    refine ⟨name', haddr, ?_⟩
    have hname : name' ≠ name := fun heq => of_decide_eq_true hne (haddr.trans (by rw [heq]))
    exact (Function.update_of_ne hname _ _).trans hzero

end Mail

inductive Event
  | send (l : Letter)
  | name (name : Name) (handle : UInt32)
  | connect (accept : Bool) (fd : Int32) (id : UInt8)
  | data (fd : Int32) (buffer : List UInt8)

/-- What `mainloop` and `harbor_command` call. -/
def exec (alive : UInt32 → Bool) (h : Harbor) : Event → Option (Harbor × List Effect)
  | .send l =>
    match l.address with
    | .handle handle => remoteSendHandle h l.source handle l.type l.session l.msg
    | .name name => remoteSendName h l.source name l.type l.session l.msg
  | .name name handle => updateName h name handle
  | .connect accept fd id => some (connect h accept fd id)
  | .data fd buffer => pushSocketData alive h fd buffer

/-- A message to a service of this harbor.  Those of the harbor service itself have no source. -/
def Effect.isLetter : Effect → Bool
  | .send source _ _ _ _ => source ≠ 0
  | _ => false

/-- The harbor, all that it did, the letters that it delivered itself, the letters as they should
be, and those that were sent. -/
structure World where
  harbor : Harbor
  effects : List Effect
  delivered : List Effect
  mail : Mail
  sent : List Letter

def World.init (id : UInt8) (slave : UInt32) : World :=
  ⟨harborInit id slave, [], [], .init, []⟩

/-- What comes in by a socket is for the services of this harbor, and no letter. -/
def World.next (w : World) (e : Event) (h : Harbor) (es : List Effect) : World where
  harbor := h
  effects := w.effects ++ es
  delivered := match e with
    | .data _ _ => w.delivered
    | _ => w.delivered ++ es.filter Effect.isLetter
  mail := match e with
    | .send l => w.mail.send l
    | .name name handle => w.mail.bind name handle
    | _ => w.mail
  sent := match e with
    | .send l => w.sent ++ [l]
    | _ => w.sent

/-- Senders and names have handles, and every connection to another harbor a socket of its own. -/
def World.Allowed (w : World) : Event → Prop
  | .send l => l.source ≠ 0 ∧ l.address ≠ .handle 0
  | .name _ handle => handle ≠ 0
  | .connect _ fd id => id ≠ w.harbor.id ∧ ∀ j, (w.harbor.s j).fd ≠ fd
  | .data _ _ => True

/-- No harbor goes down. -/
inductive World.Step (alive : UInt32 → Bool) : World → Event → World → Prop
  | mk {w : World} {e : Event} {h : Harbor} {es : List Effect} : w.Allowed e →
      exec alive w.harbor e = some (h, es) → (∀ id, (h.s id).status ≠ .down) →
      Step alive w e (w.next e h es)

def Status.Up : Status → Prop
  | .header _ | .content _ _ => True
  | _ => False

def writes (fd : Int32) (es : List Effect) : List (List UInt8) :=
  es.filterMap fun
    | .write fd' bytes => if fd' = fd then some bytes else none
    | _ => none

def Letter.packet (handle : UInt32) (l : Letter) : Packet :=
  ⟨l.source, handle, l.type, l.session, l.msg⟩

def Packet.bytes (p : Packet) : List UInt8 := Bytes.be 4 p.body.length ++ p.body

def Mail.packets (m : Mail) (id : UInt8) : List Packet :=
  (m.resolved.filter fun r => harborOf r.1 = id).map fun r => r.2.packet r.1

/-- Every letter is kept once and in order; the letters to a harbor whose handshake is complete have
all been written, after the own id, and none before; those to services of this harbor have been
sent to them. -/
structure World.Delivers (w : World) : Prop where
  keeps : w.mail.Keeps w.sent
  names : ∀ name, (w.harbor.map name).value = w.mail.names name
  remote : ∀ id ≠ w.harbor.id, (w.harbor.s id).fd ≠ 0 →
    writes (w.harbor.s id).fd w.effects =
      [w.harbor.id] :: if (w.harbor.s id).status = .handshake then []
        else (w.mail.packets id).map Packet.bytes
  own : w.delivered = (w.mail.packets w.harbor.id).map fun p =>
    .send p.source p.destination p.type p.session p.msg

/-- When a name with letters gets its handle, the harbor is this one or its handshake is complete;
and a letter is not too large for a packet. -/
def World.Prompt (w : World) : Event → Prop
  | .send l => l.msg.length + HEADER_COOKIE_LENGTH ≤ UINT32_MAX
  | .name name handle => (w.harbor.map name).queue ≠ none →
      harborOf handle = w.harbor.id ∨ (w.harbor.s (harborOf handle)).status.Up
  | _ => True

variable {alive : UInt32 → Bool} {h h' : Harbor} {id : UInt8} {fd : Int32} {es : List Effect}
  {w w' : World} {e : Event} {l : Letter}

/-! ### What comes in -/

theorem Status.Up.ne_handshake {status : Status} (h : status.Up) : status ≠ .handshake := by
  rintro rfl
  cases h

theorem Status.Up.ne_down {status : Status} (h : status.Up) : status ≠ .down := by
  rintro rfl
  cases h

@[simp] theorem writes_append (fd : Int32) (es es' : List Effect) :
    writes fd (es ++ es') = writes fd es ++ writes fd es' :=
  List.filterMap_append ..

theorem writes_sendLocal (fd : Int32) (alive : UInt32 → Bool) (source destination : UInt32)
    (type : UInt8) (session : Int32) (msg : List UInt8) :
    writes fd (sendLocal alive source destination type session msg) = [] := by
  unfold sendLocal
  split
  · rfl
  · split <;> rfl

/-- Only the status changes, and nothing is written. -/
def Reads (h : Harbor) (id : UInt8) (h' : Harbor) (es : List Effect) : Prop :=
  (∃ st : Status, st.Up ∧ h' = setStatus h id st) ∧ ∀ fd, writes fd es = []

theorem setStatus_setStatus (h : Harbor) (id : UInt8) (st st' : Status) :
    setStatus (setStatus h id st) id st' = setStatus h id st' := by
  simp only [setStatus, setSlave, Function.update_self, Function.update_idem]

theorem Reads.after {st : Status} (hr : Reads (setStatus h id st) id h' es) : Reads h id h' es := by
  obtain ⟨⟨st', hup, rfl⟩, hes⟩ := hr
  exact ⟨⟨st', hup, setStatus_setStatus h id st st'⟩, hes⟩

theorem pushLoop_up (alive : UInt32 → Bool) (h : Harbor) (id : UInt8) (buffer : List UInt8) :
    ∀ h' es, (h.s id).status.Up → pushLoop alive h id buffer = some (h', es) →
      (h'.s id).status ≠ .down → Reads h id h' es := by
  fun_induction pushLoop alive h id buffer with
  | case1 h hs | case2 h hs | case3 h hs => intro h' es hup; rw [hs] at hup; cases hup
  | case4 =>
    intro h' es _ hrun _
    obtain ⟨rfl, rfl⟩ := Prod.mk.inj (Option.some.inj hrun)
    exact ⟨⟨.header _, trivial, rfl⟩, fun _ => rfl⟩
  | case5 =>
    intro h' es _ hrun hdown
    obtain ⟨rfl, -⟩ := Prod.mk.inj (Option.some.inj hrun)
    exact absurd (closeHarbor_status ..) hdown
  | case6 =>
    intro h' es _ hrun _
    obtain ⟨rfl, rfl⟩ := Prod.mk.inj (Option.some.inj hrun)
    exact ⟨⟨.content _ _, trivial, rfl⟩, fun _ => rfl⟩
  | case7 h buffer size hs need _ bytes _ h1 _ ih =>
    intro h' es _ hrun hdown
    exact (ih h' es (by rw [setStatus_status]; trivial) hrun hdown).after
  | case8 =>
    intro h' es _ hrun _
    obtain ⟨rfl, rfl⟩ := Prod.mk.inj (Option.some.inj hrun)
    exact ⟨⟨.content _ _, trivial, rfl⟩, fun _ => rfl⟩
  | case9 h buffer length recv hs need _ ih =>
    intro h' es _ hrun hdown
    obtain ⟨es1, hforward, hrun⟩ := Option.bind_eq_some_iff.mp hrun
    have hquiet : ∀ fd, writes fd es1 = [] := by
      intro fd
      unfold forwardLocalMessage at hforward
      split at hforward
      · cases hforward
      · rw [← Option.some.inj hforward]
        exact writes_sendLocal ..
    simp only at hrun
    split at hrun
    · obtain ⟨rfl, rfl⟩ := Prod.mk.inj (Option.some.inj hrun)
      exact ⟨⟨.header _, trivial, rfl⟩, hquiet⟩
    · obtain ⟨⟨h2, es2⟩, hloop, hrun⟩ := Option.bind_eq_some_iff.mp hrun
      obtain ⟨rfl, rfl⟩ := Prod.mk.inj (Option.some.inj hrun)
      have hreads := (ih h2 es2 (by rw [setStatus_status]; trivial) hloop hdown).after
      refine ⟨hreads.1, fun fd => ?_⟩
      rw [writes_append, hquiet, hreads.2]
      rfl
  | case10 h buffer hhandshake hheader hcontent =>
    intro h' es hup
    cases hs : (h.s id).status with
    | header size => exact absurd hs (hheader size)
    | content length recv => exact absurd hs (hcontent length recv)
    | _ => rw [hs] at hup; cases hup

end XsServer.Remote
