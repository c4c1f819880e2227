import XsServer.SocketServer.Packets

/-! The bytes that were written to the file of a connection are those of whole packets, as long as
no user object goes to the low list. -/

namespace XsServer.SocketServer

open Lib

variable {T : Type}

/-! ### Sockets -/

/-- What is left of a packet begins where the pointer is. -/
def WriteBuffer.Good (wb : WriteBuffer (Packet T)) : Prop :=
  wb.buffer ≤ wb.ptr ∧ wb.data = wb.tag.data.drop (wb.ptr - wb.buffer)

/-- With what is still to be written, the file has the packets whole. -/
structure Socket.Intact (s : Socket (Packet T)) : Prop where
  bytes : s.fd ++ unsent s.pending = s.order.flatMap (·.data)
  low : ∀ wb ∈ s.low, wb.Good

theorem WriteBuffer.Good.advance {wb : WriteBuffer (Packet T)} (h : wb.Good) (n : Nat) :
    (wb.advance n).Good := by
  obtain ⟨hle, hdata⟩ := h
  refine ⟨Nat.le_add_right_of_le hle, ?_⟩
  simp only [WriteBuffer.advance, hdata, List.drop_drop]
  congr 1
  omega

theorem WriteBuffer.Good.whole {wb : WriteBuffer (Packet T)} (h : wb.Good)
    (hptr : wb.ptr = wb.buffer) : wb.data = wb.tag.data := by
  rw [h.2, hptr, Nat.sub_self, List.drop_zero]

theorem unsent_whole {l : List (WriteBuffer (Packet T))} (h : ∀ wb ∈ l, wb.data = wb.tag.data) :
    unsent l = (tags l).flatMap (·.data) := by
  rw [unsent, tags, List.flatMap_map]
  exact List.flatMap_congr h

variable {s t : Socket (Packet T)}

theorem Socket.Intact.congr (h : s.Intact) (hfd : t.fd = s.fd) (hdone : t.done = s.done)
    (hpending : t.pending = s.pending) (hlow : t.low = s.low) : t.Intact where
  bytes := by rw [hfd, hpending, Socket.order, hdone, hpending, h.bytes, Socket.order]
  low := by
    rw [hlow]
    exact h.low

theorem Socket.Intact.sent (h : s.Intact) (hsent : Sent s t) : t.Intact where
  bytes := by
    obtain ⟨written, hfd, hunsent⟩ := hsent.bytes
    rw [hfd, List.append_assoc, ← hunsent, hsent.order, h.bytes]
  low wb hwb := by
    obtain ⟨wb', hmem, n, rfl⟩ := hsent.low wb hwb
    exact (h.low wb' hmem).advance n

theorem Socket.Intact.high (h : s.Intact) (hplain : ∀ wb ∈ s.low, wb.ptr = wb.buffer)
    {request : Request (Packet T)} (hdata : request.data = request.tag.data) :
    (appendSendbuffer s request).Intact where
  bytes := by
    have hlow := unsent_whole fun wb hwb => (h.low wb hwb).whole (hplain wb hwb)
    have hbytes := h.bytes
    simp only [Socket.order, Socket.pending, tags_append, unsent_append, List.flatMap_append, hlow,
      ← List.append_assoc, List.append_left_inj] at hbytes
    simp only [Socket.order, Socket.pending, appendSendbuffer, Socket.direct, tags_append,
      unsent_append, List.flatMap_append, hlow, ← List.append_assoc] at hbytes ⊢
    rw [hbytes]
    simp only [Request.toBuffer, unsent_cons, unsent_nil, tags_cons, tags_nil, List.append_nil,
      List.flatMap_cons, List.flatMap_nil, hdata]
  low := h.low

theorem Socket.Intact.toLow (h : s.Intact) {request : Request (Packet T)}
    (hdata : request.data = request.tag.data) (hptr : request.ptr = request.buffer) :
    (appendSendbufferLow s request).Intact where
  bytes := by
    have hbytes := h.bytes
    simp only [Socket.order, Socket.pending, tags_append, unsent_append, List.flatMap_append,
      ← List.append_assoc] at hbytes
    simp only [Socket.order, Socket.pending, appendSendbufferLow, Socket.direct, tags_append,
      unsent_append, List.flatMap_append, ← List.append_assoc] at hbytes ⊢
    rw [hbytes]
    simp only [Request.toBuffer, unsent_cons, unsent_nil, tags_cons, tags_nil, List.append_nil,
      List.flatMap_cons, List.flatMap_nil, hdata]
  low wb hwb := by
    rcases List.mem_append.mp hwb with hwb | hwb
    · exact h.low wb hwb
    · rw [List.mem_singleton.mp hwb]
      refine ⟨hptr.ge, ?_⟩
      change request.data = request.tag.data.drop (request.ptr - request.buffer)
      rw [hptr, Nat.sub_self, List.drop_zero, hdata]

theorem Socket.Intact.write (h : s.Intact) {pipe : List (Package T)} {thread : T}
    (hclear : Clear s pipe thread) {request : Request (Packet T)}
    (hdata : request.data = request.tag.data) (n : Nat) : (directWrite s request n).Intact := by
  have hrest := unsent_whole hclear.whole
  have hfd : s.fd = s.done.flatMap (·.data) := by
    have hbytes := h.bytes
    rw [Socket.order, pending_of_dw hclear.dw, List.flatMap_append, hrest] at hbytes
    exact List.append_cancel_right hbytes
  have horder := directWrite_order hclear.dw request n
  have hbytes : (directWrite s request n).fd ++ unsent (directWrite s request n).pending =
      s.fd ++ (request.data ++ unsent (s.high ++ s.low)) := by
    unfold directWrite
    split
    · change s.fd ++ request.data.take n ++ (request.data.drop n ++ unsent (s.high ++ s.low)) = _
      rw [List.append_assoc, ← List.append_assoc (request.data.take n), List.take_append_drop]
    · rw [pending_of_dw (by exact hclear.dw), List.append_assoc]
  have hlow : (directWrite s request n).low = s.low := by
    unfold directWrite
    split
    · rfl
    · rfl
  constructor
  · rw [hbytes, horder, List.flatMap_append, List.flatMap_cons, ← hrest, hfd, hdata]
  · rw [hlow]
    exact h.low

variable [DecidableEq T]

theorem Orderly.delivers {pipe : List (Package T)} {log : List (Packet T)} (h : Orderly s pipe log)
    (htype : s.type ≠ .invalid) (hintact : s.Intact) : Delivers log s.order s.fd where
  bytes := ⟨unsent s.pending, hintact.bytes⟩
  sent _ hp := sent_of_sublist (h.inOrder' htype) hp
  once := nodup_of_sublist h.nodup (h.inOrder' htype)
  inOrder := h.inOrder' htype
  direct := h.direct htype

/-! ### Connections -/

/-- What goes to the low list begins at its pointer: it is no user object. -/
def Connection.LowPlain (w : Connection T) : Action T → Prop
  | .command _ => ∀ request pipe, w.pipe = .send request true :: pipe →
      w.s.type = .connecting ∨ w.s.type = .connected ∧ ¬ sendBufferEmpty w.s →
      request.ptr = request.buffer
  | _ => True

structure Connection.Whole (w : Connection T) : Prop where
  failed : w.failed = none
  plain : ∀ wb ∈ w.s.low, wb.ptr = wb.buffer
  intact : w.s.type ≠ .invalid → w.s.Intact
  closed : w.s.type = .invalid → ∃ order, Delivers w.log order w.s.fd

variable {w w' : Connection T}

theorem Connection.Whole.start (h : w.Start) : w.Whole := by
  obtain ⟨-, -, -, htype, hhigh, hlow, -, hdw, hfd, hdone, -, -, -, -, hfailed, -, -, -, -⟩ := h
  have hempty : ∀ wb ∈ w.s.low, False := fun wb hwb => by
    rw [hlow] at hwb
    exact absurd hwb List.not_mem_nil
  refine ⟨hfailed, fun wb hwb => (hempty wb hwb).elim,
    fun _ => ⟨?_, fun wb hwb => (hempty wb hwb).elim⟩, fun hbad => ?_⟩
  · rw [Socket.order, pending_of_dw hdw, hhigh, hlow, hfd, hdone]
    rfl
  · rcases htype with ⟨htype, -⟩ | htype
    · rw [htype] at hbad
      exact SocketType.noConfusion hbad
    · rw [htype] at hbad
      exact SocketType.noConfusion hbad

theorem Connection.Whole.same (h : w.Whole) (hfailed : w'.failed = w.failed)
    (htype : w'.s.type = .invalid ↔ w.s.type = .invalid) (hfd : w'.s.fd = w.s.fd)
    (hdone : w'.s.done = w.s.done) (hpending : w'.s.pending = w.s.pending)
    (hlow : w'.s.low = w.s.low) (hlog : w'.log = w.log ∨ ∃ p, w'.log = w.log ++ [p]) :
    w'.Whole where
  failed := hfailed.trans h.failed
  plain := by
    rw [hlow]
    exact h.plain
  intact ht := (h.intact fun hbad => ht (htype.mpr hbad)).congr hfd hdone hpending hlow
  closed ht := by
    obtain ⟨order, horder⟩ := h.closed (htype.mp ht)
    rw [hfd]
    rcases hlog with hlog | ⟨p, hlog⟩
    · exact ⟨order, hlog ▸ horder⟩
    · exact ⟨order, hlog ▸ horder.mono p⟩

theorem Connection.Whole.force (h : w.Whole) (hinv : w.Inv) (hfailed : w'.failed = w.failed)
    (hs : w'.s = forceClose w.s) (hlog : w'.log = w.log) : w'.Whole where
  failed := hfailed.trans h.failed
  plain := by
    rw [hs]
    exact fun wb hwb => absurd hwb List.not_mem_nil
  intact ht := by
    rw [hs] at ht
    exact absurd rfl ht
  closed _ := by
    rw [hs, hlog]
    by_cases ht : w.s.type = .invalid
    · exact h.closed ht
    · exact ⟨_, hinv.orderly.delivers ht (h.intact ht)⟩

theorem Connection.Whole.flush (h : w.Whole) (hinv : w.Inv) (htype : w.s.type ≠ .invalid)
    {rs : List WriteResult} {s : Socket (Packet T)} {r : Option Report}
    (hs : sendBuffer w.s w.lock.isSome rs = .ok (s, r)) :
    (∀ wb ∈ s.low, wb.ptr = wb.buffer) ∧ (s.type ≠ .invalid → s.Intact) ∧
      (s.type = .invalid → ∃ order, Delivers w.log order s.fd) ∧
      (r ≠ some .close → s.type ≠ .invalid) := by
  have hlow : ∀ t : Socket (Packet T), sendBufferEmpty t → ∀ wb ∈ t.low, wb.ptr = wb.buffer :=
    fun t ht wb hwb => by
      rw [ht.2] at hwb
      exact absurd hwb List.not_mem_nil
  have hclosed : ∀ t, Sent w.s t → ∃ order, Delivers w.log order (forceClose t).fd := fun t hsent =>
    ⟨_, (hinv.orderly.written htype hsent).delivers (hsent.type ▸ htype)
     ((h.intact htype).sent hsent)⟩
  cases hlock : w.lock with
  | some t =>
    rw [hlock] at hs
    cases hs
    exact ⟨h.plain, h.intact, h.closed, fun _ => htype⟩
  | none =>
    rw [hlock] at hs
    have hflush := sendBuffer_flush (hinv.orderly.size htype) rs
    change Flush w.s rs (sendBuffer w.s (none : Option T).isSome rs) at hflush
    rw [hs] at hflush
    cases hflush with
    | failed hsent _ | closed hsent _ _ =>
      exact ⟨fun wb hwb => absurd hwb List.not_mem_nil, fun ht => absurd rfl ht,
        fun _ => hclosed _ hsent, fun hr => absurd rfl hr⟩
    | drained hsent hempty _ _ _ =>
      exact ⟨hlow _ hempty, fun _ => (h.intact htype).sent hsent,
        fun ht => absurd (hsent.type.symm.trans ht) htype, fun _ => hsent.type ▸ htype⟩
    | rest hsent _ _ hptr _ =>
      exact ⟨hptr h.plain, fun _ => (h.intact htype).sent hsent,
        fun ht => absurd (hsent.type.symm.trans ht) htype, fun _ => hsent.type ▸ htype⟩

theorem Connection.Whole.sendBuffer_ok (h : w.Whole) (hinv : w.Inv) (htype : w.s.type ≠ .invalid)
    {rs : List WriteResult} {a : Assertion} (ha : sendBuffer w.s w.lock.isSome rs = .error a) :
    False := by
  obtain ⟨-, wb, hwb, hbad⟩ := sendBuffer_error hinv htype ha
  exact hbad (h.plain wb hwb)

theorem Connection.Whole.taken (h : w.Whole) (hinv : w.Inv) {request : Request (Packet T)}
    {low : Bool} {pipe : List (Package T)} {rs : List WriteResult} {s : Socket (Packet T)}
    (hpipe : w.pipe = .send request low :: pipe) (hallows : w.LowPlain (.command rs))
    (hs : decSendingRef (sendSocket w.s request low).1 request.id = .ok s) {reports : List Report} :
    Connection.Whole { w with s := s, pipe := pipe, reports := reports } := by
  rw [hinv.decSendingRef hpipe] at hs
  cases hs
  obtain ⟨hid, hdata, -, -⟩ := hinv.requests request low (by
    rw [hpipe]
    exact List.mem_cons_self)
  have hcase := sendSocket_case low (hinv.id.trans hid.symm) hinv.protocol hinv.type
  generalize sendSocket w.s request low = x at hcase
  cases hcase with
  | dropped _ => exact h.same rfl Iff.rfl rfl rfl rfl rfl (.inl rfl)
  | first htype hempty _ =>
    have hopen : w.s.type ≠ .invalid := by
      rw [htype]
      decide
    exact ⟨h.failed, h.plain, fun _ => ((h.intact hopen).high h.plain hdata).congr rfl rfl rfl rfl,
      fun hbad => absurd hbad hopen⟩
  | high htype _ _ _ =>
    have hopen : w.s.type ≠ .invalid := by
      rcases htype with htype | htype
      · rw [htype]
        decide
      · rw [htype]
        decide
    exact ⟨h.failed, h.plain, fun _ => ((h.intact hopen).high h.plain hdata).congr rfl rfl rfl rfl,
      fun hbad => absurd hbad hopen⟩
  | low htype hne hlow _ =>
    subst hlow
    have hopen : w.s.type ≠ .invalid := by
      rcases htype with htype | htype
      · rw [htype]
        decide
      · rw [htype]
        decide
    have hptr := hallows request pipe hpipe
      (htype.imp_right fun hc => ⟨hc, fun hempty => hne ⟨hempty, hc⟩⟩)
    refine ⟨h.failed, fun wb hwb => ?_,
      fun _ => ((h.intact hopen).toLow hdata hptr).congr rfl rfl rfl rfl,
        fun hbad => absurd hbad hopen⟩
    rcases List.mem_append.mp hwb with hwb | hwb
    · exact h.plain wb hwb
    · rw [List.mem_singleton.mp hwb]
      exact hptr

theorem Connection.Whole.step {a : Action T} (h : w.Whole) (hinv : w.Inv) (hallows : w.LowPlain a)
    (hstep : w.Step a w') : w'.Whole := by
  cases hstep with
  | send _ _ _ _ | check _ _ | lock _ _ _ | busy _ _ _ | confirm _ _ _ | unlock _ _ _ =>
    exact h.same rfl Iff.rfl rfl rfl rfl rfl (.inl rfl)
  | @write t p n _ hplace _ =>
    have hclear := hinv.writing t p hplace
    have htype := (directWrite_same w.s (w.request t p false true) n).2
    refine ⟨h.failed, ?_, fun _ => (h.intact hclear.type).write hclear rfl n,
      fun hbad => absurd (htype.symm.trans hbad) hclear.type⟩
    dsimp only
    unfold directWrite
    split
    · exact h.plain
    · exact h.plain
  | sendLow _ _ _ _ => exact h.same rfl Iff.rfl rfl rfl rfl rfl (.inl rfl)
  | count _ _ hs =>
    unfold incSendingRef at hs
    rw [if_pos hinv.tag] at hs
    split at hs
    · cases hs
    · cases hs
      exact h.same rfl Iff.rfl rfl rfl rfl rfl (.inl rfl)
  | push _ _ => exact h.same rfl Iff.rfl rfl rfl rfl rfl (.inr ⟨_, rfl⟩)
  | close _ => exact h.same rfl Iff.rfl rfl rfl rfl rfl (.inl rfl)
  | taken _ _ hpipe hs => exact h.taken hinv hpipe hallows hs
  | notTaken _ _ hpipe ha =>
    rw [hinv.decSendingRef hpipe] at ha
    cases ha
  | @closed pipe s r force rs _ _ hpipe hs =>
    have hcase := closeSocket_case w.s w.id w.lock.isSome rs
    rw [hs] at hcase
    cases hcase with
    | other _ | nomore _ _ => exact h.same rfl Iff.rfl rfl rfl rfl rfl (.inl rfl)
    | closed hid hsend | drained hid hsend _ _ =>
      obtain ⟨hplain, hintact, hclosed, -⟩ := h.flush hinv (not_or.mp hid).1 hsend
      exact ⟨h.failed, hplain, hintact, hclosed⟩
    | half hid hsend hr _ =>
      obtain ⟨hplain, hintact, -, hopen⟩ := h.flush hinv (not_or.mp hid).1 hsend
      exact ⟨h.failed, hplain, fun _ => (hintact (hopen hr)).congr rfl rfl rfl rfl,
        fun hbad => SocketType.noConfusion hbad⟩
  | @notClosed pipe a rs _ _ hpipe ha =>
    have hcase := closeSocket_case w.s w.id w.lock.isSome rs
    rw [ha] at hcase
    cases hcase with
    | failed hid hsend => exact (h.sendBuffer_ok hinv (not_or.mp hid).1 hsend).elim
  | event _ _ htype hs =>
    have hopen : w.s.type ≠ .invalid := by
      rcases htype with htype | htype
      · rw [htype]
        decide
      · rw [htype]
        decide
    obtain ⟨hplain, hintact, hclosed, -⟩ := h.flush hinv hopen hs
    exact ⟨h.failed, hplain, hintact, hclosed⟩
  | notWritten _ _ htype ha =>
    refine (h.sendBuffer_ok hinv ?_ ha).elim
    rcases htype with htype | htype
    · rw [htype]
      decide
    · rw [htype]
      decide
  | connected _ _ htype =>
    refine h.same rfl (iff_of_false (fun hbad => SocketType.noConfusion hbad) ?_) rfl rfl rfl rfl
      (.inl rfl)
    rw [htype]
    decide
  | force _ _ _ => exact h.force hinv rfl rfl rfl

/-- In every run in which no user object goes to the low list, no assertion fails, and what is in
the file is the beginning of whole packets, in their order; until the socket is told to close, no
packet is lost, and `wb_size` is what is left in the lists. -/
theorem packets_delivered {w0 w : Connection T} {es : List (Action T)} (h0 : w0.Start)
    (h : Run (Guarded Connection.LowPlain Connection.Step) w0 es w) :
    w.failed = none ∧ (∃ order, Delivers w.log order w.s.fd) ∧
      (w.s.type ≠ .invalid → Delivers w.log w.s.order w.s.fd ∧ w.s.Sized) ∧
      (w.s.type = .connected → ∀ p ∈ w.log, p ∈ w.s.order ∨ p ∈ queued w.pipe) := by
  have hboth : w.Inv ∧ w.Whole :=
    h.invariant (I := fun w => w.Inv ∧ w.Whole) ⟨.start h0, .start h0⟩ fun _ _ _ hi hstep =>
      ⟨hi.1.step hstep.2, hi.2.step hi.1 hstep.1 hstep.2⟩
  obtain ⟨hinv, hwhole⟩ := hboth
  have hopen : w.s.type ≠ .invalid → Delivers w.log w.s.order w.s.fd := fun htype =>
    hinv.orderly.delivers htype (hwhole.intact htype)
  refine ⟨hwhole.failed, ?_, fun htype => ⟨hopen htype, hinv.orderly.size htype⟩,
    fun htype p hp => ?_⟩
  · by_cases htype : w.s.type = .invalid
    · exact hwhole.closed htype
    · exact ⟨_, hopen htype⟩
  · rw [← List.mem_append, ← mem_ofSource, hinv.orderly.kept (.inr htype)]
    exact mem_ofSource.mpr hp

def objectParcel : Parcel := ⟨32, 40, [106]⟩

/-- Two packets are sent, the second with low priority, and the event writes half of the first. -/
theorem packets_delivered_partial :
    ∃ es w, Run (Guarded Connection.LowPlain Connection.Step) idle es w ∧
    w.failed = none ∧ w.s.wbSize = 3 ∧ w.s.fd = [104] ∧ ∃ order, Delivers w.log order w.s.fd := by
  have h0 : Run (Guarded Connection.LowPlain Connection.Step) idle [] idle := .nil _
  have h1 := h0.snoc
    (.of_step (@Connection.Step.sendLow _ _ _ false plainParcel rfl rfl rfl (by decide)) trivial)
  have h2 := h1.snoc (.of_step (@Connection.Step.count _ _ _ false _ _ _ rfl rfl rfl) trivial)
  have h3 := h2.snoc (.of_step (@Connection.Step.push _ _ _ false _ _ rfl rfl) trivial)
  have h4 := h3.snoc
    (.of_step (@Connection.Step.sendLow _ _ _ true plainParcel rfl rfl rfl (by decide)) trivial)
  have h5 := h4.snoc (.of_step (@Connection.Step.count _ _ _ true _ _ _ rfl rfl rfl) trivial)
  have h6 := h5.snoc (.of_step (@Connection.Step.push _ _ _ true _ _ rfl rfl) trivial)
  have h7 := h6.snoc (.of_step (@Connection.Step.taken _ _ _ _ _ _ _ [] rfl rfl rfl rfl)
    fun request pipe hpipe _ => by
      cases hpipe
      rfl)
  have h8 := h7.snoc (.of_step (@Connection.Step.taken _ _ _ _ _ _ _ [] rfl rfl rfl rfl)
    fun request pipe hpipe _ => by
      cases hpipe
      rfl)
  have h9 := h8.snoc
    (.of_step (@Connection.Step.event _ _ _ _ _ [.wrote 1] rfl rfl (.inl rfl) rfl) trivial)
  exact ⟨_, _, h9, rfl, rfl, rfl, (packets_delivered idle_start h9).2.1⟩

/-- A user object goes to the low list, and the next write event fails. -/
theorem packets_object : ¬ ∀ (w0 w : Connection Bool) (es : List (Action Bool)), w0.Start →
    Run Connection.Step w0 es w → w.failed = none := by
  intro hall
  have h0 : Run Connection.Step idle [] idle := .nil _
  have h1 := h0.snoc (@Connection.Step.sendLow _ _ _ false plainParcel rfl rfl rfl (by decide))
  have h2 := h1.snoc (@Connection.Step.count _ _ _ false _ _ _ rfl rfl rfl)
  have h3 := h2.snoc (@Connection.Step.push _ _ _ false _ _ rfl rfl)
  have h4 := h3.snoc (@Connection.Step.sendLow _ _ _ true objectParcel rfl rfl rfl (by decide))
  have h5 := h4.snoc (@Connection.Step.count _ _ _ true _ _ _ rfl rfl rfl)
  have h6 := h5.snoc (@Connection.Step.push _ _ _ true _ _ rfl rfl)
  have h7 := h6.snoc (@Connection.Step.taken _ _ _ _ _ _ _ [] rfl rfl rfl rfl)
  have h8 := h7.snoc (@Connection.Step.taken _ _ _ _ _ _ _ [] rfl rfl rfl rfl)
  have h9 := h8.snoc (@Connection.Step.notWritten _ _ _ .lowUncomplete [] rfl rfl (.inl rfl) rfl)
  have hfailed := hall _ _ _ idle_start h9
  cases hfailed

end XsServer.SocketServer
