import XsServer.SocketServer.Packets

/-! A socket that is told to close writes what it has first, and then it is closed, unless a request
is counted that it will drop. -/

namespace XsServer.SocketServer

open Lib

variable {T : Type}

/-- When the socket is told to close, no request is counted, or something is left to write, at once
or after a flush: a direct write has the lock, or the file does not take it all. -/
def Connection.ClosesLater (w : Connection T) : Action T → Prop
  | .command rs => ∀ pipe, w.pipe = .close :: pipe →
      w.s.type = .connecting ∨ w.s.type = .connected →
      w.s.sendingRef = 0 ∨
        w.s.pending ≠ [] ∧ (w.lock ≠ none ∨ takes rs (sizes w.s.pending) = false)
  | _ => True

structure Connection.Owes (w : Connection T) : Prop where
  event : w.s.type = .connected ∨ w.s.type = .halfclose → w.s.pending ≠ [] → w.s.writeEvent = true
  connecting : w.s.type = .connecting → w.closing = false → w.s.writeEvent = true
  half : w.s.type = .halfclose → w.s.pending ≠ []
  accepted : w.s.type ≠ .invalid → ∀ p ∈ w.owed, p ∈ w.s.order
  closing : w.closing = true → ∀ p ∈ w.owed, p ∈ w.s.done
  written : w.s.type = .invalid → w.broken = false → ∀ p ∈ w.owed, p ∈ w.s.done
  reports : w.s.type ≠ .invalid → .close ∉ w.reports

/-! ### Sockets -/

section

variable {τ : Type} {s t : Socket τ}

theorem pending_of_empty (hdw : s.dw = none) (h : sendBufferEmpty s) : s.pending = [] := by
  rw [pending_of_dw hdw, h.1, h.2]
  rfl

theorem pending_of_nomore (h : nomoreSendingData s) : s.pending = [] := pending_of_empty h.2.1 h.1

theorem order_of_pending (h : s.pending = []) : s.order = s.done := by
  rw [Socket.order, h, tags_nil, List.append_nil]

theorem pending_ne_nil (h : ¬ sendBufferEmpty s) : s.pending ≠ [] := by
  intro hbad
  obtain ⟨hhigh, hlow⟩ := List.append_eq_nil_iff.mp hbad
  exact h ⟨(List.append_eq_nil_iff.mp hhigh).2, hlow⟩

theorem nomore_of_pending (h : s.pending = []) (hcount : s.sendingRef = 0) :
    nomoreSendingData s := by
  obtain ⟨hhigh, hlow⟩ := List.append_eq_nil_iff.mp h
  obtain ⟨hdirect, hhigh⟩ := List.append_eq_nil_iff.mp hhigh
  refine ⟨⟨hhigh, hlow⟩, ?_, hcount⟩
  unfold Socket.direct at hdirect
  split at hdirect
  · assumption
  · cases hdirect

theorem pending_of_takes {rs : List WriteResult} (h : takes rs (sizes s.pending) = false) :
    s.pending ≠ [] := by
  intro hbad
  rw [hbad] at h
  change takes rs [] = false at h
  rw [takes.eq_1] at h
  exact Bool.noConfusion h

inductive Flushed (s : Socket τ) (locked : Bool) (rs : List WriteResult) :
    Socket τ → Option Report → Prop
  | locked (h : locked = true) : Flushed s locked rs s none
  | failed {t : Socket τ} (h : t.type = .invalid) (hfails : rs.any WriteResult.fails = true) :
      Flushed s locked rs t (some .close)
  | closed {t : Socket τ} (h : t.type = .invalid) (hdone : t.done = s.order)
      (htype : s.type = .halfclose) : Flushed s locked rs t (some .close)
  | drained {t : Socket τ} {r : Option Report} (hlocked : locked = false) (hempty : t.pending = [])
      (hdone : t.done = s.order) (htype : t.type = s.type) (hhalf : s.type ≠ .halfclose)
      (hr : r ≠ some .close) (htakes : takes rs (sizes s.pending) = true) : Flushed s locked rs t r
  | rest {t : Socket τ} (hrest : t.pending ≠ []) (hnomore : ¬ nomoreSendingData t)
      (horder : t.order = s.order) (htype : t.type = s.type) (hevent : t.writeEvent = s.writeEvent)
      (htakes : takes rs (sizes s.pending) = false) : Flushed s locked rs t none

theorem sendBuffer_flushed (hs : s.Sized) {locked : Bool} {rs : List WriteResult}
    {r : Option Report} (h : sendBuffer s locked rs = .ok (t, r)) : Flushed s locked rs t r := by
  cases hlocked : locked with
  | true =>
    rw [hlocked] at h
    cases h
    exact .locked rfl
  | false =>
    rw [hlocked] at h
    have hflush := sendBuffer_flush hs rs
    rw [h] at hflush
    cases hflush with
    | failed _ hfails => exact .failed rfl hfails
    | closed hsent hempty htype =>
      refine .closed rfl ?_ htype
      rw [← hsent.order, order_of_pending (pending_of_empty hsent.dw hempty)]
      rfl
    | drained hsent hempty htype hr htakes =>
      have hnil := pending_of_empty hsent.dw hempty
      refine .drained rfl hnil ?_ hsent.type htype hr htakes
      rw [← hsent.order, order_of_pending hnil]
    | rest hsent hrest hevent _ htakes =>
      exact .rest (pending_ne_nil hrest) (fun hbad => hrest hbad.1) hsent.order hsent.type
        hevent htakes

end

variable {w w' : Connection T}

theorem Connection.Owes.start (h : w.Start) : w.Owes := by
  obtain ⟨-, -, -, htype, hhigh, hlow, -, hdw, -, -, -, -, -, hclosing, -, hreports, -,
    howed, -⟩ := h
  have hpending : w.s.pending = [] := pending_of_empty hdw ⟨hhigh, hlow⟩
  constructor
  · exact fun _ hbad => absurd hpending hbad
  · intro hconnecting _
    rcases htype with ⟨-, hevent⟩ | htype
    · exact hevent
    · rw [htype] at hconnecting
      exact SocketType.noConfusion hconnecting
  · intro hhalf
    rcases htype with ⟨htype, -⟩ | htype
    · rw [htype] at hhalf
      exact SocketType.noConfusion hhalf
    · rw [htype] at hhalf
      exact SocketType.noConfusion hhalf
  · rw [howed]
    exact fun _ p hp => absurd hp List.not_mem_nil
  · rw [hclosing]
    exact fun hbad => Bool.noConfusion hbad
  · rw [howed]
    exact fun _ _ p hp => absurd hp List.not_mem_nil
  · rw [hreports]
    exact fun _ => List.not_mem_nil

theorem Connection.Owes.same (h : w.Owes) (htype : w'.s.type = w.s.type)
    (hevent : w'.s.writeEvent = w.s.writeEvent) (hpending : w'.s.pending = w.s.pending)
    (hdone : w'.s.done = w.s.done) (hclosing : w'.closing = w.closing) (howed : w'.owed = w.owed)
    (hbroken : w'.broken = w.broken) (hreports : w'.reports = w.reports) : w'.Owes where
  event := by
    rw [htype, hpending, hevent]
    exact h.event
  connecting := by
    rw [htype, hclosing, hevent]
    exact h.connecting
  half := by
    rw [htype, hpending]
    exact h.half
  accepted := by
    rw [htype, howed, Socket.order, hdone, hpending]
    exact h.accepted
  closing := by
    rw [hclosing, howed, hdone]
    exact h.closing
  written := by
    rw [htype, hbroken, howed, hdone]
    exact h.written
  reports := by
    rw [htype, hreports]
    exact h.reports

variable [DecidableEq T]

theorem Connection.Owes.write (h : w.Owes) (hinv : w.Inv) {t : T} {p : Parcel} (n : Nat)
    (hplace : w.place t = .writing p) :
    Connection.Owes { w.goto t .idle with
      s := directWrite w.s (w.request t p false true) n
      lock := none
      log := w.log ++ [w.packet t p false true] } := by
  have hclear := hinv.writing t p hplace
  have htype := (directWrite_same w.s (w.request t p false true) n).2
  have horder := directWrite_order hclear.dw (w.request t p false true) n
  have hold : w.s.order = w.s.done ++ tags (w.s.high ++ w.s.low) := by
    rw [Socket.order, pending_of_dw hclear.dw]
  have hpending : (directWrite w.s (w.request t p false true) n).writeEvent = true ∧
      (directWrite w.s (w.request t p false true) n).pending ≠ [] ∨
      (directWrite w.s (w.request t p false true) n).writeEvent = w.s.writeEvent ∧
      (directWrite w.s (w.request t p false true) n).pending = w.s.pending := by
    unfold directWrite
    split
    · exact .inl ⟨rfl, fun hbad => List.cons_ne_nil _ _ hbad⟩
    · exact .inr ⟨rfl, rfl⟩
  have hdone : ∀ q ∈ w.s.done, q ∈ (directWrite w.s (w.request t p false true) n).done := by
    intro q hq
    unfold directWrite
    split
    · exact hq
    · exact List.mem_append_left _ hq
  constructor
  · intro ht hne
    rcases hpending with ⟨hevent, -⟩ | ⟨hevent, heq⟩
    · exact hevent
    · exact hevent.trans (h.event (htype ▸ ht) (heq ▸ hne))
  · intro ht hclosing
    rcases hpending with ⟨hevent, -⟩ | ⟨hevent, -⟩
    · exact hevent
    · exact hevent.trans (h.connecting (htype.symm.trans ht) hclosing)
  · intro ht
    rcases hpending with ⟨-, hne⟩ | ⟨-, heq⟩
    · exact hne
    · exact heq ▸ h.half (htype.symm.trans ht)
  · intro _ q hq
    have hmem := h.accepted hclear.type q hq
    rw [hold] at hmem
    dsimp only
    rw [horder]
    rcases List.mem_append.mp hmem with hmem | hmem
    · exact List.mem_append_left _ hmem
    · exact List.mem_append_right _ (List.mem_cons_of_mem _ hmem)
  · exact fun hclosing q hq => hdone q (h.closing hclosing q hq)
  · exact fun ht => absurd (htype.symm.trans ht) hclear.type
  · exact fun _ => h.reports hclear.type

theorem Connection.Owes.taken (h : w.Owes) (hinv : w.Inv)
    {request : Request (Packet T)} {low : Bool} {pipe : List (Package T)} {s : Socket (Packet T)}
    (hpipe : w.pipe = .send request low :: pipe)
    (hs : decSendingRef (sendSocket w.s request low).1 request.id = .ok s) :
    Connection.Owes { w with
      s := s
      pipe := pipe
      reports := w.reports ++ (sendSocket w.s request low).2.toList } := by
  rw [hinv.decSendingRef hpipe] at hs
  cases hs
  obtain ⟨hid, -, -, -⟩ := hinv.requests request low (by
    rw [hpipe]
    exact List.mem_cons_self)
  have hcase := sendSocket_case low (hinv.id.trans hid.symm) hinv.protocol hinv.type
  generalize sendSocket w.s request low = x at hcase
  have hreports : ∀ r : Option Report, r ≠ some .close → w.s.type ≠ .invalid →
      .close ∉ w.reports ++ r.toList := fun r hr htype hbad => by
    rcases List.mem_append.mp hbad with hbad | hbad
    · exact h.reports htype hbad
    · exact hr (Option.mem_toList.mp hbad)
  have hmem : ∀ l l' : List (WriteBuffer (Packet T)), (∀ q ∈ tags l, q ∈ tags l') →
      ∀ q ∈ w.s.done ++ tags l, q ∈ w.s.done ++ tags l' := fun l l' hsub q hq => by
    rcases List.mem_append.mp hq with hq | hq
    · exact List.mem_append_left _ hq
    · exact List.mem_append_right _ (hsub q hq)
  have hhigh : ∀ q ∈ w.s.order, q ∈ (appendSendbuffer w.s request).order := by
    refine hmem _ _ fun q hq => ?_
    simp only [Socket.pending, Socket.direct, appendSendbuffer, tags_append,
      List.mem_append] at hq ⊢
    tauto
  have hlow : ∀ q ∈ w.s.order, q ∈ (appendSendbufferLow w.s request).order := by
    refine hmem _ _ fun q hq => ?_
    simp only [Socket.pending, Socket.direct, appendSendbufferLow, tags_append,
      List.mem_append] at hq ⊢
    tauto
  have hevent : ¬ (sendBufferEmpty w.s ∧ w.s.type = .connected) →
      w.s.type = .connected → w.s.writeEvent = true := fun hne htype =>
    h.event (.inl htype) (pending_ne_nil fun hempty => hne ⟨hempty, htype⟩)
  cases hcase with
  | dropped htype =>
    refine h.same rfl rfl rfl rfl rfl rfl rfl ?_
    exact List.append_nil _
  | first htype hempty hr =>
    have hopen : w.s.type ≠ .invalid := by
      rw [htype]
      decide
    have hhalf : w.s.type ≠ .halfclose := by
      rw [htype]
      decide
    exact ⟨fun _ _ => rfl, fun _ _ => rfl, fun hbad => absurd hbad hhalf,
      fun _ q hq => hhigh q (h.accepted hopen q hq), h.closing, fun hbad => absurd hbad hopen,
      fun _ => hreports _ hr hopen⟩
  | high htype hne _ hr =>
    have hopen : w.s.type ≠ .invalid ∧ w.s.type ≠ .halfclose := by
      rcases htype with htype | htype
      · rw [htype]
        exact ⟨by decide, by decide⟩
      · rw [htype]
        exact ⟨by decide, by decide⟩
    exact ⟨fun ht _ => hevent hne (ht.resolve_right hopen.2), fun ht => h.connecting ht,
      fun hbad => absurd hbad hopen.2, fun _ q hq => hhigh q (h.accepted hopen.1 q hq), h.closing,
      fun hbad => absurd hbad hopen.1, fun _ => hreports _ hr hopen.1⟩
  | low htype hne _ hr =>
    have hopen : w.s.type ≠ .invalid ∧ w.s.type ≠ .halfclose := by
      rcases htype with htype | htype
      · rw [htype]
        exact ⟨by decide, by decide⟩
      · rw [htype]
        exact ⟨by decide, by decide⟩
    exact ⟨fun ht _ => hevent hne (ht.resolve_right hopen.2), fun ht => h.connecting ht,
      fun hbad => absurd hbad hopen.2, fun _ q hq => hlow q (h.accepted hopen.1 q hq), h.closing,
      fun hbad => absurd hbad hopen.1, fun _ => hreports _ hr hopen.1⟩

omit [DecidableEq T] in
theorem Connection.Owes.owed (h : w.Owes) (htype : w.s.type ≠ .invalid) :
    ∀ p ∈ w.owed ++ tags w.s.pending, p ∈ w.s.order := by
  intro p hp
  rcases List.mem_append.mp hp with hp | hp
  · exact h.accepted htype p hp
  · exact List.mem_append_right _ hp

theorem Connection.Owes.told (h : w.Owes) (hinv : w.Inv) (hclosing : w.closing = false)
    {pipe : List (Package T)} (hpipe : w.pipe = .close :: pipe) {rs : List WriteResult}
    {s : Socket (Packet T)} {r : Option Report} {force : Bool}
    (hs : closeSocket w.s w.id w.lock.isSome rs = .ok (s, r, force))
    (hallows : w.ClosesLater (.command rs)) :
    Connection.Owes { w with
      s := s
      pipe := pipe
      closing := force
      reports := w.reports ++ r.toList
      owed := w.owed ++ tags w.s.pending
      broken := w.broken || rs.any WriteResult.fails } := by
  have hcase := closeSocket_case w.s w.id w.lock.isSome rs
  have hsending := (closeSocket_same hs).2.2
  dsimp only at hsending
  rw [hs] at hcase
  cases hcase with
  | other hother =>
    have htype := hother.resolve_right fun hbad => hbad hinv.id
    have howed : w.owed ++ tags w.s.pending = w.owed := by
      rw [hinv.orderly.closed htype]
      exact List.append_nil _
    refine ⟨h.event, fun ht _ => ?_, h.half, fun ht => absurd htype ht,
      fun hbad => Bool.noConfusion hbad, fun ht hbroken => ?_, fun ht => absurd htype ht⟩
    · rw [htype] at ht
      exact SocketType.noConfusion ht
    · dsimp only
      rw [howed]
      exact h.written ht (Bool.or_eq_false_iff.mp hbroken).1
  | nomore hid hnomore =>
    have hopen := (not_or.mp hid).1
    have hnil := pending_of_nomore hnomore
    have howed := h.owed hopen
    refine ⟨h.event, fun _ hbad => Bool.noConfusion hbad, h.half, fun _ => howed, fun _ => ?_,
      fun hbad => absurd hbad hopen, fun _ => ?_⟩
    · rw [← order_of_pending hnil]
      exact howed
    · rw [Option.toList_none, List.append_nil]
      exact h.reports hopen
  | closed hid hsend =>
    have hopen := (not_or.mp hid).1
    have howed := h.owed hopen
    cases sendBuffer_flushed (hinv.orderly.size hopen) hsend with
    | failed htype hfails =>
      refine ⟨fun ht => ?_, fun ht => ?_, fun ht => ?_, fun ht => absurd htype ht,
        fun hbad => Bool.noConfusion hbad, fun _ hbroken => ?_, fun ht => absurd htype ht⟩
      · rcases ht with ht | ht
        · exact SocketType.noConfusion (htype.symm.trans ht)
        · exact SocketType.noConfusion (htype.symm.trans ht)
      · exact SocketType.noConfusion (htype.symm.trans ht)
      · exact SocketType.noConfusion (htype.symm.trans ht)
      · rw [hfails] at hbroken
        exact Bool.noConfusion ((Bool.or_eq_false_iff.mp hbroken).2)
    | closed htype hdone _ =>
      refine ⟨fun ht => ?_, fun ht => ?_, fun ht => ?_, fun ht => absurd htype ht,
        fun hbad => Bool.noConfusion hbad, fun _ _ => ?_, fun ht => absurd htype ht⟩
      · rcases ht with ht | ht
        · exact SocketType.noConfusion (htype.symm.trans ht)
        · exact SocketType.noConfusion (htype.symm.trans ht)
      · exact SocketType.noConfusion (htype.symm.trans ht)
      · exact SocketType.noConfusion (htype.symm.trans ht)
      · dsimp only
        rw [hdone]
        exact howed
    | drained _ _ _ _ _ hr _ => exact absurd rfl hr
  | drained hid hsend hr hnomore =>
    have hopen := (not_or.mp hid).1
    have howed := h.owed hopen
    have hnil := pending_of_nomore hnomore
    have hreports : .close ∉ w.reports ++ (none : Option Report).toList := by
      rw [Option.toList_none, List.append_nil]
      exact h.reports hopen
    cases sendBuffer_flushed (hinv.orderly.size hopen) hsend with
    | locked _ =>
      refine ⟨h.event, fun _ hbad => Bool.noConfusion hbad, h.half, fun _ => howed, fun _ => ?_,
        fun hbad => absurd hbad hopen, fun _ => hreports⟩
      rw [← order_of_pending hnil]
      exact howed
    | failed _ _ | closed _ _ _ => exact absurd rfl hr
    | drained _ _ hdone htype hhalf _ _ =>
      have hall : ∀ p ∈ w.owed ++ tags w.s.pending, p ∈ s.done := by
        rw [hdone]
        exact howed
      exact ⟨fun _ hne => absurd hnil hne, fun _ hbad => Bool.noConfusion hbad,
        fun ht => absurd (htype.symm.trans ht) hhalf,
        fun _ p hp => List.mem_append_left _ (hall p hp), fun _ => hall,
        fun hbad => absurd (htype.symm.trans hbad) hopen, fun _ => hreports⟩
    | rest _ hrest _ _ _ _ => exact absurd hnomore hrest
  | @half t _ hid hsend hr hmore =>
    have hopen := (not_or.mp hid).1
    have howed := h.owed hopen
    have hreports : .close ∉ w.reports ++ (none : Option Report).toList := by
      rw [Option.toList_none, List.append_nil]
      exact h.reports hopen
    have hevent : w.s.pending ≠ [] → w.s.writeEvent = true := fun hne => by
      rcases hinv.type with (htype | htype) | htype | htype
      · exact h.connecting htype hclosing
      · exact h.event (.inl htype) hne
      · exact absurd htype hopen
      · exact h.event (.inr htype) hne
    have hlater : w.s.type ≠ .halfclose → w.s.sendingRef = 0 ∨
        w.s.pending ≠ [] ∧ (w.lock ≠ none ∨ takes rs (sizes w.s.pending) = false) := fun hhalf =>
      hallows pipe hpipe (hinv.type.resolve_right fun hbad => hbad.elim hopen hhalf)
    cases sendBuffer_flushed (hinv.orderly.size hopen) hsend with
    | locked hlocked =>
      have hne : w.s.pending ≠ [] := by
        by_cases hhalf : w.s.type = .halfclose
        · exact h.half hhalf
        · rcases hlater hhalf with hcount | ⟨hne, -⟩
          · exact fun hbad => hmore (nomore_of_pending hbad hcount)
          · exact hne
      exact ⟨fun _ _ => hevent hne, fun hbad => SocketType.noConfusion hbad, fun _ => hne,
        fun _ => howed, fun hbad => Bool.noConfusion hbad, fun hbad => SocketType.noConfusion hbad,
        fun _ => hreports⟩
    | failed _ _ | closed _ _ _ => exact absurd rfl hr
    | drained hlocked hnil _ _ hhalf _ htakes =>
      exfalso
      rcases hlater hhalf with hcount | ⟨-, hlock | htakes'⟩
      · refine hmore (nomore_of_pending hnil ?_)
        rw [Socket.sendingRef, hsending]
        exact hcount
      · rw [Option.isSome_eq_false_iff, Option.isNone_iff_eq_none] at hlocked
        exact hlock hlocked
      · rw [htakes] at htakes'
        exact Bool.noConfusion htakes'
    | rest hne _ horder _ hev htakes =>
      refine ⟨fun _ _ => hev.trans (hevent (pending_of_takes htakes)),
        fun hbad => SocketType.noConfusion hbad, fun _ => hne, fun _ => ?_,
        fun hbad => Bool.noConfusion hbad, fun hbad => SocketType.noConfusion hbad,
          fun _ => hreports⟩
      change ∀ p ∈ w.owed ++ tags w.s.pending, p ∈ t.order
      rw [horder]
      exact howed

theorem Connection.Owes.event_step (h : w.Owes) (hinv : w.Inv) (hclosing : w.closing = false)
    (htype : w.s.type = .connected ∨ w.s.type = .halfclose) {rs : List WriteResult}
    {s : Socket (Packet T)} {r : Option Report}
    (hs : sendBuffer w.s w.lock.isSome rs = .ok (s, r)) :
    Connection.Owes { w with
      s := s
      reports := w.reports ++ r.toList
      broken := w.broken || rs.any WriteResult.fails } := by
  have hopen : w.s.type ≠ .invalid ∧ w.s.type ≠ .connecting := by
    rcases htype with htype | htype
    · rw [htype]
      exact ⟨by decide, by decide⟩
    · rw [htype]
      exact ⟨by decide, by decide⟩
  have hreports : ∀ r : Option Report, r ≠ some .close → .close ∉ w.reports ++ r.toList :=
    fun r hr hbad => by
      rcases List.mem_append.mp hbad with hbad | hbad
      · exact h.reports hopen.1 hbad
      · exact hr (Option.mem_toList.mp hbad)
  have hnot : w.closing = true → ∀ p ∈ w.owed, p ∈ s.done := fun hbad => by
    rw [hclosing] at hbad
    exact Bool.noConfusion hbad
  have haccepted := h.accepted hopen.1
  cases sendBuffer_flushed (hinv.orderly.size hopen.1) hs with
  | locked _ =>
    exact ⟨h.event, h.connecting, h.half, h.accepted, h.closing, fun hbad => absurd hbad hopen.1,
      fun _ => hreports _ (by decide)⟩
  | failed ht hfails =>
    refine ⟨fun hbad => ?_, fun hbad => ?_, fun hbad => ?_, fun hbad => absurd ht hbad, hnot,
      fun _ hbroken => ?_, fun hbad => absurd ht hbad⟩
    · rcases hbad with hbad | hbad
      · exact SocketType.noConfusion (ht.symm.trans hbad)
      · exact SocketType.noConfusion (ht.symm.trans hbad)
    · exact SocketType.noConfusion (ht.symm.trans hbad)
    · exact SocketType.noConfusion (ht.symm.trans hbad)
    · rw [hfails] at hbroken
      exact Bool.noConfusion ((Bool.or_eq_false_iff.mp hbroken).2)
  | closed ht hdone _ =>
    refine ⟨fun hbad => ?_, fun hbad => ?_, fun hbad => ?_, fun hbad => absurd ht hbad, hnot,
      fun _ _ => ?_, fun hbad => absurd ht hbad⟩
    · rcases hbad with hbad | hbad
      · exact SocketType.noConfusion (ht.symm.trans hbad)
      · exact SocketType.noConfusion (ht.symm.trans hbad)
    · exact SocketType.noConfusion (ht.symm.trans hbad)
    · exact SocketType.noConfusion (ht.symm.trans hbad)
    · dsimp only
      rw [hdone]
      exact haccepted
  | drained _ hnil hdone ht hhalf hr _ =>
    refine ⟨fun _ hne => absurd hnil hne, fun hbad => absurd (ht.symm.trans hbad) hopen.2,
      fun hbad => absurd (ht.symm.trans hbad) hhalf, fun _ p hp => ?_, hnot,
      fun hbad => absurd (ht.symm.trans hbad) hopen.1, fun _ => hreports _ hr⟩
    dsimp only
    rw [Socket.order, hdone]
    exact List.mem_append_left _ (haccepted p hp)
  | rest hne _ horder ht hev htakes =>
    refine ⟨fun _ _ => ?_, fun hbad => absurd (ht.symm.trans hbad) hopen.2, fun _ => hne,
      fun _ => ?_, hnot, fun hbad => absurd (ht.symm.trans hbad) hopen.1,
      fun _ => hreports _ (by decide)⟩
    · exact hev.trans (h.event htype (pending_of_takes htakes))
    · dsimp only
      rw [horder]
      exact haccepted

theorem Connection.Owes.step {a : Action T} (h : w.Owes) (hinv : w.Inv) (hallows : w.ClosesLater a)
    (hstep : w.Step a w') : w'.Owes := by
  cases hstep with
  | send _ _ _ _ | check _ _ | lock _ _ _ | busy _ _ _ | confirm _ _ _ | unlock _ _ _ =>
    exact h.same rfl rfl rfl rfl rfl rfl rfl rfl
  | @write t p n _ hplace _ => exact h.write hinv n hplace
  | sendLow _ _ _ _ => exact h.same rfl rfl rfl rfl rfl rfl rfl rfl
  | count _ _ hs =>
    unfold incSendingRef at hs
    rw [if_pos hinv.tag] at hs
    split at hs
    · cases hs
    · cases hs
      exact h.same rfl rfl rfl rfl rfl rfl rfl rfl
  | push _ _ | close _ => exact h.same rfl rfl rfl rfl rfl rfl rfl rfl
  | taken _ _ hpipe hs => exact h.taken hinv hpipe hs
  | notTaken _ _ _ _ => exact h.same rfl rfl rfl rfl rfl rfl rfl rfl
  | closed _ hclosing hpipe hs => exact h.told hinv hclosing hpipe hs hallows
  | notClosed _ _ _ _ => exact h.same rfl rfl rfl rfl rfl rfl rfl rfl
  | event _ hclosing htype hs => exact h.event_step hinv hclosing htype hs
  | notWritten _ _ _ _ => exact h.same rfl rfl rfl rfl rfl rfl rfl rfl
  | connected _ hclosing htype =>
    have hopen : w.s.type ≠ .invalid := by
      rw [htype]
      decide
    refine ⟨fun _ hne => ?_, fun hbad => SocketType.noConfusion hbad,
      fun hbad => SocketType.noConfusion hbad, fun _ => h.accepted hopen, h.closing,
      fun hbad => SocketType.noConfusion hbad, fun _ hbad => ?_⟩
    · have hmore : ¬ nomoreSendingData w.s := fun hbad => hne (pending_of_nomore hbad)
      dsimp only [reportConnect]
      rw [if_neg hmore]
      exact h.connecting htype hclosing
    · rcases List.mem_append.mp hbad with hbad | hbad
      · exact h.reports hopen hbad
      · exact Report.noConfusion (List.mem_singleton.mp hbad)
  | force _ hclosing _ =>
    refine ⟨fun hbad => ?_, fun hbad => SocketType.noConfusion hbad,
      fun hbad => SocketType.noConfusion hbad, fun hbad => absurd rfl hbad,
      fun hbad => Bool.noConfusion hbad, fun _ _ => h.closing hclosing, fun hbad => absurd rfl hbad⟩
    rcases hbad with hbad | hbad
    · exact SocketType.noConfusion hbad
    · exact SocketType.noConfusion hbad

theorem Connection.Step.closes {a : Action T} (hinv : w.Inv) (h : w.Step a w')
    (htype : w.s.type = .halfclose) (htype' : w'.s.type = .invalid) :
    w'.reports = w.reports ++ [.close] := by
  have hopen : w.s.type ≠ .invalid := by
    rw [htype]
    decide
  have hbad : w.s.type = .invalid → False := hopen
  cases h with
  | send _ _ _ _ | check _ _ | lock _ _ _ | busy _ _ _ | confirm _ _ _ | unlock _ _ _ =>
    exact (hbad htype').elim
  | write _ _ _ => exact (hbad ((directWrite_same w.s _ _).2.symm.trans htype')).elim
  | sendLow _ _ _ _ => exact (hbad htype').elim
  | count _ _ hs =>
    unfold incSendingRef at hs
    rw [if_pos hinv.tag] at hs
    split at hs
    · cases hs
    · cases hs
      exact (hbad htype').elim
  | push _ _ | close _ => exact (hbad htype').elim
  | @taken request low _ _ _ _ _ hpipe hs =>
    rw [hinv.decSendingRef hpipe] at hs
    cases hs
    obtain ⟨hid, -, -, -⟩ := hinv.requests request low (by
      rw [hpipe]
      exact List.mem_cons_self)
    have hcase := sendSocket_case low (hinv.id.trans hid.symm) hinv.protocol hinv.type
    generalize sendSocket w.s request low = x at hcase htype'
    cases hcase with
    | dropped _ | first _ _ _ | high _ _ _ _ | low _ _ _ _ => exact (hbad htype').elim
  | notTaken _ _ _ _ => exact (hbad htype').elim
  | @closed pipe s r force rs _ _ _ hs =>
    have hcase := closeSocket_case w.s w.id w.lock.isSome rs
    rw [hs] at hcase
    cases hcase with
    | other _ | nomore _ _ => exact (hbad htype').elim
    | closed _ _ => rfl
    | drained _ hsend hr _ =>
      cases sendBuffer_flushed (hinv.orderly.size hopen) hsend with
      | locked _ => exact (hbad htype').elim
      | failed _ _ | closed _ _ _ => exact absurd rfl hr
      | drained _ _ _ ht _ _ _ | rest _ _ _ ht _ _ => exact (hbad (ht.symm.trans htype')).elim
    | half _ _ _ _ => exact SocketType.noConfusion htype'
  | notClosed _ _ _ _ => exact (hbad htype').elim
  | event _ _ _ hs =>
    cases sendBuffer_flushed (hinv.orderly.size hopen) hs with
    | locked _ => exact (hbad htype').elim
    | failed _ _ | closed _ _ _ => rfl
    | drained _ _ _ ht _ _ _ | rest _ _ _ ht _ _ => exact (hbad (ht.symm.trans htype')).elim
  | notWritten _ _ _ _ => exact (hbad htype').elim
  | connected _ _ _ => exact SocketType.noConfusion htype'
  | force _ _ _ => rfl

theorem Connection.Step.drains {rs : List WriteResult} (hinv : w.Inv) (h : w.Step (.event rs) w')
    (htype : w.s.type = .halfclose) (hlock : w.lock = none) (hok : w'.failed = none)
    (htakes : takes rs (sizes w.s.pending) = true) : w'.s.type = .invalid := by
  have hopen : w.s.type ≠ .invalid := by
    rw [htype]
    decide
  cases h with
  | event _ _ _ hs =>
    cases sendBuffer_flushed (hinv.orderly.size hopen) hs with
    | locked hbad =>
      rw [hlock] at hbad
      exact Bool.noConfusion hbad
    | failed ht _ | closed ht _ _ => exact ht
    | drained _ _ _ _ hhalf _ _ => exact absurd htype hhalf
    | rest _ _ _ _ _ hbad =>
      rw [htakes] at hbad
      exact Bool.noConfusion hbad
  | notWritten _ _ _ _ => cases hok

/-- In every run in which the socket is told to close only when no request is counted, or when
something is left to write: all that was accepted before is written before the file is closed,
unless a write fails; a half-closed socket has something to write and its event, which closes it
when all is out, and the close is reported once. -/
theorem closing_flushes {w0 w : Connection T} {es : List (Action T)} (h0 : w0.Start)
    (h : Run (Guarded Connection.ClosesLater Connection.Step) w0 es w) :
    (w.s.type = .invalid → w.broken = false → ∀ p ∈ w.owed, p ∈ w.s.done) ∧
      (w.s.type = .halfclose → w.s.pending ≠ [] ∧ w.s.writeEvent = true ∧
        (∀ rs w', w.Step (.event rs) w' → w.lock = none → w'.failed = none →
          takes rs (sizes w.s.pending) = true → w'.s.type = .invalid) ∧
        ∀ a w', w.Step a w' → w'.s.type = .invalid → w'.reports = w.reports ++ [.close]) ∧
      (w.s.type ≠ .invalid → .close ∉ w.reports) := by
  have hboth : w.Inv ∧ w.Owes :=
    h.invariant (I := fun w => w.Inv ∧ w.Owes) ⟨.start h0, .start h0⟩ fun _ _ _ hi hstep =>
      ⟨hi.1.step hstep.2, hi.2.step hi.1 hstep.1 hstep.2⟩
  obtain ⟨hinv, howes⟩ := hboth
  refine ⟨howes.written,
    fun htype => ⟨howes.half htype, howes.event (.inr htype) (howes.half htype),
    fun rs w' hstep hlock hok htakes => ?_, fun a w' hstep htype' => ?_⟩, howes.reports⟩
  · exact hstep.drains hinv htype hlock hok htakes
  · exact hstep.closes hinv htype htype'

/-- The socket is told to close with a packet in its list. -/
theorem closing_flushes_half :
    ∃ es w, Run (Guarded Connection.ClosesLater Connection.Step) idle es w ∧
      w.s.type = .halfclose ∧ w.s.pending ≠ [] ∧ w.s.writeEvent = true := by
  have h0 : Run (Guarded Connection.ClosesLater Connection.Step) idle [] idle := .nil _
  have h1 := h0.snoc
    (.of_step (@Connection.Step.sendLow _ _ _ false plainParcel rfl rfl rfl (by decide)) trivial)
  have h2 := h1.snoc (.of_step (@Connection.Step.count _ _ _ false _ _ _ rfl rfl rfl) trivial)
  have h3 := h2.snoc (.of_step (@Connection.Step.push _ _ _ false _ _ rfl rfl) trivial)
  have h4 := h3.snoc (.of_step (@Connection.Step.close _ _ _ rfl) trivial)
  have h5 := h4.snoc (.of_step (@Connection.Step.taken _ _ _ _ _ _ _ [] rfl rfl rfl rfl)
    fun pipe hpipe => by cases hpipe)
  have h6 := h5.snoc (.of_step (@Connection.Step.closed _ _ _ _ _ _ _ [] rfl rfl rfl rfl)
    fun pipe hpipe _ => .inl rfl)
  obtain ⟨-, hhalf, -⟩ := closing_flushes idle_start h6
  exact ⟨_, _, h6, rfl, (hhalf rfl).1, (hhalf rfl).2.1⟩

/-- A request is counted, the socket is told to close, and only then is the request in the pipe: it
is dropped, and the socket stays half-closed with nothing to write. -/
theorem closing_forgotten : ¬ ∀ (w0 w : Connection Bool) (es : List (Action Bool)), w0.Start →
    Run Connection.Step w0 es w → w.pipe = [] → w.s.type = .halfclose →
      w.s.pending ≠ [] ∧ w.s.writeEvent = true := by
  intro hall
  have h0 : Run Connection.Step idle [] idle := .nil _
  have h1 := h0.snoc (@Connection.Step.sendLow _ _ _ false plainParcel rfl rfl rfl (by decide))
  have h2 := h1.snoc (@Connection.Step.count _ _ _ false _ _ _ rfl rfl rfl)
  have h3 := h2.snoc (@Connection.Step.close _ _ _ rfl)
  have h4 := h3.snoc (@Connection.Step.push _ _ _ false _ _ rfl rfl)
  have h5 := h4.snoc (@Connection.Step.closed _ _ _ _ _ _ _ [] rfl rfl rfl rfl)
  have h6 := h5.snoc (@Connection.Step.taken _ _ _ _ _ _ _ [] rfl rfl rfl rfl)
  exact (hall _ _ _ idle_start h6 rfl rfl).1 rfl

end XsServer.SocketServer
