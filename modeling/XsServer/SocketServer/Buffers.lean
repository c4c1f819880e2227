import XsServer.SocketServer.Sending
import Mathlib.Algebra.BigOperators.Group.List.Basic

/-! What a socket has still to write, and what `send_buffer` does with it: whole packets and bytes
leave in order, and nothing of what is left is lost. -/

namespace XsServer.SocketServer

variable {τ : Type}

/-! ### What is not written yet -/

def Socket.direct (s : Socket τ) : List (WriteBuffer τ) :=
  match s.dw with
  | none => []
  | some (request, offset) =>
    [⟨request.tag, request.buffer, request.ptr + offset, request.data.drop offset⟩]

/-- The buffers in the order in which they are written. -/
def Socket.pending (s : Socket τ) : List (WriteBuffer τ) := s.direct ++ s.high ++ s.low

def unsent (l : List (WriteBuffer τ)) : List UInt8 := l.flatMap (·.data)

def tags (l : List (WriteBuffer τ)) : List τ := l.map (·.tag)

/-- The packets that were written, and those that are still to be written. -/
def Socket.order (s : Socket τ) : List τ := s.done ++ tags s.pending

def listSize (l : List (WriteBuffer τ)) : Nat := (unsent l).length

/-- `wb_size` is the number of bytes in the two lists. -/
def Socket.Sized (s : Socket τ) : Prop := s.wbSize = listSize (s.high ++ s.low)

@[simp] theorem unsent_nil : unsent ([] : List (WriteBuffer τ)) = [] := rfl

@[simp] theorem unsent_cons (wb : WriteBuffer τ) (l : List (WriteBuffer τ)) :
    unsent (wb :: l) = wb.data ++ unsent l := List.flatMap_cons ..

@[simp] theorem unsent_append (l l' : List (WriteBuffer τ)) :
    unsent (l ++ l') = unsent l ++ unsent l' := List.flatMap_append

@[simp] theorem tags_nil : tags ([] : List (WriteBuffer τ)) = [] := rfl

@[simp] theorem tags_cons (wb : WriteBuffer τ) (l : List (WriteBuffer τ)) :
    tags (wb :: l) = wb.tag :: tags l := rfl

@[simp] theorem tags_append (l l' : List (WriteBuffer τ)) : tags (l ++ l') = tags l ++ tags l' :=
  List.map_append

theorem listSize_append (l l' : List (WriteBuffer τ)) :
    listSize (l ++ l') = listSize l + listSize l' := by
  simp only [listSize, unsent_append, List.length_append]

@[simp] theorem listSize_toBuffer (request : Request τ) :
    listSize [request.toBuffer] = request.data.length := by
  rw [listSize, unsent_cons, unsent_nil, List.append_nil, Request.toBuffer]

section

variable {s t u : Socket τ}

theorem appendSendbuffer_sized (request : Request τ) (h : s.Sized) :
    (appendSendbuffer s request).Sized := by
  unfold Socket.Sized at h ⊢
  simp only [appendSendbuffer, h, listSize_append, listSize_toBuffer, Nat.cast_add]
  ring

theorem appendSendbufferLow_sized (request : Request τ) (h : s.Sized) :
    (appendSendbufferLow s request).Sized := by
  unfold Socket.Sized at h ⊢
  simp only [appendSendbufferLow, h, listSize_append, listSize_toBuffer, Nat.cast_add]
  ring

/-- From the first socket to the second some bytes were written, in the order of the buffers. -/
structure Sent (s t : Socket τ) : Prop where
  type : t.type = s.type
  dw : t.dw = none
  order : t.order = s.order
  bytes : ∃ written, t.fd = s.fd ++ written ∧ unsent s.pending = written ++ unsent t.pending
  low : ∀ wb ∈ t.low, ∃ wb' ∈ s.low, ∃ n, wb = wb'.advance n
  size : s.Sized → t.Sized

theorem WriteBuffer.advance_advance (wb : WriteBuffer τ) (m n : Nat) :
    (wb.advance m).advance n = wb.advance (m + n) := by
  simp only [WriteBuffer.advance, List.drop_drop, Nat.add_assoc]

theorem Sent.trans (h : Sent s t) (h' : Sent t u) : Sent s u where
  type := h'.type.trans h.type
  dw := h'.dw
  order := h'.order.trans h.order
  bytes := by
    obtain ⟨written, hfd, hunsent⟩ := h.bytes
    obtain ⟨written', hfd', hunsent'⟩ := h'.bytes
    refine ⟨written ++ written', ?_, ?_⟩
    · rw [hfd', hfd, List.append_assoc]
    · rw [hunsent, hunsent', List.append_assoc]
  low wb hwb := by
    obtain ⟨wb1, hwb1, n, rfl⟩ := h'.low wb hwb
    obtain ⟨wb2, hwb2, m, rfl⟩ := h.low wb1 hwb1
    exact ⟨wb2, hwb2, m + n, wb2.advance_advance m n⟩
  size hs := h'.size (h.size hs)

theorem Sent.of_pending (htype : t.type = s.type) (hdw : t.dw = none) (hfd : t.fd = s.fd)
    (hdone : t.done = s.done) (hpending : t.pending = s.pending) (hlow : ∀ wb ∈ t.low, wb ∈ s.low)
    (hsize : s.Sized → t.Sized) : Sent s t where
  type := htype
  dw := hdw
  order := by rw [Socket.order, hdone, hpending, Socket.order]
  bytes := by
    refine ⟨[], ?_, ?_⟩
    · rw [hfd, List.append_nil]
    · rw [hpending, List.nil_append]
  low wb hwb := ⟨wb, hlow wb hwb, 0, rfl⟩
  size := hsize

theorem pending_of_dw (h : s.dw = none) : s.pending = s.high ++ s.low := by
  rw [Socket.pending, Socket.direct, h]
  rfl

theorem takeDirect_sent (s : Socket τ) :
    Sent s (takeDirect s) ∧ (takeDirect s).low = s.low ∧ (takeDirect s).pending = s.pending ∧
      (takeDirect s).writeEvent = s.writeEvent := by
  unfold takeDirect
  cases hdw : s.dw with
  | none => exact ⟨.of_pending rfl hdw rfl rfl rfl (fun _ h => h) id, rfl, rfl, rfl⟩
  | some request =>
    obtain ⟨request, offset⟩ := request
    have hpending : Socket.pending
        { s with
          high := ⟨request.tag, request.buffer, request.ptr + offset,
            request.data.drop offset⟩ :: s.high
          wbSize := s.wbSize + (request.data.drop offset).length
          dw := none } = s.pending := by
      rw [pending_of_dw rfl, Socket.pending, Socket.direct, hdw]
      rfl
    refine ⟨.of_pending rfl rfl rfl rfl hpending (fun _ h => h) fun h => ?_, rfl, hpending, rfl⟩
    unfold Socket.Sized at h ⊢
    simp only [h, listSize, List.cons_append, unsent_cons, List.length_append, Nat.cast_add]
    ring

/-- What `send_list_tcp` may leave of a list. -/
structure Sends (l : List (WriteBuffer τ)) (r : ListSent τ) : Prop where
  bytes : r.written ++ unsent r.rest = unsent l
  tags : r.done ++ tags r.rest = SocketServer.tags l
  rest : ∀ wb ∈ r.rest, ∃ wb' ∈ l, ∃ n, wb = wb'.advance n
  tail : ∀ wb ∈ r.rest.tail, wb ∈ l

theorem Sends.refl (l : List (WriteBuffer τ)) (rs : List WriteResult) (failed : Bool) :
    Sends l ⟨[], [], l, rs, failed⟩ where
  bytes := rfl
  tags := rfl
  rest wb hwb := ⟨wb, hwb, 0, rfl⟩
  tail _ hwb := List.mem_of_mem_tail hwb

theorem sendListTcp_sends (rs : List WriteResult) (l : List (WriteBuffer τ)) :
    Sends l (sendListTcp rs l) := by
  fun_induction sendListTcp rs l with
  | case1 rs => exact .refl [] rs false
  | case2 wb l => exact .refl _ [] false
  | case3 rs wb l => exact .refl _ rs false
  | case4 rs wb l ih => exact ih
  | case5 rs wb l => exact .refl _ rs true
  | case6 n rs wb l hlt =>
    refine ⟨?_, rfl, fun wb' hmem => ?_, fun wb' hmem => List.mem_cons_of_mem _ hmem⟩
    · simp only [unsent_cons, WriteBuffer.advance, ← List.append_assoc, List.take_append_drop]
    · rcases List.mem_cons.mp hmem with rfl | hmem
      · exact ⟨wb, List.mem_cons_self, n, rfl⟩
      · exact ⟨wb', List.mem_cons_of_mem _ hmem, 0, rfl⟩
  | case7 n rs wb l hlt r ih =>
    refine ⟨?_, ?_, fun wb' hmem => ?_, fun wb' hmem => List.mem_cons_of_mem _ (ih.tail wb' hmem)⟩
    · rw [List.append_assoc, ih.bytes, unsent_cons]
    · rw [List.cons_append, ih.tags, tags_cons]
    · obtain ⟨wb2, hmem2, heq⟩ := ih.rest wb' hmem
      exact ⟨wb2, List.mem_cons_of_mem _ hmem2, heq⟩

theorem Sends.size {l : List (WriteBuffer τ)} {r : ListSent τ} (h : Sends l r) :
    (listSize r.rest : Int) = listSize l - r.written.length := by
  have hlen := congrArg List.length h.bytes
  simp only [List.length_append] at hlen
  unfold listSize
  omega

theorem sent_high (rs : List WriteResult) (hdw : s.dw = none) :
    Sent s { s.wrote (sendListTcp rs s.high) with high := (sendListTcp rs s.high).rest } := by
  have hsends := sendListTcp_sends rs s.high
  generalize sendListTcp rs s.high = r at hsends
  refine ⟨rfl, hdw, ?_, ⟨r.written, rfl, ?_⟩, fun wb hwb => ⟨wb, hwb, 0, rfl⟩, fun h => ?_⟩
  · rw [Socket.order, Socket.order, pending_of_dw hdw, pending_of_dw (by exact hdw), tags_append,
      tags_append, ← hsends.tags]
    simp only [Socket.wrote, List.append_assoc]
  · rw [pending_of_dw hdw, pending_of_dw (by exact hdw), unsent_append, unsent_append,
      ← hsends.bytes, List.append_assoc]
    rfl
  · unfold Socket.Sized at h ⊢
    simp only [Socket.wrote, h, listSize_append, Nat.cast_add, hsends.size]
    ring

theorem sent_low (rs : List WriteResult) (hdw : s.dw = none) (hhigh : s.high = []) :
    Sent s { s.wrote (sendListTcp rs s.low) with low := (sendListTcp rs s.low).rest } := by
  have hsends := sendListTcp_sends rs s.low
  generalize sendListTcp rs s.low = r at hsends
  refine ⟨rfl, hdw, ?_, ⟨r.written, rfl, ?_⟩, hsends.rest, fun h => ?_⟩
  · rw [Socket.order, Socket.order, pending_of_dw hdw, pending_of_dw (by exact hdw), tags_append,
      tags_append, ← hsends.tags]
    simp only [Socket.wrote, hhigh, tags_nil, List.nil_append, List.append_assoc]
  · rw [pending_of_dw hdw, pending_of_dw (by exact hdw), unsent_append, unsent_append,
      ← hsends.bytes]
    simp only [Socket.wrote, hhigh, unsent_nil, List.nil_append]
  · unfold Socket.Sized at h ⊢
    simp only [Socket.wrote, h, listSize_append, Nat.cast_add, hsends.size]
    ring

theorem sent_raise {wb : WriteBuffer τ} {low : List (WriteBuffer τ)} (hdw : s.dw = none)
    (hhigh : s.high = []) (hlow : s.low = wb :: low) :
    Sent s { s with high := [wb], low := low } := by
  refine .of_pending rfl hdw rfl rfl ?_ (fun wb' hmem => ?_) fun h => ?_
  · rw [pending_of_dw hdw, pending_of_dw (by exact hdw), hhigh, hlow]
    rfl
  · rw [hlow]
    exact List.mem_cons_of_mem _ hmem
  · unfold Socket.Sized at h ⊢
    rw [h, hhigh, hlow]
    rfl

def WriteResult.fails : WriteResult → Bool
  | .error => true
  | _ => false

def takes : List WriteResult → List Nat → Bool
  | _, [] => true
  | .intr :: rs, size :: sizes => takes rs (size :: sizes)
  | .wrote n :: rs, size :: sizes => size ≤ n && takes rs sizes
  | _, _ :: _ => false

def sizes (l : List (WriteBuffer τ)) : List Nat := l.map (·.data.length)

theorem takes_list (rs : List WriteResult) (l l' : List (WriteBuffer τ)) :
    takes rs (sizes (l ++ l')) =
      ((sendListTcp rs l).rest.isEmpty && takes (sendListTcp rs l).results (sizes l')) := by
  fun_induction sendListTcp rs l with
  | case1 rs | case2 wb l | case3 rs wb l => rfl
  | case4 rs wb l ih =>
    rw [← ih]
    rfl
  | case5 rs wb l => rfl
  | case6 n rs wb l hlt =>
    change (decide (wb.data.length ≤ n) && takes rs (sizes (l ++ l'))) = _
    rw [decide_eq_false (Nat.not_le.mpr hlt)]
    rfl
  | case7 n rs wb l hlt r ih =>
    change (decide (wb.data.length ≤ n) && takes rs (sizes (l ++ l'))) = _
    rw [decide_eq_true (Nat.not_lt.mp hlt), Bool.true_and, ih]

theorem sendListTcp_failed (rs : List WriteResult) (l : List (WriteBuffer τ)) :
    ((sendListTcp rs l).failed = true → rs.any WriteResult.fails = true) ∧
      ((sendListTcp rs l).results.any WriteResult.fails = true →
        rs.any WriteResult.fails = true) := by
  fun_induction sendListTcp rs l with
  | case1 rs | case2 wb l | case3 rs wb l => exact ⟨fun h => Bool.noConfusion h, id⟩
  | case4 rs wb l ih => exact ih
  | case5 rs wb l => exact ⟨fun _ => rfl, fun _ => rfl⟩
  | case6 n rs wb l hlt => exact ⟨fun h => Bool.noConfusion h, id⟩
  | case7 n rs wb l hlt r ih => exact ih

/-- What `send_buffer` with the lock comes to. -/
inductive Flush (s : Socket τ) (rs : List WriteResult) :
    Except Assertion (Socket τ × Option Report) → Prop
  | uncomplete (h : ∃ wb ∈ s.low, wb.ptr ≠ wb.buffer) : Flush s rs (.error .lowUncomplete)
  | failed {t : Socket τ} (h : Sent s t) (hfails : rs.any WriteResult.fails = true) :
      Flush s rs (.ok (forceClose t, some .close))
  | closed {t : Socket τ} (h : Sent s t) (hempty : sendBufferEmpty t)
      (htype : s.type = .halfclose) : Flush s rs (.ok (forceClose t, some .close))
  | drained {t : Socket τ} {r : Option Report} (h : Sent s t) (hempty : sendBufferEmpty t)
      (htype : s.type ≠ .halfclose) (hr : r ≠ some .close)
      (htakes : takes rs (sizes s.pending) = true) : Flush s rs (.ok (t, r))
  | rest {t : Socket τ} (h : Sent s t) (hrest : ¬ sendBufferEmpty t)
      (hevent : t.writeEvent = s.writeEvent)
      (hptr : (∀ wb ∈ s.low, wb.ptr = wb.buffer) → ∀ wb ∈ t.low, wb.ptr = wb.buffer)
      (htakes : takes rs (sizes s.pending) = false) : Flush s rs (.ok (t, none))

theorem flush_end {rs : List WriteResult} (hs : s.Sized) (h : Sent s t)
    (hempty : sendBufferEmpty t) (htakes : takes rs (sizes s.pending) = true) :
    Flush s rs (sendBufferEnd t) := by
  have hsize : t.wbSize = 0 := by
    have ht := h.size hs
    unfold Socket.Sized at ht
    rw [ht, hempty.1, hempty.2]
    rfl
  have hoff : ∀ n, Sent s { t with writeEvent := false, warnSize := n } := fun n =>
    h.trans (.of_pending rfl h.dw rfl rfl rfl (fun _ h => h) id)
  unfold sendBufferEnd
  rw [if_neg (not_not_intro ⟨hempty, hsize⟩)]
  dsimp only
  split
  · rename_i htype
    exact .closed (hoff t.warnSize) hempty (h.type.symm.trans htype)
  · rename_i htype
    have htype' : s.type ≠ .halfclose := fun hbad => htype (h.type.trans hbad)
    split
    · exact .drained (hoff 0) hempty htype' (by decide) htakes
    · exact .drained (hoff t.warnSize) hempty htype' (by decide) htakes

theorem ptr_of_not_uncomplete {l : List (WriteBuffer τ)} {r : ListSent τ} (h : Sends l r)
    (hhead : listUncomplete r.rest = false) (hl : ∀ wb ∈ l, wb.ptr = wb.buffer) :
    ∀ wb ∈ r.rest, wb.ptr = wb.buffer := by
  intro wb hwb
  cases hrest : r.rest with
  | nil =>
    rw [hrest] at hwb
    exact absurd hwb List.not_mem_nil
  | cons wb' rest =>
    rw [hrest] at hwb hhead
    rcases List.mem_cons.mp hwb with rfl | hwb
    · simpa [listUncomplete] using hhead
    · apply hl
      apply h.tail
      rw [hrest]
      exact hwb

theorem flush_low {rs rs' : List WriteResult} (hs : s.Sized) (h : Sent s t)
    (hhigh : t.high = []) (hlow : t.low = s.low) (hevent : t.writeEvent = s.writeEvent)
    (hfails : rs'.any WriteResult.fails = true → rs.any WriteResult.fails = true)
    (htakes : takes rs (sizes s.pending) = takes rs' (sizes s.low)) :
    Flush s rs (sendBufferLow t rs') := by
  have hsends := sendListTcp_sends rs' t.low
  have hstep := h.trans (sent_low rs' h.dw hhigh)
  have hwhole := takes_list rs' t.low []
  have hfailed := (sendListTcp_failed rs' t.low).1
  rw [List.append_nil, hlow, ← htakes] at hwhole
  unfold sendBufferLow
  split
  · rename_i hempty
    apply flush_end hs h ⟨hhigh, hempty⟩
    rw [htakes, ← hlow, hempty]
    exact takes.eq_1 rs'
  · rename_i hne
    dsimp only
    split
    · rename_i hfail
      exact .failed hstep (hfails (hfailed hfail))
    · split
      · rename_i huncomplete
        cases hrest : (sendListTcp rs' t.low).rest with
        | nil =>
          rw [hrest] at huncomplete
          exact Bool.noConfusion huncomplete
        | cons wb rest =>
          rw [← hlow, hrest] at hwhole
          have hraise := hstep.trans (sent_raise hstep.dw hhigh hrest)
          have hptr : (∀ wb ∈ s.low, wb.ptr = wb.buffer) → ∀ wb ∈ rest, wb.ptr = wb.buffer := by
            intro hall wb' hmem
            apply hall
            rw [← hlow]
            apply hsends.tail
            rw [hrest]
            exact hmem
          simp only [raiseUncomplete, Socket.wrote, hhigh, ne_eq, not_true_eq_false, if_false]
          exact .rest hraise (fun hbad => List.cons_ne_nil _ _ hbad.1) hevent hptr hwhole
      · rename_i huncomplete
        split
        · rename_i hrest
          refine .rest hstep (fun hbad => hrest hbad.2) hevent (fun hall => ?_) ?_
          · apply ptr_of_not_uncomplete hsends (Bool.not_eq_true _ ▸ huncomplete)
            rw [hlow]
            exact hall
          · rw [hwhole, ← hlow, List.isEmpty_eq_false_iff.mpr hrest]
            rfl
        · rename_i hrest
          have hnil := not_not.mp hrest
          refine flush_end hs hstep ⟨hhigh, hnil⟩ ?_
          rw [hwhole, ← hlow, List.isEmpty_iff.mpr hnil]
          exact takes.eq_1 _

theorem flush_lists {rs : List WriteResult} (hs : s.Sized) (h : Sent s t)
    (hlow : t.low = s.low) (hpending : t.pending = s.pending)
    (hevent : t.writeEvent = s.writeEvent) : Flush s rs (sendBufferLists t rs) := by
  have hstep := h.trans (sent_high rs h.dw)
  have hwhole := takes_list rs t.high t.low
  have hfailed := sendListTcp_failed rs t.high
  rw [← pending_of_dw h.dw, hpending] at hwhole
  unfold sendBufferLists
  split
  · rename_i huncomplete
    refine .uncomplete ?_
    rw [← hlow]
    cases hl : t.low with
    | nil =>
      rw [hl] at huncomplete
      exact Bool.noConfusion huncomplete
    | cons wb low =>
      rw [hl] at huncomplete
      exact ⟨wb, List.mem_cons_self, by simpa [listUncomplete] using huncomplete⟩
  · dsimp only
    split
    · rename_i hfail
      exact .failed hstep (hfailed.1 hfail)
    · split
      · rename_i hrest
        refine .rest hstep (fun hbad => hrest hbad.1) hevent (fun hall => ?_) ?_
        · change ∀ wb ∈ t.low, wb.ptr = wb.buffer
          rw [hlow]
          exact hall
        · rw [hwhole, List.isEmpty_eq_false_iff.mpr hrest]
          rfl
      · rename_i hrest
        have hnil := not_not.mp hrest
        refine flush_low hs hstep hnil hlow hevent hfailed.2 ?_
        rw [hwhole, List.isEmpty_iff.mpr hnil, Bool.true_and, hlow]

theorem sendBuffer_flush (hs : s.Sized) (rs : List WriteResult) :
    Flush s rs (sendBuffer s false rs) := by
  obtain ⟨hsent, hlow, hpending, hevent⟩ := takeDirect_sent s
  exact flush_lists hs hsent hlow hpending hevent

/-- What `send_socket` does with a request for a connection. -/
inductive SendCase (s : Socket τ) (request : Request τ) (low : Bool) :
    Socket τ × Option Report → Prop
  | dropped (h : s.type = .invalid ∨ s.type = .halfclose) : SendCase s request low (s, none)
  | first {n : Int} {r : Option Report} (htype : s.type = .connected) (hempty : sendBufferEmpty s)
      (hr : r ≠ some .close) :
      SendCase s request low
        ({ appendSendbuffer s request with writeEvent := true, warnSize := n }, r)
  | high {n : Int} {r : Option Report} (htype : s.type = .connecting ∨ s.type = .connected)
      (hne : ¬ (sendBufferEmpty s ∧ s.type = .connected)) (hlow : low = false)
      (hr : r ≠ some .close) :
      SendCase s request low ({ appendSendbuffer s request with warnSize := n }, r)
  | low {n : Int} {r : Option Report} (htype : s.type = .connecting ∨ s.type = .connected)
      (hne : ¬ (sendBufferEmpty s ∧ s.type = .connected)) (hlow : low = true)
      (hr : r ≠ some .close) :
      SendCase s request low ({ appendSendbufferLow s request with warnSize := n }, r)

theorem warn_case (s : Socket τ) :
    ∃ n r, warn s = ({ s with warnSize := n }, r) ∧ r ≠ some Report.close := by
  unfold warn
  split
  · exact ⟨_, _, rfl, by decide⟩
  · exact ⟨s.warnSize, none, rfl, by decide⟩

theorem sendSocket_case {request : Request τ} (low : Bool) (hid : s.id = request.id)
    (hprotocol : s.protocol = .tcp)
    (htype : (s.type = .connecting ∨ s.type = .connected) ∨ s.type = .invalid ∨
      s.type = .halfclose) :
    SendCase s request low (sendSocket s request low) := by
  unfold sendSocket
  rcases htype with htype | htype
  · have hdrop : ¬ (s.type = .invalid ∨ s.id ≠ request.id ∨ s.type = .halfclose ∨
        s.type = .paccept) := by
      rcases htype with htype | htype
      · simp [htype, hid]
      · simp [htype, hid]
    have hlisten : ¬ (s.type = .plisten ∨ s.type = .listen) := by
      rcases htype with htype | htype
      · simp [htype]
      · simp [htype]
    rw [if_neg hdrop, if_neg hlisten, if_neg (not_not_intro hprotocol)]
    split
    · rename_i hempty
      obtain ⟨n, r, heq, hr⟩ := warn_case { appendSendbuffer s request with writeEvent := true }
      rw [heq]
      exact .first hempty.2 hempty.1 hr
    · rename_i hne
      split
      · rename_i hlow
        obtain ⟨n, r, heq, hr⟩ := warn_case (appendSendbufferLow s request)
        rw [heq]
        exact .low htype hne hlow hr
      · rename_i hlow
        obtain ⟨n, r, heq, hr⟩ := warn_case (appendSendbuffer s request)
        rw [heq]
        exact .high htype hne (Bool.not_eq_true _ ▸ hlow) hr
  · rw [if_pos (htype.imp_right fun h => .inr (.inl h))]
    exact .dropped htype

end

end XsServer.SocketServer
