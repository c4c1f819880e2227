import XsServer.SocketServer.Socket
import XsServer.Lib.Occurs

/-! The counter of the requests in flight is exact, as long as no request for an id is past its
increment when the socket of the id is set up. -/

namespace XsServer.SocketServer

open Lib

/-! ### What leaves the counter alone -/

/-- The fields that the counter of requests rests on. -/
def Socket.Same {τ : Type} (s s' : Socket τ) : Prop :=
  s'.id = s.id ∧ s'.protocol = s.protocol ∧ s'.sending = s.sending

section

variable {τ : Type} {s t u : Socket τ} {r : Option Report}

theorem Socket.Same.refl (s : Socket τ) : s.Same s := ⟨rfl, rfl, rfl⟩

/-- The socket that comes out is the same, and an assertion that fails is not that of the
counter. -/
def Keeps (s : Socket τ) (x : Except Assertion (Socket τ × Option Report)) : Prop :=
  match x with
  | .ok r => s.Same r.1
  | .error a => a ≠ .noSending

theorem keeps_end (h : s.Same t) : Keeps s (sendBufferEnd t) := by
  unfold sendBufferEnd
  split
  · exact fun h => Assertion.noConfusion h
  · dsimp only
    split
    · exact h
    · split
      · exact h
      · exact h

theorem keeps_low (h : s.Same t) (rs : List WriteResult) : Keeps s (sendBufferLow t rs) := by
  unfold sendBufferLow
  split
  · exact keeps_end h
  · dsimp only
    split
    · exact h
    · split
      · unfold raiseUncomplete
        split
        · exact h
        · split
          · exact fun h => Assertion.noConfusion h
          · exact h
      · split
        · exact h
        · exact keeps_end h

theorem keeps_lists (h : s.Same t) (rs : List WriteResult) : Keeps s (sendBufferLists t rs) := by
  unfold sendBufferLists
  split
  · exact fun h => Assertion.noConfusion h
  · dsimp only
    split
    · exact h
    · split
      · exact h
      · apply keeps_low
        exact h

theorem takeDirect_same (s : Socket τ) : s.Same (takeDirect s) := by
  unfold takeDirect
  split
  · exact .refl s
  · exact .refl s

theorem sendBuffer_keeps (s : Socket τ) (locked : Bool) (rs : List WriteResult) :
    Keeps s (sendBuffer s locked rs) := by
  unfold sendBuffer
  split
  · exact .refl s
  · exact keeps_lists (takeDirect_same s) rs

theorem warn_same (s : Socket τ) : s.Same (warn s).1 := by
  unfold warn
  split
  · exact .refl s
  · exact .refl s

theorem sendSocket_same (s : Socket τ) (request : Request τ) (low : Bool) :
    s.Same (sendSocket s request low).1 := by
  unfold sendSocket
  repeat' split
  · exact .refl s
  · exact .refl s
  · exact .refl s
  · exact warn_same _
  · exact warn_same _
  · exact warn_same _

theorem closeSocket_same {id : Nat} {locked : Bool} {rs : List WriteResult}
    {r : Socket τ × Option Report × Bool} (h : closeSocket s id locked rs = .ok r) :
    s.Same r.1 := by
  have hcase := closeSocket_case s id locked rs
  have hkeeps := sendBuffer_keeps s locked rs
  rw [h] at hcase
  cases hcase with
  | other _ | nomore _ _ => exact .refl s
  | closed _ hsend | drained _ hsend _ _ | half _ hsend _ _ =>
    rw [hsend] at hkeeps
    exact hkeeps

theorem closeSocket_error {id : Nat} {locked : Bool} {rs : List WriteResult} {a : Assertion}
    (h : closeSocket s id locked rs = .error a) : a ≠ .noSending := by
  have hcase := closeSocket_case s id locked rs
  have hkeeps := sendBuffer_keeps s locked rs
  rw [h] at hcase
  cases hcase with
  | failed _ hsend =>
    rw [hsend] at hkeeps
    exact hkeeps

end

/-! ### The requests in flight -/

def Call.Counts (id : Nat) (c : Call) : Bool :=
  c.phase = .passed ∧ c.request.id = id ∧ c.request.tag

def Command.Counts (id : Nat) : Command → Bool
  | .send request _ => request.id = id ∧ request.tag
  | _ => false

/-- The number of requests for the id of the slot that were counted and are not processed. -/
def Slot.inFlight (w : Slot) : Nat :=
  w.calls.countP (Call.Counts w.s.id) + w.pipe.countP (Command.Counts w.s.id)

inductive Slot.Passed (w : Slot) : Request Bool → Prop
  | call {c : Call} (hc : c ∈ w.calls) (hpassed : c.phase = .passed) : Passed w c.request
  | pipe {request : Request Bool} {low : Bool} (hc : .send request low ∈ w.pipe) : Passed w request

/-- No request for an id is past its increment when a socket of TCP is set up for the id. -/
def Slot.Fresh (w : Slot) (id : Nat) : Prop := ∀ request, w.Passed request → request.id ≠ id

def Slot.Allows (w : Slot) : SlotEvent → Prop
  | .command type _ _ => ∀ id pipe, w.pipe = .setup id .tcp :: pipe → type ≠ .invalid → w.Fresh id
  | .accept id => w.Fresh id
  | _ => True

structure Slot.Exact (w : Slot) : Prop where
  tag : w.s.sending / 2 ^ 16 = idTag16 w.s.id
  count : w.s.sendingRef = w.inFlight
  counted : ∀ request, w.Passed request → request.id = w.s.id → request.tag = true

structure Slot.Inv (w : Slot) : Prop where
  given : ∀ id ∈ w.given, w.Own id
  opening : ∀ o ∈ w.opening, w.Own o.1
  setup : ∀ id protocol, .setup id protocol ∈ w.pipe → id ∈ w.given
  sent : ∀ request low, .send request low ∈ w.pipe → request.id ∈ w.given
  calls : ∀ c ∈ w.calls, c.request.id ∈ w.given
  used : w.s.protocol = .tcp → w.s.id ∈ w.given ∨ w.opening = []
  exact : w.s.protocol = .tcp → w.s.id ∈ w.given → w.Exact
  failed : w.failed ≠ some .noSending

variable {w w' : Slot}

theorem Slot.Exact.mono (h : w.Exact) (hs : w.s.Same w'.s) (hcount : w'.inFlight = w.inFlight)
    (hpassed : ∀ request, w'.Passed request → request.id = w'.s.id → w.Passed request) :
    w'.Exact where
  tag := by rw [hs.2.2, hs.1, h.tag]
  count := by
    rw [hcount, ← h.count, Socket.sendingRef, Socket.sendingRef, hs.2.2]
  counted request hr hid := h.counted request (hpassed request hr hid) (hid.trans hs.1)

theorem Slot.Exact.fresh {id : Nat} (hid : w.s.id = id)
    (hsending : w.s.sending = idTag16 id * 2 ^ 16) (h : w.Fresh id) : w.Exact where
  tag := by rw [hsending, hid, Nat.mul_div_cancel _ (by decide)]
  count := by
    have hcalls : w.calls.countP (Call.Counts w.s.id) = 0 := by
      rw [List.countP_eq_zero]
      intro c hc hcounts
      simp only [Call.Counts, decide_eq_true_eq] at hcounts
      exact h c.request (.call hc hcounts.1) (hcounts.2.1.trans hid)
    have hpipe : w.pipe.countP (Command.Counts w.s.id) = 0 := by
      rw [List.countP_eq_zero]
      intro c hc hcounts
      cases c with
      | send request low =>
        simp only [Command.Counts, decide_eq_true_eq] at hcounts
        exact h request (.pipe hc) (hcounts.1.trans hid)
      | setup | close => cases hcounts
    rw [Slot.inFlight, hcalls, hpipe, Socket.sendingRef, hsending, Nat.mul_mod_left]
  counted request hr hid' := absurd (hid'.trans hid) (h request hr)

theorem Slot.Own.eq {id id' : Nat} (h : w.Own id) (h' : w.Own id')
    (htag : idTag16 id = idTag16 id') : id = id' := by
  have hhash := h.1.trans h'.1.symm
  have hlt := h.2
  have hlt' := h'.2
  unfold hashId MAX_SOCKET at hhash
  unfold idTag16 at htag
  omega

theorem Slot.Inv.start (h : w.Start) : w.Inv := by
  obtain ⟨htype, hopening, hcalls, hpipe, hgiven, hfailed⟩ := h
  constructor
  · rw [hgiven]
    exact fun id hid => absurd hid List.not_mem_nil
  · rw [hopening]
    exact fun o ho => absurd ho List.not_mem_nil
  · rw [hpipe]
    exact fun id protocol hc => absurd hc List.not_mem_nil
  · rw [hpipe]
    exact fun request low hc => absurd hc List.not_mem_nil
  · rw [hcalls]
    exact fun c hc => absurd hc List.not_mem_nil
  · exact fun _ => .inr hopening
  · rw [hgiven]
    exact fun _ hid => absurd hid List.not_mem_nil
  · rw [hfailed]
    intro h
    cases h

theorem Call.not_counts {c : Call} (h : c.phase ≠ .passed) (id : Nat) : c.Counts id = false :=
  decide_eq_false fun hc => h hc.1

def Slot.setCall (w : Slot) (s : Socket Bool) (i : Nat) (c : Call) : Slot :=
  { w with s := s, calls := w.calls.set i c }

section

variable {i : Nat} {c c' : Call} {s : Socket Bool}

theorem Slot.passed_setCall (hi : w.calls[i]? = some c) {request : Request Bool}
    (h : (w.setCall s i c').Passed request) :
    w.Passed request ∨ c'.phase = .passed ∧ request = c'.request := by
  obtain ⟨before, after, heq, hset, -⟩ := getElem?_split hi
  cases h with
  | call hmem hpassed =>
    simp only [Slot.setCall, hset] at hmem
    rcases List.mem_append.mp hmem with hmem | hmem
    · exact .inl (.call (heq ▸ List.mem_append_left _ hmem) hpassed)
    · rcases List.mem_cons.mp hmem with rfl | hmem
      · exact .inr ⟨hpassed, rfl⟩
      · exact .inl (.call (heq ▸ List.mem_append_right _ (List.mem_cons_of_mem _ hmem)) hpassed)
  | pipe hmem => exact .inl (.pipe hmem)

theorem Slot.inFlight_setCall (hi : w.calls[i]? = some c) (hc : c.phase ≠ .passed)
    (hs : s.id = w.s.id) :
    (w.setCall s i c').inFlight = w.inFlight + if c'.Counts w.s.id then 1 else 0 := by
  obtain ⟨before, after, heq, hset, -⟩ := getElem?_split hi
  have hold : w.calls.countP (Call.Counts w.s.id) =
      before.countP (Call.Counts w.s.id) + after.countP (Call.Counts w.s.id) := by
    rw [heq, List.countP_append, List.countP_cons, Call.not_counts hc, if_neg Bool.false_ne_true,
      Nat.add_zero]
  simp only [Slot.inFlight, Slot.setCall, hs, hset, hold, List.countP_append, List.countP_cons]
  omega

theorem Slot.Inv.setCall (h : w.Inv) (hi : w.calls[i]? = some c)
    (hid : c'.request.id = c.request.id) (hs : s.id = w.s.id ∧ s.protocol = w.s.protocol)
    (hexact : w.Exact → w.s.protocol = .tcp → w.s.id ∈ w.given → (w.setCall s i c').Exact) :
    (w.setCall s i c').Inv where
  given := h.given
  opening := h.opening
  setup := h.setup
  sent := h.sent
  calls d hd := by
    rcases List.mem_or_eq_of_mem_set hd with hd | rfl
    · exact h.calls d hd
    · rw [hid]
      exact h.calls c (List.mem_of_getElem? hi)
  used htcp := by
    change s.id ∈ w.given ∨ _
    rw [hs.1]
    exact h.used (hs.2.symm.trans htcp)
  exact htcp hgiven := by
    have htcp' := hs.2.symm.trans htcp
    have hgiven' : w.s.id ∈ w.given := hs.1 ▸ hgiven
    exact hexact (h.exact htcp' hgiven') htcp' hgiven'
  failed := h.failed

theorem Slot.Inv.protocol (h : w.Inv) (hi : w.calls[i]? = some c) (hready : c.phase = .ready) :
    (w.setCall w.s i (if w.s.protocol = .tcp then { c with phase := .counting }
      else ⟨{ c.request with tag := false }, c.low, .passed⟩)).Inv := by
  have hc : c.phase ≠ .passed := by
    rw [hready]
    decide
  split
  · refine h.setCall hi rfl ⟨rfl, rfl⟩ fun hexact _ _ => ?_
    refine hexact.mono (.refl _) ?_ fun request hr _ => ?_
    · rw [inFlight_setCall hi hc rfl]
      rfl
    · exact (passed_setCall hi hr).resolve_right fun hbad => Phase.noConfusion hbad.1
  · rename_i hprotocol
    exact h.setCall hi rfl ⟨rfl, rfl⟩ fun _ htcp _ => absurd htcp hprotocol

theorem Slot.Inv.count (h : w.Inv) (hi : w.calls[i]? = some c) (hcounting : c.phase = .counting)
    (hs : incSendingRef w.s c.request.id = some s) :
    (w.setCall s i ⟨{ c.request with tag := s.sending ≠ w.s.sending }, c.low, .passed⟩).Inv := by
  have hc : c.phase ≠ .passed := by
    rw [hcounting]
    decide
  have hgiven := h.calls c (List.mem_of_getElem? hi)
  unfold incSendingRef at hs
  split at hs
  · rename_i htag
    split at hs
    · cases hs
    · rename_i hfull
      cases hs
      refine h.setCall hi rfl ⟨rfl, rfl⟩ fun hexact _ hid => ?_
      have heq : c.request.id = w.s.id :=
        (h.given _ hgiven).eq (h.given _ hid) (htag.symm.trans hexact.tag)
      have hcount := hexact.count
      have htag' := hexact.tag
      unfold Socket.sendingRef at hfull hcount
      constructor
      · change (w.s.sending + 1) / 2 ^ 16 = idTag16 w.s.id
        omega
      · rw [inFlight_setCall (s := { w.s with sending := w.s.sending + 1 }) hi hc rfl]
        change (w.s.sending + 1) % 2 ^ 16 = _
        have hcounts : Call.Counts w.s.id
            ⟨{ c.request with tag := w.s.sending + 1 ≠ w.s.sending }, c.low, .passed⟩ = true := by
          simp [Call.Counts, heq]
        rw [hcounts, if_pos rfl]
        omega
      · intro request hr hid'
        rcases passed_setCall hi hr with hr | ⟨-, rfl⟩
        · exact hexact.counted request hr hid'
        · simp
  · rename_i htag
    cases hs
    refine h.setCall hi rfl ⟨rfl, rfl⟩ fun hexact _ hid => ?_
    have hne : c.request.id ≠ w.s.id := fun heq => htag (heq ▸ hexact.tag)
    refine hexact.mono (.refl _) ?_ fun request hr hid' => ?_
    · rw [inFlight_setCall hi hc rfl]
      simp [Call.Counts, hne]
    · refine (passed_setCall hi hr).resolve_right ?_
      rintro ⟨-, rfl⟩
      exact hne hid'

end

theorem Slot.Inv.push {i : Nat} {c : Call} (h : w.Inv) (hi : w.calls[i]? = some c)
    (hpassed : c.phase = .passed) :
    ({ w with
      calls := w.calls.eraseIdx i, pipe := w.pipe ++ [.send c.request c.low] } : Slot).Inv := by
  obtain ⟨before, after, heq, -, herase⟩ := getElem?_split hi
  have hmem : c ∈ w.calls := List.mem_of_getElem? hi
  refine ⟨h.given, h.opening, fun id protocol hc => ?_, fun request low hc => ?_, fun d hd => ?_,
    h.used, fun htcp hgiven => (h.exact htcp hgiven).mono (.refl _) ?_ fun request hr _ => ?_,
      h.failed⟩
  · rcases List.mem_append.mp hc with hc | hc
    · exact h.setup id protocol hc
    · exact Command.noConfusion (List.mem_singleton.mp hc)
  · rcases List.mem_append.mp hc with hc | hc
    · exact h.sent request low hc
    · cases List.mem_singleton.mp hc
      exact h.calls c hmem
  · exact h.calls d (List.mem_of_mem_eraseIdx hd)
  · have hcounts : Command.Counts w.s.id (.send c.request c.low) = c.Counts w.s.id := by
      simp [Call.Counts, Command.Counts, hpassed]
    simp only [Slot.inFlight]
    rw [herase, heq, List.countP_append, List.countP_append, List.countP_append, List.countP_cons,
      List.countP_cons, List.countP_nil, hcounts]
    omega
  · cases hr with
    | call hd hd' => exact .call (List.mem_of_mem_eraseIdx hd) hd'
    | pipe hc =>
      rcases List.mem_append.mp hc with hc | hc
      · exact .pipe hc
      · cases List.mem_singleton.mp hc
        exact .call hmem hpassed

theorem Slot.Exact.pop {c : Command} {pipe : List Command} {s : Socket Bool} (h : w.Exact)
    (hpipe : w.pipe = c :: pipe) (hc : c.Counts w.s.id = false) (hs : w.s.Same s) :
    ({ w with pipe := pipe, s := s } : Slot).Exact := by
  refine h.mono hs ?_ fun request hr _ => ?_
  · simp only [Slot.inFlight, hpipe, List.countP_cons, hs.1, hc]
    rfl
  · cases hr with
    | call hd hd' => exact .call hd hd'
    | pipe hc => exact .pipe (hpipe ▸ List.mem_cons_of_mem _ hc)

theorem Slot.Inv.pop {c : Command} {pipe : List Command} {s : Socket Bool} (h : w.Inv)
    (hpipe : w.pipe = c :: pipe) (hused : s.protocol = .tcp → s.id ∈ w.given ∨ w.opening = [])
    (hexact : s.protocol = .tcp → s.id ∈ w.given → ({ w with pipe := pipe, s := s } : Slot).Exact) :
    ({ w with pipe := pipe, s := s } : Slot).Inv :=
  ⟨h.given, h.opening,
   fun id protocol hc => h.setup id protocol (hpipe ▸ List.mem_cons_of_mem _ hc),
    fun request low hc => h.sent request low (hpipe ▸ List.mem_cons_of_mem _ hc), h.calls, hused,
    hexact, h.failed⟩

theorem Slot.Inv.setUp {id : Nat} {protocol : Protocol} {type : SocketType} {pipe : List Command}
    (h : w.Inv) (hpipe : w.pipe = .setup id protocol :: pipe)
    (hfresh : protocol = .tcp → type ≠ .invalid → w.Fresh id) :
    ({ w with pipe := pipe, s := SocketServer.setup w.s id protocol type } : Slot).Inv := by
  have hgiven := h.setup id protocol (hpipe ▸ List.mem_cons_self)
  unfold SocketServer.setup
  split
  · refine h.pop hpipe h.used fun htcp hid => ?_
    exact (h.exact htcp hid).pop hpipe rfl (.refl _)
  · rename_i htype
    refine h.pop hpipe (fun _ => .inl hgiven) fun htcp _ => ?_
    refine Slot.Exact.fresh rfl rfl fun request hr => ?_
    refine hfresh htcp htype request ?_
    cases hr with
    | call hd hd' => exact .call hd hd'
    | pipe hc => exact .pipe (hpipe ▸ List.mem_cons_of_mem _ hc)

theorem Slot.Inv.processed {request : Request Bool} {low : Bool} {pipe : List Command} (h : w.Inv)
    (hpipe : w.pipe = .send request low :: pipe) :
    ({ w with pipe := pipe }.with
      (decSendingRef (sendSocket w.s request low).1 request.id) : Slot).Inv := by
  have hsame := sendSocket_same w.s request low
  generalize (sendSocket w.s request low).1 = s at hsame
  obtain ⟨hsid, hprotocol, hsending⟩ := hsame
  unfold decSendingRef
  have hpassed : w.Passed request := .pipe (hpipe ▸ List.mem_cons_self)
  have hrest : ∀ {request' : Request Bool} {s : Socket Bool},
      ({ w with pipe := pipe, s := s } : Slot).Passed request' → w.Passed request' :=
    fun hr => match hr with
      | .call hd hd' => .call hd hd'
      | .pipe hc => .pipe (hpipe ▸ List.mem_cons_of_mem _ hc)
  split
  · rename_i hdec
    obtain ⟨hid, htcp⟩ := hdec
    have hmine : request.id = w.s.id := hid.symm.trans hsid
    have hgiven : w.s.id ∈ w.given := hmine ▸ h.sent request low (hpipe ▸ List.mem_cons_self)
    have hexact := h.exact (hprotocol ▸ htcp) hgiven
    have hcounts : Command.Counts w.s.id (.send request low) = true := by
      simp [Command.Counts, hmine, hexact.counted request hpassed hmine]
    have hcount := hexact.count
    have htag := hexact.tag
    rw [Slot.inFlight, hpipe, List.countP_cons, hcounts, if_pos rfl] at hcount
    unfold Socket.sendingRef at hcount
    rw [Socket.sendingRef, hsending, if_neg (by omega)]
    refine h.pop hpipe (fun _ => .inl ?_) fun _ _ => ⟨?_, ?_, fun request' hr hid' => ?_⟩
    · change s.id ∈ w.given
      rwa [hsid]
    · change (w.s.sending - 1) / 2 ^ 16 = idTag16 s.id
      rw [hsid]
      omega
    · change (w.s.sending - 1) % 2 ^ 16 = w.calls.countP (Call.Counts s.id) +
        pipe.countP (Command.Counts s.id)
      rw [hsid]
      omega
    · exact hexact.counted request' (hrest hr) (hid'.trans hsid)
  · rename_i hdec
    refine h.pop hpipe (fun htcp => ?_) fun htcp hid => ?_
    · rw [hsid]
      exact h.used (hprotocol ▸ htcp)
    · have hne : request.id ≠ w.s.id := fun heq => hdec ⟨hsid.trans heq.symm, htcp⟩
      refine (h.exact (hprotocol ▸ htcp) (hsid ▸ hid)).pop hpipe ?_ ⟨hsid, hprotocol, hsending⟩
      simp [Command.Counts, hne]

theorem Slot.Inv.closed {id : Nat} {locked : Bool} {rs : List WriteResult} {pipe : List Command}
    (h : w.Inv) (hpipe : w.pipe = .close id :: pipe) (type : SocketType) :
    ({ w with pipe := pipe }.with (ctrlCmd w.s type locked rs (.close id)) : Slot).Inv := by
  have hsame : ∀ r, closeSocket w.s id locked rs = .ok r →
      w.s.Same (if r.2.2 then forceClose r.1 else r.1) := fun r hr => by
    have hr' := closeSocket_same hr
    split
    · exact hr'
    · exact hr'
  rw [ctrlCmd]
  cases hclose : closeSocket w.s id locked rs with
  | error a =>
    have h' := h.pop hpipe h.used fun htcp hid => (h.exact htcp hid).pop hpipe rfl (.refl _)
    exact ⟨h'.given, h'.opening, h'.setup, h'.sent, h'.calls, h'.used,
      fun htcp hid => (h'.exact htcp hid).mono (.refl _) rfl fun _ hr _ => by
        cases hr with
        | call hd hd' => exact .call hd hd'
        | pipe hc => exact .pipe hc,
      fun hfailed => closeSocket_error hclose (Option.some.inj hfailed)⟩
  | ok r =>
    obtain ⟨hsid, hprotocol, hsending⟩ := hsame r hclose
    refine h.pop hpipe (fun htcp => ?_) fun htcp hid => ?_
    · rw [hsid]
      exact h.used (hprotocol ▸ htcp)
    · exact (h.exact (hprotocol ▸ htcp) (hsid ▸ hid)).pop hpipe rfl ⟨hsid, hprotocol, hsending⟩

theorem Slot.Inv.step {e : SlotEvent} (h : w.Inv) (hallows : w.Allows e) (hstep : w.Step e w') :
    w'.Inv := by
  cases hstep with
  | @reserve id protocol _ hid _ =>
    refine ⟨h.given, fun o ho => ?_, h.setup, h.sent, h.calls,
      fun htcp => Protocol.noConfusion htcp, fun htcp => Protocol.noConfusion htcp, h.failed⟩
    rcases List.mem_cons.mp ho with rfl | ho
    · exact hid
    · exact h.opening o ho
  | @opened i o _ hi =>
    have ho : o ∈ w.opening := List.mem_of_getElem? hi
    have hused : w.s.protocol = .tcp → w.s.id ∈ w.given := fun htcp =>
      (h.used htcp).resolve_right fun hnil => by
        rw [hnil] at ho
        exact absurd ho List.not_mem_nil
    refine ⟨fun id hid => ?_, fun o' ho' => ?_, fun id protocol hc => ?_, fun request low hc => ?_,
      fun c hc => List.mem_cons_of_mem _ (h.calls c hc),
      fun htcp => .inl (List.mem_cons_of_mem _ (hused htcp)),
      fun htcp _ => (h.exact htcp (hused htcp)).mono (.refl _) ?_ fun request hr _ => ?_, h.failed⟩
    · rcases List.mem_cons.mp hid with rfl | hid
      · exact h.opening o ho
      · exact h.given id hid
    · exact h.opening o' (List.mem_of_mem_eraseIdx ho')
    · rcases List.mem_append.mp hc with hc | hc
      · exact List.mem_cons_of_mem _ (h.setup id protocol hc)
      · cases List.mem_singleton.mp hc
        exact List.mem_cons_self
    · rcases List.mem_append.mp hc with hc | hc
      · exact List.mem_cons_of_mem _ (h.sent request low hc)
      · exact Command.noConfusion (List.mem_singleton.mp hc)
    · simp only [Slot.inFlight, List.countP_append, List.countP_cons, List.countP_nil]
      rfl
    · cases hr with
      | call hd hd' => exact .call hd hd'
      | pipe hc =>
        rcases List.mem_append.mp hc with hc | hc
        · exact .pipe hc
        · exact Command.noConfusion (List.mem_singleton.mp hc)
  | @accept id _ hid _ =>
    refine ⟨fun id' hid' => ?_, h.opening,
      fun id' protocol hc => List.mem_cons_of_mem _ (h.setup id' protocol hc),
      fun request low hc => List.mem_cons_of_mem _ (h.sent request low hc),
      fun c hc => List.mem_cons_of_mem _ (h.calls c hc), fun _ => .inl List.mem_cons_self,
      fun _ _ => Slot.Exact.fresh rfl rfl fun request hr => hallows request ?_, h.failed⟩
    · rcases List.mem_cons.mp hid' with rfl | hid'
      · exact hid
      · exact h.given id' hid'
    · cases hr with
      | call hd hd' => exact .call hd hd'
      | pipe hc => exact .pipe hc
  | @send request low _ hgiven _ _ =>
    refine ⟨h.given, h.opening, h.setup, h.sent, fun c hc => ?_, h.used,
      fun htcp hid => (h.exact htcp hid).mono (.refl _) ?_ fun request' hr _ => ?_, h.failed⟩
    · rcases List.mem_cons.mp hc with rfl | hc
      · exact hgiven
      · exact h.calls c hc
    · simp only [Slot.inFlight, List.countP_cons]
      rfl
    · cases hr with
      | call hd hd' =>
        rcases List.mem_cons.mp hd with rfl | hd
        · exact Phase.noConfusion hd'
        · exact .call hd hd'
      | pipe hc => exact .pipe hc
  | protocol _ hi hready => exact h.protocol hi hready
  | count _ hi hcounting hs => exact h.count hi hcounting hs
  | push _ hi hpassed => exact h.push hi hpassed
  | @close id _ _ =>
    refine ⟨h.given, h.opening, fun id' protocol hc => ?_, fun request low hc => ?_, h.calls,
      h.used, fun htcp hid => (h.exact htcp hid).mono (.refl _) ?_ fun request hr _ => ?_, h.failed⟩
    · rcases List.mem_append.mp hc with hc | hc
      · exact h.setup id' protocol hc
      · exact Command.noConfusion (List.mem_singleton.mp hc)
    · rcases List.mem_append.mp hc with hc | hc
      · exact h.sent request low hc
      · exact Command.noConfusion (List.mem_singleton.mp hc)
    · simp only [Slot.inFlight, List.countP_append, List.countP_cons, List.countP_nil]
      rfl
    · cases hr with
      | call hd hd' => exact .call hd hd'
      | pipe hc =>
        rcases List.mem_append.mp hc with hc | hc
        · exact .pipe hc
        · exact Command.noConfusion (List.mem_singleton.mp hc)
  | @command c pipe type locked rs _ hpipe _ =>
    cases c with
    | setup id protocol =>
      refine h.setUp hpipe fun htcp htype => ?_
      subst htcp
      exact hallows id pipe hpipe htype
    | send request low => exact h.processed hpipe
    | close id => exact h.closed hpipe type
  | other _ hs =>
    obtain ⟨hsid, hprotocol, hsending, -, -, -⟩ := hs
    refine ⟨h.given, h.opening, h.setup, h.sent, h.calls, fun htcp => ?_, fun htcp hid => ?_,
      h.failed⟩
    · rw [hsid]
      exact h.used (hprotocol ▸ htcp)
    · refine (h.exact (hprotocol ▸ htcp) (hsid ▸ hid)).mono ⟨hsid, hprotocol, hsending⟩ ?_
        fun request hr _ => ?_
      · simp only [Slot.inFlight, hsid]
      · cases hr with
        | call hd hd' => exact .call hd hd'
        | pipe hc => exact .pipe hc

/-- The counter is that of the requests in flight, under the tag of the id, and there is one when a
request is processed, in every run where no request for an id is past its increment when a TCP
socket is set up for it. -/
theorem sending_exact {w0 w : Slot} {es : List SlotEvent} (h0 : w0.Start)
    (h : Run (Guarded Slot.Allows Slot.Step) w0 es w) :
    w.failed ≠ some .noSending ∧
      (w.s.protocol = .tcp → w.s.id ∈ w.given →
        w.s.sending / 2 ^ 16 = idTag16 w.s.id ∧ w.s.sendingRef = w.inFlight) := by
  have hinv : w.Inv :=
    h.invariant (Slot.Inv.start h0) fun _ _ _ hi hstep => hi.step hstep.1 hstep.2
  exact ⟨hinv.failed, fun htcp hid => ⟨(hinv.exact htcp hid).tag, (hinv.exact htcp hid).count⟩⟩

def slotFive : Slot where
  index := 5
  s := ⟨0, .invalid, .unknown, 0, [], [], 0, 0, none, false, [], []⟩
  opening := []
  calls := []
  pipe := []
  given := []
  failed := none

def hello : Request Bool := ⟨5, false, 0, 0, [104, 105]⟩

theorem slotFive_start : slotFive.Start := ⟨rfl, rfl, rfl, rfl, rfl, rfl⟩

theorem Slot.Step.guarded {e : SlotEvent} (h : w.Step e w') (hallows : w.Allows e) :
    Guarded Slot.Allows Slot.Step w e w' := ⟨hallows, h⟩

/-- A connection is set up, and a request for it is counted. -/
theorem sending_exact_connected : ∃ es w, Run (Guarded Slot.Allows Slot.Step) slotFive es w ∧
    w.s.sendingRef = 1 ∧ w.s.sendingRef = w.inFlight := by
  have hfresh : ∀ w : Slot, w.calls = [] → w.pipe = [.setup 5 .tcp] → w.Fresh 5 :=
    fun w hcalls hpipe request hr _ => by
      cases hr with
      | call hc _ =>
        rw [hcalls] at hc
        exact absurd hc List.not_mem_nil
      | pipe hc =>
        rw [hpipe] at hc
        exact Command.noConfusion (List.mem_singleton.mp hc)
  have h0 : Run (Guarded Slot.Allows Slot.Step) slotFive [] slotFive := .nil _
  have h1 := h0.snoc
    (Slot.Step.guarded (@Slot.Step.reserve _ 5 .tcp rfl ⟨rfl, by decide⟩ rfl) trivial)
  have h2 := h1.snoc (Slot.Step.guarded (.opened (i := 0) rfl rfl) trivial)
  have h3 := h2.snoc (Slot.Step.guarded
    (@Slot.Step.command _ _ _ .connected false [] rfl rfl trivial) fun id pipe hpipe _ => by
      cases hpipe
      exact hfresh _ rfl rfl)
  have h4 := h3.snoc (Slot.Step.guarded
    (@Slot.Step.send _ hello true rfl List.mem_cons_self rfl (by decide)) trivial)
  have h5 := h4.snoc (Slot.Step.guarded (.protocol (i := 0) rfl rfl rfl) trivial)
  have h6 := h5.snoc (Slot.Step.guarded (.count (i := 0) rfl rfl rfl rfl) trivial)
  exact ⟨_, _, h6, rfl, ((sending_exact slotFive_start h6).2 rfl List.mem_cons_self).2⟩

/-- A request that is sent as soon as the id is returned is not counted, but it is counted down. -/
theorem sending_reserved : ¬ ∀ w0 w es, Slot.Start w0 → Run Slot.Step w0 es w →
    w.failed ≠ some .noSending := by
  intro hall
  have h0 : Run Slot.Step slotFive [] slotFive := .nil _
  have h1 := h0.snoc (@Slot.Step.reserve _ 5 .tcp rfl ⟨rfl, by decide⟩ rfl)
  have h2 := h1.snoc (.opened (i := 0) rfl rfl)
  have h3 := h2.snoc (@Slot.Step.send _ hello true rfl List.mem_cons_self rfl (by decide))
  have h4 := h3.snoc (.protocol (i := 0) rfl rfl rfl)
  have h5 := h4.snoc (.push (i := 0) rfl rfl rfl)
  have h6 := h5.snoc (@Slot.Step.command _ _ _ .connecting false [] rfl rfl trivial)
  have h7 := h6.snoc (@Slot.Step.command _ _ _ .connecting false [] rfl rfl trivial)
  exact hall _ _ _ slotFive_start h7 rfl

end XsServer.SocketServer
