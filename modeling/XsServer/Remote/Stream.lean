import XsServer.Remote.Service

/-! What one harbor writes and the next one reads.  The reader takes a length below `2^24` only,
while the writer allows every length below `2^32`; and it takes a negative session for a failure. -/

namespace XsServer.Remote

open Lib

structure Packet where
  source : UInt32
  destination : UInt32
  type : UInt8
  session : Int32
  msg : List UInt8

def Packet.cookie (p : Packet) : Header :=
  ⟨p.source, cookieDestination p.type p.destination, p.session.toUInt32⟩

def written (es : List Effect) : List UInt8 :=
  es.flatMap fun
    | .write _ bytes => bytes
    | _ => []

def stream (fd : Int32) (ps : List Packet) : List UInt8 :=
  written (ps.flatMap fun p => sendRemote fd p.msg p.cookie)

/-- The chunks of a socket arrive one after the other. -/
def receive (alive : UInt32 → Bool) (h : Harbor) (fd : Int32) :
    List (List UInt8) → Option (Harbor × List Effect)
  | [] => some (h, [])
  | chunk :: chunks => do
    let r ← pushSocketData alive h fd chunk
    let r' ← receive alive r.1 fd chunks
    some (r'.1, r.2 ++ r'.2)

/-- What the other harbor does with a message that arrives. -/
def handled (alive : UInt32 → Bool) (h : Harbor) (p : Packet) : List Effect :=
  sendLocal alive p.source (localHandle h p.destination) p.type p.session p.msg

/-- What it is for: the message is forwarded, and only a service that is not found is reported. -/
def forwarded (alive : UInt32 → Bool) (h : Harbor) (p : Packet) : List Effect :=
  .send p.source (localHandle h p.destination) p.type p.session p.msg ::
    if alive (localHandle h p.destination) then []
    else if p.type ≠ PTYPE_ERROR then
      [.send (localHandle h p.destination) p.source PTYPE_ERROR p.session [], .error]
    else [.error]

def Packet.body (p : Packet) : List UInt8 := p.msg ++ headerToMessage p.cookie

def Packet.Short (p : Packet) : Prop := p.msg.length + HEADER_COOKIE_LENGTH < 2 ^ 24

/-- A service that is there does not get a negative session. -/
def Packet.Unsigned (alive : UInt32 → Bool) (h : Harbor) (p : Packet) : Prop :=
  alive (localHandle h p.destination) = true → 0 ≤ p.session

variable {alive : UInt32 → Bool} {h h' : Harbor} {id : UInt8} {fd : Int32} {p : Packet}
  {ps : List Packet} {es : List Effect}

/-! ### The header -/

theorem low_toNat (handle : UInt32) : (handle &&& HANDLE_MASK).toNat = handle.toNat % 2 ^ 24 := by
  rw [UInt32.toNat_and]
  exact Nat.and_two_pow_sub_one_eq_mod handle.toNat 24

theorem harborOf_toNat (handle : UInt32) : (harborOf handle).toNat = handle.toNat / 2 ^ 24 := by
  have := handle.toNat_lt
  rw [harborOf, UInt32.toNat_toUInt8, UInt32.toNat_shiftRight, Nat.shiftRight_eq_div_pow]
  change handle.toNat / 2 ^ 24 % 2 ^ 8 = _
  omega

theorem cookieDestination_toNat (type : UInt8) (handle : UInt32) :
    (cookieDestination type handle).toNat = type.toNat * 2 ^ 24 + handle.toNat % 2 ^ 24 := by
  have htype := type.toNat_lt
  have hshift : (type.toUInt32 <<< HANDLE_REMOTE_SHIFT).toNat = 2 ^ 24 * type.toNat := by
    rw [UInt32.toNat_shiftLeft, UInt8.toNat_toUInt32, Nat.shiftLeft_eq]
    change type.toNat * 2 ^ 24 % 2 ^ 32 = _
    omega
  rw [cookieDestination, UInt32.toNat_or, low_toNat, hshift,
    ← Nat.two_pow_add_eq_or_of_lt (Nat.mod_lt _ (Nat.two_pow_pos 24)), Nat.mul_comm]

theorem harborOf_cookie (type : UInt8) (handle : UInt32) :
    harborOf (cookieDestination type handle) = type := by
  have htype := type.toNat_lt
  rw [← UInt8.toNat_inj, harborOf_toNat, cookieDestination_toNat]
  omega

theorem low_cookie (type : UInt8) (handle : UInt32) :
    cookieDestination type handle &&& HANDLE_MASK = handle &&& HANDLE_MASK := by
  rw [← UInt32.toNat_inj, low_toNat, low_toNat, cookieDestination_toNat]
  omega

theorem fromBigendian_be (n : UInt32) (rest : List UInt8) :
    fromBigendian (Bytes.be 4 n.toNat ++ rest) = n := by
  rw [fromBigendian, List.take_left' (Bytes.be_length 4 _), Bytes.ofBe_be,
    Nat.mod_eq_of_lt (by simpa using n.toNat_lt)]
  exact UInt32.ofNat_toNat

@[simp] theorem headerToMessage_length (header : Header) :
    (headerToMessage header).length = HEADER_COOKIE_LENGTH := by
  simp [headerToMessage, HEADER_COOKIE_LENGTH]

theorem messageToHeader_header (header : Header) :
    messageToHeader (headerToMessage header) = header := by
  obtain ⟨source, destination, session⟩ := header
  have hdestination : (headerToMessage ⟨source, destination, session⟩).drop 4 =
      Bytes.be 4 destination.toNat ++ Bytes.be 4 session.toNat := by
    rw [headerToMessage, List.append_assoc, List.drop_left' (Bytes.be_length 4 _)]
  have hsession : (headerToMessage ⟨source, destination, session⟩).drop 8 =
      Bytes.be 4 session.toNat ++ [] := by
    rw [headerToMessage, List.append_nil, List.drop_left' (by simp)]
  rw [messageToHeader, hdestination, hsession, fromBigendian_be, fromBigendian_be, headerToMessage,
    List.append_assoc, fromBigendian_be]

theorem forwardLocalMessage_body (alive : UInt32 → Bool) (h : Harbor) (p : Packet) :
    forwardLocalMessage alive h p.body = some (handled alive h p) := by
  have hlen : p.body.length = p.msg.length + HEADER_COOKIE_LENGTH := by
    rw [Packet.body, List.length_append, headerToMessage_length]
  have hsz : p.body.length - HEADER_COOKIE_LENGTH = p.msg.length := by omega
  have hheader : messageToHeader (p.body.drop p.msg.length) = p.cookie := by
    rw [Packet.body, List.drop_left, messageToHeader_header]
  have hmsg : p.body.take p.msg.length = p.msg := by
    rw [Packet.body, List.take_left]
  have hlocal : localHandle h p.cookie.destination = localHandle h p.destination := by
    rw [localHandle, localHandle, Packet.cookie, low_cookie]
  rw [forwardLocalMessage, if_neg (by omega)]
  simp only [hsz, hheader, hmsg, hlocal, handled]
  rw [Packet.cookie, harborOf_cookie]

theorem be_four (n : Nat) : Bytes.be 4 n = [UInt8.ofNat (n / 256 / 256 / 256),
    UInt8.ofNat (n / 256 / 256), UInt8.ofNat (n / 256), UInt8.ofNat n] := rfl

theorem head_be_four {n : Nat} (h : n ≤ UINT32_MAX) :
    (Bytes.be 4 n).head? = some 0 ↔ n < 2 ^ 24 := by
  have hbyte : (UInt8.ofNat (n / 256 / 256 / 256)).toNat = n / 256 / 256 / 256 := by
    unfold UINT32_MAX at h
    exact UInt8.toNat_ofNat_of_lt' (by unfold UInt8.size; omega)
  rw [be_four, List.head?_cons, Option.some.injEq, ← UInt8.toNat_inj, hbyte]
  change n / 256 / 256 / 256 = 0 ↔ _
  omega

theorem ofBe_tail_be_four {n : Nat} (h : n < 2 ^ 24) : Bytes.ofBe ((Bytes.be 4 n).drop 1) = n := by
  have htail : (Bytes.be 4 n).drop 1 = Bytes.be 3 n := rfl
  rw [htail, Bytes.ofBe_be]
  exact Nat.mod_eq_of_lt h

theorem pushLoop_header {size : Size} {buffer : List UInt8}
    (hs : (h.s id).status = .header size) :
    pushLoop alive h id buffer =
      if hneed : buffer.length < 4 - size.bytes.length then
        some (setStatus h id (.header ⟨size.bytes ++ buffer, by
          rw [List.length_append]
          omega⟩), [])
      else if (size.bytes ++ buffer.take (4 - size.bytes.length)).head? ≠ some 0 then
        some ((closeHarbor h id).1, .error :: (closeHarbor h id).2)
      else
        let h := setStatus h id (.content
          (Bytes.ofBe ((size.bytes ++ buffer.take (4 - size.bytes.length)).drop 1)) [])
        if buffer.drop (4 - size.bytes.length) = [] then some (h, [])
        else pushLoop alive h id (buffer.drop (4 - size.bytes.length)) := by
  rw [pushLoop.eq_def]
  split
  · simp_all
  · rename_i heq
    rw [hs] at heq
    obtain rfl := Status.header.inj heq
    rfl
  · simp_all
  · simp_all

theorem pushLoop_content {length : Nat} {recv buffer : List UInt8}
    (hs : (h.s id).status = .content length recv) :
    pushLoop alive h id buffer =
      if buffer.length < length - recv.length then
        some (setStatus h id (.content length (recv ++ buffer)), [])
      else (forwardLocalMessage alive h (recv ++ buffer.take (length - recv.length))).bind fun es =>
        let h := setStatus h id (.header .zero)
        if buffer.drop (length - recv.length) = [] then some (h, es)
        else (pushLoop alive h id (buffer.drop (length - recv.length))).bind fun r =>
          some (r.1, es ++ r.2) := by
  rw [pushLoop.eq_def]
  split
  · simp_all
  · simp_all
  · rename_i heq
    rw [hs] at heq
    obtain ⟨rfl, rfl⟩ := Status.content.inj heq
    rfl
  · simp_all

theorem pushLoop_down {buffer : List UInt8} (hs : (h.s id).status = .down) :
    pushLoop alive h id buffer = some (h, []) := by
  rw [pushLoop.eq_def]
  split <;> simp_all

/-! ### All rounds -/

/-- The effects of the packets: from the first one that is too long on, nothing arrives. -/
def outcome (alive : UInt32 → Bool) (h : Harbor) (id : UInt8) : List Packet → List Effect
  | [] => []
  | p :: ps =>
    if p.msg.length + HEADER_COOKIE_LENGTH < 2 ^ 24 then
      handled alive h p ++ outcome alive h id ps
    else .error :: (closeHarbor h id).2

/-- The packets are not too large for the writer. -/
def AllWritten (ps : List Packet) : Prop :=
  ∀ p ∈ ps, p.msg.length + HEADER_COOKIE_LENGTH ≤ UINT32_MAX

/-- In this status, and with these bytes still to come, the effects will be `out`. -/
inductive Expects (alive : UInt32 → Bool) (h : Harbor) (id : UInt8) (fd : Int32) :
    Status → List UInt8 → List Effect → Prop
  | header {size : Size} {rest : List UInt8} {ps : List Packet} : AllWritten ps →
      size.bytes ++ rest = stream fd ps →
      Expects alive h id fd (.header size) rest (outcome alive h id ps)
  | content {p : Packet} {recv rest : List UInt8} {ps : List Packet} : AllWritten ps →
      recv.length < p.body.length → recv ++ rest = p.body ++ stream fd ps →
      Expects alive h id fd (.content p.body.length recv) rest
        (handled alive h p ++ outcome alive h id ps)
  | down {rest : List UInt8} : Expects alive h id fd .down rest []

structure Same (h h' : Harbor) (id : UInt8) : Prop where
  id : h'.id = h.id
  fd : ∀ j, (h'.s j).fd = (h.s j).fd

theorem stream_cons (hp : p.msg.length + HEADER_COOKIE_LENGTH ≤ UINT32_MAX) :
    stream fd (p :: ps) = Bytes.be 4 p.body.length ++ (p.body ++ stream fd ps) := by
  have hlen : p.body.length = p.msg.length + HEADER_COOKIE_LENGTH := by
    rw [Packet.body, List.length_append, headerToMessage_length]
  rw [stream, List.flatMap_cons, sendRemote, if_neg (Nat.not_lt.mpr hp), hlen]
  simp only [written, List.singleton_append, List.flatMap_cons, List.append_assoc, Packet.body,
    stream]

theorem Same.refl : Same h h id := ⟨rfl, fun _ => rfl⟩

theorem Same.trans {h'' : Harbor} (h1 : Same h h' id) (h2 : Same h' h'' id) : Same h h'' id :=
  ⟨h2.id.trans h1.id, fun j => (h2.fd j).trans (h1.fd j)⟩

theorem same_setSlave {s : Slave} (hfd : s.fd = (h.s id).fd) : Same h (setSlave h id s) id := by
  refine ⟨rfl, fun j => ?_⟩
  by_cases hj : j = id
  · subst hj
    exact (congrArg Slave.fd (Function.update_self ..)).trans hfd
  · exact congrArg Slave.fd (Function.update_of_ne hj _ _)

theorem Same.outcome_eq (hsame : Same h h' id) (ps : List Packet) :
    outcome alive h' id ps = outcome alive h id ps := by
  have hclose : (closeHarbor h' id).2 = (closeHarbor h id).2 := by
    simp only [closeHarbor, hsame.fd id]
  induction ps with
  | nil => rfl
  | cons p ps ih =>
    simp only [outcome, ih, hclose, handled, localHandle, hsame.id]

theorem Same.expects (hsame : Same h h' id) {status : Status} {rest : List UInt8}
    (hexp : Expects alive h id fd status rest es) : Expects alive h' id fd status rest es := by
  have hhandled : ∀ p, handled alive h p = handled alive h' p := fun p => by
    simp only [handled, localHandle, hsame.id]
  cases hexp with
  | header hw hrest =>
    rw [← hsame.outcome_eq]
    exact .header hw hrest
  | content hw hlt hrest =>
    rw [← hsame.outcome_eq, hhandled]
    exact .content hw hlt hrest
  | down => exact .down

theorem split_buffer {front buffer rest whole later : List UInt8}
    (h : front ++ (buffer ++ rest) = whole ++ later) (hle : front.length ≤ whole.length)
    (hneed : ¬buffer.length < whole.length - front.length) :
    front ++ buffer.take (whole.length - front.length) = whole ∧
      buffer.drop (whole.length - front.length) ++ rest = later := by
  apply List.append_inj
  · rw [← h, List.append_assoc, ← List.append_assoc _ _ rest, List.take_append_drop]
  · rw [List.length_append, List.length_take]
    omega

theorem setStatus_status (h : Harbor) (id : UInt8) (status : Status) :
    ((setStatus h id status).s id).status = status := by
  simp only [setStatus, setSlave, Function.update_self]

theorem same_setStatus (h : Harbor) (id : UInt8) (status : Status) :
    Same h (setStatus h id status) id :=
  same_setSlave rfl

theorem closeHarbor_status (h : Harbor) (id : UInt8) :
    (((closeHarbor h id).1).s id).status = .down := by
  simp only [closeHarbor, setSlave, Function.update_self]

/-- The loop has done what the bytes of the buffer call for. -/
def Consumes (alive : UInt32 → Bool) (h : Harbor) (id : UInt8) (fd : Int32)
    (buffer rest : List UInt8) (out : List Effect) : Prop :=
  ∃ h' es later, pushLoop alive h id buffer = some (h', es) ∧ out = es ++ later ∧
    Expects alive h' id fd (h'.s id).status rest later ∧ Same h h' id

theorem consumes_header {size : Size} {buffer rest : List UInt8}
    (hs : (h.s id).status = .header size) (hw : AllWritten ps)
    (hrest : size.bytes ++ (buffer ++ rest) = stream fd ps)
    (ih : ∀ h' buffer' out, buffer'.length < buffer.length →
      Expects alive h' id fd (h'.s id).status (buffer' ++ rest) out →
      Consumes alive h' id fd buffer' rest out) :
    Consumes alive h id fd buffer rest (outcome alive h id ps) := by
  have hround := @pushLoop_header alive h id size buffer hs
  have hsize := size.lt
  by_cases hneed : buffer.length < 4 - size.bytes.length
  · rw [dif_pos hneed] at hround
    refine ⟨_, [], _, hround, rfl, ?_, same_setStatus ..⟩
    rw [setStatus_status, ← (same_setStatus h id _).outcome_eq]
    refine .header hw ?_
    rw [List.append_assoc, hrest]
  · rw [dif_neg hneed] at hround
    cases ps with
    | nil =>
      have hlen := congrArg List.length hrest
      simp only [List.length_append, stream, written, List.flatMap_nil, List.length_nil] at hlen
      omega
    | cons p ps =>
      obtain ⟨hp, hw⟩ := List.forall_mem_cons.mp hw
      have hlen : p.body.length = p.msg.length + HEADER_COOKIE_LENGTH := by
        rw [Packet.body, List.length_append, headerToMessage_length]
      rw [stream_cons hp] at hrest
      have hfour : (Bytes.be 4 p.body.length).length = 4 := Bytes.be_length 4 _
      obtain ⟨hbytes, hdrop⟩ := split_buffer hrest (by omega) (by rwa [hfour])
      rw [hfour] at hbytes hdrop
      rw [hbytes] at hround
      have hhead := @head_be_four p.body.length (by omega)
      rw [outcome, ← hlen]
      by_cases hshort : p.body.length < 2 ^ 24
      · rw [if_neg (not_not.mpr (hhead.mpr hshort)), ofBe_tail_be_four hshort] at hround
        rw [if_pos hshort]
        have hsame := same_setStatus h id (.content p.body.length [])
        have hexp : Expects alive (setStatus h id (.content p.body.length [])) id fd
            ((setStatus h id (.content p.body.length [])).s id).status
            (buffer.drop (4 - size.bytes.length) ++ rest)
            (handled alive h p ++ outcome alive h id ps) := by
          rw [setStatus_status]
          apply hsame.expects
          refine .content hw ?_ hdrop
          rw [hlen]
          exact Nat.succ_pos _
        by_cases hnil : buffer.drop (4 - size.bytes.length) = []
        · simp only [if_pos hnil] at hround
          rw [hnil] at hexp
          exact ⟨_, [], _, hround, rfl, hexp, hsame⟩
        · simp only [if_neg hnil] at hround
          obtain ⟨h', es, later, hrun, hout, hlater, hsame'⟩ := ih _ _ _
            (by rw [List.length_drop]; omega) hexp
          exact ⟨h', es, later, hround.trans hrun, hout, hlater, hsame.trans hsame'⟩
      · rw [if_pos (mt hhead.mp hshort)] at hround
        rw [if_neg hshort]
        refine ⟨_, _, [], hround, (List.append_nil _).symm, ?_, same_setSlave rfl⟩
        rw [closeHarbor_status]
        exact .down

theorem consumes_content {buffer recv rest : List UInt8}
    (hs : (h.s id).status = .content p.body.length recv) (hw : AllWritten ps)
    (hlt : recv.length < p.body.length)
    (hrest : recv ++ (buffer ++ rest) = p.body ++ stream fd ps)
    (ih : ∀ h' buffer' out, buffer'.length < buffer.length →
      Expects alive h' id fd (h'.s id).status (buffer' ++ rest) out →
      Consumes alive h' id fd buffer' rest out) :
    Consumes alive h id fd buffer rest (handled alive h p ++ outcome alive h id ps) := by
  have hround := @pushLoop_content alive h id p.body.length recv buffer hs
  by_cases hneed : buffer.length < p.body.length - recv.length
  · rw [if_pos hneed] at hround
    have hsame := same_setStatus h id (.content p.body.length (recv ++ buffer))
    refine ⟨_, [], _, hround, rfl, ?_, hsame⟩
    rw [setStatus_status]
    apply hsame.expects
    refine .content hw (by rw [List.length_append]; omega) ?_
    rw [List.append_assoc, hrest]
  · rw [if_neg hneed] at hround
    obtain ⟨hbody, hdrop⟩ := split_buffer hrest hlt.le hneed
    rw [hbody, forwardLocalMessage_body, Option.bind_some] at hround
    have hsame := same_setStatus h id (.header .zero)
    have hexp : Expects alive (setStatus h id (.header .zero)) id fd
        ((setStatus h id (.header .zero)).s id).status
        (buffer.drop (p.body.length - recv.length) ++ rest) (outcome alive h id ps) := by
      rw [setStatus_status]
      apply hsame.expects
      exact .header hw hdrop
    by_cases hnil : buffer.drop (p.body.length - recv.length) = []
    · simp only [if_pos hnil] at hround
      rw [hnil] at hexp
      exact ⟨_, _, _, hround, rfl, hexp, hsame⟩
    · simp only [if_neg hnil] at hround
      obtain ⟨h', es, later, hrun, hout, hlater, hsame'⟩ := ih _ _ _
        (by rw [List.length_drop]; omega) hexp
      rw [hrun, Option.bind_some] at hround
      refine ⟨h', _, later, hround, ?_, hlater, hsame.trans hsame'⟩
      rw [hout, List.append_assoc]

theorem pushLoop_consumes (buffer : List UInt8) {rest : List UInt8} :
    ∀ {h : Harbor} {out : List Effect},
      Expects alive h id fd (h.s id).status (buffer ++ rest) out →
      Consumes alive h id fd buffer rest out := by
  induction hn : buffer.length using Nat.strong_induction_on generalizing buffer with
  | _ n ih =>
    intro h out hexp
    subst hn
    have ih' : ∀ h' buffer' out, buffer'.length < buffer.length →
        Expects alive h' id fd (h'.s id).status (buffer' ++ rest) out →
        Consumes alive h' id fd buffer' rest out :=
      fun h' buffer' out hlt => ih _ hlt buffer' rfl
    generalize hs : (h.s id).status = status at hexp
    generalize hb : buffer ++ rest = future at hexp
    cases hexp with
    | header hw hrest => exact consumes_header hs hw (by rw [hb]; exact hrest) ih'
    | content hw hlt hrest => exact consumes_content hs hw hlt (by rw [hb]; exact hrest) ih'
    | down => exact ⟨h, [], [], pushLoop_down hs, rfl, by rw [hs]; exact .down, .refl⟩

theorem Same.findSlave (hsame : Same h h' id) : findSlave h' fd = findSlave h fd := by
  simp only [Remote.findSlave, hsame.fd]

theorem Expects.nil {status : Status} (h : Expects alive h' id fd status [] es) : es = [] := by
  generalize hrest : ([] : List UInt8) = rest at h
  cases h with
  | @header size _ ps hw hbytes =>
    cases ps with
    | nil => rfl
    | cons p ps =>
      have hsize := size.lt
      rw [stream_cons (List.forall_mem_cons.mp hw).1, ← hrest, List.append_nil] at hbytes
      have hlen := congrArg List.length hbytes
      rw [List.length_append, Bytes.be_length] at hlen
      omega
  | content hw hlt hbytes =>
    have hlen := congrArg List.length hbytes
    rw [← hrest, List.append_nil, List.length_append] at hlen
    omega
  | down => rfl

theorem receive_expects {socket : Int32} {chunks : List (List UInt8)} {out : List Effect}
    (hfind : findSlave h socket = some id)
    (hexp : Expects alive h id fd (h.s id).status chunks.flatten out) :
    ∃ h', receive alive h socket chunks = some (h', out) := by
  induction chunks generalizing h out with
  | nil => exact ⟨h, by rw [hexp.nil]; rfl⟩
  | cons chunk chunks ih =>
    rw [List.flatten_cons] at hexp
    obtain ⟨h1, es, later, hpush, hout, hlater, hsame⟩ := pushLoop_consumes chunk hexp
    obtain ⟨h2, hrest⟩ := ih (hsame.findSlave.trans hfind) hlater
    refine ⟨h2, ?_⟩
    simp only [receive, pushSocketData, hfind, hpush, hrest, Option.bind_eq_bind, Option.bind_some,
      hout]

theorem receive_outcome {socket : Int32} {chunks : List (List UInt8)}
    (hfind : findSlave h socket = some id) (hs : (h.s id).status = .header .zero)
    (hw : AllWritten ps) (hchunks : chunks.flatten = stream fd ps) :
    ∃ h', receive alive h socket chunks = some (h', outcome alive h id ps) := by
  apply @receive_expects alive h id fd _ _ _ hfind
  rw [hs, hchunks]
  exact .header hw rfl

/-! ### What was forwarded -/

theorem handled_eq (hp : p.Unsigned alive h) : handled alive h p = forwarded alive h p := by
  unfold handled sendLocal forwarded
  by_cases halive : alive (localHandle h p.destination) = true
  · rw [if_pos ⟨halive, hp halive⟩, if_pos halive]
  · rw [if_neg fun hboth => halive hboth.1, if_neg halive]

theorem forwarded_lt_handled (hp : ¬p.Unsigned alive h) :
    (forwarded alive h p).length < (handled alive h p).length := by
  obtain ⟨halive, hsession⟩ := Classical.not_imp.mp hp
  unfold handled sendLocal forwarded
  rw [if_pos halive, if_neg fun hboth : _ ∧ _ => hsession hboth.2]
  split <;> simp

theorem forwarded_le_handled :
    (ps.flatMap (forwarded alive h)).length ≤ (ps.flatMap (handled alive h)).length := by
  induction ps with
  | nil => exact Nat.le_refl _
  | cons p ps ih =>
    rw [List.flatMap_cons, List.flatMap_cons, List.length_append, List.length_append]
    by_cases hp : p.Unsigned alive h
    · rw [handled_eq hp]
      exact Nat.add_le_add_left ih _
    · exact Nat.add_le_add (forwarded_lt_handled hp).le ih

theorem flatMap_handled_iff :
    ps.flatMap (handled alive h) = ps.flatMap (forwarded alive h) ↔
      ∀ p ∈ ps, p.Unsigned alive h := by
  induction ps with
  | nil => exact ⟨fun _ p hp => (nomatch hp), fun _ => rfl⟩
  | cons p ps ih =>
    have hrest := @forwarded_le_handled alive h ps
    rw [List.flatMap_cons, List.flatMap_cons, List.forall_mem_cons]
    constructor
    · intro heq
      have hlength := congrArg List.length heq
      rw [List.length_append, List.length_append] at hlength
      have hp : p.Unsigned alive h := by
        by_contra hp
        have := forwarded_lt_handled hp
        omega
      rw [handled_eq hp, List.append_cancel_left_eq] at heq
      exact ⟨hp, ih.mp heq⟩
    · rintro ⟨hp, hps⟩
      rw [handled_eq hp, ih.mpr hps]

theorem outcome_short (hps : ∀ p ∈ ps, p.Short) :
    outcome alive h id ps = ps.flatMap (handled alive h) := by
  induction ps with
  | nil => rfl
  | cons p ps ih =>
    obtain ⟨hp, hps⟩ := List.forall_mem_cons.mp hps
    rw [outcome, if_pos (show p.msg.length + _ < _ from hp), ih hps, List.flatMap_cons]

theorem length_of_mem_outcome {source destination : UInt32} {type : UInt8} {session : Int32}
    {msg : List UInt8} (hmem : .send source destination type session msg ∈ outcome alive h id ps) :
    msg.length + HEADER_COOKIE_LENGTH < 2 ^ 24 := by
  induction ps with
  | nil => cases hmem
  | cons p ps ih =>
    rw [outcome] at hmem
    split at hmem
    · rename_i hp
      rcases List.mem_append.mp hmem with hmem | hmem
      · rcases List.mem_cons.mp hmem with heq | hmem
        · obtain ⟨-, -, -, -, rfl⟩ := Effect.send.inj heq
          exact hp
        · split at hmem
          · cases hmem
          · split at hmem
            · obtain ⟨-, -, -, -, rfl⟩ :=
                Effect.send.inj ((List.mem_cons.mp hmem).resolve_right nofun)
              decide
            · cases List.mem_singleton.mp hmem
      · exact ih hmem
    · simp only [closeHarbor] at hmem
      rcases List.mem_cons.mp hmem with heq | hmem
      · cases heq
      · split at hmem
        · cases List.mem_singleton.mp hmem
        · cases hmem

theorem outcome_eq_iff : outcome alive h id ps = ps.flatMap (forwarded alive h) ↔
    ∀ p ∈ ps, p.Short ∧ p.Unsigned alive h := by
  constructor
  · intro heq
    have hshort : ∀ p ∈ ps, p.Short := fun p hp =>
      length_of_mem_outcome (heq ▸ List.mem_flatMap.mpr ⟨p, hp, List.mem_cons_self⟩)
    rw [outcome_short hshort, flatMap_handled_iff] at heq
    exact fun p hp => ⟨hshort p hp, heq p hp⟩
  · intro hall
    rw [outcome_short fun p hp => (hall p hp).1]
    exact flatMap_handled_iff.mpr fun p hp => (hall p hp).2

/-- Whatever the chunks, every message is forwarded once, in order and with its data, and nothing
else is done, if and only if none is longer than the reader allows and no service gets a negative
session. -/
theorem harbor_stream (alive : UInt32 → Bool) (h : Harbor) (id : UInt8) (socket fd : Int32)
    (hfind : findSlave h socket = some id) (hs : (h.s id).status = .header .zero)
    (ps : List Packet) (hw : AllWritten ps) (chunks : List (List UInt8))
    (hchunks : chunks.flatten = stream fd ps) :
    ∃ h' es, receive alive h socket chunks = some (h', es) ∧
      (es = ps.flatMap (forwarded alive h) ↔ ∀ p ∈ ps, p.Short ∧ p.Unsigned alive h) := by
  obtain ⟨h', hreceive⟩ := @receive_outcome alive h id fd ps socket chunks hfind hs hw hchunks
  exact ⟨h', _, hreceive, outcome_eq_iff⟩

/-- One short packet in two chunks. -/
theorem harbor_stream_one :
    ∃ h' es, receive (fun _ => true)
    (setSlave (harborInit 1 0x1000001) 2 ⟨5, none, .header .zero⟩) 5
        [(stream 6 [⟨0x2000003, 0x1000004, 0, 7, [8]⟩]).take 3,
          (stream 6 [⟨0x2000003, 0x1000004, 0, 7, [8]⟩]).drop 3] = some (h', es) ∧
      es = [.send 0x2000003 0x1000004 0 7 [8]] := by
  obtain ⟨h', es, hreceive, hiff⟩ := harbor_stream (fun _ => true)
    (setSlave (harborInit 1 0x1000001) 2 ⟨5, none, .header .zero⟩) 2 5 6 (by decide) rfl
    [⟨0x2000003, 0x1000004, 0, 7, [8]⟩] (List.forall_mem_singleton.mpr (by decide))
    [(stream 6 [⟨0x2000003, 0x1000004, 0, 7, [8]⟩]).take 3,
      (stream 6 [⟨0x2000003, 0x1000004, 0, 7, [8]⟩]).drop 3]
    (by rw [List.flatten_cons, List.flatten_singleton, List.take_append_drop])
  refine ⟨h', es, hreceive, ?_⟩
  exact hiff.mpr
    (List.forall_mem_singleton.mpr ⟨by unfold Packet.Short; decide, fun _ => by decide⟩)

theorem receive_long {socket : Int32} (hfind : findSlave h socket = some id)
    (hs : (h.s id).status = .header .zero) (hw : AllWritten [p]) (hlong : ¬p.Short) :
    ¬∃ h' es, receive alive h socket [stream fd [p]] = some (h', es) ∧
      es = [p].flatMap (forwarded alive h) := by
  rintro ⟨h', es, hes, hall⟩
  obtain ⟨h'', hreceive⟩ := @receive_outcome alive h id fd [p] socket _ hfind hs hw
    List.flatten_singleton
  obtain ⟨-, rfl⟩ := Prod.mk.inj (Option.some.inj (hes.symm.trans hreceive))
  exact hlong (outcome_eq_iff.mp hall p List.mem_cons_self).1

/-- The writer takes a message of `2^24 - 12` bytes, and the reader closes the connection. -/
theorem harbor_stream_long :
    ¬∀ (alive : UInt32 → Bool) (h : Harbor) (id : UInt8) (socket fd : Int32),
      findSlave h socket = some id → (h.s id).status = .header .zero →
      ∀ ps : List Packet, AllWritten ps → ∀ chunks : List (List UInt8),
        chunks.flatten = stream fd ps →
        ∃ h' es, receive alive h socket chunks = some (h', es) ∧
          es = ps.flatMap (forwarded alive h) := by
  intro hall
  obtain ⟨msg, hlen⟩ : ∃ msg : List UInt8, msg.length + HEADER_COOKIE_LENGTH = 2 ^ 24 :=
    ⟨List.replicate (2 ^ 24 - HEADER_COOKIE_LENGTH) 0, by rw [List.length_replicate]; rfl⟩
  have hw : AllWritten [⟨0x2000003, 0x1000004, 0, 7, msg⟩] := by
    refine List.forall_mem_singleton.mpr ?_
    exact hlen.trans_le (by decide)
  have hlong : ¬Packet.Short ⟨0x2000003, 0x1000004, 0, 7, msg⟩ := by
    rw [Packet.Short, hlen]
    exact Nat.lt_irrefl _
  have hfind : findSlave (setSlave (harborInit 1 0x1000001) 2 ⟨5, none, .header .zero⟩) 5 =
      some 2 :=
    by decide
  exact @receive_long (fun _ => true) _ 2 6 _ 5 hfind rfl hw hlong
    (hall _ _ _ _ 6 hfind rfl _ hw _ List.flatten_singleton)

end XsServer.Remote
