import XsServer.Remote.World

/-! What a peer can do with the bytes that it sends.  `push_socket_data` does not ask whether a
packet is long enough for the cookie at its end. -/

namespace XsServer.Remote

open Lib

/-- What has come of a body fits into `recv_buffer`, and is not all of it. -/
def Status.Fits : Status → Prop
  | .content length recv => (recv = [] ∨ recv.length < length) ∧ length < 2 ^ 24
  | _ => True

def Status.pending : Status → List UInt8
  | .header size => size.bytes
  | .content length recv => Bytes.be 4 length ++ recv
  | _ => []

/-- No packet that comes to its end is shorter than its cookie.  The connection is closed at a
length that does not start with 0, and a length with nothing behind it is not used yet. -/
def NoShort (bs : List UInt8) : Prop :=
  if _h : bs.length < 4 ∨ bs.head? ≠ some 0 then True
  else
    let length := Bytes.ofBe ((bs.take 4).drop 1)
    let rest := bs.drop 4
    if rest = [] ∨ rest.length < length then True
    else HEADER_COOKIE_LENGTH ≤ length ∧ NoShort (rest.drop length)
  termination_by bs.length
  decreasing_by
    simp only [List.length_drop]
    omega

/-- The bytes to come on a connection in this status. -/
def Status.Harmless (id : UInt8) (status : Status) (bs : List UInt8) : Prop :=
  match status with
  | .handshake => ∀ rest, bs = id :: rest → NoShort rest
  | .header _ | .content _ _ => NoShort (status.pending ++ bs)
  | .wait | .down => True

variable {alive : UInt32 → Bool} {h h' : Harbor} {id : UInt8} {fd : Int32} {es : List Effect}

theorem noShort_of_length {bs : List UInt8} (h : bs.length < 4) : NoShort bs := by
  rw [NoShort, dif_pos (.inl h)]
  trivial

theorem noShort_of_head {bs : List UInt8} (h : bs.head? ≠ some 0) : NoShort bs := by
  rw [NoShort, dif_pos (.inr h)]
  trivial

theorem noShort_packet {length : Nat} (hlt : length < 2 ^ 24) (rest : List UInt8) :
    NoShort (Bytes.be 4 length ++ rest) ↔ rest = [] ∨ rest.length < length ∨
      HEADER_COOKIE_LENGTH ≤ length ∧ NoShort (rest.drop length) := by
  have hfour : (Bytes.be 4 length).length = 4 := Bytes.be_length 4 _
  have hhead : (Bytes.be 4 length ++ rest).head? = some 0 := by
    rw [List.head?_append_of_ne_nil _ (List.ne_nil_of_length_pos (by omega))]
    exact (head_be_four (by unfold UINT32_MAX; omega)).mpr hlt
  rw [NoShort, dif_neg (by rw [hhead, List.length_append]; simp)]
  simp only [List.take_left' hfour, List.drop_left' hfour, ofBe_tail_be_four hlt]
  split
  case isTrue hlater => exact ⟨fun _ => by tauto, fun _ => trivial⟩
  case isFalse hlater => tauto

theorem be_of_head {bytes : List UInt8} (hlen : bytes.length = 4) (hhead : bytes.head? = some 0) :
    Bytes.be 4 (Bytes.ofBe (bytes.drop 1)) = bytes := by
  obtain ⟨tail, rfl⟩ : ∃ tail, bytes = 0 :: tail := by
    cases bytes with
    | nil => cases hhead
    | cons b tail => exact ⟨tail, by rw [Option.some.inj hhead]⟩
  have hlt := Bytes.ofBe_lt tail
  have htail : tail.length = 3 := by simpa using hlen
  rw [htail] at hlt
  have hback := Bytes.be_ofBe tail
  rw [htail] at hback
  have hzero : UInt8.ofNat (Bytes.ofBe tail / 256 / 256 / 256) = 0 := by
    rw [show Bytes.ofBe tail / 256 / 256 / 256 = 0 by omega]
    rfl
  rw [List.drop_one, List.tail_cons, be_four, hzero]
  exact congrArg _ hback

theorem ofBe_tail_lt {bytes : List UInt8} (hlen : bytes.length = 4) :
    Bytes.ofBe (bytes.drop 1) < 2 ^ 24 := by
  have hlt := Bytes.ofBe_lt (bytes.drop 1)
  rwa [List.length_drop, hlen] at hlt

theorem length_complete {size : Size} {buffer : List UInt8}
    (hneed : ¬buffer.length < 4 - size.bytes.length) :
    (size.bytes ++ buffer.take (4 - size.bytes.length)).length = 4 := by
  have := size.lt
  rw [List.length_append, List.length_take]
  omega

theorem dispatchQueue_status (h : Harbor) (id : UInt8) :
    ((dispatchQueue h id).1.s id).status = (h.s id).status := by
  unfold dispatchQueue
  dsimp only
  split
  · rfl
  · simp only [setSlave, Function.update_self]

theorem forwardLocalMessage_isSome (alive : UInt32 → Bool) (h : Harbor) (msg : List UInt8) :
    (forwardLocalMessage alive h msg).isSome ↔ HEADER_COOKIE_LENGTH ≤ msg.length := by
  unfold forwardLocalMessage
  split
  case isTrue hshort => exact ⟨fun hsome => (nomatch hsome), fun hle => by omega⟩
  case isFalse hlong => exact ⟨fun _ => by omega, fun _ => rfl⟩

theorem isSome_bind_some {α β : Type} (x : Option α) (f : α → β) :
    (x.bind fun a => some (f a)).isSome = x.isSome := by
  cases x <;> rfl

/-- Nothing is read outside of a chunk or of the receive buffer if and only if no packet that ends
in the chunk is too short. -/
theorem pushLoop_isSome_iff (alive : UInt32 → Bool) (h : Harbor) (id : UInt8)
    (buffer : List UInt8) (hfits : (h.s id).status.Fits)
    (hne : buffer ≠ [] ∨ ∃ size, (h.s id).status = .header size) :
    (pushLoop alive h id buffer).isSome ↔ (h.s id).status.Harmless id buffer := by
  fun_induction pushLoop alive h id buffer with
  | case1 h hs =>
    obtain hne | ⟨size, hsize⟩ := hne
    · exact absurd rfl hne
    · rw [hs] at hsize
      cases hsize
  | case2 h hs remote buffer hremote =>
    rw [hs]
    refine ⟨fun _ rest heq => absurd (List.cons.inj heq).1 hremote, fun _ => rfl⟩
  | case3 h hs remote buffer hremote r ih =>
    obtain rfl := not_not.mp hremote
    have hstatus : (r.1.s remote).status = .header .zero := by
      rw [dispatchQueue_status, setStatus_status]
    have ih := ih (by rw [hstatus]; trivial) (.inr ⟨_, hstatus⟩)
    rw [hstatus] at ih
    rw [hs, Option.bind_eq_bind, isSome_bind_some, ih]
    constructor
    · rintro hshort rest heq
      obtain ⟨-, rfl⟩ := List.cons.inj heq
      exact hshort
    · exact fun hall => hall buffer rfl
  | case4 h buffer size hs need hneed =>
    rw [hs]
    refine ⟨fun _ => noShort_of_length ?_, fun _ => rfl⟩
    have := size.lt
    rw [List.length_append]
    simp only [Status.pending]
    omega
  | case5 h buffer size hs need hneed bytes hhead =>
    have hall : size.bytes ++ buffer = bytes ++ buffer.drop need := by
      rw [List.append_assoc, List.take_append_drop]
    have hne : bytes ≠ [] := List.ne_nil_of_length_pos (by
      rw [length_complete hneed]
      decide)
    rw [hs]
    refine ⟨fun _ => noShort_of_head ?_, fun _ => rfl⟩
    simp only [Status.pending]
    rwa [hall, List.head?_append_of_ne_nil _ hne]
  | case6 h buffer size hs need hneed bytes hhead h1 hrest =>
    have hall : size.bytes ++ buffer = Bytes.be 4 (Bytes.ofBe (bytes.drop 1)) ++ [] := by
      rw [be_of_head (length_complete hneed) (not_not.mp hhead), ← hrest, List.append_assoc,
        List.take_append_drop]
    rw [hs]
    refine ⟨fun _ => ?_, fun _ => rfl⟩
    simp only [Status.Harmless, Status.pending]
    rw [hall, noShort_packet (ofBe_tail_lt (length_complete hneed))]
    exact .inl rfl
  | case7 h buffer size hs need hneed bytes hhead h1 hrest ih =>
    have hstatus : (h1.s id).status = .content (Bytes.ofBe (bytes.drop 1)) [] :=
      setStatus_status ..
    have hlt := ofBe_tail_lt (length_complete hneed)
    have ih := ih (by rw [hstatus]; exact ⟨.inl rfl, hlt⟩) (.inl hrest)
    rw [ih, hstatus, hs]
    simp only [Status.Harmless, Status.pending]
    rw [List.append_nil, be_of_head (length_complete hneed) (not_not.mp hhead), List.append_assoc,
      List.take_append_drop]
  | case8 h buffer length recv hs need hneed =>
    rw [hs] at hfits
    rw [hs]
    refine ⟨fun _ => ?_, fun _ => rfl⟩
    simp only [Status.Harmless, Status.pending]
    rw [List.append_assoc, noShort_packet hfits.2, List.length_append]
    right
    left
    omega
  | case9 h buffer length recv hs need hneed ih =>
    rw [hs] at hfits
    obtain ⟨hle, hlt⟩ := hfits
    have hle : recv.length ≤ length := by
      obtain rfl | hle := hle
      · exact Nat.zero_le _
      · exact hle.le
    have hstatus : ((setStatus h id (.header .zero)).s id).status = .header .zero :=
      setStatus_status ..
    have ih := ih (by rw [hstatus]; trivial) (.inr ⟨_, hstatus⟩)
    rw [hstatus] at ih
    have hbody : (recv ++ buffer.take need).length = length := by
      rw [List.length_append, List.length_take]
      omega
    have hdrop : (recv ++ buffer).drop length = buffer.drop need := by
      rw [List.drop_append, List.drop_eq_nil_of_le hle, List.nil_append]
    have hne' : recv ++ buffer ≠ [] := by
      intro hnil
      obtain hne | ⟨size, hsize⟩ := hne
      · exact hne (List.append_eq_nil_iff.mp hnil).2
      · rw [hs] at hsize
        cases hsize
    have hforward := forwardLocalMessage_isSome alive h (recv ++ buffer.take need)
    rw [hbody] at hforward
    have hpacket : Status.Harmless id (.content length recv) buffer ↔
        HEADER_COOKIE_LENGTH ≤ length ∧ NoShort (buffer.drop need) := by
      simp only [Status.Harmless, Status.pending]
      rw [List.append_assoc, noShort_packet hlt, hdrop, List.length_append]
      constructor
      · rintro (hnil | hshort | hrest)
        · exact absurd hnil hne'
        · omega
        · exact hrest
      · exact fun hrest => .inr (.inr hrest)
    rw [hs, hpacket, ← hforward]
    cases forwardLocalMessage alive h (recv ++ buffer.take need) with
    | none => simp
    | some es =>
      simp only [Option.bind_eq_bind, Option.bind_some, Option.isSome_some, true_and]
      split
      case isTrue hnil =>
        rw [hnil]
        exact ⟨fun _ => noShort_of_length (by decide), fun _ => rfl⟩
      case isFalse hrest =>
        rw [isSome_bind_some, ih]
        rfl
  | case10 h buffer hhandshake hheader hcontent =>
    cases hs : (h.s id).status with
    | handshake => exact absurd hs hhandshake
    | header size => exact absurd hs (hheader size)
    | content length recv => exact absurd hs (hcontent length recv)
    | _ => exact ⟨fun _ => trivial, fun _ => rfl⟩

theorem pushLoop_fits (alive : UInt32 → Bool) (h : Harbor) (id : UInt8) (buffer : List UInt8)
    (hfits : (h.s id).status.Fits) :
    ∀ r, pushLoop alive h id buffer = some r → (r.1.s id).status.Fits := by
  fun_induction pushLoop alive h id buffer with
  | case1 h hs =>
    intro r hr
    cases hr
  | case2 h hs remote buffer hremote =>
    rintro r hr
    rw [← Option.some.inj hr, closeHarbor_status]
    trivial
  | case3 h hs remote buffer hremote r ih =>
    rintro r1 hr
    obtain ⟨r2, hloop, hr⟩ := Option.bind_eq_some_iff.mp hr
    rw [← Option.some.inj hr]
    refine ih ?_ r2 hloop
    obtain rfl := not_not.mp hremote
    rw [dispatchQueue_status, setStatus_status]
    trivial
  | case4 h buffer size hs need hneed =>
    rintro r hr
    rw [← Option.some.inj hr, setStatus_status]
    trivial
  | case5 h buffer size hs need hneed bytes hhead =>
    rintro r hr
    rw [← Option.some.inj hr, closeHarbor_status]
    trivial
  | case6 h buffer size hs need hneed bytes hhead h1 hrest =>
    rintro r hr
    rw [← Option.some.inj hr, setStatus_status]
    exact ⟨.inl rfl, ofBe_tail_lt (length_complete hneed)⟩
  | case7 h buffer size hs need hneed bytes hhead h1 hrest ih =>
    refine ih ?_
    rw [setStatus_status]
    exact ⟨.inl rfl, ofBe_tail_lt (length_complete hneed)⟩
  | case8 h buffer length recv hs need hneed =>
    rintro r hr
    rw [hs] at hfits
    rw [← Option.some.inj hr, setStatus_status]
    refine ⟨.inr ?_, hfits.2⟩
    rw [List.length_append]
    omega
  | case9 h buffer length recv hs need hneed ih =>
    rintro r hr
    obtain ⟨es, -, hr⟩ := Option.bind_eq_some_iff.mp hr
    simp only at hr
    split at hr
    · rw [← Option.some.inj hr, setStatus_status]
      trivial
    · obtain ⟨r1, hloop, hr⟩ := Option.bind_eq_some_iff.mp hr
      rw [← Option.some.inj hr]
      exact ih (by rw [setStatus_status]; trivial) r1 hloop
  | case10 h buffer hhandshake hheader hcontent =>
    rintro r hr
    rw [← Option.some.inj hr]
    exact hfits

/-! ### Chunks -/

theorem closeHarbor_setStatus (h : Harbor) (id : UInt8) (status : Status) :
    closeHarbor (setStatus h id status) id = closeHarbor h id := by
  simp only [closeHarbor, setStatus, setSlave, Function.update_self, Function.update_idem]

theorem pushLoop_opening {remote : UInt8} {buffer : List UInt8}
    (hs : (h.s id).status = .handshake) :
    pushLoop alive h id (remote :: buffer) =
      if remote ≠ id then some ((closeHarbor h id).1, .error :: (closeHarbor h id).2)
      else (pushLoop alive (dispatchQueue (setStatus h id (.header .zero)) id).1 id buffer).bind
        fun r => some (r.1, (dispatchQueue (setStatus h id (.header .zero)) id).2 ++ r.2) := by
  rw [pushLoop.eq_def]
  split
  · rfl
  · simp_all
  · simp_all
  · simp_all

theorem pushLoop_header_more {size : Size} {a : List UInt8} (b : List UInt8)
    (hs : (h.s id).status = .header size) (hlt : (size.bytes ++ a).length < 4) :
    pushLoop alive h id (a ++ b) =
      pushLoop alive (setStatus h id (.header ⟨size.bytes ++ a, hlt⟩)) id b := by
  have hlen : size.bytes.length + a.length < 4 := by rwa [← List.length_append]
  have htake : size.bytes ++ (a ++ b).take (4 - size.bytes.length) =
      size.bytes ++ a ++ b.take (4 - (size.bytes ++ a).length) := by
    rw [List.take_append, List.take_of_length_le (by omega), List.append_assoc,
      List.length_append, Nat.sub_sub]
  have hdrop : (a ++ b).drop (4 - size.bytes.length) = b.drop (4 - (size.bytes ++ a).length) := by
    rw [List.drop_append, List.drop_eq_nil_of_le (by omega), List.nil_append, List.length_append,
      Nat.sub_sub]
  rw [pushLoop_header hs, pushLoop_header (setStatus_status ..)]
  simp only [htake, hdrop, closeHarbor_setStatus, setStatus_setStatus]
  by_cases hneed : (a ++ b).length < 4 - size.bytes.length
  · have hneed' : b.length < 4 - (size.bytes ++ a).length := by
      rw [List.length_append] at hneed ⊢
      omega
    simp only [dif_pos hneed, dif_pos hneed', List.append_assoc]
  · have hneed' : ¬b.length < 4 - (size.bytes ++ a).length := by
      rw [List.length_append] at hneed ⊢
      omega
    rw [dif_neg hneed, dif_neg hneed']

theorem pushLoop_content_more {length : Nat} {recv a : List UInt8} (b : List UInt8)
    (hs : (h.s id).status = .content length recv) (hlt : a.length < length - recv.length) :
    pushLoop alive h id (a ++ b) =
      pushLoop alive (setStatus h id (.content length (recv ++ a))) id b := by
  have htake : recv ++ (a ++ b).take (length - recv.length) =
      recv ++ a ++ b.take (length - (recv ++ a).length) := by
    rw [List.take_append, List.take_of_length_le hlt.le, List.append_assoc, List.length_append,
      Nat.sub_sub]
  have hdrop : (a ++ b).drop (length - recv.length) = b.drop (length - (recv ++ a).length) := by
    rw [List.drop_append, List.drop_eq_nil_of_le hlt.le, List.nil_append, List.length_append,
      Nat.sub_sub]
  have hforward (msg : List UInt8) (status : Status) :
      forwardLocalMessage alive (setStatus h id status) msg = forwardLocalMessage alive h msg := rfl
  rw [pushLoop_content hs, pushLoop_content (setStatus_status ..)]
  simp only [htake, hdrop, hforward, setStatus_setStatus]
  by_cases hneed : (a ++ b).length < length - recv.length
  · have hneed' : b.length < length - (recv ++ a).length := by
      rw [List.length_append] at hneed ⊢
      omega
    rw [if_pos hneed, if_pos hneed', List.append_assoc]
  · have hneed' : ¬b.length < length - (recv ++ a).length := by
      rw [List.length_append] at hneed ⊢
      omega
    rw [if_neg hneed, if_neg hneed']

theorem pushLoop_header_done {size : Size} {a b : List UInt8} (hb : b ≠ [])
    (hs : (h.s id).status = .header size) (hneed : ¬a.length < 4 - size.bytes.length) :
    pushLoop alive h id (a ++ b) =
      if (size.bytes ++ a.take (4 - size.bytes.length)).head? ≠ some 0 then
        some ((closeHarbor h id).1, .error :: (closeHarbor h id).2)
      else
        pushLoop alive (setStatus h id (.content
          (Bytes.ofBe ((size.bytes ++ a.take (4 - size.bytes.length)).drop 1)) [])) id
          (a.drop (4 - size.bytes.length) ++ b) := by
  have hne : a.drop (4 - size.bytes.length) ++ b ≠ [] := by simp [hb]
  have hdrop : (a ++ b).drop (4 - size.bytes.length) = a.drop (4 - size.bytes.length) ++ b :=
    List.drop_append_of_le_length (by omega)
  rw [pushLoop_header hs, dif_neg (by rw [List.length_append]; omega),
    List.take_append_of_le_length (by omega)]
  simp only [hdrop, if_neg hne]

theorem pushLoop_content_done {length : Nat} {recv a b : List UInt8} (hb : b ≠ [])
    (hs : (h.s id).status = .content length recv) (hneed : ¬a.length < length - recv.length) :
    pushLoop alive h id (a ++ b) =
      (forwardLocalMessage alive h (recv ++ a.take (length - recv.length))).bind fun es =>
        (pushLoop alive (setStatus h id (.header .zero)) id
          (a.drop (length - recv.length) ++ b)).bind fun r => some (r.1, es ++ r.2) := by
  have hne : a.drop (length - recv.length) ++ b ≠ [] := by simp [hb]
  rw [pushLoop_content hs, if_neg (by rw [List.length_append]; omega),
    List.take_append_of_le_length (by omega), List.drop_append_of_le_length (by omega)]
  simp only [if_neg hne]

theorem map_nil_append {r : Option (Harbor × List Effect)} :
    (r.map fun r' => (r'.1, [] ++ r'.2)) = r := by
  cases r <;> rfl

theorem pushLoop_append (alive : UInt32 → Bool) (h : Harbor) (id : UInt8) (a : List UInt8)
    {b : List UInt8} (hb : b ≠ []) (ha : (h.s id).status = .handshake → a ≠ []) :
    pushLoop alive h id (a ++ b) = (pushLoop alive h id a).bind fun r =>
      (pushLoop alive r.1 id b).map fun r' => (r'.1, r.2 ++ r'.2) := by
  fun_induction pushLoop alive h id a with
  | case1 h hs => exact absurd rfl (ha hs)
  | case2 h hs remote buffer hremote r =>
    rw [List.cons_append, pushLoop_opening hs, if_pos hremote, Option.bind_some,
      pushLoop_down (closeHarbor_status h id), Option.map_some, List.append_nil]
  | case3 h hs remote buffer hremote r ih =>
    rw [List.cons_append, pushLoop_opening hs, if_neg hremote, ih fun hbad => ?_]
    · cases pushLoop alive r.1 id buffer with
      | none => rfl
      | some r1 =>
        simp only [Option.bind_eq_bind, Option.bind_some]
        cases pushLoop alive r1.1 id b with
        | none => rfl
        | some r2 => simp [r]
    · obtain rfl := not_not.mp hremote
      rw [dispatchQueue_status, setStatus_status] at hbad
      cases hbad
  | case4 h buffer size hs need hneed =>
    rw [pushLoop_header_more b hs, Option.bind_some, map_nil_append]
  | case5 h buffer size hs need hneed bytes hhead r =>
    rw [pushLoop_header_done hb hs hneed, if_pos hhead, Option.bind_some,
      pushLoop_down (closeHarbor_status h id), Option.map_some, List.append_nil]
  | case6 h buffer size hs need hneed bytes hhead h1 hrest =>
    rw [pushLoop_header_done hb hs hneed, if_neg hhead, hrest, List.nil_append, Option.bind_some,
      map_nil_append]
  | case7 h buffer size hs need hneed bytes hhead h1 hrest ih =>
    rw [pushLoop_header_done hb hs hneed, if_neg hhead]
    refine ih fun hbad => ?_
    rw [setStatus_status] at hbad
    cases hbad
  | case8 h buffer length recv hs need hneed =>
    rw [pushLoop_content_more b hs hneed, Option.bind_some, map_nil_append]
  | case9 h buffer length recv hs need hneed ih =>
    rw [pushLoop_content_done hb hs hneed]
    have ih := ih fun hbad => by
      rw [setStatus_status] at hbad
      cases hbad
    cases forwardLocalMessage alive h (recv ++ buffer.take need) with
    | none => rfl
    | some es =>
      simp only [Option.bind_eq_bind, Option.bind_some]
      split
      case isTrue hrest =>
        rw [hrest, List.nil_append, Option.bind_some]
        cases pushLoop alive (setStatus h id (.header .zero)) id b <;> rfl
      case isFalse hrest =>
        rw [ih]
        cases pushLoop alive (setStatus h id (.header .zero)) id (buffer.drop need) with
        | none => rfl
        | some r1 =>
          simp only [Option.bind_some]
          cases pushLoop alive r1.1 id b with
          | none => rfl
          | some r2 => simp
  | case10 h buffer hhandshake hheader hcontent =>
    have hquiet (c : List UInt8) : pushLoop alive h id c = some (h, []) := by
      rw [pushLoop.eq_def]
      split <;> simp_all
    rw [hquiet, Option.bind_some, hquiet]
    rfl

/-- Chunks with bytes in them, as the socket thread reports them: a read of none is a close. -/
def Chunks (chunks : List (List UInt8)) : Prop := ∀ chunk ∈ chunks, chunk ≠ []

theorem same_closeHarbor (h : Harbor) (id : UInt8) : Same h (closeHarbor h id).1 id :=
  same_setSlave rfl

theorem same_dispatchQueue (h : Harbor) (id : UInt8) : Same h (dispatchQueue h id).1 id := by
  unfold dispatchQueue
  dsimp only
  split
  · exact .refl
  · exact same_setSlave rfl

theorem pushLoop_same (alive : UInt32 → Bool) (h : Harbor) (id : UInt8) (buffer : List UInt8) :
    ∀ r, pushLoop alive h id buffer = some r → Same h r.1 id := by
  fun_induction pushLoop alive h id buffer with
  | case1 h hs =>
    intro r hr
    cases hr
  | case2 h hs remote buffer hremote =>
    rintro r hr
    rw [← Option.some.inj hr]
    exact same_closeHarbor h id
  | case3 h hs remote buffer hremote r ih =>
    rintro r1 hr
    obtain ⟨r2, hloop, hr⟩ := Option.bind_eq_some_iff.mp hr
    rw [← Option.some.inj hr]
    exact ((same_setStatus ..).trans (same_dispatchQueue ..)).trans (ih r2 hloop)
  | case4 h buffer size hs need hneed =>
    rintro r hr
    rw [← Option.some.inj hr]
    exact same_setStatus ..
  | case5 h buffer size hs need hneed bytes hhead =>
    rintro r hr
    rw [← Option.some.inj hr]
    exact same_closeHarbor h id
  | case6 h buffer size hs need hneed bytes hhead h1 hrest =>
    rintro r hr
    rw [← Option.some.inj hr]
    exact same_setStatus ..
  | case7 h buffer size hs need hneed bytes hhead h1 hrest ih =>
    exact fun r hr => (same_setStatus ..).trans (ih r hr)
  | case8 h buffer length recv hs need hneed =>
    rintro r hr
    rw [← Option.some.inj hr]
    exact same_setStatus ..
  | case9 h buffer length recv hs need hneed ih =>
    rintro r hr
    obtain ⟨es, -, hr⟩ := Option.bind_eq_some_iff.mp hr
    simp only at hr
    split at hr
    · rw [← Option.some.inj hr]
      exact same_setStatus ..
    · obtain ⟨r1, hloop, hr⟩ := Option.bind_eq_some_iff.mp hr
      rw [← Option.some.inj hr]
      exact (same_setStatus ..).trans (ih r1 hloop)
  | case10 h buffer hhandshake hheader hcontent =>
    rintro r hr
    rw [← Option.some.inj hr]
    exact .refl

theorem receive_eq (alive : UInt32 → Bool) (hfind : findSlave h fd = some id)
    {chunk : List UInt8} {chunks : List (List UInt8)} (hchunks : Chunks (chunk :: chunks)) :
    receive alive h fd (chunk :: chunks) = pushLoop alive h id (chunk ++ chunks.flatten) := by
  induction chunks generalizing h chunk with
  | nil =>
    simp only [receive, pushSocketData, hfind, List.flatten_nil, List.append_nil]
    cases pushLoop alive h id chunk <;> simp
  | cons chunk' chunks ih =>
    obtain ⟨hchunk, hchunks⟩ := List.forall_mem_cons.mp hchunks
    have hne : (chunk' :: chunks).flatten ≠ [] := by
      rw [List.flatten_cons]
      exact List.append_ne_nil_of_left_ne_nil (hchunks chunk' List.mem_cons_self) _
    rw [pushLoop_append alive h id chunk hne fun _ => hchunk, receive]
    simp only [pushSocketData, hfind]
    cases hloop : pushLoop alive h id chunk with
    | none => rfl
    | some r =>
      have hfind' : findSlave r.1 fd = some id :=
        (pushLoop_same alive h id chunk r hloop).findSlave.trans hfind
      simp only [Option.bind_eq_bind, Option.bind_some]
      rw [ih hfind' hchunks, List.flatten_cons]
      cases pushLoop alive r.1 id (chunk' ++ chunks.flatten) <;> rfl

/-- The chunks are read without a step outside of a buffer, and another cutting of their bytes gives
the same. -/
def ReadsAlike (alive : UInt32 → Bool) (h : Harbor) (id : UInt8) (fd : Int32)
    (chunks : List (List UInt8)) : Prop :=
  ∃ h' es, receive alive h fd chunks = some (h', es) ∧ (h'.s id).status.Fits ∧
    ∀ chunks', Chunks chunks' → chunks'.flatten = chunks.flatten →
      receive alive h fd chunks' = some (h', es)

theorem Status.Fits.harmless_nil {status : Status} (hfits : status.Fits) :
    status.Harmless id [] := by
  cases status with
  | wait => trivial
  | handshake => exact fun rest hrest => (nomatch hrest)
  | header size =>
    refine noShort_of_length ?_
    rw [List.append_nil]
    exact size.lt
  | content length recv =>
    obtain ⟨hrecv, hlt⟩ := hfits
    refine (List.append_assoc .. ▸ noShort_packet hlt _).mpr ?_
    rw [List.append_nil]
    exact hrecv.imp_right .inl
  | down => trivial

theorem Chunks.flatten_ne_nil {chunk : List UInt8} {chunks : List (List UInt8)}
    (hchunks : Chunks (chunk :: chunks)) : chunk ++ chunks.flatten ≠ [] :=
  List.append_ne_nil_of_left_ne_nil (hchunks chunk List.mem_cons_self) _

/-- Whatever a peer sends, and however it is cut: it is read safely and as one stream if and only if
no packet of it is too short. -/
theorem peer_reads_iff (alive : UInt32 → Bool) (h : Harbor) (id : UInt8) (fd : Int32)
    (hfind : findSlave h fd = some id) (hfits : (h.s id).status.Fits)
    (chunks : List (List UInt8)) (hchunks : Chunks chunks) :
    ReadsAlike alive h id fd chunks ↔ (h.s id).status.Harmless id chunks.flatten := by
  cases chunks with
  | nil =>
    refine ⟨fun _ => hfits.harmless_nil, fun _ => ⟨h, [], rfl, hfits, fun chunks' hne hflat => ?_⟩⟩
    cases chunks' with
    | nil => rfl
    | cons chunk' chunks' => exact absurd hflat hne.flatten_ne_nil
  | cons chunk chunks =>
    have hsafe := pushLoop_isSome_iff alive h id (chunk ++ chunks.flatten) hfits
      (.inl hchunks.flatten_ne_nil)
    rw [List.flatten_cons, ← hsafe, Option.isSome_iff_exists]
    constructor
    · rintro ⟨h', es, hreceive, -⟩
      exact ⟨_, (receive_eq alive hfind hchunks).symm.trans hreceive⟩
    · rintro ⟨⟨h', es⟩, hloop⟩
      refine ⟨h', es, (receive_eq alive hfind hchunks).trans hloop,
        pushLoop_fits alive h id _ hfits _ hloop, fun chunks' hne hflat => ?_⟩
      cases chunks' with
      | nil => exact absurd hflat.symm hchunks.flatten_ne_nil
      | cons chunk' chunks' =>
        rw [receive_eq alive hfind hne]
        rw [List.flatten_cons, List.flatten_cons] at hflat
        rw [hflat, hloop]

/-- A packet with an empty message, cut in its length and in its cookie. -/
theorem peer_reads_iff_empty :
    ReadsAlike (fun _ => true) (setSlave (harborInit 1 0x1000001) 2 ⟨5, none, .header .zero⟩) 2 5
      [[0, 0], [0, 12, 2, 0, 0, 3], [0, 0, 0, 4, 0, 0, 0, 7]] := by
  have hfits : ((setSlave (harborInit 1 0x1000001) 2 ⟨5, none, .header .zero⟩).s 2).status.Fits :=
    trivial
  refine (peer_reads_iff _ _ 2 5 (by decide) hfits _ (by unfold Chunks; decide)).mpr ?_
  refine (@noShort_packet 12 (by decide) [2, 0, 0, 3, 0, 0, 0, 4, 0, 0, 0, 7]).mpr ?_
  exact .inr (.inr ⟨by decide, noShort_of_length (by decide)⟩)

/-- Five bytes are no room for a cookie. -/
theorem peer_reads_outside :
    ¬∀ (alive : UInt32 → Bool) (h : Harbor) (id : UInt8) (fd : Int32),
      findSlave h fd = some id → (h.s id).status.Fits →
      ∀ chunks, Chunks chunks → ReadsAlike alive h id fd chunks := by
  intro hall
  have hfits : ((setSlave (harborInit 1 0x1000001) 2 ⟨5, none, .header .zero⟩).s 2).status.Fits :=
    trivial
  obtain ⟨h', es, hreceive, -⟩ := hall (fun _ => true) _ 2 5 (by decide) hfits
    [[0, 0, 0, 5, 1, 2, 3, 4, 5]] (by unfold Chunks; decide)
  have hfind : findSlave (setSlave (harborInit 1 0x1000001) 2 ⟨5, none, .header .zero⟩) 5 =
      some 2 := by decide
  rw [receive_eq _ hfind (by unfold Chunks; decide)] at hreceive
  have hsafe := (pushLoop_isSome_iff _ _ 2 _ hfits (.inl (by decide))).mp
    (Option.isSome_iff_exists.mpr ⟨_, hreceive⟩)
  obtain hnil | hlt | ⟨hle, -⟩ := (@noShort_packet 5 (by decide) [1, 2, 3, 4, 5]).mp hsafe
  · cases hnil
  · exact absurd hlt (by decide)
  · exact absurd hle (by decide)

end XsServer.Remote
