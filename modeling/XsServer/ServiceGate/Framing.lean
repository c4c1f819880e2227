import XsServer.Lib.Framing
import XsServer.Lib.Run
import XsServer.ServiceGate.Buffer
import Mathlib.Data.List.TakeWhile

/-! The gate service of `service_gate.c`: a connection with its agent, the commands that say who
gets the packets, and `dispatch_message`, which puts a socket message into the buffer of its
connection and forwards every packet that is complete.  These packets do not depend on how the
stream of a connection is cut into socket messages: the buffer holds the stream from the first
packet on that has not been handled, so the loop of `dispatch_message` finds the frames of what is
pending. -/

namespace XsServer.ServiceGate

open Lib Lib.Bytes

def PTYPE_TEXT : Nat := 0

def PTYPE_TAG_DONTCOPY : Nat := 0x10000

structure Gate where
  broker : UInt32
  watchdog : UInt32
  clientTag : Nat
  headerSize : HeaderSize

structure Connection where
  id : Int32
  agent : UInt32
  client : UInt32
  buffer : DataBuffer

def Connection.accepted (id : Int32) : Connection := ⟨id, 0, 0, .empty⟩

/-- The arguments of `skynet_send`; source 0 stands for the gate itself. -/
structure Sent where
  source : UInt32
  destination : UInt32
  type : Nat
  session : Int32
  data : List UInt8
  deriving DecidableEq

/-- What `snprintf` writes before a packet for the watchdog. -/
def dataHeader (id : Int32) : List UInt8 := (toString id.toInt ++ " data ").toUTF8.data.toList

def forward (g : Gate) (c : Connection) (size : Nat) : Option (List Sent × Connection) :=
  if c.id ≤ 0 then some ([], c)
  else if g.broker ≠ 0 then do
    let (temp, buffer) ← databufferRead c.buffer size
    some ([⟨0, g.broker, g.clientTag ||| PTYPE_TAG_DONTCOPY, c.id, temp⟩], { c with buffer })
  else if c.agent ≠ 0 then do
    let (temp, buffer) ← databufferRead c.buffer size
    some ([⟨c.client, c.agent, g.clientTag ||| PTYPE_TAG_DONTCOPY, c.id, temp⟩], { c with buffer })
  else if g.watchdog ≠ 0 then do
    let (tmp, buffer) ← databufferRead c.buffer size
    some ([⟨0, g.watchdog, PTYPE_TEXT ||| PTYPE_TAG_DONTCOPY, c.id, dataHeader c.id ++ tmp⟩],
      { c with buffer })
  else some ([], c)

/-- What a step of the gate does outside: the messages it sends, and whether it closes the
socket. -/
structure Outcome where
  sent : List Sent
  closed : Bool
  deriving DecidableEq

def Outcome.quiet : Outcome := ⟨[], false⟩

/-- The loop of `dispatch_message`; `none` is a failed assertion, or fuel that runs out. -/
def dispatchLoop (g : Gate) : Nat → Connection → Option (Outcome × Connection)
  | 0, _ => none
  | fuel + 1, c => do
    let (size, buffer) ← databufferReadHeader c.buffer g.headerSize
    if size < 0 then some (.quiet, { c with buffer })
    else if size > 0 then
      if size ≥ 0x1000000 then some (⟨[], true⟩, { c with buffer := .empty })
      else do
        let (sent, c') ← forward g { c with buffer } size.toNat
        let (rest, c'') ← dispatchLoop g fuel { c' with buffer := databufferReset c'.buffer }
        some (⟨sent ++ rest.sent, rest.closed⟩, c'')
    else dispatchLoop g fuel { c with buffer }

/-- Every turn of the loop but the first reads a header. -/
def dispatchMessage (g : Gate) (c : Connection) (data : List UInt8) :
    Option (Outcome × Connection) :=
  let buffer := databufferPush c.buffer data
  dispatchLoop g (buffer.unread.length + 2) { c with buffer }

/-! ### The events of a connection -/

structure State where
  gate : Gate
  connection : Connection
  /-- The gate has asked for the socket to be closed. -/
  closed : Bool

def State.accepted (g : Gate) (id : Int32) : State := ⟨g, .accepted id, false⟩

/-- A socket message with bytes, and the commands that change who gets the packets. -/
inductive Event
  | data (bytes : List UInt8)
  | broker (handle : UInt32)
  | forward (agentaddr clientaddr : UInt32)

def State.handle (s : State) : Event → Option (Outcome × State)
  | .data bytes => do
    let (out, c) ← dispatchMessage s.gate s.connection bytes
    some (out, { s with connection := c, closed := s.closed || out.closed })
  | .broker handle => some (.quiet, { s with gate := { s.gate with broker := handle } })
  | .forward agentaddr clientaddr =>
    some (.quiet, { s with connection :=
      { s.connection with agent := agentaddr, client := clientaddr } })

def Step (s : State) (l : Event × Outcome) (t : State) : Prop := s.handle l.1 = some (l.2, t)

def Event.bytes : Event → List UInt8
  | .data bytes => bytes
  | _ => []

def received (ls : List (Event × Outcome)) : List UInt8 := ls.flatMap (·.1.bytes)

theorem received_snoc (ls : List (Event × Outcome)) (l : Event × Outcome) :
    received (ls ++ [l]) = received ls ++ l.1.bytes := by
  rw [received, received, List.flatMap_append, List.flatMap_singleton]

/-! ### The packets of a stream -/

def nextPacket (k : HeaderSize) (bs : List UInt8) : Option (List UInt8 × List UInt8) :=
  if bs.length < k.size then none
  else
    let size := ofBe (bs.take k.size)
    if (bs.drop k.size).length < size then none
    else some ((bs.drop k.size).take size, (bs.drop k.size).drop size)

theorem nextPacket_some {k : HeaderSize} {bs a r : List UInt8} (h : nextPacket k bs = some (a, r)) :
    k.size ≤ bs.length ∧ ofBe (bs.take k.size) ≤ (bs.drop k.size).length ∧
      a = (bs.drop k.size).take (ofBe (bs.take k.size)) ∧
      r = (bs.drop k.size).drop (ofBe (bs.take k.size)) := by
  simp only [nextPacket, Option.ite_none_left_eq_some, Option.some.injEq, Prod.mk.injEq,
    not_lt] at h
  exact ⟨h.1, h.2.1, h.2.2.1.symm, h.2.2.2.symm⟩

/-- A packet is its size in the bytes of a header, the highest first, and that many bytes. -/
def frames (k : HeaderSize) : Framing UInt8 (List UInt8) where
  next := nextPacket k
  next_lt := by
    intro bs a r h
    obtain ⟨hk, _, _, rfl⟩ := nextPacket_some h
    have := k.pos
    rw [List.length_drop, List.length_drop]
    omega
  next_append := by
    intro bs a r h cs
    obtain ⟨hk, hle, rfl, rfl⟩ := nextPacket_some h
    rw [nextPacket, if_neg (by rw [List.length_append]; omega),
      List.take_append_of_le_length hk, List.drop_append_of_le_length hk]
    change ite _ _ _ = _
    rw [if_neg (by rw [List.length_append]; omega), List.take_append_of_le_length hle,
      List.drop_append_of_le_length hle]

/-- The packets of 16 MB or more end the connection. -/
def limit : Nat := 0x1000000

/-- The packets to forward: those with bytes, before the first that is too large. -/
def packets (k : HeaderSize) (stream : List UInt8) : List (List UInt8) :=
  (((frames k).split stream).1.takeWhile (·.length < limit)).filter (· ≠ [])

/-- A packet that is too large has arrived to its end. -/
def oversized (k : HeaderSize) (stream : List UInt8) : Bool :=
  ((frames k).split stream).1.any (limit ≤ ·.length)

/-- The start of a packet that has not arrived to its end. -/
def rest (k : HeaderSize) (stream : List UInt8) : List UInt8 := ((frames k).split stream).2

variable {k : HeaderSize} {bs a r : List UInt8}

theorem packets_none (h : nextPacket k bs = none) :
    packets k bs = [] ∧ oversized k bs = false ∧ rest k bs = bs := by
  have hsplit := Framing.split_none (F := frames k) h
  refine ⟨?_, ?_, ?_⟩
  · rw [packets, hsplit]; rfl
  · rw [oversized, hsplit]; rfl
  · rw [rest, hsplit]

theorem packets_empty (h : nextPacket k bs = some ([], r)) :
    packets k bs = packets k r ∧ oversized k bs = oversized k r ∧ rest k bs = rest k r := by
  have hsplit := Framing.split_some (F := frames k) h
  refine ⟨?_, ?_, ?_⟩
  · rw [packets, hsplit]; rfl
  · rw [oversized, hsplit]; rfl
  · rw [rest, hsplit]; rfl

theorem packets_some (h : nextPacket k bs = some (a, r)) (ha : a ≠ []) (hlt : a.length < limit) :
    packets k bs = a :: packets k r ∧ oversized k bs = oversized k r ∧ rest k bs = rest k r := by
  have hsplit := Framing.split_some (F := frames k) h
  refine ⟨?_, ?_, ?_⟩
  · rw [packets, hsplit, List.takeWhile_cons_of_pos (by simpa using hlt),
      List.filter_cons_of_pos (by simpa using ha)]
    rfl
  · rw [oversized, hsplit, List.any_cons]
    simp [Nat.not_le.mpr hlt, oversized]
  · rw [rest, hsplit]; rfl

theorem packets_large (h : nextPacket k bs = some (a, r)) (hle : limit ≤ a.length) :
    packets k bs = [] ∧ oversized k bs = true := by
  have hsplit := Framing.split_some (F := frames k) h
  refine ⟨?_, ?_⟩
  · rw [packets, hsplit, List.takeWhile_cons_of_neg (by simpa using hle)]
    rfl
  · rw [oversized, hsplit, List.any_cons]
    simp [hle]

theorem packets_append (bs cs : List UInt8) (h : oversized k bs = false) :
    packets k (bs ++ cs) = packets k bs ++ packets k (rest k bs ++ cs) ∧
      oversized k (bs ++ cs) = oversized k (rest k bs ++ cs) ∧
      rest k (bs ++ cs) = rest k (rest k bs ++ cs) := by
  have hsplit := Framing.split_append (F := frames k) bs cs
  have hsmall : ∀ p ∈ ((frames k).split bs).1, p.length < limit := by
    intro p hp
    have := List.any_eq_false.mp h p hp
    simpa using this
  have hself : ((frames k).split bs).1.takeWhile (·.length < limit) = ((frames k).split bs).1 :=
    List.takeWhile_eq_self_iff.mpr fun p hp => decide_eq_true (hsmall p hp)
  refine ⟨?_, ?_, ?_⟩
  · rw [packets, hsplit, List.takeWhile_append_of_pos fun p hp => decide_eq_true (hsmall p hp),
      List.filter_append, packets, hself]
    rfl
  · rw [oversized, hsplit, List.any_append]
    change (oversized k bs || _) = _
    rw [h, Bool.false_or]
    rfl
  · rw [rest, hsplit]; rfl

/-! ### The buffer and the stream -/

/-- The buffer holds these bytes; those of a header that has been read are the first of them. -/
structure Holds (k : HeaderSize) (db : DataBuffer) (bs : List UInt8) : Prop where
  sound : db.Sound
  held : (db.header = 0 ∧ bs = db.unread) ∨
    (db.header ≠ 0 ∧ ∃ plen : List UInt8, plen.length = k.size ∧ db.header = headerValue k plen ∧
      bs = plen ++ db.unread)

variable {db : DataBuffer}

theorem holds_empty : Holds k .empty [] := ⟨sound_empty, .inl ⟨rfl, rfl⟩⟩

theorem ofBe_lt_word {plen : List UInt8} (h : plen.length = k.size) : ofBe plen < 2 ^ 32 := by
  have hlt := ofBe_lt plen
  rcases k.size_eq with hk | hk <;> rw [h, hk] at hlt <;> omega

theorem headerValue_spec {plen : List UInt8} (h : plen.length = k.size) :
    (ofBe plen < 2 ^ 31 → headerValue k plen = ofBe plen) ∧
      (2 ^ 31 ≤ ofBe plen → headerValue k plen < 0) := by
  have hlt := ofBe_lt plen
  unfold headerValue
  rcases k.size_eq with hk | hk
  · rw [h, hk] at hlt
    rw [if_pos hk]
    exact ⟨fun _ => rfl, fun hle => by omega⟩
  · rw [h, hk] at hlt
    rw [if_neg (by omega)]
    refine ⟨fun hlt' => int32_eq_self (by omega) (by omega), fun hle => ?_⟩
    unfold int32
    rw [Int.bmod_def]
    split <;> omega

theorem headerValue_emod {plen : List UInt8} (h : plen.length = k.size) :
    (headerValue k plen % 2 ^ 32).toNat = ofBe plen := by
  have hlt := ofBe_lt_word h
  unfold headerValue
  split
  · omega
  · rw [int32_emod]
    omega

theorem Holds.pending_eq (h : Holds k db bs) : db.pending k = bs := by
  rcases h.held with ⟨hzero, hbs⟩ | ⟨hne, plen, hlen, hheader, hbs⟩
  · rw [DataBuffer.pending, if_pos hzero, hbs]
  · rw [DataBuffer.pending, if_neg hne, hheader, headerValue_emod hlen, hbs, ← hlen, be_ofBe]

theorem Holds.push (h : Holds k db bs) {data : List UInt8}
    (hlt : db.unread.length + data.length < 2 ^ 31) :
    Holds k (databufferPush db data) (bs ++ data) := by
  obtain ⟨hsound, hunread, hheader⟩ := databufferPush_spec h.sound hlt
  refine ⟨hsound, ?_⟩
  rcases h.held with ⟨hzero, hbs⟩ | ⟨hne, plen, hlen, hvalue, hbs⟩
  · exact .inl ⟨by rw [hheader, hzero], by rw [hbs, hunread]⟩
  · refine .inr ⟨by rwa [hheader], plen, hlen, by rw [hheader, hvalue], ?_⟩
    rw [hbs, hunread, List.append_assoc]

theorem readHeader_spec (h : Holds k db bs) :
    (bs.length < k.size ∧ databufferReadHeader db k = some (-1, db)) ∨
      ∃ plen db', plen.length = k.size ∧ bs = plen ++ db'.unread ∧ db'.Sound ∧
        db'.header = headerValue k plen ∧ databufferReadHeader db k =
          some
            (if db'.unread.length < headerValue k plen then -1 else headerValue k plen, db') := by
  have hsize := h.sound.size_eq
  rcases h.held with ⟨hzero, hbs⟩ | ⟨hne, plen, hlen, hvalue, hbs⟩
  · by_cases hlt : bs.length < k.size
    · refine .inl ⟨hlt, ?_⟩
      rw [hbs] at hlt
      rw [databufferReadHeader, if_pos hzero, if_pos (by omega)]
    · rw [hbs] at hlt
      obtain ⟨db', hread, hsound, hunread, _⟩ :=
        databufferRead_spec h.sound k.pos (Nat.not_lt.mp hlt)
      refine .inr ⟨db.unread.take k.size,
        { db' with header := headerValue k (db.unread.take k.size) }, ?_, ?_, ?_, rfl, ?_⟩
      · rw [List.length_take]; omega
      · change bs = _ ++ db'.unread
        rw [hbs, hunread, List.take_append_drop]
      · exact ⟨hsound.offset_le, hsound.offset_nil, hsound.size_eq⟩
      · rw [databufferReadHeader, if_pos hzero, if_neg (by omega), hread]
        change some (databufferReadHeader.awaitBody _) = _
        rw [databufferReadHeader.awaitBody]
        change some (if db'.size < _ then _ else _, _) = _
        rw [hsound.size_eq]
        rfl
  · refine .inr ⟨plen, db, hlen, hbs, h.sound, hvalue, ?_⟩
    rw [databufferReadHeader, if_neg hne, databufferReadHeader.awaitBody, hsize, hvalue]

theorem nextPacket_known {plen unread : List UInt8} (h : plen.length = k.size) :
    nextPacket k (plen ++ unread) = if unread.length < ofBe plen then none
      else some (unread.take (ofBe plen), unread.drop (ofBe plen)) := by
  rw [nextPacket, if_neg (by rw [List.length_append]; omega), ← h, List.take_left, List.drop_left]

theorem Holds.length_le (h : Holds k db bs) : bs.length ≤ db.unread.length + k.size := by
  rcases h.held with ⟨_, rfl⟩ | ⟨_, plen, hlen, _, rfl⟩
  · exact Nat.le_add_right _ _
  · rw [List.length_append]
    omega

theorem readHeader_waits (h : Holds k db bs) (_hlt : db.unread.length < 2 ^ 31)
    (hnext : nextPacket k bs = none) :
    ∃ size db', databufferReadHeader db k = some (size, db') ∧ size < 0 ∧ Holds k db' bs := by
  rcases readHeader_spec h with ⟨_, hread⟩ | ⟨plen, db', hlen, rfl, hsound, hvalue, hread⟩
  · exact ⟨-1, db, hread, by omega, h⟩
  · obtain ⟨hsmall, hlarge⟩ := headerValue_spec hlen
    rw [nextPacket_known hlen] at hnext
    have hless : db'.unread.length < ofBe plen := by
      by_contra hge
      rw [if_neg hge] at hnext
      cases hnext
    have hne : headerValue k plen ≠ 0 := by
      rcases lt_or_ge (ofBe plen) (2 ^ 31) with hn | hn
      · rw [hsmall hn]; omega
      · exact (hlarge hn).ne
    refine ⟨_, db', hread, ?_, hsound, .inr ⟨by rwa [hvalue], plen, hlen, hvalue, rfl⟩⟩
    rcases lt_or_ge (ofBe plen) (2 ^ 31) with hn | hn
    · rw [hsmall hn, if_pos (by omega)]
      omega
    · have := hlarge hn
      rw [if_neg (by omega)]
      exact this

theorem readHeader_packet (h : Holds k db bs) (hlt : db.unread.length < 2 ^ 31)
    (hnext : nextPacket k bs = some (a, r)) :
    ∃ db', databufferReadHeader db k = some ((a.length : Int), db') ∧ db'.Sound ∧
      db'.header = a.length ∧ db'.unread = a ++ r ∧ k.size + (a.length + r.length) = bs.length := by
  have hlen' := h.length_le
  rcases readHeader_spec h with ⟨hshort, _⟩ | ⟨plen, db', hlen, rfl, hsound, hvalue, hread⟩
  · rw [nextPacket, if_pos hshort] at hnext
    cases hnext
  · rw [nextPacket_known hlen, Option.ite_none_left_eq_some, not_lt] at hnext
    obtain ⟨hle, hsome⟩ := hnext
    cases hsome
    rw [List.length_append] at hlen'
    have hsize : ((db'.unread.take (ofBe plen)).length : Int) = headerValue k plen := by
      rw [(headerValue_spec hlen).1 (by omega), List.length_take, Nat.min_eq_left hle]
    refine ⟨db', ?_, hsound, by rw [hvalue, hsize], (List.take_append_drop _ _).symm, ?_⟩
    · rw [hread, hsize, if_neg]
      rw [← hsize, List.length_take]
      omega
    · rw [← List.length_append, List.take_append_drop, List.length_append, hlen]

end XsServer.ServiceGate
