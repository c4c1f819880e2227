import XsServer.ServiceGate.Framing

/-! Who gets the packets of a connection, and the runs in which the gate keeps to the frames of the
stream.  It loses them when a packet is complete while nobody listens: the loop forgets the header
and leaves the body, whose bytes are then read as headers. -/

namespace XsServer.ServiceGate

open Lib Lib.Bytes

def recipient (g : Gate) (c : Connection) : Option (List UInt8 → Sent) :=
  if c.id ≤ 0 then none
  else if g.broker ≠ 0 then
    some fun packet => ⟨0, g.broker, g.clientTag ||| PTYPE_TAG_DONTCOPY, c.id, packet⟩
  else if c.agent ≠ 0 then
    some fun packet => ⟨c.client, c.agent, g.clientTag ||| PTYPE_TAG_DONTCOPY, c.id, packet⟩
  else if g.watchdog ≠ 0 then
    some fun packet => ⟨0, g.watchdog, PTYPE_TEXT ||| PTYPE_TAG_DONTCOPY, c.id,
      dataHeader c.id ++ packet⟩
  else none

def deliver (g : Gate) (c : Connection) (ps : List (List UInt8)) : List Sent :=
  (recipient g c).elim [] fun send => ps.map send

theorem deliver_nil (g : Gate) (c : Connection) : deliver g c [] = [] := by
  unfold deliver
  cases recipient g c <;> rfl

theorem deliver_cons {g : Gate} {c : Connection} {send : List UInt8 → Sent}
    (h : recipient g c = some send) (p : List UInt8) (ps : List (List UInt8)) :
    deliver g c (p :: ps) = send p :: deliver g c ps := by
  rw [deliver, deliver, h]
  rfl

variable {g : Gate} {c : Connection} {k : HeaderSize} {bs : List UInt8}

theorem forward_spec {send : List UInt8 → Sent} (h : recipient g c = some send)
    (hsound : c.buffer.Sound) {size : Nat} (hpos : 0 < size) (hle : size ≤ c.buffer.unread.length) :
    ∃ db, forward g c size = some ([send (c.buffer.unread.take size)], { c with buffer := db }) ∧
      db.Sound ∧ db.unread = c.buffer.unread.drop size := by
  obtain ⟨db, hread, hsound', hunread, _⟩ := databufferRead_spec hsound hpos hle
  refine ⟨db, ?_, hsound', hunread⟩
  unfold recipient at h
  unfold forward
  rw [hread]
  split at h
  · cases h
  · rename_i hid
    rw [if_neg hid]
    split at h
    · rename_i hbroker
      rw [if_pos hbroker]
      cases h
      rfl
    · rename_i hbroker
      rw [if_neg hbroker]
      split at h
      · rename_i hagent
        rw [if_pos hagent]
        cases h
        rfl
      · rename_i hagent
        rw [if_neg hagent]
        split at h
        · rename_i hwatchdog
          rw [if_pos hwatchdog]
          cases h
          rfl
        · cases h

/-- The loop delivers the packets of what the buffer holds.  Every turn takes a header and the
body after it, by induction on the fuel. -/
theorem dispatchLoop_spec {fuel : Nat} (h : Holds g.headerSize c.buffer bs)
    (hlt : c.buffer.unread.length < 2 ^ 31) (hfuel : bs.length < fuel * g.headerSize.size)
    (hheard : recipient g c = none → packets g.headerSize bs = []) :
    ∃ db, dispatchLoop g fuel c = some (⟨deliver g c (packets g.headerSize bs),
        oversized g.headerSize bs⟩, { c with buffer := db }) ∧
      (oversized g.headerSize bs = false → Holds g.headerSize db (rest g.headerSize bs)) := by
  induction fuel generalizing c bs with
  | zero => omega
  | succ fuel ih =>
    rw [Nat.succ_mul] at hfuel
    rw [dispatchLoop]
    have hpos := g.headerSize.pos
    cases hnext : nextPacket g.headerSize bs with
    | none =>
      obtain ⟨hp, ho, hr⟩ := packets_none hnext
      obtain ⟨size, db, hread, hneg, hholds⟩ := readHeader_waits h hlt hnext
      refine ⟨db, ?_, fun _ => by rw [hr]; exact hholds⟩
      rw [hread, hp, ho, deliver_nil]
      exact if_pos hneg
    | some p =>
      obtain ⟨a, r⟩ := p
      obtain ⟨db, hread, hsound, hheader, hunread, hlength⟩ := readHeader_packet h hlt hnext
      have hcount : db.unread.length = a.length + r.length := by
        rw [hunread, List.length_append]
      have hlen : db.unread.length < 2 ^ 31 := by
        have := h.length_le
        omega
      rw [hread]
      simp only [Option.bind_eq_bind, Option.bind_some]
      cases a with
      | nil =>
        -- an empty packet: the header stays 0, and the next one is read
        obtain ⟨hp, ho, hr⟩ := packets_empty hnext
        rw [hp] at hheard ⊢
        rw [ho, hr]
        have hholds : Holds g.headerSize db r := ⟨hsound, .inl ⟨hheader, hunread.symm⟩⟩
        exact ih (c := { c with buffer := db }) hholds hlen (by omega) hheard
      | cons b a =>
        have hnonempty : b :: a ≠ [] := List.cons_ne_nil b a
        have hsize : ¬ ((b :: a).length : Int) < 0 := by omega
        have hgt : ((b :: a).length : Int) > 0 := by rw [List.length_cons]; omega
        rcases lt_or_ge (b :: a).length limit with hsmall | hlarge
        · obtain ⟨hp, ho, hr⟩ := packets_some hnext hnonempty hsmall
          rw [hp] at hheard ⊢
          rw [ho, hr]
          obtain ⟨send, hsend⟩ : ∃ send, recipient g c = some send := by
            cases hrecipient : recipient g c with
            | none => cases hheard hrecipient
            | some send => exact ⟨send, rfl⟩
          have hle : (b :: a).length ≤ db.unread.length := by omega
          obtain ⟨db', hforward, hsound', hunread'⟩ := forward_spec (c := { c with buffer := db })
            (g := g) hsend hsound (List.length_pos_of_ne_nil hnonempty) hle
          dsimp only at hforward hunread'
          rw [hunread, List.take_left] at hforward
          rw [hunread, List.drop_left] at hunread'
          have hholds : Holds g.headerSize (databufferReset db') r :=
            ⟨⟨hsound'.offset_le, hsound'.offset_nil, hsound'.size_eq⟩, .inl ⟨rfl, hunread'.symm⟩⟩
          obtain ⟨db'', hloop, hrest⟩ := ih (c := { c with buffer := databufferReset db' }) hholds
            (by change db'.unread.length < _; rw [hunread']; omega) (by omega)
            fun hnone => by
              change recipient g c = none at hnone
              rw [hsend] at hnone
              cases hnone
          refine ⟨db'', ?_, hrest⟩
          unfold limit at hsmall
          rw [if_neg hsize, if_pos hgt, if_neg (by omega), Int.toNat_natCast, hforward]
          simp only [Option.bind_some]
          rw [hloop, deliver_cons hsend]
          rfl
        · obtain ⟨hp, ho⟩ := packets_large hnext hlarge
          refine ⟨.empty, ?_, fun hfalse => by rw [ho] at hfalse; cases hfalse⟩
          rw [hp, ho, deliver_nil]
          unfold limit at hlarge
          rw [if_neg hsize, if_pos hgt, if_pos (by omega)]

/-! ### Runs -/

def State.Heard (s : State) : Prop :=
  0 < s.connection.id ∧ (s.gate.broker ≠ 0 ∨ s.connection.agent ≠ 0 ∨ s.gate.watchdog ≠ 0)

/-- What the gate should do when `stream` has come before. -/
def expected (s : State) (stream : List UInt8) : Event → Outcome
  | .data bytes =>
    ⟨deliver s.gate s.connection ((packets s.gate.headerSize (stream ++ bytes)).drop
      (packets s.gate.headerSize stream).length), oversized s.gate.headerSize (stream ++ bytes)⟩
  | _ => .quiet

/-- Bytes come before the gate has closed the socket, fewer than `2 ^ 31` wait, and they complete a
packet only while somebody gets it. -/
def Fits (s : State) : Event → Prop
  | .data bytes => s.closed = false ∧
      s.connection.buffer.unread.length + bytes.length < 2 ^ 31 ∧
      (¬ s.Heard → packets s.gate.headerSize
        (s.connection.buffer.pending s.gate.headerSize ++ bytes) = [])
  | _ => True

/-- What is known of a connection after `stream`. -/
structure Follows (k : HeaderSize) (stream : List UInt8) (s : State) : Prop where
  headerSize : s.gate.headerSize = k
  closed : s.closed = oversized k stream
  holds : s.closed = false → Holds k s.connection.buffer (rest k stream)

theorem not_heard {s : State} (h : recipient s.gate s.connection = none) : ¬ s.Heard := by
  rintro ⟨hid, hany⟩
  unfold recipient at h
  rw [if_neg (Int32.not_le.mpr hid)] at h
  split at h
  · cases h
  · rename_i hbroker
    split at h
    · cases h
    · rename_i hagent
      rw [if_pos (hany.resolve_left hbroker |>.resolve_left hagent)] at h
      cases h

theorem follows_accepted (g : Gate) (id : Int32) :
    Follows g.headerSize [] (.accepted g id) where
  headerSize := rfl
  closed := by
    have hnone : nextPacket g.headerSize [] = none := if_pos g.headerSize.pos
    rw [(packets_none hnone).2.1]
    rfl
  holds := by
    intro _
    have hnone : nextPacket g.headerSize [] = none := if_pos g.headerSize.pos
    rw [(packets_none hnone).2.2]
    exact holds_empty

theorem Follows.handle {s : State} {stream : List UInt8} (h : Follows k stream s) {e : Event}
    (hfits : Fits s e) :
    ∃ t, s.handle e = some (expected s stream e, t) ∧ Follows k (stream ++ e.bytes) t := by
  cases e with
  | broker handle | forward agentaddr clientaddr =>
    refine ⟨_, rfl, ?_⟩
    change Follows k (stream ++ []) _
    rw [List.append_nil]
    exact ⟨h.headerSize, h.closed, h.holds⟩
  | data bytes =>
    obtain ⟨hopen, hlt, hheard⟩ := hfits
    obtain rfl := h.headerSize
    have hholds := h.holds hopen
    have hno : oversized s.gate.headerSize stream = false := by rw [← h.closed, hopen]
    obtain ⟨hp, ho, hr⟩ := packets_append stream bytes hno
    rw [hholds.pending_eq] at hheard
    have hpush := hholds.push hlt
    obtain ⟨_, hunread, _⟩ := databufferPush_spec hholds.sound hlt
    have hlength := hpush.length_le
    have hpos := s.gate.headerSize.pos
    have hmul :=
      Nat.le_mul_of_pos_right (databufferPush s.connection.buffer bytes).unread.length hpos
    have hfuel : (rest s.gate.headerSize stream ++ bytes).length <
        ((databufferPush s.connection.buffer bytes).unread.length + 2) *
          s.gate.headerSize.size := by
      rw [Nat.add_mul]
      omega
    have hbound : (databufferPush s.connection.buffer bytes).unread.length < 2 ^ 31 := by
      rw [hunread, List.length_append]
      exact hlt
    obtain ⟨db, hloop, hrest⟩ := dispatchLoop_spec
      (c := { s.connection with buffer := databufferPush s.connection.buffer bytes }) hpush hbound
      hfuel fun hnone => hheard (not_heard hnone)
    refine ⟨⟨s.gate, { s.connection with buffer := db },
      s.closed || oversized s.gate.headerSize (rest s.gate.headerSize stream ++ bytes)⟩,
      ?_, rfl, ?_, ?_⟩
    · rw [State.handle, dispatchMessage, hloop, expected, hp, ho, List.drop_left]
      rfl
    · change (s.closed || _) = oversized _ (stream ++ bytes)
      rw [hopen, ho, Bool.false_or]
    · intro hclosed
      change (s.closed || _) = false at hclosed
      rw [hopen, Bool.false_or] at hclosed
      change Holds _ db (rest _ (stream ++ bytes))
      rw [hr]
      exact hrest hclosed

theorem run_follows {g : Gate} {id : Int32} {ls : List (Event × Outcome)} {s : State}
    (h : Run (Guarded (fun s l => Fits s l.1) Step) (.accepted g id) ls s) :
    Follows g.headerSize (received ls) s := by
  induction h with
  | nil => exact follows_accepted g id
  | @snoc t u ls l _ hstep ih =>
    obtain ⟨hfits, hstep⟩ := hstep
    obtain ⟨u', hhandle, hfollows⟩ := ih.handle hfits
    obtain ⟨_, rfl⟩ := Prod.mk.inj (Option.some.inj (hstep.symm.trans hhandle))
    rw [received_snoc]
    exact hfollows

/-- While every step fits, each socket message makes the gate send the packets that it completes,
and close the socket when one of them is too large. -/
theorem gate_frames (g : Gate) (id : Int32) {ls : List (Event × Outcome)} {s : State}
    (h : Run (Guarded (fun s l => Fits s l.1) Step) (.accepted g id) ls s) :
    s.closed = oversized g.headerSize (received ls) ∧
      ∀ e, Fits s e → ∃ t, s.handle e = some (expected s (received ls) e, t) := by
  have hfollows := run_follows h
  refine ⟨hfollows.closed, fun e hfits => ?_⟩
  obtain ⟨t, ht, _⟩ := hfollows.handle hfits
  exact ⟨t, ht⟩

def shortHeader : HeaderSize := ⟨2, .inl rfl⟩

def lonely : Gate := ⟨0, 0, 3, shortHeader⟩

/-- The packet `0 5` comes before the connection has an agent. -/
def unheard : List (Event × Outcome) := [(.data [0, 2, 0, 5], .quiet), (.forward 9 9, .quiet)]

/-- The header that the gate takes from the body of the packet. -/
def misread : State :=
  ⟨lonely, ⟨7, 9, 9, ⟨5, 0, 0, []⟩⟩, false⟩

/-- The same connection after a packet that its agent has got and the first byte of the next. -/
def heard : State := ⟨lonely, ⟨7, 9, 9, ⟨0, 3, 1, [[0, 1, 7, 0]]⟩⟩, false⟩

theorem gate_frames_heard :
    heard.closed = oversized shortHeader [0, 1, 7, 0] ∧
      ∀ e, Fits heard e → ∃ t, heard.handle e = some (expected heard [0, 1, 7, 0] e, t) := by
  have hrun : Run (Guarded (fun s l => Fits s l.1) Step) (.accepted lonely 7)
      [(.forward 9 9, .quiet), (.data [0, 1, 7, 0], ⟨[⟨9, 9, 0x10003, 7, [7]⟩], false⟩)] heard :=
    .cons (t := ⟨lonely, ⟨7, 9, 9, .empty⟩, false⟩) (.of_step (by rfl) trivial)
      (.single (.of_step (by rfl) ⟨rfl, by decide, fun h =>
        absurd ⟨by decide, .inr (.inl (by decide))⟩ h⟩))
  exact gate_frames lonely 7 hrun

theorem gate_loses_frames :
    ¬ ∀ (g : Gate) (id : Int32) (ls : List (Event × Outcome)) (s : State),
      Run Step (.accepted g id) ls s →
        ∀ e, ∃ t, s.handle e = some (expected s (received ls) e, t) := by
  intro hall
  have hrun : Run Step (.accepted lonely 7) unheard misread :=
    .cons (t := ⟨lonely, ⟨7, 0, 0, ⟨5, 0, 0, []⟩⟩, false⟩) (by rfl) (.single (by rfl))
  obtain ⟨t, ht⟩ := hall lonely 7 unheard misread hrun (.data [0, 1, 7])
  have hsent : (misread.handle (.data [0, 1, 7])).map (·.1.sent) = some [] := by rfl
  have hpacket : nextPacket shortHeader [0, 2, 0, 5] = some ([0, 5], []) := rfl
  have hboth : nextPacket shortHeader [0, 2, 0, 5, 0, 1, 7] = some ([0, 5], [0, 1, 7]) := rfl
  have hlast : nextPacket shortHeader [0, 1, 7] = some ([7], []) := rfl
  have hend : nextPacket shortHeader [] = none := rfl
  have hfirst := (packets_some hpacket (by decide) (by decide)).1
  have hsecond := (packets_some hboth (by decide) (by decide)).1
  have hthird := (packets_some hlast (by decide) (by decide)).1
  have hnone := (packets_none hend).1
  have hstream : received unheard = [0, 2, 0, 5] := rfl
  rw [ht] at hsent
  have hnil : deliver lonely misread.connection [[7]] = [] := by
    have := Option.some.inj hsent
    rw [expected, hstream] at this
    change deliver lonely misread.connection ((packets shortHeader [0, 2, 0, 5, 0, 1, 7]).drop
      (packets shortHeader [0, 2, 0, 5]).length) = [] at this
    rwa [hsecond, hfirst, hthird, hnone] at this
  cases hnil

end XsServer.ServiceGate
