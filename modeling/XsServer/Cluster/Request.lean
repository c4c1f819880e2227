import XsServer.Lib.Bytes

/-! The packets of `lua-cluster.c`: requests to a remote service, and the tables in which the parts
of a large message are collected; what `unpackrequest` makes of the packets of a request, and
`unpackresponse` of those of a response. -/

namespace XsServer.Cluster

open Lib

def TEMP_LENGTH : Nat := 0x8200

def MULTI_PART : Nat := 0x8000

def fillUint32 (n : UInt32) : List UInt8 := Bytes.le 4 n.toNat

def unpackUint32 (buf : List UInt8) : UInt32 := UInt32.ofNat (Bytes.ofLe (buf.take 4))

def fillHeader (sz : Nat) : Option (List UInt8) :=
  if sz < 0x10000 then some (Bytes.be 2 sz) else none

/-- A packet with its header, written to a buffer of `TEMP_LENGTH` bytes. -/
def pushPacket (sz : Nat) (body : List UInt8) : Option (List UInt8) := do
  let header ← fillHeader sz
  if (header ++ body).length ≤ TEMP_LENGTH then some (header ++ body) else none

/-! ### Requests -/

inductive Address
  | number (addr : UInt32)
  | name (name : List UInt8)
  deriving DecidableEq

/-- The number of the parts of a message of that size. -/
def parts (sz : Nat) : Nat := (sz - 1) / MULTI_PART + 1

/-- The packet, and the number of the parts that follow it. -/
def packreqNumber (addr : UInt32) (session : UInt32) (msg : List UInt8) (isPush : Bool) :
    Option (List UInt8 × Nat) :=
  let sz := msg.length
  if sz < MULTI_PART then do
    let packet ← pushPacket (sz + 9)
      ([0] ++ fillUint32 addr ++ fillUint32 (if isPush then 0 else session) ++ msg)
    some (packet, 0)
  else do
    let packet ← pushPacket 13
      ([if isPush then 0x41 else 1] ++ fillUint32 addr ++ fillUint32 session ++
        fillUint32 (UInt32.ofNat sz))
    some (packet, parts sz)

def packreqString (name : List UInt8) (session : UInt32) (msg : List UInt8) (isPush : Bool) :
    Option (List UInt8 × Nat) :=
  let sz := msg.length
  let namelen := name.length
  if namelen < 1 ∨ namelen > 255 then none
  else if sz < MULTI_PART then do
    let packet ← pushPacket (sz + 6 + namelen)
      ([0x80, UInt8.ofNat namelen] ++ name ++ fillUint32 (if isPush then 0 else session) ++ msg)
    some (packet, 0)
  else do
    let packet ← pushPacket (10 + namelen)
      ([if isPush then 0xc1 else 0x81, UInt8.ofNat namelen] ++ name ++ fillUint32 session ++
        fillUint32 (UInt32.ofNat sz))
    some (packet, parts sz)

/-- The loop that cuts a message, with the number of parts that are left.  `packet` makes the
packet of a part, after which others follow or not. -/
def packParts (packet : Bool → List UInt8 → Option (List UInt8)) :
    Nat → List UInt8 → Option (List (List UInt8))
  | 0, _ => some []
  | part + 1, msg => do
    let s := if msg.length > MULTI_PART then MULTI_PART else msg.length
    let p ← packet (msg.length > MULTI_PART) (msg.take s)
    let rest ← packParts packet part (msg.drop s)
    some (p :: rest)

def packreqMulti (session : UInt32) : Nat → List UInt8 → Option (List (List UInt8)) :=
  packParts fun more part =>
    pushPacket (part.length + 5) ([if more then 2 else 3] ++ fillUint32 session ++ part)

/-- The packet, the next session, and the parts that follow the packet of a large message. -/
def packrequest (addr : Address) (session : Int32) (msg : List UInt8) (isPush : Bool) :
    Option (List UInt8 × UInt32 × Option (List (List UInt8))) :=
  if session ≤ 0 then none
  else do
    let (request, multipak) ← match addr with
      | .number addr => packreqNumber addr session.toUInt32 msg isPush
      | .name name => packreqString name session.toUInt32 msg isPush
    let newSession := session.toUInt32 + 1
    let newSession := if newSession > 0x7fffffff then 1 else newSession
    if multipak = 0 then some (request, newSession, none)
    else do
      let padding ← packreqMulti session.toUInt32 multipak msg
      some (request, newSession, some padding)

/-- What `unpackrequest` returns; no address is the `false` of a part, no session the trace. -/
structure Unpacked where
  addr : Option Address
  session : Option UInt32
  msg : Option (List UInt8)
  sz : UInt32
  padding : Bool
  isPush : Bool

def unpackreqNumber (buf : List UInt8) : Option Unpacked :=
  if buf.length < 9 then none
  else
    let session := unpackUint32 (buf.drop 5)
    some {
      addr := some (.number (unpackUint32 (buf.drop 1)))
      session := some session
      msg := some (buf.drop 9)
      sz := UInt32.ofNat (buf.length - 9)
      padding := false
      isPush := session = 0 }

def unpackmreqNumber (buf : List UInt8) (isPush : Bool) : Option Unpacked :=
  if buf.length ≠ 13 then none
  else some {
    addr := some (.number (unpackUint32 (buf.drop 1)))
    session := some (unpackUint32 (buf.drop 5))
    msg := none
    sz := unpackUint32 (buf.drop 9)
    padding := true
    isPush := isPush }

def unpackmreqPart (buf : List UInt8) : Option Unpacked :=
  if buf.length < 5 then none
  else some {
    addr := none
    session := some (unpackUint32 (buf.drop 1))
    msg := some (buf.drop 5)
    sz := UInt32.ofNat (buf.length - 5)
    padding := buf.head? = some 2
    isPush := false }

def unpacktrace (buf : List UInt8) : Option Unpacked :=
  some {
    addr := some (.name (buf.drop 1))
    session := none
    msg := none
    sz := 0
    padding := false
    isPush := false }

def unpackreqString (buf : List UInt8) : Option Unpacked :=
  if buf.length < 2 then none
  else
    let namesz := (buf.getD 1 0).toNat
    if buf.length < namesz + 6 then none
    else
      let session := unpackUint32 (buf.drop (namesz + 2))
      some {
        addr := some (.name ((buf.drop 2).take namesz))
        session := some session
        msg := some (buf.drop (2 + namesz + 4))
        sz := UInt32.ofNat (buf.length - namesz - 6)
        padding := false
        isPush := session = 0 }

def unpackmreqString (buf : List UInt8) (isPush : Bool) : Option Unpacked :=
  if buf.length < 2 then none
  else
    let namesz := (buf.getD 1 0).toNat
    if buf.length < namesz + 10 then none
    else some {
      addr := some (.name ((buf.drop 2).take namesz))
      session := some (unpackUint32 (buf.drop (namesz + 2)))
      msg := none
      sz := unpackUint32 (buf.drop (namesz + 6))
      padding := true
      isPush := isPush }

def unpackrequest (msg : List UInt8) : Option Unpacked :=
  match msg.head? with
  | some 0 => unpackreqNumber msg
  | some 1 => unpackmreqNumber msg false
  | some 0x41 => unpackmreqNumber msg true
  | some 2 | some 3 => unpackmreqPart msg
  | some 4 => unpacktrace msg
  | some 0x80 => unpackreqString msg
  | some 0x81 => unpackmreqString msg false
  | some 0xc1 => unpackmreqString msg true
  | _ => none

/-! ### Tables of parts -/

/-- An element of a table that `append` fills. -/
inductive Item
  | number (sz : UInt32)
  | string (str : List UInt8)

/-- The item that `append` adds. -/
def item (msg : Option (List UInt8)) (sz : UInt32) : Item :=
  match msg with
  | none => .number sz
  | some buffer => .string buffer

/-- The loop of `concat`, over the strings of the table. -/
def concatLoop (sz : Nat) : List UInt8 → List Item → Option (List UInt8)
  | buff, .string str :: rest =>
    if str.length + buff.length > sz then none else concatLoop sz (buff ++ str) rest
  | buff, _ => if buff.length ≠ sz then none else some buff

/-- The whole message, for a size that is an `int`. -/
def concat : List Item → Option (List UInt8)
  | .number sz :: rest => if sz < 0x80000000 then concatLoop sz.toNat [] rest else none
  | _ => none

structure Request where
  addr : Address
  session : Int32
  msg : List UInt8
  isPush : Bool

/-- A number, or a name of 1 to 255 bytes; a session; a size that is an `int`. -/
structure Request.Valid (r : Request) : Prop where
  addr : ∀ name, r.addr = .name name → 1 ≤ name.length ∧ name.length ≤ 255
  session : 0 < r.session
  size : r.msg.length < 2 ^ 31

def Request.packets (r : Request) : Option (List (List UInt8)) :=
  (packrequest r.addr r.session r.msg r.isPush).map fun (request, _, padding) =>
    request :: padding.getD []

def Request.wireSession (r : Request) : UInt32 :=
  if r.isPush ∧ r.msg.length < MULTI_PART then 0 else r.session.toUInt32

structure Framed (packet : List UInt8) : Prop where
  header : Bytes.ofBe (packet.take 2) = (packet.drop 2).length
  short : (packet.drop 2).length < 2 ^ 16

/-- The packets of a message that was cut; `Part more part p` says what the packet of a part is. -/
inductive Cut (Part : Bool → List UInt8 → List UInt8 → Prop) :
    List UInt8 → List (List UInt8) → Prop
  | last {p msg : List UInt8} : Part false msg p → Cut Part msg [p]
  | more {p front msg : List UInt8} {ps : List (List UInt8)} :
      Part true front p → Cut Part msg ps → Cut Part (front ++ msg) (p :: ps)

structure ReqPart (session : UInt32) (more : Bool) (part packet : List UInt8) : Prop where
  framed : Framed packet
  unpack : unpackrequest (packet.drop 2) =
    some ⟨none, some session, some part, UInt32.ofNat part.length, more, false⟩

variable {sz : Nat} {body msg name rest : List UInt8} {session : UInt32}

@[simp] theorem fillUint32_length (n : UInt32) : (fillUint32 n).length = 4 := Bytes.le_length 4 _

@[simp] theorem unpackUint32_fill (n : UInt32) (rest : List UInt8) :
    unpackUint32 (fillUint32 n ++ rest) = n := by
  have htake : (fillUint32 n ++ rest).take 4 = fillUint32 n :=
    List.take_left' (fillUint32_length n)
  rw [unpackUint32, htake, fillUint32, Bytes.ofLe_le_of_lt (by simpa using n.toNat_lt)]
  exact UInt32.ofNat_toNat

@[simp] theorem unpackUint32_fill_nil (n : UInt32) : unpackUint32 (fillUint32 n) = n := by
  rw [← List.append_nil (fillUint32 n), unpackUint32_fill]

theorem pushPacket_some (hlen : body.length = sz) (hsz : sz + 2 ≤ TEMP_LENGTH) :
    ∃ p, pushPacket sz body = some p ∧ p.drop 2 = body ∧ Framed p := by
  have hlt : sz < 0x10000 := by
    unfold TEMP_LENGTH at hsz
    omega
  have hbe : (Bytes.be 2 sz).length = 2 := Bytes.be_length 2 sz
  have hdrop : (Bytes.be 2 sz ++ body).drop 2 = body := List.drop_left' hbe
  have htake : (Bytes.be 2 sz ++ body).take 2 = Bytes.be 2 sz := List.take_left' hbe
  refine ⟨Bytes.be 2 sz ++ body, ?_, hdrop, ?_, ?_⟩
  · have hlength : (Bytes.be 2 sz ++ body).length ≤ TEMP_LENGTH := by
      rw [List.length_append, hbe, hlen]
      omega
    simp only [pushPacket, fillHeader, if_pos hlt, Option.bind_eq_bind, Option.bind_some,
      if_pos hlength]
  · rw [htake, hdrop, Bytes.ofBe_be, hlen]
    exact Nat.mod_eq_of_lt hlt
  · rw [hdrop, hlen]
    exact hlt

theorem parts_more (h : MULTI_PART < sz) : parts sz = parts (sz - MULTI_PART) + 1 := by
  unfold parts MULTI_PART at *
  omega

theorem parts_one (h : 0 < sz) (h' : sz ≤ MULTI_PART) : parts sz = 1 := by
  unfold parts MULTI_PART at *
  omega

theorem packParts_cut {packet : Bool → List UInt8 → Option (List UInt8)}
    {Part : Bool → List UInt8 → List UInt8 → Prop} {part : Nat}
    (hpacket : ∀ more part, part.length ≤ MULTI_PART →
      ∃ p, packet more part = some p ∧ Part more part p)
    (hpos : 0 < msg.length) (hpart : part = parts msg.length) :
    ∃ ps, packParts packet part msg = some ps ∧ Cut Part msg ps := by
  induction part generalizing msg with
  | zero => exact absurd hpart.symm (Nat.succ_ne_zero _)
  | succ part ih =>
    by_cases hlong : MULTI_PART < msg.length
    · rw [parts_more hlong] at hpart
      obtain ⟨ps, hps, hcut⟩ := @ih (msg.drop MULTI_PART)
        (by rw [List.length_drop]; omega) (by rw [List.length_drop]; omega)
      obtain ⟨p, hp, hpartOf⟩ := hpacket true (msg.take MULTI_PART)
        (by rw [List.length_take]; omega)
      refine ⟨p :: ps, ?_, ?_⟩
      · simp only [packParts, gt_iff_lt, if_pos hlong, decide_eq_true hlong, hp, hps,
          Option.bind_eq_bind, Option.bind_some]
      · rw [← List.take_append_drop MULTI_PART msg]
        exact .more hpartOf hcut
    · have hshort : msg.length ≤ MULTI_PART := Nat.le_of_not_lt hlong
      rw [parts_one hpos hshort] at hpart
      obtain rfl : part = 0 := by omega
      obtain ⟨p, hp, hpartOf⟩ := hpacket false msg hshort
      refine ⟨[p], ?_, .last hpartOf⟩
      simp only [packParts, gt_iff_lt, if_neg hlong, decide_eq_false hlong, List.take_length, hp,
        Option.bind_eq_bind, Option.bind_some]

theorem Cut.forall_framed {Part : Bool → List UInt8 → List UInt8 → Prop} {ps : List (List UInt8)}
    (hpart : ∀ more part p, Part more part p → Framed p) (h : Cut Part msg ps) :
    ∀ p ∈ ps, Framed p := by
  induction h with
  | last hlast => exact List.forall_mem_singleton.mpr (hpart _ _ _ hlast)
  | more hmore _ ih => exact List.forall_mem_cons.mpr ⟨hpart _ _ _ hmore, ih⟩

theorem unpackrequest_part (more : Bool) (session : UInt32) (part : List UInt8) :
    unpackrequest ([if more then 2 else 3] ++ fillUint32 session ++ part) =
      some ⟨none, some session, some part, UInt32.ofNat part.length, more, false⟩ := by
  generalize hbuf : [if more then 2 else 3] ++ fillUint32 session ++ part = buf
  have hlen : buf.length = 5 + part.length := by
    subst hbuf
    simp only [List.length_append, List.length_singleton, fillUint32_length]
  have hsession : unpackUint32 (buf.drop 1) = session := by
    subst hbuf
    simp
  have hpart : buf.drop 5 = part := by
    subst hbuf
    exact List.drop_left' (by simp)
  have hpadding : decide (buf.head? = some 2) = more := by
    subst hbuf
    cases more <;> rfl
  have hkind : unpackrequest buf = unpackmreqPart buf := by
    subst hbuf
    cases more <;> rfl
  rw [hkind, unpackmreqPart, if_neg (by omega)]
  simp only [hsession, hpart, hpadding, hlen, Nat.add_sub_cancel_left]

theorem packreqMulti_cut {part : Nat} (hpos : 0 < msg.length) (hpart : part = parts msg.length) :
    ∃ ps, packreqMulti session part msg = some ps ∧ Cut (ReqPart session) msg ps := by
  refine packParts_cut (fun more part hle => ?_) hpos hpart
  obtain ⟨p, hp, hbody, hframed⟩ := @pushPacket_some (part.length + 5)
    ([if more then 2 else 3] ++ fillUint32 session ++ part)
    (by simp only [List.length_append, List.length_singleton, fillUint32_length]; omega)
    (by unfold MULTI_PART at hle; unfold TEMP_LENGTH; omega)
  refine ⟨p, hp, hframed, ?_⟩
  rw [hbody, unpackrequest_part]

theorem toUInt32_toNat_lt {sz : Nat} (h : sz < 2 ^ 31) : (UInt32.ofNat sz).toNat = sz :=
  UInt32.toNat_ofNat_of_lt' (by unfold UInt32.size; omega)

theorem concatLoop_strings {sz : Nat} {buff : List UInt8} {strs : List (List UInt8)}
    (h : buff.length + strs.flatten.length = sz) :
    concatLoop sz buff (strs.map .string) = some (buff ++ strs.flatten) := by
  induction strs generalizing buff with
  | nil =>
    rw [List.flatten_nil, List.length_nil, Nat.add_zero] at h
    rw [List.map_nil, concatLoop, if_neg (not_not.mpr h), List.flatten_nil, List.append_nil]
    exact fun _ _ => nofun
  | cons str strs ih =>
    rw [List.flatten_cons, List.length_append] at h
    rw [List.map_cons, concatLoop, if_neg (by omega),
      ih (by rw [List.length_append]; omega), List.flatten_cons, List.append_assoc]

theorem concat_strings {msg : List UInt8} {strs : List (List UInt8)} (hmsg : strs.flatten = msg)
    (hlt : msg.length < 2 ^ 31) :
    concat (.number (UInt32.ofNat msg.length) :: strs.map .string) = some msg := by
  have hsize := toUInt32_toNat_lt hlt
  have hint : UInt32.ofNat msg.length < 0x80000000 := by
    rw [UInt32.lt_iff_toNat_lt, hsize]
    exact hlt
  rw [concat, if_pos hint, hsize, concatLoop_strings (by rw [hmsg, List.length_nil, Nat.zero_add]),
    List.nil_append, hmsg]

theorem toUInt32_ne_zero {session : Int32} (h : 0 < session) : session.toUInt32 ≠ 0 := by
  intro hzero
  obtain ⟨n⟩ := session
  obtain rfl : n = 0 := hzero
  exact absurd h (by decide)

theorem wireSession_zero_iff {r : Request} (hv : r.Valid) :
    r.wireSession = 0 ↔ r.isPush = true ∧ r.msg.length < MULTI_PART := by
  unfold Request.wireSession
  split
  · simp_all
  · simp_all [toUInt32_ne_zero hv.session]

theorem unpackrequest_number (addr session : UInt32) (msg : List UInt8) :
    unpackrequest ([0] ++ fillUint32 addr ++ fillUint32 session ++ msg) =
      some ⟨some (.number addr), some session, some msg, UInt32.ofNat msg.length, false,
        session = 0⟩ := by
  generalize hbuf : [0] ++ fillUint32 addr ++ fillUint32 session ++ msg = buf
  have hlen : buf.length = 9 + msg.length := by
    subst hbuf
    simp only [List.length_append, List.length_singleton, fillUint32_length]
  have haddr : unpackUint32 (buf.drop 1) = addr := by
    subst hbuf
    simp
  have hsession : unpackUint32 (buf.drop 5) = session := by
    subst hbuf
    rw [List.append_assoc, List.drop_left' (by simp), unpackUint32_fill]
  have hmsg : buf.drop 9 = msg := by
    subst hbuf
    exact List.drop_left' (by simp)
  have hkind : unpackrequest buf = unpackreqNumber buf := by
    subst hbuf
    rfl
  rw [hkind, unpackreqNumber, if_neg (by omega)]
  simp only [haddr, hsession, hmsg, hlen, Nat.add_sub_cancel_left]

theorem unpackrequest_mnumber (addr session sz : UInt32) (isPush : Bool) :
    unpackrequest ([if isPush then 0x41 else 1] ++ fillUint32 addr ++ fillUint32 session ++
      fillUint32 sz) = some ⟨some (.number addr), some session, none, sz, true, isPush⟩ := by
  generalize hbuf : [if isPush then 0x41 else 1] ++ fillUint32 addr ++ fillUint32 session ++
    fillUint32 sz = buf
  have hlen : buf.length = 13 := by
    subst hbuf
    simp only [List.length_append, List.length_singleton, fillUint32_length]
  have haddr : unpackUint32 (buf.drop 1) = addr := by
    subst hbuf
    simp
  have hsession : unpackUint32 (buf.drop 5) = session := by
    subst hbuf
    rw [List.append_assoc, List.drop_left' (by simp), unpackUint32_fill]
  have hsize : unpackUint32 (buf.drop 9) = sz := by
    subst hbuf
    rw [List.drop_left' (by simp), unpackUint32_fill_nil]
  have hkind : unpackrequest buf = unpackmreqNumber buf isPush := by
    subst hbuf
    cases isPush <;> rfl
  rw [hkind, unpackmreqNumber, if_neg (not_not.mpr hlen)]
  simp only [haddr, hsession, hsize]

/-- The name and the session of a packet are read back, with what comes after them. -/
theorem read_named (hname : name.length ≤ 255) {kind : UInt8} {session : UInt32}
    {tail buf : List UInt8}
    (hbuf : buf = [kind, UInt8.ofNat name.length] ++ name ++ fillUint32 session ++ tail) :
    buf.length = name.length + 6 + tail.length ∧ (buf.getD 1 0).toNat = name.length ∧
      (buf.drop 2).take name.length = name ∧
      unpackUint32 (buf.drop (name.length + 2)) = session ∧
      buf.drop (name.length + 6) = tail := by
  subst hbuf
  refine ⟨?_, UInt8.toNat_ofNat_of_lt' (Nat.lt_succ_of_le hname), by simp, ?_, ?_⟩
  · simp only [List.length_append, List.length_cons, List.length_nil, fillUint32_length]
    omega
  · rw [List.append_assoc, List.drop_left' (by simp), unpackUint32_fill]
  · exact List.drop_left' (by simp [Nat.add_comm, Nat.add_left_comm])

theorem unpackrequest_name (hname : name.length ≤ 255) (session : UInt32) (msg : List UInt8) :
    unpackrequest ([0x80, UInt8.ofNat name.length] ++ name ++ fillUint32 session ++ msg) =
      some ⟨some (.name name), some session, some msg, UInt32.ofNat msg.length, false,
        session = 0⟩ := by
  generalize hbuf : [0x80, UInt8.ofNat name.length] ++ name ++ fillUint32 session ++ msg = buf
  obtain ⟨hlen, hnamesz, hnamed, hsession, hmsg⟩ := read_named hname hbuf.symm
  have hkind : unpackrequest buf = unpackreqString buf := by
    subst hbuf
    rfl
  rw [hkind, unpackreqString, if_neg (by omega)]
  simp only [hnamesz]
  rw [if_neg (by omega)]
  have hsize : buf.length - name.length - 6 = msg.length := by omega
  simp only [hnamed, hsession, Nat.add_comm 2, Nat.add_assoc, hmsg, hsize]

theorem unpackrequest_mname (hname : name.length ≤ 255) (session sz : UInt32) (isPush : Bool) :
    unpackrequest ([if isPush then 0xc1 else 0x81, UInt8.ofNat name.length] ++ name ++
      fillUint32 session ++ fillUint32 sz) =
      some ⟨some (.name name), some session, none, sz, true, isPush⟩ := by
  generalize hbuf : [if isPush then 0xc1 else 0x81, UInt8.ofNat name.length] ++ name ++
    fillUint32 session ++ fillUint32 sz = buf
  obtain ⟨hlen, hnamesz, hnamed, hsession, hsz⟩ := read_named hname hbuf.symm
  rw [fillUint32_length] at hlen
  have hkind : unpackrequest buf = unpackmreqString buf isPush := by
    subst hbuf
    cases isPush <;> rfl
  rw [hkind, unpackmreqString, if_neg (by omega)]
  simp only [hnamesz]
  rw [if_neg (by omega)]
  simp only [hnamed, hsession, hsz, unpackUint32_fill_nil]

variable {r : Request}

theorem not_le_zero (hv : r.Valid) : ¬r.session ≤ 0 := Int32.not_le.mpr hv.session

theorem Request.packets_small (hv : r.Valid) (hsmall : r.msg.length < MULTI_PART) :
    ∃ p, r.packets = some [p] ∧ Framed p ∧ unpackrequest (p.drop 2) =
      some ⟨some r.addr, some r.wireSession, some r.msg, UInt32.ofNat r.msg.length, false,
        r.isPush⟩ := by
  have hpush : decide (r.wireSession = 0) = r.isPush := by
    rw [Bool.eq_iff_iff, decide_eq_true_iff]
    exact (wireSession_zero_iff hv).trans (and_iff_left hsmall)
  have hwire : (if r.isPush then 0 else r.session.toUInt32) = r.wireSession := by
    simp only [Request.wireSession, hsmall, and_true]
  have hlt : r.msg.length < 0x8000 := hsmall
  cases haddr : r.addr with
  | number addr =>
    obtain ⟨p, hp, hbody, hframed⟩ := @pushPacket_some (r.msg.length + 9)
      ([0] ++ fillUint32 addr ++ fillUint32 r.wireSession ++ r.msg)
      (by simp only [List.length_append, List.length_singleton, fillUint32_length]; omega)
      (by unfold TEMP_LENGTH; omega)
    refine ⟨p, ?_, hframed, ?_⟩
    · simp only [Request.packets, packrequest, if_neg (not_le_zero hv), haddr, packreqNumber,
        if_pos hsmall, hwire, hp, Option.bind_eq_bind, Option.bind_some]
      rfl
    · rw [hbody, unpackrequest_number, hpush]
  | name name =>
    obtain ⟨hpos, hname⟩ := hv.addr name haddr
    obtain ⟨p, hp, hbody, hframed⟩ := @pushPacket_some (r.msg.length + 6 + name.length)
      ([0x80, UInt8.ofNat name.length] ++ name ++ fillUint32 r.wireSession ++ r.msg)
      (by simp only [List.length_append, List.length_cons, List.length_nil, fillUint32_length]
          omega)
      (by unfold TEMP_LENGTH; omega)
    have hvalid : ¬(name.length < 1 ∨ name.length > 255) := by omega
    refine ⟨p, ?_, hframed, ?_⟩
    · simp only [Request.packets, packrequest, if_neg (not_le_zero hv), haddr, packreqString,
        if_neg hvalid, if_pos hsmall, hwire, hp, Option.bind_eq_bind, Option.bind_some]
      rfl
    · rw [hbody, unpackrequest_name hname, hpush]

theorem Request.packets_large (hv : r.Valid) (hlarge : MULTI_PART ≤ r.msg.length) :
    ∃ p ps, r.packets = some (p :: ps) ∧ (∀ p' ∈ p :: ps, Framed p') ∧
      unpackrequest (p.drop 2) = some ⟨some r.addr, some r.session.toUInt32, none,
        UInt32.ofNat r.msg.length, true, r.isPush⟩ ∧
      Cut (ReqPart r.session.toUInt32) r.msg ps := by
  have hnot : ¬r.msg.length < MULTI_PART := Nat.not_lt.mpr hlarge
  have hle : 0x8000 ≤ r.msg.length := hlarge
  obtain ⟨ps, hps, hcut⟩ := @packreqMulti_cut r.msg r.session.toUInt32 _ (by omega) rfl
  have hall := hcut.forall_framed fun _ _ _ h => h.framed
  have hne : parts r.msg.length ≠ 0 := Nat.succ_ne_zero _
  cases haddr : r.addr with
  | number addr =>
    obtain ⟨p, hp, hbody, hframed⟩ := @pushPacket_some 13
      ([if r.isPush then 0x41 else 1] ++ fillUint32 addr ++ fillUint32 r.session.toUInt32 ++
        fillUint32 (UInt32.ofNat r.msg.length))
      (by simp only [List.length_append, List.length_singleton, fillUint32_length]) (by decide)
    refine ⟨p, ps, ?_, List.forall_mem_cons.mpr ⟨hframed, hall⟩, ?_, hcut⟩
    · simp only [Request.packets, packrequest, if_neg (not_le_zero hv), haddr, packreqNumber,
        if_neg hnot, hp, hps, if_neg hne, Option.bind_eq_bind, Option.bind_some]
      rfl
    · rw [hbody, unpackrequest_mnumber]
  | name name =>
    obtain ⟨hpos, hname⟩ := hv.addr name haddr
    obtain ⟨p, hp, hbody, hframed⟩ := @pushPacket_some (10 + name.length)
      ([if r.isPush then 0xc1 else 0x81, UInt8.ofNat name.length] ++ name ++
        fillUint32 r.session.toUInt32 ++ fillUint32 (UInt32.ofNat r.msg.length))
      (by simp only [List.length_append, List.length_cons, List.length_nil, fillUint32_length]
          omega)
      (by unfold TEMP_LENGTH; omega)
    have hvalid : ¬(name.length < 1 ∨ name.length > 255) := by omega
    refine ⟨p, ps, ?_, List.forall_mem_cons.mpr ⟨hframed, hall⟩, ?_, hcut⟩
    · simp only [Request.packets, packrequest, if_neg (not_le_zero hv), haddr, packreqString,
        if_neg hvalid, if_neg hnot, hp, hps, if_neg hne, Option.bind_eq_bind, Option.bind_some]
      rfl
    · rw [hbody, unpackrequest_mname hname]

def packresponseMulti (session : UInt32) : Nat → List UInt8 → Option (List (List UInt8)) :=
  packParts fun more part =>
    pushPacket (part.length + 5) (fillUint32 session ++ [if more then 3 else 4] ++ part)

/-- One packet, or the table of packets of a large message. -/
def packresponse (session : UInt32) (ok : Bool) (msg : List UInt8) : Option (List (List UInt8)) :=
  if ok ∧ msg.length > MULTI_PART then do
    let first ← pushPacket 9 (fillUint32 session ++ [2] ++ fillUint32 (UInt32.ofNat msg.length))
    let rest ← packresponseMulti session (parts msg.length) msg
    some (first :: rest)
  else do
    let sz := if msg.length > MULTI_PART then MULTI_PART else msg.length
    let packet ← pushPacket (sz + 5) (fillUint32 session ++ [if ok then 1 else 0] ++ msg.take sz)
    some [packet]

structure Response where
  session : UInt32
  ok : Bool
  data : Item
  padding : Bool

def unpackresponse (buf : List UInt8) : Option Response :=
  if buf.length < 5 then none
  else
    let session := unpackUint32 buf
    match buf.getD 4 0 with
    | 0 => some ⟨session, false, .string (buf.drop 5), false⟩
    | 1 | 4 => some ⟨session, true, .string (buf.drop 5), false⟩
    | 2 =>
      if buf.length ≠ 9 then none
      else some ⟨session, true, .number (unpackUint32 (buf.drop 5)), true⟩
    | 3 => some ⟨session, true, .string (buf.drop 5), true⟩
    | _ => none

structure RespPart (session : UInt32) (more : Bool) (part packet : List UInt8) : Prop where
  framed : Framed packet
  unpack : unpackresponse (packet.drop 2) = some ⟨session, true, .string part, more⟩

theorem unpackresponse_eq (session : UInt32) (kind : UInt8) (rest : List UInt8) :
    unpackresponse (fillUint32 session ++ [kind] ++ rest) =
      match kind with
      | 0 => some ⟨session, false, .string rest, false⟩
      | 1 | 4 => some ⟨session, true, .string rest, false⟩
      | 2 =>
        if rest.length ≠ 4 then none else some ⟨session, true, .number (unpackUint32 rest), true⟩
      | 3 => some ⟨session, true, .string rest, true⟩
      | _ => none := by
  generalize hbuf : fillUint32 session ++ [kind] ++ rest = buf
  have hlen : buf.length = 5 + rest.length := by
    subst hbuf
    simp only [List.length_append, List.length_singleton, fillUint32_length]
  have hsession : unpackUint32 buf = session := by
    subst hbuf
    rw [List.append_assoc, unpackUint32_fill]
  have hkind : buf.getD 4 0 = kind := by
    subst hbuf
    simp
  have hrest : buf.drop 5 = rest := by
    subst hbuf
    exact List.drop_left' (by simp)
  have hsize : (buf.length ≠ 9) = (rest.length ≠ 4) := by
    rw [hlen, eq_iff_iff]
    omega
  rw [unpackresponse, if_neg (by omega)]
  simp only [hsession, hkind, hrest, hsize]

theorem packresponseMulti_cut {part : Nat} (hpos : 0 < msg.length)
    (hpart : part = parts msg.length) :
    ∃ ps, packresponseMulti session part msg = some ps ∧ Cut (RespPart session) msg ps := by
  refine packParts_cut (fun more part hle => ?_) hpos hpart
  obtain ⟨p, hp, hbody, hframed⟩ := @pushPacket_some (part.length + 5)
    (fillUint32 session ++ [if more then 3 else 4] ++ part)
    (by simp only [List.length_append, List.length_singleton, fillUint32_length]; omega)
    (by unfold MULTI_PART at hle; unfold TEMP_LENGTH; omega)
  refine ⟨p, hp, hframed, ?_⟩
  rw [hbody, unpackresponse_eq]
  cases more <;> rfl

theorem packresponse_one {ok : Bool} (h : ok = true → msg.length ≤ MULTI_PART) :
    ∃ p, packresponse session ok msg = some [p] ∧ Framed p ∧
      unpackresponse (p.drop 2) =
        some ⟨session, ok, .string (msg.take MULTI_PART), false⟩ := by
  have hcond : ¬(ok = true ∧ msg.length > MULTI_PART) := fun hc => Nat.not_lt.mpr (h hc.1) hc.2
  have hsz : (if msg.length > MULTI_PART then MULTI_PART else msg.length) =
      (msg.take MULTI_PART).length := by
    rw [List.length_take]
    split <;> omega
  have htake : msg.take (msg.take MULTI_PART).length = msg.take MULTI_PART := by
    rw [List.length_take, ← List.take_take, List.take_length]
  have hle : (msg.take MULTI_PART).length ≤ 0x8000 := List.length_take_le _ _
  obtain ⟨p, hp, hbody, hframed⟩ := @pushPacket_some ((msg.take MULTI_PART).length + 5)
    (fillUint32 session ++ [if ok then 1 else 0] ++ msg.take MULTI_PART)
    (by simp only [List.length_append, List.length_singleton, fillUint32_length]; omega)
    (by unfold TEMP_LENGTH; omega)
  refine ⟨p, ?_, hframed, ?_⟩
  · simp only [packresponse, if_neg hcond, hsz, htake, hp, Option.bind_eq_bind, Option.bind_some]
  · rw [hbody, unpackresponse_eq]
    cases ok <;> rfl

theorem packresponse_large (h : MULTI_PART < msg.length) :
    ∃ p ps, packresponse session true msg = some (p :: ps) ∧ (∀ p' ∈ p :: ps, Framed p') ∧
      unpackresponse (p.drop 2) =
        some ⟨session, true, .number (UInt32.ofNat msg.length), true⟩ ∧
      Cut (RespPart session) msg ps := by
  obtain ⟨ps, hps, hcut⟩ := @packresponseMulti_cut msg session _ (by omega) rfl
  obtain ⟨p, hp, hbody, hframed⟩ := @pushPacket_some 9
    (fillUint32 session ++ [2] ++ fillUint32 (UInt32.ofNat msg.length))
    (by simp only [List.length_append, List.length_singleton, fillUint32_length]) (by decide)
  refine ⟨p, ps, ?_, ?_, ?_, hcut⟩
  · simp only [packresponse, gt_iff_lt, true_and, if_pos h, hp, hps, Option.bind_eq_bind,
      Option.bind_some]
  · exact List.forall_mem_cons.mpr ⟨hframed, hcut.forall_framed fun _ _ _ h => h.framed⟩
  · rw [hbody, unpackresponse_eq]
    simp

end XsServer.Cluster
