import XsServer.Lib.Bytes

/-! The buffer of a connection of the gate, from `databuffer.h`: the socket messages that have come
and have not been read to their end, how much of the first one has been read, and the header of the
packet whose body is awaited. -/

namespace XsServer.ServiceGate

open Lib Lib.Bytes

/-- An `int` of the source; its arithmetic wraps. -/
def int32 (n : Int) : Int := Int.bmod n (2 ^ 32)

structure DataBuffer where
  header : Int
  offset : Nat
  size : Int
  messages : List (List UInt8)
  deriving DecidableEq

/-- The buffer after its `memset`. -/
def DataBuffer.empty : DataBuffer := ⟨0, 0, 0, []⟩

/-- The loop of `databuffer_read` over the messages from `head` on: the bytes that it copies, the
offset in the first message that is left, and the messages that are left. -/
def readLoop : List (List UInt8) → Nat → Nat → Option (List UInt8 × Nat × List (List UInt8))
  | [], _, _ => none
  | current :: next, offset, sz =>
    let bsz := current.length - offset
    if sz < bsz then some ((current.drop offset).take sz, offset + sz, current :: next)
    else if bsz = sz then some ((current.drop offset).take sz, 0, next)
    else do
      let (buffer, offset', messages) ← readLoop next 0 (sz - bsz)
      some (current.drop offset ++ buffer, offset', messages)

/-- `none` is the failed assertion or the read through a null `head`. -/
def databufferRead (db : DataBuffer) (sz : Nat) : Option (List UInt8 × DataBuffer) :=
  if sz ≤ db.size then do
    let (buffer, offset, messages) ← readLoop db.messages db.offset sz
    some (buffer, { db with size := db.size - sz, offset, messages })
  else none

def databufferPush (db : DataBuffer) (data : List UInt8) : DataBuffer :=
  { db with size := int32 (db.size + data.length), messages := db.messages ++ [data] }

/-- The bytes of a header: `S` or `L` in the parameters of the gate. -/
structure HeaderSize where
  size : Nat
  size_eq : size = 2 ∨ size = 4
  deriving DecidableEq

theorem HeaderSize.pos (k : HeaderSize) : 0 < k.size := by
  rcases k.size_eq with h | h <;> omega

/-- What the bytes of a header give: two bytes fit into an `int`, four do not. -/
def headerValue (k : HeaderSize) (plen : List UInt8) : Int :=
  if k.size = 2 then ofBe plen else int32 (ofBe plen)

/-- The size of the next packet, or a negative number when it cannot be handled yet. -/
def databufferReadHeader (db : DataBuffer) (k : HeaderSize) : Option (Int × DataBuffer) :=
  if db.header = 0 then
    if db.size < k.size then some (-1, db)
    else do
      let (plen, db') ← databufferRead db k.size
      some (awaitBody { db' with header := headerValue k plen })
  else some (awaitBody db)
where
  awaitBody (db : DataBuffer) : Int × DataBuffer :=
    (if db.size < db.header then -1 else db.header, db)

def databufferReset (db : DataBuffer) : DataBuffer := { db with header := 0 }

/-! ### The bytes of a buffer -/

/-- The bytes that have come and have not been read. -/
def DataBuffer.unread (db : DataBuffer) : List UInt8 := db.messages.flatten.drop db.offset

/-- The bytes of the stream from the last packet that has been handled on, with those of a header
that has been read. -/
def DataBuffer.pending (db : DataBuffer) (k : HeaderSize) : List UInt8 :=
  if db.header = 0 then db.unread
  else be k.size (db.header % 2 ^ 32).toNat ++ db.unread

/-- The offset lies in the first message, and `size` counts the bytes. -/
structure DataBuffer.Sound (db : DataBuffer) : Prop where
  offset_le : ∀ m ∈ db.messages.head?, db.offset ≤ m.length
  offset_nil : db.messages = [] → db.offset = 0
  size_eq : db.size = db.unread.length

theorem int32_eq_self {n : Int} (h0 : 0 ≤ n) (h : n < 2 ^ 31) : int32 n = n := by
  unfold int32
  rw [Int.bmod_eq_emod_of_lt (by omega), Int.emod_eq_of_lt h0 (by omega)]

theorem int32_emod (n : Int) : int32 n % 2 ^ 32 = n % 2 ^ 32 := by
  have := @Int.bmod_emod n (2 ^ 32)
  exact this

theorem sound_empty : DataBuffer.empty.Sound where
  offset_le := by intro m hm; cases hm
  offset_nil := fun _ => rfl
  size_eq := rfl

theorem readLoop_spec {messages : List (List UInt8)} {offset sz : Nat}
    (hoffset : ∀ m ∈ messages.head?, offset ≤ m.length) (hsz : 0 < sz)
    (hle : sz ≤ (messages.flatten.drop offset).length) :
    ∃ offset' messages', readLoop messages offset sz =
        some ((messages.flatten.drop offset).take sz, offset', messages') ∧
      messages'.flatten.drop offset' = (messages.flatten.drop offset).drop sz ∧
      (∀ m ∈ messages'.head?, offset' ≤ m.length) ∧ (messages' = [] → offset' = 0) := by
  induction messages generalizing offset sz with
  | nil => simp at hle; omega
  | cons current next ih =>
    have hcurrent : offset ≤ current.length := hoffset current rfl
    have hflat : (current :: next).flatten.drop offset = current.drop offset ++ next.flatten := by
      rw [List.flatten_cons, List.drop_append_of_le_length hcurrent]
    have hlen : (current.drop offset).length = current.length - offset := List.length_drop
    rw [hflat] at hle ⊢
    rw [readLoop]
    by_cases hlt : sz < current.length - offset
    · refine ⟨offset + sz, current :: next, ?_, ?_, ?_, fun h => by cases h⟩
      · rw [if_pos hlt, List.take_append_of_le_length (by omega)]
      · rw [List.flatten_cons, List.drop_append_of_le_length (by omega),
          List.drop_append_of_le_length (by omega), List.drop_drop]
      · intro m hm
        cases hm
        omega
    · by_cases heq : current.length - offset = sz
      · refine ⟨0, next, ?_, ?_, fun m _ => Nat.zero_le _, fun _ => rfl⟩
        · rw [if_neg hlt, if_pos heq, List.take_append_of_le_length (by omega)]
        · rw [List.drop_append_of_le_length (by omega), ← heq, ← hlen, List.drop_length,
            List.nil_append, List.drop_zero]
      · have hrest : sz - (current.length - offset) ≤ (next.flatten.drop 0).length := by
          rw [List.length_append] at hle
          rw [List.drop_zero]
          omega
        obtain ⟨offset', messages', hread, hdrop, hle', hnil⟩ :=
          ih (fun m _ => Nat.zero_le _) (by omega) hrest
        have hall : (current.drop offset).take sz = current.drop offset :=
          List.take_of_length_le (by omega)
        have hnone : (current.drop offset).drop sz = [] := List.drop_eq_nil_of_le (by omega)
        refine ⟨offset', messages', ?_, ?_, hle', hnil⟩
        · rw [if_neg hlt, if_neg heq, hread, List.drop_zero, List.take_append, hall, hlen]
          rfl
        · rw [hdrop, List.drop_zero, List.drop_append, hnone, hlen, List.nil_append]

variable {db : DataBuffer}

theorem databufferRead_spec (h : db.Sound) {sz : Nat} (hsz : 0 < sz) (hle : sz ≤ db.unread.length) :
    ∃ db', databufferRead db sz = some (db.unread.take sz, db') ∧ db'.Sound ∧
      db'.unread = db.unread.drop sz ∧ db'.header = db.header := by
  obtain ⟨offset, messages, hread, hdrop, hin, hnil⟩ := readLoop_spec h.offset_le hsz hle
  have hsize := h.size_eq
  refine ⟨{ db with size := db.size - sz, offset, messages }, ?_, ⟨hin, hnil, ?_⟩, hdrop, rfl⟩
  · rw [databufferRead, if_pos (by omega), hread]
    rfl
  · have hlen : (DataBuffer.unread { db with size := db.size - sz, offset, messages }).length =
        db.unread.length - sz := by
      rw [DataBuffer.unread, hdrop, List.length_drop]
      rfl
    rw [hlen]
    change db.size - sz = _
    omega

theorem databufferPush_spec (h : db.Sound) {data : List UInt8}
    (hlt : db.unread.length + data.length < 2 ^ 31) :
    (databufferPush db data).Sound ∧ (databufferPush db data).unread = db.unread ++ data ∧
      (databufferPush db data).header = db.header := by
  have hle : db.offset ≤ db.messages.flatten.length := by
    cases hm : db.messages with
    | nil => rw [h.offset_nil hm]; exact Nat.zero_le _
    | cons m ms =>
      have := h.offset_le m (by rw [hm]; rfl)
      rw [List.flatten_cons, List.length_append]
      omega
  have hunread : (databufferPush db data).unread = db.unread ++ data := by
    unfold databufferPush DataBuffer.unread
    rw [List.flatten_append, List.flatten_singleton, List.drop_append_of_le_length hle]
  have hsize := h.size_eq
  refine ⟨⟨?_, ?_, ?_⟩, hunread, rfl⟩
  · intro m hm
    change db.offset ≤ m.length
    cases hms : db.messages with
    | nil => rw [h.offset_nil hms]; exact Nat.zero_le _
    | cons m' ms =>
      rw [databufferPush, hms] at hm
      cases hm
      exact h.offset_le m (by rw [hms]; rfl)
  · intro hnil
    exact absurd hnil (by simp [databufferPush])
  · rw [hunread, List.length_append]
    change int32 (db.size + data.length) = _
    rw [int32_eq_self (by omega) (by omega)]
    omega

end XsServer.ServiceGate
