import XsServer.Seri.Pack

/-! The reading half of `lua-seri.c`.  The read position and the lengths are integers, since a
length from the stream can be negative as an `int`; every `rb_read` is kept in a log.  Where the C
code recurses or loops until it meets a `nil`, the model has fuel.  The C stack and the memory are
not bounded, and the Lua stack only where it is said how much of it is free.

The readers have rules: `Reads` says that a reader consumes the given bytes and returns the given
value, `Fails` that it raises an error that is not about the stream, and `Parses` what it can do on
any stream. -/

namespace XsServer.Seri

open Lib.Bytes

/-- A call of `rb_read`: where it reads, how much, whether it returns `NULL`, and whether it
reads the tag of a value. -/
structure Read where
  ptr : Int
  sz : Int
  null : Bool
  tag : Bool
  deriving DecidableEq

/-- `struct read_block`, with the log of its reads, the last one first. -/
structure ReadBlock where
  buffer : List UInt8
  len : Int
  ptr : Int
  reads : List Read

inductive LuaError
  /-- `Invalid serialize stream %d (line:%d)` -/
  | invalidStream (len : Int) (line : Nat)
  /-- `memory allocation error: block too big`, from `lua_pushlstring` -/
  | tooBig
  /-- `table index is NaN`, from `lua_rawset` -/
  | indexIsNaN
  /-- `deserialize null pointer` -/
  | nullPointer
  /-- `stack overflow`, from `luaL_checkstack` -/
  | stackOverflow
  | outOfFuel
  deriving DecidableEq

abbrev Reader := EStateM LuaError ReadBlock

/-- An error that is not about the stream. -/
def LuaError.Foreign (e : LuaError) : Prop := e = .tooBig ∨ e = .indexIsNaN ∨ e = .stackOverflow

def LUA_MINSTACK : Nat := 20

/-- The slots of the Lua stack that are free below `LUAI_MAXSTACK - EXTRA_STACK`; `none` is a stack
without a limit. -/
abbrev Room := Option Nat

/-- The room after `k` values were pushed. -/
def Room.push (room : Room) (k : Nat) : Room := room.map (· - k)

def Room.Full (room : Room) : Prop := room.any (· < LUA_MINSTACK) = true

instance (room : Room) : Decidable room.Full := inferInstanceAs (Decidable (_ = true))

def rballInit (buffer : List UInt8) (size : Int) : ReadBlock where
  buffer := buffer
  len := size
  ptr := 0
  reads := []

/-- `rb_read`, with the bytes of the region instead of its address. -/
def rbRead (sz : Int) (tag : Bool) : Reader (Option (List UInt8)) := fun rb =>
  if rb.len < sz then
    .ok none { rb with reads := ⟨rb.ptr, sz, true, tag⟩ :: rb.reads }
  else
    .ok (some ((rb.buffer.drop rb.ptr.toNat).take sz.toNat))
      { rb with
        len := rb.len - sz
        ptr := rb.ptr + sz
        reads := ⟨rb.ptr, sz, false, tag⟩ :: rb.reads }

/-- `luaL_checkstack(L,LUA_MINSTACK,NULL)` -/
def checkstack (room : Room) : Reader Unit :=
  if room.Full then throw .stackOverflow else pure ()

def invalidStreamLine {α : Type} (line : Nat) : Reader α := do
  throw (.invalidStream (← get).len line)

/-- `rb_read`, and `invalid_stream` at the line when it returns `NULL`. -/
def rbReadOr (sz : Int) (line : Nat) (tag : Bool) : Reader (List UInt8) := do
  match ← rbRead sz tag with
  | some bytes => pure bytes
  | none => invalidStreamLine line

def getInteger (cookie : UInt8) : Reader Int64 := do
  if cookie = TYPE_NUMBER_ZERO then pure 0
  else if cookie = TYPE_NUMBER_BYTE then
    pure (Int64.ofNat (ofLe (← rbReadOr 1 368 false)))
  else if cookie = TYPE_NUMBER_WORD then
    pure (Int64.ofNat (ofLe (← rbReadOr 2 376 false)))
  else if cookie = TYPE_NUMBER_DWORD then
    pure (UInt32.ofNat (ofLe (← rbReadOr 4 384 false))).toInt32.toInt64
  else if cookie = TYPE_NUMBER_QWORD then
    pure (UInt64.ofNat (ofLe (← rbReadOr 8 392 false))).toInt64
  else invalidStreamLine 397

def getReal : Reader UInt64 := do
  pure (UInt64.ofNat (ofLe (← rbReadOr 8 407 false)))

def getPointer : Reader UInt64 := do
  pure (UInt64.ofNat (ofLe (← rbReadOr 8 417 false)))

/-- `get_buffer`; `lua_pushlstring` takes a negative `len` for a `size_t` beyond its limit. -/
def getBuffer (len : Int32) : Reader LuaTree := do
  let p ← rbReadOr len.toInt 427 false
  if len.toInt < 0 then throw .tooBig else pure (.scalar (.string p))

def getArraySize (arraySize : Int) : Reader Int := do
  if arraySize = MAX_COOKIE - 1 then
    let type := UInt8.ofNat (ofLe (← rbReadOr 1 440 true))
    let cookie := type >>> 3
    if type &&& 7 ≠ TYPE_NUMBER ∨ cookie = TYPE_NUMBER_REAL then invalidStreamLine 445
    else pure (← getInteger cookie).toInt32.toInt
  else pure arraySize

/-- The loop that reads the array part, from the index `i` on with `n` indices left. -/
def unpackArray (one : Reader LuaTree) (t : List (LuaTree × LuaTree)) (i : Nat) :
    Nat → Reader (List (LuaTree × LuaTree))
  | 0 => pure t
  | n + 1 => do
    let value ← one
    unpackArray one (setKey t (.integer (Int64.ofNat i)) value) (i + 1) n

/-- The loop that reads the hash part; `one k` reads a value when `k` others were pushed. -/
def unpackHash (one : Nat → Reader LuaTree) (t : List (LuaTree × LuaTree)) :
    Nat → Reader (List (LuaTree × LuaTree))
  | 0 => throw .outOfFuel
  | n + 1 => do
    let key ← one 1
    if key.isNil then pure t
    else do
      let value ← one 2
      match rawset t key value with
      | some t => unpackHash one t n
      | none => throw .indexIsNaN

def unpackTable (one : Nat → Reader LuaTree) (room : Room) (fuel : Nat) (arraySize : Int) :
    Reader LuaTree := do
  let arraySize ← getArraySize arraySize
  checkstack room
  let t ← unpackArray (one 1) [] 1 arraySize.toNat
  pure (.table (← unpackHash one t fuel))

/-- `push_value`; `table` reads the table of a cookie. -/
def pushValue (table : Int → Reader LuaTree) (type cookie : UInt8) : Reader LuaTree := do
  if type = TYPE_NIL then pure (.scalar .nil)
  else if type = TYPE_BOOLEAN then pure (.scalar (.boolean (cookie ≠ 0)))
  else if type = TYPE_NUMBER then
    if cookie = TYPE_NUMBER_REAL then pure (.scalar (.number (← getReal)))
    else pure (.scalar (.integer (← getInteger cookie)))
  else if type = TYPE_USERDATA then pure (.scalar (.lightuserdata (← getPointer)))
  else if type = TYPE_SHORT_STRING then getBuffer (Int32.ofNat cookie.toNat)
  else if type = TYPE_LONG_STRING then
    if cookie = 2 then getBuffer (Int32.ofNat (ofLe (← rbReadOr 2 493 false)))
    else if cookie ≠ 4 then invalidStreamLine 500
    else getBuffer (Int32.ofNat (ofLe (← rbReadOr 4 504 false)))
  else if type = TYPE_TABLE then table cookie.toNat
  else invalidStreamLine 517

def unpackOne : Room → Nat → Reader LuaTree
  | _, 0 => throw .outOfFuel
  | room, fuel + 1 => do
    let type := UInt8.ofNat (ofLe (← rbReadOr 1 528 true))
    let table := unpackTable (fun k => unpackOne (room.push k) fuel) room fuel
    pushValue table (type &&& 7) (type >>> 3)

/-- The loop of `luaseri_unpack` from `i` on, which ends when the stream does. -/
def unpackAll (room : Room) (fuel i : Nat) : Nat → Reader (List LuaTree)
  | 0 => throw .outOfFuel
  | n + 1 => do
    let room' := room.push i
    if i % 8 = 7 then checkstack room'
    match ← rbRead 1 true with
    | none => pure []
    | some t =>
      let type := UInt8.ofNat (ofLe t)
      let table := unpackTable (fun k => unpackOne (room'.push k) fuel) room' fuel
      let value ← pushValue table (type &&& 7) (type >>> 3)
      pure (value :: (← unpackAll room fuel (i + 1) n))

/-- `luaseri_unpack` of a buffer that is not `NULL` and its size, where the Lua stack has this room
for the values. -/
def luaseriUnpackIn (room : Room) (buffer : List UInt8) (len : Int) :
    EStateM.Result LuaError ReadBlock (List LuaTree) :=
  if len = 0 then .ok [] (rballInit buffer len)
  else unpackAll room (buffer.length + 1) 0 (buffer.length + 1) (rballInit buffer len)

/-- `luaseri_unpack` where the Lua stack is large enough. -/
def luaseriUnpack : List UInt8 → Int → EStateM.Result LuaError ReadBlock (List LuaTree) :=
  luaseriUnpackIn none

def Read.Inside (size : Int) (x : Read) : Prop :=
  x.null = true ∨ (0 ≤ x.sz ∧ 0 ≤ x.ptr ∧ x.ptr + x.sz ≤ size)

instance (size : Int) (x : Read) : Decidable (x.Inside size) :=
  inferInstanceAs (Decidable (_ ∨ _ ∧ _ ∧ _))

def tags (reads : List Read) : Nat := (reads.filter fun x => x.tag && !x.null).length

/-- Every read was `NULL` or in the buffer, the position never moved backwards, and no more tags
were read than there are bytes. -/
structure SafeLog (rb : ReadBlock) : Prop where
  inside : ∀ x ∈ rb.reads, x.Inside rb.buffer.length
  forward : (rb.ptr :: rb.reads.map (·.ptr)).Pairwise (· ≥ ·)
  tags_le : tags rb.reads ≤ rb.buffer.length

/-- The bytes `r` of the buffer are left, and every read so far was safe. -/
structure At (rb : ReadBlock) (r : List UInt8) : Prop where
  split : ∃ w, rb.buffer = w ++ r ∧ rb.ptr = w.length
  len_eq : rb.len = r.length
  safe : SafeLog rb
  tags_le : (tags rb.reads : Int) ≤ rb.ptr

variable {α β : Type}

theorem At.start (buffer : List UInt8) : At (rballInit buffer buffer.length) buffer where
  split := ⟨[], rfl, rfl⟩
  len_eq := rfl
  safe := ⟨by simp [rballInit], by simp [rballInit], by simp [rballInit, tags]⟩
  tags_le := by simp [rballInit, tags]

theorem tags_null {x : Read} (h : x.null = true) (reads : List Read) :
    tags (x :: reads) = tags reads := by
  simp [tags, h]

theorem tags_le_of_size {x : Read} (h : x.tag = true → 1 ≤ x.sz) (hsz : 0 ≤ x.sz)
    (reads : List Read) : (tags (x :: reads) : Int) ≤ tags reads + x.sz := by
  unfold tags
  rw [List.filter_cons]
  split
  · rename_i hx
    have := h (by simp_all)
    rw [List.length_cons]
    omega
  · omega

theorem SafeLog.cons {rb rb' : ReadBlock} {x : Read} (h : SafeLog rb)
    (hbuf : rb'.buffer = rb.buffer) (hreads : rb'.reads = x :: rb.reads)
    (hx : x.Inside rb.buffer.length) (hptr : x.ptr = rb.ptr) (hle : rb.ptr ≤ rb'.ptr)
    (htags : tags rb'.reads ≤ rb.buffer.length) : SafeLog rb' where
  inside := by
    intro y hy
    rw [hreads] at hy
    rw [hbuf]
    rcases List.mem_cons.mp hy with rfl | hy
    · exact hx
    · exact h.inside y hy
  forward := by
    have hforward := h.forward
    rw [hreads, List.map_cons, List.pairwise_cons, hptr]
    refine ⟨?_, hforward⟩
    intro p hp
    rcases List.mem_cons.mp hp with rfl | hp
    · exact hle
    · exact le_trans ((List.pairwise_cons.mp hforward).1 p hp) hle
  tags_le := by rw [hbuf]; exact htags

theorem rbRead_some {rb : ReadBlock} {w r : List UInt8} {sz : Int} {tag : Bool}
    (h : At rb (w ++ r)) (hsz : sz = w.length) (htag : tag = true → 1 ≤ sz) :
    ∃ rb', rbRead sz tag rb = .ok (some w) rb' ∧ At rb' r := by
  obtain ⟨⟨before, hbuf, hptr⟩, hlen, hsafe, htags⟩ := h
  rw [List.length_append] at hlen
  have hbytes : (rb.buffer.drop rb.ptr.toNat).take sz.toNat = w := by
    simp [hbuf, hptr, hsz]
  have hsize : rb.buffer.length = before.length + (w.length + r.length) := by
    rw [hbuf, List.length_append, List.length_append]
  have hcount := @tags_le_of_size ⟨rb.ptr, sz, false, tag⟩ htag (by simp only; omega) rb.reads
  simp only at hcount
  refine ⟨_, by rw [rbRead, if_neg (by omega), hbytes],
    ⟨before ++ w, by rw [hbuf, List.append_assoc], ?_⟩, ?_, ?_, ?_⟩
  · simp only [List.length_append]; omega
  · simp only; omega
  · refine hsafe.cons (x := ⟨rb.ptr, sz, false, tag⟩) rfl rfl (Or.inr ?_) rfl ?_ ?_ <;>
      simp only <;> omega
  · simp only; omega

theorem rbRead_none {rb : ReadBlock} {r : List UInt8} {sz : Int} {tag : Bool}
    (h : At rb r) (hsz : (r.length : Int) < sz) :
    ∃ rb', rbRead sz tag rb = .ok none rb' ∧ At rb' r := by
  obtain ⟨hsplit, hlen, hsafe, htags⟩ := h
  have hcount := @tags_null ⟨rb.ptr, sz, true, tag⟩ rfl rb.reads
  let rb' : ReadBlock := { rb with reads := ⟨rb.ptr, sz, true, tag⟩ :: rb.reads }
  have hrun : rbRead sz tag rb = .ok none rb' := if_pos (by rw [hlen]; exact hsz)
  refine ⟨rb', hrun, hsplit, hlen, ?_, ?_⟩
  · exact hsafe.cons rfl rfl (Or.inl rfl) rfl le_rfl (hcount.trans_le hsafe.tags_le)
  · exact (congrArg Nat.cast hcount).trans_le htags

/-! ### Readers that succeed -/

/-- The reader consumes the bytes `w` and returns `a`. -/
def Reads (m : Reader α) (w : List UInt8) (a : α) : Prop :=
  ∀ rb r, At rb (w ++ r) → ∃ rb', m rb = .ok a rb' ∧ At rb' r

/-- The reader raises an error that is not about the stream when the bytes `w` come next. -/
def Fails (m : Reader α) (w : List UInt8) : Prop :=
  ∀ rb r, At rb (w ++ r) → ∃ e rb', m rb = .error e rb' ∧ e.Foreign

theorem Reads.pure (a : α) : Reads (pure a) [] a := fun rb _ h => ⟨rb, rfl, h⟩

variable {f : α → Reader β} {a : α}

theorem Reads.bind {m : Reader α} {w w' : List UInt8} {b : β}
    (hm : Reads m w a) (hf : Reads (f a) w' b) : Reads (m >>= f) (w ++ w') b := by
  intro rb r h
  rw [List.append_assoc] at h
  obtain ⟨rb', hrb, hat⟩ := hm rb _ h
  obtain ⟨rb'', hrb', hat'⟩ := hf rb' r hat
  exact ⟨rb'', by simp [Bind.bind, EStateM.bind, hrb, hrb'], hat'⟩

variable {w : List UInt8}

theorem Reads.bind_nil {m : Reader α} {b : β}
    (hm : Reads m w a) (hf : Reads (f a) [] b) : Reads (m >>= f) w b := by
  have := hm.bind hf
  rwa [List.append_nil] at this

theorem Reads.map {m : Reader α} {f : α → β} (hm : Reads m w a) :
    Reads (m >>= fun a => Pure.pure (f a)) w (f a) :=
  hm.bind_nil (Reads.pure (f a))

theorem Reads.bind_fails {m : Reader α} {w w' : List UInt8}
    (hm : Reads m w a) (hf : Fails (f a) w') : Fails (m >>= f) (w ++ w') := by
  intro rb r h
  rw [List.append_assoc] at h
  obtain ⟨rb', hrb, hat⟩ := hm rb _ h
  obtain ⟨e, rb'', hrb', he⟩ := hf rb' r hat
  exact ⟨e, rb'', by simp [Bind.bind, EStateM.bind, hrb, hrb'], he⟩

theorem Reads.bind_fails_nil {m : Reader α}
    (hm : Reads m w a) (hf : Fails (f a) []) : Fails (m >>= f) w := by
  have := hm.bind_fails hf
  rwa [List.append_nil] at this

theorem Fails.bind {m : Reader α} (f : α → Reader β) (hm : Fails m w) :
    Fails (m >>= f) w := by
  intro rb r h
  obtain ⟨e, rb', hrb, he⟩ := hm rb r h
  exact ⟨e, rb', by simp [Bind.bind, EStateM.bind, hrb], he⟩

theorem reads_rbReadOr {sz : Int} (line : Nat) {tag : Bool} (hsz : sz = w.length)
    (htag : tag = true → 1 ≤ sz) : Reads (rbReadOr sz line tag) w w := by
  intro rb r h
  obtain ⟨rb', hrb, hat⟩ := rbRead_some h hsz htag
  exact ⟨rb', by simp [rbReadOr, Bind.bind, EStateM.bind, hrb, Pure.pure, EStateM.pure], hat⟩

/-- On a stream of less than `N` bytes, the reader consumes bytes and returns a value that `P`
relates, or it raises an error about the stream after safe reads, or it raises another error and
the stream starts with bytes in `B`. -/
def Parses (N : Nat) (m : Reader α) (P : List UInt8 → α → Prop) (B : List UInt8 → Prop) : Prop :=
  ∀ rb r, At rb r → r.length < N →
    match m rb with
    | .ok a rb' => ∃ w r', r = w ++ r' ∧ At rb' r' ∧ P w a
    | .error e rb' => (SafeLog rb' ∧ ∃ len line, e = .invalidStream len line) ∨
        (e.Foreign ∧ ∃ w r', r = w ++ r' ∧ B w)

variable {N : Nat} {m : Reader α} {P Q : List UInt8 → α → Prop} {B C : List UInt8 → Prop}

theorem Parses.pure (h : P [] a) : Parses N (pure a) P B :=
  fun _ r hat _ => ⟨[], r, rfl, hat, h⟩

theorem Parses.invalid (line : Nat) : Parses N (invalidStreamLine line : Reader α) P B :=
  fun _ _ hat _ => Or.inl ⟨hat.safe, _, _, rfl⟩

theorem Parses.anti {N' : Nat} (h : Parses N m P B) (hle : N' ≤ N) : Parses N' m P B :=
  fun rb r hat hlt => h rb r hat (by omega)

theorem Parses.mono (h : Parses N m P B) (hP : ∀ w a, P w a → Q w a) (hB : ∀ w, B w → C w) :
    Parses N m Q C := by
  intro rb r hat hlt
  have := h rb r hat hlt
  split at this
  · obtain ⟨w, r', hr, hat', hp⟩ := this
    exact ⟨w, r', hr, hat', hP w _ hp⟩
  · rcases this with hinvalid | ⟨he, w, r', hr, hb⟩
    · exact Or.inl hinvalid
    · exact Or.inr ⟨he, w, r', hr, hB w hb⟩

theorem Parses.bind {R : List UInt8 → β → Prop}
    (hm : Parses N m P B)
    (hf : ∀ a w, P w a → Parses (N - w.length) (f a) (fun w' b => R (w ++ w') b)
      fun w' => C (w ++ w'))
    (hB : ∀ w, B w → C w) : Parses N (m >>= f) R C := by
  intro rb r hat hlt
  have h := hm rb r hat hlt
  simp only [Bind.bind, EStateM.bind]
  cases hrun : m rb with
  | error e rb' =>
    rw [hrun] at h
    rcases h with hinvalid | ⟨he, w, r', hr, hb⟩
    · exact Or.inl hinvalid
    · exact Or.inr ⟨he, w, r', hr, hB w hb⟩
  | ok a rb' =>
    rw [hrun] at h
    obtain ⟨w, r', rfl, hat', hp⟩ := h
    rw [List.length_append] at hlt
    have h' := hf a w hp rb' r' hat' (by omega)
    simp only
    cases hrun' : f a rb' with
    | ok b rb'' =>
      rw [hrun'] at h'
      obtain ⟨w', r'', rfl, hat'', hr⟩ := h'
      exact ⟨w ++ w', r'', by simp, hat'', hr⟩
    | error e rb'' =>
      rw [hrun'] at h'
      rcases h' with hinvalid | ⟨he, w', r'', rfl, hb⟩
      · exact Or.inl hinvalid
      · exact Or.inr ⟨he, w ++ w', r'', by simp, hb⟩

theorem parses_rbReadOr {sz : Int} (line : Nat) {tag : Bool} (hsz : 0 ≤ sz)
    (htag : tag = true → 1 ≤ sz) :
    Parses N (rbReadOr sz line tag) (fun w a => a = w ∧ sz = w.length) B := by
  intro rb r hat _
  by_cases hlen : (r.length : Int) < sz
  · obtain ⟨rb', hrb, hat'⟩ := @rbRead_none _ _ _ tag hat hlen
    have hrun : rbReadOr sz line tag rb = .error (.invalidStream rb'.len line) rb' := by
      simp only [rbReadOr, Bind.bind, EStateM.bind, hrb]
      rfl
    rw [hrun]
    exact Or.inl ⟨hat'.safe, _, _, rfl⟩
  · have hsplit : r = r.take sz.toNat ++ r.drop sz.toNat := (List.take_append_drop _ _).symm
    have hlength : sz = (r.take sz.toNat).length := by rw [List.length_take]; omega
    have hat' := hat
    rw [hsplit] at hat'
    obtain ⟨rb', hrb, hat''⟩ := reads_rbReadOr line hlength htag rb _ hat'
    rw [hrb]
    exact ⟨_, _, hsplit, hat'', rfl, hlength⟩

end XsServer.Seri
