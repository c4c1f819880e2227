import XsServer.Http.Pieces

/-! Chunked bodies are decoded as they were encoded, and a body that is returned was announced chunk
by chunk. -/

namespace XsServer.Http

open Lib

structure Chunk where
  line : List UInt8
  data : List UInt8
  announces : Announces line data.length
  ne_nil : data ≠ []

def Chunk.bytes (c : Chunk) : List UInt8 := c.line ++ crlf ++ (c.data ++ crlf)

/-- The chunks of a body, one after the other. -/
def encode (cs : List Chunk) : List UInt8 := cs.flatMap Chunk.bytes

def contents (cs : List Chunk) : List UInt8 := cs.flatMap Chunk.data

structure Message where
  chunks : List Chunk
  last : List UInt8
  trailers : List (List UInt8)
  last_zero : Announces last 0
  lines : Lines trailers

def Message.bytes (m : Message) : List UInt8 :=
  encode m.chunks ++ (m.last ++ (crlf ++ trailerBlock m.trailers))

/-- The lines are within the limits of the reader, and the size of the body is a `lua_Integer`. -/
structure Message.Admitted (m : Message) : Prop where
  chunk_lines : ∀ c ∈ m.chunks, c.line.length ≤ 127
  last_line : m.last.length ≤ 127
  block : (trailerBlock m.trailers).length ≤ LIMIT + 1
  total : (contents m.chunks).length < 2 ^ 63

/-- A size that has a minus sign, or that takes the total out of the range of a `lua_Integer`. -/
def Slips (total : Nat) (z : Int) : Prop := z < 0 ∨ 2 ^ 63 ≤ total + z

variable {src src' : Source} {result result' body body' last t : List UInt8} {n : Nat} {z : Int}
  {bodylimit : Option Nat} {c : Chunk} {cs : List Chunk}

theorem encode_cons (c : Chunk) (cs : List Chunk) : encode (c :: cs) = c.bytes ++ encode cs :=
  List.flatMap_cons

theorem contents_cons (c : Chunk) (cs : List Chunk) :
    contents (c :: cs) = c.data ++ contents cs := List.flatMap_cons

theorem length_le_encode (cs : List Chunk) : cs.length ≤ (encode cs).length := by
  induction cs with
  | nil => exact Nat.zero_le _
  | cons c cs ih =>
    rw [encode_cons, Chunk.bytes, List.length_cons]
    simp only [List.length_append, List.length_cons, List.length_nil]
    omega

theorem exceeds_eq_true : exceeds bodylimit n = true ↔ ∃ l ∈ bodylimit, l < n := by
  rw [exceeds, Option.any_eq_true]
  exact exists_congr fun l => and_congr_right fun _ => by rw [decide_eq_true_iff, Int.ofNat_lt]

theorem exceeds_eq_false : exceeds bodylimit n = false ↔ ∀ l ∈ bodylimit, n ≤ l := by
  rw [← Bool.not_eq_true, exceeds_eq_true]
  push Not
  rfl

theorem not_slips_integer (h : ¬ Slips n z) :
    integer z = z ∧ integer (n + z) = n + z ∧ ∃ k : Nat, z = k := by
  have h0 : 0 ≤ z := Int.not_lt.mp fun hneg => h (.inl hneg)
  have hlt : n + z < 2 ^ 63 := Int.not_le.mp fun hle => h (.inr hle)
  exact ⟨integer_of_lt h0 (by omega), integer_of_lt (by omega) hlt, Int.eq_ofNat_of_zero_le h0⟩

theorem chunksize_plain {line : List UInt8} {k total : Nat} (hline : Announces line k)
    (hshort : line.length ≤ 127) (hfit : total + k < 2 ^ 63)
    (h : body ++ src.rest = line ++ (crlf ++ t)) :
    ∃ body' src', chunksize (src.rest.length + 1) src body = .ok (some ((k : Int), body'), src') ∧
      integer ((total : Int) + k) = (total + k : Nat) ∧ body' ++ src'.rest = t := by
  obtain ⟨body', src', hsize, hrest⟩ := chunksize_line hline.2 hshort h (Nat.lt_succ_self _)
  have hk : integer k = k := integer_of_lt (by omega) (by omega)
  rw [tonumber_eq, hline.1, Option.map_some, Option.map_some, hk] at hsize
  exact ⟨body', src', hsize, integer_of_lt (by omega) (by omega), hrest⟩

theorem recvchunks_last (hline : Announces last 0) (hshort : last.length ≤ 127)
    (hfit : result.length < 2 ^ 63) (h : body ++ src.rest = last ++ (crlf ++ t)) :
    ∃ body' src', recvchunks bodylimit (n + 1) src result result.length body =
      .ok (some (result, body'), src') ∧ body' ++ src'.rest = t := by
  obtain ⟨body', src', hsize, -, hrest⟩ := chunksize_plain (k := 0) hline hshort hfit h
  refine ⟨body', src', ?_, hrest⟩
  rw [recvchunks, hsize]
  rfl

theorem recvchunks_exceeds (hshort : c.line.length ≤ 127)
    (hfit : result.length + c.data.length < 2 ^ 63)
    (h : body ++ src.rest = c.bytes ++ t)
    (hlimit : exceeds bodylimit (result.length + c.data.length : Nat) = true) :
    ∃ src', recvchunks bodylimit (n + 1) src result result.length body = .ok (none, src') := by
  rw [Chunk.bytes, List.append_assoc, List.append_assoc] at h
  obtain ⟨body₁, src₁, hsize, hsum, -⟩ := chunksize_plain c.announces hshort hfit h
  have hne : (c.data.length : Int) ≠ 0 := by
    have := List.length_pos_iff.mpr c.ne_nil
    omega
  refine ⟨src₁, ?_⟩
  rw [recvchunks, hsize, ok_bind]
  dsimp only
  rw [if_neg hne, hsum, if_pos hlimit]

theorem recvchunks_chunk (hshort : c.line.length ≤ 127)
    (hfit : result.length + c.data.length < 2 ^ 63)
    (h : body ++ src.rest = c.bytes ++ t)
    (hlimit : exceeds bodylimit (result.length + c.data.length : Nat) = false) :
    ∃ body' src', recvchunks bodylimit (n + 1) src result result.length body =
        recvchunks bodylimit n src' (result ++ c.data) (result ++ c.data).length body' ∧
      body' ++ src'.rest = t := by
  simp only [Chunk.bytes, List.append_assoc] at h
  obtain ⟨body₁, src₁, hsize, hsum, h₁⟩ := chunksize_plain c.announces hshort hfit h
  obtain ⟨body₂, src₂, hdata, h₂⟩ := chunkdata_data h₁
  obtain ⟨body₃, src₃, hcrlf, h₃⟩ := readcrln_crlf h₂
  have hne : (c.data.length : Int) ≠ 0 := by
    have := List.length_pos_iff.mpr c.ne_nil
    omega
  refine ⟨body₃, src₃, ?_, h₃⟩
  rw [recvchunks, hsize, ok_bind]
  dsimp only
  rw [if_neg hne, hsum, hlimit, if_neg Bool.false_ne_true, hdata, ok_bind]
  dsimp only
  rw [hcrlf, ok_bind, List.length_append]

theorem recvchunks_encode (hshort : ∀ c ∈ cs, c.line.length ≤ 127) (hlast : Announces last 0)
    (hlen : last.length ≤ 127) (hfit : result.length + (contents cs).length < 2 ^ 63)
    (h : body ++ src.rest = encode cs ++ (last ++ (crlf ++ t))) (hn : cs.length < n)
    (hlimit : exceeds bodylimit result.length = false) :
    ∃ r src', recvchunks bodylimit n src result result.length body = .ok (r, src') ∧
      if exceeds bodylimit (result.length + (contents cs).length : Nat) then r = none
      else ∃ body', r = some (result ++ contents cs, body') ∧ body' ++ src'.rest = t := by
  induction cs generalizing n src body result with
  | nil =>
    obtain ⟨n, rfl⟩ := Nat.exists_eq_succ_of_ne_zero (Nat.ne_of_gt hn)
    obtain ⟨body', src', hrun, hrest⟩ := recvchunks_last hlast hlen hfit h
    refine ⟨_, src', hrun, ?_⟩
    have hnil : contents [] = [] := List.flatMap_nil
    rw [hnil, List.length_nil, Nat.add_zero, hlimit, if_neg Bool.false_ne_true, List.append_nil]
    exact ⟨body', rfl, hrest⟩
  | cons c cs ih =>
    obtain ⟨n, rfl⟩ := Nat.exists_eq_succ_of_ne_zero (Nat.ne_of_gt (Nat.zero_lt_of_lt hn))
    obtain ⟨hc, hcs⟩ := List.forall_mem_cons.mp hshort
    have htotal : result.length + (contents (c :: cs)).length =
        (result ++ c.data).length + (contents cs).length := by
      rw [contents_cons, List.length_append, List.length_append, Nat.add_assoc]
    rw [htotal] at hfit ⊢
    rw [contents_cons, ← List.append_assoc]
    rw [encode_cons, List.append_assoc] at h
    have hlen := @List.length_append _ result c.data
    cases hover : exceeds bodylimit (result.length + c.data.length : Nat) with
    | true =>
      obtain ⟨src', hrun⟩ := recvchunks_exceeds (n := n) hc (by omega) h hover
      obtain ⟨l, hl, hlt⟩ := exceeds_eq_true.mp hover
      refine ⟨none, src', hrun, ?_⟩
      rw [if_pos (exceeds_eq_true.mpr ⟨l, hl, by omega⟩)]
    | false =>
      obtain ⟨body', src', hrun, hrest⟩ := recvchunks_chunk (n := n) hc (by omega) h hover
      rw [hrun]
      exact ih hcs hfit hrest (Nat.lt_of_succ_lt_succ hn) (by rwa [hlen])

theorem recvchunks_succ_ok
    (h : recvchunks bodylimit (n + 1) src result result.length body =
      .ok (some (result', body'), src')) :
    ∃ line z t, Announces line z ∧ body ++ src.rest = line ++ (crlf ++ t) ∧
      (Slips result.length z ∨ z = 0 ∧ result' = result ∨
        ∃ data body₁ src₁, z = (data.length : Nat) ∧ data ≠ [] ∧
          exceeds bodylimit (result ++ data).length = false ∧
          t = data ++ (crlf ++ (body₁ ++ src₁.rest)) ∧
          recvchunks bodylimit n src₁ (result ++ data) (result ++ data).length body₁ =
            .ok (some (result', body'), src')) := by
  rw [recvchunks] at h
  obtain ⟨⟨r, src₁⟩, hsize, h⟩ := bind_ok h
  cases r with
  | none => cases h
  | some line =>
    obtain ⟨sz, body₁⟩ := line
    obtain ⟨line, z, hline, rfl, h₁⟩ := chunksize_ok hsize
    rw [List.append_assoc] at h₁
    refine ⟨line, z, _, hline, h₁.symm, ?_⟩
    by_cases hslip : Slips result.length z
    · exact .inl hslip
    · obtain ⟨hz, hsum, k, rfl⟩ := not_slips_integer hslip
      dsimp only at h
      rw [hz, hsum] at h
      by_cases hk : (k : Int) = 0
      · rw [if_pos hk] at h
        obtain ⟨⟨⟩, rfl⟩ := Prod.mk.inj (Except.ok.inj h)
        exact .inr (.inl ⟨hk, rfl⟩)
      · rw [if_neg hk] at h
        cases hover : exceeds bodylimit (result.length + k) with
        | true =>
          rw [if_pos hover] at h
          cases h
        | false =>
          rw [hover, if_neg Bool.false_ne_true] at h
          obtain ⟨⟨data, body₂, src₂⟩, hdata, h⟩ := bind_ok h
          obtain ⟨⟨next, src₃⟩, hcrlf, h⟩ := bind_ok h
          cases next with
          | none => cases h
          | some body₃ =>
            obtain ⟨rfl, h₂⟩ := chunkdata_ok hdata
            have hne : data ≠ [] := by
              rintro rfl
              exact hk rfl
            have hlen : (result.length : Int) + data.length = (result ++ data).length := by
              rw [List.length_append, Int.natCast_add]
            rw [hlen] at hover
            dsimp only at h
            rw [hlen] at h
            refine .inr (.inr ⟨data, body₃, src₃, rfl, hne, hover, ?_, h⟩)
            rw [← h₂, readcrln_ok hcrlf]

theorem recvchunks_ok (hlimit : exceeds bodylimit result.length = false)
    (h : recvchunks bodylimit n src result result.length body =
      .ok (some (result', body'), src')) :
    ∃ cs line z t, body ++ src.rest = encode cs ++ (line ++ (crlf ++ t)) ∧ Announces line z ∧
      (z = 0 ∧ result' = result ++ contents cs ∧ exceeds bodylimit result'.length = false ∨
        Slips (result ++ contents cs).length z) := by
  induction n generalizing src body result with
  | zero => cases h
  | succ n ih =>
    have hnil : result ++ contents [] = result := List.append_nil _
    obtain ⟨line, z, t, hline, hbytes, hslip | ⟨hz, rfl⟩ | hchunk⟩ := recvchunks_succ_ok h
    · refine ⟨[], line, z, t, hbytes, hline, .inr ?_⟩
      rw [hnil]
      exact hslip
    · exact ⟨[], line, z, t, hbytes, hline, .inl ⟨hz, hnil.symm, hlimit⟩⟩
    · obtain ⟨data, body₁, src₁, rfl, hne, hover, rfl, hrun⟩ := hchunk
      obtain ⟨cs, line', z', t, heq, hline', hor⟩ := ih hover hrun
      refine ⟨⟨line, data, hline, hne⟩ :: cs, line', z', t, ?_, hline', ?_⟩
      · rw [hbytes, heq, encode_cons, Chunk.bytes]
        simp only [List.append_assoc]
      · rw [contents_cons, ← List.append_assoc]
        exact hor

theorem recvchunks_ne_endless {size : Int} (hn : (body ++ src.rest).length < n) :
    recvchunks bodylimit n src result size body ≠ .error .endless := by
  induction n generalizing src body result size with
  | zero => cases hn
  | succ n ih =>
    intro h
    rw [recvchunks] at h
    rcases bind_error h with hsize | ⟨⟨r, src₁⟩, hsize, h⟩
    · exact chunksize_ne_endless (Nat.lt_succ_self _) hsize
    · cases r with
      | none => cases h
      | some line =>
        obtain ⟨sz, body₁⟩ := line
        obtain ⟨line, z, -, -, h₁⟩ := chunksize_ok hsize
        dsimp only at h
        split at h
        · cases h
        · split at h
          · cases h
          · rcases bind_error h with hdata | ⟨⟨data, body₂, src₂⟩, hdata, h⟩
            · exact chunkdata_ne_endless hdata
            · rcases bind_error h with hcrlf | ⟨⟨next, src₃⟩, hcrlf, h⟩
              · exact readcrln_ne_endless hcrlf
              · cases next with
                | none => cases h
                | some body₃ =>
                  dsimp only at hcrlf
                  have h₂ := length_chunkdata_le hdata
                  have h₃ := congrArg List.length (readcrln_ok hcrlf)
                  rw [← h₁] at hn
                  simp only [List.length_append, List.length_cons, List.length_nil] at hn h₂ h₃
                  have hfuel : (body₃ ++ src₃.rest).length < n := by
                    rw [List.length_append]
                    omega
                  exact ih hfuel h

/-! ### The whole body -/

section Body

variable {header : Header} {header' : Option Header}

theorem recvchunkedbody_ne_endless :
    recvchunkedbody src bodylimit header body ≠ .error .endless := by
  intro h
  rw [recvchunkedbody] at h
  rcases bind_error h with hrun | ⟨⟨r, src₁⟩, -, h⟩
  · exact recvchunks_ne_endless (Nat.lt_succ_self _) hrun
  · cases r with
    | none => cases h
    | some chunks =>
      rcases bind_error h with hlast | ⟨⟨r, src₂⟩, -, h⟩
      · exact recvheader_ne_endless hlast
      · cases r with
        | none => cases h
        | some trailer =>
          cases hparse : parseheader trailer.2 1 header with
          | ok header' =>
            simp only [hparse] at h
            cases h
          | error e =>
            simp only [hparse] at h
            cases h
            exact parseLines_ne_endless _ _ _ hparse

theorem exceeds_nil (bodylimit : Option Nat) : exceeds bodylimit ([] : List UInt8).length = false :=
  exceeds_eq_false.mpr fun _ _ => Nat.zero_le _

theorem recvchunks_message (bodylimit : Option Nat) (m : Message) (hm : m.Admitted)
    (h : body ++ src.rest = m.bytes ++ t) :
    ∃ r src', recvchunks bodylimit ((body ++ src.rest).length + 1) src [] 0 body = .ok (r, src') ∧
      if exceeds bodylimit (contents m.chunks).length then r = none
      else ∃ body', r = some (contents m.chunks, body') ∧
        body' ++ src'.rest = trailerBlock m.trailers ++ t := by
  have hfuel : m.chunks.length < (body ++ src.rest).length + 1 := by
    have hle := length_le_encode m.chunks
    have := congrArg List.length h
    simp only [Message.bytes, List.length_append] at this ⊢
    omega
  have hbytes : body ++ src.rest =
      encode m.chunks ++ (m.last ++ (crlf ++ (trailerBlock m.trailers ++ t))) := by
    simp only [h, Message.bytes, List.append_assoc]
  have hfit : ([] : List UInt8).length + (contents m.chunks).length < 2 ^ 63 := by
    rw [List.length_nil, Nat.zero_add]
    exact hm.total
  have hrun := recvchunks_encode hm.chunk_lines m.last_zero hm.last_line hfit hbytes hfuel
    (exceeds_nil bodylimit)
  rwa [List.length_nil, Nat.zero_add, List.nil_append] at hrun

theorem recvchunkedbody_message (m : Message) (hm : m.Admitted)
    (h : body ++ src.rest = m.bytes ++ t) :
    recvchunkedbody src bodylimit header body =
      if exceeds bodylimit (contents m.chunks).length then .ok none
      else (parseheader m.trailers 1 header).map fun header =>
        some (contents m.chunks, header) := by
  obtain ⟨r, src₁, hrun, hr⟩ := recvchunks_message bodylimit m hm h
  rw [recvchunkedbody, hrun, ok_bind]
  split at hr
  · rw [if_pos ‹_›, hr]
  · obtain ⟨body₁, rfl, h₁⟩ := hr
    obtain ⟨body₂, src₂, hlast⟩ := recvheader_trailers [] m.lines hm.block h₁
    rw [if_neg ‹_›]
    dsimp only
    rw [hlast, ok_bind, List.nil_append]

theorem recvchunkedbody_ok
    (h : recvchunkedbody src bodylimit header body = .ok (some (result, header'))) :
    ∃ cs line z t, body ++ src.rest = encode cs ++ (line ++ (crlf ++ t)) ∧ Announces line z ∧
      (z = 0 ∧ result = contents cs ∧ exceeds bodylimit result.length = false ∨
        Slips (contents cs).length z) := by
  rw [recvchunkedbody] at h
  obtain ⟨⟨r, src₁⟩, hrun, h⟩ := bind_ok h
  cases r with
  | none => cases h
  | some chunks =>
    obtain ⟨result₁, body₁⟩ := chunks
    obtain ⟨⟨r, src₂⟩, -, h⟩ := bind_ok h
    cases r with
    | none => cases h
    | some trailer =>
      have hresult : result₁ = result := by
        dsimp only at h
        cases hparse : parseheader trailer.2 1 header with
        | ok header₁ =>
          rw [hparse] at h
          exact congrArg Prod.fst (Option.some.inj (Except.ok.inj h))
        | error e =>
          rw [hparse] at h
          cases h
      exact hresult ▸ recvchunks_ok (exceeds_nil _) hrun

theorem trailer_refused {line : List UInt8}
    (h13 : 13 ∉ line) (hlong : LIMIT ≤ line.length) :
    ∃ m : Message, m.chunks = [] ∧ 48 :: 13 :: 10 :: line ++ [13, 10, 13, 10] = m.bytes ∧
      recvchunkedbody ⟨[13, 10, 13, 10], fun _ => 0⟩ bodylimit header (48 :: 13 :: 10 :: line) =
        .ok none := by
  have hne : line ≠ [] := by
    rintro rfl
    exact absurd hlong (by decide)
  have hlines : Lines [line] := fun l hl => by
    obtain rfl := List.mem_singleton.mp hl
    exact ⟨hne, fun hin => h13 (hin.mem (List.mem_cons_self ..))⟩
  refine ⟨⟨[], [48], [line], ⟨rfl, by decide⟩, hlines⟩, rfl, ?_, ?_⟩
  · simp only [Message.bytes, trailerBlock, encode, List.flatMap_cons, List.flatMap_nil,
      List.append_assoc]
    rfl
  have h48 : ¬ crlf <:+: [48] := by decide
  have hfind : findFirst crlf (48 :: 13 :: 10 :: line) = some 1 :=
    findFirst_eq_some_iff.mpr (firstAt_crlf h48 line)
  have hrun (src : Source) (n : Nat) : recvchunks bodylimit (n + 1) src [] 0
      (48 :: 13 :: 10 :: line) = .ok (some ([], line), src) := by
    rw [recvchunks, chunksize_succ, hfind]
    rfl
  have hsublist {s : List UInt8} (hin : s <:+: line ++ [13]) : s.count 13 ≤ 1 := by
    have := hin.sublist.count_le 13
    rwa [List.count_append, List.count_eq_zero.mpr h13] at this
  have hcrlf : ¬ crlf <+: line ++ [13] := by
    intro hpre
    obtain ⟨c, line, rfl⟩ := List.exists_cons_of_ne_nil hne
    exact h13 ((List.cons_prefix_cons.mp hpre).1 ▸ List.mem_cons_self ..)
  have hlen : LIMIT < (line ++ [13]).length := by
    rw [List.length_append]
    exact Nat.lt_succ_of_le hlong
  have hread : Source.readbytes ⟨[13, 10, 13, 10], fun _ => 0⟩ none =
    .ok ([13], ⟨[10, 13, 10], fun _ => 0⟩) := rfl
  rw [recvchunkedbody, hrun, ok_bind]
  dsimp only
  rw [recvheader_refused hread hlen hcrlf fun hin => absurd (hsublist hin) (by decide)]
  rfl

/-- However the bytes come in, the reader ends; a message within its limits is decoded, or refused
for its size; and what is returned was announced, chunk by chunk, unless a size slips. -/
theorem chunked_bodies_exact (src : Source) (bodylimit : Option Nat) (header : Header)
    (body : List UInt8) :
    recvchunkedbody src bodylimit header body ≠ .error .endless ∧
    (∀ m : Message, m.Admitted → ∀ t, body ++ src.rest = m.bytes ++ t →
      ((∀ l ∈ bodylimit, (contents m.chunks).length ≤ l) →
        recvchunkedbody src bodylimit header body =
          (parseheader m.trailers 1 header).map fun header => some (contents m.chunks, header)) ∧
      ((∃ l ∈ bodylimit, l < (contents m.chunks).length) →
        recvchunkedbody src bodylimit header body = .ok none)) ∧
    ∀ result header', recvchunkedbody src bodylimit header body = .ok (some (result, header')) →
      ∃ cs line z t, body ++ src.rest = encode cs ++ (line ++ (crlf ++ t)) ∧ Announces line z ∧
        (z = 0 ∧ result = contents cs ∧ (∀ l ∈ bodylimit, result.length ≤ l) ∨
          Slips (contents cs).length z) := by
  refine ⟨recvchunkedbody_ne_endless, fun m hm t h => ⟨fun hle => ?_, fun hlt => ?_⟩,
    fun result header' h => ?_⟩
  · rw [recvchunkedbody_message m hm h, exceeds_eq_false.mpr hle, if_neg Bool.false_ne_true]
  · rw [recvchunkedbody_message m hm h, if_pos (exceeds_eq_true.mpr hlt)]
  · obtain ⟨cs, line, z, t, hbytes, hline, ⟨hz, heq, hlimit⟩ | hslip⟩ := recvchunkedbody_ok h
    · exact ⟨cs, line, z, t, hbytes, hline, .inl ⟨hz, heq, exceeds_eq_false.mp hlimit⟩⟩
    · exact ⟨cs, line, z, t, hbytes, hline, .inr hslip⟩

theorem chunked_bodies_exact_hello :
    let rest : List UInt8 :=
      [104, 101, 108, 108, 111, 13, 10, 48, 13, 10, 97, 58, 98, 13, 10, 13, 10, 71]
    (∃ header : Header, header [97] = some (.value [98]) ∧
      recvchunkedbody ⟨rest, fun _ => 0⟩ (some 5) (fun _ => none) [53, 13, 10] =
        .ok (some ([104, 101, 108, 108, 111], some header))) ∧
    recvchunkedbody ⟨rest, fun _ => 0⟩ (some 4) (fun _ => none) [53, 13, 10] = .ok none ∧
    ∃ cs line z t, [53, 13, 10] ++ rest = encode cs ++ (line ++ (crlf ++ t)) ∧ Announces line z ∧
      (z = 0 ∧ [104, 101, 108, 108, 111] = contents cs ∧ (∀ l ∈ some 5, 5 ≤ l) ∨
        Slips (contents cs).length z) := by
  intro rest
  let m : Message := {
    chunks := [⟨[53], [104, 101, 108, 108, 111], ⟨rfl, by decide⟩, nofun⟩]
    last := [48]
    trailers := [[97, 58, 98]]
    last_zero := ⟨rfl, by decide⟩
    lines := fun l hl => by
      obtain rfl := List.mem_singleton.mp hl
      decide }
  have hm : m.Admitted := ⟨fun c hc => by
      obtain rfl := List.mem_singleton.mp hc
      decide, by decide, by decide, by decide⟩
  have hfive : ∀ l ∈ some 5, (contents m.chunks).length ≤ l := by
    rintro l ⟨⟩
    exact Nat.le_refl 5
  have hread : recvchunkedbody ⟨rest, fun _ => 0⟩ (some 5) (fun _ => none) [53, 13, 10] =
      .ok (some ([104, 101, 108, 108, 111],
        some (Function.update (fun _ => none) [97] (some (.value [98]))))) :=
    ((chunked_bodies_exact _ (some 5) _ _).2.1 m hm [71] rfl).1 hfive
  refine ⟨⟨_, rfl, hread⟩, ?_, ?_⟩
  · exact ((chunked_bodies_exact _ (some 4) _ _).2.1 m hm [71] rfl).2 ⟨4, rfl, by decide⟩
  · exact (chunked_bodies_exact _ (some 5) _ _).2.2 _ _ hread

/-- A trailer line over the limit is refused, and a size with a minus sign gives more than is
allowed. -/
theorem chunked_bodies_refused :
    (∃ m : Message, m.chunks = [] ∧
      48 :: 13 :: 10 :: 97 :: 58 :: List.replicate 8192 97 ++ [13, 10, 13, 10] = m.bytes ∧
      recvchunkedbody ⟨[13, 10, 13, 10], fun _ => 0⟩ (some 0) (fun _ => none)
        (48 :: 13 :: 10 :: 97 :: 58 :: List.replicate 8192 97) = .ok none) ∧
    (recvchunkedbody ⟨[], fun _ => 0⟩ (some 0) (fun _ => none)
      [45, 49, 13, 10, 13, 10, 48, 13, 10, 13, 10]).map (Option.map Prod.fst) =
        .ok (some [13, 10, 48, 13, 10, 13, 10]) := by
  refine ⟨trailer_refused ?_ ?_, by decide +kernel⟩
  · simp only [List.mem_cons, List.mem_replicate]
    decide
  · rw [List.length_cons, List.length_cons, List.length_replicate]
    decide

end Body

end XsServer.Http
