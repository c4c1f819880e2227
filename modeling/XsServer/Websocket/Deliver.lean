import XsServer.Websocket.Frame

/-! Which messages the server loop reports as they were sent, and what `M.read` and the close
handler get. -/

namespace XsServer.Websocket

open XsServer.Lib

def Event.message? : Event → Option (List UInt8 × Op)
  | .message payload op => some (payload, op)
  | _ => none

def heard (es : List Event) : List (List UInt8 × Op) := es.filterMap Event.message?

@[simp] theorem heard_append (es es' : List Event) : heard (es ++ es') = heard es ++ heard es' :=
  List.filterMap_append

/-- Frames that complete a message of which pieces were sent before. -/
inductive Unfinished : List (Frame × Bool) → Prop
  | control {fs : List (Frame × Bool)} (c : Control) (h : Unfinished fs) :
    Unfinished (c.frame :: fs)
  | piece {fs : List (Frame × Bool)} (payload : List UInt8) (mask : Bool) (h : Unfinished fs) :
    Unfinished ((⟨false, .frame, payload⟩, mask) :: fs)
  | last (payload : List UInt8) (mask : Bool) (fs : List (Frame × Bool)) :
    Unfinished ((⟨true, .frame, payload⟩, mask) :: fs)

variable {fs : List (Frame × Bool)}

theorem Unfinished.controls (h : Unfinished fs) (cs : List Control) :
    Unfinished (cs.map Control.frame ++ fs) := by
  induction cs with
  | nil => exact h
  | cons c cs ih => exact .control c ih

variable {rest : List (List Control × Piece)}

theorem unfinished_continuation (hrest : rest ≠ [])
    (fs : List (Frame × Bool)) : Unfinished (continuation rest ++ fs) := by
  induction rest with
  | nil => exact absurd rfl hrest
  | cons r rest ih =>
    obtain ⟨cs, p⟩ := r
    rw [continuation, List.append_assoc]
    apply Unfinished.controls
    cases rest with
    | nil => exact .last _ _ _
    | cons r' rest => exact .piece _ _ (ih (List.cons_ne_nil _ _))

/-! ### The server loop -/

theorem react_piece (st : Recv) (payload : List UInt8) (fin : Bool) (op : Op)
    (hop : op = .frame ∨ op = .text ∨ op = .binary) (hbuf : fin = true → st.buf.length ≠ 0) :
    react st ⟨fin, op, payload⟩ =
      if st.count + payload.length > MAX_FRAME_SIZE then
        .error (.error "payload_len is too large")
      else if fin = true then
        .ok (⟨[], 0⟩, [.message (st.buf ++ [payload]).flatten op], false)
      else .ok (⟨st.buf ++ [payload], st.count + payload.length⟩, [], false) := by
  have hfast : ¬ (fin = true ∧ st.buf.length = 0) := fun h => hbuf h.1 h.2
  obtain rfl | rfl | rfl := hop
  all_goals
    simp only [react, if_neg hfast]
    rfl

theorem react_control (st : Recv) (c : Control) :
    ∃ es, react st c.frame.1 = .ok (st, es, false) ∧ heard es = [] := by
  obtain ⟨pong, payload, mask⟩ := c
  cases pong with
  | true | false => exact ⟨_, rfl, rfl⟩

/-- A message in one frame, with control frames before it that are no longer than the limit. -/
def Sent.Whole (m : Sent) : Prop :=
  m.rest = [] ∧ ∀ c ∈ m.before, c.payload.length ≤ MAX_FRAME_SIZE

theorem Sent.op_data (m : Sent) : m.op = .frame ∨ m.op = .text ∨ m.op = .binary := by
  unfold Sent.op
  split
  · exact .inr (.inr rfl)
  · exact .inr (.inl rfl)

theorem react_whole (m : Sent) (payload : List UInt8) :
    react ⟨[], 0⟩ ⟨true, m.op, payload⟩ = .ok (⟨[], 0⟩, [.message payload m.op], false) := by
  unfold Sent.op
  split <;> rfl

section Server

variable {closed : List Event → Bool}

theorem resolveAccept_extends (n : Nat) (st : Recv) (done : List Event) (s : List UInt8) :
    ∃ t, (resolveAccept closed n st done s).1 = done ++ t := by
  induction n generalizing st done s with
  | zero => exact ⟨[], (List.append_nil done).symm⟩
  | succ n ih =>
    unfold resolveAccept
    split
    · exact ⟨_, rfl⟩
    · split
      · exact ⟨[], (List.append_nil done).symm⟩
      · split
        · exact ⟨[], (List.append_nil done).symm⟩
        · split
          · exact ⟨_, rfl⟩
          · obtain ⟨t, ht⟩ := ih ‹_› (done ++ ‹_›) ‹_›
            exact ⟨_, ht.trans (List.append_assoc ..)⟩

variable (hopen : ∀ es, closed es = false)

include hopen

theorem resolveAccept_large {f : Frame} {mask : Bool} {bytes : List UInt8}
    (h : f.Wire mask bytes) (hlen : f.payload.length > MAX_FRAME_SIZE) (n : Nat) (st : Recv)
    (done : List Event) (rest : List UInt8) :
    (resolveAccept closed n st done (bytes ++ rest)).1 = done := by
  cases n with
  | zero => rfl
  | succ n => rw [resolveAccept, hopen, if_neg Bool.false_ne_true, h.read, if_pos ⟨rfl, hlen⟩]

theorem resolveAccept_error {f : Frame} {mask : Bool} {bytes : List UInt8}
    (h : f.Wire mask bytes) {st : Recv} {e : Stop} (hreact : react st f = .error e) (n : Nat)
    (done : List Event) (rest : List UInt8) :
    (resolveAccept closed n st done (bytes ++ rest)).1 = done := by
  have hmax : MAX_FRAME_SIZE < 2 ^ 31 := by decide
  cases n with
  | zero => rfl
  | succ n =>
    by_cases hlen : f.payload.length ≤ MAX_FRAME_SIZE
    · rw [resolveAccept, hopen, if_neg Bool.false_ne_true, h.read, if_neg (by omega),
        if_pos (by omega)]
      simp only [hreact]
    · exact resolveAccept_large hopen h (Nat.lt_of_not_le hlen) _ _ _ _

theorem resolveAccept_frame {f : Frame} {mask : Bool} {bytes : List UInt8}
    (h : f.Wire mask bytes) (hlen : f.payload.length ≤ MAX_FRAME_SIZE) {st st' : Recv}
    {es : List Event} (hreact : react st f = .ok (st', es, false)) (n : Nat) (done : List Event)
    (rest : List UInt8) :
    resolveAccept closed (n + 1) st done (bytes ++ rest) =
      resolveAccept closed n st' (done ++ es) rest := by
  have hmax : MAX_FRAME_SIZE < 2 ^ 31 := by decide
  rw [resolveAccept, hopen, if_neg Bool.false_ne_true, h.read, if_neg (by omega),
    if_pos (by omega)]
  simp only [hreact, Bool.false_eq_true, if_false]

theorem resolveAccept_controls {cs : List Control} {t : List UInt8}
    (h : Wires (cs.map Control.frame) t) (hlen : ∀ c ∈ cs, c.payload.length ≤ MAX_FRAME_SIZE)
    (n : Nat) (st : Recv) (done : List Event) (s : List UInt8) :
    ∃ done', heard done' = heard done ∧
      resolveAccept closed (n + cs.length) st done (t ++ s) =
        resolveAccept closed n st done' s := by
  induction cs generalizing t done with
  | nil =>
    cases h
    exact ⟨done, rfl, rfl⟩
  | cons c cs ih =>
    cases h with
    | cons hf hs =>
      obtain ⟨es, hreact, hes⟩ := react_control st c
      obtain ⟨done', hdone, hloop⟩ := ih hs (fun c' hc' => hlen c' (List.mem_cons_of_mem _ hc'))
        (done ++ es)
      refine ⟨done', by rw [hdone, heard_append, hes, List.append_nil], ?_⟩
      rw [List.append_assoc, List.length_cons, ← Nat.add_assoc,
        resolveAccept_frame hopen hf (hlen c List.mem_cons_self) hreact, hloop]

theorem resolveAccept_long {cs : List Control} {t : List UInt8}
    (h : Wires (cs.map Control.frame) t) (hlen : ¬ ∀ c ∈ cs, c.payload.length ≤ MAX_FRAME_SIZE)
    (n : Nat) (st : Recv) (done : List Event) (s : List UInt8) :
    heard (resolveAccept closed n st done (t ++ s)).1 = heard done := by
  induction cs generalizing t done n with
  | nil => exact absurd (fun _ hc => absurd hc List.not_mem_nil) hlen
  | cons c cs ih =>
    cases h with
    | cons hf hs =>
      rw [List.append_assoc]
      by_cases hc : c.payload.length ≤ MAX_FRAME_SIZE
      · obtain ⟨es, hreact, hes⟩ := react_control st c
        have hrest : ¬ ∀ c' ∈ cs, c'.payload.length ≤ MAX_FRAME_SIZE := fun hall =>
          hlen fun c' hc' => (List.mem_cons.mp hc').elim (fun he => he ▸ hc) (hall c')
        cases n with
        | zero => rfl
        | succ n =>
          rw [resolveAccept_frame hopen hf hc hreact, ih hs hrest, heard_append, hes,
            List.append_nil]
      · rw [resolveAccept_large hopen hf (Nat.lt_of_not_le hc)]

/-- What is reported next while a message has pieces in the buffer, if anything is, comes with the
opcode of a continuation. -/
theorem resolveAccept_unfinished (h : Unfinished fs) {s : List UInt8}
    (hs : Wires fs s) (n : Nat) (st : Recv) (hbuf : st.buf.length ≠ 0) (done : List Event) :
    ∃ t, heard (resolveAccept closed n st done s).1 = heard done ++ t ∧
      ∀ x ∈ t.head?, x.2 = .frame := by
  induction h generalizing s st n done with
  | @control fs c h ih =>
    cases hs with
    | cons hf hs =>
      by_cases hc : c.payload.length ≤ MAX_FRAME_SIZE
      · cases n with
        | zero => exact ⟨[], (List.append_nil _).symm, fun _ hx => by cases hx⟩
        | succ n =>
          obtain ⟨es, hreact, hes⟩ := react_control st c
          obtain ⟨t, ht, hop⟩ := ih hs n st hbuf (done ++ es)
          rw [resolveAccept_frame hopen hf hc hreact, ht, heard_append, hes, List.append_nil]
          exact ⟨t, rfl, hop⟩
      · rw [resolveAccept_large hopen hf (Nat.lt_of_not_le hc)]
        exact ⟨[], (List.append_nil _).symm, fun _ hx => by cases hx⟩
  | @piece fs payload mask h ih =>
    cases hs with
    | cons hf hs =>
      have hreact := react_piece st payload false .frame (.inl rfl) (fun h => by cases h)
      by_cases hlong : st.count + payload.length > MAX_FRAME_SIZE
      · rw [if_pos hlong] at hreact
        rw [resolveAccept_error hopen hf hreact]
        exact ⟨[], (List.append_nil _).symm, fun _ hx => by cases hx⟩
      · rw [if_neg hlong] at hreact
        cases n with
        | zero => exact ⟨[], (List.append_nil _).symm, fun _ hx => by cases hx⟩
        | succ n =>
          have hmore : (st.buf ++ [payload]).length ≠ 0 := by simp
          obtain ⟨t, ht, hop⟩ := ih hs n ⟨st.buf ++ [payload], _⟩ hmore (done ++ [])
          rw [resolveAccept_frame hopen hf (by simp only; omega) hreact, ht, List.append_nil]
          exact ⟨t, rfl, hop⟩
  | last payload mask fs =>
    cases hs with
    | cons hf hs =>
      have hreact := react_piece st payload true .frame (.inl rfl) (fun _ => hbuf)
      by_cases hlong : st.count + payload.length > MAX_FRAME_SIZE
      · rw [if_pos hlong] at hreact
        rw [resolveAccept_error hopen hf hreact]
        exact ⟨[], (List.append_nil _).symm, fun _ hx => by cases hx⟩
      · rw [if_neg hlong] at hreact
        cases n with
        | zero => exact ⟨[], (List.append_nil _).symm, fun _ hx => by cases hx⟩
        | succ n =>
          obtain ⟨t, ht⟩ := @resolveAccept_extends closed n ⟨[], 0⟩
            (done ++ [.message (st.buf ++ [payload]).flatten .frame]) _
          rw [resolveAccept_frame hopen hf (by simp only; omega) hreact, ht, heard_append,
            heard_append, List.append_assoc]
          exact ⟨_, rfl, fun x hx => by cases hx; rfl⟩

theorem resolveAccept_whole {m : Sent} (h : m.Whole) (hlen : m.payload.length ≤ MAX_FRAME_SIZE)
    {t : List UInt8} (ht : Wires m.frames t) (n : Nat) (done : List Event) (s : List UInt8) :
    ∃ done', heard done' = heard done ++ [(m.payload, m.op)] ∧
      resolveAccept closed (n + m.frames.length) ⟨[], 0⟩ done (t ++ s) =
        resolveAccept closed n ⟨[], 0⟩ done' s := by
  obtain ⟨hrest, hcontrols⟩ := h
  have hpayload : m.payload = m.first.payload := by
    rw [Sent.payload, hrest, List.flatMap_nil, List.append_nil]
  have hframes : m.frames =
      m.before.map Control.frame ++ [(⟨true, m.op, m.first.payload⟩, m.first.mask)] := by
    rw [Sent.frames, hrest]
    rfl
  rw [hframes] at ht ⊢
  obtain ⟨t1, t2, ht1, ht2, rfl⟩ := ht.append_inv
  cases ht2 with
  | cons hf hs =>
    cases hs
    obtain ⟨done', hdone, hloop⟩ := resolveAccept_controls hopen ht1 hcontrols (n + 1) ⟨[], 0⟩ done
      (_ ++ s)
    refine ⟨done' ++ [.message m.payload m.op], ?_, ?_⟩
    · rw [heard_append, hdone]
      rfl
    · rw [List.append_nil, List.append_assoc, List.length_append, List.length_map,
        List.length_singleton, Nat.add_comm m.before.length, ← Nat.add_assoc, hloop,
        resolveAccept_frame hopen hf (by rw [← hpayload]; exact hlen) (react_whole m _), hpayload]

theorem resolveAccept_broken {m : Sent} (h : ¬ m.Whole)
    {s : List UInt8} (hs : Wires (m.frames ++ fs) s) {n : Nat} (hn : m.frames.length ≤ n)
    (done : List Event) (t : List (List UInt8 × Op)) :
    heard (resolveAccept closed n ⟨[], 0⟩ done s).1 ≠ heard done ++ (m.payload, m.op) :: t := by
  rw [Sent.frames, List.append_assoc, List.cons_append] at hs
  obtain ⟨t1, t2, ht1, ht2, rfl⟩ := hs.append_inv
  by_cases hcontrols : ∀ c ∈ m.before, c.payload.length ≤ MAX_FRAME_SIZE
  swap
  · rw [resolveAccept_long hopen ht1 hcontrols]
    intro hbad
    simpa using congrArg List.length hbad
  have hrest : m.rest ≠ [] := fun hrest => h ⟨hrest, hcontrols⟩
  have hempty : m.rest.isEmpty = false := by
    rw [List.isEmpty_eq_false_iff]
    exact hrest
  obtain ⟨k, rfl⟩ : ∃ k, n = k + 1 + m.before.length := by
    refine ⟨n - m.before.length - 1, ?_⟩
    rw [Sent.frames, List.length_append, List.length_map, List.length_cons] at hn
    omega
  obtain ⟨done', hdone, hloop⟩ := resolveAccept_controls hopen ht1 hcontrols (k + 1) ⟨[], 0⟩ done t2
  rw [hloop, ← hdone]
  cases ht2 with
  | cons hf hrest' =>
    rw [hempty] at hf
    have hreact := react_piece ⟨[], 0⟩ m.first.payload false m.op m.op_data (fun h => by cases h)
    by_cases hlong : 0 + m.first.payload.length > MAX_FRAME_SIZE
    · rw [if_pos hlong] at hreact
      rw [resolveAccept_error hopen hf hreact]
      intro hbad
      simpa using congrArg List.length hbad
    · rw [if_neg hlong] at hreact
      obtain ⟨t', ht', hop⟩ := resolveAccept_unfinished hopen (unfinished_continuation hrest fs)
        hrest' k ⟨[] ++ [m.first.payload], _⟩ (by simp) (done' ++ [])
      rw [resolveAccept_frame hopen hf (by simp only; omega) hreact, ht', List.append_nil]
      intro hbad
      rw [List.append_cancel_left hbad] at hop
      have hframe : m.op = .frame := hop _ rfl
      unfold Sent.op at hframe
      split at hframe <;> cases hframe

theorem resolveAccept_iff {ms : List Sent} (hlen : ∀ m ∈ ms, m.payload.length ≤ MAX_FRAME_SIZE)
    {s : List UInt8} (hs : Wires (ms.flatMap Sent.frames) s) {n : Nat}
    (hn : (ms.flatMap Sent.frames).length ≤ n) (done : List Event) :
    heard (resolveAccept closed n ⟨[], 0⟩ done s).1 =
        heard done ++ ms.map (fun m => (m.payload, m.op)) ↔
      ∀ m ∈ ms, m.Whole := by
  induction ms generalizing s n done with
  | nil =>
    cases hs
    refine iff_of_true ?_ fun _ hm => by cases hm
    cases n with
    | zero => exact (List.append_nil _).symm
    | succ n =>
      rw [resolveAccept, hopen, if_neg Bool.false_ne_true]
      exact (List.append_nil _).symm
  | cons m ms ih =>
    rw [List.flatMap_cons] at hs hn
    rw [List.length_append] at hn
    rw [List.forall_mem_cons] at hlen ⊢
    by_cases hm : m.Whole
    · obtain ⟨t, t', ht, ht', rfl⟩ := hs.append_inv
      obtain ⟨k, rfl⟩ : ∃ k, n = k + m.frames.length := ⟨n - m.frames.length, by omega⟩
      obtain ⟨done', hdone, hloop⟩ := resolveAccept_whole hopen hm hlen.1 ht k done t'
      have htail := ih hlen.2 ht' (n := k) (by omega) done'
      rw [hdone, List.append_assoc, List.singleton_append] at htail
      rw [hloop, List.map_cons, htail]
      exact (and_iff_right hm).symm
    · refine iff_of_false ?_ fun h => hm h.1
      rw [List.map_cons]
      exact resolveAccept_broken hopen hm hs (by omega) done _

end Server

/-! ### `M.read` -/

section Read

variable {server : Bool}

/-- A frame that the reader takes: it is not too long for a server, nor for an `int`. -/
def Readable (server : Bool) (f : Frame × Bool) : Prop :=
  (server = true → f.1.payload.length ≤ MAX_FRAME_SIZE) ∧ f.1.payload.length < 2 ^ 31

/-- A call of `M.read` that gives no payload. -/
def NoData (r : Except Stop (Option Received × List UInt8)) : Prop :=
  ∀ payload s, r ≠ .ok (some (.data payload), s)

theorem read_readable {f : Frame × Bool} (hf : Readable server f) {bytes : List UInt8}
    (h : f.1.Wire f.2 bytes) (s : List UInt8) : readFrame server (bytes ++ s) = .ok (f.1, s) := by
  rw [h.read, if_neg fun hbad => absurd (hf.1 hbad.1) (Nat.not_le_of_lt hbad.2), if_pos hf.2]

theorem mRead_unreadable {f : Frame × Bool} (hf : ¬ Readable server f) {bytes : List UInt8}
    (h : f.1.Wire f.2 bytes) (n : Nat) (buf : Option (List (List UInt8))) (s : List UInt8) :
    NoData (mRead server n buf (bytes ++ s)) := by
  cases n with
  | zero => exact fun payload s h => by cases h
  | succ n =>
    have herror : ∃ e, readFrame server (bytes ++ s) = .error e := by
      rw [h.read]
      split
      · exact ⟨_, rfl⟩
      · rename_i hserver
        rw [if_neg fun hlt => hf ⟨fun hs => Nat.le_of_not_lt fun hlong => hserver ⟨hs, hlong⟩, hlt⟩]
        exact ⟨_, rfl⟩
    obtain ⟨e, he⟩ := herror
    rw [mRead, he]
    exact fun payload s h => by cases h

theorem mRead_control (c : Control) (hc : Readable server c.frame) {bytes : List UInt8}
    (h : c.frame.1.Wire c.frame.2 bytes) (n : Nat) (buf : Option (List (List UInt8)))
    (s : List UInt8) :
    mRead server (n + 1) buf (bytes ++ s) = mRead server n buf s := by
  rw [mRead, read_readable hc h, ok_bind]
  obtain ⟨pong, payload, mask⟩ := c
  cases pong <;> rfl

theorem mRead_controls {cs : List Control} {t : List UInt8} (h : Wires (cs.map Control.frame) t)
    (hcs : ∀ c ∈ cs, Readable server c.frame) (n : Nat) (buf : Option (List (List UInt8)))
    (s : List UInt8) :
    mRead server (n + cs.length) buf (t ++ s) = mRead server n buf s := by
  induction cs generalizing t with
  | nil =>
    cases h
    rfl
  | cons c cs ih =>
    cases h with
    | cons hf hs =>
      rw [List.append_assoc, List.length_cons, ← Nat.add_assoc,
        mRead_control c (hcs c List.mem_cons_self) hf,
        ih hs fun c' hc' => hcs c' (List.mem_cons_of_mem _ hc')]

theorem mRead_controls_not {cs : List Control} {t : List UInt8}
    (h : Wires (cs.map Control.frame) t) (hcs : ¬ ∀ c ∈ cs, Readable server c.frame) (n : Nat)
    (buf : Option (List (List UInt8))) (s : List UInt8) :
    NoData (mRead server n buf (t ++ s)) := by
  induction cs generalizing t n with
  | nil => exact absurd (fun _ hc => absurd hc List.not_mem_nil) hcs
  | cons c cs ih =>
    cases h with
    | cons hf hs =>
      rw [List.append_assoc]
      by_cases hc : Readable server c.frame
      · cases n with
        | zero => exact fun payload s h => by cases h
        | succ n =>
          rw [mRead_control c hc hf]
          exact ih hs (fun hall => hcs fun c' hc' =>
            (List.mem_cons.mp hc').elim (fun he => he ▸ hc) (hall c')) n
      · exact mRead_unreadable hc hf n buf _

theorem mRead_piece {fin : Bool} {op : Op} {payload : List UInt8} {mask : Bool}
    (hop : op = .frame ∨ op = .text ∨ op = .binary)
    (hf : Readable server (⟨fin, op, payload⟩, mask)) {bytes : List UInt8}
    (h : Frame.Wire ⟨fin, op, payload⟩ mask bytes) (n : Nat) (buf : Option (List (List UInt8)))
    (s : List UInt8) :
    mRead server (n + 1) buf (bytes ++ s) =
      if fin = true then .ok (some (.data (buf.getD [] ++ [payload]).flatten), s)
      else mRead server n (some (buf.getD [] ++ [payload])) s := by
  rw [mRead, read_readable hf h, ok_bind]
  obtain rfl | rfl | rfl := hop
  all_goals
    cases fin with
    | false => rfl
    | true =>
      cases buf with
      | none =>
        simp only [Option.getD_none, List.nil_append, List.flatten_singleton]
        rfl
      | some buf => rfl

theorem mRead_pieces {op : Op}
    (hop : op = .frame ∨ op = .text ∨ op = .binary) {p : Piece} {t : List UInt8}
    (h : Wires ((⟨rest.isEmpty, op, p.payload⟩, p.mask) :: continuation rest) t)
    (hread : ∀ f ∈ (⟨rest.isEmpty, op, p.payload⟩, p.mask) :: continuation rest,
      Readable server f) {n : Nat} (hn : (continuation rest).length < n)
    (buf : Option (List (List UInt8))) (s : List UInt8) :
    mRead server n buf (t ++ s) =
      .ok (some (.data ((buf.getD []).flatten ++
        (p.payload ++ rest.flatMap fun r => r.2.payload))), s) := by
  induction rest generalizing op p t n buf with
  | nil =>
    obtain ⟨n, rfl⟩ : ∃ k, n = k + 1 := ⟨n - 1, by rw [continuation, List.length_nil] at hn; omega⟩
    cases h with
    | cons hf hs =>
      cases hs
      rw [List.append_nil, mRead_piece hop (hread _ List.mem_cons_self) hf,
        if_pos (show List.isEmpty [] = true from rfl), List.flatten_append,
        List.flatten_singleton, List.flatMap_nil, List.append_nil]
  | cons r rest ih =>
    obtain ⟨cs, q⟩ := r
    have hmem : ∀ f ∈ cs.map Control.frame ++
        ((⟨rest.isEmpty, .frame, q.payload⟩, q.mask) :: continuation rest), Readable server f :=
      fun f hf => hread f (List.mem_cons_of_mem _ hf)
    rw [List.forall_mem_append, List.forall_mem_map] at hmem
    rw [continuation, List.length_append, List.length_map, List.length_cons] at hn
    obtain ⟨n, rfl⟩ : ∃ k, n = k + cs.length + 1 := ⟨n - cs.length - 1, by omega⟩
    cases h with
    | cons hf hs =>
      obtain ⟨t1, t2, ht1, ht2, rfl⟩ := hs.append_inv
      rw [List.append_assoc, mRead_piece hop (hread _ List.mem_cons_self) hf,
        if_neg (show ¬ List.isEmpty ((cs, q) :: rest) = true from Bool.false_ne_true),
        List.append_assoc, mRead_controls ht1 hmem.1,
        ih (.inl rfl) ht2 hmem.2 (by omega) (some (buf.getD [] ++ [p.payload]))]
      simp only [Option.getD_some, List.flatten_append, List.flatten_singleton,
        List.append_assoc, List.flatMap_cons]

theorem mRead_pieces_not {op : Op}
    (hop : op = .frame ∨ op = .text ∨ op = .binary) {p : Piece} {t : List UInt8}
    (h : Wires ((⟨rest.isEmpty, op, p.payload⟩, p.mask) :: continuation rest) t)
    (hread : ¬ ∀ f ∈ (⟨rest.isEmpty, op, p.payload⟩, p.mask) :: continuation rest,
      Readable server f) {n : Nat} (hn : (continuation rest).length < n)
    (buf : Option (List (List UInt8))) (s : List UInt8) :
    NoData (mRead server n buf (t ++ s)) := by
  rw [List.forall_mem_cons] at hread
  obtain ⟨n, rfl⟩ : ∃ k, n = k + 1 := ⟨n - 1, by omega⟩
  induction rest generalizing op p t n buf with
  | nil =>
    cases h with
    | cons hf hs =>
      cases hs
      rw [List.append_nil]
      exact mRead_unreadable (fun hp => hread ⟨hp, fun _ hf => by cases hf⟩) hf _ _ _
  | cons r rest ih =>
    obtain ⟨cs, q⟩ := r
    rw [continuation, List.length_append, List.length_map, List.length_cons] at hn
    cases h with
    | cons hf hs =>
      rw [List.append_assoc]
      by_cases hp : Readable server (⟨List.isEmpty ((cs, q) :: rest), op, p.payload⟩, p.mask)
      swap
      · exact mRead_unreadable hp hf _ _ _
      obtain ⟨t1, t2, ht1, ht2, rfl⟩ := hs.append_inv
      rw [mRead_piece hop hp hf,
        if_neg (show ¬ List.isEmpty ((cs, q) :: rest) = true from Bool.false_ne_true),
        List.append_assoc]
      by_cases hcs : ∀ c ∈ cs, Readable server c.frame
      swap
      · exact mRead_controls_not ht1 hcs _ _ _
      obtain ⟨k, rfl⟩ : ∃ k, n = k + 1 + cs.length := ⟨n - cs.length - 1, by omega⟩
      rw [mRead_controls ht1 hcs]
      rw [continuation, List.forall_mem_append, List.forall_mem_map, List.forall_mem_cons] at hread
      exact ih (.inl rfl) ht2 (fun hall => hread ⟨hp, hcs, hall⟩)
        (some (buf.getD [] ++ [p.payload])) k (by omega)

def Sent.Readable (server : Bool) (m : Sent) : Prop := ∀ f ∈ m.frames, Websocket.Readable server f

theorem mRead_sent {m : Sent} (hm : m.Readable server) {t : List UInt8} (h : Wires m.frames t)
    {n : Nat} (hn : m.frames.length ≤ n) (s : List UInt8) :
    mRead server n none (t ++ s) = .ok (some (.data m.payload), s) := by
  rw [Sent.Readable, Sent.frames, List.forall_mem_append, List.forall_mem_map] at hm
  rw [Sent.frames, List.length_append, List.length_map, List.length_cons] at hn
  obtain ⟨t1, t2, ht1, ht2, rfl⟩ := h.append_inv
  obtain ⟨k, rfl⟩ : ∃ k, n = k + m.before.length := ⟨n - m.before.length, by omega⟩
  rw [List.append_assoc, mRead_controls ht1 hm.1, mRead_pieces m.op_data ht2 hm.2 (by omega)]
  rfl

theorem mRead_sent_not {m : Sent} (hm : ¬ m.Readable server) {t : List UInt8}
    (h : Wires m.frames t) {n : Nat} (hn : m.frames.length ≤ n) (s : List UInt8) :
    NoData (mRead server n none (t ++ s)) := by
  rw [Sent.Readable, Sent.frames, List.forall_mem_append, List.forall_mem_map] at hm
  rw [Sent.frames, List.length_append, List.length_map, List.length_cons] at hn
  obtain ⟨t1, t2, ht1, ht2, rfl⟩ := h.append_inv
  rw [List.append_assoc]
  by_cases hcs : ∀ c ∈ m.before, Websocket.Readable server c.frame
  swap
  · exact mRead_controls_not ht1 hcs _ _ _
  obtain ⟨k, rfl⟩ : ∃ k, n = k + m.before.length := ⟨n - m.before.length, by omega⟩
  rw [mRead_controls ht1 hcs]
  exact mRead_pieces_not m.op_data ht2 (fun hall => hm ⟨hcs, hall⟩) (by omega) _ _

theorem mReads_iff {ms : List Sent} {s : List UInt8} (hs : Wires (ms.flatMap Sent.frames) s)
    {n : Nat} (hn : (ms.flatMap Sent.frames).length ≤ n) :
    mReads server n ms.length s = ms.map Sent.payload ↔ ∀ m ∈ ms, m.Readable server := by
  induction ms generalizing s with
  | nil => exact iff_of_true rfl fun _ hm => by cases hm
  | cons m ms ih =>
    rw [List.flatMap_cons] at hs hn
    rw [List.length_append] at hn
    obtain ⟨t, t', ht, ht', rfl⟩ := hs.append_inv
    rw [List.forall_mem_cons, List.length_cons, List.map_cons, mReads]
    by_cases hm : m.Readable server
    · rw [mRead_sent hm ht (by omega)]
      simp only [List.cons.injEq, true_and, hm, ih ht' (by omega)]
    · refine iff_of_false (fun hbad => ?_) fun h => hm h.1
      split at hbad
      case h_1 payload s' hdata => exact mRead_sent_not hm ht (by omega) t' payload s' hdata
      case h_2 => cases hbad

end Read

/-- Exactly the reasons that are not empty, and not too long for a frame, are reported with their
code. -/
theorem close_iff {closed : List Event → Bool} (hopen : ∀ es, closed es = false) (code : UInt16)
    {reason : List UInt8} (hlen : reason.length + 2 < 2 ^ 63) (n : Nat) (st : Recv)
    (done : List Event) (s : List UInt8) :
    ∃ bytes, mClose (some code) (some reason) = .ok bytes ∧
      (.close (some code.toNat) (some reason) ∈
          ((resolveAccept closed (n + 1) st done (bytes ++ s)).1.drop done.length) ↔
        reason ≠ [] ∧ reason.length + 2 ≤ MAX_FRAME_SIZE) := by
  have hpayload : (Bytes.be 2 code.toNat ++ reason).length = reason.length + 2 := by
    rw [List.length_append, Bytes.be_length, Nat.add_comm]
  have hwrite := writeFrame_wire .close (Bytes.be 2 code.toNat ++ reason) none
    (by rw [hpayload]; exact hlen)
  rw [if_neg fun h => Bool.false_ne_true h.1] at hwrite
  obtain ⟨bytes, hbytes, hwire⟩ := hwrite
  refine ⟨bytes, hbytes, ?_⟩
  by_cases hlong : reason.length + 2 ≤ MAX_FRAME_SIZE
  swap
  · rw [resolveAccept_large hopen hwire (by simp only; omega), List.drop_length]
    exact iff_of_false List.not_mem_nil fun h => hlong h.2
  have hmax : MAX_FRAME_SIZE < 2 ^ 31 := by decide
  have hreact : react st ⟨true, .close, Bytes.be 2 code.toNat ++ reason⟩ =
      .ok (st, [.write [0x88, 0x00], .close (readClose (Bytes.be 2 code.toNat ++ reason)).1
        (readClose (Bytes.be 2 code.toNat ++ reason)).2], true) := rfl
  rw [resolveAccept, hopen, if_neg Bool.false_ne_true, hwire.read,
    if_neg fun h => Nat.not_le_of_lt h.2 (hpayload.trans_le hlong),
    if_pos (by simp only [hpayload]; omega)]
  simp only [hreact, if_true, List.drop_left, List.mem_cons, List.not_mem_nil, or_false,
    reduceCtorEq, false_or, Event.close.injEq, hlong, and_true]
  rw [readClose, hpayload]
  by_cases hreason : reason = []
  · subst hreason
    exact iff_of_false (fun h => by cases h.1) fun h => h rfl
  · have hpos := List.length_pos_of_ne_nil hreason
    have hcode : Bytes.ofBe (Bytes.be 2 code.toNat) = code.toNat := by
      rw [Bytes.ofBe_be, Nat.mod_eq_of_lt (by exact code.toNat_lt)]
    rw [if_pos (by omega), List.take_left' (Bytes.be_length ..),
      List.drop_left' (Bytes.be_length ..), hcode]
    exact iff_of_true ⟨rfl, rfl⟩ hreason

/-- What `write_frame` writes is a frame on the wire unless it has to mask too much.  Messages of at
most 256K are reported by the server as they were sent exactly when each comes in one frame, and no
control frame is too long; `M.read` gives the payloads exactly when no frame is too long; a
close frame is reported with its code and reason exactly when the reason is not empty, and not too
long. -/
theorem websocket_iff {closed : List Event → Bool} (hopen : ∀ es, closed es = false)
    {toServer toClient : List Sent} {s s' : List UInt8}
    (hs : Wires (toServer.flatMap Sent.frames) s) (hs' : Wires (toClient.flatMap Sent.frames) s')
    (hlen : ∀ m ∈ toServer, m.payload.length ≤ MAX_FRAME_SIZE) {rounds : Nat}
    (hn : (toServer.flatMap Sent.frames).length ≤ rounds)
    (hn' : (toClient.flatMap Sent.frames).length ≤ rounds) (code : UInt16) {reason : List UInt8}
    (hreason : reason.length + 2 < 2 ^ 63) (st : Recv) (done : List Event) (s'' : List UInt8) :
    (∀ (op : Op) (payload : List UInt8) (maskingKey : Option UInt32), payload.length < 2 ^ 63 →
      ((∃ bytes, writeFrame op payload maskingKey = .ok bytes ∧
          Frame.Wire ⟨true, op, payload⟩ maskingKey.isSome bytes) ↔
        (maskingKey.isSome = true → payload.length < 2 ^ 31))) ∧
    ((heard (resolveAccept closed rounds ⟨[], 0⟩ [] s).1 =
          toServer.map (fun m => (m.payload, m.op)) ∧
        mReads false rounds toClient.length s' = toClient.map Sent.payload ∧
        ∃ bytes, mClose (some code) (some reason) = .ok bytes ∧
          .close (some code.toNat) (some reason) ∈
            (resolveAccept closed (rounds + 1) st done (bytes ++ s'')).1.drop done.length) ↔
      (∀ m ∈ toServer, m.Whole) ∧ (∀ m ∈ toClient, m.Readable false) ∧
        reason ≠ [] ∧ reason.length + 2 ≤ MAX_FRAME_SIZE) := by
  constructor
  · intro op payload maskingKey hlen
    have hwrite := writeFrame_wire op payload maskingKey hlen
    split at hwrite
    case isTrue hlong =>
      refine iff_of_false ?_ fun h => Nat.not_le_of_lt (h hlong.1) hlong.2
      rintro ⟨bytes, hbytes, -⟩
      rw [hwrite] at hbytes
      cases hbytes
    case isFalse hshort =>
      exact iff_of_true hwrite fun hm => Nat.lt_of_not_le fun hlong => hshort ⟨hm, hlong⟩
  · have hserver := resolveAccept_iff hopen hlen hs hn []
    obtain ⟨bytes, hbytes, hclose⟩ := close_iff hopen code hreason rounds st done s''
    have hwritten : (∃ bytes, mClose (some code) (some reason) = .ok bytes ∧
        .close (some code.toNat) (some reason) ∈
          (resolveAccept closed (rounds + 1) st done (bytes ++ s'')).1.drop done.length) ↔
        reason ≠ [] ∧ reason.length + 2 ≤ MAX_FRAME_SIZE := by
      rw [← hclose]
      constructor
      · rintro ⟨bytes', hbytes', hmem⟩
        rw [hbytes] at hbytes'
        cases hbytes'
        exact hmem
      · exact fun hmem => ⟨bytes, hbytes, hmem⟩
    exact and_congr hserver (and_congr (mReads_iff hs' hn') hwritten)

theorem wires_short (fs : List Frame) (h : ∀ f ∈ fs, f.payload.length < 126) :
    Wires (fs.map (·, false)) (fs.flatMap fun f =>
      [firstByte f.fin f.op, secondByte false (UInt8.ofNat f.payload.length)] ++ f.payload) := by
  induction fs with
  | nil => exact .nil
  | cons f fs ih =>
    rw [List.forall_mem_cons] at h
    exact .cons (.plain (.short h.1)) (ih h.2)

def single : List Sent := [⟨false, [], ⟨[97], false⟩, []⟩]

theorem wires_single : Wires (single.flatMap Sent.frames) [0x81, 0x01, 97] :=
  wires_short [⟨true, .text, [97]⟩] (by decide)

theorem websocket_iff_single :
    heard (resolveAccept (fun _ => false) 1 ⟨[], 0⟩ [] [0x81, 0x01, 97]).1 = [([97], .text)] ∧
      mReads false 1 1 [0x81, 0x01, 97] = [[97]] := by
  have hopen : ∀ es : List Event, (fun _ => false) es = false := fun _ => rfl
  have hreason : ([98] : List UInt8).length + 2 < 2 ^ 63 := by decide
  have h := (websocket_iff hopen wires_single wires_single (by decide) (by decide : 1 ≤ 1)
    (by decide : 1 ≤ 1) 1000 hreason ⟨[], 0⟩ [] []).2.mpr ⟨?_, ?_, by decide, by decide⟩
  · exact ⟨h.1, h.2.1⟩
  · intro m hm
    rw [List.mem_singleton.mp hm]
    exact ⟨rfl, fun _ hc => by cases hc⟩
  · intro m hm f hf
    rw [List.mem_singleton.mp hm] at hf
    rw [List.mem_singleton.mp hf]
    exact ⟨fun _ => by decide, by decide⟩

/-- A text in two pieces is reported with the opcode of the last frame, and a close frame without a
reason is reported without its code. -/
theorem fragments_misreported :
    Wires (Sent.frames ⟨false, [], ⟨[97], false⟩, [([], ⟨[98], false⟩)]⟩)
        [0x01, 0x01, 97, 0x80, 0x01, 98] ∧
      heard (resolveAccept (fun _ => false) 2 ⟨[], 0⟩ [] [0x01, 0x01, 97, 0x80, 0x01, 98]).1 =
        [([97, 98], .frame)] ∧
      mClose (some 1000) (some []) = .ok [0x88, 0x02, 0x03, 0xe8] ∧
      (resolveAccept (fun _ => false) 1 ⟨[], 0⟩ [] [0x88, 0x02, 0x03, 0xe8]).1 =
        [.write [0x88, 0x00], .close none none] :=
  ⟨wires_short [⟨false, .text, [97]⟩, ⟨true, .frame, [98]⟩] (by decide), by decide, by decide,
    by decide⟩

end XsServer.Websocket
