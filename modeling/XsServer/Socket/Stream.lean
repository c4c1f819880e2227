import XsServer.Socket.Reads

/-! The strings that the reading functions return are the stream of the socket, and a reader that
waits is woken exactly when what it waits for has come, as long as no reading function has to wait
once `socket.close` was called. -/

namespace XsServer.Socket

open XsServer.Lib XsServer.ServiceGate

/-- The sizes of a call are the same as `int`s. -/
def Call.Fits : Call → Prop
  | .read sz => IntSize sz
  | .readline sep => sep.length ≤ INT_MAX
  | .readSome | .readall | .block => True

def State.Ready (st : State) (call : Call) : Prop :=
  if call = .block then st.pool = false ∨ st.s.connected = false
  else st.pool = true ∧ st.Woken call 0

/-- The bytes of the buffer can be counted in an `int`, and a call behind `close` does not wait. -/
def State.Clear (st : State) : Event → Prop
  | .data bs => st.s.buffer.unread.length + bs.length ≤ INT_MAX
  | .call call => call.Fits ∧ (st.closeCalled = true → st.Ready call)
  | .close | .error | .run _ | .pause | .callClose | .resume => True

/-- No coroutine waits in a reading function. -/
def State.NoReader (st : State) : Prop := ∀ co call n, st.frames co ≠ some (.reading call n)

/-- What a frame whose coroutine is `s.co` says about the socket. -/
def Frame.Waits (s : SocketObject) : Frame → Prop
  | .reading call n => s.readRequired = call.required ∧ ¬ call.Present s.buffer.unread n ∧
      n ≤ s.buffer.unread.length
  | .closeSuspend => s.readRequired = .none
  | .closeWait => False

def Frame.Closes : Frame → Prop
  | .reading _ _ => False
  | .closeSuspend | .closeWait => True

def ReadRequired.Valid : ReadRequired → Prop
  | .sep rr => rr ≠ [] ∧ rr.length ≤ INT_MAX
  | .none | .size _ | .all => True

/-- Why a reader in the queue was woken: what it waits for is there, or the stream ended without
it, and may be dropped since. -/
def State.Ended (recv ret : List UInt8) (st : State) (call : Call) (n : Nat) : Prop :=
  (st.s.connected = true ∧ call.Present st.s.buffer.unread n) ∨
    (st.pool = true ∧ st.s.connected = false ∧ ¬ call.Present st.s.buffer.unread n) ∨
    (st.pool = false ∧ st.s.connected = false ∧
      ∀ sz, call = .read sz → recv.length < ret.length + sz)

structure State.Inv (recv ret : List UInt8) (st : State) : Prop where
  sound : st.s.buffer.Sound
  stream : st.pool = true → recv = ret ++ st.s.buffer.unread
  isPrefix : ret <+: recv
  gone : st.pool = false →
    st.closeCalled = true ∧ st.s.connected = false ∧ st.s.buffer.unread = []
  required : st.s.readRequired.Valid
  running : ∀ co, st.running = some co → st.frames co = none
  tokens : ∀ co ∈ st.queue, st.frames co ≠ none
  nodup : st.queue.Nodup
  waiting : ∀ co, st.s.co = some co → co ∉ st.queue ∧ st.s.connected = true ∧
    ∃ f, st.frames co = some f ∧ f.Waits st.s
  idle : st.s.co = none → st.s.connected = true → st.s.readRequired = .none
  reader : ∀ co call n, st.frames co = some (.reading call n) →
    call.Valid ∧ call.Fits ∧ (st.s.co = some co ∨ co ∈ st.queue)
  queued : ∀ co call n, st.frames co = some (.reading call n) → co ∈ st.queue →
    st.Ended recv ret call n
  one : ∀ co co' call call' n n', st.frames co = some (.reading call n) →
    st.frames co' = some (.reading call' n') → co = co'
  closing : ∀ c, st.s.closing = some c →
    st.closeCalled = true ∧ (st.frames c = some .closeWait ∨ st.NoReader)
  closers : ∀ c f, st.frames c = some f → f.Closes →
    st.closeCalled = true ∧ (c ∈ st.queue → st.NoReader) ∧
      (f = .closeSuspend → st.s.closing = none) ∧
      ∀ c' f', st.frames c' = some f' → f'.Closes → c' = c

variable {recv ret bs x : List UInt8} {st : State} {b : SocketBuffer} {co : Nat} {call : Call}
  {f : Frame} {n : Nat}

theorem inv_connected : State.connected.Inv [] [] where
  sound := sound_new
  stream _ := rfl
  isPrefix := List.prefix_refl _
  gone h := by cases h
  required := trivial
  running _ h := by cases h
  tokens _ h := by cases h
  nodup := List.nodup_nil
  waiting _ h := by cases h
  idle _ _ := rfl
  reader _ _ _ h := by cases h
  queued _ _ _ h := by cases h
  one _ _ _ _ _ _ h := by cases h
  closing _ h := by cases h
  closers _ _ h := by cases h

theorem State.Inv.take (h : st.Inv recv ret) (hno : st.NoReader) (hb : b.Sound)
    (hx : st.s.buffer.unread = x ++ b.unread) : (st.setBuffer b).Inv recv (ret ++ x) where
  sound := hb
  stream hp := by
    rw [h.stream hp, hx, List.append_assoc]
    rfl
  isPrefix := by
    cases hp : st.pool with
    | true =>
      rw [h.stream hp, hx, ← List.append_assoc]
      exact List.prefix_append _ _
    | false =>
      have hnil : x = [] := (List.append_eq_nil_iff.mp (hx ▸ (h.gone hp).2.2)).1
      rw [hnil, List.append_nil]
      exact h.isPrefix
  gone hp := by
    obtain ⟨hcalled, hconn, hnil⟩ := h.gone hp
    exact ⟨hcalled, hconn, (List.append_eq_nil_iff.mp (hx ▸ hnil)).2⟩
  required := h.required
  running := h.running
  tokens := h.tokens
  nodup := h.nodup
  waiting c hc := by
    obtain ⟨hq, hconn, f, hf, hwaits⟩ := h.waiting c hc
    refine ⟨hq, hconn, f, hf, ?_⟩
    cases f with
    | reading call n => exact absurd hf (hno c call n)
    | closeSuspend | closeWait => exact hwaits
  idle := h.idle
  reader c call n hc := absurd hc (hno c call n)
  queued c call n hc := absurd hc (hno c call n)
  one c _ call _ n _ hc := absurd hc (hno c call n)
  closing := h.closing
  closers := h.closers

theorem State.Inv.push (h : st.Inv recv ret) (hp : st.pool = true) (hq : st.queue = [])
    (hb : b.Sound) (hu : b.unread = st.s.buffer.unread ++ bs)
    (hw : ∀ co call n, st.frames co = some (.reading call n) → ¬ call.Present b.unread n) :
    (st.setBuffer b).Inv (recv ++ bs) ret where
  sound := hb
  stream _ := by
    change _ = _ ++ b.unread
    rw [h.stream hp, hu, List.append_assoc]
  isPrefix := h.isPrefix.trans (List.prefix_append _ _)
  gone hgone := by
    change st.pool = false at hgone
    rw [hp] at hgone
    cases hgone
  required := h.required
  running := h.running
  tokens := h.tokens
  nodup := h.nodup
  waiting c hc := by
    obtain ⟨hnq, hconn, f, hf, hwaits⟩ := h.waiting c hc
    refine ⟨hnq, hconn, f, hf, ?_⟩
    cases f with
    | reading call n =>
      refine ⟨hwaits.1, hw c call n hf, hwaits.2.2.trans ?_⟩
      change _ ≤ b.unread.length
      rw [hu, List.length_append]
      exact Nat.le_add_right _ _
    | closeSuspend | closeWait => exact hwaits
  idle := h.idle
  reader := h.reader
  queued c call n _ hc := by
    change c ∈ st.queue at hc
    rw [hq] at hc
    cases hc
  one := h.one
  closing := h.closing
  closers := h.closers

/-! ### Waits and wakeups -/

theorem State.wakeup_none (st : State) (h : st.s.co = none) : st.wakeup = st := by
  rw [State.wakeup, h]

theorem State.wakeup_some (st : State) (h : st.s.co = some co) (hf : st.frames co = some f) :
    st.wakeup = { st with s := { st.s with co := none }, queue := st.queue ++ [co] } := by
  have hsome : (st.frames co).isSome = true := by rw [hf]; rfl
  rw [State.wakeup, h]
  exact if_pos hsome

theorem State.Inv.co_of_reader (h : st.Inv recv ret) (hf : st.frames co = some (.reading call n))
    (hq : st.queue = []) : st.s.co = some co := by
  rcases (h.reader co call n hf).2.2 with hco | hmem
  · exact hco
  · rw [hq] at hmem
    cases hmem

theorem State.Inv.wake (h : st.Inv recv ret) (hp : st.pool = true) (hq : st.queue = [])
    (hb : b.Sound) (hu : b.unread = st.s.buffer.unread ++ bs) {r : ReadRequired} {c : Bool}
    (hr : r.Valid) (hc : c = true → r = .none)
    (hw : ∀ co call n, st.frames co = some (.reading call n) →
      (c = true ∧ call.Present b.unread n) ∨ (c = false ∧ ¬ call.Present b.unread n)) :
    ({ st with s := { st.s with buffer := b, readRequired := r, connected := c } }).wakeup.Inv
      (recv ++ bs) ret := by
  have hstream : recv ++ bs = ret ++ b.unread := by
    rw [h.stream hp, hu, List.append_assoc]
  have hpre : ret <+: recv ++ bs := hstream ▸ List.prefix_append _ _
  have hpool {q : Prop} (hgone : st.pool = false) : q := by
    rw [hp] at hgone
    cases hgone
  have hreader : ∀ co call n, st.frames co = some (.reading call n) → st.s.co = some co :=
    fun co call n hf => h.co_of_reader hf hq
  cases hco : st.s.co with
  | none =>
    have hno : st.NoReader := fun co call n hf => by
      rw [hreader co call n hf] at hco
      cases hco
    rw [State.wakeup_none { st with s := { st.s with
      buffer := b, readRequired := r, connected := c } } hco]
    exact {
      sound := hb
      stream _ := hstream
      isPrefix := hpre
      gone := hpool
      required := hr
      running := h.running
      tokens := h.tokens
      nodup := h.nodup
      waiting c' hc' := by
        change st.s.co = some c' at hc'
        rw [hco] at hc'
        cases hc'
      idle _ hconn := hc hconn
      reader c' call n hf := absurd hf (hno c' call n)
      queued c' call n hf := absurd hf (hno c' call n)
      one := h.one
      closing := h.closing
      closers := h.closers }
  | some co =>
    obtain ⟨-, -, f, hf, -⟩ := h.waiting co hco
    have honly : ∀ c' call n, st.frames c' = some (.reading call n) → c' = co :=
      fun c' call n hf' => by
        have := hreader c' call n hf'
        rw [hco] at this
        exact (Option.some.inj this).symm
    rw [State.wakeup_some { st with s := { st.s with
      buffer := b, readRequired := r, connected := c } } hco hf]
    exact {
      sound := hb
      stream _ := hstream
      isPrefix := hpre
      gone := hpool
      required := hr
      running := h.running
      tokens c' hc' := by
        change c' ∈ st.queue ++ [co] at hc'
        rw [hq] at hc'
        rw [List.mem_singleton.mp hc', hf]
        exact Option.some_ne_none f
      nodup := by
        change (st.queue ++ [co]).Nodup
        rw [hq]
        exact List.pairwise_singleton _ co
      waiting c' hc' := by cases hc'
      idle _ hconn := hc hconn
      reader c' call n hf' := by
        obtain ⟨hvalid, hfits, -⟩ := h.reader c' call n hf'
        refine ⟨hvalid, hfits, Or.inr ?_⟩
        rw [honly c' call n hf']
        exact List.mem_append_right _ (List.mem_singleton_self co)
      queued c' call n hf' _ := by
        rcases hw c' call n hf' with ⟨hconn, hpres⟩ | ⟨hconn, habs⟩
        · exact Or.inl ⟨hconn, hpres⟩
        · exact Or.inr (Or.inl ⟨hp, hconn, habs⟩)
      one := h.one
      closing := h.closing
      closers c' f' hf' hcl := by
        obtain ⟨hcalled, -, hsus, hone⟩ := h.closers c' f' hf' hcl
        refine ⟨hcalled, fun hmem => ?_, hsus, hone⟩
        -- the closing coroutine is the one that is woken
        change c' ∈ st.queue ++ [co] at hmem
        rw [hq] at hmem
        have heq := List.mem_singleton.mp hmem
        intro c'' call n hread
        have := honly c'' call n hread
        rw [this, ← heq, hf'] at hread
        cases hread
        exact hcl }

theorem State.Inv.unqueue (h : st.Inv recv ret) {q : List Nat} (hq : st.queue = co :: q)
    (hf : st.frames co = some f) :
    ({ st with queue := q, running := some co,
               frames := Function.update st.frames co none } : State).Inv recv ret := by
  have hmem : co ∈ st.queue := hq ▸ List.mem_cons_self ..
  have hnodup := hq ▸ h.nodup
  have hsub : ∀ c ∈ q, c ∈ st.queue := fun c hc => hq ▸ List.mem_cons_of_mem _ hc
  have hne : ∀ c ∈ q, c ≠ co := fun c hc heq => (List.nodup_cons.mp hnodup).1 (heq ▸ hc)
  have hframe : ∀ {c g}, Function.update st.frames co none c = some g →
      st.frames c = some g ∧ c ≠ co := by
    intro c g hc
    by_cases heq : c = co
    · rw [heq, Function.update_self] at hc
      cases hc
    · rw [Function.update_of_ne heq] at hc
      exact ⟨hc, heq⟩
  have hno : st.NoReader → ∀ c call n,
      Function.update st.frames co none c ≠ some (.reading call n) :=
    fun hno c call n hc => hno c call n (hframe hc).1
  exact {
    sound := h.sound
    stream := h.stream
    isPrefix := h.isPrefix
    gone := h.gone
    required := h.required
    running c hc := by
      cases hc
      exact Function.update_self ..
    tokens c hc := by
      change Function.update st.frames co none c ≠ none
      rw [Function.update_of_ne (hne c hc)]
      exact h.tokens c (hsub c hc)
    nodup := (List.nodup_cons.mp hnodup).2
    waiting c hc := by
      obtain ⟨hnq, hconn, g, hg, hwaits⟩ := h.waiting c hc
      refine ⟨fun hcq => hnq (hsub c hcq), hconn, g, ?_, hwaits⟩
      change Function.update st.frames co none c = some g
      have hne : c ≠ co := by
        rintro rfl
        exact hnq hmem
      rw [Function.update_of_ne hne]
      exact hg
    idle := h.idle
    reader c call n hc := by
      obtain ⟨hvalid, hfits, hwhere⟩ := h.reader c call n (hframe hc).1
      refine ⟨hvalid, hfits, hwhere.imp_right fun hcq => ?_⟩
      rw [hq] at hcq
      exact (List.mem_cons.mp hcq).resolve_left (hframe hc).2
    queued c call n hc hcq := h.queued c call n (hframe hc).1 (hsub c hcq)
    one c c' call call' n n' hc hc' := h.one c c' call call' n n' (hframe hc).1 (hframe hc').1
    closing c hc := by
      obtain ⟨hcalled, hwhere⟩ := h.closing c hc
      refine ⟨hcalled, ?_⟩
      rcases hwhere with hwait | hnone
      · by_cases heq : c = co
        · subst heq
          exact Or.inr (hno ((h.closers c _ hwait trivial).2.1 hmem))
        · refine Or.inl ?_
          change Function.update st.frames co none c = _
          rw [Function.update_of_ne heq]
          exact hwait
      · exact Or.inr (hno hnone)
    closers c g hc hcl := by
      obtain ⟨hcalled, hnone, hsus, hone⟩ := h.closers c g (hframe hc).1 hcl
      exact ⟨hcalled, fun hcq => hno (hnone (hsub c hcq)), hsus,
        fun c' g' hc' => hone c' g' (hframe hc').1⟩ }

theorem State.Inv.suspended (h : st.Inv recv ret) (hno : st.NoReader)
    (hc : ∀ c, st.s.closing = some c → c ∉ st.queue) : st.suspended.Inv recv ret := by
  unfold State.suspended
  cases hclosing : st.s.closing with
  | none => exact h
  | some c =>
    change (st.skynetWakeup c).Inv recv ret
    unfold State.skynetWakeup
    by_cases hsome : (st.frames c).isSome = true
    · rw [if_pos hsome]
      exact {
        sound := h.sound
        stream := h.stream
        isPrefix := h.isPrefix
        gone := h.gone
        required := h.required
        running := h.running
        tokens c' hc' := by
          rcases List.mem_append.mp hc' with hc' | hc'
          · exact h.tokens c' hc'
          · rw [List.mem_singleton.mp hc']
            exact Option.isSome_iff_ne_none.mp hsome
        nodup := by
          refine List.nodup_append.mpr
            ⟨h.nodup, List.pairwise_singleton _ c, fun a ha b hb heq => ?_⟩
          rw [List.mem_singleton.mp hb] at heq
          exact hc c hclosing (heq ▸ ha)
        waiting c' hc' := by
          obtain ⟨hnq, hconn, f, hf, hwaits⟩ := h.waiting c' hc'
          refine ⟨fun hmem => ?_, hconn, f, hf, hwaits⟩
          rcases List.mem_append.mp hmem with hmem | hmem
          · exact hnq hmem
          · have heq := List.mem_singleton.mp hmem
            cases f with
            | reading call n => exact hno c' call n hf
            | closeSuspend =>
              have := (h.closers c' _ hf trivial).2.2.1 rfl
              rw [hclosing] at this
              cases this
            | closeWait => exact hwaits
        idle := h.idle
        reader c' call n hf := absurd hf (hno c' call n)
        queued c' call n hf := absurd hf (hno c' call n)
        one := h.one
        closing := h.closing
        closers c' f hf hcl := by
          obtain ⟨hcalled, -, hsus, hone⟩ := h.closers c' f hf hcl
          exact ⟨hcalled, fun _ => hno, hsus, hone⟩ }
    · rw [if_neg hsome]
      exact h

theorem State.Inv.drop (h : st.Inv recv ret) (hcalled : st.closeCalled = true)
    (hco : st.s.co = none)
    (hended : st.NoReader ∨ (st.pool = true ∧ st.s.connected = false)) :
    st.disconnect.Inv recv ret where
  sound := lclearbuffer_sound h.sound
  stream hp := by cases hp
  isPrefix := h.isPrefix
  gone _ := ⟨hcalled, rfl, lclearbuffer_unread _⟩
  required := h.required
  running := h.running
  tokens := h.tokens
  nodup := h.nodup
  waiting c hc := by
    change st.s.co = some c at hc
    rw [hco] at hc
    cases hc
  idle _ hconn := by cases hconn
  reader := h.reader
  queued c call n hf hmem := by
    rcases hended with hno | ⟨hp, hconn⟩
    · exact absurd hf (hno c call n)
    · refine Or.inr (Or.inr ⟨rfl, rfl, fun sz heq => ?_⟩)
      subst heq
      rcases h.queued c _ n hf hmem with ⟨hc', -⟩ | ⟨-, -, habs⟩ | ⟨hp', -⟩
      · rw [hconn] at hc'
        cases hc'
      · have := Nat.lt_of_not_le habs
        rw [h.stream hp, List.length_append]
        omega
      · rw [hp] at hp'
        cases hp'
  one := h.one
  closing := h.closing
  closers := h.closers

theorem State.Inv.await (h : st.Inv recv ret) (hno : st.NoReader) (hrun : st.running = some co)
    (hp : st.s.connected = true) (hcalled : st.closeCalled = false) (hvalid : call.Valid)
    (hfits : call.Fits) (hrr : call.required.Valid)
    (habs : ¬ call.Present st.s.buffer.unread st.s.buffer.unread.length) :
    ∃ st', st.await co call = .ok (st', none) ∧ st'.Inv recv ret := by
  have hco : st.s.co = none := by
    cases hco : st.s.co with
    | none => rfl
    | some c =>
      obtain ⟨-, -, f, hf, hwaits⟩ := h.waiting c hco
      cases f with
      | reading call n => exact absurd hf (hno c call n)
      | closeSuspend =>
        have := (h.closers c _ hf trivial).1
        rw [hcalled] at this
        cases this
      | closeWait => exact hwaits.elim
  have hnone := h.running co hrun
  have hnq : co ∉ st.queue := fun hmem => h.tokens co hmem hnone
  have hrr' := h.idle hco hp
  have hframe : ∀ {c g}, Function.update st.frames co
      (some (.reading call st.s.buffer.unread.length)) c = some g →
      (c = co ∧ g = .reading call st.s.buffer.unread.length) ∨ (st.frames c = some g ∧ c ≠ co) := by
    intro c g hc
    by_cases heq : c = co
    · rw [heq, Function.update_self] at hc
      exact Or.inl ⟨heq, (Option.some.inj hc).symm⟩
    · rw [Function.update_of_ne heq] at hc
      exact Or.inr ⟨hc, heq⟩
  have honly : ∀ {c call' n}, Function.update st.frames co
      (some (.reading call st.s.buffer.unread.length)) c = some (.reading call' n) →
      c = co ∧ Frame.reading call' n = .reading call st.s.buffer.unread.length := by
    intro c call' n hc
    exact (hframe hc).resolve_right fun hold => hno c call' n hold.1
  refine ⟨({ st with s := { st.s with readRequired := call.required, co := some co } }).skynetWait
    co (.reading call st.s.buffer.unread.length), ?_, ?_⟩
  · have hsuspend : ({ st with s := { st.s with readRequired := call.required } }).s.co.isSome =
        false := by
      change st.s.co.isSome = false
      rw [hco]
      rfl
    rw [State.await, if_pos hrr', State.suspend, hsuspend]
    rfl
  · exact {
      sound := h.sound
      stream := h.stream
      isPrefix := h.isPrefix
      gone := h.gone
      required := hrr
      running _ hc := by cases hc
      tokens c hc := by
        change Function.update st.frames co _ c ≠ none
        have hne : c ≠ co := by
          rintro rfl
          exact hnq hc
        rw [Function.update_of_ne hne]
        exact h.tokens c hc
      nodup := h.nodup
      waiting c hc := by
        cases hc
        exact ⟨hnq, hp, _, Function.update_self .., rfl, habs, Nat.le_refl _⟩
      idle hc := by cases hc
      reader c call' n hc := by
        obtain ⟨rfl, heq⟩ := honly hc
        cases heq
        exact ⟨hvalid, hfits, Or.inl rfl⟩
      queued c call' n hc hmem := by
        obtain ⟨rfl, -⟩ := honly hc
        exact absurd hmem hnq
      one c c' call' call'' n n' hc hc' := (honly hc).1.trans (honly hc').1.symm
      closing c hc := by
        have := (h.closing c hc).1
        rw [hcalled] at this
        cases this
      closers c g hc hcl := by
        rcases hframe hc with ⟨-, rfl⟩ | ⟨hold, -⟩
        · exact hcl.elim
        · have := (h.closers c g hold hcl).1
          rw [hcalled] at this
          cases this }

theorem State.Inv.reader_waits (h : st.Inv recv ret) (hq : st.queue = [])
    (hf : st.frames co = some (.reading call n)) :
    st.s.connected = true ∧ st.s.readRequired = call.required ∧
      ¬ call.Present st.s.buffer.unread n ∧ n ≤ st.s.buffer.unread.length := by
  obtain ⟨-, hconn, f, hf', hwaits⟩ := h.waiting co (h.co_of_reader hf hq)
  rw [hf] at hf'
  cases hf'
  exact ⟨hconn, hwaits⟩

theorem State.Inv.data (h : st.Inv recv ret) (hq : st.queue = []) (hbs : bs ≠ [])
    (hmax : st.s.buffer.unread.length + bs.length ≤ INT_MAX) :
    ∃ st', st.data bs = .ok st' ∧ st'.Inv (recv ++ bs) ret := by
  cases hp : st.pool with
  | false =>
    refine ⟨st, by rw [State.data, hp]; rfl, ?_⟩
    obtain ⟨-, hconn, -⟩ := h.gone hp
    exact {
      h with
      stream hp' := by rw [hp] at hp'; cases hp'
      isPrefix := h.isPrefix.trans (List.prefix_append _ _)
      queued c call n _ hmem := by rw [hq] at hmem; cases hmem }
  | true =>
    obtain ⟨hsz, hu, hb⟩ := lpushbuffer_spec h.sound hbs hmax
    have hlen : (lpushbuffer st.s.buffer bs).2.unread.length =
        st.s.buffer.unread.length + bs.length := by rw [hu, List.length_append]
    have hpos := List.length_pos_iff.mpr hbs
    have hpush (hw : ∀ co call n, st.frames co = some (.reading call n) →
        ¬ call.Present (lpushbuffer st.s.buffer bs).2.unread n) :=
      h.push hp hq hb hu hw
    -- a reader that is woken waits on a connected socket for what came
    have hwake (hw : ∀ co call n, st.frames co = some (.reading call n) →
        call.Present (lpushbuffer st.s.buffer bs).2.unread n) :
        (st.setBuffer (lpushbuffer st.s.buffer bs).2).met.Inv (recv ++ bs) ret :=
      h.wake (c := st.s.connected) hp hq hb hu (r := .none) trivial (fun _ => rfl)
        fun co call n hf => Or.inl ⟨(h.reader_waits hq hf).1, hw co call n hf⟩
    have hdata : st.data bs = (st.setBuffer (lpushbuffer st.s.buffer bs).2).test
        (lpushbuffer st.s.buffer bs).1 st.s.readRequired := by
      rw [State.data, hp]
      rfl
    rw [hdata]
    cases hrr : st.s.readRequired with
    | none =>
      refine ⟨_, rfl, hpush fun co call n hf => ?_⟩
      have heq := hrr.symm.trans (h.reader_waits hq hf).2.1
      cases call <;> cases heq
    | all =>
      refine ⟨_, rfl, hpush fun co call n hf => ?_⟩
      have heq := hrr.symm.trans (h.reader_waits hq hf).2.1
      cases call <;> cases heq
      exact id
    | size rr =>
      refine ⟨_, rfl, ?_⟩
      simp only [hsz]
      by_cases hle : (rr : Int) ≤ (st.s.buffer.unread.length + bs.length : Nat)
      · rw [if_pos hle]
        refine hwake fun co call n hf => ?_
        obtain ⟨-, heq, -, hn⟩ := h.reader_waits hq hf
        rw [hrr] at heq
        cases call <;> cases heq <;> change _ ≤ List.length _ <;> omega
      · rw [if_neg hle]
        refine hpush fun co call n hf hpres => ?_
        obtain ⟨-, heq, -, hn⟩ := h.reader_waits hq hf
        rw [hrr] at heq
        cases call <;> cases heq <;> change _ ≤ List.length _ at hpres <;> omega
    | sep rr =>
      obtain ⟨hne, hfit⟩ : rr ≠ [] ∧ rr.length ≤ INT_MAX := by
        have := h.required
        rwa [hrr] at this
      have hcheck := lreadlineCheck_spec hb hne hfit
      have htest : (st.setBuffer (lpushbuffer st.s.buffer bs).2).test (lpushbuffer st.s.buffer bs).1
          (.sep rr) = .ok (if decide (rr <:+: (lpushbuffer st.s.buffer bs).2.unread) then
            (st.setBuffer (lpushbuffer st.s.buffer bs).2).met
            else st.setBuffer (lpushbuffer st.s.buffer bs).2) := by
        change (do .ok (if ← lreadlineCheck (lpushbuffer st.s.buffer bs).2 rr then _ else _)) = _
        rw [hcheck]
        rfl
      rw [htest]
      refine ⟨_, rfl, ?_⟩
      have hcall : ∀ co call n, st.frames co = some (.reading call n) → call = .readline rr := by
        intro co call n hf
        have heq := hrr.symm.trans (h.reader_waits hq hf).2.1
        cases call <;> cases heq
        rfl
      by_cases hin : rr <:+: (lpushbuffer st.s.buffer bs).2.unread
      · rw [decide_eq_true hin]
        refine hwake fun co call n hf => ?_
        rw [hcall co call n hf]
        exact hin
      · rw [decide_eq_false hin]
        refine hpush fun co call n hf => ?_
        rw [hcall co call n hf]
        exact hin

theorem State.Inv.closed (h : st.Inv recv ret) (hq : st.queue = []) : st.closed.Inv recv ret := by
  unfold State.closed
  by_cases hp : st.pool = true
  · have hwake := h.wake (r := st.s.readRequired) (c := false) hp hq h.sound
      (List.append_nil st.s.buffer.unread).symm h.required (fun hc => by cases hc)
      fun co call n hf => Or.inr ⟨rfl, (h.reader_waits hq hf).2.2.1⟩
    rw [List.append_nil] at hwake
    rw [if_pos hp]
    exact hwake
  · rw [if_neg hp]
    exact h

theorem State.Inv.error (h : st.Inv recv ret) (hq : st.queue = []) : st.error.Inv recv ret :=
  h.closed hq

/-! ### Calls -/

/-- What a call may return: what `false` says about the stream, and what a string is. -/
def Call.Answers (recv ret : List UInt8) (connected : Bool) : Call → Value → Prop
  | .read sz, .str s => s.length = sz
  | .read sz, .falseStr _ => connected = false ∧ recv.length < ret.length + sz
  | .readSome, .str s => s ≠ []
  | .readline sep, .str s => FirstAt sep (s ++ sep) s.length
  | .readline _, .falseStr _ | .readSome, .falseStr _ | .readall, .str _ => connected = false
  | .readall, .bool b => b = false ∧ connected = false
  | .block, .bool b => b = connected
  | _, _ => False

theorem firstAt_take {sep xs : List UInt8} {i : Nat} (hi : FirstAt sep xs i) (hle : i ≤ xs.length) :
    FirstAt sep (xs.take i ++ sep) (xs.take i).length := by
  have hlen : (xs.take i).length = i := List.length_take_of_le hle
  have hpre : xs.take i ++ sep <+: xs := ⟨_, take_append_of_isPrefix_drop hi.1⟩
  rw [hlen]
  refine ⟨?_, fun j hj h => hi.2 j hj (h.trans (hpre.drop j))⟩
  rw [List.drop_left' hlen]

theorem State.Inv.falseReadall (h : st.Inv recv ret) (hno : st.NoReader) :
    ∃ st', st.falseReadall = (st', .falseStr st.s.buffer.unread) ∧
      st'.Inv recv (ret ++ st.s.buffer.unread) := by
  refine ⟨st.setBuffer (lclearbuffer st.s.buffer), ?_, h.take hno (lclearbuffer_sound h.sound) ?_⟩
  · rw [State.falseReadall, lreadall_spec h.sound]
  · rw [lclearbuffer_unread, List.append_nil]

theorem State.Inv.leave (h : st.Inv recv ret) (hno : st.NoReader) (hvalid : call.Valid)
    (hfits : call.Fits) (hended : st.Ended recv ret call n) :
    ∃ st' v, call.leave st = .ok (st', v) ∧ st'.Inv recv (ret ++ taken call v) ∧
      call.Answers recv ret st.s.connected v := by
  obtain ⟨st₁, hfalse, hinv⟩ := h.falseReadall hno
  cases call with
  | read sz =>
    by_cases hle : sz ≤ st.s.buffer.unread.length
    · obtain ⟨b, hpop, hu, hb⟩ := lpopbuffer_of_le h.sound hvalid hle
      refine ⟨st.setBuffer b, .str (st.s.buffer.unread.take sz), ?_, h.take hno hb ?_,
        List.length_take_of_le hle⟩
      · rw [Call.leave, hpop]
        rfl
      · rw [hu]
        exact (List.take_append_drop ..).symm
    · refine ⟨st₁, .falseStr st.s.buffer.unread, ?_, hinv, ?_⟩
      · rw [Call.leave, lpopbuffer_of_lt h.sound hfits (Nat.lt_of_not_le hle)]
        exact congrArg Except.ok hfalse
      · rcases hended with ⟨-, hpres⟩ | ⟨hp, hconn, -⟩ | ⟨-, hconn, hfew⟩
        · exact absurd hpres hle
        · refine ⟨hconn, ?_⟩
          rw [h.stream hp, List.length_append]
          omega
        · exact ⟨hconn, hfew sz rfl⟩
  | readSome =>
    have hclear := h.take hno (lclearbuffer_sound h.sound) (x := st.s.buffer.unread) (by
      rw [lclearbuffer_unread, List.append_nil])
    by_cases hnil : st.s.buffer.unread = []
    · refine ⟨_, .falseStr st.s.buffer.unread, ?_, hclear, ?_⟩
      · rw [Call.leave, lreadall_spec h.sound]
        simp only [hnil, ne_eq, not_true_eq_false, if_false]
      · rcases hended with ⟨-, hpres⟩ | ⟨-, hconn, -⟩ | ⟨-, hconn, -⟩
        · rw [hnil] at hpres
          exact absurd hpres (Nat.not_lt_zero n)
        · exact hconn
        · exact hconn
    · refine ⟨_, .str st.s.buffer.unread, ?_, hclear, hnil⟩
      rw [Call.leave, lreadall_spec h.sound]
      simp only [if_pos hnil]
  | readline sep =>
    cases hconn : st.s.connected with
    | false =>
      refine ⟨st₁, .falseStr st.s.buffer.unread, ?_, hinv, rfl⟩
      rw [Call.leave, hconn]
      exact congrArg Except.ok hfalse
    | true =>
      have hin : sep <:+: st.s.buffer.unread := by
        rcases hended with ⟨-, hpres⟩ | ⟨-, hc, -⟩ | ⟨-, hc, -⟩
        · exact hpres
        · rw [hconn] at hc
          cases hc
        · rw [hconn] at hc
          cases hc
      obtain ⟨i, b, hi, hline, hu, hb⟩ := lreadline_some h.sound hvalid hfits hin
      have hle := hi.add_length_le hvalid
      refine ⟨st.setBuffer b, .str (st.s.buffer.unread.take i), ?_, h.take hno hb ?_,
        firstAt_take hi (by omega)⟩
      · rw [Call.leave, hconn, hline]
        rfl
      · rw [hu]
        exact (take_append_of_isPrefix_drop hi.1).symm
  | readall =>
    have hconn : st.s.connected = false := by
      rcases hended with ⟨-, hpres⟩ | ⟨-, hconn, -⟩ | ⟨-, hconn, -⟩
      · exact hpres.elim
      · exact hconn
      · exact hconn
    have hclear := h.take hno (lclearbuffer_sound h.sound) (x := st.s.buffer.unread) (by
      rw [lclearbuffer_unread, List.append_nil])
    refine ⟨_, .str st.s.buffer.unread, ?_, hclear, hconn⟩
    rw [Call.leave, hconn, lreadall_spec h.sound]
    rfl
  | block =>
    refine ⟨st, .bool st.s.connected, rfl, ?_, rfl⟩
    change st.Inv recv (ret ++ [])
    rw [List.append_nil]
    exact h

theorem State.Inv.not_called (h : st.Inv recv ret) (hconn : st.s.connected = true)
    (habs : ¬ call.Present st.s.buffer.unread 0 ∨ call = .block)
    (hready : st.closeCalled = true → st.Ready call) : st.closeCalled = false := by
  cases hcalled : st.closeCalled with
  | false => rfl
  | true =>
    have hr := hready hcalled
    have hp : st.pool ≠ false := fun hp => by
      rw [(h.gone hp).2.1] at hconn
      cases hconn
    unfold State.Ready at hr
    split at hr
    case isTrue =>
      rw [hconn] at hr
      exact absurd hr (by simp [hp])
    case isFalse hne =>
      rcases hr.2 with hc | hpres
      · rw [hconn] at hc
        cases hc
      · exact absurd hpres (habs.resolve_right hne)

theorem State.Inv.pool_of_ready (h : st.Inv recv ret) (hne : call ≠ .block)
    (hready : st.closeCalled = true → st.Ready call) : st.pool = true := by
  cases hp : st.pool with
  | true => rfl
  | false =>
    have hr := hready (h.gone hp).1
    rw [State.Ready, if_neg hne, hp] at hr
    exact hr.1

theorem State.Inv.enter (h : st.Inv recv ret) (hno : st.NoReader) (hrun : st.running = some co)
    (hvalid : call.Valid) (hfits : call.Fits)
    (hready : st.closeCalled = true → st.Ready call) :
    ∃ st' v, call.enter st co = .ok (st', v) ∧
      st'.Inv recv (ret ++ (v.map fun v => taken call v).getD []) ∧
      ∀ w, v = some w → call.Answers recv ret st.s.connected w := by
  obtain ⟨st₁, hfalse, hinv⟩ := h.falseReadall hno
  have hwait (hconn : st.s.connected = true) (hrr : call.required.Valid)
      (habs : ¬ call.Present st.s.buffer.unread 0 ∨ call = .block)
      (hlen : ¬ call.Present st.s.buffer.unread st.s.buffer.unread.length) :
      ∃ st', st.await co call = .ok (st', none) ∧ st'.Inv recv (ret ++ []) := by
    rw [List.append_nil]
    exact h.await hno hrun hconn (h.not_called hconn habs hready) hvalid hfits hrr hlen
  cases call with
  | read sz =>
    have hp := h.pool_of_ready (by simp) hready
    have henter : Call.enter st co (.read sz) = _ := (read.eq_1 st co sz).trans (if_pos hp)
    rw [henter]
    by_cases hle : sz ≤ st.s.buffer.unread.length
    · obtain ⟨b, hpop, hu, hb⟩ := lpopbuffer_of_le h.sound hvalid hle
      rw [hpop]
      refine ⟨st.setBuffer b, some (.str (st.s.buffer.unread.take sz)), rfl, h.take hno hb ?_,
        fun w hw => ?_⟩
      · rw [hu]
        exact (List.take_append_drop ..).symm
      · cases hw
        exact List.length_take_of_le hle
    · rw [lpopbuffer_of_lt h.sound hfits (Nat.lt_of_not_le hle)]
      by_cases hconn : st.s.connected = true
      · obtain ⟨st', hawait, hinv'⟩ := hwait hconn trivial (Or.inl hle) hle
        refine ⟨st', none, ?_, hinv', fun w hw => by cases hw⟩
        exact (if_pos hconn).trans hawait
      · refine ⟨st₁, some (.falseStr st.s.buffer.unread), ?_, hinv, fun w hw => ?_⟩
        · refine (if_neg hconn).trans ?_
          change Except.ok (st.falseReadall.1, some st.falseReadall.2) = _
          rw [hfalse]
        · cases hw
          refine ⟨eq_false_of_ne_true hconn, ?_⟩
          rw [h.stream hp, List.length_append]
          omega
  | readSome =>
    have hp := h.pool_of_ready (by simp) hready
    have hclear := h.take hno (lclearbuffer_sound h.sound) (x := st.s.buffer.unread) (by
      rw [lclearbuffer_unread, List.append_nil])
    have henter : Call.enter st co .readSome = _ := (readSome.eq_1 st co).trans (if_pos hp)
    rw [henter, lreadall_spec h.sound]
    by_cases hnil : st.s.buffer.unread = []
    · rw [lclearbuffer_eq h.sound hnil]
      have hempty {α : Type} (u v : α) : (if st.s.buffer.unread ≠ [] then u else v) = v :=
        if_neg (not_not_intro hnil)
      by_cases hconn : st.s.connected = true
      · have habs : ¬ Call.Present st.s.buffer.unread 0 .readSome := by
          rw [hnil]
          exact Nat.lt_irrefl 0
        obtain ⟨st', hawait, hinv'⟩ := hwait hconn trivial (Or.inl habs) (Nat.lt_irrefl _)
        exact ⟨st', none, (hempty _ _).trans ((if_pos hconn).trans hawait), hinv',
          fun w hw => by cases hw⟩
      · refine ⟨st, some (.falseStr st.s.buffer.unread), (hempty _ _).trans (if_neg hconn), ?_,
          fun w hw => ?_⟩
        · rw [lclearbuffer_eq h.sound hnil] at hclear
          exact hclear
        · cases hw
          exact eq_false_of_ne_true hconn
    · refine ⟨_, some (.str st.s.buffer.unread), if_pos hnil, hclear, fun w hw => ?_⟩
      cases hw
      exact hnil
  | readline sep =>
    have hp := h.pool_of_ready (by simp) hready
    have henter : Call.enter st co (.readline sep) = _ :=
      (readline.eq_1 st co sep).trans (if_pos hp)
    rw [henter]
    by_cases hin : sep <:+: st.s.buffer.unread
    · obtain ⟨i, b, hi, hline, hu, hb⟩ := lreadline_some h.sound hvalid hfits hin
      have hle := hi.add_length_le hvalid
      rw [hline]
      refine ⟨st.setBuffer b, some (.str (st.s.buffer.unread.take i)), rfl, h.take hno hb ?_,
        fun w hw => ?_⟩
      · rw [hu]
        exact (take_append_of_isPrefix_drop hi.1).symm
      · cases hw
        exact firstAt_take hi (by omega)
    · rw [lreadline_none h.sound hvalid hfits hin]
      by_cases hconn : st.s.connected = true
      · obtain ⟨st', hawait, hinv'⟩ := hwait hconn ⟨hvalid, hfits⟩ (Or.inl hin) hin
        refine ⟨st', none, ?_, hinv', fun w hw => by cases hw⟩
        exact (if_pos hconn).trans hawait
      · refine ⟨st₁, some (.falseStr st.s.buffer.unread), ?_, hinv, fun w hw => ?_⟩
        · refine (if_neg hconn).trans ?_
          change Except.ok (st.falseReadall.1, some st.falseReadall.2) = _
          rw [hfalse]
        · cases hw
          exact eq_false_of_ne_true hconn
  | readall =>
    have hp := h.pool_of_ready (by simp) hready
    have henter : Call.enter st co .readall = _ := (readall.eq_1 st co).trans (if_pos hp)
    rw [henter]
    by_cases hconn : st.s.connected = true
    · obtain ⟨st', hawait, hinv'⟩ := hwait hconn trivial (Or.inl id) id
      exact ⟨st', none, (if_pos hconn).trans hawait, hinv', fun w hw => by cases hw⟩
    · have hclear := h.take hno (lclearbuffer_sound h.sound) (x := st.s.buffer.unread) (by
        rw [lclearbuffer_unread, List.append_nil])
      rw [if_neg hconn, lreadall_spec h.sound]
      by_cases hnil : st.s.buffer.unread = []
      · refine ⟨st.setBuffer (lclearbuffer st.s.buffer), some (.bool false), ?_, ?_, fun w hw => ?_⟩
        · simp only [hnil, ne_eq, not_true_eq_false, if_false]
        · rw [hnil] at hclear
          exact hclear
        · cases hw
          exact ⟨rfl, eq_false_of_ne_true hconn⟩
      · refine ⟨st.setBuffer (lclearbuffer st.s.buffer), some (.str st.s.buffer.unread), ?_, hclear,
          fun w hw => ?_⟩
        · simp only [if_pos hnil]
        · cases hw
          exact eq_false_of_ne_true hconn
  | block =>
    by_cases hboth : st.pool = true ∧ st.s.connected = true
    · have henter : Call.enter st co .block = _ := (block.eq_1 st co).trans (if_pos hboth)
      rw [henter]
      obtain ⟨st', hawait, hinv'⟩ := hwait hboth.2 trivial (Or.inr rfl) (Nat.lt_irrefl _)
      exact ⟨st', none, hawait, hinv', fun w hw => by cases hw⟩
    · have henter : Call.enter st co .block = _ := (block.eq_1 st co).trans (if_neg hboth)
      rw [henter]
      refine ⟨st, some (.bool false), rfl, ?_, fun w hw => ?_⟩
      · change st.Inv recv (ret ++ [])
        rw [List.append_nil]
        exact h
      · cases hw
        change false = st.s.connected
        cases hconn : st.s.connected with
        | false => rfl
        | true =>
          cases hp : st.pool with
          | true => exact absurd ⟨hp, hconn⟩ hboth
          | false =>
            have := (h.gone hp).2.1
            rw [hconn] at this
            cases this

theorem State.Inv.waitClose (h : st.Inv recv ret) (hrun : st.running = some co)
    (hconn : st.s.connected = true) (hno : ∀ c f, st.frames c = some f → ¬ f.Closes) {g : Frame}
    (hg : g.Closes) {co' closing' : Option Nat}
    (hwaits : (g = .closeWait ∧ co' = st.s.co ∧ closing' = some co) ∨
      (g = .closeSuspend ∧ co' = some co ∧ st.s.co = none ∧ closing' = none)) :
    (({ st with s := { st.s with co := co', closing := closing' }, closeCalled := true } : State)
      |>.skynetWait co g).Inv recv ret := by
  have hnone := h.running co hrun
  have hnq : co ∉ st.queue := fun hmem => h.tokens co hmem hnone
  have hframe : ∀ {c f}, Function.update st.frames co (some g) c = some f →
      (c = co ∧ f = g) ∨ (st.frames c = some f ∧ c ≠ co) := by
    intro c f hc
    by_cases heq : c = co
    · rw [heq, Function.update_self] at hc
      exact Or.inl ⟨heq, (Option.some.inj hc).symm⟩
    · rw [Function.update_of_ne heq] at hc
      exact Or.inr ⟨hc, heq⟩
  have hread : ∀ {c call n}, Function.update st.frames co (some g) c = some (.reading call n) →
      st.frames c = some (.reading call n) := by
    intro c call n hc
    rcases hframe hc with ⟨-, heq⟩ | ⟨hold, -⟩
    · rw [← heq] at hg
      exact hg.elim
    · exact hold
  have hcloses : ∀ {c f}, Function.update st.frames co (some g) c = some f → f.Closes →
      c = co ∧ f = g := fun hc hcl =>
    (hframe hc).resolve_right fun hold => hno _ _ hold.1 hcl
  have hkeep : ∀ {c}, c ≠ co → Function.update st.frames co (some g) c = st.frames c :=
    fun hne => Function.update_of_ne hne ..
  exact {
    sound := h.sound
    stream := h.stream
    isPrefix := h.isPrefix
    gone hgone := ⟨rfl, (h.gone hgone).2⟩
    required := h.required
    running _ hc := by cases hc
    tokens c hc := by
      have hne : c ≠ co := by
        rintro rfl
        exact hnq hc
      change Function.update st.frames co _ c ≠ none
      rw [hkeep hne]
      exact h.tokens c hc
    nodup := h.nodup
    waiting c hc := by
      change co' = some c at hc
      rcases hwaits with ⟨rfl, rfl, -⟩ | ⟨rfl, rfl, hco, -⟩
      · obtain ⟨hq, -, f, hf, hfw⟩ := h.waiting c hc
        have hne : c ≠ co := by
          rintro rfl
          rw [hnone] at hf
          cases hf
        refine ⟨hq, hconn, f, (hkeep hne).trans hf, ?_⟩
        cases f <;> exact hfw
      · cases hc
        exact ⟨hnq, hconn, _, Function.update_self .., h.idle hco hconn⟩
    idle hc _ := by
      rcases hwaits with ⟨-, rfl, -⟩ | ⟨-, rfl, -⟩
      · exact h.idle hc hconn
      · cases hc
    reader c call n hc := by
      obtain ⟨hvalid, hfits, hwhere⟩ := h.reader c call n (hread hc)
      refine ⟨hvalid, hfits, ?_⟩
      rcases hwaits with ⟨-, rfl, -⟩ | ⟨-, rfl, hco, -⟩
      · exact hwhere
      · refine Or.inr (hwhere.resolve_left fun hc' => ?_)
        rw [hco] at hc'
        cases hc'
    queued c call n hc hmem := h.queued c call n (hread hc) hmem
    one c d call call' n n' hc hd := h.one c d call call' n n' (hread hc) (hread hd)
    closing c hc := by
      change closing' = some c at hc
      rcases hwaits with ⟨rfl, -, rfl⟩ | ⟨-, -, -, rfl⟩
      · cases hc
        exact ⟨rfl, Or.inl (Function.update_self ..)⟩
      · cases hc
    closers c f hc hcl := by
      obtain ⟨rfl, rfl⟩ := hcloses hc hcl
      refine ⟨rfl, fun hmem => absurd hmem hnq, fun heq => ?_, fun d k hd hk => (hcloses hd hk).1⟩
      rcases hwaits with ⟨hw, -⟩ | ⟨-, -, -, hw⟩
      · rw [heq] at hw
        cases hw
      · exact hw }

theorem State.Inv.close (h : st.Inv recv ret) (hrun : st.running = some co)
    (hcalled : st.closeCalled = false) :
    ∃ st', ({ st with closeCalled := true } : State).close co = .ok st' ∧ st'.Inv recv ret := by
  have hp : st.pool = true := by
    cases hp : st.pool with
    | true => rfl
    | false =>
      have := (h.gone hp).1
      rw [hcalled] at this
      cases this
  have hno : ∀ c f, st.frames c = some f → ¬ f.Closes := fun c f hf hcl => by
    have := (h.closers c f hf hcl).1
    rw [hcalled] at this
    cases this
  have hclosing : st.s.closing = none := by
    cases hc : st.s.closing with
    | none => rfl
    | some c =>
      have := (h.closing c hc).1
      rw [hcalled] at this
      cases this
  rw [State.close, if_pos hp]
  by_cases hconn : st.s.connected = true
  · rw [if_pos hconn]
    by_cases hco : st.s.co.isSome = true
    · have hinv := h.waitClose hrun hconn hno (g := .closeWait) trivial (Or.inl ⟨rfl, rfl, rfl⟩)
      refine ⟨_, (if_pos hco).trans (if_neg ?_), hinv⟩
      rw [hclosing]
      exact Bool.false_ne_true
    · have hnone : st.s.co = none := Option.not_isSome_iff_eq_none.mp hco
      have hinv := h.waitClose hrun hconn hno (g := .closeSuspend) trivial
        (Or.inr ⟨rfl, rfl, hnone, hclosing⟩)
      exact ⟨_, (if_neg hco).trans (if_neg hco), hinv⟩
  · rw [if_neg hconn]
    have hco : st.s.co = none := by
      cases hco : st.s.co with
      | none => rfl
      | some c => exact absurd (h.waiting c hco).2.1 hconn
    have hinv : ({ st with closeCalled := true } : State).Inv recv ret :=
      { h with
        gone hgone := ⟨rfl, (h.gone hgone).2⟩
        closing c hc := ⟨rfl, (h.closing c hc).2⟩
        closers c f hf hcl := ⟨rfl, (h.closers c f hf hcl).2⟩ }
    have hfalse := eq_false_of_ne_true hconn
    have hdrop := hinv.drop rfl hco (Or.inr ⟨hp, hfalse⟩)
    refine ⟨_, rfl, ?_⟩
    have hsame : ({ st.s with connected := false } : SocketObject) = st.s := by
      rw [← hfalse]
    rw [State.disconnect] at hdrop
    simp only [hsame] at hdrop
    exact hdrop

/-! ### Steps and runs -/

theorem State.suspended_same (st : State) :
    st.suspended.s = st.s ∧ st.suspended.pool = st.pool ∧ st.suspended.frames = st.frames := by
  unfold State.suspended
  cases st.s.closing with
  | none => exact ⟨rfl, rfl, rfl⟩
  | some c =>
    change (st.skynetWakeup c).s = _ ∧ (st.skynetWakeup c).pool = _ ∧ (st.skynetWakeup c).frames = _
    unfold State.skynetWakeup
    split <;> exact ⟨rfl, rfl, rfl⟩

theorem State.Inv.co_of_closer (h : st.Inv recv ret) (hmem : co ∈ st.queue)
    (hf : st.frames co = some f) (hcl : f.Closes) : st.s.co = none := by
  obtain ⟨-, hno, -, hone⟩ := h.closers co f hf hcl
  cases hco : st.s.co with
  | none => rfl
  | some c =>
    obtain ⟨hnq, -, g, hg, hwaits⟩ := h.waiting c hco
    cases g with
    | reading call n => exact absurd hg (hno hmem c call n)
    | closeSuspend =>
      have heq := hone c _ hg trivial
      exact absurd (heq ▸ hmem) hnq
    | closeWait => exact hwaits.elim

theorem State.Inv.resume (h : st.Inv recv ret) {q : List Nat} (hq : st.queue = co :: q)
    (hf : st.frames co = some f) :
    ∃ st' r, f.resume { st with queue := q, running := some co,
                                frames := Function.update st.frames co none } = .ok (st', r) ∧
      st'.Inv recv (ret ++ (r.map fun r => taken r.1 r.2).getD []) ∧
      ∀ call v, r = some (call, v) → call.Answers recv ret st.s.connected v := by
  have hmem : co ∈ st.queue := hq ▸ List.mem_cons_self ..
  have hinv := h.unqueue hq hf
  have hsub : ∀ c call n, Function.update st.frames co none c = some (.reading call n) →
      st.frames c = some (.reading call n) ∧ c ≠ co := by
    intro c call n hc
    have hne : c ≠ co := by
      rintro rfl
      rw [Function.update_self] at hc
      cases hc
    rw [Function.update_of_ne hne] at hc
    exact ⟨hc, hne⟩
  cases f with
  | reading call n =>
    obtain ⟨hvalid, hfits, -⟩ := h.reader co call n hf
    have hno : ∀ c call n, Function.update st.frames co none c ≠ some (.reading call n) :=
      fun c call' n' hc =>
        (hsub c call' n' hc).2 (h.one c co call' call n' n (hsub c call' n' hc).1 hf)
    have hsus := hinv.suspended hno fun c hc hcq => by
      obtain ⟨-, hwait | hnone⟩ := h.closing c hc
      · exact (h.closers c _ hwait trivial).2.1 (hq ▸ List.mem_cons_of_mem _ hcq) co call n hf
      · exact hnone co call n hf
    obtain ⟨hs, hp, hfr⟩ := State.suspended_same { st with
      queue := q, running := some co, frames := Function.update st.frames co none }
    have hended := h.queued co call n hf hmem
    obtain ⟨st', v, hleave, hinv', hans⟩ := hsus.leave
      (fun c call n => by rw [hfr]; exact hno c call n) hvalid hfits
      (show State.Ended recv ret _ call n by
        unfold State.Ended at hended ⊢
        rw [hs, hp]
        exact hended)
    refine ⟨st', some (call, v), ?_, hinv', fun call' v' heq => ?_⟩
    · rw [Frame.resume, hleave]
      rfl
    · cases heq
      rw [hs] at hans
      exact hans
  | closeSuspend =>
    obtain ⟨hcalled, hno, hclosing, -⟩ := h.closers co _ hf trivial
    have hdrop := hinv.drop hcalled (h.co_of_closer hmem hf trivial)
      (Or.inl fun c call n hc => hno hmem c call n (hsub c call n hc).1)
    refine ⟨_, none, ?_, (List.append_nil ret).symm ▸ hdrop, fun _ _ heq => by cases heq⟩
    rw [Frame.resume, State.suspended]
    simp only [hclosing rfl]
  | closeWait =>
    obtain ⟨hcalled, hno, -, -⟩ := h.closers co _ hf trivial
    have hdrop := hinv.drop hcalled (h.co_of_closer hmem hf trivial)
      (Or.inl fun c call n hc => hno hmem c call n (hsub c call n hc).1)
    exact ⟨_, none, rfl, (List.append_nil ret).symm ▸ hdrop, fun _ _ heq => by cases heq⟩

theorem State.Inv.next (h : st.Inv recv ret) {e : Event} (hen : st.Enabled e)
    (hclear : st.Clear e) :
    ∃ st' r, st.next e = .ok (st', r) ∧
      st'.Inv (recv ++ e.bytes) (ret ++ (r.map fun r => taken r.1 r.2).getD []) ∧
      ∀ call v, r = some (call, v) → call.Answers recv ret st.s.connected v := by
  have hsilent {st' : State} (hinv : st'.Inv recv ret) :
      st'.Inv (recv ++ []) (ret ++ ((none : Option (Call × Value)).map fun r =>
        taken r.1 r.2).getD []) := by
    rw [List.append_nil]
    exact (List.append_nil ret).symm ▸ hinv
  cases e with
  | data bs =>
    obtain ⟨-, hq, hbs, -⟩ := hen
    obtain ⟨st', hdata, hinv⟩ := h.data hq hbs hclear
    refine ⟨st', none, ?_, (List.append_nil ret).symm ▸ hinv, fun _ _ heq => by cases heq⟩
    rw [State.next, hdata]
    rfl
  | close => exact ⟨_, none, rfl, hsilent (h.closed hen.2), fun _ _ heq => by cases heq⟩
  | error => exact ⟨_, none, rfl, hsilent (h.error hen.2), fun _ _ heq => by cases heq⟩
  | run co =>
    refine ⟨_, none, rfl, hsilent ?_, fun _ _ heq => by cases heq⟩
    exact { h with running := fun c hc => by cases hc; exact hen.2 }
  | pause =>
    refine ⟨_, none, rfl, hsilent ?_, fun _ _ heq => by cases heq⟩
    exact { h with running := fun c hc => by cases hc }
  | call call =>
    obtain ⟨hrun, hvalid, hno⟩ := hen
    obtain ⟨co, hco⟩ := Option.isSome_iff_exists.mp hrun
    obtain ⟨st', v, henter, hinv, hans⟩ := h.enter hno hco hvalid hclear.1 hclear.2
    refine ⟨st', v.map fun v => (call, v), ?_, ?_, fun call' w heq => ?_⟩
    · rw [State.next, hco]
      simp only [henter]
      rfl
    · rw [Option.map_map]
      change st'.Inv (recv ++ []) _
      rw [List.append_nil]
      exact hinv
    · cases v with
      | none => cases heq
      | some v =>
        cases heq
        exact hans _ rfl
  | callClose =>
    obtain ⟨hrun, hcalled⟩ := hen
    obtain ⟨co, hco⟩ := Option.isSome_iff_exists.mp hrun
    obtain ⟨st', hclose, hinv⟩ := h.close hco hcalled
    refine ⟨st', none, ?_, hsilent hinv, fun _ _ heq => by cases heq⟩
    simp only [hco] at hclose
    simp only [State.next, hco, hclose]
    rfl
  | resume =>
    obtain ⟨-, hne⟩ := hen
    cases hq : st.queue with
    | nil => exact absurd hq hne
    | cons co q =>
      cases hf : st.frames co with
      | none => exact absurd hf (h.tokens co (hq ▸ List.mem_cons_self ..))
      | some f =>
        obtain ⟨st', r, hres, hinv, hans⟩ := h.resume hq hf
        refine ⟨st', r, ?_, ?_, hans⟩
        · rw [State.next, hq]
          simp only [hf]
          exact hres
        · change st'.Inv (recv ++ []) _
          rw [List.append_nil]
          exact hinv

/-- What the readers of the socket may rely on after the events `es`. -/
structure Reads (es : List (Event × Option (Call × Value))) (st : State) : Prop where
  isPrefix : returned es <+: received es
  stream : st.pool = true → received es = returned es ++ st.s.buffer.unread
  dropped : st.pool = false → st.closeCalled = true
  woken : ∀ co call n, st.frames co = some (.reading call n) →
    (co ∈ st.queue ↔ st.Woken call n)

theorem State.Inv.woken (h : st.Inv recv ret) (hf : st.frames co = some (.reading call n)) :
    co ∈ st.queue ↔ st.Woken call n := by
  constructor
  · intro hmem
    rcases h.queued co call n hf hmem with ⟨-, hpres⟩ | ⟨-, hconn, -⟩ | ⟨-, hconn, -⟩
    · exact Or.inr hpres
    · exact Or.inl hconn
    · exact Or.inl hconn
  · intro hwoken
    refine (h.reader co call n hf).2.2.resolve_left fun hco => ?_
    obtain ⟨-, hconn, f, hf', hwaits⟩ := h.waiting co hco
    rw [hf] at hf'
    cases hf'
    rcases hwoken with hc | hpres
    · rw [hconn] at hc
      cases hc
    · exact hwaits.2.1 hpres

theorem inv_of_run {es : List (Event × Option (Call × Value))}
    (h : Run (Guarded (fun st e => st.Clear e.1) Step) .connected es st) :
    st.Inv (received es) (returned es) := by
  induction h with
  | nil => exact inv_connected
  | snoc _ hstep ih =>
    obtain ⟨hclear, hen, hnext⟩ := hstep
    obtain ⟨st', r, hnext', hinv, -⟩ := ih.next hen hclear
    rw [hnext] at hnext'
    cases hnext'
    rw [received, returned, List.flatMap_append, List.flatMap_append, List.flatMap_singleton,
      List.flatMap_singleton]
    exact hinv

theorem reads_stream {es : List (Event × Option (Call × Value))}
    (h : Run (Guarded (fun st e => st.Clear e.1) Step) .connected es st) :
    Reads es st ∧ ∀ e, st.Enabled e → st.Clear e →
      ∃ st' r, st.next e = .ok (st', r) ∧
        ∀ call v, r = some (call, v) →
          call.Answers (received es) (returned es) st.s.connected v := by
  have hinv := inv_of_run h
  refine ⟨⟨hinv.isPrefix, hinv.stream, fun hp => (hinv.gone hp).1,
    fun co call n hf => hinv.woken hf⟩, fun e hen hclear => ?_⟩
  obtain ⟨st', r, hnext, -, hans⟩ := hinv.next hen hclear
  exact ⟨st', r, hnext, hans⟩

/-- A reader waits for two bytes when the socket is closed, and they come in two messages. -/
theorem reads_stream_closing : ∃ es st, Run Step .connected es st ∧ returned es = [1, 2] ∧
    received es = [1, 2, 3] ∧ Reads es st := by
  have hrun : Run (Guarded (fun st e => st.Clear e.1) Step) .connected
      [(.run 1, none), (.call (.read 2), none), (.run 2, none), (.callClose, none),
        (.data [1], none), (.data [2, 3], none), (.resume, some (.read 2, .str [1, 2]))] _ :=
    .cons ⟨trivial, ⟨rfl, rfl⟩, rfl⟩ <|
    .cons ⟨⟨Or.inl (by decide), fun h => by cases h⟩,
      ⟨rfl, Nat.le_succ 1, fun _ _ _ h => by cases h⟩, rfl⟩ <|
    .cons ⟨trivial, ⟨rfl, rfl⟩, rfl⟩ <|
    .cons ⟨trivial, ⟨rfl, rfl⟩, rfl⟩ <|
    .cons ⟨Nat.le_of_ble_eq_true rfl, ⟨rfl, rfl, by decide, by decide⟩, rfl⟩ <|
    .cons ⟨Nat.le_of_ble_eq_true rfl, ⟨rfl, rfl, by decide, by decide⟩, rfl⟩ <|
    .cons ⟨trivial, ⟨rfl, by decide⟩, rfl⟩ <| .nil _
  exact ⟨_, _, hrun.mono fun _ _ _ h => h.2, rfl, rfl, (reads_stream hrun).1⟩

/-- A reader that waits again before the closing coroutine goes on is never woken: the socket is
dropped, and the end of the stream is not noticed. -/
theorem reader_left_behind : ∃ es st, Run Step .connected es st ∧ ¬ Reads es st := by
  have hrun : Run Step .connected
      [(.run 1, none), (.call (.read 1), none), (.run 2, none), (.callClose, none),
        (.data [7], none), (.resume, some (.read 1, .str [7])), (.call (.read 1), none),
        (.resume, none), (.pause, none), (.close, none)] _ :=
    .cons ⟨⟨rfl, rfl⟩, rfl⟩ <|
    .cons ⟨⟨rfl, Nat.le_refl 1, fun _ _ _ h => by cases h⟩, rfl⟩ <|
    .cons ⟨⟨rfl, rfl⟩, rfl⟩ <|
    .cons ⟨⟨rfl, rfl⟩, rfl⟩ <|
    .cons ⟨⟨rfl, rfl, by decide, by decide⟩, rfl⟩ <|
    .cons ⟨⟨rfl, by decide⟩, rfl⟩ <|
    .cons ⟨⟨rfl, Nat.le_refl 1, fun co c n h => by
      change Function.update (Function.update (Function.update (fun _ => none) 1 _) 2
        (some Frame.closeWait)) 1 none co = _ at h
      simp only [Function.update_apply] at h
      split_ifs at h
      cases h⟩, rfl⟩ <|
    .cons ⟨⟨rfl, by decide⟩, rfl⟩ <|
    .cons ⟨rfl, rfl⟩ <|
    .cons ⟨⟨rfl, rfl⟩, rfl⟩ <| .nil _
  refine ⟨_, _, hrun, fun h => ?_⟩
  have hmem := (h.woken 1 (.read 1) 0 rfl).mpr (Or.inl rfl)
  cases hmem

end XsServer.Socket
