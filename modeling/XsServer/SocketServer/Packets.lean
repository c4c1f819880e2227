import XsServer.SocketServer.Order

/-! The packets of a connection in every run: they come in order, none comes twice and none is lost
before the socket is told to close. -/

namespace XsServer.SocketServer

open Lib

variable {T : Type}

def Place.Counted : Place → Prop
  | .counted _ _ => True
  | _ => False

def Place.Holds : Place → Prop
  | .locked _ | .writing _ => True
  | _ => False

section

variable [DecidableEq T]

/-- The counter of the socket is that of the threads past their increment, and of the pipe. -/
def Counts (place : T → Place) (n k : Nat) : Prop :=
  ∃ l : List T, l.Nodup ∧ (∀ t, t ∈ l ↔ (place t).Counted) ∧ n = l.length + k

variable {t : T}

theorem Counts.update {place : T → Place} {n k : Nat} (h : Counts place n k) {p : Place}
    (hp : p.Counted ↔ (place t).Counted) : Counts (Function.update place t p) n k := by
  obtain ⟨l, hnodup, hmem, hn⟩ := h
  refine ⟨l, hnodup, fun t' => ?_, hn⟩
  by_cases ht : t' = t
  · subst ht
    rw [Function.update_self, hp]
    exact hmem t'
  · rw [Function.update_of_ne ht]
    exact hmem t'

theorem Counts.count {place : T → Place} {n k : Nat} (h : Counts place n k) {t : T} {p : Place}
    (ht : ¬ (place t).Counted) (hp : p.Counted) : Counts (Function.update place t p) (n + 1) k := by
  obtain ⟨l, hnodup, hmem, rfl⟩ := h
  have hnew : t ∉ l := fun hbad => ht ((hmem t).mp hbad)
  refine ⟨t :: l, List.nodup_cons.mpr ⟨hnew, hnodup⟩, fun t' => ?_, ?_⟩
  · by_cases heq : t' = t
    · subst heq
      rw [Function.update_self]
      exact iff_of_true List.mem_cons_self hp
    · rw [Function.update_of_ne heq, List.mem_cons, hmem t']
      exact or_iff_right heq
  · rw [List.length_cons]
    omega

theorem Counts.push {place : T → Place} {n k : Nat} (h : Counts place n k) {t : T} {p : Place}
    (ht : (place t).Counted) (hp : ¬ p.Counted) : Counts (Function.update place t p) n (k + 1) := by
  obtain ⟨l, hnodup, hmem, rfl⟩ := h
  have hin : t ∈ l := (hmem t).mpr ht
  have hpos := List.length_pos_of_mem hin
  refine ⟨l.erase t, hnodup.erase t, fun t' => ?_, ?_⟩
  · rw [hnodup.mem_erase_iff]
    by_cases heq : t' = t
    · subst heq
      rw [Function.update_self]
      exact iff_of_false (fun hbad => hbad.1 rfl) hp
    · rw [Function.update_of_ne heq, hmem t']
      exact and_iff_right heq
  · rw [List.length_erase_of_mem hin]
    omega

structure Connection.Inv (w : Connection T) : Prop where
  id : w.s.id = w.id
  protocol : w.s.protocol = .tcp
  type : (w.s.type = .connecting ∨ w.s.type = .connected) ∨
    w.s.type = .invalid ∨ w.s.type = .halfclose
  tag : w.s.sending / 2 ^ 16 = idTag16 w.id
  count : Counts w.place w.s.sendingRef (queued w.pipe).length
  failed : w.failed = none ∨ w.failed = some .lowUncomplete
  requests : ∀ request low, .send request low ∈ w.pipe → request.id = w.id ∧
    request.data = request.tag.data ∧ request.tag.low = low ∧ request.tag.direct = false
  lock : ∀ t, (w.place t).Holds → w.lock = some t
  writing : ∀ t p, w.place t = .writing p → Clear w.s w.pipe t
  orderly : Orderly w.s w.pipe w.log

variable {w w' : Connection T}

theorem Connection.Inv.start (h : w.Start) : w.Inv := by
  obtain ⟨hid, hprotocol, hsending, htype, hhigh, hlow, hsize, hdw, hfd, hdone, hplace, hlock,
    hpipe, hclosing, hfailed, hreports, hlog, howed, hbroken⟩ := h
  have hopen : w.s.type ≠ .invalid := by
    rcases htype with ⟨htype, -⟩ | htype
    · rw [htype]
      decide
    · rw [htype]
      decide
  have hpending : w.s.pending = [] := by
    rw [pending_of_dw hdw, hhigh, hlow]
    rfl
  have horder : w.s.order = [] := by
    rw [Socket.order, hdone, hpending]
    rfl
  constructor
  · exact hid
  · exact hprotocol
  · exact .inl (htype.imp_left And.left)
  · rw [hsending, Nat.mul_div_cancel _ (by decide)]
  · refine ⟨[], List.nodup_nil, fun t => ?_, ?_⟩
    · rw [hplace t]
      exact iff_of_false List.not_mem_nil fun hbad => hbad
    · rw [Socket.sendingRef, hsending, Nat.mul_mod_left, hpipe]
      rfl
  · exact .inl hfailed
  · rw [hpipe]
    exact fun request low hmem => absurd hmem List.not_mem_nil
  · intro t ht
    rw [hplace t] at ht
    exact ht.elim
  · intro t p ht
    rw [hplace t] at ht
    exact Place.noConfusion ht
  · constructor
    · rw [hlog]
      rfl
    · intro _
      rw [Socket.Sized, hsize, hhigh, hlow]
      rfl
    · rw [hlow]
      exact fun wb hwb => absurd hwb List.not_mem_nil
    · rw [horder]
      exact fun _ => List.Pairwise.nil
    · rw [horder, hpipe, hlog]
      exact fun _ c => List.Sublist.refl _
    · rw [horder, hpipe, hlog]
      exact fun _ c => rfl
    · exact fun hbad => absurd hbad hopen

variable {place : Place}

theorem Connection.Inv.goto (h : w.Inv) {lock : Option T}
    (hcounted : place.Counted ↔ (w.place t).Counted)
    (hholds : ∀ t', (Function.update w.place t place t').Holds → lock = some t')
    (hwriting : ∀ p, place = .writing p → Clear w.s w.pipe t) :
    Connection.Inv { w.goto t place with lock := lock } where
  id := h.id
  protocol := h.protocol
  type := h.type
  tag := h.tag
  count := h.count.update hcounted
  failed := h.failed
  requests := h.requests
  lock := hholds
  writing t' p hp := by
    change Function.update w.place t place t' = _ at hp
    by_cases ht : t' = t
    · subst ht
      rw [Function.update_self] at hp
      exact hwriting p hp
    · rw [Function.update_of_ne ht] at hp
      exact h.writing t' p hp
  orderly := h.orderly

theorem Connection.Inv.holds (h : w.Inv) (hp : ¬ place.Holds) (t' : T)
    (ht' : (Function.update w.place t place t').Holds) : w.lock = some t' := by
  by_cases ht : t' = t
  · subst ht
    rw [Function.update_self] at ht'
    exact absurd ht' hp
  · rw [Function.update_of_ne ht] at ht'
    exact h.lock t' ht'

theorem Connection.Inv.released (h : w.Inv) (hp : ¬ place.Holds)
    (ht : (w.place t).Holds) (t' : T) : ¬ (Function.update w.place t place t').Holds := by
  intro ht'
  by_cases heq : t' = t
  · subst heq
    rw [Function.update_self] at ht'
    exact hp ht'
  · rw [Function.update_of_ne heq] at ht'
    exact heq (Option.some.inj ((h.lock t' ht').symm.trans (h.lock t ht)))

theorem Connection.Inv.queued_nil (h : w.Inv) (hcount : w.s.sendingRef = 0) :
    queued w.pipe = [] := by
  obtain ⟨l, -, -, hn⟩ := h.count
  apply List.eq_nil_of_length_eq_zero
  omega

theorem Connection.Inv.clear (h : w.Inv) (hdirect : canDirectWrite w.s w.id) (t : T) :
    Clear w.s w.pipe t := by
  obtain ⟨-, ⟨⟨hhigh, hlow⟩, hdw, hcount⟩, htype⟩ := hdirect
  have hnil : ∀ wb ∈ w.s.high ++ w.s.low, False := fun wb hwb => by
    rw [hhigh, hlow] at hwb
    exact absurd hwb List.not_mem_nil
  constructor
  · rw [htype]
    decide
  · exact hdw
  · exact fun wb hwb => (hnil wb hwb).elim
  · exact fun wb hwb => (hnil wb hwb).elim
  · rw [h.queued_nil hcount]
    exact fun p hp => absurd hp List.not_mem_nil

/-! ### Steps of the socket thread -/

theorem Connection.Inv.settle (h : w.Inv) (hid : w'.id = w.id) (hplace : w'.place = w.place)
    (hlock : w'.lock = w.lock) (hfailed : w'.failed = w.failed)
    (hsame : w'.s.id = w.s.id ∧ w'.s.protocol = w.s.protocol)
    (htag : w'.s.sending / 2 ^ 16 = w.s.sending / 2 ^ 16)
    (hcount : w.s.sendingRef + (queued w'.pipe).length = w'.s.sendingRef + (queued w.pipe).length)
    (htype : (w'.s.type = .connecting ∨ w'.s.type = .connected) ∨
      w'.s.type = .invalid ∨ w'.s.type = .halfclose)
    (hpipe : ∀ c ∈ w'.pipe, c ∈ w.pipe) (horderly : Orderly w'.s w'.pipe w'.log)
    (hclear : ∀ t, w.lock = some t → Clear w.s w.pipe t → Clear w'.s w'.pipe t) : w'.Inv where
  id := by rw [hsame.1, h.id, hid]
  protocol := by rw [hsame.2, h.protocol]
  type := htype
  tag := by rw [htag, h.tag, hid]
  count := by
    obtain ⟨l, hnodup, hmem, hn⟩ := h.count
    rw [hplace]
    exact ⟨l, hnodup, hmem, by omega⟩
  failed := by
    rw [hfailed]
    exact h.failed
  requests request low hmem := by
    rw [hid]
    exact h.requests request low (hpipe _ hmem)
  lock := by
    rw [hplace, hlock]
    exact h.lock
  writing t p hp := by
    rw [hplace] at hp
    refine hclear t (h.lock t ?_) (h.writing t p hp)
    rw [hp]
    trivial
  orderly := horderly

variable {rs : List WriteResult} {s : Socket (Packet T)} {r : Option Report}

theorem Connection.Inv.sendBuffer (h : w.Inv) (htype : w.s.type ≠ .invalid)
    (hs : SocketServer.sendBuffer w.s w.lock.isSome rs = .ok (s, r)) :
    s = w.s ∧ r = none ∨
      w.lock = none ∧ (s.type = w.s.type ∨ s.type = .invalid ∧ r = some .close) ∧
        Orderly s w.pipe w.log := by
  cases hlock : w.lock with
  | some t =>
    rw [hlock] at hs
    cases hs
    exact .inl ⟨rfl, rfl⟩
  | none =>
    rw [hlock] at hs
    have hflush := sendBuffer_flush (h.orderly.size htype) rs
    change Flush w.s rs (SocketServer.sendBuffer w.s (none : Option T).isSome rs) at hflush
    rw [hs] at hflush
    right
    cases hflush with
    | failed hsent _ | closed hsent _ _ =>
      exact ⟨rfl, .inr ⟨rfl, rfl⟩, (h.orderly.written htype hsent).force⟩
    | drained hsent _ _ _ _ | rest hsent _ _ _ _ =>
      exact ⟨rfl, .inl hsent.type, h.orderly.written htype hsent⟩

theorem sendBuffer_error {w : Connection T} (h : w.Inv) (htype : w.s.type ≠ .invalid)
    {a : Assertion}
    (ha : SocketServer.sendBuffer w.s w.lock.isSome rs = .error a) :
    a = .lowUncomplete ∧ ∃ wb ∈ w.s.low, wb.ptr ≠ wb.buffer := by
  cases hlock : w.lock with
  | some t =>
    rw [hlock] at ha
    cases ha
  | none =>
    rw [hlock] at ha
    have hflush := sendBuffer_flush (h.orderly.size htype) rs
    change Flush w.s rs (SocketServer.sendBuffer w.s (none : Option T).isSome rs) at hflush
    rw [ha] at hflush
    cases hflush with
    | uncomplete hbad => exact ⟨rfl, hbad⟩

theorem Connection.Inv.failing (h : w.Inv) {a : Assertion} (ha : a = .lowUncomplete) :
    Connection.Inv { w with failed := some a } :=
  ⟨h.id, h.protocol, h.type, h.tag, h.count, .inr (congrArg some ha), h.requests, h.lock, h.writing,
    h.orderly⟩

theorem Connection.Inv.closeSocket (h : w.Inv)
    {force : Bool}
    (hs : SocketServer.closeSocket w.s w.id w.lock.isSome rs = .ok (s, r, force)) :
    s = w.s ∨ w.s.type ≠ .invalid ∧ s = { w.s with type := .halfclose } ∨
      w.lock = none ∧ (s.type = w.s.type ∨ s.type = .invalid ∨ s.type = .halfclose) ∧
        Orderly s w.pipe w.log := by
  have hcase := closeSocket_case w.s w.id w.lock.isSome rs
  rw [hs] at hcase
  cases hcase with
  | other _ | nomore _ _ => exact .inl rfl
  | closed hid hsend =>
    rcases h.sendBuffer (not_or.mp hid).1 hsend with ⟨-, hr⟩ | ⟨hlock, htype, horderly⟩
    · cases hr
    · exact .inr (.inr ⟨hlock, htype.imp_right fun ht => .inl ht.1, horderly⟩)
  | drained hid hsend hr _ =>
    rcases h.sendBuffer (not_or.mp hid).1 hsend with ⟨ht, -⟩ | ⟨hlock, htype, horderly⟩
    · exact .inl ht
    · exact .inr (.inr ⟨hlock, htype.imp_right fun ht => .inl ht.1, horderly⟩)
  | half hid hsend hr _ =>
    have hopen := (not_or.mp hid).1
    rcases h.sendBuffer hopen hsend with ⟨ht, -⟩ | ⟨hlock, htype, horderly⟩
    · exact .inr (.inl ⟨hopen, by rw [ht]⟩)
    · have ht := htype.resolve_right fun hbad => hr hbad.2
      exact .inr (.inr ⟨hlock, .inr (.inr rfl), horderly.half (ht ▸ hopen)⟩)

variable {pipe : List (Package T)}

theorem Connection.Inv.told (h : w.Inv) (hpipe : w.pipe = .close :: pipe)
    {force : Bool}
    (hs : SocketServer.closeSocket w.s w.id w.lock.isSome rs = .ok (s, r, force))
    {reports : List Report} {owed : List (Packet T)} {broken : Bool} :
    Connection.Inv { w with
      s := s, pipe := pipe, closing := force, reports := reports, owed := owed,
      broken := broken } := by
  obtain ⟨hid, hprotocol, hsending⟩ := closeSocket_same hs
  dsimp only at hid hprotocol hsending
  have hqueued : queued w.pipe = queued pipe := by
    rw [hpipe]
    rfl
  have horderly : ∀ s, Orderly s w.pipe w.log → Orderly s pipe w.log := fun s ho => by
    rw [hpipe] at ho
    exact ho.tail
  have hmem : ∀ c ∈ pipe, c ∈ w.pipe := fun c hc => by
    rw [hpipe]
    exact List.mem_cons_of_mem _ hc
  have hclears : ∀ t, Clear w.s w.pipe t → Clear w.s pipe t := fun t hc =>
    ⟨hc.type, hc.dw, hc.lists, hc.whole, hqueued ▸ hc.pipe⟩
  refine h.settle rfl rfl rfl rfl ⟨hid, hprotocol⟩ ?_ ?_ ?_ hmem ?_ ?_
  · dsimp only
    rw [hsending]
  · dsimp only
    rw [Socket.sendingRef, Socket.sendingRef, hsending, hqueued]
  · rcases h.closeSocket hs with rfl | ⟨-, rfl⟩ | ⟨-, htype, -⟩
    · exact h.type
    · exact .inr (.inr rfl)
    · rcases htype with htype | htype
      · dsimp only
        rw [htype]
        exact h.type
      · exact .inr htype
  · rcases h.closeSocket hs with rfl | ⟨hopen, rfl⟩ | ⟨-, -, ho⟩
    · exact horderly _ h.orderly
    · exact horderly _ (h.orderly.half hopen)
    · exact horderly _ ho
  · intro t hlock hc
    rcases h.closeSocket hs with rfl | ⟨hopen, rfl⟩ | ⟨hnone, -, -⟩
    · exact hclears t hc
    · have hc' := hclears t hc
      exact ⟨fun hbad => SocketType.noConfusion hbad, hc'.dw, hc'.lists, hc'.whole, hc'.pipe⟩
    · rw [hnone] at hlock
      cases hlock

variable {request : Request (Packet T)} {low : Bool}

theorem Connection.Inv.sendSocket (h : w.Inv)
    (hpipe : w.pipe = .send request low :: pipe) :
    Orderly (SocketServer.sendSocket w.s request low).1 pipe w.log ∧
      ∀ t, Clear w.s w.pipe t → Clear (SocketServer.sendSocket w.s request low).1 pipe t := by
  have hmem : .send request low ∈ w.pipe := by
    rw [hpipe]
    exact List.mem_cons_self
  obtain ⟨hid, hdata, hlow, hdirect⟩ := h.requests request low hmem
  have ho := h.orderly
  rw [hpipe] at ho
  have hrest : ∀ t, Clear w.s w.pipe t →
      request.tag.thread ≠ t ∧ ∀ p ∈ queued pipe, p.thread ≠ t := fun t hc => by
    have hall := hc.pipe
    rw [hpipe, queued_send] at hall
    exact List.forall_mem_cons.mp hall
  have hnew : ∀ t, Clear w.s w.pipe t → ∀ wb ∈ [request.toBuffer],
      (wb.tag.direct = false ∧ wb.tag.thread ≠ t) ∧ wb.data = wb.tag.data := fun t hc wb hwb => by
    rw [List.mem_singleton.mp hwb]
    exact ⟨⟨hdirect, (hrest t hc).1⟩, hdata⟩
  have happend : ∀ t, Clear w.s w.pipe t → ∀ wb ∈ w.s.high ++ [request.toBuffer] ++ w.s.low,
      (wb.tag.direct = false ∧ wb.tag.thread ≠ t) ∧ wb.data = wb.tag.data := fun t hc wb hwb => by
    rw [List.append_assoc, List.mem_append, List.mem_append] at hwb
    rcases hwb with hwb | hwb | hwb
    · exact ⟨hc.lists wb (List.mem_append_left _ hwb), hc.whole wb (List.mem_append_left _ hwb)⟩
    · exact hnew t hc wb hwb
    · exact ⟨hc.lists wb (List.mem_append_right _ hwb), hc.whole wb (List.mem_append_right _ hwb)⟩
  have happend' : ∀ t, Clear w.s w.pipe t → ∀ wb ∈ w.s.high ++ (w.s.low ++ [request.toBuffer]),
      (wb.tag.direct = false ∧ wb.tag.thread ≠ t) ∧ wb.data = wb.tag.data := fun t hc wb hwb => by
    rw [← List.append_assoc] at hwb
    rcases List.mem_append.mp hwb with hwb | hwb
    · exact ⟨hc.lists wb hwb, hc.whole wb hwb⟩
    · exact hnew t hc wb hwb
  have hcase := sendSocket_case low (h.id.trans hid.symm) h.protocol h.type
  generalize SocketServer.sendSocket w.s request low = x at hcase
  cases hcase with
  | dropped htype =>
    refine ⟨ho.drop ?_, fun t hc => ⟨hc.type, hc.dw, hc.lists, hc.whole, (hrest t hc).2⟩⟩
    rcases htype with htype | htype
    · rw [htype]
      exact ⟨by decide, by decide⟩
    · rw [htype]
      exact ⟨by decide, by decide⟩
  | first htype hempty _ =>
    have hopen : w.s.type ≠ .invalid := by
      rw [htype]
      decide
    exact ⟨(ho.high hopen hdirect (.inl hempty.2)).congr rfl rfl rfl rfl fun hsize => hsize,
      fun t hc =>
      ⟨hc.type, hc.dw, fun wb hwb => (happend t hc wb hwb).1, fun wb hwb => (happend t hc wb hwb).2,
        (hrest t hc).2⟩⟩
  | high htype _ hlow' _ =>
    have hopen : w.s.type ≠ .invalid := by
      rcases htype with htype | htype
      · rw [htype]
        decide
      · rw [htype]
        decide
    exact ⟨(ho.high hopen hdirect (.inr (hlow.trans hlow'))).congr rfl rfl rfl rfl
        fun hsize => hsize, fun t hc =>
      ⟨hc.type, hc.dw, fun wb hwb => (happend t hc wb hwb).1, fun wb hwb => (happend t hc wb hwb).2,
        (hrest t hc).2⟩⟩
  | low htype _ hlow' _ =>
    have hopen : w.s.type ≠ .invalid := by
      rcases htype with htype | htype
      · rw [htype]
        decide
      · rw [htype]
        decide
    exact ⟨(ho.toLow hopen hdirect (hlow.trans hlow')).congr rfl rfl rfl rfl fun hsize => hsize,
      fun t hc =>
      ⟨hc.type, hc.dw, fun wb hwb => (happend' t hc wb hwb).1,
       fun wb hwb => (happend' t hc wb hwb).2, (hrest t hc).2⟩⟩

theorem Connection.Inv.counted (h : w.Inv)
    (hpipe : w.pipe = .send request low :: pipe) : w.s.sendingRef ≠ 0 := by
  obtain ⟨l, -, -, hn⟩ := h.count
  rw [hpipe, queued_send, List.length_cons] at hn
  omega

theorem Connection.Inv.decSendingRef (h : w.Inv)
    (hpipe : w.pipe = .send request low :: pipe) :
    SocketServer.decSendingRef (SocketServer.sendSocket w.s request low).1 request.id =
      .ok { (SocketServer.sendSocket w.s request low).1 with sending := w.s.sending - 1 } := by
  obtain ⟨hid, hprotocol, hsending⟩ := sendSocket_same w.s request low
  have hmem : .send request low ∈ w.pipe := by
    rw [hpipe]
    exact List.mem_cons_self
  have hrequest := (h.requests request low hmem).1
  have hcounted : (SocketServer.sendSocket w.s request low).1.sendingRef ≠ 0 := by
    rw [Socket.sendingRef, hsending]
    exact h.counted hpipe
  unfold SocketServer.decSendingRef
  rw [if_pos ⟨(hid.trans h.id).trans hrequest.symm, hprotocol.trans h.protocol⟩, if_neg hcounted,
    hsending]

theorem Connection.Inv.taken (h : w.Inv) {request : Request (Packet T)} {low : Bool}
    {pipe : List (Package T)} {s : Socket (Packet T)} (hpipe : w.pipe = .send request low :: pipe)
    (hs : SocketServer.decSendingRef (SocketServer.sendSocket w.s request low).1 request.id = .ok s)
    {reports : List Report} :
    Connection.Inv { w with s := s, pipe := pipe, reports := reports } := by
  rw [h.decSendingRef hpipe] at hs
  cases hs
  have hsame := sendSocket_same w.s request low
  have hcounted := h.counted hpipe
  obtain ⟨horderly, hclear⟩ := h.sendSocket hpipe
  unfold Socket.sendingRef at hcounted
  refine h.settle rfl rfl rfl rfl ⟨hsame.1, hsame.2.1⟩ ?_ ?_ ?_ (fun c hc => ?_) ?_ fun t _ hc => ?_
  · dsimp only
    omega
  · change w.s.sending % 2 ^ 16 + (queued pipe).length =
      (w.s.sending - 1) % 2 ^ 16 + (queued w.pipe).length
    rw [hpipe, queued_send, List.length_cons]
    omega
  · have hcase := sendSocket_case low (h.id.trans (h.requests request low (by
      rw [hpipe]
      exact List.mem_cons_self)).1.symm) h.protocol h.type
    generalize SocketServer.sendSocket w.s request low = x at hcase
    have htype := h.type
    cases hcase with
    | dropped _ | first _ _ _ | high _ _ _ _ | low _ _ _ _ => exact htype
  · dsimp only at hc
    rw [hpipe]
    exact List.mem_cons_of_mem _ hc
  · exact horderly.congr rfl rfl rfl rfl fun hsize => hsize
  · have hc' := hclear t hc
    exact ⟨hc'.type, hc'.dw, hc'.lists, hc'.whole, hc'.pipe⟩

variable {p : Parcel}

theorem Connection.Inv.count_step (h : w.Inv)
    (hplace : w.place t = .queue p low)
    (hs : incSendingRef w.s w.id = some s) :
    Connection.Inv { w.goto t (.counted p low) with s := s } := by
  have hcounted : ¬ (w.place t).Counted := by
    rw [hplace]
    exact fun hbad => hbad
  unfold incSendingRef at hs
  rw [if_pos h.tag] at hs
  split at hs
  · cases hs
  · rename_i hfull
    cases hs
    have hsending : (w.s.sending + 1) / 2 ^ 16 = w.s.sending / 2 ^ 16 ∧
        (w.s.sending + 1) % 2 ^ 16 = w.s.sendingRef + 1 := by
      unfold Socket.sendingRef at hfull ⊢
      omega
    constructor
    · exact h.id
    · exact h.protocol
    · exact h.type
    · dsimp only [Connection.goto]
      rw [hsending.1]
      exact h.tag
    · change Counts _ ((w.s.sending + 1) % 2 ^ 16) _
      rw [hsending.2]
      exact h.count.count hcounted trivial
    · exact h.failed
    · exact h.requests
    · exact h.holds fun hbad => hbad
    · intro t' p' hp
      change Function.update w.place t _ t' = _ at hp
      by_cases ht : t' = t
      · subst ht
        rw [Function.update_self] at hp
        exact Place.noConfusion hp
      · rw [Function.update_of_ne ht] at hp
        have hc := h.writing t' p' hp
        exact ⟨hc.type, hc.dw, hc.lists, hc.whole, hc.pipe⟩
    · exact h.orderly.congr rfl rfl rfl rfl fun hsize => hsize

theorem Connection.Inv.push_step (h : w.Inv)
    (hplace : w.place t = .counted p low) :
    Connection.Inv { w.goto t .idle with
      pipe := w.pipe ++ [.send (w.request t p low false) low]
      log := w.log ++ [w.packet t p low false] } := by
  have hcounted : (w.place t).Counted := by
    rw [hplace]
    trivial
  constructor
  · exact h.id
  · exact h.protocol
  · exact h.type
  · exact h.tag
  · dsimp only [Connection.goto]
    rw [queued_append, List.length_append]
    exact h.count.push hcounted fun hbad => hbad
  · exact h.failed
  · intro request low' hmem
    rcases List.mem_append.mp hmem with hmem | hmem
    · exact h.requests request low' hmem
    · cases List.mem_singleton.mp hmem
      exact ⟨rfl, rfl, rfl, rfl⟩
  · exact h.holds fun hbad => hbad
  · intro t' p' hp
    change Function.update w.place t _ t' = _ at hp
    by_cases ht : t' = t
    · subst ht
      rw [Function.update_self] at hp
      exact Place.noConfusion hp
    · rw [Function.update_of_ne ht] at hp
      have hc := h.writing t' p' hp
      refine ⟨hc.type, hc.dw, hc.lists, hc.whole, fun q hq => ?_⟩
      dsimp only at hq
      rw [queued_append] at hq
      rcases List.mem_append.mp hq with hq | hq
      · exact hc.pipe q hq
      · rw [List.mem_singleton.mp hq]
        exact Ne.symm ht
  · exact h.orderly.push (w.request t p low false) low rfl

theorem directWrite_same {τ : Type} (s : Socket τ) (request : Request τ) (n : Nat) :
    s.Same (directWrite s request n) ∧ (directWrite s request n).type = s.type := by
  unfold directWrite
  split
  · exact ⟨.refl s, rfl⟩
  · exact ⟨.refl s, rfl⟩

theorem Connection.Inv.write_step (h : w.Inv) (n : Nat)
    (hplace : w.place t = .writing p) :
    Connection.Inv { w.goto t .idle with
      s := directWrite w.s (w.request t p false true) n
      lock := none
      log := w.log ++ [w.packet t p false true] } := by
  obtain ⟨⟨hid, hprotocol, hsending⟩, htype⟩ := directWrite_same w.s (w.request t p false true) n
  have hholds : (w.place t).Holds := by
    rw [hplace]
    trivial
  have hreleased : ∀ t', ¬ (Function.update w.place t .idle t').Holds :=
    h.released (fun hbad => hbad) hholds
  constructor
  · exact hid.trans h.id
  · exact hprotocol.trans h.protocol
  · dsimp only
    rw [htype]
    exact h.type
  · dsimp only
    rw [hsending]
    exact h.tag
  · dsimp only
    rw [Socket.sendingRef, hsending]
    refine h.count.update ?_
    rw [hplace]
    exact Iff.rfl
  · exact h.failed
  · exact h.requests
  · exact fun t' ht' => absurd ht' (hreleased t')
  · intro t' p' hp
    refine absurd ?_ (hreleased t')
    change Function.update w.place t Place.idle t' = _ at hp
    rw [hp]
    trivial
  · exact h.orderly.write (h.writing t p hplace) rfl rfl n

theorem Connection.Inv.step {a : Action T} (h : w.Inv) (hstep : w.Step a w') : w'.Inv := by
  cases hstep with
  | send _ hplace _ _ =>
    refine h.goto (by rw [hplace]; exact Iff.rfl) (h.holds fun hbad => hbad) fun p hp => ?_
    exact Place.noConfusion hp
  | check _ hplace =>
    split
    · refine h.goto (by rw [hplace]; exact Iff.rfl) (h.holds fun hbad => hbad) fun p hp => ?_
      exact Place.noConfusion hp
    · refine h.goto (by rw [hplace]; exact Iff.rfl) (h.holds fun hbad => hbad) fun p hp => ?_
      exact Place.noConfusion hp
  | @lock t p _ hplace hlock =>
    refine h.goto (by rw [hplace]; exact Iff.rfl) (fun t' ht' => ?_) fun p hp =>
      Place.noConfusion hp
    by_cases heq : t' = t
    · rw [heq]
    · rw [Function.update_of_ne heq] at ht'
      have hbad := h.lock t' ht'
      rw [hlock] at hbad
      cases hbad
  | busy _ hplace _ =>
    refine h.goto (by rw [hplace]; exact Iff.rfl) (h.holds fun hbad => hbad) fun p hp => ?_
    exact Place.noConfusion hp
  | @confirm t p _ hplace hdirect =>
    have hholds : (w.place t).Holds := by
      rw [hplace]
      trivial
    refine h.goto (by rw [hplace]; exact Iff.rfl) (fun t' ht' => ?_) fun _ _ => h.clear hdirect t
    by_cases heq : t' = t
    · rw [heq]
      exact h.lock t hholds
    · rw [Function.update_of_ne heq] at ht'
      exact h.lock t' ht'
  | @unlock t p _ hplace _ =>
    have hholds : (w.place t).Holds := by
      rw [hplace]
      trivial
    have hreleased : ∀ t', ¬ (Function.update w.place t (.queue p false) t').Holds :=
      h.released (fun hbad => hbad) hholds
    exact h.goto (by rw [hplace]; exact Iff.rfl) (fun t' ht' => absurd ht' (hreleased t'))
      fun p hp => Place.noConfusion hp
  | @write t p n _ hplace _ => exact h.write_step n hplace
  | sendLow _ hplace _ _ =>
    refine h.goto (by rw [hplace]; exact Iff.rfl) (h.holds fun hbad => hbad) fun p hp => ?_
    exact Place.noConfusion hp
  | count _ hplace hs => exact h.count_step hplace hs
  | push _ hplace => exact h.push_step hplace
  | close _ =>
    have hqueued : queued (w.pipe ++ [.close]) = queued w.pipe := by
      rw [queued_append]
      exact List.append_nil _
    constructor
    · exact h.id
    · exact h.protocol
    · exact h.type
    · exact h.tag
    · dsimp only
      rw [hqueued]
      exact h.count
    · exact h.failed
    · intro request low hmem
      rcases List.mem_append.mp hmem with hmem | hmem
      · exact h.requests request low hmem
      · cases List.mem_singleton.mp hmem
    · exact h.lock
    · intro t p hp
      have hc := h.writing t p hp
      refine ⟨hc.type, hc.dw, hc.lists, hc.whole, ?_⟩
      dsimp only
      rw [hqueued]
      exact hc.pipe
    · exact h.orderly.close
  | taken _ _ hpipe hs => exact h.taken hpipe hs
  | notTaken _ _ hpipe ha =>
    rw [h.decSendingRef hpipe] at ha
    cases ha
  | closed _ _ hpipe hs => exact h.told hpipe hs
  | notClosed _ _ hpipe ha =>
    have hcase := closeSocket_case w.s w.id w.lock.isSome ‹_›
    rw [ha] at hcase
    cases hcase with
    | failed hid hsend => exact h.failing (sendBuffer_error h (not_or.mp hid).1 hsend).1
  | @event s r rs _ _ htype hs =>
    have hopen : w.s.type ≠ .invalid := by
      rcases htype with htype | htype
      · rw [htype]
        decide
      · rw [htype]
        decide
    have hkeeps := sendBuffer_keeps w.s w.lock.isSome rs
    rw [hs] at hkeeps
    obtain ⟨hid, hprotocol, hsending⟩ := hkeeps
    dsimp only at hid hprotocol hsending
    refine h.settle rfl rfl rfl rfl ⟨hid, hprotocol⟩ ?_ ?_ ?_ (fun c hc => hc) ?_ ?_
    · dsimp only
      rw [hsending]
    · dsimp only
      rw [Socket.sendingRef, Socket.sendingRef, hsending]
    · rcases h.sendBuffer hopen hs with ⟨rfl, -⟩ | ⟨-, htype', -⟩
      · exact h.type
      · rcases htype' with htype' | ⟨htype', -⟩
        · dsimp only
          rw [htype']
          exact h.type
        · exact .inr (.inl htype')
    · rcases h.sendBuffer hopen hs with ⟨rfl, -⟩ | ⟨-, -, ho⟩
      · exact h.orderly
      · exact ho
    · intro t hlock hc
      rcases h.sendBuffer hopen hs with ⟨rfl, -⟩ | ⟨hnone, -, -⟩
      · exact hc
      · rw [hnone] at hlock
        cases hlock
  | notWritten _ _ htype ha =>
    refine h.failing (sendBuffer_error h ?_ ha).1
    rcases htype with htype | htype
    · rw [htype]
      decide
    · rw [htype]
      decide
  | connected _ _ htype =>
    refine h.settle rfl rfl rfl rfl ⟨rfl, rfl⟩ rfl rfl (.inl (.inr rfl)) (fun c hc => hc)
      (h.orderly.connect htype) fun t _ hc => ?_
    exact ⟨fun hbad => SocketType.noConfusion hbad, hc.dw, hc.lists, hc.whole, hc.pipe⟩
  | force _ _ hlock =>
    refine h.settle rfl rfl rfl rfl ⟨rfl, rfl⟩ rfl rfl (.inr (.inl rfl)) (fun c hc => hc)
      h.orderly.force fun t hlock' _ => ?_
    rw [hlock] at hlock'
    cases hlock'

end

end XsServer.SocketServer
