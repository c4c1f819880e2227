import XsServer.SocketServer.Connection
import Mathlib.Data.List.Nodup

/-! Packets of a connection are written whole, once, and in the order in which they were sent. -/

namespace XsServer.SocketServer

open Lib

variable {T : Type}

/-! ### The order of packets -/

def Package.packet : Package T → Option (Packet T)
  | .send request _ => some request.tag
  | .close => none

def queued (pipe : List (Package T)) : List (Packet T) := pipe.filterMap Package.packet

@[simp] theorem queued_append (pipe pipe' : List (Package T)) :
    queued (pipe ++ pipe') = queued pipe ++ queued pipe' := List.filterMap_append

@[simp] theorem queued_send (request : Request (Packet T)) (low : Bool) (pipe : List (Package T)) :
    queued (.send request low :: pipe) = request.tag :: queued pipe := rfl

/-- A packet that was written directly comes before all that were queued later. -/
def Before (a b : Packet T) : Prop := b.direct = true → a.no ≤ b.no

theorem Before.queued {a b : Packet T} (h : b.direct = false) : Before a b :=
  fun hb => absurd hb (by rw [h]; exact Bool.false_ne_true)

section

variable [DecidableEq T]

def ofSource (c : T × Bool) (l : List (Packet T)) : List (Packet T) :=
  l.filter fun p => (p.thread, p.low) = c

@[simp] theorem ofSource_append (c : T × Bool) (l l' : List (Packet T)) :
    ofSource c (l ++ l') = ofSource c l ++ ofSource c l' := List.filter_append ..

variable {l : List (Packet T)}

theorem ofSource_eq_nil {c : T × Bool}
    (h : ∀ p ∈ l, (p.thread, p.low) ≠ c) : ofSource c l = [] := by
  rw [ofSource, List.filter_eq_nil_iff]
  exact fun p hp hc => h p hp (of_decide_eq_true hc)

variable {p : Packet T}

theorem mem_ofSource :
    p ∈ ofSource (p.thread, p.low) l ↔ p ∈ l := by
  rw [ofSource, List.mem_filter]
  exact and_iff_left (decide_eq_true rfl)

/-- What is in the file is the beginning of whole packets: each was sent, none comes twice, those of
one thread with one priority come as they were sent, and one that was written directly comes before
those that were queued later. -/
structure Delivers (log order : List (Packet T)) (fd : List UInt8) : Prop where
  bytes : fd <+: order.flatMap (·.data)
  sent : ∀ p ∈ order, p ∈ log
  once : order.Nodup
  inOrder : ∀ c, (ofSource c order).Sublist (ofSource c log)
  direct : order.Pairwise Before

theorem sent_of_sublist {log order : List (Packet T)}
    (h : ∀ c, (ofSource c order).Sublist (ofSource c log)) (hp : p ∈ order) : p ∈ log :=
  mem_ofSource.mp ((h _).subset (mem_ofSource.mpr hp))

theorem nodup_of_sublist {log order : List (Packet T)} (hlog : log.Nodup)
    (h : ∀ c, (ofSource c order).Sublist (ofSource c log)) : order.Nodup := by
  rw [List.nodup_iff_count_le_one]
  intro p
  have hc : (decide ((p.thread, p.low) = (p.thread, p.low))) = true := decide_eq_true rfl
  have hcount : ∀ l : List (Packet T), (ofSource (p.thread, p.low) l).count p = l.count p :=
    fun l => List.count_filter hc
  rw [← hcount order]
  calc (ofSource (p.thread, p.low) order).count p
    _ ≤ (ofSource (p.thread, p.low) log).count p := (h _).count_le p
    _ = log.count p := hcount log
    _ ≤ 1 := List.nodup_iff_count_le_one.mp hlog p

theorem Delivers.mono {log order : List (Packet T)} {fd : List UInt8} (h : Delivers log order fd)
    (p : Packet T) : Delivers (log ++ [p]) order fd where
  bytes := h.bytes
  sent q hq := List.mem_append_left _ (h.sent q hq)
  once := h.once
  inOrder c := by
    rw [ofSource_append]
    exact (h.inOrder c).trans (List.sublist_append_left _ _)
  direct := h.direct

/-! ### Sockets and the packets that were sent -/

/-- The packets of the socket and those in the pipe, of all that were sent: while the socket is open
they are in order, and until it was told to close none is missing. -/
structure Orderly (s : Socket (Packet T)) (pipe : List (Package T)) (log : List (Packet T)) :
    Prop where
  numbers : log.map (·.no) = List.range log.length
  size : s.type ≠ .invalid → s.Sized
  low : ∀ wb ∈ s.low, wb.tag.low = true ∧ wb.tag.direct = false
  direct : s.type ≠ .invalid → s.order.Pairwise Before
  inOrder : s.type ≠ .invalid →
    ∀ c, (ofSource c (s.order ++ queued pipe)).Sublist (ofSource c log)
  kept : s.type = .connecting ∨ s.type = .connected →
    ∀ c, ofSource c (s.order ++ queued pipe) = ofSource c log
  closed : s.type = .invalid → s.pending = []

variable {s t : Socket (Packet T)} {pipe : List (Package T)} {log : List (Packet T)}

theorem Orderly.nodup (h : Orderly s pipe log) : log.Nodup := by
  apply List.Nodup.of_map (·.no)
  rw [h.numbers]
  exact List.nodup_range

theorem Orderly.no_lt (h : Orderly s pipe log) (hp : p ∈ log) : p.no < log.length := by
  have hmem := List.mem_map_of_mem (f := fun p : Packet T => p.no) hp
  rw [h.numbers] at hmem
  exact List.mem_range.mp hmem

theorem Orderly.inOrder' (h : Orderly s pipe log) (htype : s.type ≠ .invalid) (c : T × Bool) :
    (ofSource c s.order).Sublist (ofSource c log) := by
  refine List.Sublist.trans ?_ (h.inOrder htype c)
  rw [ofSource_append]
  exact List.sublist_append_left _ _

theorem Orderly.congr (h : Orderly s pipe log) (htype : t.type = s.type) (hdone : t.done = s.done)
    (hpending : t.pending = s.pending) (hlow : t.low = s.low) (hsize : s.Sized → t.Sized) :
    Orderly t pipe log := by
  have horder : t.order = s.order := by rw [Socket.order, hdone, hpending, Socket.order]
  constructor
  · exact h.numbers
  · rw [htype]
    exact fun ht => hsize (h.size ht)
  · rw [hlow]
    exact h.low
  · rw [htype, horder]
    exact h.direct
  · rw [htype, horder]
    exact h.inOrder
  · rw [htype, horder]
    exact h.kept
  · rw [htype, hpending]
    exact h.closed

theorem Orderly.written (h : Orderly s pipe log) (htype : s.type ≠ .invalid) (hsent : Sent s t) :
    Orderly t pipe log where
  numbers := h.numbers
  size _ := hsent.size (h.size htype)
  low wb hwb := by
    obtain ⟨wb', hmem, n, rfl⟩ := hsent.low wb hwb
    exact h.low wb' hmem
  direct _ := by
    rw [hsent.order]
    exact h.direct htype
  inOrder _ := by
    rw [hsent.order]
    exact h.inOrder htype
  kept ht := by
    rw [hsent.order]
    exact h.kept (hsent.type ▸ ht)
  closed ht := absurd (hsent.type.symm.trans ht) htype

theorem Orderly.force (h : Orderly s pipe log) : Orderly (forceClose s) pipe log where
  numbers := h.numbers
  size ht := absurd rfl ht
  low _ hwb := absurd hwb List.not_mem_nil
  direct ht := absurd rfl ht
  inOrder ht := absurd rfl ht
  kept ht := by
    rcases ht with ht | ht
    · exact SocketType.noConfusion ht
    · exact SocketType.noConfusion ht
  closed _ := rfl

theorem Orderly.half (h : Orderly s pipe log) (htype : s.type ≠ .invalid) :
    Orderly { s with type := .halfclose } pipe log where
  numbers := h.numbers
  size _ := h.size htype
  low := h.low
  direct _ := h.direct htype
  inOrder _ := h.inOrder htype
  kept ht := by
    rcases ht with ht | ht
    · exact SocketType.noConfusion ht
    · exact SocketType.noConfusion ht
  closed ht := SocketType.noConfusion ht

theorem Orderly.connect (h : Orderly s pipe log) (htype : s.type = .connecting) :
    Orderly (reportConnect s) pipe log := by
  have hopen : s.type ≠ .invalid := by
    rw [htype]
    decide
  constructor
  · exact h.numbers
  · exact fun _ => h.size hopen
  · exact h.low
  · exact fun _ => h.direct hopen
  · exact fun _ => h.inOrder hopen
  · exact fun _ => h.kept (.inl htype)
  · exact fun ht => SocketType.noConfusion ht

omit [DecidableEq T] in
theorem numbers_append (h : log.map (·.no) = List.range log.length)
    (hp : p.no = log.length) :
    (log ++ [p]).map (·.no) = List.range (log ++ [p]).length := by
  rw [List.map_append, h, List.length_append, List.length_singleton, List.range_succ,
    List.map_singleton, hp]

theorem Orderly.push (h : Orderly s pipe log) (request : Request (Packet T)) (low : Bool)
    (hno : request.tag.no = log.length) :
    Orderly s (pipe ++ [.send request low]) (log ++ [request.tag]) where
  numbers := numbers_append h.numbers hno
  size := h.size
  low := h.low
  direct := h.direct
  inOrder ht c := by
    rw [queued_append, ← List.append_assoc, ofSource_append c (_ ++ _), ofSource_append c log]
    exact (h.inOrder ht c).append_right _
  kept ht c := by
    rw [queued_append, ← List.append_assoc, ofSource_append c (_ ++ _), h.kept ht c,
      ofSource_append c log]
    rfl
  closed := h.closed

theorem Orderly.close (h : Orderly s pipe log) : Orderly s (pipe ++ [.close]) log := by
  have hqueued : queued (pipe ++ [.close]) = queued pipe := by
    rw [queued_append]
    exact List.append_nil _
  constructor
  · exact h.numbers
  · exact h.size
  · exact h.low
  · exact h.direct
  · rw [hqueued]
    exact h.inOrder
  · rw [hqueued]
    exact h.kept
  · exact h.closed

theorem Orderly.tail (h : Orderly s (.close :: pipe) log) : Orderly s pipe log :=
  ⟨h.numbers, h.size, h.low, h.direct, h.inOrder, h.kept, h.closed⟩

variable {request : Request (Packet T)} {low : Bool}

theorem Orderly.drop
    (h : Orderly s (.send request low :: pipe) log)
    (htype : s.type ≠ .connecting ∧ s.type ≠ .connected) : Orderly s pipe log where
  numbers := h.numbers
  size := h.size
  low := h.low
  direct := h.direct
  inOrder ht c := by
    refine List.Sublist.trans ?_ (h.inOrder ht c)
    rw [queued_send, ofSource_append, ofSource_append]
    exact ((List.sublist_cons_self _ _).filter _).append_left _
  kept ht := absurd ht (not_or.mpr htype)
  closed := h.closed

theorem ofSource_swap
    (h : ∀ q ∈ l, (q.thread, q.low) ≠ (p.thread, p.low)) (c : T × Bool) :
    ofSource c (p :: l) = ofSource c (l ++ [p]) := by
  by_cases hc : (p.thread, p.low) = c
  · have hnil : ofSource c l = [] := ofSource_eq_nil (hc ▸ h)
    rw [ofSource_append, hnil, ← List.singleton_append, ofSource_append, hnil]
    exact List.append_nil _
  · have hnil : ofSource c [p] = [] := by
      apply ofSource_eq_nil
      intro q hq
      rw [List.mem_singleton.mp hq]
      exact hc
    rw [ofSource_append, hnil, ← List.singleton_append, ofSource_append, hnil]
    exact (List.append_nil _).symm

omit [DecidableEq T] in
theorem pairwise_insert (l' : List (Packet T))
    (h : (l ++ l').Pairwise Before) (hp : p.direct = false) (hl' : ∀ q ∈ l', q.direct = false) :
    (l ++ p :: l').Pairwise Before := by
  obtain ⟨hl, hl2, hcross⟩ := List.pairwise_append.mp h
  rw [List.pairwise_append, List.pairwise_cons]
  refine ⟨hl, ⟨fun q hq => .queued (hl' q hq), hl2⟩, fun a ha b hb => ?_⟩
  rcases List.mem_cons.mp hb with rfl | hb
  · exact .queued hp
  · exact hcross a ha b hb

theorem Orderly.high
    (h : Orderly s (.send request low :: pipe) log) (htype : s.type ≠ .invalid)
    (hdirect : request.tag.direct = false) (hlow : s.low = [] ∨ request.tag.low = false) :
    Orderly (appendSendbuffer s request) pipe log := by
  have htags : ∀ q ∈ tags s.low, q.low = true ∧ q.direct = false := fun q hq => by
    obtain ⟨wb, hwb, rfl⟩ := List.mem_map.mp hq
    exact h.low wb hwb
  have hold : s.order = (s.done ++ tags (s.direct ++ s.high)) ++ tags s.low := by
    rw [Socket.order, Socket.pending, tags_append, List.append_assoc]
  have hnew : (appendSendbuffer s request).order =
      (s.done ++ tags (s.direct ++ s.high)) ++ request.tag :: tags s.low := by
    rw [Socket.order, Socket.pending]
    simp only [appendSendbuffer, Socket.direct, tags_append, List.append_assoc]
    rfl
  have hsource : ∀ c, ofSource c ((appendSendbuffer s request).order ++ queued pipe) =
      ofSource c (s.order ++ queued (.send request low :: pipe)) := fun c => by
    have hswap := ofSource_swap (p := request.tag) (l := tags s.low) (fun q hq hbad => by
      rcases hlow with hnil | hlow
      · rw [hnil] at hq
        exact absurd hq List.not_mem_nil
      · have heq := congrArg Prod.snd hbad
        dsimp only at heq
        rw [(htags q hq).1, hlow] at heq
        exact Bool.noConfusion heq) c
    have hcons : ofSource c (request.tag :: queued pipe) =
        ofSource c [request.tag] ++ ofSource c (queued pipe) := ofSource_append c [request.tag] _
    rw [hold, hnew]
    simp only [queued_send, ofSource_append, hswap, hcons, List.append_assoc]
  constructor
  · exact h.numbers
  · exact fun _ => appendSendbuffer_sized request (h.size htype)
  · exact h.low
  · intro _
    rw [hnew]
    exact pairwise_insert _ (hold ▸ h.direct htype) hdirect fun q hq => (htags q hq).2
  · intro _ c
    rw [hsource]
    exact h.inOrder htype c
  · intro ht c
    rw [hsource]
    exact h.kept ht c
  · exact fun ht => absurd ht htype

theorem Orderly.toLow
    (h : Orderly s (.send request low :: pipe) log) (htype : s.type ≠ .invalid)
    (hdirect : request.tag.direct = false) (hlow : request.tag.low = true) :
    Orderly (appendSendbufferLow s request) pipe log := by
  have hnew : (appendSendbufferLow s request).order = s.order ++ [request.tag] := by
    rw [Socket.order, Socket.pending, Socket.order, Socket.pending]
    simp only [appendSendbufferLow, Socket.direct, tags_append, List.append_assoc]
    rfl
  have hall : (appendSendbufferLow s request).order ++ queued pipe =
      s.order ++ queued (.send request low :: pipe) := by
    rw [hnew, queued_send, ← List.append_cons]
  constructor
  · exact h.numbers
  · exact fun _ => appendSendbufferLow_sized request (h.size htype)
  · intro wb hwb
    rcases List.mem_append.mp hwb with hwb | hwb
    · exact h.low wb hwb
    · rw [List.mem_singleton.mp hwb]
      exact ⟨hlow, hdirect⟩
  · intro _
    rw [hnew]
    refine pairwise_insert [] ?_ hdirect fun q hq => absurd hq List.not_mem_nil
    rw [List.append_nil]
    exact h.direct htype
  · intro _ c
    rw [hall]
    exact h.inOrder htype c
  · intro ht c
    rw [hall]
    exact h.kept ht c
  · exact fun ht => absurd ht htype

omit [DecidableEq T] in
theorem directWrite_order (hdw : s.dw = none) (request : Request (Packet T)) (n : Nat) :
    (directWrite s request n).order = s.done ++ request.tag :: tags (s.high ++ s.low) := by
  unfold directWrite
  split
  · rfl
  · rw [Socket.order, pending_of_dw (by exact hdw)]
    exact List.append_cons .. |>.symm

/-- What holds while a thread may write directly: nothing of what is still to be written, or in the
pipe, is a packet of it. -/
structure Clear (s : Socket (Packet T)) (pipe : List (Package T)) (t : T) : Prop where
  type : s.type ≠ .invalid
  dw : s.dw = none
  lists : ∀ wb ∈ s.high ++ s.low, wb.tag.direct = false ∧ wb.tag.thread ≠ t
  whole : ∀ wb ∈ s.high ++ s.low, wb.data = wb.tag.data
  pipe : ∀ p ∈ queued pipe, p.thread ≠ t

theorem Orderly.write {thread : T} (h : Orderly s pipe log) (hclear : Clear s pipe thread)
    {request : Request (Packet T)} (hno : request.tag.no = log.length)
    (hthread : request.tag.thread = thread) (n : Nat) :
    Orderly (directWrite s request n) pipe (log ++ [request.tag]) := by
  have horder := directWrite_order hclear.dw request n
  have hold : s.order = s.done ++ tags (s.high ++ s.low) := by
    rw [Socket.order, pending_of_dw hclear.dw]
  have htags : ∀ q ∈ tags (s.high ++ s.low), q.direct = false ∧ q.thread ≠ thread := fun q hq => by
    obtain ⟨wb, hwb, rfl⟩ := List.mem_map.mp hq
    exact hclear.lists wb hwb
  have hother : ∀ q ∈ tags (s.high ++ s.low) ++ queued pipe,
      (q.thread, q.low) ≠ (request.tag.thread, request.tag.low) := fun q hq hbad => by
    have heq := (congrArg Prod.fst hbad).trans hthread
    rcases List.mem_append.mp hq with hq | hq
    · exact (htags q hq).2 heq
    · exact hclear.pipe q hq heq
  have hsource : ∀ c, ofSource c ((directWrite s request n).order ++ queued pipe) =
      ofSource c (s.order ++ queued pipe) ++ ofSource c [request.tag] := fun c => by
    rw [horder, hold, List.append_assoc, List.cons_append, ofSource_append, ofSource_swap hother,
      ofSource_append, ← List.append_assoc, ← ofSource_append, List.append_assoc]
  have htype : (directWrite s request n).type = s.type := by
    unfold directWrite
    split
    · rfl
    · rfl
  have hlists : (directWrite s request n).low = s.low ∧
      (s.Sized → (directWrite s request n).Sized) := by
    unfold directWrite
    split
    · exact ⟨rfl, id⟩
    · exact ⟨rfl, id⟩
  constructor
  · exact numbers_append h.numbers hno
  · exact fun _ => hlists.2 (h.size hclear.type)
  · rw [hlists.1]
    exact h.low
  · intro _
    have hdirect := hold ▸ h.direct hclear.type
    obtain ⟨hl, hl2, hcross⟩ := List.pairwise_append.mp hdirect
    rw [horder, List.pairwise_append, List.pairwise_cons]
    refine ⟨hl, ⟨fun q hq => .queued (htags q hq).1, hl2⟩, fun a ha b hb => ?_⟩
    rcases List.mem_cons.mp hb with rfl | hb
    · intro _
      have hmem : a ∈ log := by
        apply sent_of_sublist (h.inOrder' hclear.type)
        rw [hold]
        exact List.mem_append_left _ ha
      rw [hno]
      exact (h.no_lt hmem).le
    · exact hcross a ha b hb
  · intro _ c
    rw [hsource, ofSource_append c log]
    exact (h.inOrder hclear.type c).append_right _
  · intro ht c
    rw [hsource, ofSource_append c log, h.kept (htype ▸ ht)]
  · exact fun ht => absurd (htype.symm.trans ht) hclear.type

end

end XsServer.SocketServer
