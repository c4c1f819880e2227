import XsServer.Net.Queue
import XsServer.Lib.Framing

/-! What `filter` does with the bytes of a socket, whatever the chunks they come in: the nodes of
the hash chains hold what is left of the streams, and the ring the packets that were not returned
at once.  What was left of a stream and the new bytes are split into packets. -/

namespace XsServer.Net

open Lib Lib.Ring

def nextPacket : List UInt8 → Option (List UInt8 × List UInt8)
  | b0 :: b1 :: bs =>
    if bs.length < readSize b0 b1 then none
    else some (bs.take (readSize b0 b1), bs.drop (readSize b0 b1))
  | _ => none

/-- A packet is its size in two bytes, the higher one first, and that many bytes. -/
def packets : Framing UInt8 (List UInt8) where
  next := nextPacket
  next_lt := by
    intro bs a r h
    match bs with
    | b0 :: b1 :: bs =>
      simp only [nextPacket, Option.ite_none_left_eq_some, Option.some.injEq, Prod.mk.injEq] at h
      rw [← h.2.2, List.length_drop, List.length_cons, List.length_cons]
      omega
  next_append := by
    intro bs a r h cs
    match bs with
    | b0 :: b1 :: bs =>
      simp only [nextPacket, Option.ite_none_left_eq_some, Option.some.injEq, Prod.mk.injEq] at h
      obtain ⟨hle, rfl, rfl⟩ := h
      simp only [List.cons_append, nextPacket]
      rw [if_neg (by rw [List.length_append]; omega), List.take_append_of_le_length (by omega),
        List.drop_append_of_le_length (by omega)]

theorem split_nil : packets.split [] = ([], []) := Framing.split_none rfl

theorem split_header (b : UInt8) : packets.split [b] = ([], [b]) := Framing.split_none rfl

theorem split_short {b0 b1 : UInt8} {bs : List UInt8} (h : bs.length < readSize b0 b1) :
    packets.split (b0 :: b1 :: bs) = ([], b0 :: b1 :: bs) :=
  Framing.split_none (if_pos h)

theorem split_packet {b0 b1 : UInt8} {bs : List UInt8} (h : readSize b0 b1 ≤ bs.length) :
    packets.split (b0 :: b1 :: bs) =
      (bs.take (readSize b0 b1) :: (packets.split (bs.drop (readSize b0 b1))).1,
        (packets.split (bs.drop (readSize b0 b1))).2) :=
  Framing.split_some (if_neg (by omega))

/-! ### What a queue holds -/

def Queue.contents (q : Queue) : List Netpack :=
  window (fun i => q.queue[i]!) q.cap q.head (fill q.cap q.head q.tail)

def pending (q : Option Queue) : List Netpack := (getQueue q).contents

def ofSocket (fd : Int32) (chain : List Uncomplete) : List Uncomplete :=
  chain.filter fun uc => uc.pack.id = fd

def nodes (q : Option Queue) (fd : Int32) : List Uncomplete :=
  ofSocket fd ((getQueue q).hash (hashFd fd))

def Stored (fd : Int32) : List UInt8 → List Uncomplete → Prop
  | [], ucs => ucs = []
  | [b], ucs => ucs = [partialHeader fd b]
  | b0 :: b1 :: bs, ucs => bs.length < readSize b0 b1 ∧
      ∃ header, ucs = [⟨⟨fd, readSize b0 b1, bs⟩, bs.length, header⟩]

def toPack (fd : Int32) (p : List UInt8) : Netpack := ⟨fd, p.length, p⟩

/-- A ring of this many packets may not be able to grow within `int`. -/
def LIMIT : Nat := 2 ^ 30 + 1024

variable {q q' : Queue} {o : Option Queue} {fd : Int32}

theorem length_contents (q : Queue) : q.contents.length = fill q.cap q.head q.tail :=
  window_length ..

theorem grow_le (h : q.cap < LIMIT) :
    q.cap + QUEUESIZE ≤ INT_MAX ∧ q.head + (q.cap - 1) ≤ INT_MAX := by
  obtain ⟨k, hk⟩ := q.cap_form
  have hhead := q.head_lt
  simp only [INT_MAX, LIMIT, QUEUESIZE] at *
  omega

theorem expand_contents (h : q.cap < LIMIT) : ∃ q', expandQueue q = some q' ∧ q'.hash = q.hash ∧
    q'.contents = window (fun i => q.queue[i]!) q.cap q.head q.cap := by
  refine ⟨_, dif_pos (grow_le h), rfl, ?_⟩
  have hlen : fill (q.cap + QUEUESIZE) 0 q.cap = q.cap := by simp [fill]
  simp only [Queue.contents, hlen]
  exact window_ofFn q.queue (Nat.le_add_right _ _)

theorem pushData_spec (buffer : List UInt8) (size : Nat) (h : (pending o).length + 1 < LIMIT) :
    ∃ q, pushData o fd buffer size = some q ∧ q.contents = pending o ++ [⟨fd, size, buffer⟩] ∧
      q.hash = (getQueue o).hash := by
  unfold pending pushData at *
  generalize getQueue o = q at *
  have hwin := window_set q.size_eq q.head_lt q.tail_lt (⟨fd, size, buffer⟩ : Netpack)
  rw [length_contents] at h
  by_cases hfull : q.head = next q.cap q.tail
  · have hlen := (next_tail_eq q.head_lt q.tail_lt).mp hfull
    obtain ⟨q1, hq1, hhash, hcont⟩ := @expand_contents (store q ⟨fd, size, buffer⟩)
      (show q.cap < LIMIT by omega)
    rw [hlen] at hwin
    exact ⟨q1, (if_pos hfull).trans hq1, hcont.trans hwin, hhash⟩
  · have hlen := fill_next_tail q.head_lt q.tail_lt hfull
    refine ⟨store q ⟨fd, size, buffer⟩, if_neg hfull, ?_, rfl⟩
    rw [← hlen] at hwin
    exact hwin

theorem lpop_spec (o : Option Queue) : (lpop o).1 = (pending o).head? ∧
    pending (lpop o).2 = (pending o).tail ∧ nodes (lpop o).2 fd = nodes o fd := by
  cases o with
  | none => exact ⟨rfl, rfl, rfl⟩
  | some q =>
    change _ = q.contents.head? ∧ _ = q.contents.tail ∧ _
    by_cases h : q.head = q.tail
    · have hnil : q.contents = [] := by
        rw [← List.length_eq_zero_iff, length_contents]
        exact (fill_eq_zero q.head_lt).mpr h
      have hpop : lpop (some q) = (none, some q) := if_pos h
      rw [hpop, hnil]
      exact ⟨rfl, hnil, rfl⟩
    · have hfill := fill_next_head q.head_lt q.tail_lt h
      have hcons : q.contents = q.queue[q.head]! :: window (fun i => q.queue[i]!) q.cap
          (next q.cap q.head) (fill q.cap (next q.cap q.head) q.tail) := by
        rw [Queue.contents, ← hfill, window_cons _ _ q.head_lt]
      rw [lpop, if_neg h, hcons]
      exact ⟨rfl, rfl, rfl⟩

/-! ### The hash chains -/

theorem nodes_link {uc : Uncomplete} (hid : uc.pack.id = fd) :
    nodes (some (link q fd uc)) fd = uc :: nodes (some q) fd ∧
      ∀ fd' ≠ fd, nodes (some (link q fd uc)) fd' = nodes (some q) fd' := by
  constructor
  · simp [nodes, ofSocket, getQueue, link, hid]
  · intro fd' hne
    by_cases hhash : hashFd fd' = hashFd fd
    · simp [nodes, ofSocket, getQueue, link, hhash, hid, Ne.symm hne]
    · simp [nodes, getQueue, link, hhash]

theorem unlink_none {chain : List Uncomplete} (h : ofSocket fd chain = []) :
    unlink fd chain = none := by
  induction chain with
  | nil => rfl
  | cons uc chain ih =>
    by_cases hid : uc.pack.id = fd
    · simp [ofSocket, hid] at h
    · rw [unlink, if_neg hid, ih (by simpa [ofSocket, hid] using h)]
      rfl

theorem unlink_some {chain ucs : List Uncomplete} {uc : Uncomplete}
    (h : ofSocket fd chain = uc :: ucs) : ∃ chain', unlink fd chain = some (uc, chain') ∧
      ofSocket fd chain' = ucs ∧ ∀ fd' ≠ fd, ofSocket fd' chain' = ofSocket fd' chain := by
  induction chain with
  | nil => cases h
  | cons x chain ih =>
    by_cases hid : x.pack.id = fd
    · have hcons : x :: ofSocket fd chain = uc :: ucs := by simpa [ofSocket, hid] using h
      cases hcons
      refine ⟨chain, if_pos hid, rfl, fun fd' hne => ?_⟩
      simp [ofSocket, hid, Ne.symm hne]
    · obtain ⟨chain', hunlink, hucs, hother⟩ := ih (by simpa [ofSocket, hid] using h)
      refine ⟨x :: chain', by rw [unlink, if_neg hid, hunlink]; rfl, ?_, fun fd' hne => ?_⟩
      · simpa [ofSocket, hid] using hucs
      · have := hother fd' hne
        simp only [ofSocket] at this ⊢
        rw [List.filter_cons, List.filter_cons, this]

theorem find_none (h : nodes o fd = []) : (o.bind fun q => findUncomplete q fd) = none := by
  cases o with
  | none => rfl
  | some q => exact congrArg (Option.map _) (unlink_none h)

theorem find_some {uc : Uncomplete} (h : nodes o fd = [uc]) : ∃ q',
    (o.bind fun q => findUncomplete q fd) = some (uc, q') ∧ nodes (some q') fd = [] ∧
      q'.contents = pending o ∧ ∀ fd' ≠ fd, nodes (some q') fd' = nodes o fd' := by
  cases o with
  | none => cases h
  | some q =>
    obtain ⟨chain', hunlink, hnil, hother⟩ := unlink_some h
    refine ⟨_, congrArg (Option.map _) hunlink, ?_, rfl, fun fd' hne => ?_⟩
    · simpa [nodes, getQueue] using hnil
    · by_cases hhash : hashFd fd' = hashFd fd
      · simpa [nodes, getQueue, hhash] using hother fd' hne
      · simp [nodes, getQueue, hhash]

/-- What `filter` returns when a stream splits so. -/
def verdict (fd : Int32) : List (List UInt8) × List UInt8 → Filtered
  | ([], _) => .nothing
  | ([p], []) => .data fd p p.length
  | _ => .more

/-- The packets that go to the ring when a stream splits so. -/
def queued (fd : Int32) : List (List UInt8) × List UInt8 → List Netpack
  | ([], _) => []
  | ([_], []) => []
  | (ps, _) => ps.map (toPack fd)

/-- The queue `o'` has the packets `ps` more than `o`, and holds the bytes `rest` of the socket
now. -/
structure Holds (o : Option Queue) (fd : Int32) (ps : List Netpack) (rest : List UInt8)
    (o' : Option Queue) : Prop where
  ring : pending o' = pending o ++ ps
  stored : Stored fd rest (nodes o' fd)
  other : ∀ fd' ≠ fd, nodes o' fd' = nodes o fd'

variable {q : Queue} {o : Option Queue} {fd : Int32}

theorem holds_nil (h : nodes o fd = []) : Holds o fd [] [] o where
  ring := (List.append_nil _).symm
  stored := h
  other := fun _ _ => rfl

theorem holds_link {uc : Uncomplete} {rest : List UInt8} (h : nodes o fd = [])
    (hid : uc.pack.id = fd) (hstored : Stored fd rest [uc]) :
    Holds o fd [] rest (some (link (getQueue o) fd uc)) := by
  obtain ⟨hfd, hother⟩ := nodes_link (q := getQueue o) hid
  have hnodes : ∀ fd', nodes (some (getQueue o)) fd' = nodes o fd' := fun _ => rfl
  refine ⟨(List.append_nil _).symm, ?_, hother⟩
  rw [hfd, hnodes, h]
  exact hstored

theorem Holds.trans {o1 o2 : Option Queue} {ps ps' : List Netpack} {rest rest' : List UInt8}
    (h : Holds o fd ps rest o1) (h' : Holds o1 fd ps' rest' o2) :
    Holds o fd (ps ++ ps') rest' o2 where
  ring := by rw [h'.ring, h.ring, List.append_assoc]
  stored := h'.stored
  other := fun fd' hne => (h'.other fd' hne).trans (h.other fd' hne)

theorem holds_push (h : nodes o fd = []) (buffer : List UInt8) (size : Nat)
    (hlt : (pending o).length + 1 < LIMIT) : ∃ q, pushData o fd buffer size = some q ∧
      Holds o fd [⟨fd, size, buffer⟩] [] (some q) := by
  obtain ⟨q, hq, hcont, hhash⟩ := @pushData_spec o fd buffer size hlt
  have hnodes : ∀ fd', nodes (some q) fd' = nodes o fd' := fun fd' => by
    rw [nodes, nodes]
    exact congrArg (fun hash => ofSocket fd' (hash (hashFd fd'))) hhash
  exact ⟨q, hq, hcont, (hnodes fd).trans h, fun fd' _ => hnodes fd'⟩

theorem pushMore_spec (buffer : List UInt8) (hne : buffer ≠ []) (h : nodes o fd = [])
    (hlt : (pending o).length + (packets.split buffer).1.length < LIMIT) :
    ∃ q, pushMore o fd buffer = some q ∧
      Holds o fd ((packets.split buffer).1.map (toPack fd)) (packets.split buffer).2 (some q) := by
  fun_induction pushMore o fd buffer with
  | case1 => exact absurd rfl hne
  | case2 o b =>
    rw [split_header]
    exact ⟨_, rfl, holds_link h rfl rfl⟩
  | case3 o b0 b1 buffer packSize hshort =>
    rw [split_short hshort]
    exact ⟨_, rfl, holds_link h rfl ⟨hshort, 0, rfl⟩⟩
  | case4 o b0 b1 buffer packSize hlong ih =>
    have hle : readSize b0 b1 ≤ buffer.length := Nat.le_of_not_lt hlong
    have hsize : (buffer.take packSize).length = packSize := by
      rw [List.length_take]
      exact Nat.min_eq_left hle
    have hsplit : packets.split (b0 :: b1 :: buffer) =
        (buffer.take packSize :: (packets.split (buffer.drop packSize)).1,
          (packets.split (buffer.drop packSize)).2) := split_packet hle
    rw [hsplit] at hlt ⊢
    rw [List.length_cons] at hlt
    obtain ⟨q1, hq1, hpush⟩ := holds_push h (buffer.take packSize) packSize (by omega)
    have hlen := congrArg List.length hpush.ring
    rw [List.length_append, List.length_singleton] at hlen
    rw [hq1, Option.bind_eq_bind, Option.bind_some, List.map_cons, toPack, hsize]
    split
    · have hdrop : buffer.drop packSize ≠ [] := List.drop_eq_nil_iff.not.mpr (by omega)
      obtain ⟨q2, hq2, hholds⟩ := ih q1 hdrop hpush.stored (by omega)
      exact ⟨q2, hq2, hpush.trans hholds⟩
    · have hdrop : buffer.drop packSize = [] := List.drop_eq_nil_iff.mpr (by omega)
      rw [hdrop, split_nil]
      exact ⟨q1, rfl, hpush⟩

theorem verdict_more (p : List UInt8) {w : List UInt8} (hw : w ≠ []) :
    verdict fd (p :: (packets.split w).1, (packets.split w).2) = .more ∧
      queued fd (p :: (packets.split w).1, (packets.split w).2) =
        (p :: (packets.split w).1).map (toPack fd) := by
  have hsplit : packets.split w ≠ ([], []) := fun h => hw (Framing.eq_nil_of_split h)
  generalize packets.split w = r at hsplit
  obtain ⟨_ | ⟨p', ps⟩, _ | ⟨b, bs⟩⟩ := r
  · exact absurd rfl hsplit
  all_goals exact ⟨rfl, rfl⟩

theorem push_pushMore {p w : List UInt8} (hw : w ≠ []) (h : nodes o fd = [])
    (hlt : (pending o).length + (queued fd (p :: (packets.split w).1, (packets.split w).2)).length <
      LIMIT) :
    ∃ q1 q2, pushData o fd p p.length = some q1 ∧ pushMore (some q1) fd w = some q2 ∧
      Holds o fd (queued fd (p :: (packets.split w).1, (packets.split w).2)) (packets.split w).2
        (some q2) := by
  rw [(verdict_more p hw).2] at hlt ⊢
  rw [List.length_map, List.length_cons] at hlt
  obtain ⟨q1, hq1, hpush⟩ := holds_push h p p.length (by omega)
  have hlen := congrArg List.length hpush.ring
  rw [List.length_append, List.length_singleton] at hlen
  obtain ⟨q2, hq2, hholds⟩ := pushMore_spec w hw hpush.stored (by omega)
  exact ⟨q1, q2, hq1, hq2, hpush.trans hholds⟩

theorem fillBody_spec {b0 b1 header : UInt8} {body : List UInt8} (buffer : List UInt8)
    {r : List (List UInt8) × List UInt8} (hr : packets.split (b0 :: b1 :: (body ++ buffer)) = r)
    (hbody : body.length ≤ readSize b0 b1) (h : nodes (some q) fd = [])
    (hlt : (pending (some q)).length + (queued fd r).length < LIMIT) :
    ∃ q', fillBody q fd ⟨⟨fd, readSize b0 b1, body⟩, body.length, header⟩ buffer =
        some (q', verdict fd r) ∧ Holds (some q) fd (queued fd r) r.2 (some q') := by
  have hneed : ((readSize b0 b1 : Int) - body.length).toNat = readSize b0 b1 - body.length := by
    omega
  simp only [fillBody, hneed]
  split
  · rename_i hshort
    have hlen : (body ++ buffer).length < readSize b0 b1 := by
      rw [List.length_append]
      omega
    rw [split_short hlen] at hr
    subst hr
    refine ⟨_, rfl, holds_link h rfl ⟨hlen, header, ?_⟩⟩
    rw [List.length_append, Nat.cast_add]
  · rename_i hlong
    have htake : (body ++ buffer).take (readSize b0 b1) =
        body ++ buffer.take (readSize b0 b1 - body.length) := by
      rw [List.take_append, List.take_of_length_le hbody]
    have hdrop : (body ++ buffer).drop (readSize b0 b1) =
        buffer.drop (readSize b0 b1 - body.length) := by
      rw [List.drop_append, List.drop_of_length_le hbody, List.nil_append]
    have hsize : (body ++ buffer.take (readSize b0 b1 - body.length)).length =
        readSize b0 b1 := by
      rw [List.length_append, List.length_take]
      omega
    rw [split_packet (by rw [List.length_append]; omega), htake, hdrop] at hr
    generalize readSize b0 b1 - body.length = need at *
    split
    · rename_i hend
      have hnil : buffer.drop need = [] := List.drop_eq_nil_iff.mpr (by omega)
      rw [hnil, split_nil] at hr
      subst hr
      refine ⟨q, ?_, holds_nil h⟩
      rw [verdict, hsize]
    · rename_i hmore
      have hne : buffer.drop need ≠ [] := List.drop_eq_nil_iff.not.mpr (by omega)
      subst hr
      obtain ⟨q1, q2, hq1, hq2, hholds⟩ := push_pushMore hne h hlt
      rw [hsize] at hq1
      refine ⟨q2, ?_, hholds⟩
      rw [(verdict_more _ hne).1, hq1, Option.bind_eq_bind, Option.bind_some, hq2]
      rfl

theorem find_holds {uc : Uncomplete} (h : nodes o fd = [uc]) : ∃ q,
    (o.bind fun q => findUncomplete q fd) = some (uc, q) ∧ Holds o fd [] [] (some q) := by
  obtain ⟨q, hfind, hnil, hcont, hother⟩ := find_some h
  exact ⟨q, hfind, hcont.trans (List.append_nil _).symm, hnil, hother⟩

theorem filterData_spec {rest buffer : List UInt8} (h : Stored fd rest (nodes o fd))
    (hne : buffer ≠ []) {r : List (List UInt8) × List UInt8}
    (hr : packets.split (rest ++ buffer) = r)
    (hlt : (pending o).length + (queued fd r).length < LIMIT) :
    ∃ o', filterData o fd buffer = some (o', verdict fd r) ∧ Holds o fd (queued fd r) r.2 o' := by
  rcases rest with _ | ⟨b0, _ | ⟨b1, bs⟩⟩
  · have hfind := find_none h
    rcases buffer with _ | ⟨b0, _ | ⟨b1, buffer⟩⟩
    · exact absurd rfl hne
    · rw [List.nil_append, split_header] at hr
      subst hr
      exact ⟨_, by rw [filterData, hfind]; rfl, holds_link h rfl rfl⟩
    · rw [List.nil_append] at hr
      simp only [filterData, hfind]
      split
      · rename_i hshort
        rw [split_short hshort] at hr
        subst hr
        exact ⟨_, rfl, holds_link h rfl ⟨hshort, 0, rfl⟩⟩
      rename_i hlong
      rw [split_packet (Nat.le_of_not_lt hlong)] at hr
      split
      · rename_i hend
        rw [← hend, List.drop_length, List.take_length, split_nil] at hr
        subst hr
        exact ⟨o, by rw [verdict, hend], holds_nil h⟩
      · rename_i hmore
        have hdrop : buffer.drop (readSize b0 b1) ≠ [] := List.drop_eq_nil_iff.not.mpr (by omega)
        have hsize : (buffer.take (readSize b0 b1)).length = readSize b0 b1 := by
          rw [List.length_take]
          omega
        subst hr
        obtain ⟨q1, q2, hq1, hq2, hholds⟩ := push_pushMore hdrop h hlt
        rw [hsize] at hq1
        refine ⟨some q2, ?_, hholds⟩
        rw [(verdict_more _ hdrop).1, hq1, Option.bind_eq_bind, Option.bind_some, hq2]
        rfl
  · obtain ⟨q, hfind, hholds⟩ := find_holds h
    rcases buffer with _ | ⟨c, buffer⟩
    · exact absurd rfl hne
    · obtain ⟨q', hq', hholds'⟩ := @fillBody_spec q fd b0 c b0 [] buffer r hr (Nat.zero_le _)
        hholds.stored (by rw [hholds.ring, List.append_nil]; exact hlt)
      refine ⟨some q', ?_, hholds.trans hholds'⟩
      have hread : (partialHeader fd b0).read < 0 := by simp [partialHeader]
      simp only [filterData, hfind, if_pos hread]
      change
        (fillBody q fd ⟨⟨fd, readSize b0 c, []⟩, ([] : List UInt8).length, b0⟩ buffer).bind _ = _
      rw [hq']
      rfl
  · obtain ⟨hshort, header, hnode⟩ := h
    obtain ⟨q, hfind, hholds⟩ := find_holds hnode
    obtain ⟨q', hq', hholds'⟩ := @fillBody_spec q fd b0 b1 header bs buffer r hr hshort.le
      hholds.stored (by rw [hholds.ring, List.append_nil]; exact hlt)
    refine ⟨some q', ?_, hholds.trans hholds'⟩
    have hread : ¬ (bs.length : Int) < 0 := by omega
    simp only [filterData, hfind, if_neg hread, hq']
    rfl

theorem closeUncomplete_spec {rest : List UInt8} (h : Stored fd rest (nodes o fd)) :
    Holds o fd [] [] (closeUncomplete o fd) := by
  have hclose : closeUncomplete o fd =
      ((o.bind fun q => findUncomplete q fd).map fun r => some r.2).getD o := by
    cases o with
    | none => rfl
    | some q => cases hfind : findUncomplete q fd <;> simp [closeUncomplete, hfind]
  rw [hclose]
  have hfound : ∀ uc, nodes o fd = [uc] → Holds o fd [] []
      (((o.bind fun q => findUncomplete q fd).map fun r => some r.2).getD o) := by
    intro uc hnode
    obtain ⟨q, hfind, hholds⟩ := find_holds hnode
    rw [hfind]
    exact hholds
  match rest with
  | [] =>
    rw [find_none h]
    exact holds_nil h
  | [b] => exact hfound _ h
  | b0 :: b1 :: bs =>
    obtain ⟨-, header, hnode⟩ := h
    exact hfound _ hnode

end XsServer.Net
