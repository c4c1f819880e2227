import XsServer.Gateserver.Server
import Mathlib.Data.Set.Card

/-! The calls of the handler follow the protocol of a connection, but for the sockets that are
refused: their close is reported to the handler as well. -/

namespace XsServer.Gateserver

open Lib Net

inductive Phase
  | new
  | connected
  | shut
  | gone
  deriving DecidableEq

def Call.fd : Call → Int32
  | .connect fd _ => fd
  | .message np => np.id
  | .disconnect fd => fd
  | .error fd _ => fd
  | .closeclient fd => fd

/-- First `connect`, then `message` as long as `closeclient` was not called, then one of
`disconnect` and `error`. -/
def Phase.next : Phase → Call → Option Phase
  | .new, .connect _ _ => some .connected
  | .connected, .message _ => some .connected
  | .connected, .disconnect _ | .connected, .error _ _ => some .gone
  | .shut, .disconnect _ | .shut, .error _ _ => some .gone
  | .connected, .closeclient _ => some .shut
  | p, .closeclient _ => some p
  | _, _ => none

/-- The phase of a connection after the calls, if they follow the protocol. -/
def phase (fd : Int32) (calls : List Call) : Option Phase :=
  calls.foldlM (fun p call => if call.fd = fd then p.next call else some p) .new

structure Server.Follows (s : Server) : Prop where
  pattern : ∀ fd, phase fd s.calls ≠ none
  count : s.clientNumber = (Set.ncard {fd | s.connection fd ≠ none} : Int)
  le : s.clientNumber ≤ s.maxclient

/-- A close or an error of a socket without an entry, while the handler wants to hear of it, does
not come. -/
def Announced (h : Handler) (w : World) : Event → Prop
  | .socket (.close fd) _ => h.disconnect = true →
      w.server.socket = some fd ∨ w.server.connection fd ≠ none
  | .socket (.error fd _) _ => h.error = true →
      w.server.socket = some fd ∨ w.server.connection fd ≠ none
  | _ => True

/-! ### The invariant -/

theorem phase_concat (fd : Int32) (calls : List Call) (call : Call) :
    phase fd (calls ++ [call]) =
      (phase fd calls).bind fun p => if call.fd = fd then p.next call else some p := by
  simp [phase, List.foldlM_append]

theorem phase_other {fd : Int32} {calls : List Call} {call : Call} (hne : call.fd ≠ fd) :
    phase fd (calls ++ [call]) = phase fd calls := by
  rw [phase_concat]
  simp [hne]

theorem phase_call {fd : Int32} {calls : List Call} {call : Call} {p : Phase} (hfd : call.fd = fd)
    (hp : phase fd calls = some p) : phase fd (calls ++ [call]) = p.next call := by
  rw [phase_concat, hp, Option.bind_some, if_pos hfd]

/-- The phase that the entry of an open connection stands for. -/
def entryPhase : Option Bool → Phase
  | none => .new
  | some true => .connected
  | some false => .shut

/-- `client_number` is the number of entries. -/
structure Counts (connection : Int32 → Option Bool) (clientNumber : Int) (maxclient : Nat) :
    Prop where
  count : clientNumber = (Set.ncard {fd | connection fd ≠ none} : Int)
  finite : {fd | connection fd ≠ none}.Finite
  le : clientNumber ≤ maxclient

/-- The calls follow the protocol, as far as the entries say for the sockets that have not
ended. -/
structure Agrees (connection : Int32 → Option Bool) (calls : List Call) (ended : List Int32) :
    Prop where
  pattern : ∀ fd, phase fd calls ≠ none
  entry : ∀ fd, fd ∉ ended → phase fd calls = some (entryPhase (connection fd))

structure World.Core (w : World) : Prop where
  counts : Counts w.server.connection w.server.clientNumber w.server.maxclient
  agrees : Agrees w.server.connection w.server.calls w.ended
  accepted : ∀ fd, w.server.connection fd ≠ none → fd ∈ w.accepted
  ended : ∀ fd ∈ w.ended, fd ∈ w.accepted
  queue : ∀ np ∈ w.server.queue, w.Alive np.id
  closing : ∀ fd ∈ w.server.closing, fd ∈ w.ended

/-- Between two steps: a packet in the queue means that a coroutine of `dispatch_queue` is about to
start. -/
structure World.Inv (w : World) : Prop extends w.Core where
  forks : w.server.queue ≠ [] → 0 < w.server.forks
  idle : w.server.idle = true → w.server.forks = 0

variable {connection connection' : Int32 → Option Bool} {calls : List Call}
  {ended ended' : List Int32} {n : Int} {maxclient : Nat} {fd : Int32} {w w' : World} {h : Handler}

theorem inv_init (socket : Int32) (maxclient : Nat) : (World.init socket maxclient).Inv where
  counts := ⟨by simp [World.init], by simp [World.init], Int.natCast_nonneg _⟩
  agrees := ⟨by simp [World.init, phase], fun _ _ => rfl⟩
  accepted := fun _ h => absurd rfl h
  ended := fun _ h => by cases h
  queue := fun _ h => by cases h
  closing := fun _ h => by cases h
  forks := fun h => absurd rfl h
  idle := fun _ => rfl

theorem Counts.insert (hc : Counts connection n maxclient) (hfd : connection fd = none)
    (hlt : n < maxclient) :
    Counts (Function.update connection fd (some true)) (n + 1) maxclient := by
  have hset : {fd' | Function.update connection fd (some true) fd' ≠ none} =
      Insert.insert fd {fd' | connection fd' ≠ none} := by
    ext fd'
    by_cases heq : fd' = fd <;> simp [heq]
  refine ⟨?_, ?_, by omega⟩
  · rw [hset, Set.ncard_insert_of_notMem (by simp [hfd]) hc.finite, hc.count]
    rfl
  · rw [hset]
    exact hc.finite.insert fd

theorem Counts.erase (hc : Counts connection n maxclient) (hfd : connection fd ≠ none) :
    Counts (Function.update connection fd none) (n - 1) maxclient := by
  have hset : Insert.insert fd {fd' | Function.update connection fd none fd' ≠ none} =
      {fd' | connection fd' ≠ none} := by
    ext fd'
    by_cases heq : fd' = fd <;> simp [heq, hfd]
  have hfinite : {fd' | Function.update connection fd none fd' ≠ none}.Finite := by
    refine hc.finite.subset ?_
    rw [← hset]
    exact Set.subset_insert _ _
  have hcard := Set.ncard_insert_of_notMem (a := fd) (by simp) hfinite
  rw [hset] at hcard
  have hcount := hc.count
  have hle := hc.le
  exact ⟨by omega, hfinite, by omega⟩

theorem Counts.shut (hc : Counts connection n maxclient) (hfd : connection fd ≠ none) (b : Bool) :
    Counts (Function.update connection fd (some b)) n maxclient := by
  have hset : {fd' | Function.update connection fd (some b) fd' ≠ none} =
      {fd' | connection fd' ≠ none} := by
    ext fd'
    by_cases heq : fd' = fd <;> simp [heq, hfd]
  exact ⟨by rw [hset, hc.count], by rw [hset]; exact hc.finite, hc.le⟩

theorem Agrees.call (ha : Agrees connection calls ended) {c : Call} {p p' : Phase}
    (hp : phase c.fd calls = some p) (hnext : p.next c = some p')
    (hentry : c.fd ∉ ended' → p' = entryPhase (connection' c.fd))
    (hother : ∀ fd ≠ c.fd, connection' fd = connection fd) (hended : ended ⊆ ended') :
    Agrees connection' (calls ++ [c]) ended' := by
  have hphase := (phase_call rfl hp).trans hnext
  refine ⟨fun fd => ?_, fun fd hfd => ?_⟩
  · by_cases heq : c.fd = fd
    · rw [← heq, hphase]
      exact Option.some_ne_none _
    · rw [phase_other heq]
      exact ha.pattern fd
  · by_cases heq : c.fd = fd
    · subst heq
      rw [hphase, hentry hfd]
    · rw [phase_other heq, hother fd (Ne.symm heq)]
      exact ha.entry fd fun hmem => hfd (hended hmem)

theorem Agrees.silent (ha : Agrees connection calls ended)
    (hother : ∀ fd ∉ ended', connection' fd = connection fd) (hended : ended ⊆ ended') :
    Agrees connection' calls ended' where
  pattern := ha.pattern
  entry := fun fd hfd => by
    rw [hother fd hfd]
    exact ha.entry fd fun hmem => hfd (hended hmem)

theorem dispatchMsg_spec {s : Server} {np : Netpack} (ha : Agrees s.connection s.calls ended)
    (hid : np.id ∉ ended) :
    ∃ calls, dispatchMsg s np = { s with calls := calls } ∧ Agrees s.connection calls ended := by
  unfold dispatchMsg
  split
  · rename_i hentry
    refine ⟨_, rfl, ?_⟩
    have hp := ha.entry np.id hid
    rw [hentry] at hp
    exact ha.call (c := .message np) hp rfl (fun _ => by rw [Call.fd, hentry]; rfl)
      (fun _ _ => rfl) (List.Subset.refl _)
  · exact ⟨s.calls, rfl, ha⟩

theorem dispatch_core (hc : w.Core) {np : Netpack} {queue : List Netpack}
    (hq : w.server.queue = np :: queue) (forks loops : Nat) :
    ∃ calls, dispatchMsg { w.server with queue := queue, forks := forks, loops := loops } np =
        { w.server with queue := queue, forks := forks, loops := loops, calls := calls } ∧
      World.Core { w with server :=
        { w.server with queue := queue, forks := forks, loops := loops, calls := calls } } := by
  have hqueue := hc.queue
  rw [hq] at hqueue
  obtain ⟨hnp, hrest⟩ := List.forall_mem_cons.mp hqueue
  obtain ⟨calls, hcalls, ha⟩ := @dispatchMsg_spec w.ended
    { w.server with queue := queue, forks := forks, loops := loops } np hc.agrees hnp.2
  exact ⟨calls, hcalls, hc.counts, ha, hc.accepted, hc.ended, hrest, hc.closing⟩

theorem dispatchQueue_inv (hc : w.Core) (hidle : w.server.idle = false) :
    World.Inv { w with server := dispatchQueue w.server } := by
  cases hq : w.server.queue with
  | nil =>
    have hsame : dispatchQueue w.server = w.server := by rw [dispatchQueue, hq]
    rw [hsame]
    exact ⟨hc, fun h => absurd hq h, fun h => by rw [hidle] at h; cases h⟩
  | cons np queue =>
    obtain ⟨calls, hcalls, hcore⟩ := dispatch_core hc hq (w.server.forks + 1) (w.server.loops + 1)
    have hrun : dispatchQueue w.server = { w.server with
        queue := queue, forks := w.server.forks + 1, loops := w.server.loops + 1,
        calls := calls } := by
      rw [dispatchQueue, hq]
      exact hcalls
    rw [hrun]
    exact ⟨hcore, fun _ => Nat.succ_pos _, fun h => by
      change w.server.idle = true at h
      rw [hidle] at h
      cases h⟩

theorem queueLoop_inv (hi : w.Inv) : World.Inv { w with server := queueLoop w.server } := by
  cases hq : w.server.queue with
  | nil =>
    have hrun : queueLoop w.server = { w.server with loops := w.server.loops - 1 } := by
      simp only [queueLoop, hq]
    rw [hrun]
    obtain ⟨⟨hcounts, ha, haccepted, hended, hqueue, hclosing⟩, hforks, hidle⟩ := hi
    exact ⟨⟨hcounts, ha, haccepted, hended, hqueue, hclosing⟩, hforks, hidle⟩
  | cons np queue =>
    obtain ⟨calls, hcalls, hcore⟩ := dispatch_core hi.toCore hq w.server.forks w.server.loops
    have hrun : queueLoop w.server = { w.server with
        queue := queue, forks := w.server.forks, loops := w.server.loops, calls := calls } := by
      rw [queueLoop, hq]
      exact hcalls
    rw [hrun]
    exact ⟨hcore, fun _ => hi.forks (by rw [hq]; exact List.cons_ne_nil _ _), hi.idle⟩

theorem phase_next_closeclient (p : Phase) (fd : Int32) :
    ∃ p', p.next (.closeclient fd) = some p' := by
  cases p <;> exact ⟨_, rfl⟩

theorem closeclient_inv (hi : w.Inv) (fd : Int32) :
    World.Inv { w with server := closeclient w.server fd } := by
  obtain ⟨⟨hcounts, ha, haccepted, hended, hqueue, hclosing⟩, hforks, hidle⟩ := hi
  obtain ⟨p, hp⟩ := Option.ne_none_iff_exists'.mp (ha.pattern fd)
  obtain ⟨p', hnext⟩ := phase_next_closeclient p fd
  have hphase : fd ∉ w.ended → p = entryPhase (w.server.connection fd) := fun hfd =>
    Option.some.inj (hp.symm.trans (ha.entry fd hfd))
  by_cases hentry : w.server.connection fd = some true
  · have hrun : closeclient w.server fd = { w.server with
        calls := w.server.calls ++ [.closeclient fd]
        connection := Function.update w.server.connection fd (some false) } := if_pos hentry
    rw [hrun]
    refine ⟨⟨hcounts.shut (by rw [hentry]; exact Option.some_ne_none _) false, ?_, ?_, hended,
      hqueue, hclosing⟩, hforks, hidle⟩
    · refine ha.call (c := .closeclient fd) hp hnext (fun hfd => ?_)
        (fun fd' hne => Function.update_of_ne hne _ _) (List.Subset.refl _)
      rw [hphase hfd, hentry] at hnext
      change _ = entryPhase (Function.update w.server.connection fd (some false) fd)
      rw [Function.update_self]
      exact (Option.some.inj hnext).symm
    · intro fd' hne
      by_cases heq : fd' = fd
      · rw [heq]
        exact haccepted fd (by rw [hentry]; exact Option.some_ne_none _)
      · refine haccepted fd' fun hnone => hne ?_
        exact (Function.update_of_ne heq _ _).trans hnone
  · have hrun : closeclient w.server fd = { w.server with
        calls := w.server.calls ++ [.closeclient fd] } := if_neg hentry
    rw [hrun]
    refine ⟨⟨hcounts, ?_, haccepted, hended, hqueue, hclosing⟩, hforks, hidle⟩
    refine ha.call (c := .closeclient fd) hp hnext (fun hfd => ?_) (fun _ _ => rfl)
      (List.Subset.refl _)
    rw [hphase hfd] at hnext
    change p' = entryPhase (w.server.connection fd)
    cases hb : w.server.connection fd with
    | none => rw [hb] at hnext; exact (Option.some.inj hnext).symm
    | some b =>
      cases b with
      | false => rw [hb] at hnext; exact (Option.some.inj hnext).symm
      | true => exact absurd hb hentry

theorem returned_inv (hi : w.Inv) (hfd : fd ∈ w.server.closing) :
    World.Inv { w with
      server := closeFd { w.server with closing := w.server.closing.erase fd } fd } := by
  obtain ⟨⟨hcounts, ha, haccepted, hended, hqueue, hclosing⟩, hforks, hidle⟩ := hi
  have hclosing' : ∀ fd' ∈ w.server.closing.erase fd, fd' ∈ w.ended := fun fd' h =>
    hclosing fd' (List.mem_of_mem_erase h)
  by_cases hentry : w.server.connection fd = none
  · have hrun : closeFd { w.server with closing := w.server.closing.erase fd } fd =
        { w.server with closing := w.server.closing.erase fd } := if_neg (not_not.mpr hentry)
    rw [hrun]
    exact ⟨⟨hcounts, ha, haccepted, hended, hqueue, hclosing'⟩, hforks, hidle⟩
  · have hrun : closeFd { w.server with closing := w.server.closing.erase fd } fd =
        { w.server with
          closing := w.server.closing.erase fd
          connection := Function.update w.server.connection fd none
          clientNumber := w.server.clientNumber - 1 } := if_pos hentry
    rw [hrun]
    refine ⟨⟨hcounts.erase hentry, ?_, ?_, hended, hqueue, hclosing'⟩, hforks, hidle⟩
    · refine ha.silent (fun fd' hne => ?_) (List.Subset.refl _)
      exact Function.update_of_ne (fun heq => hne (by rw [heq]; exact hclosing fd hfd)) _ _
    · intro fd' hne
      refine haccepted fd' fun hnone => hne ?_
      by_cases heq : fd' = fd
      · rw [heq]
        exact Function.update_self ..
      · exact (Function.update_of_ne heq _ _).trans hnone

theorem World.Inv.queue_nil (hi : w.Inv) (hidle : w.server.idle = true) : w.server.queue = [] := by
  by_contra hne
  have := hi.forks hne
  rw [hi.idle hidle] at this
  exact Nat.lt_irrefl 0 this

theorem Agrees.ends (ha : Agrees connection calls ended) {c : Call}
    (hfd : c.fd ∉ ended) (hentry : connection c.fd ≠ none)
    (hc : (∃ fd, c = .disconnect fd) ∨ ∃ fd msg, c = .error fd msg) :
    Agrees connection (calls ++ [c]) (c.fd :: ended) := by
  have hp := ha.entry c.fd hfd
  obtain ⟨b, hb⟩ := Option.ne_none_iff_exists'.mp hentry
  have hnext : (entryPhase (connection c.fd)).next c = some .gone := by
    rw [hb]
    rcases hc with ⟨fd, rfl⟩ | ⟨fd, msg, rfl⟩ <;> cases b <;> rfl
  exact ha.call hp hnext (fun hmem => absurd List.mem_cons_self hmem) (fun _ _ => rfl)
    (List.subset_cons_self _ _)

theorem ended_inv (hi : w.Inv) (hidle : w.server.idle = true) (halive : w.Alive fd)
    {calls : List Call} (hcalls : Agrees w.server.connection calls (fd :: w.ended)) :
    World.Inv { w with
      server := { w.server with idle := false, calls := calls, closing := fd :: w.server.closing }
      ended := fd :: w.ended } := by
  have hqueue := hi.queue_nil hidle
  refine ⟨⟨hi.counts, hcalls, hi.accepted, ?_, ?_, ?_⟩, fun h => absurd hqueue h,
    fun h => by cases h⟩
  · intro fd' h
    rcases List.mem_cons.mp h with rfl | h
    · exact halive.1
    · exact hi.ended fd' h
  · intro np hnp
    change np ∈ w.server.queue at hnp
    rw [hqueue] at hnp
    cases hnp
  · intro fd' h
    rcases List.mem_cons.mp h with rfl | h
    · exact List.mem_cons_self
    · exact List.mem_cons_of_mem _ (hi.closing fd' h)

theorem unseen_inv (hi : w.Inv) (socket : Option Int32) :
    World.Inv { w with server := { w.server with idle := false, socket := socket } } := by
  obtain ⟨⟨hcounts, ha, haccepted, hended, hqueue, hclosing⟩, hforks, -⟩ := hi
  exact ⟨⟨hcounts, ha, haccepted, hended, hqueue, hclosing⟩, hforks, fun h => by cases h⟩

theorem opened_inv (hi : w.Inv) (hidle : w.server.idle = true) (hnew : fd ∉ w.accepted)
    (msg : List UInt8) :
    World.Inv { w with
      server := msgOpen { w.server with idle := false } fd msg
      accepted := fd :: w.accepted } := by
  have hqueue := hi.queue_nil hidle
  have hnone : w.server.connection fd = none := by
    by_contra hne
    exact hnew (hi.accepted fd hne)
  have hend : fd ∉ w.ended := fun h => hnew (hi.ended fd h)
  have hlater : ∀ fd' ∈ w.accepted, fd' ∈ fd :: w.accepted := fun _ => List.mem_cons_of_mem _
  have hnil : ∀ np ∈ w.server.queue, World.Alive { w with accepted := fd :: w.accepted } np.id :=
    fun np hnp => ⟨hlater _ (hi.queue np hnp).1, (hi.queue np hnp).2⟩
  by_cases hfull : w.server.clientNumber ≥ w.server.maxclient
  · have hrun : msgOpen { w.server with idle := false } fd msg = { w.server with idle := false } :=
      if_pos hfull
    rw [hrun]
    exact ⟨⟨hi.counts, hi.agrees, fun fd' h => hlater _ (hi.accepted fd' h),
      fun fd' h => hlater _ (hi.ended fd' h), hnil, hi.closing⟩, hi.forks, fun h => by cases h⟩
  · have hrun : msgOpen { w.server with idle := false } fd msg = { w.server with
        idle := false
        connection := Function.update w.server.connection fd (some true)
        clientNumber := w.server.clientNumber + 1
        calls := w.server.calls ++ [.connect fd msg] } := if_neg hfull
    rw [hrun]
    refine ⟨⟨hi.counts.insert hnone (by omega), ?_, ?_,
      fun fd' h => hlater _ (hi.ended fd' h), hnil, hi.closing⟩, hi.forks, fun h => by cases h⟩
    · have hp := hi.agrees.entry fd hend
      rw [hnone] at hp
      refine hi.agrees.call (c := .connect fd msg) hp rfl (fun _ => ?_)
        (fun fd' hne => Function.update_of_ne hne _ _) (List.Subset.refl _)
      change Phase.connected = entryPhase (Function.update w.server.connection fd (some true) fd)
      rw [Function.update_self]
      rfl
    · intro fd' hne
      by_cases heq : fd' = fd
      · exact List.mem_cons.mpr (Or.inl heq)
      · exact hlater _ (hi.accepted fd' fun h => hne ((Function.update_of_ne heq _ _).trans h))

theorem close_inv (hi : w.Inv) (hidle : w.server.idle = true) {socket : Option Int32}
    (halive : w.Alive fd ∨ w.server.socket = some fd) {calls : List Call}
    (hcalls : w.server.socket ≠ some fd → w.Alive fd →
      Agrees w.server.connection calls (fd :: w.ended)) :
    World.Inv { w with
      server := if w.server.socket ≠ some fd
        then { w.server with idle := false, calls := calls, closing := fd :: w.server.closing }
        else { w.server with idle := false, socket := socket }
      ended := w.ends fd } := by
  by_cases hsocket : w.server.socket = some fd
  · rw [if_neg (not_not.mpr hsocket), World.ends, if_pos hsocket]
    exact unseen_inv hi socket
  · rw [if_pos hsocket, World.ends, if_neg hsocket]
    have halive := halive.resolve_right hsocket
    exact ended_inv hi hidle halive (hcalls hsocket halive)

theorem receive_inv (hi : w.Inv) (hidle : w.server.idle = true) {r : Filtered} {ring : List Netpack}
    (harrives : w.Arrives r ring) (hguard : Announced h w (.socket r ring)) :
    (w.receive h r ring).Inv := by
  have hqueue := hi.queue_nil hidle
  have hunchanged : w.server.queue ++ [] = w.server.queue := List.append_nil _
  cases r with
  | nothing | warning id size =>
    obtain rfl : ring = [] := harrives
    simp only [World.receive, dispatch, hunchanged]
    exact unseen_inv hi w.server.socket
  | data id msg size =>
    obtain ⟨halive, rfl⟩ := harrives
    obtain ⟨calls, hcalls, ha⟩ := @dispatchMsg_spec w.ended { w.server with idle := false }
      ⟨id, size, msg⟩ hi.agrees halive.2
    simp only [World.receive, dispatch, hunchanged, hcalls]
    obtain ⟨⟨hcounts, -, haccepted, hended, hqueue, hclosing⟩, hforks, -⟩ := hi
    exact ⟨⟨hcounts, ha, haccepted, hended, hqueue, hclosing⟩, hforks, fun h => by cases h⟩
  | more =>
    obtain ⟨id, halive, hring⟩ := harrives
    refine @dispatchQueue_inv { w with
      server := { w.server with queue := w.server.queue ++ ring, idle := false } } ?_ rfl
    obtain ⟨⟨hcounts, ha, haccepted, hended, -, hclosing⟩, -, -⟩ := hi
    refine ⟨hcounts, ha, haccepted, hended, fun np hnp => ?_, hclosing⟩
    change np ∈ w.server.queue ++ ring at hnp
    rw [hqueue, List.nil_append] at hnp
    rw [hring np hnp]
    exact halive
  | opened id addr =>
    obtain ⟨hnew, -, rfl⟩ := harrives
    simp only [World.receive, dispatch, hunchanged]
    exact opened_inv hi hidle hnew addr
  | close id =>
    obtain ⟨halive, rfl⟩ := harrives
    simp only [World.receive, dispatch, msgClose, hunchanged]
    apply close_inv hi hidle halive
    intro hsocket halive
    split
    · rename_i hdisconnect
      exact hi.agrees.ends (c := .disconnect id) halive.2
        ((hguard hdisconnect).resolve_left hsocket) (Or.inl ⟨id, rfl⟩)
    · exact hi.agrees.silent (fun _ _ => rfl) (List.subset_cons_self _ _)
  | error id msg =>
    obtain ⟨halive, rfl⟩ := harrives
    simp only [World.receive, dispatch, msgError, hunchanged]
    rw [← ite_not]
    apply close_inv hi hidle halive
    intro hsocket halive
    split
    · rename_i herror
      exact hi.agrees.ends (c := .error id msg) halive.2
        ((hguard herror).resolve_left hsocket) (Or.inr ⟨id, msg, rfl⟩)
    · exact hi.agrees.silent (fun _ _ => rfl) (List.subset_cons_self _ _)

theorem fork_inv (hi : w.Inv) (hidle : w.server.idle = false) (n : Nat) :
    World.Inv { w with server := dispatchQueue { w.server with forks := n } } := by
  refine @dispatchQueue_inv { w with server := { w.server with forks := n } } ?_ hidle
  obtain ⟨⟨hcounts, ha, haccepted, hended, hqueue, hclosing⟩, -, -⟩ := hi
  exact ⟨hcounts, ha, haccepted, hended, hqueue, hclosing⟩

theorem inv_step {e : Event} (hi : w.Inv) (hguard : Announced h w e) (hs : World.Step h w e w') :
    w'.Inv := by
  cases hs with
  | socket hidle harrives => exact receive_inv hi hidle harrives hguard
  | other => exact unseen_inv hi w.server.socket
  | openclient => exact hi
  | closeclient fd => exact closeclient_inv hi fd
  | fork hidle => exact fork_inv hi hidle _
  | loop => exact queueLoop_inv hi
  | fail =>
    obtain ⟨⟨hcounts, ha, haccepted, hended, hqueue, hclosing⟩, hforks, hidle⟩ := hi
    exact ⟨⟨hcounts, ha, haccepted, hended, hqueue, hclosing⟩, hforks, hidle⟩
  | returned hfd => exact returned_inv hi hfd
  | finish hidle hnone =>
    obtain ⟨⟨hcounts, ha, haccepted, hended, hqueue, hclosing⟩, hforks, -⟩ := hi
    exact ⟨⟨hcounts, ha, haccepted, hended, hqueue, hclosing⟩, hforks, fun _ => hnone⟩

theorem World.Inv.follows (hi : w.Inv) : w.server.Follows :=
  ⟨hi.agrees.pattern, hi.counts.count, hi.counts.le⟩

theorem not_follows_of_unannounced (hi : w.Inv) {e : Event} (hguard : ¬Announced h w e)
    (hs : World.Step h w e w') : ¬w'.server.Follows := by
  intro hfollows
  cases hs with
  | socket hidle harrives =>
    rename_i r ring
    cases r with
    | close id =>
      obtain ⟨halive, rfl⟩ := harrives
      simp only [Announced, Classical.not_imp, not_or, not_not] at hguard
      obtain ⟨hdisconnect, hsocket, hentry⟩ := hguard
      have hp := hi.agrees.entry id (halive.resolve_right hsocket).2
      rw [hentry] at hp
      have hcalls : (w.receive h (.close id) []).server.calls =
          w.server.calls ++ [.disconnect id] := by
        simp only [World.receive, dispatch, msgClose, if_pos hsocket, if_pos hdisconnect]
      apply hfollows.pattern id
      rw [hcalls, @phase_call id _ (.disconnect id) _ rfl hp]
      rfl
    | error id msg =>
      obtain ⟨halive, rfl⟩ := harrives
      simp only [Announced, Classical.not_imp, not_or, not_not] at hguard
      obtain ⟨herror, hsocket, hentry⟩ := hguard
      have hp := hi.agrees.entry id (halive.resolve_right hsocket).2
      rw [hentry] at hp
      have hcalls : (w.receive h (.error id msg) []).server.calls =
          w.server.calls ++ [.error id msg] := by
        simp only [World.receive, dispatch, msgError, if_neg hsocket, if_pos herror]
      apply hfollows.pattern id
      rw [hcalls, @phase_call id _ (.error id msg) _ rfl hp]
      rfl
    | _ => exact hguard trivial
  | _ => exact hguard trivial

/-- In a run without unannounced ends the calls follow the protocol, and the first unannounced end
breaks it. -/
theorem gateserver_protocol (h : Handler) (socket : Int32) (maxclient : Nat) (es : List Event)
    (w : World)
    (hr : Run (Guarded (Announced h) (World.Step h)) (World.init socket maxclient) es w) :
    w.server.Follows ∧
      ∀ e w', World.Step h w e w' → (w'.server.Follows ↔ Announced h w e) := by
  have hi : w.Inv :=
    hr.invariant (inv_init socket maxclient) fun _ _ _ hi hs => inv_step hi hs.1 hs.2
  refine ⟨hi.follows,
    fun e w' hs => ⟨fun hfollows => ?_, fun hguard => (inv_step hi hguard hs).follows⟩⟩
  by_contra hguard
  exact not_follows_of_unannounced hi hguard hs hfollows

/-- A connection that sends a packet and is closed, behind a gate for one client. -/
theorem gateserver_protocol_close : ∃ w : World,
    Run (Guarded (Announced ⟨true, true⟩) (World.Step ⟨true, true⟩)) (World.init 0 1)
      [.socket (.opened 1 []) [], .finish, .socket (.data 1 [7] 1) [], .finish,
        .socket (.close 1) []] w ∧
    w.server.Follows := by
  let h : Handler := ⟨true, true⟩
  let w0 := (World.init 0 1).receive h (.opened 1 []) []
  let w1 : World := { w0 with server := { w0.server with idle := true } }
  let w2 := w1.receive h (.data 1 [7] 1) []
  let w3 : World := { w2 with server := { w2.server with idle := true } }
  have hentry : w3.server.connection 1 ≠ none := by decide
  have hr : Run (Guarded (Announced h) (World.Step h)) (World.init 0 1)
      [.socket (.opened 1 []) [], .finish, .socket (.data 1 [7] 1) [], .finish,
        .socket (.close 1) []] (w3.receive h (.close 1) []) := by
    refine Run.cons ⟨trivial, .socket rfl ⟨by decide, by decide, rfl⟩⟩ ?_
    refine Run.cons ⟨trivial, .finish rfl rfl⟩ ?_
    refine Run.cons ⟨trivial, .socket rfl ⟨⟨by decide, by decide⟩, rfl⟩⟩ ?_
    refine Run.cons ⟨trivial, .finish rfl rfl⟩ ?_
    exact Run.single ⟨fun _ => Or.inr hentry, .socket rfl ⟨Or.inl ⟨by decide, by decide⟩, rfl⟩⟩
  exact ⟨_, hr, (gateserver_protocol h 0 1 _ _ hr).1⟩

/-- The second of two clients is refused, and then its close is reported to the handler. -/
theorem refused_disconnect : ¬∀ (h : Handler) (socket : Int32) (maxclient : Nat) (es : List Event)
    (w : World), Run (World.Step h) (World.init socket maxclient) es w → w.server.Follows := by
  intro hall
  let h : Handler := ⟨true, true⟩
  let w0 := (World.init 0 1).receive h (.opened 1 []) []
  let w1 : World := { w0 with server := { w0.server with idle := true } }
  let w2 := w1.receive h (.opened 2 []) []
  let w3 : World := { w2 with server := { w2.server with idle := true } }
  have hr : Run (World.Step h) (World.init 0 1)
      [.socket (.opened 1 []) [], .finish, .socket (.opened 2 []) [], .finish,
        .socket (.close 2) []] (w3.receive h (.close 2) []) := by
    refine Run.cons (.socket rfl ⟨by decide, by decide, rfl⟩) ?_
    refine Run.cons (.finish rfl rfl) ?_
    refine Run.cons (.socket rfl ⟨by decide, by decide, rfl⟩) ?_
    refine Run.cons (.finish rfl rfl) ?_
    exact Run.single (.socket rfl ⟨Or.inl ⟨by decide, by decide⟩, rfl⟩)
  exact (hall h 0 1 _ _ hr).pattern 2 (by decide)

end XsServer.Gateserver
