import XsServer.Custom.Nodes
import Mathlib.Data.Finset.Card

/-! The connections of `service_gate.lua` and the heartbeats of `gatemanager.lua`. -/

namespace XsServer.Gate

open Custom

/-- `loginClient` -/
structure Client where
  fd : Int
  rid : Nat
  online : Bool
  deriving DecidableEq

/-- `service_gate` with its `gatemanager`.  The entries of `mapclients` are tables, which
`fdreusable` gives out again; `records` is the first one that nobody has had. -/
structure Service where
  connectCount : Nat
  mapclients : Int → Option Nat
  fdreusable : List Nat
  records : Nat
  clientLis : Int → Option Client
  clientMap : Nat → Option Client
  hearbeats : Heap Int Int

namespace Service

def new (mem : Nat → Node Int Int) : Service :=
  ⟨0, fun _ => none, [], 0, fun _ => none, fun _ => none, .new mem⟩

/-- `fdreusable:get()` -/
def getRecord (g : Service) : Nat × Service :=
  match g.fdreusable.getLast? with
  | some item => (item, { g with fdreusable := g.fdreusable.dropLast })
  | none => (g.records, { g with records := g.records + 1 })

/-- `ws_handle.connect`; `false` is a connection that is closed at once. -/
def connect (g : Service) (fd now : Int) : Bool × Service :=
  if 10000 ≤ g.connectCount then (false, g)
  else
    let (item, g) := { g with connectCount := g.connectCount + 1 }.getRecord
    (true, { g with
      mapclients := Function.update g.mapclients fd (some item)
      hearbeats := (g.hearbeats.appendBy now fd fd).2 })

/-- What `gatemanager:offline` does here, which returns at once when nobody is logged in.  Here and
below, `none` is a call of the heap that does not return. -/
def offline (g : Service) (fd : Int) : Option Service :=
  match g.clientLis fd with
  | none => some g
  | some _ =>
    let g := { g with clientLis := Function.update g.clientLis fd none }
    (g.hearbeats.deleteBy fd).map fun (_, hearbeats) => { g with hearbeats }

/-- `ws_handle.close` -/
def close (g : Service) (fd : Int) : Option Service :=
  { g with
    fdreusable := g.fdreusable ++ (g.mapclients fd).toList
    mapclients := Function.update g.mapclients fd none }.offline fd

/-- The time of a client is that of its last message. -/
def message (g : Service) (fd now : Int) : Option Service :=
  (g.hearbeats.adjustBy fd now).map fun hearbeats => { g with hearbeats }

def loginSuccessfully (g : Service) (client : Client) : Service :=
  { g with
    clientLis := Function.update g.clientLis client.fd (some { client with online := true })
    clientMap := Function.update g.clientMap client.rid (some { client with online := true }) }

/-- A round of the loop of `heartbeatOff`, which began at `now`: the first node is taken when it is
older than 60 seconds, and its connection, if there is one, is shut down. -/
def heartbeatOff (g : Service) (now : Int) : Option (Option Int × Service) :=
  match g.hearbeats.reder with
  | none => some (none, g)
  | some reder =>
    if g.hearbeats.key reder < now - 60 * 1000 then
      g.hearbeats.fetch.map fun (info, hearbeats) =>
        (info.bind fun info =>
          let fd := (hearbeats.mem info).auto
          if (g.mapclients fd).isSome then some fd else none, { g with hearbeats })
    else some (none, g)

end Service

/-- An event of a connection; a login is that of its client. -/
inductive Event
  | connect (fd now : Int)
  | close (fd : Int)
  | message (fd now : Int)
  | login (client : Client)
  | heartbeat (now : Int)

/-- The gate, the connections that are accepted and not reported closed, and when each had its last
message. -/
structure Watched where
  gate : Service
  accepted : Int → Bool
  last : Int → Int

namespace Watched

def new (mem : Nat → Node Int Int) (last : Int → Int) : Watched := ⟨.new mem, fun _ => false, last⟩

/-- Only a number that is not in use is accepted, and only one that is in use is reported closed.  A
call that does not return changes nothing; there is none. -/
def event (w : Watched) : Event → Watched × Unit
  | .connect fd now =>
    if w.accepted fd then (w, ())
    else (⟨(w.gate.connect fd now).2, Function.update w.accepted fd true,
      Function.update w.last fd now⟩, ())
  | .close fd =>
    if w.accepted fd then
      (⟨(w.gate.close fd).getD w.gate, Function.update w.accepted fd false, w.last⟩, ())
    else (w, ())
  | .message fd now =>
    (⟨(w.gate.message fd now).getD w.gate, w.accepted, Function.update w.last fd now⟩, ())
  | .login client => ({ w with gate := w.gate.loginSuccessfully client }, ())
  | .heartbeat now =>
    ({ w with gate := ((w.gate.heartbeatOff now).map Prod.snd).getD w.gate }, ())

/-- The numbers that have an entry in `mapclients`. -/
def Entries (g : Service) (fds : Finset Int) : Prop := ∀ fd, fd ∈ fds ↔ (g.mapclients fd).isSome

def beats (g : Service) (fd : Int) : Nat := g.hearbeats.nodes.countP fun n => n.auto = fd

structure Booked (w : Watched) : Prop where
  count : ∃ fds, Entries w.gate fds ∧ w.gate.connectCount = fds.card
  beats : ∀ fd, beats w.gate fd = if (w.gate.mapclients fd).isSome then 1 else 0
  refused : ∀ fd now fds, (w.gate.connect fd now).1 = false → Entries w.gate fds → 10000 ≤ fds.card
  silent : ∀ now fd g, w.gate.heartbeatOff now = some (some fd, g) → w.last fd < now - 60 * 1000

/-- No connection that was let in is closed, and no heartbeat finds one that is silent. -/
def Stays (w : Watched) : Event → Prop
  | .connect .. => True
  | .close fd => w.accepted fd = true → w.gate.mapclients fd = none
  | .message .. => True
  | .login .. => True
  | .heartbeat now => ∀ r ∈ w.gate.hearbeats.reder, ¬ w.gate.hearbeats.key r < now - 60 * 1000

structure Inv (w : Watched) : Prop where
  count : ∃ fds, Entries w.gate fds ∧ w.gate.connectCount = fds.card
  beats : ∀ fd, Watched.beats w.gate fd = if (w.gate.mapclients fd).isSome then 1 else 0
  sound : w.gate.hearbeats.Sound
  ticks : ∀ n ∈ w.gate.hearbeats.nodes, n.ticks = w.last n.auto
  accepted : ∀ fd, (w.gate.mapclients fd).isSome → w.accepted fd = true

variable {w : Watched} {g : Service}

theorem Entries.unique {fds fds' : Finset Int} (h : Entries g fds) (h' : Entries g fds') :
    fds = fds' := by
  ext fd
  rw [h fd, h' fd]

theorem mem_of_reder {r : Nat} (h : r ∈ g.hearbeats.reder) :
    g.hearbeats.mem r ∈ g.hearbeats.nodes := by
  rw [Heap.nodes, Heap.nodesOf]
  exact Multiset.mem_map_of_mem _ (Multiset.mem_coe.mpr (List.mem_of_mem_head? h))

theorem heartbeatOff_eq (hs : g.hearbeats.Sound) {now : Int} {r : Nat}
    (hr : r ∈ g.hearbeats.reder) (hold : g.hearbeats.key r < now - 60 * 1000) :
    ∃ hearbeats, g.hearbeats.nodes = g.hearbeats.mem r ::ₘ hearbeats.nodes ∧
      hearbeats.Sound ∧
      g.heartbeatOff now = some (if (g.mapclients (g.hearbeats.mem r).auto).isSome then
        some (g.hearbeats.mem r).auto else none, { g with hearbeats }) := by
  have hnode : g.hearbeats.node? 1 = some r := by
    rw [Option.mem_def, Heap.reder, List.head?_eq_getElem?] at hr
    simpa [Heap.node?] using hr
  obtain ⟨hnone, -⟩ | ⟨r', t, hnode', hdelete, hmem, hsound, hnodes⟩ := hs.delete 1
  · rw [hnone] at hnode
    cases hnode
  · obtain rfl := Option.some.inj (hnode.symm.trans hnode')
    refine ⟨t, hmem ▸ hnodes, hsound, ?_⟩
    rw [Service.heartbeatOff, hr]
    simp only [hold, if_true, Heap.fetch, hdelete, Option.map_some, Option.bind_some, hmem]

theorem Inv.booked (hi : w.Inv) : w.Booked where
  count := hi.count
  beats := hi.beats
  refused fd now fds hrefused hfds := by
    obtain ⟨fds', hfds', hcount⟩ := hi.count
    obtain rfl := hfds.unique hfds'
    rw [← hcount]
    by_contra hlt
    rw [Service.connect, if_neg hlt] at hrefused
    cases hrefused
  silent now fd g h := by
    cases hreder : w.gate.hearbeats.reder with
    | none => simp [Service.heartbeatOff, hreder] at h
    | some r =>
      by_cases hold : w.gate.hearbeats.key r < now - 60 * 1000
      · obtain ⟨hearbeats, -, -, hoff⟩ := heartbeatOff_eq hi.sound hreder hold
        rw [hoff] at h
        simp only [Option.some.injEq, Prod.mk.injEq, Option.ite_none_right_eq_some] at h
        obtain ⟨⟨-, rfl⟩, -⟩ := h
        rw [← hi.ticks _ (mem_of_reder hreder)]
        exact hold
      · simp only [Service.heartbeatOff, hreder, hold, if_false, Option.some.injEq,
          Prod.mk.injEq, reduceCtorEq, false_and] at h

theorem Inv.new (mem : Nat → Node Int Int) (last : Int → Int) : (new mem last).Inv where
  count := ⟨∅, by simp [Entries, Watched.new, Service.new], rfl⟩
  beats _ := rfl
  sound := .new mem
  ticks := by simp [Watched.new, Service.new, Heap.new, Heap.nodes, Heap.nodesOf]
  accepted := by simp [Watched.new, Service.new]

/-! ### The events -/

theorem connect_eq (hs : g.hearbeats.Sound) (fd now : Int) (h : ¬ 10000 ≤ g.connectCount) :
    (g.connect fd now).2.connectCount = g.connectCount + 1 ∧
      (∃ item, (g.connect fd now).2.mapclients = Function.update g.mapclients fd (some item)) ∧
      (g.connect fd now).2.hearbeats.Sound ∧
      (g.connect fd now).2.hearbeats.nodes = ⟨now, fd, fd⟩ ::ₘ g.hearbeats.nodes := by
  obtain ⟨hsound, hchange⟩ := hs.appendBy now fd fd
  rw [Service.connect, if_neg h]
  simp only [Service.getRecord]
  split <;> exact ⟨rfl, ⟨_, rfl⟩, hsound, hchange.of_appendBy⟩

theorem Inv.no_node (hi : w.Inv) {fd : Int} (h : (w.gate.mapclients fd).isSome = false) :
    ∀ n ∈ w.gate.hearbeats.nodes, n.auto ≠ fd := by
  have hbeats := hi.beats fd
  rw [h] at hbeats
  exact Multiset.countP_eq_zero.mp hbeats

theorem Inv.connect (hi : w.Inv) (fd now : Int) (hnew : w.accepted fd ≠ true) :
    (w.event (.connect fd now)).1.Inv := by
  have hnone : (w.gate.mapclients fd).isSome = false :=
    Bool.eq_false_iff.mpr fun hsome => hnew (hi.accepted fd hsome)
  have hticks : ∀ n ∈ w.gate.hearbeats.nodes, n.ticks = Function.update w.last fd now n.auto := by
    intro n hn
    rw [Function.update_of_ne (hi.no_node hnone n hn), hi.ticks n hn]
  have haccepted : ∀ fd', (w.gate.mapclients fd').isSome →
      Function.update w.accepted fd true fd' = true := by
    intro fd' hfd'
    rw [Function.update_apply]
    split
    · rfl
    · exact hi.accepted fd' hfd'
  simp only [event, if_neg hnew]
  by_cases hfull : 10000 ≤ w.gate.connectCount
  · rw [Service.connect, if_pos hfull]
    exact ⟨hi.count, hi.beats, hi.sound, hticks, haccepted⟩
  · obtain ⟨hcount, ⟨item, hmap⟩, hsound, hnodes⟩ := connect_eq hi.sound fd now hfull
    constructor
    · obtain ⟨fds, hfds, hcard⟩ := hi.count
      refine ⟨insert fd fds, fun fd' => ?_, ?_⟩
      · rw [hmap, Function.update_apply, Finset.mem_insert, hfds fd']
        split <;> simp [*]
      · have hnot : fd ∉ fds := by simp [hfds fd, hnone]
        rw [hcount, hcard, Finset.card_insert_of_notMem hnot]
    · intro fd'
      have hbeats := hi.beats fd'
      simp only [Watched.beats, hnodes, hmap, Multiset.countP_cons,
        Function.update_apply] at hbeats ⊢
      by_cases heq : fd = fd'
      · subst heq
        simp [hbeats, hnone]
      · simp [hbeats, heq, Ne.symm heq]
    · exact hsound
    · rw [hnodes]
      exact Multiset.forall_mem_cons.mpr ⟨by simp, hticks⟩
    · intro fd' hfd'
      rw [hmap, Function.update_apply] at hfd'
      split at hfd'
      case isTrue heq => simp [heq]
      case isFalse => exact haccepted fd' hfd'

theorem Inv.message (hi : w.Inv) (fd now : Int) : (w.event (.message fd now)).1.Inv := by
  obtain ⟨t, hadjust, hsound, hchange⟩ := hi.sound.adjustBy fd now
  simp only [event, Service.message, hadjust, Option.map_some, Option.getD_some]
  obtain ⟨n, rest, hauto, hnodes, hnodes'⟩ | ⟨hnone, hnodes⟩ := hchange.of_adjustBy
  · have hbeats := hi.beats
    have hticks := hi.ticks
    simp only [Watched.beats, hnodes, Multiset.countP_cons] at hbeats
    rw [hnodes] at hticks
    refine ⟨hi.count, fun fd' => ?_, hsound, ?_, hi.accepted⟩
    · rw [← hbeats fd', Watched.beats, hnodes', Multiset.countP_cons]
    · have hrest : ∀ m ∈ rest, m.auto ≠ fd := by
        have hone := hbeats fd
        rw [if_pos hauto] at hone
        refine Multiset.countP_eq_zero.mp ?_
        split at hone <;> omega
      rw [hnodes']
      refine Multiset.forall_mem_cons.mpr ⟨by simp [hauto], fun m hm => ?_⟩
      have hold := hticks m (Multiset.mem_cons_of_mem hm)
      exact hold.trans (Function.update_of_ne (hrest m hm) _ _).symm
  · refine ⟨hi.count, fun fd' => ?_, hsound, fun n hn => ?_, hi.accepted⟩
    · rw [← hi.beats fd', Watched.beats, Watched.beats, hnodes]
    · rw [hnodes] at hn
      exact (hi.ticks n hn).trans (Function.update_of_ne (hnone n hn) _ _).symm

theorem Inv.close (hi : w.Inv) {fd : Int} (hopen : w.accepted fd = true)
    (hnone : w.gate.mapclients fd = none) : (w.event (.close fd)).1.Inv := by
  have hmap : Function.update w.gate.mapclients fd none = w.gate.mapclients :=
    Function.update_eq_self_iff.mpr hnone.symm
  have hdelete : w.gate.hearbeats.deleteBy fd = some (none, w.gate.hearbeats) := by
    have hsearch : w.gate.hearbeats.search fd = none := by
      cases hs : w.gate.hearbeats.search fd with
      | none => rfl
      | some pos =>
        obtain ⟨-, hlt, hauto⟩ := Heap.search_eq_some hs
        have hno : ∀ n ∈ w.gate.hearbeats.nodes, n.auto ≠ fd := hi.no_node (by simp [hnone])
        exact absurd hauto (Heap.forall_nodes.mp hno _ (List.getElem_mem hlt))
    rw [Heap.deleteBy, hsearch]
  have haccepted : ∀ fd', (w.gate.mapclients fd').isSome →
      Function.update w.accepted fd false fd' = true := by
    intro fd' hfd'
    rw [Function.update_of_ne, hi.accepted fd' hfd']
    rintro rfl
    simp [hnone] at hfd'
  simp only [event, if_pos hopen, Service.close, hmap, Service.offline]
  split
  · exact ⟨hi.count, hi.beats, hi.sound, hi.ticks, haccepted⟩
  · simp only [hdelete, Option.map_some, Option.getD_some]
    exact ⟨hi.count, hi.beats, hi.sound, hi.ticks, haccepted⟩

theorem Inv.heartbeat (hi : w.Inv) {now : Int}
    (hnone : ∀ r ∈ w.gate.hearbeats.reder, ¬ w.gate.hearbeats.key r < now - 60 * 1000) :
    (w.event (.heartbeat now)).1.Inv := by
  have hsame : w.gate.heartbeatOff now = some (none, w.gate) := by
    unfold Service.heartbeatOff
    split
    case h_1 => rfl
    case h_2 r hr => rw [if_neg (hnone r hr)]
  simp only [event, hsame]
  exact hi

theorem Inv.event (hi : w.Inv) {e : Event} (h : w.Stays e) : (w.event e).1.Inv := by
  cases e with
  | connect fd now =>
    by_cases hopen : w.accepted fd = true
    · simp only [Watched.event, if_pos hopen]
      exact hi
    · exact hi.connect fd now hopen
  | close fd =>
    by_cases hopen : w.accepted fd = true
    · exact hi.close hopen (h hopen)
    · simp only [Watched.event, if_neg hopen]
      exact hi
  | message fd now => exact hi.message fd now
  | login client => exact { hi with }
  | heartbeat now => exact hi.heartbeat h

theorem close_returns (hs : g.hearbeats.Sound) (fd : Int) : ∃ g', g.close fd = some g' ∧
    g'.mapclients = Function.update g.mapclients fd none ∧ g'.connectCount = g.connectCount := by
  obtain ⟨reply, t, hstep, -⟩ := hs.run (.deleteBy fd)
  obtain ⟨⟨r, t'⟩, hdelete, -⟩ := Option.map_eq_some_iff.mp hstep
  unfold Service.close Service.offline
  split
  · exact ⟨_, rfl, rfl, rfl⟩
  · exact ⟨_, congrArg (Option.map _) hdelete, rfl, rfl⟩

theorem Inv.close_fails (hi : w.Inv) {fd : Int} (hopen : w.accepted fd = true)
    (hsome : w.gate.mapclients fd ≠ none) : ¬ (w.event (.close fd)).1.Booked := by
  obtain ⟨g, hclose, hmap, hcount⟩ := close_returns hi.sound fd
  have hevent : (w.event (.close fd)).1.gate = g := by
    simp only [Watched.event, if_pos hopen, hclose, Option.getD_some]
  intro hbooked
  obtain ⟨fds, hfds, hcard⟩ := hi.count
  obtain ⟨fds', hfds', hcard'⟩ := hbooked.count
  rw [hevent] at hfds' hcard'
  have herase : Entries g (fds.erase fd) := by
    intro fd'
    rw [hmap, Finset.mem_erase, hfds fd', Function.update_apply]
    split <;> simp [*]
  have hmem : fd ∈ fds := (hfds fd).mpr (Option.isSome_iff_ne_none.mpr hsome)
  have hlt := Finset.card_erase_lt_of_mem hmem
  rw [hfds'.unique herase] at hcard'
  omega

theorem Inv.heartbeat_fails (hi : w.Inv) {now : Int} {r : Nat} (hr : r ∈ w.gate.hearbeats.reder)
    (hold : w.gate.hearbeats.key r < now - 60 * 1000) :
    ¬ (w.event (.heartbeat now)).1.Booked := by
  obtain ⟨hearbeats, hnodes, -, hoff⟩ := heartbeatOff_eq hi.sound hr hold
  intro hbooked
  have hbefore := hi.beats (w.gate.hearbeats.mem r).auto
  have hafter := hbooked.beats (w.gate.hearbeats.mem r).auto
  simp only [Watched.event, hoff, Option.map_some, Option.getD_some, Watched.beats] at hafter
  rw [Watched.beats, hnodes, Multiset.countP_cons, if_pos rfl] at hbefore
  omega

theorem Inv.fails (hi : w.Inv) {e : Event} (h : ¬ w.Stays e) : ¬ (w.event e).1.Booked := by
  refine fun hbooked => h ?_
  cases e with
  | connect => trivial
  | close fd =>
    intro hopen
    by_contra hsome
    exact hi.close_fails hopen hsome hbooked
  | message | login => trivial
  | heartbeat now =>
    intro r hr hold
    exact hi.heartbeat_fails hr hold hbooked

/-- The connections are booked right after each of the events if and only if none that was let in is
closed and no heartbeat finds one that is silent. -/
theorem connections_booked_iff (mem : Nat → Node Int Int) (last : Int → Int)
    (events : List Event) :
    (∀ pre, pre <+: events → (Lib.after event (new mem last) pre).Booked) ↔
      Lib.Along event Stays (new mem last) events :=
  Lib.along_iff (I := fun _ => Inv) (G := fun _ => Booked) (Inv.new mem last)
    (fun _ _ _ hi h => hi.event h) (fun _ _ hi => hi.booked) (fun _ _ _ hi h => hi.fails h) events

/-- A client comes and goes, and is counted still. -/
theorem client_left : (Lib.after event (new (fun _ => ⟨0, 0, 0⟩) fun _ => 0)
      [.connect 7 0, .close 7]).gate.connectCount = 1 ∧
    ¬ ∀ pre, pre <+: [.connect 7 0, .close 7] →
      (Lib.after event (new (fun _ => ⟨0, 0, 0⟩) fun _ => 0) pre).Booked := by
  refine ⟨rfl, fun h => ?_⟩
  obtain ⟨fds, hfds, hcard⟩ := (h _ (List.prefix_refl _)).count
  have hmap : (Lib.after event (new (fun _ => ⟨0, 0, 0⟩) fun _ => 0)
      [.connect 7 0, .close 7]).gate.mapclients =
        Function.update (Function.update (fun _ => none) 7 (some 0)) 7 none := rfl
  have hempty : fds = ∅ := by
    apply Finset.eq_empty_of_forall_notMem
    intro fd hfd
    have hsome := (hfds fd).mp hfd
    rw [hmap, Function.update_idem, Function.update_apply] at hsome
    split at hsome <;> cases hsome
  rw [hempty] at hcard
  exact absurd hcard (by decide)

end Watched

end XsServer.Gate
