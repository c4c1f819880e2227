import XsServer.Cluster.Request
import XsServer.Lib.Interleave

/-! The first half of `dispatch_request` in `clusteragent.lua`: packets become requests, and the
parts of large ones are collected by their session. -/

namespace XsServer.Cluster

open Lib

/-- An element of `large_request`. -/
structure Req where
  addr : Option Address
  isPush : Bool
  tracetag : Option Address
  items : List Item

/-- The variables `large_request` and `tracetag`. -/
structure Pieces where
  largeRequest : UInt32 → Option Req
  tracetag : Option Address

def Pieces.init : Pieces := ⟨fun _ => none, none⟩

structure Delivery where
  addr : Option Address
  session : UInt32
  msg : List UInt8
  isPush : Bool
  deriving DecidableEq

inductive Arrival
  | trace
  | part
  /-- the response is "Invalid large req" -/
  | invalid (session : UInt32)
  | request (d : Delivery)
  deriving DecidableEq

def reassemble (s : Pieces) (u : Unpacked) : Pieces × Arrival :=
  match u.session with
  | none => ({ s with tracetag := u.addr }, .trace)
  | some session =>
    if u.padding then
      let req := (s.largeRequest session).getD ⟨u.addr, u.isPush, s.tracetag, []⟩
      let req := { req with items := req.items ++ [item u.msg u.sz] }
      (⟨Function.update s.largeRequest session (some req), none⟩, .part)
    else
      match s.largeRequest session with
      | some req =>
        let s := ⟨Function.update s.largeRequest session none, req.tracetag⟩
        match concat (req.items ++ [item u.msg u.sz]) with
        | some msg => (s, .request ⟨req.addr, session, msg, req.isPush⟩)
        | none => ({ s with tracetag := none }, .invalid session)
      | none =>
        match u.msg with
        | some msg => (s, .request ⟨u.addr, session, msg, u.isPush⟩)
        | none => ({ s with tracetag := none }, .invalid session)

/-- What leaves the first half of `dispatch_request`. -/
def Arrival.output : Arrival → List Arrival
  | .trace | .part => []
  | a => [a]

/-- The packet, without the header that the gate has removed, is unpacked and dispatched. -/
def receivePacket (s : Pieces) (packet : List UInt8) : Option (Pieces × List Arrival) := do
  let u ← unpackrequest (packet.drop 2)
  let r := reassemble s u
  some (r.1, r.2.output)

def Request.delivery (r : Request) : Delivery :=
  ⟨some r.addr, r.wireSession, r.msg, r.isPush⟩

/-! ### Any order -/

/-- The parts that have arrived, and those that are left. -/
structure Collected (r : Request) (req : Req) (left : List UInt8) : Prop where
  addr : req.addr = some r.addr
  isPush : req.isPush = r.isPush
  items : ∃ strs : List (List UInt8), strs.flatten ++ left = r.msg ∧
    req.items = .number (UInt32.ofNat r.msg.length) :: strs.map .string

inductive Ready (r : Request) (s : Pieces) : List (List UInt8) → List Arrival → Prop
  | start {ps : List (List UInt8)} : r.packets = some ps → s.largeRequest r.wireSession = none →
      Ready r s ps [.request r.delivery]
  | middle {req : Req} {left : List UInt8} {ps : List (List UInt8)} :
      r.wireSession = r.session.toUInt32 → s.largeRequest r.session.toUInt32 = some req →
        Collected r req left →
      Cut (ReqPart r.session.toUInt32) left ps → Ready r s ps [.request r.delivery]
  | done : Ready r s [] []

variable {r r' : Request} {s s' : Pieces} {ps : List (List UInt8)} {out : List Arrival}

theorem Ready.other (h : Ready r s ps out) (hv : r'.Valid) (hne : r.session ≠ r'.session)
    (hsame : ∀ k ≠ r'.session.toUInt32, s'.largeRequest k = s.largeRequest k) :
    Ready r s' ps out := by
  have hsession : r.session.toUInt32 ≠ r'.session.toUInt32 := fun heq =>
    hne (congrArg Int32.ofUInt32 heq)
  have hwire : r.wireSession ≠ r'.session.toUInt32 := by
    unfold Request.wireSession
    split
    · exact (toUInt32_ne_zero hv.session).symm
    · exact hsession
  cases h with
  | start hpackets hnone => exact .start hpackets ((hsame _ hwire).trans hnone)
  | middle hlarge hreq hcoll hcut => exact .middle hlarge ((hsame _ hsession).trans hreq) hcoll hcut
  | done => exact .done

theorem Ready.advance (hv : r.Valid) {p : List UInt8} (h : Ready r s (p :: ps) out) :
    ∃ s' now later, receivePacket s p = some (s', now) ∧ out = now ++ later ∧
      Ready r s' ps later ∧
      ∀ k ≠ r.session.toUInt32, s'.largeRequest k = s.largeRequest k := by
  cases h with
  | start hpackets hnone =>
    by_cases hsmall : r.msg.length < MULTI_PART
    · obtain ⟨p', hp', -, hunpack⟩ := Request.packets_small hv hsmall
      obtain ⟨rfl, rfl⟩ := List.cons.inj (Option.some.inj (hpackets.symm.trans hp'))
      refine ⟨s, [.request r.delivery], [], ?_, rfl, .done, fun _ _ => rfl⟩
      simp only [receivePacket, hunpack, Option.bind_eq_bind, Option.bind_some, reassemble, hnone]
      rfl
    · obtain ⟨p', ps', hp', -, hunpack, hcut⟩ := Request.packets_large hv (Nat.le_of_not_lt hsmall)
      obtain ⟨rfl, rfl⟩ := List.cons.inj (Option.some.inj (hpackets.symm.trans hp'))
      have hwire : r.wireSession = r.session.toUInt32 := if_neg fun h => hsmall h.2
      rw [hwire] at hnone
      let req : Req := ⟨some r.addr, r.isPush, s.tracetag, [.number (UInt32.ofNat r.msg.length)]⟩
      refine ⟨⟨Function.update s.largeRequest r.session.toUInt32 (some req), none⟩, [],
        [.request r.delivery], ?_, rfl, ?_, fun k hk => Function.update_of_ne hk _ _⟩
      · simp only [receivePacket, hunpack, Option.bind_eq_bind, Option.bind_some, reassemble, hnone]
        rfl
      · exact .middle hwire (Function.update_self ..) ⟨rfl, rfl, [], rfl, rfl⟩ hcut
  | middle hlarge hreq hcoll hcut =>
    rename_i req left
    obtain ⟨haddr, hpush, strs, hmsg, hitems⟩ := hcoll
    cases hcut with
    | last hpart =>
      have hstrs : (strs ++ [left]).flatten = r.msg := by
        rw [List.flatten_append, List.flatten_singleton, hmsg]
      have hconcat := concat_strings hstrs hv.size
      rw [List.map_append, List.map_singleton, ← List.cons_append, ← hitems] at hconcat
      refine ⟨⟨Function.update s.largeRequest r.session.toUInt32 none, req.tracetag⟩,
        [.request ⟨some r.addr, r.session.toUInt32, r.msg, r.isPush⟩], [], ?_, ?_, .done,
        fun k hk => Function.update_of_ne hk _ _⟩
      · simp only [receivePacket, hpart.unpack, Option.bind_eq_bind, Option.bind_some,
          reassemble, hreq, item, hconcat, haddr, hpush]
        rfl
      · rw [Request.delivery, hlarge]
        rfl
    | @more _ front msg _ hpart hcut =>
      have hmsg' : (strs ++ [front]).flatten ++ msg = r.msg := by
        rw [List.flatten_append, List.flatten_singleton, List.append_assoc, hmsg]
      have hitems' : req.items ++ [.string front] =
          .number (UInt32.ofNat r.msg.length) :: (strs ++ [front]).map .string := by
        rw [hitems, List.map_append, List.map_singleton, List.cons_append]
      let req' : Req := { req with items := req.items ++ [.string front] }
      refine ⟨⟨Function.update s.largeRequest r.session.toUInt32 (some req'), none⟩, [],
        [.request r.delivery], ?_, rfl, ?_, fun k hk => Function.update_of_ne hk _ _⟩
      · simp only [receivePacket, hpart.unpack, Option.bind_eq_bind, Option.bind_some,
          reassemble, hreq, item, Option.getD_some]
        rfl
      · exact .middle hlarge (Function.update_self ..) ⟨haddr, hpush, _, hmsg', hitems'⟩ hcut

theorem Ready.ends (h : Ready r s [] out) : out = [] := by
  cases h with
  | start hpackets hnone =>
    unfold Request.packets at hpackets
    obtain ⟨⟨request, session, padding⟩, -, hcons⟩ := Option.map_eq_some_iff.mp hpackets
    cases hcons
  | middle hlarge hreq hcoll hcut => cases hcut
  | done => rfl

theorem Request.exists_packets (hv : r.Valid) :
    ∃ ps, r.packets = some ps ∧ ∀ p ∈ ps, Framed p := by
  by_cases hsmall : r.msg.length < MULTI_PART
  · obtain ⟨p, hp, hframed, -⟩ := Request.packets_small hv hsmall
    exact ⟨[p], hp, List.forall_mem_singleton.mpr hframed⟩
  · obtain ⟨p, ps, hps, hframed, -⟩ := Request.packets_large hv (Nat.le_of_not_lt hsmall)
    exact ⟨p :: ps, hps, hframed⟩

/-- Every interleaving of the packets of requests and pushes of different sessions brings each of
them to the other side once. -/
theorem cluster_requests (rs : List Request) (hvalid : ∀ r ∈ rs, r.Valid)
    (hsessions : (rs.map (·.session)).Nodup) :
    ∃ packets : Fin rs.length → List (List UInt8),
      (∀ i, (rs.get i).packets = some (packets i) ∧ ∀ p ∈ packets i, Framed p) ∧
      ∀ wire, Interleaving packets wire →
        ∃ s out, feed receivePacket Pieces.init wire = some (s, out) ∧
          out.Perm (rs.map fun r => .request r.delivery) := by
  have hget : ∀ i, (rs.get i).Valid := fun i => hvalid _ (List.get_mem rs i)
  choose packets hpackets hframed using fun i => Request.exists_packets (hget i)
  refine ⟨packets, fun i => ⟨hpackets i, hframed i⟩, fun wire hwire => ?_⟩
  have hstep : ∀ i s p ps out, Ready (rs.get i) s (p :: ps) out →
      Advances receivePacket (fun i => Ready (rs.get i)) i s p ps out := by
    intro i s p ps out h
    obtain ⟨s', now, later, hstep, hout, hready, hsame⟩ := h.advance (hget i)
    refine ⟨s', now, later, hstep, hout, hready, fun j hj ps' out' hother => ?_⟩
    exact hother.other (hget i) (fun heq => hj (eq_of_nodup_map hsessions heq)) hsame
  obtain ⟨s, out, hfeed, hinter, -⟩ := hwire.feed receivePacket (fun i => Ready (rs.get i))
    Pieces.init (fun i => [.request (rs.get i).delivery]) (fun i => .start (hpackets i) rfl)
    (fun _ _ _ h => h.ends) hstep
  exact ⟨s, out, hfeed, hinter.perm_map⟩

def manyBytes (n : Nat) (b : UInt8) : List UInt8 := List.replicate n b

theorem cluster_requests_parts :
    ∃ packets : Fin 3 → List (List UInt8), ∀ wire, Interleaving packets wire →
      ∃ s out, feed receivePacket Pieces.init wire = some (s, out) ∧
        out.Perm [.request ⟨some (.number 5), 1, manyBytes 40000 7, false⟩,
          .request ⟨some (.name [64]), 2, manyBytes 100000 8, true⟩,
          .request ⟨some (.name [64]), 0, [9], true⟩] := by
  let r1 : Request := ⟨.number 5, 1, manyBytes 40000 7, false⟩
  let r2 : Request := ⟨.name [64], 2, manyBytes 100000 8, true⟩
  let r3 : Request := ⟨.name [64], 3, [9], true⟩
  have hlen : ∀ n b, (manyBytes n b).length = n := fun n b => List.length_replicate
  have h1 : r1.Valid := ⟨fun _ h => (nomatch h), by decide, by rw [hlen]; decide⟩
  have h2 : r2.Valid := ⟨fun _ h => (by cases h; decide), by decide, by rw [hlen]; decide⟩
  have h3 : r3.Valid := ⟨fun _ h => (by cases h; decide), by decide, by decide⟩
  have hwire : r2.wireSession = 2 := if_neg fun h => absurd (hlen 100000 8 ▸ h.2) (by decide)
  obtain ⟨packets, -, h⟩ := cluster_requests [r1, r2, r3]
    (List.forall_mem_cons.mpr ⟨h1, List.forall_mem_cons.mpr ⟨h2, List.forall_mem_singleton.mpr h3⟩⟩)
    (by decide)
  refine ⟨packets, fun wire hw => ?_⟩
  obtain ⟨s, out, hfeed, hperm⟩ := h wire hw
  refine ⟨s, out, hfeed, ?_⟩
  rw [← hwire]
  exact hperm

end XsServer.Cluster
