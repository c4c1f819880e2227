import XsServer.Cluster.Request
import XsServer.Lib.Interleave

/-! Responses on a channel of `socketchannel.lua` with `dispatch_by_session`, for the requests of
`clustersender.lua`.  Each request waits in its coroutine. -/

namespace XsServer.Cluster

open Lib

/-- An element of `__result_data`. -/
inductive Data
  | value (data : Item)
  | table (items : List Item)

/-- The tables `__thread`, `__result` and `__result_data`. -/
structure Channel (Co : Type) where
  thread : UInt32 → Option Co
  result : Co → Option Bool
  resultData : Co → Option Data

inductive Answer
  | ret (msg : List UInt8)
  | fail (text : List UInt8)
  deriving DecidableEq

variable {Co : Type} [DecidableEq Co]

def Channel.init : Channel Co := ⟨fun _ => none, fun _ => none, fun _ => none⟩

def pushResponse (c : Channel Co) (session : UInt32) (co : Co) : Channel Co :=
  { c with thread := Function.update c.thread session (some co) }

/-- `table.insert`; `none` is its error. -/
def Data.insert : Data → Item → Option Data
  | .table items, data => some (.table (items ++ [data]))
  | .value _, _ => none

/-- The header is read, and then as many bytes as it says. -/
def readResponse (packet : List UInt8) : Option Response :=
  unpackresponse ((packet.drop 2).take (Bytes.ofBe (packet.take 2)))

/-- The element of `__result_data` after the last packet. -/
def lastData : Bool → Option Data → Item → Option Data
  | true, some data', data => data'.insert data
  | _, _, data => some (.value data)

/-- A round of the loop of `dispatch_by_session`, with the coroutines it wakes up; `none` where the
channel is closed. -/
def dispatchBySession (c : Channel Co) (packet : List UInt8) : Option (Channel Co × List Co) := do
  let r ← readResponse packet
  match c.thread r.session with
  | some co =>
    if r.padding ∧ r.ok then
      let data ← ((c.resultData co).getD (.table [])).insert r.data
      some ({ c with resultData := Function.update c.resultData co (some data) }, [])
    else
      let data ← lastData r.ok (c.resultData co) r.data
      some ({
        thread := Function.update c.thread r.session none
        result := Function.update c.result co (some r.ok)
        resultData := Function.update c.resultData co (some data) }, [co])
  | none => some (c, [])

/-- `command.req` from what `wait_for_response` returns or raises. -/
def commandReq : Bool → Data → Option Answer
  | true, .table items => some (.ret ((concat items).getD []))
  | true, .value (.string msg) => some (.ret msg)
  | false, .value (.string text) => some (.fail text)
  | _, _ => none

/-- The end of `wait_for_response`, in a coroutine that was woken up. -/
def resume (c : Channel Co) (co : Co) : Option (Channel Co × Answer) := do
  let ok ← c.result co
  let data ← c.resultData co
  let answer ← commandReq ok data
  some ({ c with
    result := Function.update c.result co none
    resultData := Function.update c.resultData co none }, answer)

inductive Event (Co : Type)
  | request (session : UInt32) (co : Co)
  | packet (packet : List UInt8)
  | resume (co : Co)

inductive Output (Co : Type)
  | wakeup (co : Co)
  | answer (co : Co) (answer : Answer)

def Channel.step (c : Channel Co) : Event Co → Option (Channel Co × List (Output Co))
  | .request session co => some (pushResponse c session co, [])
  | .packet packet => (dispatchBySession c packet).map fun r => (r.1, r.2.map .wakeup)
  | .resume co => (Cluster.resume c co).map fun r => (r.1, [.answer co r.2])

/-! ### Any order -/

structure Exchange (Co : Type) where
  session : UInt32
  co : Co
  ok : Bool
  msg : List UInt8

def Exchange.answer (x : Exchange Co) : Answer :=
  if x.ok then .ret x.msg else .fail (x.msg.take MULTI_PART)

/-- The request, the packets of the response, and at some time the coroutine goes on. -/
def Exchange.events (x : Exchange Co) (packets : List (List UInt8)) : List (Event Co) :=
  .request x.session x.co :: packets.map .packet ++ [.resume x.co]

def Exchange.outputs (x : Exchange Co) : List (Output Co) :=
  [.wakeup x.co, .answer x.co x.answer]

inductive Exchange.Ready (x : Exchange Co) (c : Channel Co) :
    List (Event Co) → List (Output Co) → Prop
  | start {ps : List (List UInt8)} : packresponse x.session x.ok x.msg = some ps →
      c.resultData x.co = none → Ready x c (x.events ps) x.outputs
  | waiting {ps : List (List UInt8)} : packresponse x.session x.ok x.msg = some ps →
      c.thread x.session = some x.co → c.resultData x.co = none →
      Ready x c (ps.map .packet ++ [.resume x.co]) x.outputs
  | collecting {strs : List (List UInt8)} {left : List UInt8} {ps : List (List UInt8)} :
      x.ok = true → c.thread x.session = some x.co → strs.flatten ++ left = x.msg →
      c.resultData x.co =
        some (.table (.number (UInt32.ofNat x.msg.length) :: strs.map .string)) →
      Cut (RespPart x.session) left ps → Ready x c (ps.map .packet ++ [.resume x.co]) x.outputs
  | woken {data : Data} : c.result x.co = some x.ok → c.resultData x.co = some data →
      commandReq x.ok data = some x.answer →
      Ready x c [.resume x.co] [.answer x.co x.answer]
  | done : Ready x c [] []

/-- The tables differ at one session and one coroutine at most. -/
structure Channel.SameBut (c c' : Channel Co) (session : UInt32) (co : Co) : Prop where
  thread : ∀ s ≠ session, c'.thread s = c.thread s
  result : ∀ co' ≠ co, c'.result co' = c.result co'
  resultData : ∀ co' ≠ co, c'.resultData co' = c.resultData co'

variable {x y : Exchange Co} {c c' : Channel Co} {es : List (Event Co)} {out : List (Output Co)}

omit [DecidableEq Co] in
theorem Exchange.Ready.other (h : x.Ready c es out) (hs : c.SameBut c' y.session y.co)
    (hsession : x.session ≠ y.session) (hco : x.co ≠ y.co) : x.Ready c' es out := by
  have hthread := hs.thread _ hsession
  have hresult := hs.result _ hco
  have hdata := hs.resultData _ hco
  cases h with
  | start hps hnone => exact .start hps (hdata.trans hnone)
  | waiting hps hwait hnone => exact .waiting hps (hthread.trans hwait) (hdata.trans hnone)
  | collecting hok hwait hmsg hstrs hcut =>
    exact .collecting hok (hthread.trans hwait) hmsg (hdata.trans hstrs) hcut
  | woken hok hhas hanswer => exact .woken (hresult.trans hok) (hdata.trans hhas) hanswer
  | done => exact .done

theorem readResponse_framed {p : List UInt8} (h : Framed p) :
    readResponse p = unpackresponse (p.drop 2) := by
  rw [readResponse, h.header, List.take_length]

theorem step_padding {p : List UInt8} {data : Item} {items : List Item} (hframed : Framed p)
    (hunpack : unpackresponse (p.drop 2) = some ⟨x.session, true, data, true⟩)
    (hwait : c.thread x.session = some x.co)
    (hitems : (c.resultData x.co).getD (.table []) = .table items) :
    c.step (.packet p) = some ({ c with
      resultData := Function.update c.resultData x.co (some (.table (items ++ [data]))) }, []) := by
  rw [Channel.step, dispatchBySession, readResponse_framed hframed, hunpack, Option.bind_eq_bind,
    Option.bind_some]
  simp only [hwait, hitems]
  rfl

theorem step_last {p : List UInt8} {ok : Bool} {data : Item} {data' : Data} (hframed : Framed p)
    (hunpack : unpackresponse (p.drop 2) = some ⟨x.session, ok, data, false⟩)
    (hwait : c.thread x.session = some x.co)
    (hdata : lastData ok (c.resultData x.co) data = some data') :
    c.step (.packet p) = some ({
      thread := Function.update c.thread x.session none
      result := Function.update c.result x.co (some ok)
      resultData := Function.update c.resultData x.co (some data') }, [.wakeup x.co]) := by
  have hpadding : ¬(false = true ∧ ok = true) := fun h => nomatch h.1
  rw [Channel.step, dispatchBySession, readResponse_framed hframed, hunpack, Option.bind_eq_bind,
    Option.bind_some]
  simp only [hwait, if_neg hpadding, hdata]
  rfl

theorem sameBut_padding (x : Exchange Co) (data : Option Data) :
    c.SameBut { c with resultData := Function.update c.resultData x.co data } x.session x.co :=
  ⟨fun _ _ => rfl, fun _ _ => rfl, fun _ h => Function.update_of_ne h _ _⟩

theorem sameBut_last (x : Exchange Co) (thread : Option Co) (ok : Option Bool)
    (data : Option Data) :
    c.SameBut {
      thread := Function.update c.thread x.session thread
      result := Function.update c.result x.co ok
      resultData := Function.update c.resultData x.co data } x.session x.co :=
  ⟨fun _ h => Function.update_of_ne h _ _, fun _ h => Function.update_of_ne h _ _,
    fun _ h => Function.update_of_ne h _ _⟩

theorem Exchange.Ready.first {ps : List (List UInt8)} {e : Event Co}
    (hps : packresponse x.session x.ok x.msg = some ps) (hwait : c.thread x.session = some x.co)
    (hnone : c.resultData x.co = none) (hes : ps.map .packet ++ [.resume x.co] = e :: es) :
    ∃ c' now later, c.step e = some (c', now) ∧ x.outputs = now ++ later ∧
      x.Ready c' es later ∧ c.SameBut c' x.session x.co := by
  by_cases hlarge : x.ok = true ∧ MULTI_PART < x.msg.length
  · obtain ⟨hok, hlarge⟩ := hlarge
    obtain ⟨p, ps', hpack, hframed, hunpack, hcut⟩ := @packresponse_large x.msg x.session hlarge
    rw [hok, hpack] at hps
    obtain rfl := Option.some.inj hps
    obtain ⟨rfl, rfl⟩ := List.cons.inj hes
    have hstep := @step_padding _ _ x c p _ [] (hframed p List.mem_cons_self) hunpack hwait
      (by rw [hnone]; rfl)
    refine ⟨_, [], x.outputs, hstep, rfl, ?_, sameBut_padding x _⟩
    exact @Exchange.Ready.collecting _ x _ [] _ _ hok hwait rfl (Function.update_self ..) hcut
  · obtain ⟨p, hpack, hframed, hunpack⟩ := @packresponse_one x.msg x.session x.ok fun hok =>
      Nat.le_of_not_lt fun hlt => hlarge ⟨hok, hlt⟩
    rw [hpack] at hps
    obtain rfl := Option.some.inj hps
    obtain ⟨rfl, rfl⟩ := List.cons.inj hes
    have hstep := @step_last _ _ x c p x.ok _ (.value (.string (x.msg.take MULTI_PART))) hframed
      hunpack hwait (by rw [hnone]; cases x.ok <;> rfl)
    refine ⟨_, [.wakeup x.co], [.answer x.co x.answer], hstep, rfl, ?_, sameBut_last x _ _ _⟩
    refine .woken (Function.update_self ..) (Function.update_self ..) ?_
    unfold Exchange.answer
    cases hok : x.ok with
    | false => rfl
    | true =>
      have hle : x.msg.length ≤ MULTI_PART := Nat.le_of_not_lt fun hlt => hlarge ⟨hok, hlt⟩
      rw [List.take_of_length_le hle]
      rfl

theorem Exchange.Ready.next {strs : List (List UInt8)} {left : List UInt8} {ps : List (List UInt8)}
    {e : Event Co} (hlt : x.msg.length < 2 ^ 31) (hok : x.ok = true)
    (hwait : c.thread x.session = some x.co) (hmsg : strs.flatten ++ left = x.msg)
    (hstrs : c.resultData x.co =
      some (.table (.number (UInt32.ofNat x.msg.length) :: strs.map .string)))
    (hcut : Cut (RespPart x.session) left ps) (hes : ps.map .packet ++ [.resume x.co] = e :: es) :
    ∃ c' now later, c.step e = some (c', now) ∧ x.outputs = now ++ later ∧
      x.Ready c' es later ∧ c.SameBut c' x.session x.co := by
  cases hcut with
  | last hpart =>
    obtain ⟨rfl, rfl⟩ := List.cons.inj hes
    rename_i p
    have hmsg' : (strs ++ [left]).flatten = x.msg := by
      rw [List.flatten_append, List.flatten_singleton, hmsg]
    have hstep := step_last hpart.framed hpart.unpack hwait (by rw [hstrs]; rfl)
    refine ⟨_, [.wakeup x.co], [.answer x.co x.answer], hstep, rfl, ?_, sameBut_last x _ _ _⟩
    rw [← hok]
    refine .woken (Function.update_self ..) (Function.update_self ..) ?_
    rw [hok, ← List.map_singleton, List.cons_append, ← List.map_append, commandReq,
      concat_strings hmsg' hlt, Exchange.answer, hok]
    rfl
  | @more p front msg ps hpart hcut =>
    obtain ⟨rfl, rfl⟩ := List.cons.inj hes
    have hmsg' : (strs ++ [front]).flatten ++ msg = x.msg := by
      rw [List.flatten_append, List.flatten_singleton, List.append_assoc, hmsg]
    have hstep := step_padding hpart.framed hpart.unpack hwait (by rw [hstrs]; rfl)
    refine ⟨_, [], x.outputs, hstep, rfl, ?_, sameBut_padding x _⟩
    refine .collecting hok hwait hmsg' ?_ hcut
    rw [List.map_append, ← List.cons_append]
    exact Function.update_self ..

theorem Exchange.Ready.advance {l : List (Event Co)} {e : Event Co}
    (hvalid : x.ok = true → x.msg.length < 2 ^ 31) (h : x.Ready c l out) (hl : l = e :: es) :
    ∃ c' now later, c.step e = some (c', now) ∧ out = now ++ later ∧
      x.Ready c' es later ∧ c.SameBut c' x.session x.co := by
  cases h with
  | start hps hnone =>
    obtain ⟨rfl, rfl⟩ := List.cons.inj hl
    refine ⟨pushResponse c x.session x.co, [], x.outputs, rfl, rfl, ?_, ?_⟩
    · exact .waiting hps (Function.update_self ..) hnone
    · exact ⟨fun _ h => Function.update_of_ne h _ _, fun _ _ => rfl, fun _ _ => rfl⟩
  | waiting hps hwait hnone => exact Exchange.Ready.first hps hwait hnone hl
  | collecting hok hwait hmsg hstrs hcut =>
    exact Exchange.Ready.next (hvalid hok) hok hwait hmsg hstrs hcut hl
  | @woken data hok hhas hanswer =>
    obtain ⟨rfl, rfl⟩ := List.cons.inj hl
    refine ⟨{ c with
      result := Function.update c.result x.co none
      resultData := Function.update c.resultData x.co none }, [.answer x.co x.answer], [], ?_, rfl,
      .done, ?_⟩
    · simp only [Channel.step, Cluster.resume, hok, hhas, hanswer, Option.bind_eq_bind,
        Option.bind_some, Option.map_some]
    · exact ⟨fun _ _ => rfl, fun _ h => Function.update_of_ne h _ _,
        fun _ h => Function.update_of_ne h _ _⟩
  | done => cases hl

omit [DecidableEq Co] in
theorem Exchange.Ready.ends {l : List (Event Co)} (h : x.Ready c l out) (hl : l = []) :
    out = [] := by
  cases h with
  | start => cases hl
  | waiting | collecting =>
    exact absurd hl (List.append_ne_nil_of_right_ne_nil _ (List.cons_ne_nil _ _))
  | woken => cases hl
  | done => rfl

theorem exists_packresponse {session : UInt32} {ok : Bool} (msg : List UInt8) :
    ∃ ps, packresponse session ok msg = some ps ∧ ∀ p ∈ ps, Framed p := by
  by_cases hlarge : ok = true ∧ MULTI_PART < msg.length
  · obtain ⟨rfl, hlarge⟩ := hlarge
    obtain ⟨p, ps, hps, hframed, -⟩ := @packresponse_large msg session hlarge
    exact ⟨p :: ps, hps, hframed⟩
  · obtain ⟨p, hp, hframed, -⟩ := @packresponse_one msg session ok fun hok =>
      Nat.le_of_not_lt fun hlt => hlarge ⟨hok, hlt⟩
    exact ⟨[p], hp, List.forall_mem_singleton.mpr hframed⟩

/-- Every interleaving of the packets of responses brings each coroutine its own response once.
Requests wait in coroutines of their own. -/
theorem cluster_responses (xs : List (Exchange Co))
    (hvalid : ∀ x ∈ xs, x.ok = true → x.msg.length < 2 ^ 31)
    (hsessions : (xs.map (·.session)).Nodup) (hcos : (xs.map (·.co)).Nodup) :
    ∃ packets : Fin xs.length → List (List UInt8),
      (∀ i, packresponse (xs.get i).session (xs.get i).ok (xs.get i).msg = some (packets i) ∧
        ∀ p ∈ packets i, Framed p) ∧
      ∀ events, Interleaving (fun i => (xs.get i).events (packets i)) events →
        ∃ c out, feed Channel.step Channel.init events = some (c, out) ∧
          Interleaving (fun i => (xs.get i).outputs) out := by
  choose packets hpackets using fun i : Fin xs.length =>
    @exists_packresponse (xs.get i).session (xs.get i).ok (xs.get i).msg
  refine ⟨packets, hpackets, fun events hevents => ?_⟩
  have hstep : ∀ i c e es out, (xs.get i).Ready c (e :: es) out →
      Advances Channel.step (fun i => (xs.get i).Ready) i c e es out := by
    intro i c e es out h
    obtain ⟨c', now, later, hstep, hout, hready, hsame⟩ :=
      h.advance (hvalid _ (List.get_mem xs i)) rfl
    refine ⟨c', now, later, hstep, hout, hready, fun j hj es' out' hother => ?_⟩
    apply hother.other hsame
    · exact fun heq => hj (eq_of_nodup_map hsessions heq)
    · exact fun heq => hj (eq_of_nodup_map hcos heq)
  obtain ⟨c, out, hfeed, hinter, -⟩ := hevents.feed Channel.step (fun i => (xs.get i).Ready)
    Channel.init (fun i => (xs.get i).outputs) (fun i => .start (hpackets i).1 rfl)
    (fun _ _ _ h => h.ends rfl) hstep
  exact ⟨c, out, hfeed, hinter⟩

/-- A response and an error. -/
theorem cluster_responses_two :
    ∃ packets : Fin 2 → List (List UInt8), ∀ events,
      Interleaving (fun i : Fin 2 =>
        (([⟨1, 0, true, [7]⟩, ⟨2, 1, false, [8]⟩] : List (Exchange Nat)).get i).events (packets i))
        events →
      ∃ c out, feed Channel.step Channel.init events = some (c, out) ∧
        Interleaving (fun i : Fin 2 =>
          (([⟨1, 0, true, [7]⟩, ⟨2, 1, false, [8]⟩] : List (Exchange Nat)).get i).outputs) out := by
  obtain ⟨packets, -, h⟩ := cluster_responses
    ([⟨1, 0, true, [7]⟩, ⟨2, 1, false, [8]⟩] : List (Exchange Nat)) (by decide) (by decide)
      (by decide)
  exact ⟨packets, h⟩

end XsServer.Cluster
