import XsServer.Multicast.Agree
import Mathlib.Data.List.Count

/-! Runs of the daemons, and the delivery of one message when nothing else is in flight: the owner
sends it to the nodes that it knows, and these are the ones with subscribers. -/

namespace XsServer.Multicast

open Lib

variable {ι σ μ : Type} [DecidableEq ι] [DecidableEq σ]

abbrev Log (ι σ μ : Type) := List (Event ι σ μ × List (Report ι σ μ))

variable {o i : ι} {s t : State ι σ μ} {ls : Log ι σ μ} {m : μ}

theorem next_reports (hs : Sound o s) {e : Event ι σ μ} (henabled : s.Enabled e) :
    ∀ rep ∈ (s.next o e).2, ∃ j x m, rep = .delivered j x m := by
  intro rep hrep
  cases e with
  | receive x =>
    obtain ⟨p, _, heq⟩ := hs.packed.receive_eq henabled
    rw [State.next, heq] at hrep
    exact ⟨_, _, _, List.mem_singleton.mp hrep⟩
  | owner i =>
    rw [State.next] at hrep
    cases hup : s.up i with
    | nil | cons u us => rw [hup] at hrep; cases hrep
  | node i =>
    rw [State.next] at hrep
    cases hdown : s.down i with
    | nil | cons d ds => rw [hdown] at hrep; cases hrep
  | SUB i x | USUB i x | DEL i | PUB i m => cases hrep

theorem run_inv (hrun : Run (Guarded (fun s l => s.Clear o l.1) (Step o)) (.init o) ls s) :
    Sound o s ∧ ((s.node o).channel ≠ none → Alive o s) ∧
      ∀ l ∈ ls, ∀ rep ∈ l.2, ∃ j x m, rep = .delivered j x m := by
  induction hrun with
  | nil =>
    refine ⟨.init, fun _ => ⟨fun i hi => ?_, fun _ _ hd => by cases hd⟩, fun _ hl => by cases hl⟩
    rw [Member, State.joining]
    change false = ((if i = o then some (⟨[], 0⟩ : Group σ) else none).isSome || _)
    rw [if_neg hi]
    rfl
  | @snoc t u es l hrun hstep ih =>
    obtain ⟨hsound, halive, hreports⟩ := ih
    obtain ⟨hclear, henabled, hnext⟩ := hstep
    obtain ⟨e, out⟩ := l
    have hout : out = (t.next o e).2 := (congrArg Prod.snd hnext).symm
    have hu : u = (t.next o e).1 := (congrArg Prod.fst hnext).symm
    rw [hu]
    refine ⟨hsound.next henabled, fun hchannel => ?_, fun l hl => ?_⟩
    · refine (halive fun hnone => ?_).next hsound henabled hclear hchannel
      exact hchannel (stays_deleted hsound hnone henabled)
    · rcases List.mem_append.mp hl with hl | hl
      · exact hreports l hl
      · rw [List.mem_singleton.mp hl]
        dsimp only
        rw [hout]
        exact next_reports hsound henabled

/-! ### One message -/

/-- The daemons and the services go on with what is in flight. -/
def Event.inner : Event ι σ μ → Bool
  | .owner _ => true
  | .node _ => true
  | .receive _ => true
  | _ => false

def Report.deliveredTo (j : ι) (x : σ) : Report ι σ μ → Option μ
  | .delivered j' x' m => if j' = j ∧ x' = x then some m else none
  | _ => none

def deliveredTo (j : ι) (x : σ) (ls : Log ι σ μ) : List μ :=
  (ls.flatMap (·.2)).filterMap (Report.deliveredTo j x)

def State.mailed (s : State ι σ μ) (j : ι) (x : σ) : Nat :=
  (s.mail.map fun y => (y.1, y.2.1)).count (j, x)

/-- The message is on its way from the owner: a service of node `j` that is subscribed has got it,
or has it in its mail, or node `j` gets it. -/
structure Spread (s : State ι σ μ) (m : μ) (ls : Log ι σ μ) (t : State ι σ μ) : Prop where
  node : t.node = s.node
  up : ∀ k, t.up k = []
  down : ∀ k, t.down k = [] ∨ t.down k = [.PUB m]
  data : ∀ p pack, t.packs p = some pack → pack.data = m
  got : ∀ j x, ∀ y ∈ deliveredTo j x ls, y = m
  total : ∀ j x, (deliveredTo j x ls).length + t.mailed j x +
    (t.down j).length * (s.node j).keys.count x = (s.node j).keys.count x

theorem mailed_publish (t : State ι σ μ) (k : ι) (m : μ) (j : ι) (x : σ) :
    (publish t k m).mailed j x = t.mailed j x + if j = k then (t.node k).keys.count x else 0 := by
  rw [State.mailed, State.mailed, publish]
  dsimp only
  rw [List.map_append, List.count_append, List.map_map]
  congr 1
  change ((t.node k).keys.map fun y => (k, y)).count (j, x) = _
  by_cases hj : j = k
  · subst hj
    rw [if_pos rfl]
    exact List.count_map_of_injective _ _ (fun a b h => (Prod.mk.inj h).2) x
  · rw [if_neg hj]
    refine List.count_eq_zero_of_not_mem fun hmem => ?_
    obtain ⟨y, _, hy⟩ := List.mem_map.mp hmem
    exact hj (Prod.mk.inj hy).1.symm

omit [DecidableEq ι] [DecidableEq σ] in
theorem packs_publish {t : State ι σ μ} {k : ι}
    (hgroup : ∀ g, (t.node k).channel = some g → g.Sound)
    (hdata : ∀ p pack, t.packs p = some pack → pack.data = m) :
    ∀ p pack, (publish t k m).packs p = some pack → pack.data = m := by
  intro p pack hp
  have hpacks : (publish t k m).packs p = if p = t.fresh then packOf (t.node k) m else t.packs p :=
    Function.update_apply ..
  rw [hpacks] at hp
  split at hp
  · obtain ⟨hempty, hbound⟩ := packOf_reference hgroup m
    by_cases hnil : (t.node k).keys = []
    · rw [hempty hnil] at hp
      cases hp
    · rw [hbound hnil] at hp
      cases hp
      rfl
  · exact hdata p pack hp

theorem deliveredTo_silent (j : ι) (x : σ) (e : Event ι σ μ) :
    deliveredTo j x (ls ++ [(e, [])]) = deliveredTo j x ls := by
  rw [deliveredTo, List.flatMap_append, List.flatMap_singleton, List.append_nil]
  rfl

theorem Spread.node_step (h : Spread s m ls t) (ht : Sound o t) {k : ι} {d : Down σ μ}
    {ds : List (Down σ μ)} (hdown : t.down k = d :: ds) (e : Event ι σ μ) :
    Spread s m (ls ++ [(e, [])]) ({ t with down := t.down.receive k }.takeDown k d) := by
  have hd : d = .PUB m ∧ ds = [] := by
    rcases h.down k with hnil | hone
    · rw [hnil] at hdown
      cases hdown
    · rw [hone] at hdown
      cases hdown
      exact ⟨rfl, rfl⟩
  obtain ⟨rfl, rfl⟩ := hd
  have hk : k ≠ o := by
    rintro rfl
    rw [ht.down] at hdown
    cases hdown
  have hremote : ∀ j, (t.node k).remote j = false := fun j => by
    rw [Node.remote, ht.remotes k hk]
  have hdowns : ∀ j, ({ t with down := t.down.receive k }.takeDown k (.PUB m)).down j =
      if j = k then [] else t.down j := by
    intro j
    change t.down.receive k j ++ (if (t.node k).remote j then _ else _) = _
    rw [hremote]
    by_cases hj : j = k
    · subst hj
      rw [Channels.receive_self hdown, if_pos rfl]
      rfl
    · rw [Channels.receive_of_ne hj, if_neg hj]
      exact List.append_nil _
  refine ⟨h.node, h.up, fun j => ?_, packs_publish (ht.groups k) h.data, fun j x y hy => ?_,
    fun j x => ?_⟩
  · rw [hdowns]
    split
    · exact .inl rfl
    · exact h.down j
  · rw [deliveredTo_silent] at hy
    exact h.got j x y hy
  · have htotal := h.total j x
    have hmailed : ({ t with down := t.down.receive k }.takeDown k (.PUB m)).mailed j x =
        t.mailed j x + if j = k then (t.node k).keys.count x else 0 :=
      mailed_publish { t with down := t.down.receive k } k m j x
    rw [deliveredTo_silent, hdowns, hmailed]
    split
    · rename_i hj
      subst hj
      have hlength : (t.down j).length = 1 := by rw [hdown]; rfl
      rw [hlength] at htotal
      rw [h.node, List.length_nil]
      omega
    · exact htotal

theorem Spread.receive_step (h : Spread s m ls t) (ht : Sound o t) {y : ι × σ × Nat}
    (hy : y ∈ t.mail) :
    Spread s m (ls ++ [(.receive y, (t.receive y).2)]) (t.receive y).1 := by
  obtain ⟨p, hp, heq⟩ := ht.packed.receive_eq hy
  have hdata := h.data _ p hp
  have hdelivered : ∀ j x, deliveredTo j x (ls ++ [(.receive y, (t.receive y).2)]) =
      deliveredTo j x ls ++ if y.1 = j ∧ y.2.1 = x then [m] else [] := by
    intro j x
    rw [deliveredTo, List.flatMap_append, List.flatMap_singleton, List.filterMap_append, heq, hdata,
      deliveredTo]
    congr 1
    rw [List.filterMap_cons, Report.deliveredTo]
    split <;> split <;> simp_all
  have hmailed : ∀ j x, t.mailed j x =
      (t.receive y).1.mailed j x + if y.1 = j ∧ y.2.1 = x then 1 else 0 := by
    intro j x
    rw [State.mailed, State.mailed, heq, ((List.perm_cons_erase hy).map _).count_eq, List.map_cons,
      List.count_cons]
    congr 1
    by_cases hyx : y.1 = j ∧ y.2.1 = x
    · rw [if_pos hyx, if_pos (beq_iff_eq.mpr (Prod.ext hyx.1 hyx.2))]
    · rw [if_neg hyx, if_neg fun hb => hyx (Prod.mk.inj (beq_iff_eq.mp hb))]
  refine ⟨?_, ?_, ?_, ?_, fun j x z hz => ?_, fun j x => ?_⟩
  · rw [heq]
    exact h.node
  · rw [heq]
    exact h.up
  · rw [heq]
    exact h.down
  · rw [heq]
    intro q pack hq
    have hq' : (if q = y.2.2 then (closelocal p).1 else t.packs q) = some pack :=
      (Function.update_apply ..).symm.trans hq
    split at hq'
    · rw [closelocal] at hq'
      dsimp only at hq'
      split at hq'
      · cases hq'
      · cases hq'
        exact hdata
    · exact h.data q pack hq'
  · rw [hdelivered] at hz
    rcases List.mem_append.mp hz with hz | hz
    · exact h.got j x z hz
    · split at hz
      · exact List.mem_singleton.mp hz
      · cases hz
  · have htotal := h.total j x
    have hdown : (t.receive y).1.down = t.down := by rw [heq]
    rw [hmailed] at htotal
    rw [hdelivered, List.length_append, hdown]
    split at htotal
    · rename_i hyx
      rw [if_pos hyx, List.length_singleton]
      omega
    · rename_i hyx
      rw [if_neg hyx, List.length_nil]
      exact htotal

theorem Spread.publish (hs : Sound o s) (halive : Alive o s) (hquiet : s.Quiet) {s' : State ι σ μ}
    (hnode : s'.node = s.node) (hup : ∀ k, s'.up k = []) (hdown : s'.down = s.down)
    (hmail : s'.mail = s.mail) (hpacks : s'.packs = s.packs)
    (hempty : ∀ j x, deliveredTo j x ls = []) : Spread s m ls (publish s' o m) := by
  have hdead : ∀ p, s'.packs p = none := by
    intro p
    rw [hpacks]
    cases hp : s.packs p with
    | none => rfl
    | some pack =>
      have hpos := (hs.packed.live p pack hp).2
      rw [State.count, hquiet.2.2] at hpos
      cases hpos
  have hdowns : ∀ k, (Multicast.publish s' o m).down k =
      if (s.node o).remote k then [.PUB m] else [] := by
    intro k
    change s'.down k ++ (if (s'.node o).remote k then _ else _) = _
    rw [hdown, hquiet.2.1 k, hnode]
    rfl
  refine ⟨hnode, hup, fun k => ?_, packs_publish (by rw [hnode]; exact hs.groups o) ?_,
    fun j x y hy => ?_, fun j x => ?_⟩
  · rw [hdowns]
    split
    · exact .inr rfl
    · exact .inl rfl
  · intro p pack hp
    rw [hdead] at hp
    cases hp
  · rw [hempty] at hy
    cases hy
  · rw [hempty, mailed_publish, hdowns, State.mailed, hmail, hquiet.2.2, hnode]
    by_cases hj : j = o
    · subst hj
      rw [if_pos rfl, hs.remote]
      simp
    · have hmember := halive.member j hj
      rw [Member, State.joining, hquiet.1 j, hquiet.2.1 j] at hmember
      have hremote : (s.node o).remote j = (s.node j).channel.isSome := by
        simpa [eventually] using hmember
      rw [if_neg hj, hremote, Node.keys]
      cases (s.node j).channel <;> simp

theorem publish_run (hs : Sound o s) (halive : Alive o s) (hquiet : s.Quiet)
    (hrun : Run (Guarded (fun _ l => l.1.inner = true) (Step o)) (s.next o (.PUB i m)).1 ls t) :
    Sound o t ∧ (Spread s m ls t ∨
      ls = [] ∧ t = { s with up := s.up.send (.single i [.PUB m]) } ∧ i ≠ o) := by
  have hstart : Sound o (s.next o (.PUB i m)).1 := hs.next trivial
  induction hrun with
  | nil =>
    refine ⟨hstart, ?_⟩
    rw [State.next]
    split
    · rename_i hi
      exact .inr ⟨rfl, rfl, hi⟩
    · rename_i hi
      obtain rfl := not_ne_iff.mp hi
      exact .inl (.publish hs halive hquiet rfl hquiet.1 rfl rfl rfl fun _ _ => rfl)
  | @snoc u v es l hrun hstep ih =>
    obtain ⟨hu, hphase⟩ := ih
    obtain ⟨hinner, henabled, hnext⟩ := hstep
    obtain ⟨e, out⟩ := l
    have hout : out = (u.next o e).2 := (congrArg Prod.snd hnext).symm
    have hv : v = (u.next o e).1 := (congrArg Prod.fst hnext).symm
    rw [hv, hout]
    refine ⟨hu.next henabled, .inl ?_⟩
    rcases hphase with hspread | ⟨rfl, rfl, hi⟩
    · cases e with
      | owner k => exact absurd (hspread.up k) henabled
      | node k =>
        rw [State.next]
        cases hdown : u.down k with
        | nil => exact absurd hdown henabled
        | cons d ds => exact hspread.node_step hu hdown _
      | receive y => exact hspread.receive_step hu henabled
      | SUB _ _ | USUB _ _ | DEL _ | PUB _ _ => cases hinner
    · have hup : ∀ k, s.up.send (.single i [.PUB m]) k = Channels.single i [.PUB m] k := by
        intro k
        change s.up k ++ _ = _
        rw [hquiet.1 k]
        rfl
      cases e with
      | owner k =>
        have hk : k = i := by
          by_contra hne
          refine henabled ?_
          change s.up.send (.single i [.PUB m]) k = []
          rw [hup, Channels.single_of_ne hne]
        subst hk
        have hself : s.up.send (.single k [.PUB m]) k = [.PUB m] := by
          rw [hup, Channels.single_self]
        rw [State.next]
        dsimp only
        rw [hself]
        refine Spread.publish hs halive hquiet rfl (fun j => ?_) rfl rfl rfl fun _ _ => ?_
        · change (s.up.send (.single k [.PUB m])).receive k j = []
          by_cases hj : j = k
          · subst hj
            exact Channels.receive_self hself
          · rw [Channels.receive_of_ne hj, hup, Channels.single_of_ne hj]
        · exact deliveredTo_silent ..
      | node k => exact absurd (hquiet.2.1 k) henabled
      | receive y =>
        have hy : y ∈ s.mail := henabled
        rw [hquiet.2.2] at hy
        cases hy
      | SUB _ _ | USUB _ _ | DEL _ | PUB _ _ => cases hinner

theorem multicast_agree
    (hrun : Run (Guarded (fun s l => s.Clear o l.1) (Step o)) (.init o) ls s) :
    (∀ i g, (s.node i).channel = some g → g.keys.Nodup ∧ g.n = g.keys.length) ∧
    (∀ l ∈ ls, ∀ rep ∈ l.2, ∃ j x m, rep = .delivered j x m) ∧
    (s.Quiet → ∀ p, s.packs p = none) ∧
    (s.Quiet → (s.node o).channel ≠ none →
      (∀ i, i ≠ o → ((s.node o).remote i = true ↔ (s.node i).keys ≠ [])) ∧
      ∀ i m ls' t,
        Run (Guarded (fun _ l => l.1.inner = true) (Step o)) (s.next o (.PUB i m)).1 ls' t →
        t.Quiet → ∀ j x, deliveredTo j x ls' = if x ∈ (s.node j).keys then [m] else []) := by
  obtain ⟨hs, halive, hreports⟩ := run_inv hrun
  refine ⟨hs.groups, hreports, fun hquiet p => ?_, fun hquiet hchannel => ⟨fun i hi => ?_,
    fun i m ls' t hrun' hquiet' j x => ?_⟩⟩
  · cases hp : s.packs p with
    | none => rfl
    | some pack =>
      have hpos := (hs.packed.live p pack hp).2
      rw [State.count, hquiet.2.2] at hpos
      cases hpos
  · have hmember := (halive hchannel).member i hi
    rw [Member, State.joining, hquiet.1 i, hquiet.2.1 i] at hmember
    have hremote : (s.node o).remote i = (s.node i).channel.isSome := by
      simpa [eventually] using hmember
    rw [hremote, Node.keys]
    cases hgroup : (s.node i).channel with
    | none => exact ⟨fun h => (by cases h), fun h => absurd rfl h⟩
    | some g => exact ⟨fun _ => hs.filled i g hi hgroup, fun _ => rfl⟩
  · obtain ⟨_, hspread | ⟨_, rfl, hi⟩⟩ := publish_run hs (halive hchannel) hquiet hrun'
    · have htotal := hspread.total j x
      rw [hquiet'.2.1 j, State.mailed, hquiet'.2.2] at htotal
      have hlength : (deliveredTo j x ls').length = (s.node j).keys.count x := by
        simpa using htotal
      have hnodup : (s.node j).keys.Nodup := by
        rw [Node.keys]
        cases hgroup : (s.node j).channel with
        | none => exact List.nodup_nil
        | some g => exact (hs.groups j g hgroup).1
      rw [List.eq_replicate_of_mem (hspread.got j x), hlength]
      split
      · rename_i hx
        rw [List.count_eq_one_of_mem hnodup hx]
        rfl
      · rename_i hx
        rw [List.count_eq_zero_of_not_mem hx]
        rfl
    · have hself : s.up.send (.single i [.PUB m]) i = [] := hquiet'.1 i
      have hmem : .PUB m ∈ s.up.send (.single i [.PUB m]) i :=
        Channels.mem_send.mpr (.inr (Channels.mem_single.mpr ⟨rfl, List.mem_singleton_self _⟩))
      rw [hself] at hmem
      cases hmem

theorem step_next (s : State ι σ μ) (e : Event ι σ μ) (h : s.Enabled e) :
    Step o s (e, (s.next o e).2) (s.next o e).1 := ⟨h, rfl⟩

instance (s : State ι σ μ) : (e : Event ι σ μ) → Decidable (s.Enabled e)
  | .USUB i source => decidable_of_iff (source ∈ (s.node i).keys) (by
      rw [State.Enabled, Node.keys]
      cases (s.node i).channel <;> simp)
  | .owner i => decidable_of_iff ((s.up i).isEmpty = false) (by
      rw [State.Enabled]
      cases s.up i <;> simp)
  | .node i => decidable_of_iff ((s.down i).isEmpty = false) (by
      rw [State.Enabled]
      cases s.down i <;> simp)
  | .receive x => inferInstanceAs (Decidable (x ∈ s.mail))
  | .SUB _ _ => .isTrue trivial
  | .DEL _ => .isTrue trivial
  | .PUB _ _ => .isTrue trivial

instance (s : State ι σ μ) : (e : Event ι σ μ) → Decidable (s.Clear o e)
  | .USUB i source => inferInstanceAs (Decidable
      (i = o ∨ (s.node i).keys ≠ [source] ∨ s.joining i = false))
  | .SUB _ _ => .isTrue trivial
  | .DEL _ => .isTrue trivial
  | .PUB _ _ => .isTrue trivial
  | .owner _ => .isTrue trivial
  | .node _ => .isTrue trivial
  | .receive _ => .isTrue trivial

/-- Service 5 of the owner and service 6 of another node subscribe. -/
def joined : List (Event Bool Nat Nat) := [.SUB true 5, .SUB false 6, .owner false, .node false]

/-- What the message 7 of the other node goes through. -/
def spread : List (Event Bool Nat Nat) :=
  [.owner false, .node false, .receive (true, 5, 0), .receive (false, 6, 1)]

abbrev joinedState : State Bool Nat Nat := after (State.next true) (.init true) joined

theorem multicast_agree_joined :
    (∀ i, i ≠ true → ((joinedState.node true).remote i = true ↔ (joinedState.node i).keys ≠ [])) ∧
      ∃ ls, deliveredTo true 5 ls = [7] ∧ deliveredTo false 6 ls = [7] ∧
        deliveredTo false 5 (ls : Log Bool Nat Nat) = [] := by
  have halong : Along (State.next true) (fun s e => s.Enabled e ∧ s.Clear true e) (.init true)
      joined := by decide
  have hrun : Run (Guarded (fun s l => s.Clear true l.1) (Step true)) (.init true) _ joinedState :=
    halong.run fun s e h => .of_step (step_next s e h.1) h.2
  have hinner : Along (State.next true) (fun s e => s.Enabled e ∧ e.inner = true)
      (joinedState.next true (.PUB false 7)).1 spread := by decide
  have hrun' : Run (Guarded (fun _ l => l.1.inner = true) (Step true))
      (joinedState.next true (.PUB false 7)).1 _ _ :=
    hinner.run fun s e h => .of_step (step_next s e h.1) h.2
  have hquiet : joinedState.Quiet := ⟨by decide, by decide, by decide⟩
  obtain ⟨_, _, _, hagree⟩ := multicast_agree hrun
  obtain ⟨hremote, hpublish⟩ := hagree hquiet (by decide)
  have hdelivered := hpublish false 7 _ _ hrun' ⟨by decide, by decide, by decide⟩
  exact ⟨hremote, _, hdelivered true 5, hdelivered false 6, hdelivered false 5⟩

/-- Services 5 and 6 of one node subscribe, and 5 unsubscribes before the call for 6 has ended. -/
def crossed : List (Event Bool Nat Nat) :=
  [.SUB false 5, .SUB false 6, .owner false, .owner false, .node false, .USUB false 5, .node false,
    .owner false]

abbrev crossedState : State Bool Nat Nat := after (State.next true) (.init true) crossed

theorem subscriber_forgotten :
    (∃ ls, Run (Step true) (.init true) ls crossedState) ∧ crossedState.Quiet ∧
      (crossedState.node true).channel ≠ none ∧ (crossedState.node false).keys = [6] ∧
      (crossedState.node true).remote false = false ∧
      ∃ ls, Run (Step true) (crossedState.next true (.PUB true 7)).1 ls
        (crossedState.next true (.PUB true 7)).1 ∧
        (crossedState.next true (.PUB true 7)).1.Quiet ∧
        deliveredTo false 6 (ls : Log Bool Nat Nat) = [] := by
  have halong : Along (State.next true) State.Enabled (State.init true) crossed := by decide
  exact ⟨⟨_, halong.run step_next⟩, ⟨by decide, by decide, by decide⟩, by decide, by decide,
    by decide, [], .nil _, ⟨by decide, by decide, by decide⟩, rfl⟩

end XsServer.Multicast
