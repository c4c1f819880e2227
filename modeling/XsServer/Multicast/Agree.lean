import XsServer.Multicast.Daemon
import Mathlib.Data.List.Nodup

/-! What holds of the daemons in every run: the counts, the owner of a package, and, while no
service unsubscribes as the last one of its node during a call of `SUBR`, that the owner knows the
nodes with subscribers, up to the messages that are on their way. -/

namespace XsServer.Multicast

open Lib

variable {ι σ μ : Type} [DecidableEq ι] [DecidableEq σ]

/-! ### Every run -/

def State.count (s : State ι σ μ) (p : Nat) : Nat := (s.mail.map (·.2.2)).count p

/-- A package counts the messages that point to it, and it is freed when there are none. -/
structure Packed (s : State ι σ μ) : Prop where
  live : ∀ p pack, s.packs p = some pack → pack.reference = s.count p ∧ 0 < s.count p
  dead : ∀ p, s.packs p = none → s.count p = 0
  fresh : ∀ p, s.fresh ≤ p → s.packs p = none

def Group.Sound (g : Group σ) : Prop := g.keys.Nodup ∧ g.n = g.keys.length

structure Sound (o : ι) (s : State ι σ μ) : Prop where
  groups : ∀ i g, (s.node i).channel = some g → g.Sound
  filled : ∀ i g, i ≠ o → (s.node i).channel = some g → g.keys ≠ []
  remotes : ∀ i, i ≠ o → (s.node i).channel_remote = none
  up : s.up o = []
  down : s.down o = []
  remote : (s.node o).remote o = false
  packed : Packed s

variable {o i : ι} {s : State ι σ μ} {source : σ} {m : μ}

omit [DecidableEq σ] in
theorem set_node (s : State ι σ μ) (i : ι) (n : Node ι σ) (j : ι) :
    (s.set i n).node j = if j = i then n else s.node j :=
  Function.update_apply ..

omit [DecidableEq σ] in
theorem Sound.set {n : Node ι σ} (h : Sound o s) (hgroup : ∀ g, n.channel = some g → g.Sound)
    (hfilled : ∀ g, i ≠ o → n.channel = some g → g.keys ≠ [])
    (hremotes : i ≠ o → n.channel_remote = none) (hremote : i = o → n.remote o = false) :
    Sound o (s.set i n) where
  groups j g hg := by
    rw [set_node] at hg
    split at hg
    · exact hgroup g hg
    · exact h.groups j g hg
  filled j g hj hg := by
    rw [set_node] at hg
    split at hg
    · rename_i hji
      exact hfilled g (hji ▸ hj) hg
    · exact h.filled j g hj hg
  remotes j hj := by
    rw [set_node]
    split
    · rename_i hji
      exact hremotes (hji ▸ hj)
    · exact h.remotes j hj
  up := h.up
  down := h.down
  remote := by
    rw [set_node]
    split
    · rename_i hoi
      exact hremote hoi.symm
    · exact h.remote
  packed := ⟨h.packed.live, h.packed.dead, h.packed.fresh⟩

omit [DecidableEq σ] in
theorem Sound.sendUp (h : Sound o s) (hi : i ≠ o) (us : List (Up σ μ)) :
    Sound o { s with up := s.up.send (.single i us) } where
  groups := h.groups
  filled := h.filled
  remotes := h.remotes
  up := by
    change s.up o ++ Channels.single i us o = []
    rw [Channels.single_of_ne (Ne.symm hi), h.up]
    rfl
  down := h.down
  remote := h.remote
  packed := ⟨h.packed.live, h.packed.dead, h.packed.fresh⟩

omit [DecidableEq ι] [DecidableEq σ] in
theorem Sound.sendDown {out : Channels ι (Down σ μ)} (h : Sound o s) (hout : out o = []) :
    Sound o { s with down := s.down.send out } where
  groups := h.groups
  filled := h.filled
  remotes := h.remotes
  up := h.up
  down := by
    change s.down o ++ out o = []
    rw [hout, h.down]
    rfl
  remote := h.remote
  packed := ⟨h.packed.live, h.packed.dead, h.packed.fresh⟩

omit [DecidableEq σ] in
theorem Sound.receiveUp (h : Sound o s) (i : ι) : Sound o { s with up := s.up.receive i } :=
  { h with
    up := List.eq_nil_iff_forall_not_mem.mpr fun u hu => by
      have hmem : u ∈ s.up o := Channels.mem_of_mem_receive hu
      rw [h.up] at hmem
      cases hmem
    packed := ⟨h.packed.live, h.packed.dead, h.packed.fresh⟩ }

omit [DecidableEq σ] in
theorem Sound.receiveDown (h : Sound o s) (i : ι) : Sound o { s with down := s.down.receive i } :=
  { h with
    down := List.eq_nil_iff_forall_not_mem.mpr fun d hd => by
      have hmem : d ∈ s.down o := Channels.mem_of_mem_receive hd
      rw [h.down] at hmem
      cases hmem
    packed := ⟨h.packed.live, h.packed.dead, h.packed.fresh⟩ }

theorem Group.Sound.subscribe {group : Option (Group σ)} (h : ∀ g, group = some g → g.Sound)
    {g' : Group σ} (hg' : subscribe group source = some g') : g'.Sound := by
  obtain ⟨g, hg, rfl⟩ := Option.map_eq_some_iff.mp hg'
  obtain ⟨hnodup, hn⟩ := h g hg
  split
  · exact ⟨hnodup, hn⟩
  · rename_i hnew
    refine ⟨hnodup.append (List.nodup_singleton _) fun x hx hx' => ?_, ?_⟩
    · rw [List.mem_singleton.mp hx'] at hx
      exact hnew hx
    · rw [List.length_append, hn]
      rfl

theorem subscribe_filled {group : Option (Group σ)} {g' : Group σ}
    (hg' : subscribe group source = some g') : g'.keys ≠ [] := by
  obtain ⟨g, _, rfl⟩ := Option.map_eq_some_iff.mp hg'
  split
  · rename_i hmem
    exact List.ne_nil_of_mem hmem
  · exact List.concat_ne_nil _ _

theorem Sound.subscribe (h : Sound o s) (group : Option (Group σ))
    (hgroup : ∀ g, group = some g → g.Sound) :
    Sound o (s.set i { s.node i with channel := subscribe group source }) :=
  h.set (fun _ hg => Group.Sound.subscribe hgroup hg) (fun _ _ hg => subscribe_filled hg)
    (h.remotes i) fun hi => by
      have hremote := h.remote
      rw [← hi] at hremote ⊢
      exact hremote

omit [DecidableEq ι] [DecidableEq σ] in
theorem count_append {s : State ι σ μ} {keys : List σ} {p q : Nat} :
    ((s.mail ++ keys.map (i, ·, q)).map (·.2.2)).count p =
      s.count p + if p = q then keys.length else 0 := by
  rw [List.map_append, List.count_append, List.map_map, State.count]
  congr 1
  change (keys.map fun _ => q).count p = _
  rw [List.map_const', List.count_replicate]
  by_cases h : p = q
  · rw [if_pos h, if_pos (beq_iff_eq.mpr h.symm)]
  · rw [if_neg h, if_neg fun heq => h (beq_iff_eq.mp heq).symm]

omit [DecidableEq ι] [DecidableEq σ] in
theorem packOf_reference {n : Node ι σ} (h : ∀ g, n.channel = some g → g.Sound) (m : μ) :
    (n.keys = [] → packOf n m = none) ∧
      (n.keys ≠ [] → packOf n m = some ⟨n.keys.length, m⟩) := by
  rw [Node.keys, packOf]
  cases hchannel : n.channel with
  | none => exact ⟨fun _ => rfl, fun hne => absurd rfl hne⟩
  | some g =>
    obtain ⟨keys, ref⟩ := g
    have hn : ref = keys.length := (h _ hchannel).2
    cases keys with
    | nil => exact ⟨fun _ => rfl, fun hne => absurd rfl hne⟩
    | cons k keys => exact ⟨fun hnil => (by cases hnil), fun _ => by rw [hn]; rfl⟩

omit [DecidableEq ι] [DecidableEq σ] in
theorem Packed.publish (h : Packed s) (hgroup : ∀ g, (s.node i).channel = some g → g.Sound) :
    Packed (publish s i m) := by
  have hcount : ∀ p, (Multicast.publish s i m).count p =
      s.count p + if p = s.fresh then (s.node i).keys.length else 0 := fun _ => count_append
  have hpacks : ∀ p, (Multicast.publish s i m).packs p =
      if p = s.fresh then packOf (s.node i) m else s.packs p := fun _ => Function.update_apply ..
  have hfresh : s.count s.fresh = 0 := h.dead _ (h.fresh _ (Nat.le_refl _))
  obtain ⟨hempty, hbound⟩ := packOf_reference hgroup m
  refine ⟨fun p pack hp => ?_, fun p hp => ?_, fun p hp => ?_⟩
  · rw [hpacks] at hp
    rw [hcount]
    split at hp
    · rename_i heq
      rw [if_pos heq, heq, hfresh, Nat.zero_add]
      by_cases hnil : (s.node i).keys = []
      · rw [hempty hnil] at hp
        cases hp
      · rw [hbound hnil] at hp
        cases hp
        exact ⟨rfl, List.length_pos_iff.mpr hnil⟩
    · rename_i heq
      rw [if_neg heq]
      exact h.live p pack hp
  · rw [hpacks] at hp
    rw [hcount]
    split at hp
    · rename_i heq
      rw [if_pos heq, heq, hfresh, Nat.zero_add]
      by_cases hnil : (s.node i).keys = []
      · rw [hnil]
        rfl
      · rw [hbound hnil] at hp
        cases hp
    · rename_i heq
      rw [if_neg heq]
      exact h.dead p hp
  · have hlt : s.fresh < p := hp
    rw [hpacks, if_neg (Nat.ne_of_gt hlt)]
    exact h.fresh p (Nat.le_of_lt hlt)

omit [DecidableEq σ] in
theorem Sound.publish (h : Sound o s) : Sound o (publish s i m) where
  groups := h.groups
  filled := h.filled
  remotes := h.remotes
  up := h.up
  down := by
    change s.down o ++ (if (s.node i).remote o then _ else _) = []
    have hremote : (s.node i).remote o = false := by
      by_cases hi : i = o
      · rw [hi]
        exact h.remote
      · rw [Node.remote, h.remotes i hi]
    rw [hremote, h.down]
    rfl
  remote := h.remote
  packed := h.packed.publish (h.groups i)

theorem count_receive {x : ι × σ × Nat} (hx : x ∈ s.mail) (p : Nat) :
    s.count p = ((s.mail.erase x).map (·.2.2)).count p + if p = x.2.2 then 1 else 0 := by
  rw [State.count, ((List.perm_cons_erase hx).map _).count_eq, List.map_cons, List.count_cons]
  by_cases h : p = x.2.2
  · rw [if_pos h, if_pos (beq_iff_eq.mpr h.symm)]
  · rw [if_neg h, if_neg fun heq => h (beq_iff_eq.mp heq).symm]

theorem Packed.receive_eq (h : Packed s) {x : ι × σ × Nat} (hx : x ∈ s.mail) :
    ∃ p, s.packs x.2.2 = some p ∧ s.receive x =
      ({ s with
          mail := s.mail.erase x
          packs := Function.update s.packs x.2.2 (closelocal p).1 },
        [.delivered x.1 x.2.1 p.data]) := by
  have hcount := count_receive hx x.2.2
  rw [if_pos rfl] at hcount
  cases hp : s.packs x.2.2 with
  | none =>
    rw [h.dead _ hp] at hcount
    cases hcount
  | some p =>
    obtain ⟨href, hpos⟩ := h.live _ p hp
    refine ⟨p, rfl, ?_⟩
    have hvalid : (closelocal p).2 = false := by
      rw [closelocal]
      exact decide_eq_false (by omega)
    rw [State.receive]
    dsimp only
    rw [hp]
    dsimp only
    rw [hvalid]
    rfl

theorem Packed.receive (h : Packed s) {x : ι × σ × Nat} (hx : x ∈ s.mail) :
    Packed (s.receive x).1 := by
  obtain ⟨p, hp, heq⟩ := h.receive_eq hx
  rw [heq]
  have hcount := count_receive hx
  obtain ⟨href, hpos⟩ := h.live _ p hp
  have hpacks : ∀ q, Function.update s.packs x.2.2 (closelocal p).1 q =
      if q = x.2.2 then (closelocal p).1 else s.packs q := fun _ => Function.update_apply ..
  have hleft : ((s.mail.erase x).map (·.2.2)).count x.2.2 + 1 = s.count x.2.2 := by
    rw [hcount, if_pos rfl]
  have hother : ∀ q, q ≠ x.2.2 → ((s.mail.erase x).map (·.2.2)).count q = s.count q := by
    intro q hq
    rw [hcount, if_neg hq]
    rfl
  refine ⟨fun q pack hq => ?_, fun q hq => ?_, fun q hq => ?_⟩
  · have hq' := (hpacks q).symm.trans hq
    change _ = (((s.mail.erase x).map (·.2.2)).count q : Int) ∧
      0 < ((s.mail.erase x).map (·.2.2)).count q
    split at hq'
    · rename_i heq
      rw [heq]
      rw [closelocal] at hq'
      dsimp only at hq'
      split at hq'
      · cases hq'
      · cases hq'
        have hreference : p.reference - 1 =
            ((s.mail.erase x).map (·.2.2)).count x.2.2 := by omega
        exact ⟨hreference, by omega⟩
    · rename_i heq
      rw [hother q heq]
      exact h.live q pack hq'
  · have hq' := (hpacks q).symm.trans hq
    change ((s.mail.erase x).map (·.2.2)).count q = 0
    split at hq'
    · rename_i heq
      rw [heq]
      rw [closelocal] at hq'
      dsimp only at hq'
      split at hq'
      · omega
      · cases hq'
    · rename_i heq
      rw [hother q heq]
      exact h.dead q hq'
  · have hnone := h.fresh q hq
    refine (hpacks q).trans ?_
    split
    · rename_i heq
      rw [heq, hp] at hnone
      cases hnone
    · exact hnone

/-! ### Commands -/

theorem Sound.SUB (h : Sound o s) : Sound o (SUB o s i source) := by
  rw [Multicast.SUB]
  split
  · rename_i hcall
    exact h.sendUp hcall.1 _
  · exact h.subscribe _ fun g hg => h.groups i g hg

theorem Sound.subscribed (h : Sound o s) (gone : Bool) : Sound o (subscribed s i source gone) := by
  rw [Multicast.subscribed]
  cases gone with
  | true => exact h
  | false =>
    refine h.subscribe _ fun g hg => ?_
    cases hchannel : (s.node i).channel with
    | none =>
      rw [hchannel] at hg
      cases hg
      exact ⟨List.nodup_nil, rfl⟩
    | some g' =>
      rw [hchannel] at hg
      cases hg
      exact h.groups i _ hchannel

theorem Sound.USUB (h : Sound o s) : Sound o (USUB o s i source) := by
  rw [Multicast.USUB]
  cases hchannel : (s.node i).channel with
  | none => exact h
  | some g =>
    dsimp only
    split
    · rename_i hmem
      obtain ⟨hnodup, hn⟩ := h.groups i g hchannel
      have hlength := List.length_erase_of_mem hmem
      have hpos : 0 < g.keys.length := List.length_pos_of_mem hmem
      have hremote : i = o → ∀ channel : Option (Group σ),
          Node.remote { s.node i with channel } o = false := by
        rintro rfl channel
        exact h.remote
      split
      · rename_i hlast
        exact (h.set (n := { s.node i with channel := none }) (fun _ hg => by cases hg)
          (fun _ _ hg => by cases hg) (h.remotes i) fun hi => hremote hi _).sendUp hlast.2 _
      · rename_i hlast
        refine h.set (fun g' hg => ?_) (fun g' hi hg => ?_) (h.remotes i) fun hi => hremote hi _
        · cases hg
          refine ⟨hnodup.erase _, ?_⟩
          change g.n - 1 = ((g.keys.erase source).length : Int)
          rw [hlength]
          omega
        · cases hg
          intro hnil
          have hnil' : g.keys.erase source = [] := hnil
          rw [hnil', List.length_nil] at hlength
          have hzero : g.n - 1 = 0 := by omega
          exact hlast ⟨hzero, hi⟩
    · exact h

omit [DecidableEq σ] in
theorem Sound.delete (h : Sound o s) : Sound o (delete o s) := by
  have hset : Sound o (s.set o ⟨none, none⟩) :=
    h.set (fun _ hg => by cases hg) (fun _ _ hg => by cases hg) (fun _ => rfl) fun _ => rfl
  refine hset.sendDown ?_
  rw [h.remote]
  rfl

omit [DecidableEq σ] in
theorem Sound.takeUp (h : Sound o s) (hi : i ≠ o) (u : Up σ μ) : Sound o (s.takeUp o i u) := by
  have hout : ∀ d : Down σ μ, Channels.single i [d] o = [] := fun _ =>
    Channels.single_of_ne (Ne.symm hi)
  cases u with
  | SUBR source =>
    rw [State.takeUp]
    cases hchannel : (s.node o).channel with
    | none => exact h.sendDown (hout _)
    | some g =>
      refine Sound.sendDown (h.set (fun g' hg => ?_) (fun g' ho => absurd rfl ho)
        (fun ho => absurd rfl ho) fun _ => ?_) (hout _)
      · exact h.groups o g' (hchannel.trans hg)
      · have hremote := h.remote
        rw [Node.remote] at hremote
        rw [Node.remote]
        dsimp only
        rw [Function.update_of_ne (Ne.symm hi)]
        cases hr : (s.node o).channel_remote with
        | none => rfl
        | some remote =>
          rw [hr] at hremote
          exact hremote
  | USUBR =>
    refine h.set (fun g hg => h.groups o g hg) (fun _ ho => absurd rfl ho)
      (fun ho => absurd rfl ho) fun _ => ?_
    have hremote := h.remote
    rw [Node.remote] at hremote
    rw [Node.remote]
    dsimp only
    cases hr : (s.node o).channel_remote with
    | none => rfl
    | some remote =>
      rw [hr] at hremote
      exact (Function.update_of_ne (Ne.symm hi) ..).trans hremote
  | DEL => exact h.delete
  | PUB m => exact h.publish

theorem Sound.takeDown (h : Sound o s) (hi : i ≠ o) (d : Down σ μ) : Sound o (s.takeDown i d) := by
  cases d with
  | response source gone => exact h.subscribed gone
  | DELR =>
    exact h.set (fun _ hg => by cases hg) (fun _ _ hg => by cases hg) (h.remotes i)
      fun ho => absurd ho hi
  | PUB m => exact h.publish

theorem Sound.next (h : Sound o s) {e : Event ι σ μ} (henabled : s.Enabled e) :
    Sound o (s.next o e).1 := by
  cases e with
  | SUB i source => exact h.SUB
  | USUB i source => exact h.USUB
  | DEL i =>
    rw [State.next]
    split
    · rename_i hi
      exact h.sendUp hi _
    · exact h.delete
  | PUB i m =>
    rw [State.next]
    split
    · rename_i hi
      exact h.sendUp hi _
    · exact h.publish
  | owner i =>
    rw [State.next]
    cases hup : s.up i with
    | nil => exact h
    | cons u us =>
      have hi : i ≠ o := by
        rintro rfl
        rw [h.up] at hup
        cases hup
      exact (h.receiveUp i).takeUp hi u
  | node i =>
    rw [State.next]
    cases hdown : s.down i with
    | nil => exact h
    | cons d ds =>
      have hi : i ≠ o := by
        rintro rfl
        rw [h.down] at hdown
        cases hdown
      exact (h.receiveDown i).takeDown hi d
  | receive x =>
    have hpacked := h.packed.receive henabled
    obtain ⟨p, _, heq⟩ := h.packed.receive_eq henabled
    rw [State.next]
    rw [heq] at hpacked ⊢
    exact ⟨h.groups, h.filled, h.remotes, h.up, h.down, h.remote, hpacked⟩

omit [DecidableEq σ] in
theorem Sound.init : Sound o (State.init o : State ι σ μ) where
  groups i g hg := by
    change (if i = o then some ⟨[], 0⟩ else none) = some g at hg
    split at hg
    · cases hg
      exact ⟨List.nodup_nil, rfl⟩
    · cases hg
  filled i g hi hg := by
    change (if i = o then some ⟨[], 0⟩ else none) = some g at hg
    rw [if_neg hi] at hg
    cases hg
  remotes _ _ := rfl
  up := rfl
  down := rfl
  remote := rfl
  packed := ⟨fun _ _ hp => (by cases hp), fun _ _ => rfl, fun _ _ => rfl⟩

/-! ### What the owner knows -/

def Up.joins : Up σ μ → Bool
  | .SUBR _ => true
  | _ => false

def Down.joins : Down σ μ → Bool
  | .response _ gone => !gone
  | _ => false

/-- A service of the node waits for the end of a `SUBR`. -/
def State.joining (s : State ι σ μ) (i : ι) : Bool :=
  (s.up i).any Up.joins || (s.down i).any Down.joins

/-- Whether the owner knows a node after the messages that are on their way to it. -/
def eventually : Bool → List (Up σ μ) → Bool
  | b, [] => b
  | _, .SUBR _ :: us => eventually true us
  | _, .USUBR :: us => eventually false us
  | b, .DEL :: us => eventually b us
  | b, .PUB _ :: us => eventually b us

omit [DecidableEq σ] in
theorem eventually_append (b : Bool) (us vs : List (Up σ μ)) :
    eventually b (us ++ vs) = eventually (eventually b us) vs := by
  induction us generalizing b with
  | nil => rfl
  | cons u us ih => cases u <;> exact ih _

/-- The owner knows, or will know, the nodes with subscribers and those that get one. -/
def Member (o : ι) (s : State ι σ μ) (i : ι) : Prop :=
  eventually ((s.node o).remote i) (s.up i) = ((s.node i).channel.isSome || s.joining i)

/-- The channel is not deleted, and no node has heard that it is. -/
structure Alive (o : ι) (s : State ι σ μ) : Prop where
  member : ∀ i, i ≠ o → Member o s i
  clean : ∀ i, ∀ d ∈ s.down i, d ≠ .DELR ∧ ∀ y, d ≠ .response y true

/-- The last service of a node does not unsubscribe while another one waits for a `SUBR`. -/
def State.Clear (o : ι) (s : State ι σ μ) : Event ι σ μ → Prop
  | .USUB i source => i = o ∨ (s.node i).keys ≠ [source] ∨ s.joining i = false
  | _ => True

variable {t : State ι σ μ} {j : ι}

omit [DecidableEq ι] [DecidableEq σ] in
theorem Member.congr (h : Member o s j) (hremote : (t.node o).remote j = (s.node o).remote j)
    (hup : t.up j = s.up j) (hdown : (t.down j).any Down.joins = (s.down j).any Down.joins)
    (hchannel : (t.node j).channel = (s.node j).channel) : Member o t j := by
  rw [Member, hremote, hup, hchannel, State.joining, hup, hdown]
  exact h

omit [DecidableEq ι] [DecidableEq σ] in
theorem Alive.publish (h : Alive o s) : Alive o (publish s i m) where
  member j hj := (h.member j hj).congr rfl rfl (by
    change ((s.down j) ++ if (s.node i).remote j then _ else _).any _ = _
    rw [List.any_append]
    split <;> simp [Down.joins]) rfl
  clean j d hd := by
    rcases List.mem_append.mp hd with hd | hd
    · exact h.clean j d hd
    · dsimp only at hd
      split at hd
      · rw [List.mem_singleton.mp hd]
        exact ⟨fun h => (by cases h), fun _ h => by cases h⟩
      · cases hd

omit [DecidableEq σ] in
theorem Alive.sendUp (h : Alive o s) (i : ι) (u : Up σ μ) (hu : ∀ b, eventually b [u] = b)
    (hjoins : u.joins = false) : Alive o { s with up := s.up.send (.single i [u]) } where
  member j hj := by
    have hmember := h.member j hj
    rw [Member, State.joining] at hmember ⊢
    change eventually _ (s.up j ++ Channels.single i [u] j) = (_ || ((s.up j ++ _).any _ || _))
    by_cases hji : j = i
    · subst hji
      rw [Channels.single_self, eventually_append, hu, List.any_append]
      simpa [hjoins] using hmember
    · rw [Channels.single_of_ne hji, List.append_nil]
      exact hmember
  clean := h.clean

omit [DecidableEq σ] in
theorem Alive.set_owner (h : Alive o s) {n : Node ι σ}
    (hremote : n.channel_remote = (s.node o).channel_remote) : Alive o (s.set o n) where
  member j hj := by
    refine (h.member j hj).congr ?_ rfl rfl ?_
    · rw [set_node, if_pos rfl, Node.remote, hremote]
      rfl
    · rw [set_node, if_neg hj]
  clean := h.clean

omit [DecidableEq σ] in
theorem Alive.set_other (h : Alive o s) (hi : i ≠ o) {n : Node ι σ}
    (hchannel : n.channel.isSome = (s.node i).channel.isSome) : Alive o (s.set i n) where
  member j hj := by
    have hmember := h.member j hj
    rw [Member, set_node, set_node, if_neg (Ne.symm hi)]
    split
    · rename_i hji
      subst hji
      rw [hchannel]
      exact hmember
    · exact hmember
  clean := h.clean

theorem Alive.SUB (h : Alive o s) : Alive o (SUB o s i source) := by
  rw [Multicast.SUB]
  split
  · rename_i hcall
    refine ⟨fun j hj => ?_, h.clean⟩
    have hmember := h.member j hj
    rw [Member, State.joining] at hmember ⊢
    change eventually _ (s.up j ++ Channels.single i _ j) = (_ || ((s.up j ++ _).any _ || _))
    by_cases hji : j = i
    · subst hji
      rw [Channels.single_self, eventually_append, List.any_append]
      simp [eventually, Up.joins]
    · rw [Channels.single_of_ne hji, List.append_nil]
      exact hmember
  · rename_i hcall
    by_cases hi : i = o
    · subst hi
      exact h.set_owner rfl
    · refine h.set_other hi ?_
      exact Option.isSome_map

theorem Alive.USUB (h : Alive o s) (hs : Sound o s) (hclear : s.Clear o (.USUB i source)) :
    Alive o (USUB o s i source) := by
  rw [Multicast.USUB]
  cases hchannel : (s.node i).channel with
  | none => exact h
  | some g =>
    dsimp only
    split
    · rename_i hmem
      split
      · rename_i hlast
        obtain ⟨hzero, hi⟩ := hlast
        have hkeys : (s.node i).keys = [source] := by
          have hn := (hs.groups i g hchannel).2
          have hlength : g.keys.length = 1 := by omega
          obtain ⟨x, hx⟩ := List.length_eq_one_iff.mp hlength
          rw [hx] at hmem
          rw [Node.keys, hchannel, List.mem_singleton.mp hmem]
          exact hx
        have hjoining := (hclear.resolve_left hi).resolve_left fun hne => hne hkeys
        refine ⟨fun j hj => ?_, h.clean⟩
        have hmember := h.member j hj
        rw [Member, State.joining] at hmember ⊢
        change eventually ((Function.update s.node i _ o).remote j)
          (s.up j ++ Channels.single i _ j) = (_ || ((s.up j ++ _).any _ || _))
        rw [Function.update_of_ne (Ne.symm hi)]
        by_cases hji : j = i
        · subst hji
          rw [State.joining, Bool.or_eq_false_iff] at hjoining
          rw [set_node, if_pos rfl, Channels.single_self, eventually_append, List.any_append,
            hjoining.1]
          change eventually _ [.USUBR] =
            (false || (false || [Up.USUBR].any Up.joins || (s.down j).any _))
          rw [hjoining.2]
          rfl
        · rw [set_node, if_neg hji, Channels.single_of_ne hji, List.append_nil]
          exact hmember
      · by_cases hi : i = o
        · subst hi
          exact h.set_owner rfl
        · exact h.set_other hi (by rw [hchannel]; rfl)
    · exact h

omit [DecidableEq σ] in
theorem Alive.receiveUp (h : Alive o s) {u : Up σ μ} {us : List (Up σ μ)} (hup : s.up i = u :: us)
    (hu : ∀ b, eventually b (u :: us) = eventually b us) (hjoins : u.joins = false) :
    Alive o { s with up := s.up.receive i } where
  member j hj := by
    have hmember := h.member j hj
    rw [Member, State.joining] at hmember ⊢
    change eventually _ (s.up.receive i j) = (_ || ((s.up.receive i j).any _ || _))
    by_cases hji : j = i
    · subst hji
      rw [hup, hu, List.any_cons, hjoins, Bool.false_or] at hmember
      rw [Channels.receive_self hup]
      exact hmember
    · rw [Channels.receive_of_ne hji]
      exact hmember
  clean := h.clean

omit [DecidableEq σ] in
theorem Alive.enlist (h : Alive o s) (hi : i ≠ o) {u : Up σ μ} {us : List (Up σ μ)}
    (hup : s.up i = u :: us) {n : Node ι σ} {b : Bool} (hu : ∀ b', eventually b' (u :: us) =
      eventually b us) (hremote : ∀ j, n.remote j = if j = i then b else (s.node o).remote j)
    (ds : List (Down σ μ)) (hjoins : ds.any Down.joins = u.joins)
    (hclean : ∀ d ∈ ds, d ≠ .DELR ∧ ∀ y, d ≠ .response y true) :
    Alive o { State.set { s with up := s.up.receive i } o n with
      down := s.down.send (.single i ds) } where
  member j hj := by
    have hmember := h.member j hj
    rw [Member, State.joining] at hmember ⊢
    change eventually ((Function.update s.node o n o).remote j) (s.up.receive i j) =
      ((Function.update s.node o n j).channel.isSome ||
        ((s.up.receive i j).any _ || ((s.down j ++ Channels.single i ds j).any _)))
    rw [Function.update_self, Function.update_of_ne hj, hremote]
    by_cases hji : j = i
    · subst hji
      rw [hup, hu, List.any_cons] at hmember
      rw [if_pos rfl, Channels.receive_self hup, Channels.single_self, List.any_append, hjoins,
        hmember]
      cases (s.node j).channel.isSome <;> cases us.any Up.joins <;> cases u.joins <;>
        cases (s.down j).any Down.joins <;> rfl
    · rw [if_neg hji, Channels.receive_of_ne hji, Channels.single_of_ne hji, List.append_nil]
      exact hmember
  clean j d hd := by
    rcases Channels.mem_send.mp hd with hd | hd
    · exact h.clean j d hd
    · exact hclean d (Channels.mem_single.mp hd).2

omit [DecidableEq σ] in
theorem remote_update (n : Node ι σ) (channel : Option (Group σ)) (i j : ι) :
    Node.remote (σ := σ) ⟨channel,
      some (Function.update (n.channel_remote.getD fun _ => false) i true)⟩ j =
        if j = i then true else n.remote j := by
  rw [Node.remote, Node.remote]
  dsimp only
  rw [Function.update_apply]
  cases n.channel_remote <;> rfl

omit [DecidableEq σ] in
theorem remote_remove (n : Node ι σ) (i j : ι) :
    Node.remote { n with channel_remote := n.channel_remote.map (Function.update · i false) } j =
      if j = i then false else n.remote j := by
  rw [Node.remote, Node.remote]
  cases n.channel_remote with
  | none => exact (ite_self _).symm
  | some remote => exact Function.update_apply ..

omit [DecidableEq σ] in
theorem Alive.takeUp (h : Alive o s) (hi : i ≠ o) {u : Up σ μ} {us : List (Up σ μ)}
    (hup : s.up i = u :: us)
    (halive : (({ s with up := s.up.receive i }.takeUp o i u).node o).channel ≠ none) :
    Alive o ({ s with up := s.up.receive i }.takeUp o i u) := by
  cases u with
  | SUBR source =>
    rw [State.takeUp] at halive ⊢
    dsimp only at halive ⊢
    cases hchannel : (s.node o).channel with
    | none =>
      rw [hchannel] at halive
      exact absurd hchannel halive
    | some g =>
      refine h.enlist hi hup (fun _ => rfl) (fun j => remote_update ..) [_] rfl fun d hd => ?_
      rw [List.mem_singleton.mp hd]
      exact ⟨fun h => (by cases h), fun _ h => by cases h⟩
  | USUBR =>
    have henlist := h.enlist hi hup (fun _ => rfl) (fun j => remote_remove (s.node o) i j) [] rfl
      fun _ hd => by cases hd
    rw [Channels.send_single_nil] at henlist
    exact henlist
  | DEL =>
    refine absurd ?_ halive
    rw [State.takeUp, delete]
    dsimp only
    rw [set_node, if_pos rfl]
  | PUB m => exact (h.receiveUp hup (fun _ => rfl) rfl).publish

theorem Alive.takeDown (h : Alive o s) (hi : i ≠ o) {d : Down σ μ}
    {ds : List (Down σ μ)} (hdown : s.down i = d :: ds) :
    Alive o ({ s with down := s.down.receive i }.takeDown i d) := by
  have hmem : d ∈ s.down i := by
    rw [hdown]
    exact List.mem_cons_self ..
  obtain ⟨hdelr, hgone⟩ := h.clean i d hmem
  have hclean : ∀ j, ∀ d ∈ s.down.receive i j, d ≠ .DELR ∧ ∀ y, d ≠ .response y true :=
    fun j d hd => h.clean j d (Channels.mem_of_mem_receive hd)
  cases d with
  | response source gone =>
    cases gone with
    | true => exact absurd rfl (hgone source)
    | false =>
      refine ⟨fun j hj => ?_, hclean⟩
      have hmember := h.member j hj
      rw [Member, State.joining] at hmember ⊢
      change eventually ((Function.update s.node i _ o).remote j) (s.up j) =
        ((Function.update s.node i _ j).channel.isSome ||
          ((s.up j).any _ || (s.down.receive i j).any _))
      rw [Function.update_of_ne (Ne.symm hi), hmember]
      by_cases hji : j = i
      · subst hji
        rw [hdown, Function.update_self]
        simp [Down.joins, subscribe]
      · rw [Function.update_of_ne hji, Channels.receive_of_ne hji]
  | DELR => exact absurd rfl hdelr
  | PUB m =>
    refine Alive.publish ⟨fun j hj => ?_, hclean⟩
    refine (h.member j hj).congr rfl rfl ?_ rfl
    change (s.down.receive i j).any _ = _
    by_cases hji : j = i
    · subst hji
      rw [Channels.receive_self hdown, hdown]
      rfl
    · rw [Channels.receive_of_ne hji]

theorem Alive.next (h : Alive o s) (hs : Sound o s) {e : Event ι σ μ} (henabled : s.Enabled e)
    (hclear : s.Clear o e) (halive : ((s.next o e).1.node o).channel ≠ none) :
    Alive o (s.next o e).1 := by
  cases e with
  | SUB i source => exact h.SUB
  | USUB i source => exact h.USUB hs hclear
  | DEL i =>
    rw [State.next] at halive ⊢
    split at halive
    · rename_i hi
      rw [if_pos hi]
      exact h.sendUp i _ (fun _ => rfl) rfl
    · refine absurd ?_ halive
      rw [delete]
      dsimp only
      rw [set_node, if_pos rfl]
  | PUB i m =>
    rw [State.next]
    split
    · exact h.sendUp i _ (fun _ => rfl) rfl
    · exact h.publish
  | owner i =>
    rw [State.next] at halive ⊢
    cases hup : s.up i with
    | nil => exact h
    | cons u us =>
      rw [hup] at halive
      have hi : i ≠ o := by
        rintro rfl
        rw [hs.up] at hup
        cases hup
      exact h.takeUp hi hup halive
  | node i =>
    rw [State.next]
    cases hdown : s.down i with
    | nil => exact h
    | cons d ds =>
      have hi : i ≠ o := by
        rintro rfl
        rw [hs.down] at hdown
        cases hdown
      exact h.takeDown hi hdown
  | receive x =>
    obtain ⟨p, _, heq⟩ := hs.packed.receive_eq henabled
    rw [State.next, heq]
    exact ⟨fun j hj => h.member j hj, h.clean⟩

theorem stays_deleted (hs : Sound o s) (hnone : (s.node o).channel = none) {e : Event ι σ μ}
    (henabled : s.Enabled e) : ((s.next o e).1.node o).channel = none := by
  have hset : ∀ (s' : State ι σ μ) (i : ι) (n : Node ι σ), (s'.node o).channel = none →
      (i = o → n.channel = none) → ((s'.set i n).node o).channel = none := by
    intro s' i n hs' hn
    rw [set_node]
    split
    · rename_i hoi
      exact hn hoi.symm
    · exact hs'
  have hdelete : ∀ s' : State ι σ μ, ((delete o s').node o).channel = none := by
    intro s'
    rw [delete]
    dsimp only
    rw [set_node, if_pos rfl]
  cases e with
  | SUB i source =>
    rw [State.next, SUB]
    split
    · exact hnone
    · refine hset s i _ hnone fun hi => ?_
      rw [hi, hnone]
      rfl
  | USUB i source =>
    obtain ⟨g, hg, hmem⟩ := henabled
    have hi : i ≠ o := by
      rintro rfl
      rw [hnone] at hg
      cases hg
    rw [State.next, USUB, hg]
    dsimp only
    rw [if_pos hmem]
    split
    · exact hset s i _ hnone fun _ => rfl
    · exact hset s i _ hnone fun ho => absurd ho hi
  | DEL i =>
    rw [State.next]
    split
    · exact hnone
    · exact hdelete s
  | PUB i m =>
    rw [State.next]
    split <;> exact hnone
  | owner i =>
    rw [State.next]
    cases s.up i with
    | nil => exact hnone
    | cons u us =>
      cases u with
      | SUBR source =>
        dsimp only [State.takeUp]
        rw [hnone]
        exact hnone
      | USUBR => exact hset _ o _ hnone fun _ => hnone
      | DEL => exact hdelete _
      | PUB m => exact hnone
  | node i =>
    rw [State.next]
    cases hdown : s.down i with
    | nil => exact hnone
    | cons d ds =>
      have hi : i ≠ o := by
        rintro rfl
        rw [hs.down] at hdown
        cases hdown
      cases d with
      | response source gone =>
        cases gone with
        | true => exact hnone
        | false => exact hset _ i _ hnone fun ho => absurd ho hi
      | DELR => exact hset _ i _ hnone fun _ => rfl
      | PUB m => exact hnone
  | receive x =>
    obtain ⟨p, _, heq⟩ := hs.packed.receive_eq henabled
    rw [State.next, heq]
    exact hnone

end XsServer.Multicast
