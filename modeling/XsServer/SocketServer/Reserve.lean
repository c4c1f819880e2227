import XsServer.SocketServer.Socket

/-! Calls of `reserve_id` from many threads.  They count `alloc_id` up, and take its sign away where
it has passed 2^31 - 1, in separate atomic steps. -/

namespace XsServer.SocketServer

open Lib

/-- An `int`. -/
abbrev Id := BitVec 32

/-- `HASH_ID` -/
def Id.hash (id : Id) : Nat := hashId id.toNat

/-- `struct socket`, as far as `reserve_id` writes it; there is no id before the first call. -/
structure Entry where
  type : SocketType
  id : Option Id
  protocol : Protocol
  udpconnecting : Nat
  fd : Int

/-- Where a call of `reserve_id` is: before it counts up, before it takes the sign away, before it
reads the type of the slot, before it swaps it, before it writes the slot, or at its end. -/
inductive Reserving
  | inc (i : Nat)
  | and (i : Nat)
  | probe (i : Nat) (id : Id)
  | cas (i : Nat) (id : Id)
  | write (id : Id)
  | done (r : Option Id)

/-- `struct socket_server`, and the calls of the threads. -/
structure SocketPool (τ : Type*) where
  allocId : Id
  slot : Nat → Entry
  call : τ → Option Reserving

variable {τ : Type*}

/-- The pool after `socket_server_create`. -/
def SocketPool.Start (w : SocketPool τ) : Prop :=
  w.allocId = 0 ∧ (∀ j, (w.slot j).type = .invalid ∧ (w.slot j).id = none) ∧ ∀ t, w.call t = none

def SocketPool.setSlot (w : SocketPool τ) (j : Nat) (s : Entry) : SocketPool τ :=
  { w with slot := Function.update w.slot j s }

section Steps

variable [DecidableEq τ]

def SocketPool.goto (w : SocketPool τ) (t : τ) (c : Reserving) : SocketPool τ :=
  { w with call := Function.update w.call t (some c) }

def SocketPool.reserveStep (w : SocketPool τ) (t : τ) : Reserving → Option (SocketPool τ)
  | .inc i =>
    if i < MAX_SOCKET then
      let id := w.allocId + 1
      some { w.goto t (if id.toInt < 0 then .and i else .probe i id) with allocId := id }
    else some (w.goto t (.done none))
  | .and i =>
    let id := w.allocId &&& 0x7fffffff
    some { w.goto t (.probe i id) with allocId := id }
  | .probe i id =>
    some (w.goto t (if (w.slot id.hash).type = .invalid then .cas i id else .inc (i + 1)))
  | .cas i id =>
    let s := w.slot id.hash
    if s.type = .invalid then
      some ((w.goto t (.write id)).setSlot id.hash { s with type := .reserve })
    else some (w.goto t (.inc i))
  | .write id =>
    let s := w.slot id.hash
    let s := { s with id := some id, protocol := .unknown, udpconnecting := 0, fd := -1 }
    some ((w.goto t (.done (some id))).setSlot id.hash s)
  | .done _ => none

/-- What can happen: a call starts, takes a step or returns, `new_fd` sets up a slot or fails, and a
slot changes its type or becomes free. -/
inductive PoolEvent (τ : Type*)
  | call (t : τ)
  | step (t : τ)
  | leave (t : τ)
  | newFd (id : Id) (fd : Int) (protocol : Protocol) (added : Bool)
  | change (j : Nat) (type : SocketType)

inductive SocketPool.Step : SocketPool τ → PoolEvent τ → SocketPool τ → Prop
  | call {w : SocketPool τ} {t : τ} : w.call t = none → Step w (.call t) (w.goto t (.inc 0))
  | step {w w' : SocketPool τ} {t : τ} {c : Reserving} : w.call t = some c →
      w.reserveStep t c = some w' → Step w (.step t) w'
  | leave {w : SocketPool τ} {t : τ} {r : Option Id} : w.call t = some (.done r) →
      Step w (.leave t) { w with call := Function.update w.call t none }
  | newFd {w : SocketPool τ} {id : Id} {fd : Int} {protocol : Protocol} {added : Bool} :
      (w.slot id.hash).type = .reserve →
      Step w (.newFd id fd protocol added)
        (w.setSlot id.hash
          (if added then { w.slot id.hash with id := some id, fd := fd, protocol := protocol }
          else { w.slot id.hash with type := .invalid }))
  | change {w : SocketPool τ} {j : Nat} {type : SocketType} :
      Step w (.change j type) (w.setSlot j { w.slot j with type := type })

end Steps

/-- The call has got a slot for its id, and returns it. -/
def SocketPool.Won (w : SocketPool τ) (t : τ) (id : Id) : Prop :=
  w.call t = some (.write id) ∨ w.call t = some (.done (some id))

/-- A call that has not returned has got the slot. -/
def SocketPool.Held (w : SocketPool τ) (j : Nat) : Prop := ∃ t id, w.Won t id ∧ id.hash = j

/-- The slot of a call that has not returned is left alone. -/
def PoolEvent.Tidy (w : SocketPool τ) : PoolEvent τ → Prop
  | .newFd id _ _ _ => ¬w.Held id.hash
  | .change j _ => ¬w.Held j
  | _ => True

/-- Slot 0 is not free when a call swaps its type for the id 0. -/
def PoolEvent.Positive (w : SocketPool τ) : PoolEvent τ → Prop
  | .step t => ∀ i, w.call t = some (.cas i 0) → (w.slot 0).type ≠ .invalid
  | _ => True

def PoolEvent.Ok (w : SocketPool τ) (e : PoolEvent τ) : Prop := e.Tidy w ∧ e.Positive w

structure SocketPool.Handles (w : SocketPool τ) : Prop where
  pos : ∀ t id, w.Won t id → 0 < id.toInt
  sits : ∀ t id, w.call t = some (.done (some id)) →
    (w.slot id.hash).id = some id ∧ (w.slot id.hash).type = .reserve
  differs : ∀ t id, w.call t = some (.done (some id)) →
    (∀ j, j ≠ id.hash → (w.slot j).type ≠ .invalid → (w.slot j).id ≠ some id) ∧
      ∀ t' id', w.Won t' id' → t' ≠ t → id' ≠ id

structure SocketPool.Inv (w : SocketPool τ) : Prop where
  hash : ∀ j id, (w.slot j).id = some id → id.hash = j
  probe : ∀ t i id, w.call t = some (.probe i id) ∨ w.call t = some (.cas i id) →
    id.toNat < 2 ^ 31
  won : ∀ t id, w.Won t id → id.toNat < 2 ^ 31 ∧ id ≠ 0 ∧ (w.slot id.hash).type = .reserve
  alone : ∀ t t' id id', w.Won t id → w.Won t' id' → id.hash = id'.hash → t = t'
  done : ∀ t id, w.call t = some (.done (some id)) → (w.slot id.hash).id = some id

variable {w w' : SocketPool τ} {t : τ} {e : PoolEvent τ}

theorem SocketPool.Start.inv (h : w.Start) : w.Inv := by
  obtain ⟨-, hslot, hcall⟩ := h
  have hwon : ∀ t id, ¬w.Won t id := by
    rintro t id (hwon | hwon) <;> rw [hcall] at hwon <;> cases hwon
  refine ⟨fun j id hid => ?_, fun t i id hid => ?_, fun t id hid => absurd hid (hwon t id),
    fun t t' id id' hid => absurd hid (hwon t id), fun t id hid => absurd (.inr hid) (hwon t id)⟩
  · rw [(hslot j).2] at hid
    cases hid
  · rw [hcall] at hid
    obtain hid | hid := hid <;> cases hid

variable {id : Id}

theorem SocketPool.won_congr (h : w'.call t = w.call t) : w'.Won t id ↔ w.Won t id := by
  unfold Won
  rw [h]

theorem toInt_pos_of (hlt : id.toNat < 2 ^ 31) (hne : id ≠ 0) : 0 < id.toInt := by
  have hnat : id.toNat ≠ 0 := fun h => hne (BitVec.eq_of_toNat_eq h)
  rw [BitVec.toInt_eq_toNat_of_lt (by omega)]
  omega

theorem SocketPool.Inv.handles (h : w.Inv) : w.Handles where
  pos t id hwon := by
    obtain ⟨hlt, hne, -⟩ := h.won t id hwon
    exact toInt_pos_of hlt hne
  sits t id hdone := ⟨h.done t id hdone, (h.won t id (.inr hdone)).2.2⟩
  differs t id hdone := by
    refine ⟨fun j hj _ hid => hj (h.hash j id hid).symm, ?_⟩
    rintro t' id' hwon hne rfl
    exact hne (h.alone t' t id' id' hwon (.inr hdone) rfl)

theorem SocketPool.Inv.setSlot (h : w.Inv) {j : Nat} {s : Entry} (hfree : ¬w.Held j)
    (hid : ∀ id, s.id = some id → id.hash = j) : (w.setSlot j s).Inv := by
  have hother : ∀ {j'}, j' ≠ j → (w.setSlot j s).slot j' = w.slot j' := fun hne =>
    Function.update_of_ne hne ..
  have hne : ∀ {t id}, w.Won t id → id.hash ≠ j := fun hw heq => hfree ⟨_, _, hw, heq⟩
  constructor
  · intro j' id hj'
    by_cases heq : j' = j
    · subst heq
      rw [show (w.setSlot j' s).slot j' = s from Function.update_self ..] at hj'
      exact hid id hj'
    · rw [hother heq] at hj'
      exact h.hash j' id hj'
  · exact h.probe
  · intro t id hw
    rw [hother (hne hw)]
    exact h.won t id hw
  · exact h.alone
  · intro t id hdone
    rw [hother (hne (.inr hdone))]
    exact h.done t id hdone

variable [DecidableEq τ]

@[simp] theorem SocketPool.goto_self (w : SocketPool τ) (t : τ) (c : Reserving) :
    (w.goto t c).call t = some c := Function.update_self ..

theorem SocketPool.goto_of_ne (w : SocketPool τ) {t t' : τ} (h : t' ≠ t) (c : Reserving) :
    (w.goto t c).call t' = w.call t' := Function.update_of_ne h ..

theorem SocketPool.Inv.next (h : w.Inv) (t : τ) (hslot : w'.slot = w.slot)
    (hother : ∀ t', t' ≠ t → w'.call t' = w.call t') (hwon : ∀ id, ¬w'.Won t id)
    (hprobe : ∀ i id, w'.call t = some (.probe i id) ∨ w'.call t = some (.cas i id) →
      id.toNat < 2 ^ 31) : w'.Inv := by
  have hback : ∀ t' id, w'.Won t' id → w.Won t' id := by
    intro t' id hw
    have hne : t' ≠ t := by
      rintro rfl
      exact hwon id hw
    exact (won_congr (hother t' hne)).mp hw
  constructor
  · rw [hslot]
    exact h.hash
  · intro t' i id hp
    by_cases hne : t' = t
    · rw [hne] at hp
      exact hprobe i id hp
    · rw [hother t' hne] at hp
      exact h.probe t' i id hp
  · rw [hslot]
    exact fun t' id hw => h.won t' id (hback t' id hw)
  · exact fun t₁ t₂ id id' hw hw' => h.alone t₁ t₂ id id' (hback t₁ id hw) (hback t₂ id' hw')
  · intro t' id hdone
    have hne : t' ≠ t := by
      rintro rfl
      exact hwon id (.inr hdone)
    rw [hslot]
    rw [hother t' hne] at hdone
    exact h.done t' id hdone

theorem SocketPool.Inv.cas (h : w.Inv) {i : Nat} (hcall : w.call t = some (.cas i id))
    (hfree : (w.slot id.hash).type = .invalid) (hid : id ≠ 0) :
    ((w.goto t (.write id)).setSlot id.hash { w.slot id.hash with type := .reserve }).Inv := by
  set w' := (w.goto t (.write id)).setSlot id.hash { w.slot id.hash with type := .reserve }
  have hself : w'.slot id.hash = { w.slot id.hash with type := .reserve } :=
    Function.update_self ..
  have hother : ∀ {j}, j ≠ id.hash → w'.slot j = w.slot j := fun hne =>
    Function.update_of_ne hne ..
  have hnot : ∀ t' id', w.Won t' id' → id'.hash ≠ id.hash := by
    intro t' id' hw heq
    have htype := (h.won t' id' hw).2.2
    rw [heq, hfree] at htype
    cases htype
  have hcase : ∀ {t' id'}, w'.Won t' id' → t' = t ∧ id' = id ∨ t' ≠ t ∧ w.Won t' id' := by
    intro t' id' hw
    by_cases hne : t' = t
    · subst hne
      have hcall' : w'.call t' = some (.write id) := w.goto_self ..
      unfold Won at hw
      rw [hcall'] at hw
      obtain hw | hw := hw
      · cases hw
        exact .inl ⟨rfl, rfl⟩
      · cases hw
    · have hcall' : w'.call t' = w.call t' := w.goto_of_ne hne _
      exact .inr ⟨hne, (won_congr hcall').mp hw⟩
  constructor
  · intro j id' hj
    apply h.hash j id'
    by_cases heq : j = id.hash
    · rw [heq] at hj ⊢
      rwa [hself] at hj
    · rwa [hother heq] at hj
  · intro t' i' id' hp
    by_cases hne : t' = t
    · subst hne
      have hcall' : w'.call t' = some (.write id) := w.goto_self ..
      rw [hcall'] at hp
      obtain hp | hp := hp <;> cases hp
    · have hcall' : w'.call t' = w.call t' := w.goto_of_ne hne _
      rw [hcall'] at hp
      exact h.probe t' i' id' hp
  · intro t' id' hw
    obtain ⟨rfl, rfl⟩ | ⟨-, hw⟩ := hcase hw
    · rw [hself]
      exact ⟨h.probe _ _ _ (.inr hcall), hid, rfl⟩
    · rw [hother (hnot t' id' hw)]
      exact h.won t' id' hw
  · intro t₁ t₂ id₁ id₂ hw₁ hw₂ heq
    obtain ⟨rfl, rfl⟩ | ⟨-, hold₁⟩ := hcase hw₁
    · obtain ⟨rfl, -⟩ | ⟨-, hold₂⟩ := hcase hw₂
      · rfl
      · exact absurd heq.symm (hnot t₂ id₂ hold₂)
    · obtain ⟨rfl, rfl⟩ | ⟨-, hold₂⟩ := hcase hw₂
      · exact absurd heq (hnot t₁ id₁ hold₁)
      · exact h.alone t₁ t₂ id₁ id₂ hold₁ hold₂ heq
  · intro t' id' hdone
    obtain ⟨rfl, rfl⟩ | ⟨hne, hw⟩ := hcase (.inr hdone)
    · have hcall' : w'.call t' = some (.write id') := w.goto_self ..
      rw [hcall'] at hdone
      cases hdone
    · have hcall' : w'.call t' = w.call t' := w.goto_of_ne hne _
      rw [hcall'] at hdone
      rw [hother (hnot t' id' hw)]
      exact h.done t' id' hdone

theorem SocketPool.Inv.write (h : w.Inv) {id : Id} (hcall : w.call t = some (.write id))
    {s : Entry} (hid : s.id = some id) (htype : s.type = (w.slot id.hash).type) :
    ((w.goto t (.done (some id))).setSlot id.hash s).Inv := by
  set w' := (w.goto t (.done (some id))).setSlot id.hash s
  have hself : w'.slot id.hash = s := Function.update_self ..
  have hother : ∀ {j}, j ≠ id.hash → w'.slot j = w.slot j := fun hne =>
    Function.update_of_ne hne ..
  have hback : ∀ {t' id'}, w'.Won t' id' → w.Won t' id' := by
    intro t' id' hw
    by_cases hne : t' = t
    · subst hne
      have hcall' : w'.call t' = some (.done (some id)) := w.goto_self ..
      unfold Won at hw ⊢
      rw [hcall'] at hw
      obtain hw | hw := hw
      · cases hw
      · cases hw
        exact .inl hcall
    · have hcall' : w'.call t' = w.call t' := w.goto_of_ne hne _
      exact (won_congr hcall').mp hw
  constructor
  · intro j id' hj
    by_cases heq : j = id.hash
    · subst heq
      rw [hself, hid] at hj
      cases hj
      rfl
    · rw [hother heq] at hj
      exact h.hash j id' hj
  · intro t' i' id' hp
    have hne : t' ≠ t := by
      rintro rfl
      have hcall' : w'.call t' = some (.done (some id)) := w.goto_self ..
      rw [hcall'] at hp
      obtain hp | hp := hp <;> cases hp
    have hcall' : w'.call t' = w.call t' := w.goto_of_ne hne _
    rw [hcall'] at hp
    exact h.probe t' i' id' hp
  · intro t' id' hw
    obtain ⟨hlt, hne, hreserve⟩ := h.won t' id' (hback hw)
    refine ⟨hlt, hne, ?_⟩
    by_cases heq : id'.hash = id.hash
    · rw [heq] at hreserve ⊢
      rw [hself, htype, hreserve]
    · rwa [hother heq]
  · exact fun t₁ t₂ id₁ id₂ hw₁ hw₂ => h.alone t₁ t₂ id₁ id₂ (hback hw₁) (hback hw₂)
  · intro t' id' hdone
    by_cases hne : t' = t
    · subst hne
      have hcall' : w'.call t' = some (.done (some id)) := w.goto_self ..
      rw [hcall'] at hdone
      cases hdone
      rw [hself, hid]
    · have hcall' : w'.call t' = w.call t' := w.goto_of_ne hne _
      have hw := hback (.inr hdone)
      rw [hcall'] at hdone
      have hhash : id'.hash ≠ id.hash := fun heq =>
        hne (h.alone t' t id' id (.inr hdone) (.inl hcall) heq)
      rw [hother hhash]
      exact h.done t' id' hdone

theorem toNat_lt_of_nonneg (h : ¬id.toInt < 0) : id.toNat < 2 ^ 31 := by
  rw [BitVec.toInt_eq_toNat_cond] at h
  split at h
  · omega
  · have := id.isLt
    omega

theorem toNat_and (id : Id) : (id &&& 0x7fffffff).toNat = id.toNat % 2 ^ 31 := by
  rw [BitVec.toNat_and]
  exact Nat.and_two_pow_sub_one_eq_mod id.toNat 31

theorem hash_and (id : Id) : (id &&& 0x7fffffff).hash = id.hash := by
  unfold Id.hash hashId MAX_SOCKET
  rw [toNat_and]
  omega

theorem hash_succ (id : Id) : (id + 1).hash = (id.hash + 1) % MAX_SOCKET := by
  unfold Id.hash hashId MAX_SOCKET
  rw [BitVec.toNat_add]
  have hone : (1 : Id).toNat = 1 := rfl
  rw [hone]
  omega

variable {c : Reserving}

theorem SocketPool.Inv.goto (h : w.Inv) (hslot : w'.slot = w.slot)
    (hcall : w'.call = (w.goto t c).call) (hwrite : ∀ id, c ≠ .write id)
    (hdone : ∀ id, c ≠ .done (some id))
    (hprobe : ∀ i id, c = .probe i id ∨ c = .cas i id → id.toNat < 2 ^ 31) : w'.Inv := by
  have hself : w'.call t = some c := by rw [hcall, goto_self]
  refine h.next t hslot (fun t' hne => ?_) (fun id hw => ?_) fun i id hp => ?_
  · rw [hcall, w.goto_of_ne hne]
  · unfold Won at hw
    rw [hself] at hw
    obtain hw | hw := hw
    · exact hwrite id (Option.some.inj hw)
    · exact hdone id (Option.some.inj hw)
  · rw [hself] at hp
    exact hprobe i id (hp.imp Option.some.inj Option.some.inj)

theorem SocketPool.Inv.reserveStep (h : w.Inv) (hcall : w.call t = some c)
    (hstep : w.reserveStep t c = some w') (hok : (PoolEvent.step t).Positive w) : w'.Inv := by
  cases c with
  | inc i =>
    rw [SocketPool.reserveStep] at hstep
    split at hstep
    · obtain rfl := Option.some.inj hstep
      by_cases hneg : (w.allocId + 1).toInt < 0
      · rw [if_pos hneg]
        refine h.goto rfl rfl nofun nofun ?_
        rintro i id (hp | hp) <;> cases hp
      · rw [if_neg hneg]
        refine h.goto rfl rfl nofun nofun ?_
        rintro i id (hp | hp) <;> cases hp
        exact toNat_lt_of_nonneg hneg
    · obtain rfl := Option.some.inj hstep
      refine h.goto rfl rfl nofun nofun ?_
      rintro i id (hp | hp) <;> cases hp
  | and i =>
    obtain rfl := Option.some.inj hstep
    refine h.goto rfl rfl nofun nofun ?_
    rintro i id (hp | hp) <;> cases hp
    rw [toNat_and]
    exact Nat.mod_lt _ (by decide)
  | probe i id =>
    obtain rfl := Option.some.inj hstep
    split
    · refine h.goto rfl rfl nofun nofun ?_
      rintro i id (hp | hp) <;> cases hp
      exact h.probe _ _ _ (.inl hcall)
    · refine h.goto rfl rfl nofun nofun ?_
      rintro i id (hp | hp) <;> cases hp
  | cas i id =>
    rw [SocketPool.reserveStep] at hstep
    by_cases hfree : (w.slot id.hash).type = .invalid
    · rw [if_pos hfree] at hstep
      obtain rfl := Option.some.inj hstep
      refine h.cas hcall hfree ?_
      rintro rfl
      exact hok i hcall hfree
    · rw [if_neg hfree] at hstep
      obtain rfl := Option.some.inj hstep
      refine h.goto rfl rfl nofun nofun ?_
      rintro i id (hp | hp) <;> cases hp
  | write id =>
    obtain rfl := Option.some.inj hstep
    exact h.write hcall rfl rfl
  | done r => cases hstep

theorem SocketPool.Inv.step (h : w.Inv) (hstep : SocketPool.Step w e w') (hok : e.Ok w) :
    w'.Inv := by
  cases hstep with
  | call hcall =>
    refine h.goto rfl rfl nofun nofun ?_
    rintro i id (hp | hp) <;> cases hp
  | step hcall hstep => exact h.reserveStep hcall hstep hok.2
  | @leave t r hcall =>
    have hnone : ({ w with call := Function.update w.call t none } : SocketPool τ).call t = none :=
      Function.update_self ..
    refine h.next t rfl (fun t' hne => Function.update_of_ne hne ..) (fun id hw => ?_)
      fun i id hp => ?_
    · unfold Won at hw
      rw [hnone] at hw
      obtain hw | hw := hw <;> cases hw
    · rw [hnone] at hp
      obtain hp | hp := hp <;> cases hp
  | @newFd id fd protocol added htype =>
    refine h.setSlot hok.1 fun id' hid => ?_
    split at hid
    · cases hid
      rfl
    · exact h.hash _ id' hid
  | change => exact h.setSlot hok.1 fun id' hid => h.hash _ id' hid

/-! ### Calls that fail -/

def PoolEvent.Frees (j : Nat) : PoolEvent τ → Prop
  | .newFd id _ _ added => id.hash = j ∧ added = false
  | .change k type => k = j ∧ type = .invalid
  | _ => False

/-- No other call has part in the event. -/
def PoolEvent.Solo (t : τ) : PoolEvent τ → Prop
  | .call _ | .leave _ => False
  | .step t' => t' = t
  | _ => True

theorem SocketPool.Step.taken (hstep : SocketPool.Step w e w') {j : Nat}
    (h : (w.slot j).type ≠ .invalid) (hkeep : ¬e.Frees j) : (w'.slot j).type ≠ .invalid := by
  have hset : ∀ (w : SocketPool τ) (k : Nat) (s : Entry), (w.slot j).type ≠ .invalid →
      (k = j → s.type ≠ .invalid) → ((w.setSlot k s).slot j).type ≠ .invalid := by
    intro w k s h hs
    rw [SocketPool.setSlot]
    dsimp only
    by_cases hk : j = k
    · subst hk
      rw [Function.update_self]
      exact hs rfl
    · rwa [Function.update_of_ne hk]
  cases hstep with
  | call => exact h
  | @step _ _ c hcall hstep =>
    cases c with
    | inc i =>
      rw [SocketPool.reserveStep] at hstep
      split at hstep <;> obtain rfl := Option.some.inj hstep <;> exact h
    | and i | probe i id =>
      obtain rfl := Option.some.inj hstep
      exact h
    | cas i id =>
      rw [SocketPool.reserveStep] at hstep
      split at hstep
      · obtain rfl := Option.some.inj hstep
        exact hset _ _ _ h fun _ => nofun
      · obtain rfl := Option.some.inj hstep
        exact h
    | write id =>
      obtain rfl := Option.some.inj hstep
      refine hset _ _ _ h ?_
      rintro rfl
      exact h
    | done r => cases hstep
  | leave => exact h
  | @newFd id fd protocol added =>
    refine hset _ _ _ h ?_
    rintro rfl
    cases added with
    | true => exact h
    | false => exact absurd ⟨rfl, rfl⟩ hkeep
  | change =>
    refine hset _ _ _ h fun hk htype => ?_
    exact hkeep ⟨hk, htype⟩

/-- The call has counted from `a` on, and the slots that it passed were taken; where the predicate
holds, they still are. -/
def SocketPool.Passed (t : τ) (a : Nat) (kept : Nat → Prop) (w : SocketPool τ) : Prop :=
  ∃ n, (∀ k, 1 ≤ k → k ≤ n → kept ((a + k) % MAX_SOCKET) →
      (w.slot ((a + k) % MAX_SOCKET)).type ≠ .invalid) ∧
    ∃ c, w.call t = some c ∧
      match c with
      | .inc i => w.allocId.hash = (a + n) % MAX_SOCKET ∧ i ≤ n
      | .and i => w.allocId.hash = (a + (n + 1)) % MAX_SOCKET ∧ i ≤ n
      | .probe i id | .cas i id =>
        w.allocId.hash = (a + (n + 1)) % MAX_SOCKET ∧ id.hash = (a + (n + 1)) % MAX_SOCKET ∧ i ≤ n
      | .write _ | .done (some _) => True
      | .done none => MAX_SOCKET ≤ n

omit [DecidableEq τ] in
theorem passed_succ {a n : Nat} {kept : Nat → Prop} {w : SocketPool τ}
    (h : ∀ k, 1 ≤ k → k ≤ n → kept ((a + k) % MAX_SOCKET) →
      (w.slot ((a + k) % MAX_SOCKET)).type ≠ .invalid)
    (hnext : (w.slot ((a + (n + 1)) % MAX_SOCKET)).type ≠ .invalid) (k : Nat) (hk : 1 ≤ k)
    (hle : k ≤ n + 1) (hkept : kept ((a + k) % MAX_SOCKET)) :
    (w.slot ((a + k) % MAX_SOCKET)).type ≠ .invalid := by
  obtain hlt | rfl := Nat.lt_or_eq_of_le hle
  · exact h k hk (Nat.le_of_lt_succ hlt) hkept
  · exact hnext

theorem SocketPool.Passed.reserveStep {a : Nat} {kept : Nat → Prop} (h : w.Passed t a kept)
    (hcall : w.call t = some c) (hstep : w.reserveStep t c = some w')
    (htaken : ∀ j, kept j → (w.slot j).type ≠ .invalid → (w'.slot j).type ≠ .invalid) :
    w'.Passed t a kept := by
  obtain ⟨n, hseen, c', hcall', hc⟩ := h
  rw [hcall] at hcall'
  obtain rfl := Option.some.inj hcall'
  have hkeep : ∀ k, 1 ≤ k → k ≤ n → kept ((a + k) % MAX_SOCKET) →
      (w'.slot ((a + k) % MAX_SOCKET)).type ≠ .invalid := fun k hk hle hkept =>
    htaken _ hkept (hseen k hk hle hkept)
  cases c with
  | inc i =>
    obtain ⟨halloc, hi⟩ := hc
    have hnext : (w.allocId + 1).hash = (a + (n + 1)) % MAX_SOCKET := by
      rw [hash_succ, halloc, Nat.mod_add_mod, Nat.add_assoc]
    rw [SocketPool.reserveStep] at hstep
    split at hstep
    · obtain rfl := Option.some.inj hstep
      refine ⟨n, hkeep, _, goto_self .., ?_⟩
      by_cases hneg : (w.allocId + 1).toInt < 0
      · rw [if_pos hneg]
        exact ⟨hnext, hi⟩
      · rw [if_neg hneg]
        exact ⟨hnext, hnext, hi⟩
    · obtain rfl := Option.some.inj hstep
      exact ⟨n, hkeep, _, goto_self .., by dsimp only; omega⟩
  | and i =>
    obtain ⟨halloc, hi⟩ := hc
    obtain rfl := Option.some.inj hstep
    have hand : (w.allocId &&& 0x7fffffff).hash = (a + (n + 1)) % MAX_SOCKET := by
      rw [hash_and, halloc]
    exact ⟨n, hkeep, _, goto_self .., hand, hand, hi⟩
  | probe i id =>
    obtain ⟨halloc, hid, hi⟩ := hc
    obtain rfl := Option.some.inj hstep
    by_cases hfree : (w.slot id.hash).type = .invalid
    · rw [if_pos hfree]
      exact ⟨n, hkeep, _, goto_self .., halloc, hid, hi⟩
    · rw [if_neg hfree]
      rw [hid] at hfree
      exact ⟨n + 1, passed_succ hkeep hfree, _, goto_self .., halloc, by omega⟩
  | cas i id =>
    obtain ⟨halloc, hid, hi⟩ := hc
    rw [SocketPool.reserveStep] at hstep
    by_cases hfree : (w.slot id.hash).type = .invalid
    · rw [if_pos hfree] at hstep
      obtain rfl := Option.some.inj hstep
      exact ⟨n, hkeep, _, goto_self .., trivial⟩
    · rw [if_neg hfree] at hstep
      obtain rfl := Option.some.inj hstep
      rw [hid] at hfree
      exact ⟨n + 1, passed_succ hkeep hfree, _, goto_self .., halloc, by omega⟩
  | write id =>
    obtain rfl := Option.some.inj hstep
    exact ⟨n, hkeep, _, goto_self .., trivial⟩
  | done r => cases hstep

theorem SocketPool.Passed.step {a : Nat} {kept : Nat → Prop} (h : w.Passed t a kept)
    (hstep : SocketPool.Step w e w') (hsolo : e.Solo t) (hkeep : ∀ j, kept j → ¬e.Frees j) :
    w'.Passed t a kept := by
  have htaken : ∀ j, kept j → (w.slot j).type ≠ .invalid → (w'.slot j).type ≠ .invalid :=
    fun j hj htype => hstep.taken htype (hkeep j hj)
  have hframe : w'.call = w.call → w'.allocId = w.allocId → w'.Passed t a kept := by
    intro hcall halloc
    obtain ⟨n, hseen, c, hc, hmatch⟩ := h
    refine ⟨n, fun k hk hle hkept => htaken _ hkept (hseen k hk hle hkept), c, ?_, ?_⟩
    · rw [hcall, hc]
    · rw [halloc]
      exact hmatch
  cases hstep with
  | call => exact hsolo.elim
  | step hcall hstep =>
    obtain rfl := hsolo
    exact h.reserveStep hcall hstep htaken
  | leave => exact hsolo.elim
  | newFd | change => exact hframe rfl rfl

theorem failed_taken {es : List (PoolEvent τ)} (hcall : w.call t = some (.inc 0))
    (hrun : Run SocketPool.Step w es w') (hsolo : ∀ e ∈ es, e.Solo t)
    (hfailed : w'.call t = some (.done none)) {j : Nat} (hj : j < MAX_SOCKET)
    (hkeep : ∀ e ∈ es, ¬e.Frees j) : (w'.slot j).type ≠ .invalid := by
  have hpassed : w'.Passed t w.allocId.hash (· = j) := by
    clear hfailed
    induction hrun with
    | nil =>
      refine ⟨0, fun k hk hle => absurd hle (by omega), _, hcall, ?_, Nat.le_refl 0⟩
      exact (Nat.mod_mod w.allocId.toNat MAX_SOCKET).symm
    | @snoc _ _ es e hrun hstep ih =>
      rw [List.forall_mem_append, List.forall_mem_singleton] at hsolo hkeep
      refine (ih hsolo.1 hkeep.1).step hstep hsolo.2 ?_
      rintro k rfl
      exact hkeep.2
  obtain ⟨n, hseen, c, hc, hmatch⟩ := hpassed
  rw [hfailed] at hc
  obtain rfl := Option.some.inj hc
  have hlt : w.allocId.hash < MAX_SOCKET := Nat.mod_lt _ (by decide)
  -- the number of steps from the first slot to this one
  obtain ⟨k, hk, hle, hmod⟩ : ∃ k, 1 ≤ k ∧ k ≤ MAX_SOCKET ∧
      (w.allocId.hash + k) % MAX_SOCKET = j := by
    by_cases hless : w.allocId.hash < j
    · refine ⟨j - w.allocId.hash, by omega, by omega, ?_⟩
      rw [Nat.add_sub_cancel' (Nat.le_of_lt hless), Nat.mod_eq_of_lt hj]
    · refine ⟨j + MAX_SOCKET - w.allocId.hash, by omega, by omega, ?_⟩
      rw [show w.allocId.hash + (j + MAX_SOCKET - w.allocId.hash) = j + MAX_SOCKET by omega,
        Nat.add_mod_right, Nat.mod_eq_of_lt hj]
  have htaken := hseen k hk (hle.trans hmatch) hmod
  rwa [hmod] at htaken

/-- In every run whose steps are allowed the ids are valid handles, and a call that fails while no
other one takes a step leaves no slot free. -/
theorem reserve_handles {w₀ : SocketPool τ} (hstart : w₀.Start) {es : List (PoolEvent τ)}
    (hrun : Run (Guarded PoolEvent.Ok SocketPool.Step) w₀ es w) :
    w.Handles ∧
      ∀ t es' w', w.call t = some (.inc 0) → Run SocketPool.Step w es' w' →
        (∀ e ∈ es', e.Solo t) → w'.call t = some (.done none) →
        ∀ j < MAX_SOCKET, (∀ e ∈ es', ¬e.Frees j) → (w'.slot j).type ≠ .invalid := by
  have hinv : w.Inv :=
    hrun.invariant hstart.inv fun s e t hinv hstep => hinv.step hstep.2 hstep.1
  exact ⟨hinv.handles, fun t es' w' hcall hrun' hsolo hfailed j hj hkeep =>
    failed_taken hcall hrun' hsolo hfailed hj hkeep⟩

def twoThreads : SocketPool Bool :=
  ⟨0, fun _ => ⟨.invalid, none, .unknown, 0, -1⟩, fun _ => none⟩

theorem reserve_handles_overlap : ∃ es w,
    Run (Guarded PoolEvent.Ok SocketPool.Step) twoThreads es w ∧
      w.call false = some (.done (some 1)) ∧ w.call true = some (.done (some 2)) ∧ w.Handles := by
  have hrun : ∃ w, Run (Guarded PoolEvent.Ok SocketPool.Step) twoThreads
      [.call false, .call true, .step false, .step true, .step true, .step false, .step true,
        .step false, .step false, .step true] w ∧
      w.call false = some (.done (some 1)) ∧ w.call true = some (.done (some 2)) := by
    refine ⟨_, Run.cons (t := _) ⟨⟨trivial, trivial⟩, .call rfl⟩ <|
      .cons ⟨⟨trivial, trivial⟩, .call rfl⟩ <|
      .cons ⟨⟨trivial, ?_⟩, .step (c := .inc 0) rfl rfl⟩ <|
      .cons ⟨⟨trivial, ?_⟩, .step (c := .inc 0) rfl rfl⟩ <|
      .cons ⟨⟨trivial, ?_⟩, .step (c := .probe 0 2) rfl rfl⟩ <|
      .cons ⟨⟨trivial, ?_⟩, .step (c := .probe 0 1) rfl rfl⟩ <|
      .cons ⟨⟨trivial, ?_⟩, .step (c := .cas 0 2) rfl rfl⟩ <|
      .cons ⟨⟨trivial, ?_⟩, .step (c := .cas 0 1) rfl rfl⟩ <|
      .cons ⟨⟨trivial, ?_⟩, .step (c := .write 1) rfl rfl⟩ <|
      .single ⟨⟨trivial, ?_⟩, .step (c := .write 2) rfl rfl⟩, rfl, rfl⟩
    all_goals
      intro i h
      cases h
  obtain ⟨w, hrun, hfalse, htrue⟩ := hrun
  have hstart : twoThreads.Start := ⟨rfl, fun _ => ⟨rfl, rfl⟩, fun _ => rfl⟩
  exact ⟨_, w, hrun, hfalse, htrue, (reserve_handles hstart hrun).1⟩

/-! ### The id 0 -/

/-- A pool with no socket and one thread. -/
def emptyPool : SocketPool Unit := ⟨0, fun _ => ⟨.invalid, none, .unknown, 0, -1⟩, fun _ => none⟩

theorem reserveStep_and {w : SocketPool τ} {t : τ} (hid : w.allocId + 1 = id)
    (hneg : id.toInt < 0) :
    w.reserveStep t (.inc 0) = some { w.goto t (.and 0) with allocId := id } := by
  subst hid
  rw [SocketPool.reserveStep, if_pos (by decide)]
  dsimp only
  rw [if_pos hneg]

theorem reserveStep_probe {w : SocketPool τ} {t : τ} (hid : w.allocId + 1 = id)
    (hpos : ¬id.toInt < 0) :
    w.reserveStep t (.inc 0) = some { w.goto t (.probe 0 id) with allocId := id } := by
  subst hid
  rw [SocketPool.reserveStep, if_pos (by decide)]
  dsimp only
  rw [if_neg hpos]

theorem reserveStep_clear {w : SocketPool τ} {t : τ}
    (hid : w.allocId &&& 0x7fffffff = id) :
    w.reserveStep t (.and 0) = some { w.goto t (.probe 0 id) with allocId := id } := by
  subst hid
  rfl

theorem reserve_probe {w : SocketPool Unit} {id : Id} (hcall : w.call () = some (.probe 0 id))
    (hfree : (w.slot id.hash).type = .invalid) {ok : SocketPool Unit → PoolEvent Unit → Prop}
    (hok : ∀ w c, w.call () = some c → (∀ i id', c = .cas i id' → id' = id) → ok w (.step ())) :
    ∃ es w', Run (Guarded ok SocketPool.Step) w es w' ∧ w'.allocId = w.allocId ∧
      w'.call () = some (.done (some id)) ∧ ∀ j, j ≠ id.hash → w'.slot j = w.slot j := by
  let w₁ := w.goto () (.cas 0 id)
  let w₂ := (w₁.goto () (.write id)).setSlot id.hash { w.slot id.hash with type := .reserve }
  let s : Entry := ⟨.reserve, some id, .unknown, 0, -1⟩
  let w₃ := (w₂.goto () (.done (some id))).setSlot id.hash s
  have h₁ : w.reserveStep () (.probe 0 id) = some w₁ := by
    rw [SocketPool.reserveStep, if_pos hfree]
  have h₂ : w₁.reserveStep () (.cas 0 id) = some w₂ := if_pos hfree
  have hslot : w₂.slot id.hash = { w.slot id.hash with type := .reserve } :=
    Function.update_self ..
  have h₃ : w₂.reserveStep () (.write id) = some w₃ := by
    rw [SocketPool.reserveStep, hslot]
  refine ⟨[.step (), .step (), .step ()], w₃, ?_, rfl, w₂.goto_self () _, fun j hj => ?_⟩
  · apply Run.cons ⟨hok _ _ hcall nofun, .step hcall h₁⟩
    have hcas : ∀ i id', Reserving.cas 0 id = .cas i id' → id' = id := by
      intro i id' heq
      cases heq
      rfl
    apply Run.cons ⟨hok _ _ (w.goto_self () _) hcas, .step (w.goto_self () _) h₂⟩
    exact Run.single ⟨hok _ _ (w₁.goto_self () _) nofun, .step (w₁.goto_self () _) h₃⟩
  · exact (Function.update_of_ne hj ..).trans (Function.update_of_ne hj ..)

theorem reserve_cycle {w : SocketPool Unit} (hcall : w.call () = none)
    (hfree : ∀ j, (w.slot j).type = .invalid) (hpos : ¬(w.allocId + 1).toInt < 0) :
    ∃ es w', Run (Guarded PoolEvent.Tidy SocketPool.Step) w es w' ∧
      w'.allocId = w.allocId + 1 ∧ w'.call () = none ∧ ∀ j, (w'.slot j).type = .invalid := by
  let w₁ := w.goto () (.inc 0)
  let w₂ := { w₁.goto () (.probe 0 (w.allocId + 1)) with allocId := w.allocId + 1 }
  have h₁ : w₁.reserveStep () (.inc 0) = some w₂ := reserveStep_probe rfl hpos
  obtain ⟨es, w₃, hrun, halloc, hdone, hother⟩ :=
    @reserve_probe w₂ (w.allocId + 1) (w₁.goto_self () _) (hfree _) PoolEvent.Tidy
      fun _ _ _ _ => trivial
  let w₄ : SocketPool Unit := { w₃ with call := Function.update w₃.call () none }
  let j := (w.allocId + 1).hash
  have hnone : w₄.call () = none := Function.update_self () none w₃.call
  have hheld : ¬w₄.Held j := by
    rintro ⟨t, id, hwon | hwon, -⟩ <;> rw [hnone] at hwon <;> cases hwon
  have hstart : Run (Guarded PoolEvent.Tidy SocketPool.Step) w [.call (), .step ()] w₂ := by
    apply Run.cons ⟨trivial, .call hcall⟩
    exact Run.single ⟨trivial, .step (w.goto_self () _) h₁⟩
  have hend : Run (Guarded PoolEvent.Tidy SocketPool.Step) w₃ [.leave (), .change j .invalid]
      (w₄.setSlot j { w₄.slot j with type := .invalid }) := by
    apply Run.cons ⟨trivial, .leave hdone⟩
    exact Run.single ⟨hheld, .change⟩
  refine ⟨_, _, (hstart.trans hrun).trans hend, halloc, hnone, fun k => ?_⟩
  rw [SocketPool.setSlot]
  dsimp only
  by_cases hk : k = j
  · rw [hk, Function.update_self]
  · rw [Function.update_of_ne hk]
    exact (congrArg Entry.type (hother k hk)).trans (hfree k)

theorem reserve_cycles (n : Nat) (hn : n < 2 ^ 31) :
    ∃ es w, Run (Guarded PoolEvent.Tidy SocketPool.Step) emptyPool es w ∧
      w.allocId = BitVec.ofNat 32 n ∧ w.call () = none ∧ ∀ j, (w.slot j).type = .invalid := by
  induction n with
  | zero => exact ⟨[], emptyPool, .nil _, rfl, rfl, fun _ => rfl⟩
  | succ n ih =>
    obtain ⟨es, w, hrun, halloc, hcall, hfree⟩ := ih (by omega)
    have hnext : w.allocId + 1 = BitVec.ofNat 32 (n + 1) := by
      rw [halloc, BitVec.ofNat_add]
      rfl
    have hpos : ¬(w.allocId + 1).toInt < 0 := by
      rw [hnext, BitVec.toInt_eq_toNat_of_lt]
      · exact Int.not_lt.mpr (Int.natCast_nonneg _)
      · rw [BitVec.toNat_ofNat]
        omega
    obtain ⟨es', w', hrun', halloc', hcall', hfree'⟩ := reserve_cycle hcall hfree hpos
    exact ⟨es ++ es', w', hrun.trans hrun', halloc'.trans hnext, hcall', hfree'⟩

/-- The call that passes 2^31 - 1 gets the id 0. -/
theorem reserve_zero : ¬∀ (es : List (PoolEvent Unit)) (w : SocketPool Unit),
    Run (Guarded PoolEvent.Tidy SocketPool.Step) emptyPool es w → w.Handles := by
  intro h
  obtain ⟨es, w, hrun, halloc, hcall, hfree⟩ := reserve_cycles (2 ^ 31 - 1) (by decide)
  let w₁ := w.goto () (.inc 0)
  let w₂ := { w₁.goto () (.and 0) with allocId := 0x80000000 }
  let w₃ := { w₂.goto () (.probe 0 0) with allocId := 0 }
  have h₁ : w₁.reserveStep () (.inc 0) = some w₂ := by
    have hnext : w₁.allocId + 1 = 0x80000000 := by
      rw [show w₁.allocId = BitVec.ofNat 32 (2 ^ 31 - 1) from halloc]
      rfl
    exact reserveStep_and hnext (by decide)
  have hand : (0x80000000 : Id) &&& 0x7fffffff = 0 := by decide
  have h₂ : w₂.reserveStep () (.and 0) = some w₃ := reserveStep_clear hand
  obtain ⟨es', w₄, hrun', -, hdone, -⟩ :=
    @reserve_probe w₃ 0 (w₂.goto_self () _) (hfree _) PoolEvent.Tidy fun _ _ _ _ => trivial
  have hstart : Run (Guarded PoolEvent.Tidy SocketPool.Step) w
      [.call (), .step (), .step ()] w₃ := by
    apply Run.cons ⟨trivial, .call hcall⟩
    apply Run.cons ⟨trivial, .step (w.goto_self () _) h₁⟩
    exact Run.single ⟨trivial, .step (w₁.goto_self () _) h₂⟩
  have hhandles := h _ w₄ (hrun.trans (hstart.trans hrun'))
  exact absurd (hhandles.pos () 0 (.inr hdone)) (by decide)

end XsServer.SocketServer
