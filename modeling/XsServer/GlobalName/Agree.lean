import XsServer.GlobalName.Slaves

/-! The master and the slaves agree on every name, and every query gets the master's address, as
long as a name is registered with one address, in a package that fits.  The master keeps the first
address of a name but sends every slave the last one. -/

namespace XsServer.GlobalName

open Lib

variable {ι ρ : Type} [DecidableEq ι]

/-! ### What a name can stand for -/

/-- The master has the address, or will get it in a package that is on its way. -/
def State.Claimed (s : State ι ρ) (n : Name) (a : Address) : Prop :=
  s.master.global_name n = some a ∨ ∃ i, .R n a ∈ s.up i

/-- The `N` package of the name fits, and so does its `R` package. -/
def Fits (n : Name) (a : Address) : Prop := (Package.N n a).packstring.length ≤ 255

theorem encodeString_length_byte (b c : UInt8) :
    (Seri.encodeString [b]).length = (Seri.encodeString [c]).length := rfl

theorem pack_package_R (n : Name) (a : Address) :
    (Fits n a → pack_package (.R n a) = some (.R n a)) ∧
      (pack_package (.R n a) ≠ none → Fits n a) := by
  have hlength : (Package.R n a).packstring.length = (Package.N n a).packstring.length := by
    simp only [Package.packstring, List.length_append]
    rw [encodeString_length_byte 82 78]
  rw [pack_package, hlength]
  refine ⟨fun h => if_pos h, fun h => ?_⟩
  by_contra hnot
  exact h (if_neg hnot)

variable {n : Name} {a : Address}

theorem pack_package_N (h : Fits n a) :
    pack_package (.N n a) = some (.N n a) := if_pos h

theorem pack_package_Q (h : Fits n a) :
    pack_package (.Q n) = some (.Q n) := by
  refine if_pos (Nat.le_trans ?_ h)
  simp only [Package.packstring, List.length_append]
  rw [encodeString_length_byte 81 78]
  exact Nat.le_add_right _ _

theorem pack_package_eq {p q : Package} (h : pack_package p = some q) : q = p := by
  rw [pack_package] at h
  split at h
  · exact (Option.some.inj h).symm
  · cases h

/-- Each name has one address, which all that know the name have. -/
structure Named (s : State ι ρ) : Prop where
  one : ∀ n a b, s.Claimed n a → s.Claimed n b → a = b
  fits : ∀ n a, s.Claimed n a → Fits n a
  bound : ∀ i n a, (s.slave i).globalname n = some a → s.Claimed n a
  sent : ∀ i n a, .N n a ∈ s.down i → s.Claimed n a

/-- The master takes packages from each running slave, its `H` first. -/
structure Linked (s : State ι ρ) : Prop where
  idle : ∀ i, (s.slave i).running = false → s.up i = []
  hello : ∀ i, s.up i ≠ [] → s.master.slave_node i = .none → ∃ ps, s.up i = .H :: ps
  running : ∀ i, (s.slave i).running = true → s.master.slave_node i = .none → s.up i ≠ []
  up : ∀ i, s.master.slave_node i ≠ .down

def Pending (s : State ι ρ) : Prop :=
  ∀ i n q, (s.slave i).queryname n = some q → .Q n ∈ s.up i ∨
    s.master.slave_node i = .connected ∧
      (s.master.global_name n = none ∨ ∃ a, .N n a ∈ s.down i)

variable {s t : State ι ρ} {i : ι} {hd : Handled ρ}

theorem mem_up_handled {j : ι} {p : Package} :
    p ∈ (s.handled i hd).up j ↔ p ∈ s.up j ∨ j = i ∧ p ∈ hd.2.1 := by
  rw [State.handled, Channels.mem_send, Channels.mem_single]

theorem claimed_handled :
    (s.handled i hd).Claimed n a ↔ s.Claimed n a ∨ .R n a ∈ hd.2.1 := by
  simp only [State.Claimed, mem_up_handled]
  constructor
  · rintro (h | ⟨j, h | ⟨rfl, h⟩⟩)
    · exact .inl (.inl h)
    · exact .inl (.inr ⟨j, h⟩)
    · exact .inr h
  · rintro ((h | ⟨j, h⟩) | h)
    · exact .inl h
    · exact .inr ⟨j, .inl h⟩
    · exact .inr ⟨i, .inr ⟨rfl, h⟩⟩

theorem slave_handled (j : ι) :
    (s.handled i hd).slave j = if j = i then hd.1 else s.slave j :=
  Function.update_apply ..

theorem Named.handled (h : Named s)
    (hout : ∀ n a, .R n a ∈ hd.2.1 → Fits n a ∧ (∀ b, s.Claimed n b → b = a) ∧
      ∀ b, .R n b ∈ hd.2.1 → b = a)
    (hglobal : ∀ n a, hd.1.globalname n = some a → s.Claimed n a ∨ .R n a ∈ hd.2.1) :
    Named (s.handled i hd) where
  one n a b ha hb := by
    rcases claimed_handled.mp ha with ha | ha
    · rcases claimed_handled.mp hb with hb | hb
      · exact h.one n a b ha hb
      · exact (hout n b hb).2.1 a ha
    · rcases claimed_handled.mp hb with hb | hb
      · exact ((hout n a ha).2.1 b hb).symm
      · exact ((hout n a ha).2.2 b hb).symm
  fits n a ha := by
    rcases claimed_handled.mp ha with ha | ha
    · exact h.fits n a ha
    · exact (hout n a ha).1
  bound j n a ha := by
    apply claimed_handled.mpr
    rw [slave_handled] at ha
    split at ha
    · exact hglobal n a ha
    · exact .inl (h.bound j n a ha)
  sent j n a ha := claimed_handled.mpr (.inl (h.sent j n a ha))

theorem Linked.handled (h : Linked s) (hrunning : (s.slave i).running = true)
    (hsame : hd.1.running = (s.slave i).running) : Linked (s.handled i hd) where
  idle j hj := by
    rw [slave_handled] at hj
    split at hj
    · rw [hsame, hrunning] at hj
      cases hj
    · rename_i hne
      change s.up j ++ Channels.single i hd.2.1 j = []
      rw [Channels.single_of_ne hne, h.idle j hj]
      rfl
  hello j hj hnone := by
    have hnil : s.up j ≠ [] := by
      intro hnil
      by_cases hji : j = i
      · subst hji
        exact h.running j hrunning hnone hnil
      · apply hj
        change s.up j ++ Channels.single i hd.2.1 j = []
        rw [Channels.single_of_ne hji, hnil]
        rfl
    obtain ⟨ps, hps⟩ := h.hello j hnil hnone
    exact ⟨ps ++ Channels.single i hd.2.1 j, congrArg (· ++ _) hps⟩
  running j hj hnone := by
    have hj' : (s.slave j).running = true := by
      rw [slave_handled] at hj
      split at hj
      · rename_i hji
        rw [hji]
        exact hrunning
      · exact hj
    exact List.append_ne_nil_of_left_ne_nil (h.running j hj' hnone) _
  up := h.up

theorem Pending.handled (h : Pending s)
    (hqueue : ∀ n q, hd.1.queryname n = some q →
      (∃ q', (s.slave i).queryname n = some q') ∨ .Q n ∈ hd.2.1) : Pending (s.handled i hd) := by
  intro j n q hq
  have hold : (∃ q', (s.slave j).queryname n = some q') ∨ .Q n ∈ (s.handled i hd).up j := by
    rw [slave_handled] at hq
    split at hq
    · rename_i hji
      subst hji
      exact (hqueue n q hq).imp_right fun hout => mem_up_handled.mpr (.inr ⟨rfl, hout⟩)
    · exact .inl ⟨q, hq⟩
  rcases hold with ⟨q', hq'⟩ | hup
  · exact (h j n q' hq').imp_left fun hup => mem_up_handled.mpr (.inl hup)
  · exact .inl hup

/-! ### The master -/

/-- What the master does with the package `p` of slave `i`: its new tables, and what it writes. -/
structure Served (s : State ι ρ) (i : ι) (p : Package) (m : Master ι)
    (out : Channels ι Package) : Prop where
  self : m.slave_node i = .connected
  others : ∀ j, j ≠ i → m.slave_node j = s.master.slave_node j
  names : ∀ n, m.global_name n = s.master.global_name n ∨
    ∃ a, p = .R n a ∧ m.global_name n = some a
  keeps : ∀ n a, s.master.global_name n = some a → m.global_name n = some a
  binds : ∀ n a, p = .R n a → m.global_name n ≠ none
  writes : ∀ j n a, .N n a ∈ out j → s.Claimed n a
  tells : ∀ n a, p = .R n a → ∀ j, s.master.slave_node j = .connected → .N n a ∈ out j
  replies : ∀ n, p = .Q n → m.global_name n = none ∨ ∃ a, .N n a ∈ out i

omit [DecidableEq ι] in
theorem Served.same {p : Package} (hself : s.master.slave_node i = .connected)
    (hR : ∀ n a, p ≠ .R n a) (hQ : ∀ n, p = .Q n → s.master.global_name n = none) :
    Served s i p s.master fun _ => [] where
  self := hself
  others _ _ := rfl
  names _ := .inl rfl
  keeps _ _ ha := ha
  binds n a hp := absurd hp (hR n a)
  writes _ _ _ hout := by cases hout
  tells n a hp := absurd hp (hR n a)
  replies n hp := .inl (hQ n hp)

theorem Served.hello :
    Served s i .H
      { s.master with slave_node := Function.update s.master.slave_node i .connected }
      fun _ => [] where
  self := Function.update_self ..
  others _ hj := Function.update_of_ne hj ..
  names _ := .inl rfl
  keeps _ _ ha := ha
  binds _ _ hp := by cases hp
  writes _ _ _ hout := by cases hout
  tells _ _ hp := by cases hp
  replies _ hp := by cases hp

omit [DecidableEq ι] in
theorem Served.bind {ps : List Package}
    (hself : s.master.slave_node i = .connected) (hup : s.up i = .R n a :: ps) :
    Served s i (.R n a)
      (if s.master.global_name n = none then
        { s.master with global_name := Function.update s.master.global_name n (some a) }
        else s.master)
      fun k => if s.master.slave_node k = .connected then [.N n a] else [] where
  self := by split <;> exact hself
  others j _ := by split <;> rfl
  names m := by
    split
    · by_cases hm : m = n
      · subst hm
        exact .inr ⟨a, rfl, Function.update_self ..⟩
      · exact .inl (Function.update_of_ne hm ..)
    · exact .inl rfl
  keeps m b hb := by
    split
    · rename_i hnone
      have hm : m ≠ n := by
        rintro rfl
        rw [hnone] at hb
        cases hb
      exact (Function.update_of_ne hm ..).trans hb
    · exact hb
  binds m b hp := by
    obtain ⟨rfl, rfl⟩ := Package.R.inj hp
    split
    · intro hnone
      have hself : Function.update s.master.global_name n (some a) n = none := hnone
      rw [Function.update_self] at hself
      cases hself
    · assumption
  writes j m b hout := by
    split at hout
    · obtain ⟨rfl, rfl⟩ := Package.N.inj (List.mem_singleton.mp hout)
      exact .inr ⟨i, by rw [hup]; exact List.mem_cons_self ..⟩
    · cases hout
  tells m b hp j hj := by
    obtain ⟨rfl, rfl⟩ := Package.R.inj hp
    rw [if_pos hj]
    exact List.mem_singleton_self _
  replies _ hp := by cases hp

theorem Served.reply (hself : s.master.slave_node i = .connected)
    (ha : s.master.global_name n = some a) :
    Served s i (.Q n) s.master (.single i [.N n a]) where
  self := hself
  others _ _ := rfl
  names _ := .inl rfl
  keeps _ _ hb := hb
  binds _ _ hp := by cases hp
  writes j m b hout := by
    obtain ⟨_, hmem⟩ := Channels.mem_single.mp hout
    obtain ⟨rfl, rfl⟩ := Package.N.inj (List.mem_singleton.mp hmem)
    exact .inl ha
  tells _ _ hp := by cases hp
  replies m hp := by
    obtain rfl := Package.Q.inj hp
    exact .inr ⟨a, Channels.mem_single.mpr ⟨rfl, List.mem_singleton_self _⟩⟩

theorem serve_eq (hn : Named s) (hl : Linked s) {p : Package} {ps : List Package}
    (hup : s.up i = p :: ps) :
    ∃ m out, Served s i p m out ∧
      s.serve i p = { s with master := m, up := s.up.receive i, down := s.down.send out } := by
  have hsilent : s.down.send (fun _ => []) = s.down := funext fun _ => List.append_nil _
  cases hnode : s.master.slave_node i with
  | none =>
    obtain ⟨qs, hqs⟩ := hl.hello i (by rw [hup]; exact List.cons_ne_nil _ _) hnode
    obtain rfl : p = .H := (List.cons.inj (hup.symm.trans hqs)).1
    refine ⟨_, _, .hello, ?_⟩
    rw [hsilent, State.serve, hnode]
    exact if_pos rfl
  | connected =>
    cases p with
    | R n a =>
      have hfits : Fits n a := hn.fits n a (.inr ⟨i, by rw [hup]; exact List.mem_cons_self ..⟩)
      refine ⟨_, _, .bind hnode hup, ?_⟩
      simp only [State.serve, hnode, dispatch_slave, pack_package_N hfits, Option.map_some]
      split <;> rfl
    | Q n =>
      cases hglobal : s.master.global_name n with
      | none =>
        refine ⟨_, _, .same hnode (fun _ _ h => by cases h) fun m hm => ?_, ?_⟩
        · obtain rfl := Package.Q.inj hm
          exact hglobal
        · simp only [State.serve, hnode, dispatch_slave, hglobal]
      | some a =>
        refine ⟨_, _, .reply hnode hglobal, ?_⟩
        simp only [State.serve, hnode, dispatch_slave, hglobal,
          pack_package_N (hn.fits n a (.inl hglobal)), Option.map_some]
    | H | N n a =>
      refine ⟨_, _, .same hnode (fun _ _ h => by cases h) (fun _ h => by cases h), ?_⟩
      simp only [State.serve, hnode, dispatch_slave]
  | down => exact absurd hnode (hl.up i)

section Served

variable {p : Package} {ps : List Package} {m : Master ι} {out : Channels ι Package}

theorem Served.claimed_of (hs : Served s i p m out) (hup : s.up i = p :: ps)
    (h : State.Claimed { s with master := m, up := s.up.receive i, down := s.down.send out } n a) :
    s.Claimed n a := by
  rcases h with h | ⟨j, h⟩
  · rcases hs.names n with heq | ⟨b, rfl, hb⟩
    · exact .inl (heq.symm.trans h)
    · obtain rfl := Option.some.inj (hb.symm.trans h)
      exact .inr ⟨i, by rw [hup]; exact List.mem_cons_self ..⟩
  · exact .inr ⟨j, Channels.mem_of_mem_receive h⟩

theorem Served.claimed (hn : Named s) (hs : Served s i p m out) (hup : s.up i = p :: ps)
    (h : s.Claimed n a) :
    State.Claimed { s with master := m, up := s.up.receive i, down := s.down.send out } n a := by
  have hone := hn.one n a
  rcases h with h | ⟨j, h⟩
  · exact .inl (hs.keeps n a h)
  · rcases Channels.mem_receive hup h with h' | ⟨_, rfl⟩
    · exact .inr ⟨j, h'⟩
    · left
      cases hbound : m.global_name n with
      | none => exact absurd hbound (hs.binds n a rfl)
      | some b => rw [hone b (.inr ⟨j, h⟩) (hs.claimed_of hup (.inl hbound))]

theorem Named.served (hn : Named s) (hs : Served s i p m out) (hup : s.up i = p :: ps) :
    Named { s with master := m, up := s.up.receive i, down := s.down.send out } where
  one n a b ha hb := hn.one n a b (hs.claimed_of hup ha) (hs.claimed_of hup hb)
  fits n a ha := hn.fits n a (hs.claimed_of hup ha)
  bound j n a ha := hs.claimed hn hup (hn.bound j n a ha)
  sent j n a ha := by
    apply hs.claimed hn hup
    rcases Channels.mem_send.mp ha with ha | ha
    · exact hn.sent j n a ha
    · exact hs.writes j n a ha

theorem Linked.served (hl : Linked s) (hs : Served s i p m out) (hup : s.up i = p :: ps) :
    Linked { s with master := m, up := s.up.receive i, down := s.down.send out } where
  idle j hj := by
    have hnil := hl.idle j hj
    have hne : j ≠ i := by
      rintro rfl
      rw [hup] at hnil
      cases hnil
    exact (Channels.receive_of_ne hne).trans hnil
  hello j hj hnone := by
    have hne : j ≠ i := by
      rintro rfl
      cases hs.self.symm.trans hnone
    change s.up.receive i j ≠ [] at hj
    change ∃ ps, s.up.receive i j = _
    rw [Channels.receive_of_ne hne] at hj ⊢
    exact hl.hello j hj ((hs.others j hne).symm.trans hnone)
  running j hj hnone := by
    have hne : j ≠ i := by
      rintro rfl
      cases hs.self.symm.trans hnone
    change s.up.receive i j ≠ []
    rw [Channels.receive_of_ne hne]
    exact hl.running j hj ((hs.others j hne).symm.trans hnone)
  up j := by
    by_cases hj : j = i
    · subst hj
      rw [hs.self]
      exact fun h => by cases h
    · rw [hs.others j hj]
      exact hl.up j

theorem Pending.served (hp : Pending s) (hs : Served s i p m out)
    (hup : s.up i = p :: ps) :
    Pending { s with master := m, up := s.up.receive i, down := s.down.send out } := by
  intro j n q hq
  rcases hp j n q hq with hQ | ⟨hnode, hrest⟩
  · rcases Channels.mem_receive hup hQ with hQ | ⟨rfl, rfl⟩
    · exact .inl hQ
    · right
      refine ⟨hs.self, ?_⟩
      exact (hs.replies n rfl).imp_right fun ⟨a, ha⟩ => ⟨a, Channels.mem_send.mpr (.inr ha)⟩
  · right
    have hnode' : m.slave_node j = .connected := by
      by_cases hj : j = i
      · rw [hj]
        exact hs.self
      · exact (hs.others j hj).trans hnode
    refine ⟨hnode', ?_⟩
    rcases hrest with hnone | ⟨a, ha⟩
    · rcases hs.names n with heq | ⟨a, ha, _⟩
      · exact .inl (heq.trans hnone)
      · exact .inr ⟨a, Channels.mem_send.mpr (.inr (hs.tells n a ha j hnode))⟩
    · exact .inr ⟨a, Channels.mem_send.mpr (.inl ha)⟩

end Served

/-! ### A package at a slave, and the start of one -/

/-- The slave after it gets the address of a name. -/
def Slave.learn (s : Slave ρ) (n : Name) (a : Address) : Slave ρ :=
  { s with
    globalname := Function.update s.globalname n (some a)
    queryname := Function.update s.queryname n none }

def Slave.queue (s : Slave ρ) (n : Name) : List ρ := (s.queryname n).getD []

theorem learn_globalname (s : Slave ρ) (n : Name) (a : Address) (m : Name) :
    (s.learn n a).globalname m = if m = n then some a else s.globalname m :=
  Function.update_apply ..

theorem learn_queryname (s : Slave ρ) (n : Name) (a : Address) (m : Name) :
    (s.learn n a).queryname m = if m = n then none else s.queryname m :=
  Function.update_apply ..

theorem response_name_eq (s : Slave ρ) (n : Name) (a : Address) :
    response_name { s with globalname := Function.update s.globalname n (some a) } n =
      (s.learn n a, (s.queue n).map (·, .address (some a))) := by
  rw [response_name, Slave.learn, Slave.queue]
  dsimp only
  cases hqueue : s.queryname n with
  | none =>
    have hsame : Function.update s.queryname n none = s.queryname :=
      Function.update_eq_self_iff.mpr hqueue.symm
    rw [hsame]
    rfl
  | some tmp =>
    dsimp only [Option.getD_some]
    rw [Function.update_self]

section Receive

variable {p : Package} {ps : List Package}

abbrev State.received (s : State ι ρ) (i : ι) (p : Package) : State ι ρ :=
  { s with
    slave := Function.update s.slave i (monitor_master (s.slave i) p).1
    down := s.down.receive i }

theorem monitor_master_cases (s : Slave ρ) (p : Package) :
    (∃ n a, p = .N n a ∧
      monitor_master s p = (s.learn n a, (s.queue n).map (·, .address (some a)))) ∨
    (∀ n a, p ≠ .N n a) ∧ monitor_master s p = (s, []) := by
  cases p with
  | N n a => exact .inl ⟨n, a, rfl, response_name_eq s n a⟩
  | _ => exact .inr ⟨fun _ _ h => (by cases h), rfl⟩

theorem slave_received (j : ι) :
    (s.received i p).slave j = if j = i then (monitor_master (s.slave i) p).1 else s.slave j :=
  Function.update_apply ..

theorem Named.received (h : Named s) (hdown : s.down i = p :: ps) : Named (s.received i p) where
  one := h.one
  fits := h.fits
  bound j n a ha := by
    rw [slave_received] at ha
    split at ha
    · rcases monitor_master_cases (s.slave i) p with ⟨m, b, rfl, heq⟩ | ⟨_, heq⟩
      · rw [heq, learn_globalname] at ha
        split at ha
        · rename_i hm
          obtain rfl := Option.some.inj ha
          rw [hm]
          exact h.sent i m b (by rw [hdown]; exact List.mem_cons_self ..)
        · exact h.bound i n a ha
      · rw [heq] at ha
        exact h.bound i n a ha
    · exact h.bound j n a ha
  sent j n a ha := h.sent j n a (Channels.mem_of_mem_receive ha)

theorem Linked.received (h : Linked s) : Linked (s.received i p) := by
  have hrunning : ∀ j, ((s.received i p).slave j).running = (s.slave j).running := by
    intro j
    rw [slave_received]
    split
    · rename_i hj
      rw [hj]
      rcases monitor_master_cases (s.slave i) p with ⟨_, _, _, heq⟩ | ⟨_, heq⟩ <;> rw [heq]
      rfl
    · rfl
  exact ⟨fun j hj => h.idle j ((hrunning j).symm.trans hj), h.hello,
    fun j hj => h.running j ((hrunning j).symm.trans hj), h.up⟩

theorem Pending.received (h : Pending s) (hdown : s.down i = p :: ps) :
    Pending (s.received i p) := by
  intro j n q hq
  have hold : (∃ q', (s.slave j).queryname n = some q') ∧ (j = i → ∀ a, p ≠ .N n a) := by
    rw [slave_received] at hq
    split at hq
    · rename_i hj
      subst hj
      rcases monitor_master_cases (s.slave j) p with ⟨m, b, rfl, heq⟩ | ⟨hne, heq⟩
      · rw [heq, learn_queryname] at hq
        split at hq
        · cases hq
        · rename_i hm
          exact ⟨⟨q, hq⟩, fun _ _ h => hm (Package.N.inj h).1.symm⟩
      · rw [heq] at hq
        exact ⟨⟨q, hq⟩, fun _ a => hne n a⟩
    · rename_i hj
      exact ⟨⟨q, hq⟩, fun h => absurd h hj⟩
  obtain ⟨⟨q', hq'⟩, hne⟩ := hold
  refine (h j n q' hq').imp_right fun ⟨hnode, hrest⟩ => ⟨hnode, hrest.imp_right fun ⟨a, ha⟩ => ?_⟩
  rcases Channels.mem_receive hdown ha with ha | ⟨hj, ha⟩
  · exact ⟨a, ha⟩
  · exact absurd ha.symm (hne hj a)

end Receive

def Slave.start (s : Slave ρ) : Handled ρ := ({ s with running := true }, [.H], [])

theorem Named.started (h : Named s) : Named (s.handled i (s.slave i).start) :=
  h.handled (fun _ _ hout => by cases List.mem_singleton.mp hout) fun n a ha =>
    .inl (h.bound i n a ha)

theorem Linked.started (h : Linked s) (hidle : (s.slave i).running = false) :
    Linked (s.handled i (s.slave i).start) where
  idle j hj := by
    rw [slave_handled] at hj
    split at hj
    · cases hj
    · rename_i hne
      change s.up j ++ Channels.single i [.H] j = []
      rw [Channels.single_of_ne hne, h.idle j hj]
      rfl
  hello j hj hnone := by
    by_cases hji : j = i
    · subst hji
      refine ⟨[], ?_⟩
      change s.up j ++ Channels.single j [.H] j = _
      rw [Channels.single_self, h.idle j hidle]
      rfl
    · change s.up j ++ Channels.single i [.H] j ≠ [] at hj
      change ∃ ps, s.up j ++ Channels.single i [.H] j = _
      rw [Channels.single_of_ne hji, List.append_nil] at hj ⊢
      exact h.hello j hj hnone
  running j hj hnone := by
    rw [slave_handled] at hj
    split at hj
    · rename_i hji
      exact List.ne_nil_of_mem (mem_up_handled.mpr (.inr ⟨hji, List.mem_singleton_self _⟩))
    · exact List.append_ne_nil_of_left_ne_nil (h.running j hj hnone) _
  up := h.up

theorem Pending.started (h : Pending s) : Pending (s.handled i (s.slave i).start) :=
  h.handled fun _ q hq => .inl ⟨q, hq⟩

/-! ### Runs -/

variable (localname : Name → Option Address)

/-- A name is registered with one address, and in a package that fits; no local name is queried. -/
def State.Clear (s : State ι ρ) : Event ι ρ × List (ι × ρ × Answer) → Prop
  | (.REGISTER i n a, _) =>
    (s.slave i).globalname n = none → Fits n a ∧ ∀ b, s.Claimed n b → b = a
  | (.QUERYNAME _ n _, _) => n.head? ≠ some 46
  | _ => True

/-- What is true of the tables and of the packages in flight. -/
structure Inv (s : State ι ρ) : Prop where
  named : Named s
  linked : Linked s
  pending : Pending s

omit [DecidableEq ι] in
theorem Inv.init : Inv (State.init : State ι ρ) where
  named := by
    have hnone : ∀ n a, ¬ (State.init : State ι ρ).Claimed n a := by
      rintro n a (h | ⟨i, h⟩) <;> cases h
    exact ⟨fun n a _ h => absurd h (hnone n a), fun n a h => absurd h (hnone n a),
      fun _ _ _ h => (by cases h), fun _ _ _ h => (by cases h)⟩
  linked := ⟨fun _ _ => rfl, fun _ h => absurd rfl h, fun _ h => (by cases h),
    fun _ h => by cases h⟩
  pending _ _ _ h := by cases h

theorem REGISTER_eq {s : Slave ρ} (hnone : s.globalname n = none)
    (hfits : Fits n a) :
    REGISTER s n a = (s.learn n a, [.R n a], (s.queue n).map (·, .address (some a))) := by
  rw [REGISTER, if_pos hnone, (pack_package_R n a).1 hfits, response_name_eq]
  rfl

theorem Inv.register (h : Inv s) (hrunning : (s.slave i).running = true)
    (hclear : (s.slave i).globalname n = none → Fits n a ∧ ∀ b, s.Claimed n b → b = a) :
    Inv (s.handled i (REGISTER (s.slave i) n a)) := by
  by_cases hnone : (s.slave i).globalname n = none
  · obtain ⟨hfits, hone⟩ := hclear hnone
    rw [REGISTER_eq hnone hfits]
    refine ⟨h.named.handled (fun m b hout => ?_) fun m b hb => ?_,
      h.linked.handled hrunning rfl, h.pending.handled fun m q hq => ?_⟩
    · obtain ⟨rfl, rfl⟩ := Package.R.inj (List.mem_singleton.mp hout)
      exact ⟨hfits, hone, fun c hc => (Package.R.inj (List.mem_singleton.mp hc)).2⟩
    · rw [learn_globalname] at hb
      split at hb
      · rename_i hm
        obtain rfl := Option.some.inj hb
        rw [hm]
        exact .inr (List.mem_singleton_self _)
      · exact .inl (h.named.bound i m b hb)
    · rw [learn_queryname] at hq
      split at hq
      · cases hq
      · exact .inl ⟨q, hq⟩
  · rw [REGISTER, if_neg hnone]
    exact ⟨h.named.handled (fun _ _ hout => by cases hout) fun m b hb =>
        .inl (h.named.bound i m b hb),
      h.linked.handled hrunning rfl, h.pending.handled fun _ q hq => .inl ⟨q, hq⟩⟩

theorem Inv.asked (h : Inv s) (hrunning : (s.slave i).running = true)
    (hsame : hd.1.running = (s.slave i).running)
    (hglobal : hd.1.globalname = (s.slave i).globalname)
    (hout : ∀ p ∈ hd.2.1, ∃ n, p = .Q n)
    (hqueue : ∀ n q, hd.1.queryname n = some q →
      (∃ q', (s.slave i).queryname n = some q') ∨ .Q n ∈ hd.2.1) : Inv (s.handled i hd) := by
  refine ⟨h.named.handled (fun n a hR => ?_) fun n a ha => ?_, h.linked.handled hrunning hsame,
    h.pending.handled hqueue⟩
  · obtain ⟨_, hQ⟩ := hout _ hR
    cases hQ
  · rw [hglobal] at ha
    exact .inl (h.named.bound i n a ha)

theorem QUERYNAME_cases (s : Slave ρ) (r : ρ) (hdot : n.head? ≠ some 46) :
    (∃ a, s.globalname n = some a ∧
      QUERYNAME localname s n r = (s, [], [(r, .address (some a))])) ∨
    (∀ a, ¬ Fits n a) ∧ QUERYNAME localname s n r = (s, [], [(r, .error)]) ∨
    ∃ out, (∀ p ∈ out, p = .Q n) ∧ (s.queryname n = none → .Q n ∈ out) ∧
      QUERYNAME localname s n r =
        ({ s with queryname := Function.update s.queryname n (some (s.queue n ++ [r])) },
          out, []) := by
  rw [QUERYNAME, if_neg hdot, Slave.queue]
  cases s.globalname n with
  | some a => exact .inl ⟨a, rfl, rfl⟩
  | none =>
    cases s.queryname n with
    | some queue => exact .inr (.inr ⟨[], fun _ h => (by cases h), fun h => (by cases h), rfl⟩)
    | none =>
      cases hpack : pack_package (.Q n) with
      | some p =>
        obtain rfl := pack_package_eq hpack
        exact .inr (.inr ⟨[.Q n], fun _ h => List.mem_singleton.mp h,
          fun _ => List.mem_singleton_self _, rfl⟩)
      | none =>
        refine .inr (.inl ⟨fun a hfits => ?_, rfl⟩)
        rw [pack_package_Q hfits] at hpack
        cases hpack

theorem Inv.query (h : Inv s) {r : ρ} (hrunning : (s.slave i).running = true)
    (hdot : n.head? ≠ some 46) : Inv (s.handled i (QUERYNAME localname (s.slave i) n r)) := by
  rcases QUERYNAME_cases localname (s.slave i) r hdot with
    ⟨a, _, heq⟩ | ⟨_, heq⟩ | ⟨out, hout, hQ, heq⟩ <;> rw [heq]
  · exact h.asked hrunning rfl rfl (fun _ hp => by cases hp) fun _ q hq => .inl ⟨q, hq⟩
  · exact h.asked hrunning rfl rfl (fun _ hp => by cases hp) fun _ q hq => .inl ⟨q, hq⟩
  · refine h.asked hrunning rfl rfl (fun p hp => ⟨n, hout p hp⟩) fun m q hq => ?_
    by_cases hm : m = n
    · subst hm
      cases hold : (s.slave i).queryname m with
      | none => exact .inr (hQ hold)
      | some q' => exact .inl ⟨q', rfl⟩
    · dsimp only at hq
      rw [Function.update_of_ne hm] at hq
      exact .inl ⟨q, hq⟩

theorem Inv.harbor (h : Inv s) (hrunning : (s.slave i).running = true) :
    Inv (s.handled i (monitor_harbor (s.slave i) n)) := by
  rw [monitor_harbor]
  split
  · exact h.asked hrunning rfl rfl (fun _ hp => by cases hp) fun _ q hq => .inl ⟨q, hq⟩
  · refine h.asked hrunning rfl rfl (fun p hp => ⟨n, ?_⟩) fun _ q hq => .inl ⟨q, hq⟩
    exact pack_package_eq (Option.mem_toList.mp hp)

theorem Inv.step {l : Event ι ρ × List (ι × ρ × Answer)} (h : Inv s)
    (hstep : Guarded State.Clear (Step localname) s l t) : Inv t := by
  obtain ⟨hclear, henabled, hnext⟩ := hstep
  obtain ⟨e, out⟩ := l
  have ht : t = (s.next localname e).1 := (congrArg Prod.fst hnext).symm
  rw [ht]
  cases e with
  | start i => exact ⟨h.named.started, h.linked.started henabled, h.pending.started⟩
  | REGISTER i n a => exact h.register henabled hclear
  | QUERYNAME i n r => exact h.query localname henabled hclear
  | harbor i n => exact h.harbor henabled
  | master i =>
    rw [State.next]
    cases hup : s.up i with
    | nil => exact h
    | cons p ps =>
      obtain ⟨m, out, hserved, heq⟩ := serve_eq h.named h.linked hup
      dsimp only
      rw [heq]
      exact ⟨h.named.served hserved hup, h.linked.served hserved hup, h.pending.served hserved hup⟩
  | receive i =>
    rw [State.next]
    cases hdown : s.down i with
    | nil => exact h
    | cons p ps => exact ⟨h.named.received hdown, h.linked.received, h.pending.received hdown⟩

end XsServer.GlobalName
