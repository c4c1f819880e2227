import XsServer.Custom.Catchup

/-! The names of timers: `_names` and `_idens` go with the nodes of the heap through registrations,
removals, calls and `dataClear`. -/

namespace XsServer.Custom.Timer

open XsServer.Lib

variable {κ ν : Type*}

def dataClear (t : Timer κ ν) : Timer κ ν :=
  { t with
    pauset := none
    nodes := []
    names := fun _ => none
    idens := fun _ => none }

def remaining (t : Timer κ ν) (iden : Option Int) : Int :=
  let now := t.pauset.getD t.now
  match t.search iden with
  | some item => (item.ticks : Int) - now
  | none => 0

def remainingBy (t : Timer κ ν) (name : ν) : Int := t.remaining (t.names name)

variable [DecidableEq ν]

/-- A call of the timer; `named` is one of `appendBy` or `appendEverBy`, with the identifier that it
gives to the name. -/
inductive Act (ν : Type*)
  | clock
  | append
  | named (name : ν) (iden : Int)
  | remove (iden : Int)
  | execute
  | dataClear
  | pause
  | uPause

/-- `execute` takes any node of the heap for the first. -/
inductive Acts (t : Timer κ ν) : Act ν → Timer κ ν → Prop
  | clock (now : Nat) : Acts t .clock { t with now }
  | append (elapse : Nat) (count : Option Int) (call : κ) :
    Acts t .append (t.append elapse count call).2
  | appendBy (name : ν) (elapse : Nat) (count : Option Int) (call : κ) :
    Acts t (.named name (t.appendBy name elapse count call).1) (t.appendBy name elapse count call).2
  | appendEverBy (name : ν) (elapse : Nat) (call : κ) :
    Acts t (.named name (t.appendEverBy name elapse call).1) (t.appendEverBy name elapse call).2
  | remove (iden : Int) : Acts t (.remove iden) (t.remove iden)
  | execute (rede : Option (Node Nat Nat)) (hrede : ∀ node ∈ rede, node ∈ t.nodes) :
    Acts t .execute (t.execute rede).2
  | dataClear : Acts t .dataClear t.dataClear
  | pause : Acts t .pause t.pause
  | uPause : Acts t .uPause t.uPause

/-- The registration of the name that gave it the identifier is the last one of the name. -/
def Last (name : ν) (iden : Int) (acts : List (Act ν)) : Prop :=
  ∃ before after, acts = before ++ .named name iden :: after ∧ ∀ other, .named name other ∉ after

/-- The names that have identifiers are those of the nodes that were registered with names. -/
structure Consistent (acts : List (Act ν)) (t : Timer κ ν) : Prop where
  sound : Sound t
  names_iff : ∀ name iden, t.names name = some iden ↔ .named name iden ∈ acts ∧ Live iden t
  idens_iff : ∀ iden name, t.idens iden = some name ↔ t.names name = some iden
  given : ∀ name (iden : Int), .named name iden ∈ acts → iden ≤ t.auto
  last : ∀ name iden, t.names name = some iden → Last name iden acts

variable {t u : Timer κ ν} {acts : List (Act ν)} {a : Act ν}

omit [DecidableEq ν] in
theorem Last.snoc {name : ν} {iden : Int} (h : Last name iden acts)
    (ha : ∀ other, a ≠ .named name other) : Last name iden (acts ++ [a]) := by
  obtain ⟨before, after, rfl, hafter⟩ := h
  refine ⟨before, after ++ [a], by simp, fun other hmem => ?_⟩
  obtain hmem | hmem := List.mem_append.mp hmem
  · exact hafter other hmem
  · exact ha other (List.mem_singleton.mp hmem).symm

omit [DecidableEq ν] in
theorem mem_snoc {name : ν} {iden : Int} (ha : ∀ other, a ≠ .named name other) :
    .named name iden ∈ acts ++ [a] ↔ .named name iden ∈ acts := by
  rw [List.mem_append, List.mem_singleton]
  exact or_iff_left fun h => ha iden h.symm

omit [DecidableEq ν] in
theorem Consistent.new (now : Nat) (items : Nat → Item κ) :
    Consistent [] (new now items : Timer κ ν) where
  sound := .new now items
  names_iff name iden := iff_of_false (by simp [Timer.new]) (by simp)
  idens_iff iden name := by simp [Timer.new]
  given name iden h := absurd h List.not_mem_nil
  last name iden h := by simp [Timer.new] at h

omit [DecidableEq ν] in
/-- A call that is no registration with a name, and leaves the names and the identifiers in the heap
that were given before. -/
theorem Consistent.other (h : Consistent acts t) (ha : ∀ name iden, a ≠ .named name iden)
    (hsound : Sound u) (hnames : u.names = t.names) (hidens : u.idens = t.idens)
    (hauto : t.auto ≤ u.auto) (hlive : ∀ iden : Int, iden ≤ t.auto → (Live iden u ↔ Live iden t)) :
    Consistent (acts ++ [a]) u where
  sound := hsound
  names_iff name iden := by
    rw [hnames, h.names_iff, mem_snoc (ha name)]
    exact and_congr_right fun hmem => (hlive iden (h.given name iden hmem)).symm
  idens_iff iden name := by rw [hidens, hnames, h.idens_iff]
  given name iden hmem := by
    have := h.given name iden ((mem_snoc (ha name)).mp hmem)
    omega
  last name iden hname := (h.last name iden (hnames ▸ hname)).snoc (ha name)

theorem clearName_idens (t : Timer κ ν) (gone iden : Int) (name : ν) :
    (t.clearName gone).idens iden = some name ↔ t.idens iden = some name ∧ iden ≠ gone := by
  unfold clearName
  split
  · by_cases heq : iden = gone
    · simp [heq]
    · simp [heq]
  · rename_i hnone
    refine (and_iff_left_of_imp fun hname heq => ?_).symm
    rw [heq, hnone] at hname
    cases hname

theorem clearName_names (h : ∀ iden name, t.idens iden = some name ↔ t.names name = some iden)
    (gone iden : Int) (name : ν) :
    (t.clearName gone).names name = some iden ↔ t.names name = some iden ∧ iden ≠ gone := by
  unfold clearName
  split
  · rename_i old hold
    have hgone := (h gone old).mp hold
    by_cases heq : name = old
    · subst heq
      simp only [Function.update_self, hgone, Option.some.injEq]
      exact iff_of_false (by simp) fun hboth => hboth.2 hboth.1.symm
    · simp only [Function.update_of_ne heq]
      refine (and_iff_left_of_imp fun hname hiden => heq ?_).symm
      have hidens := (h iden name).mpr hname
      rw [hiden, hold] at hidens
      exact (Option.some.inj hidens).symm
  · rename_i hnone
    refine (and_iff_left_of_imp fun hname hiden => ?_).symm
    have hidens := (h iden name).mpr hname
    rw [hiden, hnone] at hidens
    cases hidens

omit [DecidableEq ν] in
theorem Sound.live_erase {node : Node Nat Nat} (hs : Sound t) (hnode : node ∈ t.nodes)
    (hnodes : u.nodes = t.nodes.erase node) (iden : Int) :
    Live iden u ↔ Live iden t ∧ iden ≠ node.auto := by
  rw [Live, hnodes, Live]
  constructor
  · rintro ⟨m, hm, rfl⟩
    obtain ⟨hne, hm⟩ := hs.nodup.mem_erase_iff.mp hm
    exact ⟨⟨m, hm, rfl⟩, fun heq => hne (hs.eq_of_auto hm hnode heq)⟩
  · rintro ⟨⟨m, hm, rfl⟩, hne⟩
    refine ⟨m, hs.nodup.mem_erase_iff.mpr ⟨?_, hm⟩, rfl⟩
    rintro rfl
    exact hne rfl

theorem Consistent.clear (h : Consistent acts t) (ha : ∀ name iden, a ≠ .named name iden)
    {node : Node Nat Nat} (hnode : node ∈ t.nodes) {s : Timer κ ν}
    (hnodes : s.nodes = t.nodes.erase node) (hnames : s.names = t.names)
    (hidens : s.idens = t.idens) (hauto : s.auto = t.auto)
    (hsound : Sound (s.clearName node.auto)) :
    Consistent (acts ++ [a]) (s.clearName node.auto) := by
  have hinv : ∀ iden name, s.idens iden = some name ↔ s.names name = some iden := by
    rw [hnames, hidens]
    exact h.idens_iff
  have hlive : ∀ iden, Live iden (s.clearName node.auto) ↔ Live iden t ∧ iden ≠ node.auto :=
    h.sound.live_erase hnode (by rw [clearName_nodes, hnodes])
  refine ⟨hsound, fun name iden => ?_, fun iden name => ?_, fun name iden hmem => ?_,
    fun name iden hname => ?_⟩
  · rw [clearName_names hinv, hnames, h.names_iff, mem_snoc (ha name), hlive, and_assoc]
  · rw [clearName_idens, clearName_names hinv, hinv]
  · rw [clearName_auto, hauto]
    exact h.given name iden ((mem_snoc (ha name)).mp hmem)
  · rw [clearName_names hinv, hnames] at hname
    exact (h.last name iden hname.1).snoc (ha name)

omit [DecidableEq ν] in
theorem live_append (t : Timer κ ν) (elapse : Nat) (count : Option Int) (call : κ)
    (iden : Int) : Live iden (t.append elapse count call).2 ↔
      iden = (t.auto + 1 : Nat) ∨ Live iden t := by
  rw [Live, append_nodes, Live]
  constructor
  · rintro ⟨node, hnode, rfl⟩
    obtain rfl | hnode := List.mem_cons.mp hnode
    · exact .inl rfl
    · exact .inr ⟨node, hnode, rfl⟩
  · rintro (rfl | ⟨node, hnode, rfl⟩)
    · exact ⟨_, List.mem_cons_self, rfl⟩
    · exact ⟨node, List.mem_cons_of_mem _ hnode, rfl⟩

omit [DecidableEq ν] in
theorem append_names (t : Timer κ ν) (elapse : Nat) (count : Option Int) (call : κ) :
    (t.append elapse count call).2.names = t.names ∧
      (t.append elapse count call).2.idens = t.idens ∧
      (t.append elapse count call).2.auto = t.auto + 1 ∧
      (t.append elapse count call).1 = (t.auto + 1 : Nat) := by
  obtain ⟨r, store, -, hget⟩ | ⟨-, hget⟩ := t.get_cases
  · simp [Timer.append, hget]
  · simp [Timer.append, hget]

omit [DecidableEq ν] in
theorem Consistent.append (h : Consistent acts t) (elapse : Nat) (count : Option Int) (call : κ) :
    Consistent (acts ++ [.append]) (t.append elapse count call).2 := by
  obtain ⟨hnames, hidens, hauto, -⟩ := t.append_names elapse count call
  refine h.other (by simp) (h.sound.append elapse count call).1 hnames hidens (by omega)
    fun iden hle => ?_
  rw [live_append]
  exact or_iff_right (by omega)

omit [DecidableEq ν] in
theorem Consistent.dropName (h : Consistent acts t) (name : ν) :
    (t.dropName name).names = t.names ∧ (t.dropName name).auto = t.auto ∧
      (∀ iden, Live iden (t.dropName name) ↔ Live iden t ∧ t.names name ≠ some iden) ∧
      ∀ iden other, (t.dropName name).idens iden = some other ↔
        t.idens iden = some other ∧ other ≠ name := by
  unfold Timer.dropName
  split
  · rename_i node hsearch
    obtain ⟨hnode, hauto⟩ := search_eq_some hsearch
    have hiden := (h.idens_iff node.auto name).mpr hauto
    refine ⟨rfl, rfl, fun iden => ?_, fun iden other => ?_⟩
    · rw [h.sound.live_erase hnode rfl iden, hauto]
      simp [eq_comm]
    · by_cases heq : iden = node.auto
      · subst heq
        simp only [Function.update_self, hiden, Option.some.injEq]
        exact iff_of_false (by simp) fun hboth => hboth.2 hboth.1.symm
      · simp only [Function.update_of_ne heq]
        refine (and_iff_left_of_imp fun hother hname => heq ?_).symm
        have := (h.idens_iff iden other).mp hother
        rw [hname, hauto] at this
        exact (Option.some.inj this).symm
  · rename_i hsearch
    have hnone : t.names name = none := by
      cases hname : t.names name with
      | none => rfl
      | some iden =>
        obtain ⟨node, hnode, hauto⟩ := ((h.names_iff name iden).mp hname).2
        rw [hname] at hsearch
        exact absurd hauto (search_eq_none hsearch node hnode)
    refine ⟨rfl, rfl, fun iden => ?_, fun iden other => ?_⟩
    · simp [hnone]
    · refine (and_iff_left_of_imp fun hother hname => ?_).symm
      have := (h.idens_iff iden other).mp hother
      rw [hname, hnone] at this
      cases this

/-- The name is registered with the next identifier, and what it had before is gone. -/
structure Registered (t : Timer κ ν) (name : ν) (u : Timer κ ν) : Prop where
  auto : u.auto = t.auto + 1
  names : u.names = Function.update t.names name (some (t.auto + 1 : Nat))
  idens_self : u.idens (t.auto + 1 : Nat) = some name
  idens_other : ∀ (iden : Int) other, iden ≠ (t.auto + 1 : Nat) →
    (u.idens iden = some other ↔ t.idens iden = some other ∧ other ≠ name)
  live : ∀ iden : Int,
    Live iden u ↔ iden = (t.auto + 1 : Nat) ∨ Live iden t ∧ t.names name ≠ some iden

theorem appendBy_fst (t : Timer κ ν) (name : ν) (elapse : Nat) (count : Option Int) (call : κ) :
    (t.appendBy name elapse count call).1 = ((t.dropName name).auto + 1 : Nat) :=
  ((t.dropName name).append_names elapse count call).2.2.2

theorem Consistent.registered (h : Consistent acts t) (name : ν) (elapse : Nat)
    (count : Option Int) (call : κ) :
    Registered t name (t.appendBy name elapse count call).2 := by
  obtain ⟨hnames, hauto, hlive, hidens⟩ := h.dropName name
  obtain ⟨hnames', hidens', hauto', hiden⟩ := (t.dropName name).append_names elapse count call
  have hlive' := (t.dropName name).live_append elapse count call
  have hidensEq : (t.appendBy name elapse count call).2.idens =
      Function.update (t.dropName name).idens (t.auto + 1 : Nat) (some name) := by
    rw [← hauto, ← hiden, ← hidens']
    rfl
  refine ⟨?_, ?_, ?_, fun iden other hne => ?_, fun iden => ?_⟩
  · rw [← hauto, ← hauto']
    rfl
  · rw [← hnames, ← hauto, ← hiden, ← hnames']
    rfl
  · rw [hidensEq, Function.update_self]
  · rw [hidensEq, Function.update_of_ne hne, hidens]
  · rw [← hlive, ← hauto]
    exact hlive' iden

omit [DecidableEq ν] in
theorem Consistent.given_ne (h : Consistent acts t) {name : ν} {iden : Int}
    (hmem : .named name iden ∈ acts) : iden ≠ (t.auto + 1 : Nat) := by
  have := h.given name iden hmem
  omega

theorem Registered.names_iff {name : ν} (hr : Registered t name u) (h : Consistent acts t)
    (other : ν) (iden : Int) : u.names other = some iden ↔
      .named other iden ∈ acts ++ [.named name (t.auto + 1 : Nat)] ∧ Live iden u := by
  rw [hr.names, hr.live, List.mem_append, List.mem_singleton, Act.named.injEq]
  by_cases heq : other = name
  · subst heq
    rw [Function.update_self, Option.some.injEq]
    constructor
    · rintro rfl
      exact ⟨.inr ⟨rfl, rfl⟩, .inl rfl⟩
    · rintro ⟨hmem | ⟨-, hnew⟩, hnew' | ⟨hl, hne⟩⟩
      · exact hnew'.symm
      · exact absurd ((h.names_iff other iden).mpr ⟨hmem, hl⟩) hne
      · exact hnew'.symm
      · exact hnew.symm
  · rw [Function.update_of_ne heq, h.names_iff]
    constructor
    · rintro ⟨hmem, hl⟩
      refine ⟨.inl hmem, .inr ⟨hl, fun hname => heq ?_⟩⟩
      have hother := (h.idens_iff iden other).mpr ((h.names_iff other iden).mpr ⟨hmem, hl⟩)
      rw [(h.idens_iff iden name).mpr hname] at hother
      exact (Option.some.inj hother).symm
    · rintro ⟨hmem | ⟨hname, -⟩, hnew | ⟨hl, -⟩⟩
      · exact absurd hnew (h.given_ne hmem)
      · exact ⟨hmem, hl⟩
      · exact absurd hname heq
      · exact absurd hname heq

theorem Registered.idens_iff {name : ν} (hr : Registered t name u) (h : Consistent acts t)
    (iden : Int) (other : ν) : u.idens iden = some other ↔ u.names other = some iden := by
  by_cases hnew : iden = (t.auto + 1 : Nat)
  · subst hnew
    rw [hr.names, hr.idens_self, Option.some.injEq]
    by_cases heq : other = name
    · subst heq
      exact iff_of_true rfl (Function.update_self ..)
    · rw [Function.update_of_ne heq]
      exact iff_of_false (Ne.symm heq) fun hname =>
        h.given_ne ((h.names_iff other _).mp hname).1 rfl
  · rw [hr.names, hr.idens_other iden other hnew, h.idens_iff]
    by_cases heq : other = name
    · subst heq
      rw [Function.update_self, Option.some.injEq]
      exact iff_of_false (fun hboth => hboth.2 rfl) (Ne.symm hnew)
    · rw [Function.update_of_ne heq]
      exact and_iff_left heq

theorem Consistent.appendBy (h : Consistent acts t) (name : ν) (elapse : Nat)
    (count : Option Int) (call : κ) :
    Consistent (acts ++ [.named name (t.appendBy name elapse count call).1])
      (t.appendBy name elapse count call).2 := by
  have hr := h.registered name elapse count call
  have hsound := ((h.sound.dropName name).append elapse count call).1
  rw [appendBy_fst, (h.dropName name).2.1]
  refine ⟨⟨hsound.autos, hsound.autos_le, hsound.datas, hsound.below⟩, hr.names_iff h,
    hr.idens_iff h, fun other iden hmem => ?_, fun other iden hname => ?_⟩
  · rw [hr.auto]
    obtain hmem | hmem := List.mem_append.mp hmem
    · have := h.given other iden hmem
      omega
    · rw [(Act.named.inj (List.mem_singleton.mp hmem)).2]
  · rw [hr.names] at hname
    by_cases heq : other = name
    · subst heq
      rw [Function.update_self, Option.some.injEq] at hname
      exact ⟨acts, [], by rw [hname], fun _ => List.not_mem_nil⟩
    · rw [Function.update_of_ne heq] at hname
      exact (h.last other iden hname).snoc fun _ hact => heq (Act.named.inj hact).1.symm

theorem Consistent.remove (h : Consistent acts t) (iden : Int) :
    Consistent (acts ++ [.remove iden]) (t.remove iden) := by
  have hsound := h.sound.remove iden
  unfold Timer.remove at hsound ⊢
  split
  · rename_i node hsearch
    obtain ⟨hnode, hauto⟩ := search_eq_some hsearch
    obtain rfl := Option.some.inj hauto
    rw [hsearch] at hsound
    exact h.clear (by simp) hnode rfl rfl rfl rfl hsound
  · exact h.other (by simp) h.sound rfl rfl (Nat.le_refl _) fun _ _ => Iff.rfl

theorem Consistent.execute (h : Consistent acts t) {rede : Option (Node Nat Nat)}
    (hrede : ∀ node ∈ rede, node ∈ t.nodes) :
    Consistent (acts ++ [.execute]) (t.execute rede).2 := by
  have hsame : Consistent (acts ++ [.execute]) t :=
    h.other (by simp) h.sound rfl rfl (Nat.le_refl _) fun _ _ => Iff.rfl
  cases hcall : (t.execute rede).1 with
  | none => rwa [(execute_idle hcall).1]
  | some call =>
    cases rede with
    | none => cases hcall
    | some rede =>
      have hnode := hrede rede rfl
      have hsound := h.sound.called hnode hcall
      obtain ⟨hle, -, -, hauto, -, hnodes⟩ := execute_called hcall
      obtain ⟨hzero, -, -⟩ | ⟨hzero, hnodes, -⟩ := hnodes
      · rw [execute_last hle hzero] at hsound ⊢
        exact h.clear (by simp) hnode rfl rfl rfl rfl hsound
      · have hlive : ∀ iden, Live iden (t.execute (some rede)).2 ↔ Live iden t := by
          intro iden
          have hperm := (List.perm_cons_erase hnode).map Node.auto
          rw [Live, Live, hnodes]
          have hautos : ({ rede with ticks := rede.ticks + (t.items rede.data).elapse } ::
              t.nodes.erase rede).map Node.auto = (rede :: t.nodes.erase rede).map Node.auto := rfl
          rw [← List.mem_map, ← List.mem_map, hautos, ← hperm.mem_iff]
        rw [execute_again hle hzero] at hsound hlive ⊢
        exact h.other (by simp) hsound rfl rfl (Nat.le_refl _) fun iden _ => hlive iden

omit [DecidableEq ν] in
theorem Consistent.dataClear (h : Consistent acts t) :
    Consistent (acts ++ [.dataClear]) t.dataClear := by
  have hstore : t.store.Sublist (t.nodes.map Node.data ++ t.store) := List.sublist_append_right _ _
  refine ⟨⟨List.nodup_nil, fun _ hnode => absurd hnode List.not_mem_nil, ?_, fun r hr => ?_⟩,
    fun name iden => ?_, fun iden name => ?_, fun name iden hmem => ?_, fun name iden hname => ?_⟩
  · exact h.sound.datas.sublist hstore
  · exact h.sound.below r (hstore.subset hr)
  · refine iff_of_false (by simp [Timer.dataClear]) ?_
    rintro ⟨-, node, hnode, -⟩
    cases hnode
  · simp [Timer.dataClear]
  · exact h.given name iden ((mem_snoc (by simp)).mp hmem)
  · cases hname

omit [DecidableEq ν] in
theorem live_uPause (t : Timer κ ν) (iden : Int) : Live iden t.uPause ↔ Live iden t := by
  unfold Timer.uPause
  split
  · rw [Live, Live, ← List.mem_map, ← List.mem_map]
    simp [poling]
  · rfl

omit [DecidableEq ν] in
theorem uPause_names (t : Timer κ ν) :
    t.uPause.names = t.names ∧ t.uPause.idens = t.idens ∧ t.uPause.auto = t.auto := by
  unfold Timer.uPause
  split
  · simp [poling]
  · simp

omit [DecidableEq ν] in
theorem pause_cases (t : Timer κ ν) : t.pause = t ∨ t.pause = { t with pauset := some t.now } := by
  unfold Timer.pause
  split
  · exact .inr rfl
  · exact .inl rfl

theorem Consistent.step (h : Consistent acts t) (hstep : Acts t a u) :
    Consistent (acts ++ [a]) u := by
  have hsame : ∀ v : Timer κ ν, v.nodes = t.nodes → ∀ iden : Int, Live iden v ↔ Live iden t := by
    intro v hnodes iden
    rw [Live, hnodes, Live]
  have hs := h.sound
  cases hstep with
  | clock now =>
    exact h.other (by simp) ⟨hs.autos, hs.autos_le, hs.datas, hs.below⟩ rfl rfl (Nat.le_refl _)
      fun iden _ => hsame _ rfl iden
  | append elapse count call => exact h.append elapse count call
  | appendBy name elapse count call => exact h.appendBy name elapse count call
  | appendEverBy name elapse call => exact h.appendBy name elapse none call
  | remove iden => exact h.remove iden
  | execute rede hrede => exact h.execute hrede
  | dataClear => exact h.dataClear
  | pause =>
    obtain heq | heq := t.pause_cases
    · rw [heq]
      exact h.other (by simp) hs rfl rfl (Nat.le_refl _) fun iden _ => Iff.rfl
    · rw [heq]
      exact h.other (by simp) ⟨hs.autos, hs.autos_le, hs.datas, hs.below⟩ rfl rfl (Nat.le_refl _)
        fun iden _ => hsame _ rfl iden
  | uPause =>
    obtain ⟨hnames, hidens, hauto⟩ := t.uPause_names
    exact h.other (by simp) hs.uPause hnames hidens hauto.ge fun iden _ => t.live_uPause iden

theorem Consistent.run {now : Nat} {items : Nat → Item κ}
    (hrun : Run Acts (Timer.new now items) acts t) : Consistent acts t := by
  generalize hfirst : (Timer.new now items : Timer κ ν) = first at hrun
  induction hrun with
  | nil => exact hfirst ▸ .new now items
  | snoc _ hstep ih => exact ih.step hstep

omit [DecidableEq ν] in
theorem Consistent.remainingBy_zero (h : Consistent acts t) {name : ν}
    (hgone : ∀ iden : Int, .named name iden ∈ acts → ¬ Live iden t) : t.remainingBy name = 0 := by
  have hnone : t.names name = none := by
    rw [Option.eq_none_iff_forall_ne_some]
    intro iden hname
    obtain ⟨hmem, hlive⟩ := (h.names_iff name iden).mp hname
    exact hgone iden hmem hlive
  rw [Timer.remainingBy, hnone]
  rfl

omit [DecidableEq ν] in
theorem Consistent.remainingBy_ticks (h : Consistent acts t) {name : ν} {node : Node Nat Nat}
    (hmem : .named name node.auto ∈ acts) (hnode : node ∈ t.nodes) :
    t.remainingBy name = (node.ticks : Int) - (t.pauset.getD t.now : Nat) := by
  have hname := (h.names_iff name node.auto).mpr ⟨hmem, node, hnode, rfl⟩
  have hsearch : t.search (some node.auto) = some node := by
    cases hfound : t.search (some node.auto) with
    | none => exact absurd rfl (search_eq_none hfound node hnode)
    | some other =>
      obtain ⟨hother, hauto⟩ := search_eq_some hfound
      rw [h.sound.eq_of_auto hother hnode (Option.some.inj hauto).symm]
  rw [Timer.remainingBy, hname, Timer.remaining, hsearch]

/-- However often the timer is called, and in whatever order: `_names` and `_idens` are inverse, an
identifier in them is that of one node, and of the registrations with a name the last one alone can
have a node.  `remainingBy` gives what its ticks have left, and 0 if it has none. -/
theorem names_consistent {now : Nat} {items : Nat → Item κ}
    (hrun : Run Acts (new now items) acts t) :
    (∀ name iden, t.names name = some iden ↔ t.idens iden = some name) ∧
      (∀ iden name, t.idens iden = some name → (t.nodes.map Node.auto).count iden = 1) ∧
      (∀ name (i j : Int), .named name i ∈ acts → Live i t → .named name j ∈ acts → Live j t →
        i = j) ∧
      (∀ name, (∀ iden : Int, .named name iden ∈ acts → ¬ Live iden t) →
        t.remainingBy name = 0) ∧
      ∀ name, ∀ node ∈ t.nodes, .named name node.auto ∈ acts →
        Last name node.auto acts ∧
          t.remainingBy name = (node.ticks : Int) - (t.pauset.getD t.now : Nat) := by
  have h := Consistent.run hrun
  refine ⟨fun name iden => (h.idens_iff iden name).symm, fun iden name hiden => ?_,
    fun name i j hi hlivei hj hlivej => ?_, fun name hgone => h.remainingBy_zero hgone,
    fun name node hnode hmem => ⟨?_, h.remainingBy_ticks hmem hnode⟩⟩
  · obtain ⟨-, node, hnode, rfl⟩ :=
      (h.names_iff name iden).mp ((h.idens_iff iden name).mp hiden)
    exact List.count_eq_one_of_mem h.sound.autos (List.mem_map_of_mem hnode)
  · have hnamei := (h.names_iff name i).mpr ⟨hi, hlivei⟩
    have hnamej := (h.names_iff name j).mpr ⟨hj, hlivej⟩
    exact Option.some.inj (hnamei.symm.trans hnamej)
  · exact h.last name _ ((h.names_iff name _).mpr ⟨hmem, node, hnode, rfl⟩)

/-- A name that is registered a second time has the second registration. -/
theorem names_consistent_again : ∃ t : Timer Unit Unit,
    Run Acts (new 5 fun _ => ⟨0, none, ()⟩) [.named () 1, .named () 2] t ∧
      t.names () = some 2 ∧ t.remainingBy () = 7 := by
  let t : Timer Unit Unit := new 5 fun _ => ⟨0, none, ()⟩
  have hfirst : Acts t (.named () 1) (t.appendBy () 30 (some 1) ()).2 :=
    .appendBy () 30 (some 1) ()
  have hsecond : Acts (t.appendBy () 30 (some 1) ()).2 (.named () 2) _ := .appendEverBy () 7 ()
  have hrun : Run Acts t [.named () 1, .named () 2] _ := .snoc (.single hfirst) hsecond
  have hticks := ((names_consistent hrun).2.2.2.2 () ⟨12, 2, 1⟩ (List.mem_singleton.mpr rfl)
    (by simp)).2
  exact ⟨_, hrun, rfl, hticks⟩

end XsServer.Custom.Timer
