import XsServer.Gate.Login

/-! Whether the login service and the clubs agree with the gate on who is online.  What the services
are about to do with their messages is done at once in a view of them, which their own steps do not
change. -/

namespace XsServer.Gate

open Club

variable {ι : Type*} [DecidableEq ι]

section Shown

variable {p : Presence ι} {isMember : ι → Prop} {logged logged' : Nat → ι → Prop} {rid : ι}

theorem Follows.enter (h : Follows p isMember logged) {fd n : Nat} (hn : 0 < n ↔ isMember rid)
    (hnew : logged' fd rid) (hrid : ∀ x, logged x rid → logged' x rid)
    (hsame : ∀ x y, y ≠ rid → (logged' x y ↔ logged x y)) :
    Follows ((Presence.enter rid fd)^[n] p) isMember logged' := by
  intro y
  rw [(Presence.iterate_enter rid fd n p).2 y]
  by_cases hy : y = rid
  · subst hy
    by_cases hpos : 0 < n
    · rw [if_pos ⟨rfl, hpos⟩]
      refine ⟨iff_of_true rfl ⟨hn.mp hpos, fd, hnew⟩, ?_⟩
      rintro _ ⟨⟩
      exact hnew
    · rw [if_neg fun h => hpos h.2]
      have hnot : ¬ isMember y := fun h => hpos (hn.mpr h)
      refine ⟨(h y).1.trans (by simp [hnot]), fun x hx => hrid x ((h y).2 x hx)⟩
  · rw [if_neg fun h => hy h.1]
    simp only [hsame _ y hy]
    exact h y

theorem Follows.leave (h : Follows p isMember logged) {n : Nat} (hn : 0 < n ↔ isMember rid)
    (hnone : ∀ x, ¬ logged' x rid) (hsame : ∀ x y, y ≠ rid → (logged' x y ↔ logged x y)) :
    Follows ((Presence.leave rid)^[n] p) isMember logged' := by
  intro y
  rw [(Presence.iterate_leave rid n p).2 y]
  by_cases hy : y = rid
  · subst hy
    have hmapping : (if y = y ∧ 0 < n then none else p.onlineMapping y) = none := by
      split
      case isTrue => rfl
      case isFalse hpos =>
        have hnot : ¬ isMember y := fun h => hpos ⟨rfl, hn.mpr h⟩
        by_contra hsome
        exact hnot ((h y).1.mp (Option.isSome_iff_ne_none.mpr hsome)).1
    rw [hmapping]
    simp [hnone]
  · rw [if_neg fun h => hy h.1]
    simp only [hsame _ y hy]
    exact h y

variable {s : Clubmanager ι}

theorem Shown.visit (h : Shown s logged) (hload : s.offAll.Loaded) (hfound : s.Found rid)
    (change : Presence ι → Presence ι)
    (hchange : ∀ p isMember n, (0 < n ↔ isMember rid) → Follows p isMember logged →
      Follows (change^[n] p) isMember logged') :
    Shown (s.visit change (s.memberships rid)).1 logged' := by
  rw [hfound.visit hload]
  constructor
  · intro c data hdata
    refine hchange _ _ _ ?_ (h.clubs c data hdata)
    rw [List.count_pos_iff, hfound.clubs c data hdata, Reported.exists_membership]
    exact Iff.rfl
  · intro a info hinfo
    refine hchange _ _ _ ?_ (h.admins a info hinfo)
    rw [List.count_pos_iff, hfound.admins a info hinfo, Reported.exists_membership]
    exact Iff.rfl

theorem Shown.online (h : Shown s logged) (hload : s.offAll.Loaded) (hfound : s.Found rid)
    {fd : Nat} (hnew : logged' fd rid) (hrid : ∀ x, logged x rid → logged' x rid)
    (hsame : ∀ x y, y ≠ rid → (logged' x y ↔ logged x y)) :
    Shown (tellClubs s (.online rid fd)) logged' := by
  rw [tellClubs, hload.online_eq]
  exact h.visit hload hfound _ fun _ _ _ hn hp => hp.enter hn hnew hrid hsame

theorem Shown.offline (h : Shown s logged) (hload : s.offAll.Loaded) (hfound : s.Found rid)
    (hnone : ∀ x, ¬ logged' x rid) (hsame : ∀ x y, y ≠ rid → (logged' x y ↔ logged x y)) :
    Shown (tellClubs s (.offline rid)) logged' := by
  rw [tellClubs, hload.offline_eq]
  exact h.visit hload hfound _ fun _ _ _ hn hp => hp.leave hn hnone hsame

theorem tellClubs_offAll (s : Clubmanager ι) (n : Notice ι) :
    (tellClubs s n).offAll = s.offAll := by
  cases n with
  | online rid fd =>
    rw [tellClubs, Clubmanager.online]
    split
    · rfl
    · exact Clubmanager.visit_offAll ..
  | offline rid =>
    rw [tellClubs, Clubmanager.offline]
    split
    · rfl
    · exact Clubmanager.visit_offAll ..

theorem tellClubs_found (n : Notice ι) : (tellClubs s n).Found rid ↔ s.Found rid := by
  rw [← Clubmanager.found_offAll, tellClubs_offAll, Clubmanager.found_offAll]

end Shown

/-! ### The view -/

/-- What comes of the messages of the login service, and what it sends. -/
def Loginmanager.drain (l : Loginmanager ι) :
    List (LoginMessage ι) → Loginmanager ι × List (GateMessage ι)
  | [] => (l, [])
  | m :: ms =>
    (((l.handle m).1.drain ms).1, (l.handle m).2.toList ++ ((l.handle m).1.drain ms).2)

theorem Loginmanager.drain_snoc (l : Loginmanager ι) (ms : List (LoginMessage ι))
    (m : LoginMessage ι) : l.drain (ms ++ [m]) = (((l.drain ms).1.handle m).1,
      (l.drain ms).2 ++ ((l.drain ms).1.handle m).2.toList) := by
  induction ms generalizing l with
  | nil => simp [drain]
  | cons m' ms ih => simp [drain, ih]

def GateMessage.login? : GateMessage ι → Option (Nat × ι)
  | .loginSuccessfully fd rid => some (fd, rid)
  | .loginDone _ => none
  | .done _ => none

def GateMessage.told? : GateMessage ι → Option (Notice ι)
  | .loginSuccessfully .. => none
  | .loginDone n => some n
  | .done _ => none

/-- The services with the messages of the login service and the clubs processed, and the logins that
the gate is still to get. -/
structure View (ι : Type*) where
  connected : Nat → Bool
  clientLis : Nat → Option ι
  logins : List (Nat × ι)
  login : Loginmanager ι
  clubs : Clubmanager ι

namespace Services

/-- What the gate is still to get, apart from answers of the clubs. -/
def coming (s : Services ι) : List (GateMessage ι) := s.gateBox ++ (s.login.drain s.loginBox).2

def view (s : Services ι) : View ι where
  connected := s.connected
  clientLis := s.clientLis
  logins := s.waiting ++ s.coming.filterMap GateMessage.login?
  login := (s.login.drain s.loginBox).1
  clubs := (s.clubBox ++ s.coming.filterMap GateMessage.told?).foldl tellClubs s.clubs

/-- A login comes from a connection that is there, of a user whose agents are found; and no
connection closes while a login of it that the login service accepts is on its way, or while another
connection is logged in as its user. -/
def Calm (s : Services ι) : Happening ι → Prop
  | .connect _ => True
  | .message fd login => ∀ rid, login = some rid → s.view.login.repeatLogin fd = false →
      s.connected fd = true ∧ s.clubs.Found rid
  | .close fd => (∀ rid, (fd, rid) ∉ s.view.logins) ∧
      ∀ rid x, s.clientLis fd = some rid → s.clientLis x = some rid → x = fd
  | .takeGate => True
  | .takeLogin => True
  | .takeClubs => True

end Services

namespace View

def tell (v : View ι) (n : Notice ι) : View ι :=
  match v.login.tell n with
  | none => v
  | some login => { v with login, clubs := tellClubs v.clubs n }

/-- A login comes to the gate, and these are still to come. -/
def succeed (v : View ι) (logins : List (Nat × ι)) (fd : Nat) (rid : ι) : View ι :=
  { v with logins, clientLis := Function.update v.clientLis fd (some rid) }.tell (.online rid fd)

end View

namespace Services

variable {s : Services ι}

theorem view_notice (s : Services ι) (n : Notice ι) :
    view { s with loginBox := s.loginBox ++ [.notice n] } = s.view.tell n := by
  unfold view View.tell coming
  simp only [Loginmanager.drain_snoc, Loginmanager.handle]
  cases (s.login.drain s.loginBox).1.tell n with
  | none | some login => simp [List.filterMap_cons, GateMessage.login?, GateMessage.told?]

theorem view_takeLogin (s : Services ι) : s.takeLogin.view = s.view := by
  unfold takeLogin
  split
  · rfl
  case h_2 m loginBox hbox => simp [view, coming, hbox, Loginmanager.drain]

theorem view_takeClubs (s : Services ι) : s.takeClubs.view = s.view := by
  unfold takeClubs
  split
  · rfl
  case h_2 n clubBox hbox =>
    simp [view, coming, hbox, List.filterMap_cons, GateMessage.login?, GateMessage.told?]

theorem view_succeed (t : Services ι) (fd : Nat) (rid : ι) :
    (t.loginSuccessfully fd rid).view = t.view.succeed t.view.logins fd rid :=
  view_notice { t with clientLis := Function.update t.clientLis fd (some rid), busy := true } _

theorem view_takeGate (s : Services ι) : s.takeGate.view = s.view ∨
    ∃ fd rid logins, s.view.logins.Perm ((fd, rid) :: logins) ∧
      s.takeGate.view = s.view.succeed logins fd rid := by
  unfold takeGate
  split
  case h_1 => exact .inl rfl
  case h_2 fd rid gateBox hbox =>
    split
    · exact .inl (by
        simp [view, coming, hbox, List.filterMap_cons, GateMessage.login?, GateMessage.told?])
    · refine .inr ⟨fd, rid, (view { s with gateBox }).logins, ?_,
        (view_succeed { s with gateBox } fd rid).trans ?_⟩
      · simp only [view, coming, hbox, List.cons_append, List.filterMap_cons, GateMessage.login?]
        exact List.perm_middle
      · simp [view, coming, hbox, View.succeed, List.filterMap_cons, GateMessage.told?]
  case h_3 n gateBox hbox =>
    exact .inl (by
      simp [view, coming, hbox, List.filterMap_cons, GateMessage.login?, GateMessage.told?])
  case h_4 gateBox hbox =>
    split
    · exact .inl (by
        simp [view, coming, hbox, List.filterMap_cons, GateMessage.login?, GateMessage.told?])
    · rename_i fd rid waiting hwaiting
      refine .inr ⟨fd, rid, (view { s with gateBox, waiting }).logins, ?_,
        (view_succeed { s with gateBox, waiting } fd rid).trans ?_⟩
      · simp only [view, coming, hbox, hwaiting, List.cons_append, List.filterMap_cons,
          GateMessage.login?]
        exact List.Perm.refl _
      · simp [view, coming, hbox, View.succeed, List.filterMap_cons, GateMessage.told?]
  case h_5 gateBox hbox =>
    exact .inl (by
      simp [view, coming, hbox, List.filterMap_cons, GateMessage.login?, GateMessage.told?])

theorem view_offline (s : Services ι) (fd : Nat) : (s.offline fd).view =
    match s.clientLis fd with
    | none => s.view
    | some rid => View.tell { s.view with clientLis := Function.update s.clientLis fd none }
        (.offline rid) := by
  unfold offline
  cases s.clientLis fd with
  | none => rfl
  | some rid => exact view_notice { s with clientLis := Function.update s.clientLis fd none } _

theorem view_message (s : Services ι) (fd : Nat) (login : Option ι) :
    view { s with loginBox := s.loginBox ++ [.message fd login] } =
      if s.view.login.repeatLogin fd then s.view
      else
        match login with
        | none => s.view
        | some rid => { s.view with
            login := s.view.login.loginSuccessfully fd rid
            logins := s.view.logins ++ [(fd, rid)] } := by
  unfold view coming
  simp only [Loginmanager.drain_snoc, Loginmanager.handle, Loginmanager.login]
  split
  · simp
  · cases login with
    | none => simp
    | some rid => simp [List.filterMap_cons, GateMessage.login?, GateMessage.told?]

end Services

/-! ### The invariant -/

namespace View

/-- The connection is logged in as the user, or its login is on its way. -/
def Has (v : View ι) (fd : Nat) (rid : ι) : Prop :=
  v.clientLis fd = some rid ∨ (fd, rid) ∈ v.logins

structure Inv (v : View ι) : Prop where
  loaded : v.clubs.offAll.Loaded
  found : ∀ fd rid, v.Has fd rid → v.clubs.Found rid
  connected : ∀ fd rid, v.Has fd rid → v.connected fd = true
  clients : ∀ fd rid, v.Has fd rid → v.login.clients rid ≠ none
  sockets : ∀ fd rid, v.Has fd rid → v.login.sockets fd ≠ none
  apart : ∀ fd rid, (fd, rid) ∈ v.logins → v.clientLis fd = none
  once : (v.logins.map Prod.fst).Nodup
  -- a login that is on its way has taken the place of the one before it
  login : ∀ rid, (∃ fd, (fd, rid) ∈ v.logins) ∨
    (v.login.clients rid = some (some true) ↔ ∃ fd, v.clientLis fd = some rid)
  shown : Shown v.clubs fun fd rid => v.clientLis fd = some rid

variable {v : View ι}

theorem not_has_start {clubs : Clubmanager ι} {fd : Nat} {rid : ι} :
    ¬ (Services.start clubs).view.Has fd rid := by
  simp [Has, Services.view, Services.coming, Services.start, Loginmanager.drain]

theorem Inv.start {clubs : Clubmanager ι} (h : clubs.Loaded) : (Services.start clubs).view.Inv where
  loaded := { h with clubOnline := fun _ => rfl, adminOnline := fun _ => rfl }
  found _ _ h := absurd h not_has_start
  connected _ _ h := absurd h not_has_start
  clients _ _ h := absurd h not_has_start
  sockets _ _ h := absurd h not_has_start
  apart _ _ h := absurd (.inr h) not_has_start
  once := .nil
  login rid := by simp [Services.view, Services.start, Loginmanager.drain]
  shown := by
    have hempty : ∀ isMember, Follows (Presence.empty : Presence ι) isMember
        fun fd rid => (fun _ => none : Nat → Option ι) fd = some rid := by
      intro isMember rid
      simp [Presence.empty]
    constructor
    · intro c data _
      simpa [Services.view, Services.coming, Services.start, Loginmanager.drain,
        h.clubOnline] using hempty _
    · intro a info _
      simpa [Services.view, Services.coming, Services.start, Loginmanager.drain,
        h.adminOnline] using hempty _

theorem Inv.connect (hi : v.Inv) (fd : Nat) :
    Inv { v with connected := Function.update v.connected fd true } :=
  { hi with
    connected := fun x rid h => by
      simp only [Function.update_apply]
      split
      · rfl
      · exact hi.connected x rid h }

theorem Inv.message (hi : v.Inv) {fd : Nat} {rid : ι} (hnew : v.login.sockets fd = none)
    (hconnected : v.connected fd = true) (hfound : v.clubs.Found rid) :
    Inv { v with
      login := v.login.loginSuccessfully fd rid
      logins := v.logins ++ [(fd, rid)] } := by
  have hno : ∀ y, ¬ v.Has fd y := fun y h => hi.sockets fd y h hnew
  have hhas : ∀ x y, Has { v with
      login := v.login.loginSuccessfully fd rid
      logins := v.logins ++ [(fd, rid)] } x y → v.Has x y ∨ x = fd ∧ y = rid := by
    rintro x y (h | h)
    · exact .inl (.inl h)
    · obtain h | h := List.mem_append.mp h
      · exact .inl (.inr h)
      · simpa using Or.inr (List.mem_singleton.mp h)
  constructor
  · exact hi.loaded
  · intro x y h
    obtain h | ⟨rfl, rfl⟩ := hhas x y h
    · exact hi.found x y h
    · exact hfound
  · intro x y h
    obtain h | ⟨rfl, rfl⟩ := hhas x y h
    · exact hi.connected x y h
    · exact hconnected
  · intro x y h
    simp only [Loginmanager.loginSuccessfully, Function.update_apply]
    split
    · simp
    case isFalse hne =>
      obtain h | ⟨-, rfl⟩ := hhas x y h
      · exact hi.clients x y h
      · exact absurd rfl hne
  · intro x y h
    simp only [Loginmanager.loginSuccessfully, Function.update_apply]
    split
    · simp
    case isFalse hne =>
      obtain h | ⟨rfl, -⟩ := hhas x y h
      · exact hi.sockets x y h
      · exact absurd rfl hne
  · intro x y h
    obtain h | h := List.mem_append.mp h
    · exact hi.apart x y h
    · obtain ⟨rfl, rfl⟩ := Prod.mk.inj (List.mem_singleton.mp h)
      by_contra hsome
      obtain ⟨z, hz⟩ := Option.ne_none_iff_exists'.mp hsome
      exact hno z (.inl hz)
  · rw [List.map_append]
    refine List.nodup_append.mpr ⟨hi.once, List.nodup_singleton _, ?_⟩
    rintro _ hx _ hy rfl
    obtain ⟨⟨x, y⟩, hxy, rfl⟩ := List.mem_map.mp hx
    obtain rfl : x = fd := by simpa using hy
    exact hno y (.inr hxy)
  · intro y
    by_cases hy : y = rid
    · exact .inl ⟨fd, by simp [hy]⟩
    · obtain ⟨x, hx⟩ | h := hi.login y
      · exact .inl ⟨x, List.mem_append_left _ hx⟩
      · exact .inr (by simpa [Loginmanager.loginSuccessfully, Function.update_of_ne hy] using h)
  · exact hi.shown

theorem tell_online {rid : ι} (h : v.login.clients rid ≠ none) (fd : Nat) :
    v.tell (.online rid fd) = { v with
      login := { v.login with clients := Function.update v.login.clients rid (some (some true)) }
      clubs := tellClubs v.clubs (.online rid fd) } := by
  obtain ⟨online, honline⟩ := Option.ne_none_iff_exists'.mp h
  simp only [tell, Loginmanager.tell, Loginmanager.setOnline, honline]

theorem tell_offline {rid : ι} (h : v.login.clients rid ≠ none) :
    v.tell (.offline rid) = { v with
      login := { v.login with clients := Function.update v.login.clients rid (some (some false)) }
      clubs := tellClubs v.clubs (.offline rid) } := by
  obtain ⟨online, honline⟩ := Option.ne_none_iff_exists'.mp h
  simp only [tell, Loginmanager.tell, Loginmanager.setOnline, honline]

theorem Inv.succeed (hi : v.Inv) {fd : Nat} {rid : ι} {logins : List (Nat × ι)}
    (hperm : v.logins.Perm ((fd, rid) :: logins)) : (v.succeed logins fd rid).Inv := by
  have hmem : (fd, rid) ∈ v.logins := hperm.mem_iff.mpr List.mem_cons_self
  have hrest : ∀ x ∈ logins, x ∈ v.logins := fun x hx =>
    hperm.mem_iff.mpr (List.mem_cons_of_mem _ hx)
  have hnone := hi.apart fd rid hmem
  have honce := (hperm.map Prod.fst).nodup_iff.mp hi.once
  have hclients := hi.clients fd rid (.inr hmem)
  have hfound := hi.found fd rid (.inr hmem)
  have hloaded : (tellClubs v.clubs (.online rid fd)).offAll.Loaded := by
    rw [tellClubs_offAll]
    exact hi.loaded
  have hkept : ∀ y, v.clubs.Found y → (tellClubs v.clubs (.online rid fd)).Found y := fun y =>
    (tellClubs_found _).mpr
  rw [View.succeed, tell_online (v := { v with
    logins, clientLis := Function.update v.clientLis fd (some rid) }) hclients]
  have hhas : ∀ x y, Has { v with
      logins
      clientLis := Function.update v.clientLis fd (some rid)
      login := { v.login with clients := Function.update v.login.clients rid (some (some true)) }
      clubs := tellClubs v.clubs (.online rid fd) } x y → v.Has x y := by
    rintro x y (h | h)
    · simp only [Function.update_apply] at h
      split at h
      case isTrue hx =>
        rw [hx, ← Option.some.inj h]
        exact .inr hmem
      case isFalse => exact .inl h
    · exact .inr (hrest _ h)
  constructor
  · exact hloaded
  · exact fun x y h => hkept y (hi.found x y (hhas x y h))
  · exact fun x y h => hi.connected x y (hhas x y h)
  · intro x y h
    simp only [Function.update_apply]
    split
    · simp
    · exact hi.clients x y (hhas x y h)
  · exact fun x y h => hi.sockets x y (hhas x y h)
  · intro x y h
    have hne : x ≠ fd := by
      rintro rfl
      exact (List.nodup_cons.mp honce).1 (List.mem_map.mpr ⟨_, h, rfl⟩)
    simp only [Function.update_of_ne hne]
    exact hi.apart x y (hrest _ h)
  · exact (List.nodup_cons.mp honce).2
  · intro y
    by_cases hy : y = rid
    · subst hy
      exact .inr (iff_of_true (Function.update_self ..) ⟨fd, Function.update_self ..⟩)
    · obtain ⟨x, hx⟩ | h := hi.login y
      · obtain heq | hx := List.mem_cons.mp (hperm.mem_iff.mp hx)
        · exact absurd (Prod.mk.inj heq).2 hy
        · exact .inl ⟨x, hx⟩
      · refine .inr ?_
        simp only [Function.update_of_ne hy, h]
        refine exists_congr fun x => ?_
        rw [Function.update_apply]
        split
        case isTrue hx =>
          subst hx
          simp [hnone, Ne.symm hy]
        case isFalse => rfl
  · refine hi.shown.online hi.loaded hfound (Function.update_self ..) (fun x hx => ?_)
      fun x y hy => ?_
    · simp only [Function.update_apply]
      split
      · rfl
      · exact hx
    · simp only [Function.update_apply]
      split
      case isTrue hx =>
        subst hx
        simp [hnone, Ne.symm hy]
      case isFalse => rfl

theorem Inv.unlogged (hi : v.Inv) {fd : Nat} (hno : ∀ rid, ¬ v.Has fd rid) :
    Inv { v with connected := Function.update v.connected fd false } :=
  { hi with
    connected := fun x rid h => by
      simp only [Function.update_apply]
      split
      case isTrue hx => exact absurd (hx ▸ h) (hno rid)
      case isFalse => exact hi.connected x rid h }

theorem Inv.close (hi : v.Inv) {fd : Nat} {rid : ι} (hrid : v.clientLis fd = some rid)
    (hnot : ∀ y, (fd, y) ∉ v.logins) (honly : ∀ x, v.clientLis x = some rid → x = fd) :
    Inv (tell { v with
      connected := Function.update v.connected fd false
      clientLis := Function.update v.clientLis fd none } (.offline rid)) := by
  have hfound := hi.found fd rid (.inl hrid)
  have hloaded : (tellClubs v.clubs (.offline rid)).offAll.Loaded := by
    rw [tellClubs_offAll]
    exact hi.loaded
  have hkept : ∀ y, v.clubs.Found y → (tellClubs v.clubs (.offline rid)).Found y := fun y =>
    (tellClubs_found _).mpr
  rw [tell_offline (v := { v with
    connected := Function.update v.connected fd false
    clientLis := Function.update v.clientLis fd none }) (hi.clients fd rid (.inl hrid))]
  have hlis : ∀ x y, Function.update v.clientLis fd none x = some y ↔
      x ≠ fd ∧ v.clientLis x = some y := by
    intro x y
    rw [Function.update_apply]
    split <;> simp [*]
  have hhas : ∀ x y, Has { v with
      connected := Function.update v.connected fd false
      clientLis := Function.update v.clientLis fd none
      login := { v.login with clients := Function.update v.login.clients rid (some (some false)) }
      clubs := tellClubs v.clubs (.offline rid) } x y → v.Has x y ∧ x ≠ fd := by
    rintro x y (h | h)
    · obtain ⟨hx, h⟩ := (hlis x y).mp h
      exact ⟨.inl h, hx⟩
    · exact ⟨.inr h, fun hx => hnot y (hx ▸ h)⟩
  constructor
  · exact hloaded
  · exact fun x y h => hkept y (hi.found x y (hhas x y h).1)
  · intro x y h
    simp only [Function.update_of_ne (hhas x y h).2]
    exact hi.connected x y (hhas x y h).1
  · intro x y h
    simp only [Function.update_apply]
    split
    · simp
    · exact hi.clients x y (hhas x y h).1
  · exact fun x y h => hi.sockets x y (hhas x y h).1
  · intro x y h
    simp only [Function.update_of_ne (hhas x y (.inr h)).2]
    exact hi.apart x y h
  · exact hi.once
  · intro y
    by_cases hy : y = rid
    · subst hy
      refine .inr (iff_of_false (by simp) ?_)
      rintro ⟨x, hx⟩
      obtain ⟨hx, h⟩ := (hlis x y).mp hx
      exact hx (honly x h)
    · refine (hi.login y).imp id fun h => ?_
      simp only [Function.update_of_ne hy, h, hlis]
      refine exists_congr fun x => (and_iff_right_of_imp fun hx => ?_).symm
      rintro rfl
      exact hy (Option.some.inj (hx.symm.trans hrid))
  · refine hi.shown.offline hi.loaded hfound (fun x hx => ?_) fun x y hy => ?_
    · obtain ⟨hx, h⟩ := (hlis x rid).mp hx
      exact hx (honly x h)
    · rw [hlis]
      refine and_iff_right_of_imp fun hx => ?_
      rintro rfl
      exact hy (Option.some.inj (hx.symm.trans hrid))

end View

namespace Services

variable {s : Services ι}

theorem view_found (s : Services ι) (rid : ι) : s.view.clubs.Found rid ↔ s.clubs.Found rid := by
  have hfold : ∀ (ns : List (Notice ι)) (c : Clubmanager ι),
      (ns.foldl tellClubs c).Found rid ↔ c.Found rid := by
    intro ns
    induction ns with
    | nil => exact fun c => Iff.rfl
    | cons n ns ih => exact fun c => (ih _).trans (tellClubs_found n)
  exact hfold _ _

theorem view_close (s : Services ι) (fd : Nat) : (s.close fd).view =
    match s.clientLis fd with
    | none => { s.view with connected := Function.update s.connected fd false }
    | some rid => View.tell { s.view with
        connected := Function.update s.connected fd false
        clientLis := Function.update s.clientLis fd none } (.offline rid) :=
  view_offline { s with connected := Function.update s.connected fd false } fd

theorem inv_happen (hi : s.view.Inv) {h : Happening ι} (hcalm : s.Calm h) :
    (s.happen h).1.view.Inv := by
  cases h with
  | connect fd => exact hi.connect fd
  | message fd login =>
    simp only [happen, view_message]
    split
    · exact hi
    case isFalse hnew =>
      cases login with
      | none => exact hi
      | some rid =>
        have hnew := Bool.eq_false_iff.mpr hnew
        obtain ⟨hconnected, hfound⟩ := hcalm rid rfl hnew
        exact hi.message (by simpa [Loginmanager.repeatLogin] using hnew) hconnected
          ((s.view_found rid).mpr hfound)
  | close fd =>
    obtain ⟨hnot, honly⟩ := hcalm
    simp only [happen, view_close]
    cases hfd : s.clientLis fd with
    | none =>
      refine hi.unlogged fun rid h => ?_
      obtain h | h := h
      · exact absurd (hfd.symm.trans h) (by simp)
      · exact hnot rid h
    | some rid => exact hi.close hfd hnot fun x hx => honly rid x hfd hx
  | takeGate =>
    obtain hsame | ⟨fd, rid, logins, hperm, hview⟩ := s.view_takeGate
    · exact hsame ▸ hi
    · exact hview ▸ hi.succeed hperm
  | takeLogin => exact s.view_takeLogin ▸ hi
  | takeClubs => exact s.view_takeClubs ▸ hi

theorem inv_along {clubs : Clubmanager ι} (hload : clubs.Loaded) {hs : List (Happening ι)}
    (h : Lib.Along happen Calm (start clubs) hs) :
    (Lib.after happen (start clubs) hs).view.Inv := by
  have hrun : Lib.Run (fun (s : Services ι) (e : Happening ι × Unit) t =>
      s.Calm e.1 ∧ t = (s.happen e.1).1) _ _ _ :=
    h.run fun s e he => ⟨he, rfl⟩
  exact hrun.invariant (View.Inv.start hload) fun s e t hi ht => ht.2 ▸ inv_happen hi ht.1

theorem agree_of_quiet (hi : s.view.Inv) (hquiet : s.Quiet) : s.Agree := by
  obtain ⟨hgate, hlogin, hclub, hwaiting⟩ := hquiet
  have hview : s.view = ⟨s.connected, s.clientLis, [], s.login, s.clubs⟩ := by
    simp [view, coming, hgate, hlogin, hclub, hwaiting, Loginmanager.drain]
  rw [hview] at hi
  have hlogged : s.Logged = fun fd rid => s.clientLis fd = some rid := by
    funext fd rid
    exact propext (and_iff_right_of_imp fun h => hi.connected fd rid (.inl h))
  constructor
  · intro rid
    rw [hlogged]
    exact (hi.login rid).resolve_left (by simp)
  · rw [hlogged]
    exact hi.shown

/-- In every run that is calm, the login service and the clubs agree with the gate on who is online
whenever all the messages are processed. -/
theorem presence_agrees (parts : List (Clubmanager.Part ι)) {clubs : Clubmanager ι}
    (hload : Clubmanager.load parts = some clubs) (hs : List (Happening ι))
    (hcalm : Lib.Along happen Calm (start clubs) hs)
    (hquiet : (Lib.after happen (start clubs) hs).Quiet) :
    (Lib.after happen (start clubs) hs).Agree :=
  agree_of_quiet (inv_along (Clubmanager.load_loaded hload) hcalm) hquiet

/-- User 1, a member of the club 5, logs in and leaves. -/
theorem presence_agrees_one : ∃ clubs, Clubmanager.load
      [.clubInfo [5], .adminsInfo [⟨5, 5⟩], .membersInfo [(⟨1, 5, 5⟩ : MemberInfo Nat)]] =
        some clubs ∧
    (Lib.after happen (start clubs) [.connect 7, .message 7 (some 1), .takeLogin, .takeGate,
      .takeLogin, .takeGate, .takeClubs, .takeGate, .close 7, .takeLogin, .takeGate, .takeClubs,
      .takeGate]).Agree := by
  refine ⟨_, rfl, presence_agrees [.clubInfo [5], .adminsInfo [⟨5, 5⟩], .membersInfo [⟨1, 5, 5⟩]]
    rfl _ ?_ ⟨rfl, rfl, rfl, rfl⟩⟩
  refine ⟨trivial, ?_, trivial, trivial, trivial, trivial, trivial, trivial, ?_, trivial, trivial,
    trivial, trivial, trivial⟩
  · rintro rid ⟨⟩ -
    refine ⟨rfl, ?_, ?_, ?_⟩
    · decide
    · intro c data hdata
      cases c with
      | zero =>
        cases hdata
        decide
      | succ c => cases hdata
    · intro a info hinfo
      cases a with
      | zero =>
        cases hinfo
        decide
      | succ a => cases hinfo
  · refine ⟨fun rid hmem => absurd hmem List.not_mem_nil, fun rid x _ hx => ?_⟩
    change Function.update (fun _ => none) 7 (some 1) x = some rid at hx
    by_contra hne
    rw [Function.update_of_ne hne] at hx
    cases hx

/-- A user who is logged in twice leaves one of the two connections. -/
theorem second_login_lost : ∃ clubs, Clubmanager.load ([] : List (Clubmanager.Part Nat)) =
      some clubs ∧
    let s := Lib.after happen (start clubs) [.connect 7, .connect 8,
      .message 7 (some 1), .takeLogin, .takeGate, .takeLogin, .takeGate, .takeClubs, .takeGate,
      .message 8 (some 1), .takeLogin, .takeGate, .takeLogin, .takeGate, .takeClubs, .takeGate,
      .close 7, .takeLogin, .takeGate, .takeClubs, .takeGate]
    s.Quiet ∧ s.Logged 8 1 ∧ s.login.clients 1 = some (some false) ∧ ¬ s.Agree := by
  refine ⟨_, rfl, ⟨rfl, rfl, rfl, rfl⟩, ⟨rfl, rfl⟩, rfl, fun h => ?_⟩
  have honline := (h.login 1).mpr ⟨8, rfl, rfl⟩
  cases honline

end Services

end XsServer.Gate
