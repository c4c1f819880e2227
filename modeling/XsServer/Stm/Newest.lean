import XsServer.Stm.Copies

/-! What readers see.  A copy in the object has the number of its update, and a frame that has an
address also has the number of the copy there, so that addresses are the same exactly when the
numbers are, also after memory was given out again. -/

namespace XsServer.Stm

open XsServer.Lib

variable {μ : Type*} {m m' : Memory μ} {f : Frame} {e : Event μ} {fs : List Frame} {spawn : Bool}
variable {ts ts' : List (List Frame)} {o : Object} {a b n : Nat} {p q : Option Nat}

/-- The pointer is to a copy of this update, or both are not there. -/
def Memory.Points (m : Memory μ) : Option Nat → Option Nat → Prop
  | some a, some n => ∃ c, m.copies a = some c ∧ c.no = some n
  | none, none => True
  | _, _ => False

def Box.Sees (m : Memory μ) : Box → Prop
  | writer => True
  | reader lastcopy seen => m.Points lastcopy seen

/-- The numbers of a frame are those of its pointers, and of the object as long as it has the
lock. -/
def Frame.Sees (m : Memory μ) : Frame → Prop
  | box b | grabbing b => b.Sees m
  | grabbed b ref | asserting b ref => b.Sees m ∧ 0 < ref
  | newcopy copy | swapping copy => ∃ c, m.copies copy = some c ∧ c.no = none
  | copying lastcopy seen now =>
    m.Points lastcopy seen ∧ ∀ o, m.obj = some o → now = m.latest o
  | loaded ret lastcopy seen now =>
    m.Points lastcopy seen ∧ ∀ o, m.obj = some o → ret = o.copy ∧ now = m.latest o
  | counted ret ref lastcopy seen now => m.Points lastcopy seen ∧ m.Points ret now ∧ 0 < ref
  | copied ret lastcopy seen now => m.Points lastcopy seen ∧ m.Points ret now
  | took ret seen now => m.Points ret now ∧ (ret.isSome → now ≠ seen)
  | _ => True

structure Contents (m : Memory μ) (ts : List (List Frame)) : Prop where
  message : ∀ a c n, m.copies a = some c → c.no = some n → m.msgs[n]? = some c.msg
  unique : ∀ a b c d n, m.copies a = some c → m.copies b = some d → c.no = some n →
    d.no = some n → a = b
  current : ∀ a, published m ts = some a →
    ∃ c, m.copies a = some c ∧ c.no = some (m.msgs.length - 1)
  nonempty : m.msgs ≠ []
  frames : ∀ f ∈ ts.flatten, f.Sees m

theorem Memory.Points.number (h : m.Points p n) (h' : m.Points p q) : q = some n := by
  cases p with
  | none => cases h
  | some a =>
    cases q with
    | none => cases h'
    | some n' =>
      obtain ⟨c, hc, hn⟩ := h
      obtain ⟨d, hd, hn'⟩ := h'
      rw [Option.some.inj (hd.symm.trans hc), hn] at hn'
      exact hn'.symm

theorem Memory.Points.some_of_isSome (h : m.Points p q) (hp : p.isSome) : ∃ n, q = some n := by
  cases p with
  | none => cases hp
  | some a =>
    cases q with
    | none => cases h
    | some n => exact ⟨n, rfl⟩

theorem Contents.same (h : Contents m ts) (hp : m.Points p (some n)) (hq : m.Points q (some n)) :
    p = q := by
  cases p with
  | none => cases hp
  | some a =>
    cases q with
    | none => cases hq
    | some b =>
      obtain ⟨c, hc, hn⟩ := hp
      obtain ⟨d, hd, hn'⟩ := hq
      rw [h.unique a b c d n hc hd hn hn']

/-! ### Frames that stay -/

theorem Memory.Points.mono (h : m.Points p q)
    (hcopies : ∀ a c n, p = some a → m.copies a = some c → c.no = some n →
      ∃ d, m'.copies a = some d ∧ d.no = some n) : m'.Points p q := by
  cases p with
  | none => cases q with
    | none => trivial
    | some n => cases h
  | some a => cases q with
    | none => cases h
    | some n =>
      obtain ⟨c, hc, hn⟩ := h
      exact hcopies a c n rfl hc hn

theorem Frame.Sees.mono {g : Frame} (h : g.Sees m)
    (hcopies : ∀ a c n, 0 < g.refs a → m.copies a = some c → c.no = some n →
      ∃ d, m'.copies a = some d ∧ d.no = some n)
    (hnew : ∀ a, g = .newcopy a ∨ g = .swapping a → (∃ c, m.copies a = some c ∧ c.no = none) →
      ∃ c, m'.copies a = some c ∧ c.no = none)
    (hobj : g.reads = 1 → ∀ o', m'.obj = some o' →
      ∃ o, m.obj = some o ∧ o'.copy = o.copy ∧ m'.latest o' = m.latest o) : g.Sees m' := by
  have hbox : ∀ b : Box, (∀ a, b.refs a = g.refs a) → b.Sees m → b.Sees m' := by
    intro b hb hsees
    cases b with
    | writer => trivial
    | reader lastcopy seen =>
      refine Memory.Points.mono hsees fun a c n hp => hcopies a c n ?_
      rw [← hb, Box.refs, hp, ptr_self]
      exact Nat.one_pos
  have hpoints : ∀ p q, (∀ a, ptr p a ≤ g.refs a) → m.Points p q → m'.Points p q := by
    intro p q hp hsees
    refine Memory.Points.mono hsees fun a c n hpa => hcopies a c n ?_
    have := hp a
    rw [hpa, ptr_self] at this
    exact this
  cases g with
  | box b | grabbing b => exact hbox b (fun _ => rfl) h
  | grabbed b ref | asserting b ref => exact ⟨hbox b (fun _ => rfl) h.1, h.2⟩
  | newcopy copy => exact hnew copy (.inl rfl) h
  | swapping copy => exact hnew copy (.inr rfl) h
  | copying lastcopy seen now =>
    refine ⟨hpoints _ _ (fun _ => Nat.le_refl _) h.1, fun o' ho' => ?_⟩
    obtain ⟨o, ho, -, hlatest⟩ := hobj rfl o' ho'
    rw [hlatest]
    exact h.2 o ho
  | loaded ret lastcopy seen now =>
    refine ⟨hpoints _ _ (fun _ => Nat.le_refl _) h.1, fun o' ho' => ?_⟩
    obtain ⟨o, ho, hcopy, hlatest⟩ := hobj rfl o' ho'
    rw [hlatest, hcopy]
    exact h.2 o ho
  | counted ret ref lastcopy seen now =>
    exact ⟨hpoints _ _ (fun _ => Nat.le_add_left _ _) h.1,
      hpoints _ _ (fun _ => Nat.le_add_right _ _) h.2.1, h.2.2⟩
  | copied ret lastcopy seen now =>
    exact ⟨hpoints _ _ (fun _ => Nat.le_add_left _ _) h.1,
      hpoints _ _ (fun _ => Nat.le_add_right _ _) h.2⟩
  | took ret seen now => exact ⟨hpoints _ _ (fun _ => Nat.le_refl _) h.1, h.2⟩
  | _ => trivial

/-- The frames after a step are those that take the place of another, the others, and perhaps a
pointer. -/
theorem mem_act (ht : Replaces ts f fs ts') {g : Frame}
    (hg : g ∈ (ts' ++ spawned spawn).flatten) : g ∈ fs ∨ g ∈ ts.flatten ∨ g = .pointer := by
  rw [List.flatten_append, List.mem_append] at hg
  obtain hg | hg := hg
  · exact (ht.of_mem hg).imp_right .inl
  · cases spawn with
    | true => exact .inr (.inr (List.mem_singleton.mp hg))
    | false => cases hg

/-- A step that puts no update in the object: the numbers and messages of the copies stay, but for
new ones and for those that nobody points to. -/
theorem Contents.keep (h : Contents m ts) (ht : Replaces ts f fs ts') (hmsgs : m'.msgs = m.msgs)
    (hback : ∀ a d, m'.copies a = some d → d.no = none ∨
      ∃ c, m.copies a = some c ∧ c.no = d.no ∧ c.msg = d.msg)
    (hforth : ∀ a c, 0 < weight (Frame.refs a) ts + ptr (published m ts) a →
      m.copies a = some c → ∃ d, m'.copies a = some d ∧ d.no = c.no)
    (hpub : ∀ a, published m' (ts' ++ spawned spawn) = some a → published m ts = some a)
    (hobj : ∀ o', m'.obj = some o' →
      ∃ o, m.obj = some o ∧ (o'.copy = o.copy ∨ weight Frame.reads ts = 0))
    (hfs : ∀ g ∈ fs, g.Sees m') : Contents m' (ts' ++ spawned spawn) := by
  refine ⟨fun a d n hd hn => ?_, fun a b d d' n hd hd' hn hn' => ?_, fun a ha => ?_,
    by rw [hmsgs]; exact h.nonempty, fun g hg => ?_⟩
  · obtain hnone | ⟨c, hc, hno, hmsg⟩ := hback a d hd
    · rw [hnone] at hn
      cases hn
    · rw [hmsgs, ← hmsg]
      exact h.message a c n hc (hno.trans hn)
  · obtain hnone | ⟨c, hc, hno, -⟩ := hback a d hd
    · rw [hnone] at hn
      cases hn
    · obtain hnone | ⟨c', hc', hno', -⟩ := hback b d' hd'
      · rw [hnone] at hn'
        cases hn'
      · exact h.unique a b c c' n hc hc' (hno.trans hn) (hno'.trans hn')
  · obtain ⟨c, hc, hn⟩ := h.current a (hpub a ha)
    obtain ⟨d, hd, hno⟩ := hforth a c (by rw [hpub a ha, ptr_self]; omega) hc
    rw [hmsgs]
    exact ⟨d, hd, hno.trans hn⟩
  · obtain hg | hg | rfl := mem_act ht hg
    · exact hfs g hg
    · have hrefs : ∀ a, 0 < g.refs a → 0 < weight (Frame.refs a) ts + ptr (published m ts) a := by
        intro a hpos
        have := le_weight (Frame.refs a) hg
        omega
      refine (h.frames g hg).mono (fun a c n hpos hc hn => ?_) (fun a hnew hc => ?_)
        fun hreads o' ho' => ?_
      · obtain ⟨d, hd, hno⟩ := hforth a c (hrefs a hpos) hc
        exact ⟨d, hd, hno.trans hn⟩
      · obtain ⟨c, hc, hn⟩ := hc
        have hpos : 0 < g.refs a := by
          obtain rfl | rfl := hnew
          · exact Nat.le_of_eq (ptr_self a).symm
          · exact Nat.le_of_eq (ptr_self a).symm
        obtain ⟨d, hd, hno⟩ := hforth a c (hrefs a hpos) hc
        exact ⟨d, hd, hno.trans hn⟩
      · obtain ⟨o, ho, hcopy | hnone⟩ := hobj o' ho'
        · refine ⟨o, ho, hcopy, ?_⟩
          rw [Memory.latest, Memory.latest, hcopy, hmsgs]
        · have := le_weight Frame.reads hg
          omega
    · trivial

theorem Contents.keepCopies (h : Contents m ts) (ht : Replaces ts f fs ts')
    (hmsgs : m'.msgs = m.msgs) (hcopies : m'.copies = m.copies)
    (hobj : ∀ o', m'.obj = some o' → ∃ o, m.obj = some o ∧ o'.copy = o.copy)
    (hpub : m'.obj.bind Object.copy = m.obj.bind Object.copy)
    (hresets : f.resets = (fs.map Frame.resets).sum) (hfs : ∀ g ∈ fs, g.Sees m') :
    Contents m' (ts' ++ spawned spawn) := by
  refine h.keep ht hmsgs (fun a d hd => .inr ⟨d, hcopies ▸ hd, rfl, rfl⟩)
    (fun a c _ hc => ⟨c, hcopies ▸ hc, rfl⟩) (fun a ha => ?_) (fun o' ho' => ?_) hfs
  · rwa [published_act ht hpub hresets] at ha
  · obtain ⟨o, ho, hcopy⟩ := hobj o' ho'
    exact ⟨o, ho, .inl hcopy⟩

theorem Contents.setObj (h : Contents m ts) (ht : Replaces ts f fs ts') {o' : Object}
    (ho : m.obj = some o) (hcopy : o'.copy = o.copy)
    (hresets : f.resets = (fs.map Frame.resets).sum)
    (hfs : ∀ g ∈ fs, g.Sees (m.setObj o')) : Contents (m.setObj o') (ts' ++ spawned spawn) := by
  refine h.keepCopies ht rfl rfl (fun o'' ho'' => ?_) ?_ hresets hfs
  · obtain rfl := Option.some.inj ho''
    exact ⟨o, ho, hcopy⟩
  · rw [ho]
    exact hcopy

theorem Frame.resets_le (f : Frame) : f.resets ≤ f.writes := by
  cases f <;> simp [resets, writes]

theorem Object.Counts.resets_of_reads (h : o.Counts ts) (hf : f ∈ ts.flatten)
    (hreads : f.reads = 1) : weight Frame.resets ts = 0 := by
  have hread := h.reads_le hf
  have hwrite := h.write
  have hle := weight_le Frame.resets_le ts
  have hfree : ¬ o.write = true := fun hw => by
    have := h.exclusive hw
    omega
  rw [if_neg hfree] at hwrite
  omega

theorem Counted.obj_of_holds (h : Counted m ts) (hf : f ∈ ts.flatten) (hholds : 0 < f.holds) :
    ∃ o, m.obj = some o := by
  cases ho : m.obj with
  | some o => exact ⟨o, rfl⟩
  | none =>
    have := (h.gone ho).1
    have := le_weight Frame.holds hf
    omega

theorem Contents.loaded (h : Contents m ts) (hc : Counted m ts)
    {ret lastcopy seen now : Option Nat} (hf : .loaded ret lastcopy seen now ∈ ts.flatten) :
    published m ts = ret ∧ m.Points ret now := by
  obtain ⟨o, ho⟩ := hc.obj_of_holds hf Nat.one_pos
  have hresets := (hc.here o ho).resets_of_reads hf rfl
  obtain ⟨hret, hnow⟩ := (h.frames _ hf).2 o ho
  have hpub : published m ts = ret := by
    rw [published, if_pos hresets, ho, hret]
    rfl
  refine ⟨hpub, ?_⟩
  rw [hnow]
  cases hcopy : o.copy with
  | none =>
    rw [hret, Memory.latest, hcopy]
    trivial
  | some a =>
    obtain ⟨c, hc, hn⟩ := h.current a (by rw [hpub, hret, hcopy])
    rw [hret, Memory.latest, hcopy]
    exact ⟨c, hc, hn⟩

theorem Contents.count (h : Contents m ts) (ht : Replaces ts f fs ts') {c : Copy μ}
    (hc : m.copies a = some c) {ref : Int} (hresets : f.resets = (fs.map Frame.resets).sum)
    (hfs : ∀ g ∈ fs, g.Sees (m.setCopy a (some { c with reference := ref }))) :
    Contents (m.setCopy a (some { c with reference := ref })) (ts' ++ spawned spawn) := by
  have hself : (m.setCopy a (some { c with reference := ref })).copies a =
      some { c with reference := ref } := Function.update_self ..
  have hother : ∀ b, b ≠ a → (m.setCopy a (some { c with reference := ref })).copies b =
      m.copies b := fun b hb => Function.update_of_ne hb ..
  refine h.keep ht rfl (fun b d hd => .inr ?_) (fun b d _ hd => ?_) (fun b hb => ?_)
    (fun o ho => ⟨o, ho, .inl rfl⟩) hfs
  · by_cases hb : b = a
    · subst hb
      obtain rfl := Option.some.inj (hself.symm.trans hd)
      exact ⟨c, hc, rfl, rfl⟩
    · exact ⟨d, (hother b hb).symm.trans hd, rfl, rfl⟩
  · by_cases hb : b = a
    · subst hb
      obtain rfl := Option.some.inj (hc.symm.trans hd)
      exact ⟨_, hself, rfl⟩
    · exact ⟨d, (hother b hb).trans hd, rfl⟩
  · rwa [published_act ht rfl hresets] at hb

/-- The frame has a copy that was in no object. -/
def Frame.news : Frame → Nat
  | newcopy _ | swapping _ => 1
  | _ => 0

theorem Frame.news_le (f : Frame) : f.news ≤ f.owns := by
  cases f <;> simp [news, owns]

theorem Contents.swap (h : Contents m ts) {c : Copy μ} (hcopy : m.copies a = some c)
    (hnone : c.no = none) (ht : Replaces ts (.swapping a) [.swapped p] ts')
    (hobj : m'.obj = some o) (ho : o.copy = some a)
    (hcopies : m'.copies = Function.update m.copies a (some { c with no := some m.msgs.length }))
    (hmsgs : m'.msgs = m.msgs ++ [c.msg]) (hc : Counted m' (ts' ++ spawned false)) :
    Contents m' (ts' ++ spawned false) := by
  have hself : m'.copies a = some { c with no := some m.msgs.length } := by
    rw [hcopies, Function.update_self]
  have hother : ∀ b, b ≠ a → m'.copies b = m.copies b := fun b hb => by
    rw [hcopies, Function.update_of_ne hb]
  have hold : ∀ b d n, b ≠ a → m'.copies b = some d → d.no = some n → n < m.msgs.length := by
    intro b d n hb hd hn
    have hmessage := h.message b d n ((hother b hb).symm.trans hd) hn
    exact (List.getElem?_eq_some_iff.mp hmessage).1
  have hcounts := hc.here o hobj
  have hmem : .swapped p ∈ (ts' ++ spawned false).flatten := by
    obtain ⟨l, st, r, -, rfl⟩ := ht
    simp
  have hread : weight Frame.reads (ts' ++ spawned false) = 0 := by
    rw [← hcounts.read]
    exact hcounts.exclusive (hcounts.writes_le hmem rfl)
  have hnews : weight Frame.news (ts' ++ spawned false) = 0 := by
    refine weight_eq_zero Frame.news_le hmem ?_ rfl
    rw [hcounts.copy, ho]
    exact Nat.le_refl 1
  refine ⟨fun b d n hd hn => ?_, fun b b' d d' n hd hd' hn hn' => ?_, fun b hb => ?_, ?_,
    fun g hg => ?_⟩
  · rw [hmsgs]
    by_cases hb : b = a
    · subst hb
      obtain rfl := Option.some.inj (hself.symm.trans hd)
      obtain rfl := Option.some.inj hn
      exact List.getElem?_concat_length
    · rw [List.getElem?_append_left (hold b d n hb hd hn)]
      exact h.message b d n ((hother b hb).symm.trans hd) hn
  · by_cases hb : b = a
    · by_cases hb' : b' = a
      · rw [hb, hb']
      · subst hb
        obtain rfl := Option.some.inj (hself.symm.trans hd)
        obtain rfl := Option.some.inj hn
        exact absurd (hold b' d' _ hb' hd' hn') (Nat.lt_irrefl _)
    · by_cases hb' : b' = a
      · subst hb'
        obtain rfl := Option.some.inj (hself.symm.trans hd')
        obtain rfl := Option.some.inj hn'
        exact absurd (hold b d _ hb hd hn) (Nat.lt_irrefl _)
      · exact h.unique b b' d d' n ((hother b hb).symm.trans hd) ((hother b' hb').symm.trans hd')
          hn hn'
  · have hcurrent : published m' (ts' ++ spawned false) = some a := by
      rw [published, if_pos (hcounts.resets_eq_zero hmem rfl rfl), hobj]
      exact ho
    obtain rfl := Option.some.inj (hcurrent.symm.trans hb)
    refine ⟨_, hself, ?_⟩
    rw [hmsgs, List.length_append]
    rfl
  · simp [hmsgs]
  · obtain hg' | hg' | rfl := mem_act ht hg
    · rw [List.mem_singleton.mp hg']
      trivial
    · refine (h.frames g hg').mono (fun b d n _ hd hn => ?_) (fun b hb => ?_) fun hreads => ?_
      · have hne : b ≠ a := by
          rintro rfl
          rw [Option.some.inj (hd.symm.trans hcopy), hnone] at hn
          cases hn
        exact ⟨d, (hother b hne).trans hd, hn⟩
      · have hle := le_weight Frame.news hg
        obtain rfl | rfl := hb
        · rw [hnews] at hle
          cases hle
        · rw [hnews] at hle
          cases hle
      · have := le_weight Frame.reads hg
        omega
    · trivial

theorem published_none (h : m.obj = none) : published m ts = none := by
  rw [published, h]
  exact ite_self _

theorem Contents.act (h : Contents m ts) (hcc : CopiesCounted m ts) (hc : Counted m ts)
    (hact : Act m f e fs spawn m') (ht : Replaces ts f fs ts')
    (hc' : Counted m' (ts' ++ spawned spawn)) : Contents m' (ts' ++ spawned spawn) := by
  have hf := ht.mem
  have hsees := h.frames f hf
  cases hact with
  | update a msg ha =>
    have hself : (m.setCopy a (some ⟨1, msg, none⟩)).copies a = some ⟨1, msg, none⟩ :=
      Function.update_self ..
    have hother : ∀ b, b ≠ a → (m.setCopy a (some ⟨1, msg, none⟩)).copies b = m.copies b :=
      fun b hb => Function.update_of_ne hb ..
    refine h.keep ht rfl (fun b d hd => ?_) (fun b c _ hb => ?_) (fun b hb => ?_)
      (fun o ho => ⟨o, ho, .inl rfl⟩) fun g hg => ?_
    · by_cases hb : b = a
      · subst hb
        obtain rfl := Option.some.inj (hself.symm.trans hd)
        exact .inl rfl
      · exact .inr ⟨d, (hother b hb).symm.trans hd, rfl, rfl⟩
    · have hne : b ≠ a := by
        rintro rfl
        rw [ha] at hb
        cases hb
      exact ⟨c, (hother b hne).trans hb, rfl⟩
    · rwa [published_act ht rfl rfl] at hb
    · rw [List.mem_singleton.mp hg]
      exact ⟨_, hself, rfl⟩
  | wlock a o ho =>
    exact h.setObj ht ho rfl rfl fun g hg => by rwa [List.mem_singleton.mp hg]
  | swap a o c ho hcopy =>
    obtain ⟨c', hcopy', hnone⟩ := hsees
    obtain rfl := Option.some.inj (hcopy.symm.trans hcopy')
    exact h.swap hcopy hnone ht rfl rfl rfl rfl hc'
  | wunlock old o ho =>
    refine h.setObj ht ho rfl rfl ?_
    simp [Frame.Sees, Box.Sees]
  | retire o ho hcopy =>
    refine h.keepCopies ht rfl rfl (fun o ho => ⟨o, ho, rfl⟩) rfl rfl ?_
    simp [Frame.Sees]
  | wlockRetire o ho =>
    refine h.setObj ht ho rfl rfl ?_
    simp [Frame.Sees]
  | releaseLast o ho =>
    refine h.keep ht rfl (fun a d hd => .inr ⟨d, hd, rfl, rfl⟩) (fun a c _ ha => ⟨c, ha, rfl⟩)
      (fun a ha => ?_) (fun o ho => ⟨o, ho, .inl rfl⟩) ?_
    · have hact : weight Frame.resets (ts' ++ spawned false) + 0 = weight Frame.resets ts + 1 :=
        weight_act_of_pointer rfl false ht
      rw [published, if_neg (by omega)] at ha
      cases ha
    · simp [Frame.Sees]
  | reset o ho =>
    refine h.keep ht rfl (fun a d hd => .inr ⟨d, hd, rfl, rfl⟩) (fun a c _ ha => ⟨c, ha, rfl⟩)
      (fun a ha => ?_) (fun o' _ => ⟨o, ho, .inr ?_⟩) ?_
    · have hnone : published (m.setObj { o with copy := none }) (ts' ++ spawned false) = none :=
        ite_self _
      rw [hnone] at ha
      cases ha
    · have hcounts := hc.here o ho
      rw [← hcounts.read]
      exact hcounts.exclusive (hcounts.writes_le hf rfl)
    · simp [Frame.Sees]
  | count o ho =>
    refine h.setObj ht ho rfl ?_ ?_
    · split <;> rfl
    · split <;> simp [Frame.Sees]
  | unlock o ho =>
    refine h.setObj ht ho rfl rfl ?_
    simp
  | freeObj o ho =>
    refine h.keep ht rfl (fun a d hd => .inr ⟨d, hd, rfl, rfl⟩) (fun a c _ ha => ⟨c, ha, rfl⟩)
      (fun a ha => ?_) (fun o' ho' => by cases ho') (by simp)
    rw [published_none rfl] at ha
    cases ha
  | grab b o ho =>
    exact h.setObj ht ho rfl rfl fun g hg => by rwa [List.mem_singleton.mp hg]
  | grabInc b o ho =>
    have hpos := (hc.here o ho).holds_le hf
    have hlarge : 0 < o.reference := by
      simp only [Frame.holds] at hpos
      omega
    refine h.setObj ht ho rfl rfl fun g hg => ?_
    rw [List.mem_singleton.mp hg]
    exact ⟨hsees, hlarge⟩
  | grabUnlock b ref o ho =>
    exact h.setObj ht ho rfl rfl fun g hg => by rwa [List.mem_singleton.mp hg]
  | grabAssert b ref =>
    refine h.keepCopies ht rfl rfl (fun o ho => ⟨o, ho, rfl⟩) rfl rfl fun g hg => ?_
    rw [List.mem_singleton.mp hg]
    exact hsees.1
  | newreader =>
    refine h.keepCopies ht rfl rfl (fun o ho => ⟨o, ho, rfl⟩) rfl rfl fun g hg => ?_
    rw [List.mem_singleton.mp hg]
    trivial
  | rlock l seen o ho =>
    refine h.setObj ht ho rfl rfl fun g hg => ?_
    rw [List.mem_singleton.mp hg]
    refine ⟨hsees, fun o' ho' => ?_⟩
    rw [← Option.some.inj ho']
    rfl
  | load l seen now o ho =>
    refine h.keepCopies ht rfl rfl (fun o ho => ⟨o, ho, rfl⟩) rfl rfl fun g hg => ?_
    rw [List.mem_singleton.mp hg]
    refine ⟨hsees.1, fun o' ho' => ⟨?_, hsees.2 o' ho'⟩⟩
    rw [Option.some.inj (ho.symm.trans ho')]
  | loadNull l seen now =>
    obtain ⟨-, hpoints⟩ := h.loaded hc hf
    refine h.keepCopies ht rfl rfl (fun o ho => ⟨o, ho, rfl⟩) rfl rfl fun g hg => ?_
    rw [List.mem_singleton.mp hg]
    exact ⟨hsees.1, hpoints, Int.one_pos⟩
  | inc a l seen now c hcopy =>
    obtain ⟨-, hpoints⟩ := h.loaded hc hf
    have hkeep : ∀ p q, m.Points p q → (m.setCopy a (some { c with
        reference := int (c.reference + 1) })).Points p q := by
      intro p q hpq
      refine hpq.mono fun b d n _ hd hn => ?_
      by_cases hb : b = a
      · subst hb
        obtain rfl := Option.some.inj (hcopy.symm.trans hd)
        exact ⟨_, Function.update_self .., hn⟩
      · exact ⟨d, (Function.update_of_ne hb ..).trans hd, hn⟩
    obtain ⟨c', hc', hpos⟩ := hcc.alive (a := a) (by rw [(h.loaded hc hf).1, ptr_self]; omega)
    obtain rfl := Option.some.inj (hcopy.symm.trans hc')
    refine h.count ht hcopy rfl fun g hg => ?_
    rw [List.mem_singleton.mp hg]
    exact ⟨hkeep _ _ hsees.1, hkeep _ _ hpoints, hpos⟩
  | runlock ret ref l seen now o ho =>
    refine h.setObj ht ho rfl rfl fun g hg => ?_
    rw [List.mem_singleton.mp hg]
    exact ⟨hsees.1, hsees.2.1⟩
  | same ret seen now =>
    refine h.keepCopies ht rfl rfl (fun o ho => ⟨o, ho, rfl⟩) rfl rfl ?_
    simpa [Frame.Sees, Box.Sees] using hsees.2
  | changed ret l seen now hne =>
    refine h.keepCopies ht rfl rfl (fun o ho => ⟨o, ho, rfl⟩) rfl rfl fun g hg => ?_
    obtain rfl | hg := List.mem_cons.mp hg
    · trivial
    · rw [List.mem_singleton.mp hg]
      refine ⟨hsees.2, fun hret hnow => hne ?_⟩
      obtain ⟨n, rfl⟩ := hsees.2.some_of_isSome hret
      exact h.same hsees.2 (hnow ▸ hsees.1)
  | call a seen now c hcopy | noCall seen now =>
    refine h.keepCopies ht rfl rfl (fun o ho => ⟨o, ho, rfl⟩) rfl rfl fun g hg => ?_
    rw [List.mem_singleton.mp hg]
    exact hsees.1
  | delete l seen o ho | dec l o ho | decLast l o ho | runlockDeleted l o ho =>
    refine h.setObj ht ho rfl rfl ?_
    simp [Frame.Sees]
  | freeLast l o ho hcopy =>
    refine h.keep ht rfl (fun a d hd => .inr ⟨d, hd, rfl, rfl⟩) (fun a c _ ha => ⟨c, ha, rfl⟩)
      (fun a ha => ?_) (fun o' ho' => by cases ho') ?_
    · rw [published_none rfl] at ha
      cases ha
    · simp [Frame.Sees]
  | releaseNull =>
    refine h.keepCopies ht rfl rfl (fun o ho => ⟨o, ho, rfl⟩) rfl rfl ?_
    simp
  | release a c hcopy =>
    refine h.count ht hcopy ?_ ?_
    · split <;> rfl
    · split <;> simp [Frame.Sees]
  | free a c hcopy =>
    have hfree := hcc.frees a
    have hle := le_weight (Frame.freesCopy a) hf
    simp only [Frame.freesCopy, ptr_self] at hle
    have hzero : m.ref a = 0 := by
      by_contra hne
      rw [if_neg fun hand => hne hand.2] at hfree
      omega
    have hself : (m.setCopy a none).copies a = none := Function.update_self ..
    have hother : ∀ b, b ≠ a → (m.setCopy a none).copies b = m.copies b :=
      fun b hb => Function.update_of_ne hb ..
    refine h.keep ht rfl (fun b d hd => .inr ?_) (fun b d hpos hd => ?_) (fun b hb => ?_)
      (fun o ho => ⟨o, ho, .inl rfl⟩) (by simp)
    · have hne : b ≠ a := by
        rintro rfl
        rw [hself] at hd
        cases hd
      exact ⟨d, (hother b hne).symm.trans hd, rfl, rfl⟩
    · have hne : b ≠ a := by
        rintro rfl
        have := hcc.reference b
        omega
      exact ⟨d, (hother b hne).trans hd, rfl⟩
    · rwa [published_act ht rfl rfl] at hb

/-! ### Runs -/

structure State.Inv (s : State μ) : Prop where
  counted : Counted s.memory s.threads
  copies : CopiesCounted s.memory s.threads
  contents : Contents s.memory s.threads

theorem State.inv_new (a : Nat) (msg : μ) : (State.new a msg).Inv := by
  have hself : (State.new a msg).memory.copies a = some ⟨1, msg, some 0⟩ := by
    simp [State.new]
  have hother : ∀ b, b ≠ a → (State.new a msg).memory.copies b = none := by
    intro b hb
    simp [State.new, hb]
  have hone : (1 : Int) < 2 ^ 31 := by decide
  have hpub : published (State.new a msg).memory (State.new a msg).threads = some a := rfl
  refine ⟨⟨fun o ho => ?_, fun ho => by cases ho⟩, ⟨fun b => ?_, fun b => ?_, fun b => ?_⟩,
    fun b c n hb hn => ?_, fun b b' c d n hb hb' _ _ => ?_, fun b hb => ?_, by simp [State.new],
    fun g hg => ?_⟩
  · obtain rfl := Option.some.inj ho
    exact ⟨rfl, hone, rfl, rfl, fun h => (by cases h), rfl, fun _ => rfl, rfl⟩
  · rw [hpub]
    by_cases hb : b = a
    · rw [hb, Memory.ref_some hself, ptr_self]
      rfl
    · rw [Memory.ref_none (hother b hb), ptr_of_ne hb]
      rfl
  · by_cases hb : b = a
    · rw [hb, Memory.ref_some hself]
      exact hone
    · rw [Memory.ref_none (hother b hb)]
      decide
  · by_cases hb : b = a
    · rw [hb, Memory.ref_some hself, if_neg (by simp)]
      rfl
    · rw [hother b hb, if_neg (by simp)]
      rfl
  · by_cases hba : b = a
    · subst hba
      obtain rfl := Option.some.inj (hself.symm.trans hb)
      obtain rfl := Option.some.inj hn
      rfl
    · rw [hother b hba] at hb
      cases hb
  · by_cases hba : b = a
    · by_cases hba' : b' = a
      · rw [hba, hba']
      · rw [hother b' hba'] at hb'
        cases hb'
    · rw [hother b hba] at hb
      cases hb
  · obtain rfl := Option.some.inj (hpub.symm.trans hb)
    exact ⟨_, hself, rfl⟩
  · rw [List.mem_singleton.mp hg]
    trivial

theorem State.Inv.step {s t : State μ} (h : s.Inv) (hstep : Step s e t) (hclear : Clear s e) :
    t.Inv := by
  cases hstep with
  | @act f e fs spawn m ts hact ht =>
    have hcounted := h.counted.act hact ht hclear
    refine ⟨hcounted, h.copies.act h.counted hact ht hclear ?_,
      h.contents.act h.copies h.counted hact ht hcounted⟩
    rintro a lastcopy seen now rfl
    exact (h.contents.loaded h.counted ht.mem).1

theorem Frame.UsesObj.pos (h : f.UsesObj) : 0 < f.holds + f.reads + f.writes + f.frees := by
  cases f <;> first | exact h.elim | simp [Frame.holds, Frame.reads, Frame.writes, Frame.frees]

theorem State.Inv.safe {s : State μ} (h : s.Inv) : s.Safe := by
  have hmem : ∀ f st, f :: st ∈ s.threads → f ∈ s.threads.flatten := fun f st hst =>
    List.mem_flatten.mpr ⟨f :: st, hst, List.mem_cons_self⟩
  refine ⟨fun f st hst huses => ?_, fun f st hst a ha => ?_, fun f st hst => ?_⟩
  · have hf := hmem f st hst
    cases ho : s.memory.obj with
    | some o => exact ⟨o, rfl⟩
    | none =>
      obtain ⟨h1, h2, h3, h4⟩ := h.counted.gone ho
      have := huses.pos
      have := le_weight Frame.holds hf
      have := le_weight Frame.reads hf
      have := le_weight Frame.writes hf
      have := le_weight Frame.frees hf
      omega
  · have hf := hmem f st hst
    have hrefs : 0 < f.refs a → ∃ c, s.memory.copies a = some c := fun hpos => by
      obtain ⟨c, hc, -⟩ := h.copies.alive_of_mem hf hpos
      exact ⟨c, hc⟩
    cases f with
    | free copy =>
      obtain rfl := Option.some.inj ha
      have hfree := h.copies.frees copy
      have hle := le_weight (Frame.freesCopy copy) hf
      simp only [Frame.freesCopy, ptr_self] at hle
      split at hfree
      case isTrue hand => exact Option.isSome_iff_exists.mp hand.1
      case isFalse => omega
    | loaded ret lastcopy seen now =>
      obtain rfl : ret = some a := ha
      obtain ⟨hpub, -⟩ := h.contents.loaded h.counted hf
      obtain ⟨c, hc, -⟩ := h.contents.current a hpub
      exact ⟨c, hc⟩
    | took ret seen now =>
      obtain rfl : ret = some a := ha
      exact hrefs (Nat.le_of_eq (ptr_self a).symm)
    | release copy =>
      obtain rfl : copy = some a := ha
      exact hrefs (Nat.le_of_eq (ptr_self a).symm)
    | _ => cases ha
  · have hf := hmem f st hst
    have hsees := h.contents.frames f hf
    cases f with
    | box b =>
      cases b with
      | writer =>
        intro o ho
        have hcopy := (h.counted.here o ho).copy
        have hle := le_weight Frame.owns hf
        by_contra hnone
        rw [if_neg hnone] at hcopy
        rw [hcopy] at hle
        cases hle
      | reader => trivial
    | asserting b ref => exact hsees.2
    | counted ret ref lastcopy seen now => exact hsees.2.2
    | last lastcopy =>
      intro o ho
      have hcounts := h.counted.here o ho
      have hfree := hcounts.frees
      have hle := le_weight Frame.frees hf
      refine hcounts.copy_none ?_
      by_contra hne
      rw [if_neg hne] at hfree
      rw [hfree] at hle
      cases hle
    | _ => trivial

theorem State.Inv.newest {s t : State μ} (h : s.Inv) (hstep : Step s e t) :
    Newest s.memory.msgs e := by
  cases hstep with
  | @act f e fs spawn m ts hact ht =>
    have hsees := h.contents.frames f ht.mem
    cases hact with
    | same ret seen now =>
      refine ⟨iff_of_false (by simp) ?_, fun msg hmsg => by cases hmsg⟩
      rintro ⟨hnow, hne⟩
      obtain ⟨n, rfl⟩ := Option.isSome_iff_exists.mp hnow
      exact hne (hsees.2.number hsees.1).symm
    | call a seen now c hcopy =>
      obtain ⟨hpoints, hne⟩ := hsees
      obtain ⟨n, rfl⟩ := hpoints.some_of_isSome rfl
      refine ⟨iff_of_true rfl ⟨rfl, hne rfl⟩, fun msg hmsg => ⟨n, rfl, ?_⟩⟩
      obtain ⟨d, hd, hn⟩ := hpoints
      obtain rfl := Option.some.inj (hcopy.symm.trans hd)
      rw [h.contents.message a c n hd hn]
      exact hmsg
    | noCall seen now =>
      refine ⟨iff_of_false (by simp) ?_, fun msg hmsg => by cases hmsg⟩
      rintro ⟨hnow, -⟩
      obtain ⟨n, rfl⟩ := Option.isSome_iff_exists.mp hnow
      exact hsees.1
    | _ => trivial

theorem State.Inv.done {s : State μ} (h : s.Inv) (hdone : s.threads.flatten = []) :
    s.memory.obj = none ∧ ∀ a, s.memory.copies a = none := by
  have hobj : s.memory.obj = none := by
    cases ho : s.memory.obj with
    | none => rfl
    | some o =>
      have hcounts := h.counted.here o ho
      have href := hcounts.reference
      have hfree := hcounts.frees
      rw [weight_nil _ hdone] at href hfree
      rw [if_pos (show o.reference = 0 from href)] at hfree
      cases hfree
  refine ⟨hobj, fun a => ?_⟩
  cases hc : s.memory.copies a with
  | none => rfl
  | some c =>
    have href := h.copies.reference a
    have hfree := h.copies.frees a
    rw [weight_nil _ hdone, published_none hobj] at href
    rw [weight_nil _ hdone, hc, if_pos ⟨rfl, href⟩] at hfree
    cases hfree

/-- In every run in which no counter is at its maximum when it is incremented, and the last reader
leaves when nobody else has the lock: nothing is used after it was freed or freed twice, no
assertion fails, every read calls the function of the reader with the newest message or has seen it,
and when all threads are done everything is freed. -/
theorem reads_newest {a : Nat} {msg : μ} {es : List (Event μ)} {s : State μ}
    (hrun : Run (Guarded Clear Step) (State.new a msg) es s) :
    s.Safe ∧ (∀ e t, Step s e t → Newest s.memory.msgs e) ∧
      (s.threads.flatten = [] → s.memory.obj = none ∧ ∀ a, s.memory.copies a = none) := by
  have hinv : s.Inv :=
    hrun.invariant (State.inv_new a msg) fun s e t h hstep => h.step hstep.2 hstep.1
  exact ⟨hinv.safe, fun e t hstep => hinv.newest hstep, hinv.done⟩

theorem reads_newest_once : ∃ s : State Nat, Run (Guarded Clear Step) (State.new 0 7)
    [.silent, .increment 1, .silent, .silent, .silent, .silent, .silent, .increment 1, .silent,
      .silent, .silent, .read (some 0) none (some 7)] s ∧ s.Safe := by
  have hrun : Run (Guarded Clear Step) (State.new 0 7)
      [.silent, .increment 1, .silent, .silent, .silent, .silent, .silent, .increment 1, .silent,
        .silent, .silent, .read (some 0) none (some 7)] _ :=
    .cons (.of_step (.act (.grab .writer ⟨false, 0, 1, some 0⟩ rfl rfl)
      ⟨[], [], [], rfl, rfl⟩) trivial) <|
    .cons (.of_step (.act (.grabInc .writer ⟨false, 1, 1, some 0⟩ rfl)
      ⟨[], [], [], rfl, rfl⟩) (by simp [Clear])) <|
    .cons (.of_step (.act (.grabUnlock .writer 1 ⟨false, 1, 2, some 0⟩ rfl)
      ⟨[], [], [], rfl, rfl⟩) trivial) <|
    .cons (.of_step (.act (.grabAssert .writer 1 (by decide)) ⟨[], [], [], rfl, rfl⟩) trivial) <|
    .cons (.of_step (.act .newreader ⟨[[.box .writer]], [], [], rfl, rfl⟩) trivial) <|
    .cons (.of_step (.act (.rlock none none ⟨false, 0, 2, some 0⟩ rfl rfl)
      ⟨[[.box .writer]], [], [], rfl, rfl⟩) trivial) <|
    .cons (.of_step (.act (.load none none (some 0) ⟨false, 1, 2, some 0⟩ rfl)
      ⟨[[.box .writer]], [], [], rfl, rfl⟩) trivial) <|
    .cons (.of_step (.act (.inc 0 none none (some 0) ⟨1, 7, some 0⟩ rfl)
      ⟨[[.box .writer]], [], [], rfl, rfl⟩) (by simp [Clear])) <|
    .cons (.of_step
      (.act (.runlock (some 0) 1 none none (some 0) ⟨false, 1, 2, some 0⟩ rfl (by decide))
      ⟨[[.box .writer]], [], [], rfl, rfl⟩) trivial) <|
    .cons (.of_step (.act (.changed (some 0) none none (some 0) (by simp))
      ⟨[[.box .writer]], [], [], rfl, rfl⟩) trivial) <|
    .cons (.of_step (.act .releaseNull
      ⟨[[.box .writer]], [.took (some 0) none (some 0)], [], rfl, rfl⟩) trivial) <|
    .cons (.of_step (.act (.call 0 none (some 0) ⟨2, 7, some 0⟩ rfl)
      ⟨[[.box .writer]], [], [], rfl, rfl⟩) trivial) <| .nil _
  exact ⟨_, hrun, (reads_newest hrun).1⟩

/-- The writer is gone.  One reader has counted down and is about to unlock when another one, which
has the lock too, counts down to 0 and frees the object. -/
theorem unlock_freed : ∃ s : State Nat, Run Step (State.new 0 7)
    [.silent, .increment 1, .silent, .silent, .silent, .increment 2, .silent, .silent, .silent,
      .silent, .silent, .silent, .silent, .silent, .silent, .silent, .silent, .silent, .silent,
      .silent, .silent, .lastReader, .silent] s ∧
    [.deleted none] ∈ s.threads ∧ s.memory.obj = none ∧ ¬ s.Safe := by
  have hrun : Run Step (State.new 0 7)
      [.silent, .increment 1, .silent, .silent, .silent, .increment 2, .silent, .silent, .silent,
        .silent, .silent, .silent, .silent, .silent, .silent, .silent, .silent, .silent, .silent,
        .silent, .silent, .lastReader, .silent] _ :=
    .cons (.act (.grab .writer ⟨false, 0, 1, some 0⟩ rfl rfl) ⟨[], [], [], rfl, rfl⟩) <|
    .cons (.act (.grabInc .writer ⟨false, 1, 1, some 0⟩ rfl) ⟨[], [], [], rfl, rfl⟩) <|
    .cons (.act (.grabUnlock .writer 1 ⟨false, 1, 2, some 0⟩ rfl) ⟨[], [], [], rfl, rfl⟩) <|
    .cons (.act (.grabAssert .writer 1 (by decide)) ⟨[], [], [], rfl, rfl⟩) <|
    .cons (.act (.grab .writer ⟨false, 0, 2, some 0⟩ rfl rfl) ⟨[], [], [[.pointer]], rfl, rfl⟩) <|
    .cons (.act (.grabInc .writer ⟨false, 1, 2, some 0⟩ rfl) ⟨[], [], [[.pointer]], rfl, rfl⟩) <|
    .cons (.act (.grabUnlock .writer 2 ⟨false, 1, 3, some 0⟩ rfl)
      ⟨[], [], [[.pointer]], rfl, rfl⟩) <|
    .cons (.act (.grabAssert .writer 2 (by decide)) ⟨[], [], [[.pointer]], rfl, rfl⟩) <|
    .cons (.act .newreader ⟨[[.box .writer]], [], [[.pointer]], rfl, rfl⟩) <|
    .cons (.act .newreader ⟨[[.box .writer], [.box (.reader none none)]], [], [], rfl, rfl⟩) <|
    .cons (.act (.retire ⟨false, 0, 3, some 0⟩ rfl rfl)
      ⟨[], [], [[.box (.reader none none)], [.box (.reader none none)]], rfl, rfl⟩) <|
    .cons (.act (.wlockRetire ⟨false, 0, 3, some 0⟩ rfl rfl rfl)
      ⟨[], [], [[.box (.reader none none)], [.box (.reader none none)]], rfl, rfl⟩) <|
    .cons (.act (.releaseLast ⟨true, 0, 3, some 0⟩ rfl)
      ⟨[], [], [[.box (.reader none none)], [.box (.reader none none)]], rfl, rfl⟩) <|
    .cons (.act (.release 0 ⟨1, 7, some 0⟩ rfl)
      ⟨[], [.resetting], [[.box (.reader none none)], [.box (.reader none none)]], rfl, rfl⟩) <|
    .cons (.act (.free 0 ⟨0, 7, some 0⟩ rfl)
      ⟨[], [.resetting], [[.box (.reader none none)], [.box (.reader none none)]], rfl, rfl⟩) <|
    .cons (.act (.reset ⟨true, 0, 3, some 0⟩ rfl)
      ⟨[], [], [[.box (.reader none none)], [.box (.reader none none)]], rfl, rfl⟩) <|
    .cons (.act (.count ⟨true, 0, 3, none⟩ rfl)
      ⟨[], [], [[.box (.reader none none)], [.box (.reader none none)]], rfl, rfl⟩) <|
    .cons (.act (.unlock ⟨true, 0, 2, none⟩ rfl)
      ⟨[], [], [[.box (.reader none none)], [.box (.reader none none)]], rfl, rfl⟩) <|
    .cons (.act (.delete none none ⟨false, 0, 2, none⟩ rfl rfl)
      ⟨[[]], [], [[.box (.reader none none)]], rfl, rfl⟩) <|
    .cons (.act (.dec none ⟨false, 1, 2, none⟩ rfl (by decide))
      ⟨[[]], [], [[.box (.reader none none)]], rfl, rfl⟩) <|
    .cons (.act (.delete none none ⟨false, 1, 1, none⟩ rfl rfl)
      ⟨[[], [.deleted none]], [], [], rfl, rfl⟩) <|
    .cons (.act (.decLast none ⟨false, 2, 1, none⟩ rfl (by decide))
      ⟨[[], [.deleted none]], [], [], rfl, rfl⟩) <|
    .cons (.act (.freeLast none ⟨false, 2, 0, none⟩ rfl rfl)
      ⟨[[], [.deleted none]], [], [], rfl, rfl⟩) <| .nil _
  have hmem : [.deleted none] ∈ ([[], [.deleted none], [.release none]] : List (List Frame)) := by
    simp
  refine ⟨_, hrun, hmem, rfl, fun hsafe => ?_⟩
  obtain ⟨o, ho⟩ := hsafe.obj (.deleted none) [] hmem trivial
  cases ho

end XsServer.Stm
