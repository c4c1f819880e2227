import XsServer.Stm.Object

/-! The counters of the transactional memory.  `reference` of the object counts the boxes and
pointers, `read` and `write` the threads in lock sections, and `reference` of a copy counts those
that have its address. -/

namespace XsServer.Stm

open XsServer.Lib

variable {μ : Type*} {m m' : Memory μ} {f : Frame} {e : Event μ} {fs : List Frame} {spawn : Bool}
variable {ts ts' : List (List Frame)} {o : Object}

theorem int_eq {n : Int} (hlow : -2 ^ 31 ≤ n) (hhigh : n < 2 ^ 31) : int n = n := by
  rw [int, Int.bmod_eq_of_le]
  · omega
  · omega

/-! ### The object -/

def Frame.holds : Frame → Nat
  | box _ | newcopy _ | swapping _ | swapped _ | retiring | retired | resetting | counting
  | grabbing _ | pointer | copying _ _ _ | loaded _ _ _ _ | counted _ _ _ _ _ | copied _ _ _ _
  | took _ _ _ | deleting _ => 1
  | grabbed _ _ | asserting _ _ => 2
  | unlocking | freeing | deleted _ | last _ | release _ | free _ => 0

def Frame.reads : Frame → Nat
  | grabbing _ | grabbed _ _ | copying _ _ _ | loaded _ _ _ _ | counted _ _ _ _ _ | deleting _
  | deleted _ | last _ => 1
  | _ => 0

def Frame.writes : Frame → Nat
  | swapping _ | swapped _ | retired | resetting | counting | unlocking | freeing => 1
  | _ => 0

def Frame.frees : Frame → Nat
  | freeing | last _ => 1
  | _ => 0

/-- A reader that has counted down is about to unlock. -/
def Frame.leaves : Frame → Nat
  | deleted _ => 1
  | _ => 0

def Box.owns : Box → Nat
  | writer => 1
  | reader _ _ => 0

/-- The writer, until it has reset the copy. -/
def Frame.owns : Frame → Nat
  | box b | grabbing b | grabbed b _ | asserting b _ => b.owns
  | newcopy _ | swapping _ | swapped _ | retiring | retired | resetting => 1
  | _ => 0

theorem Frame.reads_le (f : Frame) : f.reads ≤ f.holds + f.leaves + f.frees := by
  cases f <;> simp [reads, holds, leaves, frees]

theorem Frame.owns_le (f : Frame) : f.owns ≤ f.holds := by
  have hbox : ∀ b : Box, b.owns ≤ 1 := by
    intro b
    cases b <;> simp [Box.owns]
  cases f with
  | box b | grabbing b => exact hbox b
  | grabbed b _ | asserting b _ => exact Nat.le_succ_of_le (hbox b)
  | _ => simp [owns, holds]

theorem Frame.leaves_le (f : Frame) : f.leaves ≤ f.reads := by
  cases f <;> simp [leaves, reads]

structure Object.Counts (o : Object) (ts : List (List Frame)) : Prop where
  reference : o.reference = weight Frame.holds ts
  bound : o.reference < 2 ^ 31
  read : o.read = weight Frame.reads ts
  write : weight Frame.writes ts = if o.write then 1 else 0
  exclusive : o.write = true → o.read = 0
  frees : weight Frame.frees ts = if o.reference = 0 then 1 else 0
  leaves : o.reference = 0 → weight Frame.leaves ts = 0
  copy : weight Frame.owns ts = if o.copy.isSome then 1 else 0

/-- Nobody has anything to do with an object that is freed. -/
structure Counted (m : Memory μ) (ts : List (List Frame)) : Prop where
  here : ∀ o, m.obj = some o → o.Counts ts
  gone : m.obj = none → weight Frame.holds ts = 0 ∧ weight Frame.reads ts = 0 ∧
    weight Frame.writes ts = 0 ∧ weight Frame.frees ts = 0

theorem weight_act (spawn : Bool) (ht : Replaces ts f fs ts') (w : Frame → Nat) :
    weight w (ts' ++ spawned spawn) + w f =
      weight w ts + (fs.map w).sum + if spawn then w .pointer else 0 := by
  rw [weight_append]
  have := ht.weight w
  cases spawn with
  | true =>
    have hone : weight w (spawned true) = w .pointer := Nat.add_zero _
    rw [hone, if_pos rfl]
    omega
  | false =>
    have hnone : weight w (spawned false) = 0 := rfl
    rw [hnone, if_neg (by simp)]
    omega

theorem weight_act_of_pointer {w : Frame → Nat} (hw : w .pointer = 0) (spawn : Bool)
    (ht : Replaces ts f fs ts') :
    weight w (ts' ++ spawned spawn) + w f = weight w ts + (fs.map w).sum := by
  rw [weight_act spawn ht w, hw, ite_self, Nat.add_zero]

section Object

variable {o' : Object}

theorem Object.Counts.act (h : o.Counts ts) (ht : Replaces ts f fs ts')
    (hreference : o'.reference + f.holds =
      o.reference + ((fs.map Frame.holds).sum + if spawn then 1 else 0 : Nat))
    (hbound : o'.reference < 2 ^ 31)
    (hread : o'.read + f.reads = o.read + (fs.map Frame.reads).sum)
    (hwrite : (if o'.write then 1 else 0) + f.writes =
      (if o.write then 1 else 0) + (fs.map Frame.writes).sum)
    (hexclusive : o'.write = true → o'.read = 0)
    (hfrees : (if o'.reference = 0 then 1 else 0) + f.frees =
      (if o.reference = 0 then 1 else 0) + (fs.map Frame.frees).sum)
    (hleaves : o'.reference = 0 → weight Frame.leaves (ts' ++ spawned spawn) = 0)
    (hcopy : (if o'.copy.isSome then 1 else 0) + f.owns =
      (if o.copy.isSome then 1 else 0) + (fs.map Frame.owns).sum) :
    o'.Counts (ts' ++ spawned spawn) := by
  have hholds : weight Frame.holds (ts' ++ spawned spawn) + f.holds =
      weight Frame.holds ts + (fs.map Frame.holds).sum + if spawn then 1 else 0 :=
    weight_act spawn ht Frame.holds
  have hreads := weight_act_of_pointer (w := Frame.reads) rfl spawn ht
  have hwrites := weight_act_of_pointer (w := Frame.writes) rfl spawn ht
  have hfrees' := weight_act_of_pointer (w := Frame.frees) rfl spawn ht
  have howns := weight_act_of_pointer (w := Frame.owns) rfl spawn ht
  have h1 := h.reference
  have h2 := h.read
  have h3 := h.write
  have h4 := h.frees
  have h5 := h.copy
  refine ⟨?_, hbound, ?_, ?_, hexclusive, ?_, hleaves, ?_⟩
  · omega
  · omega
  · omega
  · omega
  · omega

theorem Object.Counts.step (h : o.Counts ts) (ht : Replaces ts f fs ts')
    (hreference : o'.reference = o.reference)
    (hholds : f.holds = (fs.map Frame.holds).sum + if spawn then 1 else 0)
    (hread : o'.read + f.reads = o.read + (fs.map Frame.reads).sum)
    (hwrite : (if o'.write then 1 else 0) + f.writes =
      (if o.write then 1 else 0) + (fs.map Frame.writes).sum)
    (hexclusive : o'.write = true → o'.read = 0)
    (hfrees : f.frees = (fs.map Frame.frees).sum)
    (hleaves : (fs.map Frame.leaves).sum ≤ f.leaves)
    (hcopy : (if o'.copy.isSome then 1 else 0) + f.owns =
      (if o.copy.isSome then 1 else 0) + (fs.map Frame.owns).sum) :
    o'.Counts (ts' ++ spawned spawn) := by
  refine h.act ht (by rw [hreference, hholds]) (hreference ▸ h.bound) hread hwrite hexclusive
    (by rw [hreference, hfrees]) (fun hzero => ?_) hcopy
  have hleaving := weight_act_of_pointer (w := Frame.leaves) rfl spawn ht
  have := h.leaves (hreference ▸ hzero)
  omega

theorem Object.Counts.holds_le (h : o.Counts ts) (hf : f ∈ ts.flatten) :
    (f.holds : Int) ≤ o.reference := by
  have := le_weight Frame.holds hf
  have := h.reference
  omega

theorem Object.Counts.reads_le (h : o.Counts ts) (hf : f ∈ ts.flatten) : f.reads ≤ o.read := by
  have := le_weight Frame.reads hf
  have := h.read
  omega

theorem Object.Counts.writes_le (h : o.Counts ts) (hf : f ∈ ts.flatten) (hw : f.writes = 1) :
    o.write = true := by
  have hle := le_weight Frame.writes hf
  have hwrite := h.write
  by_contra hnot
  rw [if_neg hnot] at hwrite
  omega

theorem Object.Counts.runlock (h : o.Counts ts) (ht : Replaces ts f fs ts') (hreads : f.reads = 1)
    (hfs : (fs.map Frame.reads).sum = 0) (hholds : f.holds = (fs.map Frame.holds).sum)
    (hwrites : f.writes = (fs.map Frame.writes).sum) (hfrees : f.frees = (fs.map Frame.frees).sum)
    (hleaves : (fs.map Frame.leaves).sum ≤ f.leaves) (howns : f.owns = (fs.map Frame.owns).sum) :
    Object.Counts { o with read := o.read - 1 } (ts' ++ spawned false) := by
  have hpos := h.reads_le ht.mem
  refine h.step ht rfl hholds ?_ ?_ (fun hw => ?_) hfrees hleaves ?_
  · show o.read - 1 + f.reads = o.read + (fs.map Frame.reads).sum
    omega
  · rw [hwrites]
  · have := h.exclusive hw
    omega
  · rw [howns]

theorem Object.Counts.freed (h : o.Counts ts) (ht : Replaces ts f fs ts') (hfrees : f.frees = 1)
    (hlock : f.reads + f.writes = 1) (hholds : (fs.map Frame.holds).sum = 0)
    (hreads : (fs.map Frame.reads).sum = 0) (hwrites : (fs.map Frame.writes).sum = 0)
    (hfs : (fs.map Frame.frees).sum = 0) :
    weight Frame.holds (ts' ++ spawned false) = 0 ∧ weight Frame.reads (ts' ++ spawned false) = 0 ∧
      weight Frame.writes (ts' ++ spawned false) = 0 ∧
      weight Frame.frees (ts' ++ spawned false) = 0 := by
  have e1 : weight Frame.holds (ts' ++ spawned false) + f.holds =
      weight Frame.holds ts + (fs.map Frame.holds).sum := weight_act false ht Frame.holds
  have e2 := weight_act_of_pointer (w := Frame.reads) rfl false ht
  have e3 := weight_act_of_pointer (w := Frame.writes) rfl false ht
  have e4 := weight_act_of_pointer (w := Frame.frees) rfl false ht
  have hle := le_weight Frame.frees ht.mem
  have hfree := h.frees
  have hzero : o.reference = 0 := by
    by_contra hne
    rw [if_neg hne] at hfree
    omega
  rw [if_pos hzero] at hfree
  have href := h.reference
  have hleaves := h.leaves hzero
  have hread := h.read
  have hwrite := h.write
  have hexclusive := h.exclusive
  have hbound : weight Frame.reads ts ≤ 0 + 0 + 1 := by
    have := weight_le Frame.reads_le ts
    rw [weight_add, weight_add] at this
    omega
  cases hw : o.write with
  | true =>
    rw [hw, if_pos rfl] at hwrite
    have := hexclusive hw
    omega
  | false =>
    rw [hw, if_neg (by simp)] at hwrite
    have := le_weight Frame.writes ht.mem
    omega

theorem Counted.change (h : Counted m ts) (ho : m.obj = some o) (hm : m'.obj = some o')
    (hcounts : o.Counts ts → o'.Counts ts') : Counted m' ts' := by
  refine ⟨fun o'' h' => ?_, fun h' => ?_⟩
  · rw [hm] at h'
    obtain rfl := Option.some.inj h'
    exact hcounts (h.here o ho)
  · rw [hm] at h'
    cases h'

theorem Counted.keep (h : Counted m ts) (ht : Replaces ts f fs ts') (hm : m'.obj = m.obj)
    (hholds : f.holds = (fs.map Frame.holds).sum + if spawn then 1 else 0)
    (hreads : f.reads = (fs.map Frame.reads).sum)
    (hwrites : f.writes = (fs.map Frame.writes).sum)
    (hfrees : f.frees = (fs.map Frame.frees).sum)
    (hleaves : f.leaves = (fs.map Frame.leaves).sum)
    (howns : f.owns = (fs.map Frame.owns).sum) : Counted m' (ts' ++ spawned spawn) := by
  refine ⟨fun o ho => ?_, fun hnone => ?_⟩
  · rw [hm] at ho
    have hc := h.here o ho
    refine hc.act ht (by omega) hc.bound (by omega) (by omega) hc.exclusive (by omega) ?_ (by omega)
    intro hzero
    have hleaving := weight_act_of_pointer (w := Frame.leaves) rfl spawn ht
    have := hc.leaves hzero
    omega
  · rw [hm] at hnone
    obtain ⟨h1, h2, h3, h4⟩ := h.gone hnone
    have e1 : weight Frame.holds (ts' ++ spawned spawn) + f.holds =
        weight Frame.holds ts + (fs.map Frame.holds).sum + if spawn then 1 else 0 :=
      weight_act spawn ht Frame.holds
    have e2 := weight_act_of_pointer (w := Frame.reads) rfl spawn ht
    have e3 := weight_act_of_pointer (w := Frame.writes) rfl spawn ht
    have e4 := weight_act_of_pointer (w := Frame.frees) rfl spawn ht
    omega

theorem Counted.act (h : Counted m ts) (hact : Act m f e fs spawn m')
    (ht : Replaces ts f fs ts') (hclear : Clear ⟨m, ts⟩ e) : Counted m' (ts' ++ spawned spawn) := by
  have hf := ht.mem
  cases hact with
  | update a msg => exact h.keep ht rfl rfl rfl rfl rfl rfl rfl
  | wlock a o ho hw hr =>
    refine h.change ho rfl fun hc => hc.step ht rfl rfl rfl ?_ (fun _ => hr) rfl (Nat.le_refl 0) rfl
    simp [hw, Frame.writes]
  | swap a o c ho =>
    refine h.change ho rfl fun hc => hc.step ht rfl rfl rfl rfl hc.exclusive rfl (Nat.le_refl 0) ?_
    have hcopy := hc.copy
    have howns := le_weight Frame.owns hf
    simp only [Frame.owns] at howns
    split at hcopy
    · simp [Frame.owns, *]
    · omega
  | wunlock old o ho =>
    refine h.change ho rfl fun hc =>
      hc.step ht rfl rfl rfl ?_ (fun hw => by cases hw) rfl (Nat.le_refl 0) rfl
    simp [hc.writes_le hf rfl, Frame.writes]
  | retire o ho hcopy => exact h.keep ht rfl rfl rfl rfl rfl rfl rfl
  | wlockRetire o ho hw hr =>
    refine h.change ho rfl fun hc => hc.step ht rfl rfl rfl ?_ (fun _ => hr) rfl (Nat.le_refl 0) rfl
    simp [hw, Frame.writes]
  | releaseLast o ho => exact h.keep ht rfl rfl rfl rfl rfl rfl rfl
  | reset o ho =>
    refine h.change ho rfl fun hc => hc.step ht rfl rfl rfl rfl hc.exclusive rfl (Nat.le_refl 0) ?_
    have hcopy := hc.copy
    have howns := le_weight Frame.owns hf
    simp only [Frame.owns] at howns
    split at hcopy
    · simp [Frame.owns, *]
    · omega
  | count o ho =>
    refine h.change ho rfl fun hc => ?_
    have hpos := hc.holds_le hf
    have hbound := hc.bound
    have hint : int (o.reference - 1) = o.reference - 1 := by
      refine int_eq ?_ ?_
      · simp only [Frame.holds] at hpos
        omega
      · omega
    have hwrite := hc.writes_le hf rfl
    have hread := hc.exclusive hwrite
    rw [hint] at ht ⊢
    simp only [Frame.holds] at hpos
    have hleaves : weight Frame.leaves ts = 0 := by
      have hle := weight_le Frame.leaves_le ts
      have := hc.read
      omega
    have hleaves' : ∀ fs, Replaces ts .counting fs ts' → (fs.map Frame.leaves).sum = 0 →
        weight Frame.leaves (ts' ++ spawned false) = 0 := by
      intro fs ht hfs
      have hact : weight Frame.leaves (ts' ++ spawned false) + 0 = _ :=
        weight_act_of_pointer rfl false ht
      omega
    by_cases hlast : o.reference - 1 > 0
    · rw [if_pos hlast] at ht
      refine hc.act ht (by simp [Frame.holds]) (by show o.reference - 1 < _; omega) rfl rfl
        hc.exclusive ?_ (fun _ => hleaves' _ ht rfl) rfl
      rw [if_neg (show ¬ o.reference - 1 = 0 by omega), if_neg (show ¬ o.reference = 0 by omega)]
      rfl
    · rw [if_neg hlast] at ht
      refine hc.act ht (by simp [Frame.holds]) (by show o.reference - 1 < _; omega) rfl rfl
        hc.exclusive ?_ (fun _ => hleaves' _ ht rfl) rfl
      rw [if_pos (show o.reference - 1 = 0 by omega), if_neg (show ¬ o.reference = 0 by omega)]
      rfl
  | unlock o ho =>
    refine h.change ho rfl fun hc =>
      hc.step ht rfl rfl rfl ?_ (fun hw => by cases hw) rfl (Nat.le_refl 0) rfl
    simp [hc.writes_le hf rfl, Frame.writes]
  | freeObj o ho =>
    refine ⟨fun _ hsome => (by cases hsome), fun _ => ?_⟩
    exact (h.here o ho).freed ht rfl rfl rfl rfl rfl rfl
  | grab b o ho hw =>
    refine h.change ho rfl fun hc =>
      hc.step ht rfl rfl rfl rfl (fun hw' => ?_) rfl (Nat.le_refl 0) rfl
    exact absurd (hw.symm.trans hw') (by simp)
  | grabInc b o ho =>
    refine h.change ho rfl fun hc => ?_
    have hpos := hc.holds_le hf
    have hmax : o.reference < 2 ^ 31 - 1 := hclear
    simp only [Frame.holds] at hpos
    rw [int_eq (by omega) (by omega)]
    refine hc.act ht ?_ (by show o.reference + 1 < _; omega) rfl rfl hc.exclusive ?_
      (fun hzero => ?_) rfl
    · simp [Frame.holds]
      omega
    · rw [if_neg (show ¬ o.reference + 1 = 0 by omega), if_neg (show ¬ o.reference = 0 by omega)]
      rfl
    · have : o.reference + 1 = 0 := hzero
      omega
  | grabUnlock b ref o ho =>
    exact h.change ho rfl fun hc => hc.runlock ht rfl rfl rfl rfl rfl (Nat.le_refl 0) rfl
  | grabAssert b ref | newreader => exact h.keep ht rfl rfl rfl rfl rfl rfl rfl
  | rlock l seen o ho hw =>
    refine h.change ho rfl fun hc =>
      hc.step ht rfl rfl rfl rfl (fun hw' => ?_) rfl (Nat.le_refl 0) rfl
    exact absurd (hw.symm.trans hw') (by simp)
  | load | loadNull | inc a l seen now c hc => exact h.keep ht rfl rfl rfl rfl rfl rfl rfl
  | runlock ret ref l seen now o ho =>
    exact h.change ho rfl fun hc => hc.runlock ht rfl rfl rfl rfl rfl (Nat.le_refl 0) rfl
  | same | changed | call | noCall => exact h.keep ht rfl rfl rfl rfl rfl rfl rfl
  | delete l seen o ho hw =>
    refine h.change ho rfl fun hc =>
      hc.step ht rfl rfl rfl rfl (fun hw' => ?_) rfl (Nat.le_refl 0) rfl
    exact absurd (hw.symm.trans hw') (by simp)
  | dec l o ho hne =>
    refine h.change ho rfl fun hc => ?_
    have hpos := hc.holds_le hf
    have hbound := hc.bound
    simp only [Frame.holds] at hpos
    rw [int_eq (by omega) (by omega)] at hne ⊢
    refine hc.act ht ?_ (by show o.reference - 1 < _; omega) rfl rfl hc.exclusive ?_
      (fun hzero => absurd hzero hne) rfl
    · simp [Frame.holds]
    · rw [if_neg hne, if_neg (show ¬ o.reference = 0 by omega)]
      rfl
  | decLast l o ho hzero =>
    refine h.change ho rfl fun hc => ?_
    have hpos := hc.holds_le hf
    have hbound := hc.bound
    simp only [Frame.holds] at hpos
    rw [int_eq (by omega) (by omega)] at hzero ⊢
    have hleaves : weight Frame.leaves ts = 0 := by
      refine weight_eq_zero Frame.leaves_le hf ?_ rfl
      rw [← hc.read, hclear o ho]
      exact Nat.le_refl 1
    refine hc.act ht ?_ (by show o.reference - 1 < _; omega) rfl rfl hc.exclusive ?_
      (fun _ => ?_) rfl
    · simp [Frame.holds]
    · rw [if_pos hzero, if_neg (show ¬ o.reference = 0 by omega)]
      rfl
    · have hact := weight_act_of_pointer (w := Frame.leaves) rfl false ht
      simp only [Frame.leaves, List.map_cons, List.map_nil, List.sum_cons, List.sum_nil] at hact
      omega
  | runlockDeleted l o ho =>
    exact h.change ho rfl fun hc => hc.runlock ht rfl rfl rfl rfl rfl (Nat.zero_le 1) rfl
  | freeLast l o ho =>
    refine ⟨fun _ hsome => (by cases hsome), fun _ => ?_⟩
    exact (h.here o ho).freed ht rfl rfl rfl rfl rfl rfl
  | releaseNull => exact h.keep ht rfl rfl rfl rfl rfl rfl rfl
  | release a c hc =>
    split at ht
    · exact h.keep ht rfl rfl rfl rfl rfl rfl rfl
    · exact h.keep ht rfl rfl rfl rfl rfl rfl rfl
  | free a c hc => exact h.keep ht rfl rfl rfl rfl rfl rfl rfl

end Object

end XsServer.Stm
