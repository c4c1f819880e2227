import XsServer.Stm.Counts

/-! The counters of the copies: the object, the readers and the frames that have the address of a
copy.  A copy is about to be freed exactly when nobody has its address. -/

namespace XsServer.Stm

open XsServer.Lib

variable {μ : Type*} {m m' : Memory μ} {f : Frame} {e : Event μ} {fs : List Frame} {spawn : Bool}
variable {ts ts' : List (List Frame)} {o : Object} {a b : Nat}

def ptr (p : Option Nat) (a : Nat) : Nat := if p = some a then 1 else 0

@[simp] theorem ptr_none (a : Nat) : ptr none a = 0 := rfl

@[simp] theorem ptr_self (a : Nat) : ptr (some a) a = 1 := if_pos rfl

theorem ptr_of_ne (h : b ≠ a) : ptr (some a) b = 0 := by simp [ptr, Ne.symm h]

def Box.refs (a : Nat) : Box → Nat
  | writer => 0
  | reader lastcopy _ => ptr lastcopy a

def Frame.refs (a : Nat) : Frame → Nat
  | box b | grabbing b | grabbed b _ | asserting b _ => b.refs a
  | newcopy copy | swapping copy => ptr (some copy) a
  | swapped oldcopy => ptr oldcopy a
  | copying lastcopy _ _ | loaded _ lastcopy _ _ | deleting lastcopy | deleted lastcopy
  | last lastcopy => ptr lastcopy a
  | counted ret _ lastcopy _ _ | copied ret lastcopy _ _ => ptr ret a + ptr lastcopy a
  | took ret _ _ => ptr ret a
  | release copy => ptr copy a
  | _ => 0

def Frame.freesCopy (a : Nat) : Frame → Nat
  | free copy => ptr (some copy) a
  | _ => 0

def Frame.resets : Frame → Nat
  | resetting => 1
  | _ => 0

def published (m : Memory μ) (ts : List (List Frame)) : Option Nat :=
  if weight Frame.resets ts = 0 then m.obj.bind Object.copy else none

/-- `reference`, or 0 if nothing is there. -/
def Memory.ref (m : Memory μ) (a : Nat) : Int :=
  match m.copies a with
  | some c => c.reference
  | none => 0

theorem Memory.ref_some {c : Copy μ} (h : m.copies a = some c) : m.ref a = c.reference := by
  rw [Memory.ref, h]

theorem Memory.ref_none (h : m.copies a = none) : m.ref a = 0 := by
  rw [Memory.ref, h]

theorem Memory.ref_congr (h : m'.copies a = m.copies a) : m'.ref a = m.ref a := by
  rw [Memory.ref, Memory.ref, h]

structure CopiesCounted (m : Memory μ) (ts : List (List Frame)) : Prop where
  reference : ∀ a, m.ref a = weight (Frame.refs a) ts + ptr (published m ts) a
  bound : ∀ a, m.ref a < 2 ^ 31
  frees : ∀ a, weight (Frame.freesCopy a) ts = if (m.copies a).isSome ∧ m.ref a = 0 then 1 else 0

theorem CopiesCounted.alive (h : CopiesCounted m ts)
    (hpos : 0 < weight (Frame.refs a) ts + ptr (published m ts) a) :
    ∃ c, m.copies a = some c ∧ 0 < c.reference := by
  have href := h.reference a
  cases hc : m.copies a with
  | some c =>
    refine ⟨c, rfl, ?_⟩
    rw [Memory.ref_some hc] at href
    omega
  | none =>
    rw [Memory.ref_none hc] at href
    omega

theorem CopiesCounted.alive_of_mem (h : CopiesCounted m ts) (hf : f ∈ ts.flatten)
    (hpos : 0 < f.refs a) : ∃ c, m.copies a = some c ∧ 0 < c.reference := by
  refine h.alive ?_
  have := le_weight (Frame.refs a) hf
  omega

theorem published_act (ht : Replaces ts f fs ts')
    (hobj : m'.obj.bind Object.copy = m.obj.bind Object.copy)
    (hresets : f.resets = (fs.map Frame.resets).sum) :
    published m' (ts' ++ spawned spawn) = published m ts := by
  have hact := weight_act_of_pointer (w := Frame.resets) rfl spawn ht
  have hsame : weight Frame.resets (ts' ++ spawned spawn) = weight Frame.resets ts := by omega
  rw [published, published, hsame, hobj]

theorem Object.Counts.resets_eq_zero (h : o.Counts ts) (hf : f ∈ ts.flatten) (howns : f.owns = 1)
    (hresets : f.resets = 0) : weight Frame.resets ts = 0 := by
  refine weight_eq_zero (w := Frame.owns) ?_ hf ?_ hresets
  · intro g
    cases g <;> simp [Frame.resets, Frame.owns]
  · have := h.copy
    split at this <;> omega

theorem Object.Counts.copy_none (h : o.Counts ts) (hzero : o.reference = 0) : o.copy = none := by
  have howns := weight_le Frame.owns_le ts
  have hreference := h.reference
  have hcopy := h.copy
  by_contra hne
  rw [if_pos (Option.isSome_iff_ne_none.mpr hne)] at hcopy
  omega

theorem CopiesCounted.keep (h : CopiesCounted m ts) (ht : Replaces ts f fs ts')
    (href : ∀ a, m'.ref a = m.ref a) (hsome : ∀ a, (m'.copies a).isSome = (m.copies a).isSome)
    (hrefs : ∀ a, f.refs a + ptr (published m ts) a =
      (fs.map (Frame.refs a)).sum + ptr (published m' (ts' ++ spawned spawn)) a)
    (hfrees : ∀ a, f.freesCopy a = (fs.map (Frame.freesCopy a)).sum) :
    CopiesCounted m' (ts' ++ spawned spawn) := by
  refine ⟨fun a => ?_, fun a => by rw [href]; exact h.bound a, fun a => ?_⟩
  · have hact := weight_act_of_pointer (w := Frame.refs a) rfl spawn ht
    have := h.reference a
    have := hrefs a
    rw [href]
    omega
  · have hact := weight_act_of_pointer (w := Frame.freesCopy a) rfl spawn ht
    have := h.frees a
    have := hfrees a
    rw [href, hsome]
    omega

theorem CopiesCounted.change (h : CopiesCounted m ts) (ht : Replaces ts f fs ts') {a : Nat}
    {c : Option (Copy μ)} (hcopies : m'.copies = Function.update m.copies a c)
    (hpub : published m' (ts' ++ spawned spawn) = published m ts) (hbound : m'.ref a < 2 ^ 31)
    (href : m'.ref a + f.refs a = m.ref a + (fs.map (Frame.refs a)).sum)
    (hfrees : (if c.isSome ∧ m'.ref a = 0 then 1 else 0) + f.freesCopy a =
      (if (m.copies a).isSome ∧ m.ref a = 0 then 1 else 0) + (fs.map (Frame.freesCopy a)).sum)
    (hrefs : ∀ b, b ≠ a → f.refs b = (fs.map (Frame.refs b)).sum)
    (hfrees' : ∀ b, b ≠ a → f.freesCopy b = (fs.map (Frame.freesCopy b)).sum) :
    CopiesCounted m' (ts' ++ spawned spawn) := by
  have hself : m'.copies a = c := by rw [hcopies, Function.update_self]
  have hother : ∀ b, b ≠ a → m'.copies b = m.copies b := fun b hb => by
    rw [hcopies, Function.update_of_ne hb]
  refine ⟨fun b => ?_, fun b => ?_, fun b => ?_⟩
  · have hact := weight_act_of_pointer (w := Frame.refs b) rfl spawn ht
    have := h.reference b
    rw [hpub]
    by_cases hb : b = a
    · subst hb
      omega
    · rw [Memory.ref_congr (hother b hb)]
      have := hrefs b hb
      omega
  · by_cases hb : b = a
    · rw [hb]
      exact hbound
    · rw [Memory.ref_congr (hother b hb)]
      exact h.bound b
  · have hact := weight_act_of_pointer (w := Frame.freesCopy b) rfl spawn ht
    have := h.frees b
    by_cases hb : b = a
    · subst hb
      rw [hself]
      omega
    · rw [Memory.ref_congr (hother b hb), hother b hb]
      have := hfrees' b hb
      omega

theorem CopiesCounted.same (h : CopiesCounted m ts) (ht : Replaces ts f fs ts')
    (hcopies : m'.copies = m.copies) (hobj : m'.obj.bind Object.copy = m.obj.bind Object.copy)
    (hresets : f.resets = (fs.map Frame.resets).sum)
    (hrefs : ∀ a, f.refs a = (fs.map (Frame.refs a)).sum)
    (hfrees : ∀ a, f.freesCopy a = (fs.map (Frame.freesCopy a)).sum) :
    CopiesCounted m' (ts' ++ spawned spawn) :=
  h.keep ht (fun a => Memory.ref_congr (by rw [hcopies])) (fun a => by rw [hcopies])
    (fun a => by rw [published_act ht hobj hresets, hrefs]) hfrees

theorem CopiesCounted.act (h : CopiesCounted m ts) (hc : Counted m ts)
    (hact : Act m f e fs spawn m') (ht : Replaces ts f fs ts') (hclear : Clear ⟨m, ts⟩ e)
    (hloaded : ∀ a lastcopy seen now, f = .loaded (some a) lastcopy seen now →
      published m ts = some a) : CopiesCounted m' (ts' ++ spawned spawn) := by
  have hf := ht.mem
  cases hact with
  | update a msg ha =>
    have hnew : (m.setCopy a (some ⟨1, msg, none⟩)).ref a = 1 :=
      by rw [Memory.ref_some (Function.update_self ..)]
    refine h.change ht rfl (published_act ht rfl rfl) ?_ ?_ ?_ ?_ fun b _ => rfl
    · rw [hnew]
      decide
    · rw [hnew, Memory.ref_none ha]
      simp [Frame.refs, Box.refs]
    · rw [hnew, ha]
      simp [Frame.freesCopy]
    · intro b hb
      simp [Frame.refs, Box.refs, ptr_of_ne hb]
  | wlock a o ho => exact h.same ht rfl (by rw [ho]; rfl) rfl (fun _ => rfl) fun _ => rfl
  | swap a o c ho hcopy =>
    have hresets := (hc.here o ho).resets_eq_zero hf rfl rfl
    have hbefore : published m ts = o.copy := by
      rw [published, if_pos hresets, ho]
      rfl
    have hresets' : weight Frame.resets (ts' ++ spawned false) = 0 := by
      have hact : weight Frame.resets (ts' ++ spawned false) + 0 = _ :=
        weight_act_of_pointer rfl false ht
      rw [hresets] at hact
      exact hact
    have hafter : published (⟨some { o with copy := some a },
        Function.update m.copies a (some { c with no := some m.msgs.length }),
        m.msgs ++ [c.msg]⟩ : Memory μ) (ts' ++ spawned false) = some a := by
      rw [published, if_pos hresets']
      rfl
    refine h.keep ht (fun b => ?_) (fun b => ?_) (fun b => ?_) fun b => rfl
    · by_cases hb : b = a
      · subst hb
        rw [Memory.ref_some hcopy, Memory.ref_some (Function.update_self ..)]
      · exact Memory.ref_congr (Function.update_of_ne hb ..)
    · by_cases hb : b = a
      · subst hb
        rw [hcopy]
        show (Function.update m.copies b _ b).isSome = _
        rw [Function.update_self]
        rfl
      · exact congrArg Option.isSome (Function.update_of_ne hb ..)
    · rw [hbefore, hafter]
      simp [Frame.refs, Nat.add_comm]
  | wunlock old o ho => exact h.same ht rfl (by rw [ho]; rfl) rfl (fun _ => rfl) fun _ => rfl
  | retire o ho hcopy => exact h.same ht rfl rfl rfl (fun _ => rfl) fun _ => rfl
  | wlockRetire o ho => exact h.same ht rfl (by rw [ho]; rfl) rfl (fun _ => rfl) fun _ => rfl
  | releaseLast o ho =>
    have hresets := (hc.here o ho).resets_eq_zero hf rfl rfl
    have hbefore : published m ts = o.copy := by
      rw [published, if_pos hresets, ho]
      rfl
    have hafter : published m (ts' ++ spawned false) = none := by
      have hact : weight Frame.resets (ts' ++ spawned false) + 0 = weight Frame.resets ts + 1 :=
        weight_act_of_pointer rfl false ht
      rw [published, if_neg (by omega)]
    refine h.keep ht (fun a => rfl) (fun a => rfl) (fun a => ?_) fun a => rfl
    rw [hbefore, hafter]
    simp [Frame.refs]
  | reset o ho =>
    have hbefore : published m ts = none := by
      have hle := le_weight Frame.resets hf
      rw [published, if_neg (show ¬ weight Frame.resets ts = 0 from Nat.one_le_iff_ne_zero.mp hle)]
    have hafter : published (m.setObj { o with copy := none }) (ts' ++ spawned false) = none :=
      ite_self _
    refine h.keep ht (fun a => rfl) (fun a => rfl) (fun a => ?_) fun a => rfl
    rw [hbefore, hafter]
    rfl
  | count o ho =>
    split at ht
    · exact h.same ht rfl (by rw [ho]; rfl) rfl (fun _ => rfl) fun _ => rfl
    · exact h.same ht rfl (by rw [ho]; rfl) rfl (fun _ => rfl) fun _ => rfl
  | unlock o ho => exact h.same ht rfl (by rw [ho]; rfl) rfl (fun _ => rfl) fun _ => rfl
  | freeObj o ho =>
    have hcounts := hc.here o ho
    have hfree := hcounts.frees
    have hle := le_weight Frame.frees hf
    have hzero : o.reference = 0 := by
      by_contra hne
      rw [if_neg hne] at hfree
      rw [hfree] at hle
      exact absurd hle (by decide)
    refine h.same ht rfl ?_ rfl (fun _ => rfl) fun _ => rfl
    rw [ho]
    exact (hcounts.copy_none hzero).symm
  | grab b o ho | grabInc b o ho | grabUnlock b ref o ho =>
    exact h.same ht rfl (by rw [ho]; rfl) rfl (fun _ => rfl) fun _ => rfl
  | grabAssert b ref | newreader => exact h.same ht rfl rfl rfl (fun _ => rfl) fun _ => rfl
  | rlock l seen o ho => exact h.same ht rfl (by rw [ho]; rfl) rfl (fun _ => rfl) fun _ => rfl
  | load => exact h.same ht rfl rfl rfl (fun _ => rfl) fun _ => rfl
  | loadNull => exact h.same ht rfl rfl rfl (fun _ => by simp [Frame.refs]) fun _ => rfl
  | inc a l seen now c hcopy =>
    have hpub := hloaded a l seen now rfl
    obtain ⟨c', hc', hpos⟩ := h.alive (a := a) (by rw [hpub, ptr_self]; omega)
    obtain rfl := Option.some.inj (hcopy.symm.trans hc')
    have hmax : c.reference < 2 ^ 31 - 1 := hclear
    have hold := Memory.ref_some hcopy
    have hnew : (m.setCopy a (some { c with reference := int (c.reference + 1) })).ref a =
        c.reference + 1 := by
      rw [Memory.ref_some (Function.update_self ..)]
      exact int_eq (by omega) (by omega)
    refine h.change ht rfl (published_act ht rfl rfl) ?_ ?_ ?_ ?_ fun b _ => rfl
    · rw [hnew]
      omega
    · rw [hnew, hold]
      simp [Frame.refs]
      omega
    · rw [hnew, hold, if_neg (by omega), if_neg (by omega)]
      rfl
    · intro b hb
      simp [Frame.refs, ptr_of_ne hb]
  | runlock ret ref l seen now o ho =>
    exact h.same ht rfl (by rw [ho]; rfl) rfl (fun _ => rfl) fun _ => rfl
  | same => exact h.same ht rfl rfl rfl (fun _ => rfl) fun _ => rfl
  | changed =>
    refine h.same ht rfl rfl rfl (fun _ => ?_) fun _ => rfl
    simp [Frame.refs, Nat.add_comm]
  | call | noCall => exact h.same ht rfl rfl rfl (fun _ => rfl) fun _ => rfl
  | delete l seen o ho | dec l o ho | decLast l o ho | runlockDeleted l o ho =>
    exact h.same ht rfl (by rw [ho]; rfl) rfl (fun _ => rfl) fun _ => rfl
  | freeLast l o ho hcopy =>
    refine h.same ht rfl ?_ rfl (fun _ => rfl) fun _ => rfl
    rw [ho]
    exact hcopy.symm
  | releaseNull => exact h.same ht rfl rfl rfl (fun _ => rfl) fun _ => rfl
  | release a c hcopy =>
    obtain ⟨c', hc', hpos⟩ := h.alive_of_mem hf (a := a) (by simp [Frame.refs])
    obtain rfl := Option.some.inj (hcopy.symm.trans hc')
    have hold := Memory.ref_some hcopy
    have hbound := h.bound a
    rw [hold] at hbound
    have hint : int (c.reference - 1) = c.reference - 1 := int_eq (by omega) (by omega)
    have hnew : (m.setCopy a (some { c with reference := int (c.reference - 1) })).ref a =
        c.reference - 1 := by
      rw [Memory.ref_some (Function.update_self ..)]
      exact hint
    rw [hint] at ht
    by_cases hzero : c.reference - 1 = 0
    · rw [if_pos hzero] at ht
      refine h.change ht rfl (published_act ht rfl rfl) ?_ ?_ ?_ ?_ ?_
      · rw [hnew]
        omega
      · rw [hnew, hold]
        simp [Frame.refs]
      · rw [hnew, hold, if_pos ⟨rfl, hzero⟩, if_neg (by omega)]
        simp [Frame.freesCopy]
      · intro b hb
        simp [Frame.refs, ptr_of_ne hb]
      · intro b hb
        simp [Frame.freesCopy, ptr_of_ne hb]
    · rw [if_neg hzero] at ht
      refine h.change ht rfl (published_act ht rfl rfl) ?_ ?_ ?_ ?_ fun b _ => rfl
      · rw [hnew]
        omega
      · rw [hnew, hold]
        simp [Frame.refs]
      · rw [hnew, hold, if_neg (by omega), if_neg (by omega)]
        rfl
      · intro b hb
        simp [Frame.refs, ptr_of_ne hb]
  | free a c hcopy =>
    have hfree := h.frees a
    have hle := le_weight (Frame.freesCopy a) hf
    simp only [Frame.freesCopy, ptr_self] at hle
    have hzero : m.ref a = 0 := by
      by_contra hne
      rw [if_neg (fun hand => hne hand.2)] at hfree
      omega
    have hnew : (m.setCopy a none).ref a = 0 := Memory.ref_none (Function.update_self ..)
    refine h.change ht rfl (published_act ht rfl rfl) ?_ ?_ ?_ (fun b _ => rfl) ?_
    · rw [hnew]
      decide
    · rw [hnew, hzero]
      rfl
    · rw [hnew, hcopy]
      simp [Frame.freesCopy, hzero]
    · intro b hb
      simp [Frame.freesCopy, ptr_of_ne hb]

end XsServer.Stm
