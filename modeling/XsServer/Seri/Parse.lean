import XsServer.Seri.Accept

/-! What the readers do on any stream: what they accept is in the grammar, and where they fail
with an error that is not about the stream, the stream leads to something bad.  `luaseri_unpack`
deserialises all byte strings safely but those in which it meets a string of `2^31` bytes or more,
a table key that is not a number, or a value for which the Lua stack has no room. -/

namespace XsServer.Seri

open Lib.Bytes

variable {N : Nat}

variable {B : List UInt8 → Prop}

theorem parses_map {α β : Type} {m : Reader α} {f : α → β} {P : List UInt8 → α → Prop}
    {Q : List UInt8 → β → Prop} (hm : Parses N m P B)
    (hf : ∀ w a, P w a → Q w (f a)) : Parses N (m >>= fun a => pure (f a)) Q B :=
  hm.bind (fun a w hp => Parses.pure (by rw [List.append_nil]; exact hf w a hp)) fun _ h => h

theorem parses_number {β : Type} {f : List UInt8 → β} (k : Nat) (line : Nat)
    {Q : List UInt8 → β → Prop}
    (hf : ∀ w : List UInt8, w.length = k → Q w (f w)) :
    Parses N (rbReadOr k line false >>= fun a => pure (f a)) Q B :=
  parses_map (parses_rbReadOr line (by omega) (by simp)) fun w a ⟨ha, hk⟩ => by
    rw [ha]
    exact hf w (by omega)

theorem parses_eight (line : Nat) :
    Parses N (rbReadOr 8 line false >>= fun a => pure (UInt64.ofNat (ofLe a)))
      (fun w n => w.length = 8 ∧ n = UInt64.ofNat (ofLe w)) B :=
  parses_number 8 line fun _ hw => ⟨hw, rfl⟩

theorem parses_getInteger (cookie : UInt8) :
    Parses N (getInteger cookie) (IntegerItem cookie) B := by
  unfold getInteger
  split
  · rename_i h; subst h; exact Parses.pure IntegerItem.zero
  split
  · rename_i h; subst h; exact parses_number 1 368 fun _ h => IntegerItem.byte h
  split
  · rename_i h; subst h; exact parses_number 2 376 fun _ h => IntegerItem.word h
  split
  · rename_i h; subst h; exact parses_number 4 384 fun _ h => IntegerItem.dword h
  split
  · rename_i h; subst h; exact parses_number 8 392 fun _ h => IntegerItem.qword h
  · exact Parses.invalid 397

theorem parses_getBuffer (len : Int32) :
    Parses N (getBuffer len) (fun w v => len.toInt = w.length ∧ v = .scalar (.string w))
      (fun w => len.toInt < 0 ∧ w = []) := by
  by_cases hneg : len.toInt < 0
  · intro rb r hat _
    obtain ⟨e, rb', hrun, he⟩ := fails_getBuffer hneg rb r hat
    rw [hrun]
    exact Or.inr ⟨he, [], r, rfl, hneg, rfl⟩
  · unfold getBuffer
    simp only [hneg, if_false, false_and]
    exact parses_map (parses_rbReadOr 427 (by omega) (by simp)) fun w a ⟨ha, hlen⟩ =>
      ⟨hlen, by rw [ha]⟩

theorem parses_getArraySize (cookie : Int) :
    Parses N (getArraySize cookie) (SizeItem cookie) B := by
  unfold getArraySize
  split
  · rename_i h
    subst h
    refine (parses_rbReadOr (B := fun _ => False) 440 (by omega) (by simp)).bind ?_
      fun _ h => h.elim
    rintro a w ⟨rfl, hlen⟩
    obtain ⟨tag, rfl⟩ := List.length_eq_one_iff.mp (show a.length = 1 by omega)
    simp only [ofNat_ofLe_singleton]
    split
    · exact Parses.invalid 445
    · rename_i h
      push Not at h
      exact parses_map (parses_getInteger _) fun w n hn => SizeItem.long ⟨h.1, rfl⟩ h.2 hn
  · rename_i h
    exact Parses.pure (SizeItem.short h)

theorem parses_unpackArray {item : List UInt8 → LuaTree → Prop} {bad : List UInt8 → Prop}
    {one : Reader LuaTree} (hone : Parses N one item bad) (t : List (LuaTree × LuaTree))
    (i n : Nat) :
    Parses N (unpackArray one t i n)
      (fun w t' => ∃ vs, Seq item w vs ∧ vs.length = n ∧ t' = fillArray t i vs)
      (fun w => ∃ wa vs w', w = wa ++ w' ∧ Seq item wa vs ∧ vs.length < n ∧ bad w') := by
  induction n generalizing N t i with
  | zero => exact Parses.pure ⟨[], Seq.nil, rfl, rfl⟩
  | succ n ih =>
    refine hone.bind ?_ fun w hw => ⟨[], [], w, rfl, Seq.nil, Nat.succ_pos n, hw⟩
    intro v w hv
    refine (ih (hone.anti (Nat.sub_le ..)) _ _).mono ?_ ?_
    · rintro w' t' ⟨vs, hvs, hlen, rfl⟩
      exact ⟨v :: vs, Seq.cons hv hvs, by rw [List.length_cons, hlen], rfl⟩
    · rintro w' ⟨wa, vs, wb, rfl, hvs, hlt, hb⟩
      exact ⟨w ++ wa, v :: vs, wb, by rw [List.append_assoc], Seq.cons hv hvs,
        by rw [List.length_cons]; omega, hb⟩

variable {item : Nat → List UInt8 → LuaTree → Prop} {bad : Nat → List UInt8 → Prop}
  {one : Nat → Reader LuaTree} {room : Room}

variable {fuel : Nat}

theorem parses_unpackHash (hpos : ∀ k w v, item k w v → 0 < w.length)
    (hone : ∀ k, Parses N (one k) (item k) (bad k)) (hfuel : N ≤ fuel)
    (t : List (LuaTree × LuaTree)) :
    Parses N (unpackHash one t fuel)
      (fun w t' => ∃ wp es wn, w = wp ++ wn ∧ Seq (PairItem item) wp es ∧
        item 1 wn (.scalar .nil) ∧ fillHash t es = some t')
      (fun w => ∃ wp es we t', w = wp ++ we ∧ Seq (PairItem item) wp es ∧
        fillHash t es = some t' ∧ BadPair item bad we) := by
  induction fuel generalizing N t with
  | zero =>
    intro rb r _ hlt
    omega
  | succ fuel ih =>
    unfold unpackHash
    refine (hone 1).bind ?_ fun w hw => ⟨[], [], w, t, rfl, Seq.nil, rfl, Or.inl hw⟩
    intro key wk hkey
    have hkpos := hpos _ _ _ hkey
    cases hnil : key.isNil with
    | true =>
      simp only [if_true]
      have hkey' : key = .scalar .nil := by
        cases key with
        | table => simp [LuaTree.isNil] at hnil
        | scalar s => cases s <;> simp [LuaTree.isNil] at hnil ⊢
      subst hkey'
      exact Parses.pure ⟨[], [], wk, by rw [List.append_nil]; rfl, Seq.nil, hkey, rfl⟩
    | false =>
      simp only [Bool.false_eq_true, if_false]
      refine ((hone 2).anti (Nat.sub_le ..)).bind ?_ fun w hw =>
        ⟨[], [], wk ++ w, t, rfl, Seq.nil, rfl, Or.inr ⟨wk, key, w, rfl, hkey, hnil, Or.inl hw⟩⟩
      intro value wv hvalue
      cases hset : rawset t key value with
      | none =>
        intro rb r hat _
        refine Or.inr ⟨Or.inr (Or.inl rfl), [], r, rfl, ?_⟩
        exact ⟨[], [], wk ++ wv, t, by simp, Seq.nil, rfl,
          Or.inr ⟨wk, key, wv, rfl, hkey, hnil, Or.inr ⟨value, hvalue, rawset_none hset⟩⟩⟩
      | some t1 =>
        have hpair : PairItem item (wk ++ wv) (key, value) := ⟨wk, wv, rfl, hkey, hnil, hvalue⟩
        refine (ih (fun k => (hone k).anti (by omega)) (by omega) t1).mono ?_ ?_
        · rintro w' t' ⟨wp, es, wn, rfl, hes, hwn, hfill⟩
          refine ⟨wk ++ wv ++ wp, (key, value) :: es, wn, by simp, Seq.cons hpair hes, hwn, ?_⟩
          simp [fillHash, hset, hfill]
        · rintro w' ⟨wp, es, we, t', rfl, hes, hfill, hwe⟩
          refine ⟨wk ++ wv ++ wp, (key, value) :: es, we, t', by simp, Seq.cons hpair hes, ?_, hwe⟩
          simp [fillHash, hset, hfill]

theorem parses_unpackTable (hpos : ∀ k w v, item k w v → 0 < w.length)
    (hone : ∀ k, Parses N (one k) (item k) (bad k)) (hfuel : N ≤ fuel) (cookie : Int) :
    Parses N (unpackTable one room fuel cookie) (TableItem item room cookie)
      (BadTable item bad room cookie) := by
  refine (parses_getArraySize (B := fun _ => False) cookie).bind ?_ fun _ h => h.elim
  intro size ws hsize
  by_cases hroom : room.Full
  · rw [checkstack, if_pos hroom]
    intro rb r _ _
    refine Or.inr ⟨Or.inr (Or.inr rfl), [], r, rfl, Or.inl ⟨hroom, size, ?_⟩⟩
    rwa [List.append_nil]
  rw [checkstack_eq hroom, pure_bind]
  refine (parses_unpackArray ((hone 1).anti (Nat.sub_le ..)) [] 1 size.toNat).bind ?_ ?_
  · rintro t wa ⟨vs, hvs, hlen, rfl⟩
    refine parses_map
      ((parses_unpackHash hpos (fun k => (hone k).anti (by omega)) (by omega) _).mono
        (fun _ _ h => h) ?_) ?_
    · rintro w ⟨wp, es, we, t', rfl, hes, hfill, hwe⟩
      exact Or.inr ⟨hroom, ws, size, wa, vs, wp ++ we, hsize, hvs, by simp,
        Or.inr ⟨hlen, wp, es, we, t', hes, hfill, rfl, hwe⟩⟩
    · rintro w t' ⟨wp, es, wn, rfl, hes, hnil, hfill⟩
      exact ⟨hroom, ws, size, wa, vs, wp, es, wn, t', hsize, hvs, hlen, hes, hnil, hfill, by simp,
        rfl⟩
  · rintro w ⟨wa, vs, w', rfl, hvs, hlt, hw'⟩
    exact Or.inr ⟨hroom, ws, size, wa, vs, w', hsize, hvs, rfl, Or.inl ⟨hlt, hw'⟩⟩

variable {table : Int → Reader LuaTree} {tableItem : Int → List UInt8 → LuaTree → Prop}
  {tableBad : Int → List UInt8 → Prop}

theorem toInt_ofNat_cases {n : Nat} (h : n < 2 ^ 32) :
    n < 2 ^ 31 ∧ (Int32.ofNat n).toInt = n ∨ 2 ^ 31 ≤ n ∧ (Int32.ofNat n).toInt < 0 := by
  rcases Nat.lt_or_ge n (2 ^ 31) with hlt | hge
  · exact Or.inl ⟨hlt, Int32.toInt_ofNat_of_lt hlt⟩
  · exact Or.inr ⟨hge, toInt_ofNat_neg hge h⟩

theorem parses_longString (k line : Nat) (hk : k ≤ 4) {Q : List UInt8 → LuaTree → Prop}
    (hQ : ∀ l w : List UInt8, l.length = k → w.length = ofLe l → ofLe l < 2 ^ 31 →
      Q (l ++ w) (.scalar (.string w)))
    (hB : ∀ l : List UInt8, l.length = k → 2 ^ 31 ≤ ofLe l → B l) :
    Parses N (rbReadOr k line false >>= fun l => getBuffer (Int32.ofNat (ofLe l))) Q B := by
  refine (parses_rbReadOr (B := fun _ => False) line (by omega) (by simp)).bind ?_
    fun _ h => h.elim
  rintro a l ⟨rfl, hlen⟩
  have hlen' : a.length = k := by omega
  have hlt : ofLe a < 2 ^ 32 :=
    lt_of_lt_of_le (ofLe_lt a) (by
      rw [hlen']
      exact le_trans (Nat.pow_le_pow_right (by decide) hk) (by decide))
  refine (parses_getBuffer _).mono ?_ ?_
  · rintro w v ⟨hw, rfl⟩
    rcases toInt_ofNat_cases hlt with ⟨hbound, heq⟩ | ⟨-, hneg⟩
    · exact hQ a w hlen' (by omega) hbound
    · omega
  · rintro w ⟨hneg, rfl⟩
    rw [List.append_nil]
    rcases toInt_ofNat_cases hlt with ⟨hbound, heq⟩ | ⟨hge, -⟩
    · omega
    · exact hB a hlen' hge

theorem parses_pushValue (htable : ∀ c, Parses N (table c) (tableItem c) (tableBad c))
    (type cookie : UInt8) :
    Parses N (pushValue table type cookie) (Payload tableItem type cookie)
      (BadPayload tableBad type cookie) := by
  unfold pushValue
  split
  · rename_i h; subst h; exact Parses.pure (Payload.nil cookie)
  split
  · rename_i h; subst h; exact Parses.pure (Payload.boolean cookie)
  split
  · rename_i h
    subst h
    split
    · rename_i h
      subst h
      exact parses_map (parses_eight 407) fun w n ⟨hw, hn⟩ => by rw [hn]; exact Payload.real hw
    · rename_i h
      exact parses_map (parses_getInteger cookie) fun w n hn => Payload.integer h hn
  split
  · rename_i h
    subst h
    exact parses_map (parses_eight 417) fun w n ⟨hw, hn⟩ => by
      rw [hn]
      exact Payload.userdata cookie hw
  split
  · rename_i h
    subst h
    have hc := cookie.toNat_lt
    have hlen : (Int32.ofNat cookie.toNat).toInt = cookie.toNat :=
      Int32.toInt_ofNat_of_lt (by omega)
    refine (parses_getBuffer _).mono ?_ ?_
    · rintro w v ⟨hw, rfl⟩
      exact Payload.short (by omega)
    · rintro w ⟨hneg, -⟩
      omega
  split
  · rename_i h
    subst h
    split
    · rename_i h
      subst h
      refine parses_longString 2 493 (by decide) (fun l w hl hw _ => Payload.word hl hw) ?_
      intro l hl hge
      have := ofLe_lt l
      rw [hl] at this
      omega
    split
    · exact Parses.invalid 500
    · rename_i h
      rw [not_not.mp h]
      exact parses_longString 4 504 (by decide)
        (fun l w hl hw hlt => Payload.dword hl hw hlt)
        fun l hl hge => Or.inl ⟨rfl, rfl, hl, hge⟩
  split
  · rename_i h
    subst h
    exact (htable _).mono (fun _ _ h => Payload.table h) fun _ h => Or.inr ⟨rfl, h⟩
  · exact Parses.invalid 517

theorem parses_unpackOne (hfuel : N ≤ fuel) :
    Parses N (unpackOne room fuel) (Item room fuel) (BadItem room fuel) := by
  induction fuel generalizing N room with
  | zero =>
    intro rb r _ hlt
    omega
  | succ fuel ih =>
    refine (parses_rbReadOr (B := fun _ => False) 528 (by decide) (by simp)).bind ?_
      fun _ h => h.elim
    rintro a w ⟨rfl, hlen⟩
    obtain ⟨tag, rfl⟩ := List.length_eq_one_iff.mp (show a.length = 1 by omega)
    simp only [ofNat_ofLe_singleton]
    refine (parses_pushValue (fun c => parses_unpackTable (fun _ _ _ h => h.length_pos)
      (fun k => ih ?_) ?_ c) _ _).mono ?_ ?_
    · simp only [List.length_singleton]; omega
    · simp only [List.length_singleton]; omega
    · exact fun w' v h => ⟨tag, w', rfl, h⟩
    · exact fun w' h => ⟨tag, w', rfl, h⟩

/-- With this room, every read returned `NULL` or a region of the buffer, the position never moved
backwards, no more tags were read than there are bytes, and the call returned values or the error
about the stream. -/
def Safe (room : Room) (buffer : List UInt8) : Prop :=
  match luaseriUnpackIn room buffer buffer.length with
  | .ok _ rb => SafeLog rb
  | .error e rb => SafeLog rb ∧ ∃ len line, e = .invalidStream len line

/-- After some values there is no room for the next eight, or comes a long string whose length does
not fit in an `int`, a table key that is not a number, or a table for which there is no room, maybe
inside tables. -/
def Defective (room : Room) (buffer : List UInt8) : Prop :=
  ∃ n w vs wb r, buffer = w ++ (wb ++ r) ∧ Values room n 0 w vs ∧
    (Blocked room vs.length ∧ wb = [] ∨
      ¬Blocked room vs.length ∧ BadItem (room.push vs.length) n wb)

variable {i : Nat}

theorem Values.length_le {n : Nat} {w : List UInt8} {vs : List LuaTree}
    (h : Values room n i w vs) : vs.length ≤ w.length := by
  induction h with
  | nil => exact le_rfl
  | cons _ hv _ ih =>
    have := hv.length_pos
    rw [List.length_cons, List.length_append]
    omega

theorem fails_unpackAll {n fuel m : Nat} {w wb r : List UInt8} {vs : List LuaTree}
    (h : Values room n i w vs) (hbad : Blocked room (i + vs.length) ∨
      ¬Blocked room (i + vs.length) ∧ BadItem (room.push (i + vs.length)) n wb) {rb : ReadBlock}
    (hat : At rb (w ++ (wb ++ r))) (hfuel : (w ++ wb).length ≤ fuel) (hm : vs.length < m) :
    ∃ e rb', unpackAll room fuel i m rb = .error e rb' ∧ e.Foreign := by
  induction h generalizing m rb with
  | @nil i =>
    obtain ⟨m, rfl⟩ : ∃ k, m = k + 1 := ⟨m - 1, by omega⟩
    rw [List.length_nil, Nat.add_zero] at hbad
    obtain hblocked | ⟨hroom, hbad⟩ := hbad
    · exact ⟨_, rb, unpackAll_blocked hblocked fuel m rb, Or.inr (Or.inr rfl)⟩
    cases n with
    | zero => exact hbad.elim
    | succ n =>
      obtain ⟨tag, wb', rfl, hpayload⟩ := hbad
      obtain ⟨rb', hat', hrun⟩ :=
        unpackAll_cons (show At rb (tag :: (wb' ++ r)) from hat) hroom fuel m
      rw [hrun]
      simp only [List.nil_append, List.length_cons] at hfuel
      have hfail := fails_pushValue (N := fuel)
        (fun c w h hlt => fails_unpackTable (fun _ _ _ h => h.length_pos)
          (fun k w v h hlt => reads_unpackOne h hlt) (fun k w h hlt => fails_unpackOne h hlt) h hlt)
        hpayload (by omega)
      exact hfail.bind _ rb' r hat'
  | @cons i w1 w2 v vs hroom hv hvs ih =>
    obtain ⟨m, rfl⟩ : ∃ k, m = k + 1 := ⟨m - 1, by omega⟩
    simp only [List.append_assoc, List.length_append] at hat hfuel
    have hw1 : w1.length ≤ fuel := by omega
    obtain ⟨rb', hat', hrun⟩ := unpackAll_item hroom hv hat hw1 m
    have hshift : i + 1 + vs.length = i + (v :: vs).length := by rw [List.length_cons]; omega
    rw [← hshift] at hbad
    obtain ⟨e, rb'', hrun', he⟩ := ih (m := m) hbad hat' (by rw [List.length_append]; omega)
      (by simpa using hm)
    exact ⟨e, rb'', by rw [hrun]; simp only [Bind.bind, EStateM.bind, hrun'], he⟩

theorem parses_unpackAll {fuel m : Nat} {r : List UInt8} {rb : ReadBlock} (hat : At rb r)
    (hfuel : r.length ≤ fuel) (hm : r.length < m) :
    match unpackAll room fuel i m rb with
    | .ok _ rb' => SafeLog rb'
    | .error e rb' => (SafeLog rb' ∧ ∃ len line, e = .invalidStream len line) ∨
        ∃ w vs wb r', r = w ++ (wb ++ r') ∧ Values room (fuel + 1) i w vs ∧
          (Blocked room (i + vs.length) ∧ wb = [] ∨ ¬Blocked room (i + vs.length) ∧
            BadItem (room.push (i + vs.length)) (fuel + 1) wb) := by
  induction m generalizing i r rb with
  | zero => omega
  | succ m ih =>
    by_cases hroom : Blocked room i
    · rw [unpackAll_blocked hroom]
      exact Or.inr ⟨[], [], [], r, rfl, .nil, Or.inl ⟨hroom, rfl⟩⟩
    cases r with
    | nil =>
      obtain ⟨rb', hrun, hat'⟩ := unpackAll_nil hat hroom fuel m
      rw [hrun]
      exact hat'.safe
    | cons tag r =>
      obtain ⟨rb', hat', hrun⟩ := unpackAll_cons hat hroom fuel m
      rw [hrun]
      simp only [List.length_cons] at hfuel hm
      have htable : ∀ c, Parses (r.length + 1)
          (unpackTable (fun k => unpackOne ((room.push i).push k) fuel) (room.push i) fuel c) _ _ :=
        parses_unpackTable (fun _ _ _ h => h.length_pos) (fun k => parses_unpackOne hfuel) hfuel
      have hparse := parses_pushValue htable (tag &&& 7) (tag >>> 3) rb' r hat' (by omega)
      simp only [Bind.bind, EStateM.bind]
      split at hparse
      · rename_i v rb'' hpush
        obtain ⟨w, r', rfl, hat'', hpayload⟩ := hparse
        rw [List.length_append] at hfuel hm
        have hrest := ih (i := i + 1) hat'' (by omega) (by omega)
        rw [hpush]
        simp only
        cases hrun' : unpackAll room fuel (i + 1) m rb'' with
        | ok vs rb3 =>
          rw [hrun'] at hrest
          exact hrest
        | error e rb3 =>
          rw [hrun'] at hrest
          rcases hrest with hinvalid | ⟨w', vs, wb, r'', rfl, hvs, hbad⟩
          · exact Or.inl hinvalid
          · have hshift : i + 1 + vs.length = i + (v :: vs).length := by
              rw [List.length_cons]; omega
            rw [hshift] at hbad
            exact Or.inr ⟨tag :: w ++ w', v :: vs, wb, r'', by simp,
              .cons hroom ⟨tag, w, rfl, hpayload⟩ hvs, hbad⟩
      · rename_i e rb'' hpush
        rw [hpush]
        rcases hparse with hinvalid | ⟨-, w, r', rfl, hbad⟩
        · exact Or.inl hinvalid
        · exact Or.inr ⟨[], [], tag :: w, r', rfl, .nil, Or.inr ⟨hroom, tag, w, rfl, hbad⟩⟩

/-- Deserialising is safe exactly when the stream does not lead to a string or a key that cannot
be had, nor past the room of the stack. -/
theorem unpack_safe_iff (room : Nat) (buffer : List UInt8) (hpos : 0 < buffer.length)
    (hlt : buffer.length < 2 ^ 31) : Safe (some room) buffer ↔ ¬ Defective (some room) buffer := by
  have hrun : luaseriUnpackIn (some room) buffer buffer.length =
      unpackAll (some room) (buffer.length + 1) 0 (buffer.length + 1)
        (rballInit buffer buffer.length) := if_neg (by omega)
  unfold Safe
  rw [hrun]
  constructor
  · rintro hsafe ⟨n, w, vs, wb, r, hbuf, hvs, hbad⟩
    have hlen := congrArg List.length hbuf
    simp only [List.length_append] at hlen
    have hcount := hvs.length_le
    have hat := At.start buffer
    rw [hbuf] at hat
    have hbad' : Blocked (some room) (0 + vs.length) ∨ ¬Blocked (some room) (0 + vs.length) ∧
        BadItem (Room.push (some room) (0 + vs.length)) n wb := by
      rw [Nat.zero_add]
      exact hbad.imp And.left id
    have hfuel : (w ++ wb).length ≤ buffer.length + 1 := by
      rw [List.length_append]
      omega
    obtain ⟨e, rb', herr, he⟩ :=
      @fails_unpackAll _ _ _ _ (buffer.length + 1) _ _ _ _ hvs hbad' _ hat hfuel (by omega)
    rw [← hbuf] at herr
    rw [herr] at hsafe
    obtain ⟨-, len, line, rfl⟩ := hsafe
    simp [LuaError.Foreign] at he
  · intro hnot
    have hparse := @parses_unpackAll (some room) 0 _ (buffer.length + 1) _ _ (At.start buffer)
      (Nat.le_succ _) (Nat.lt_succ_self _)
    generalize unpackAll (some room) (buffer.length + 1) 0 (buffer.length + 1)
      (rballInit buffer buffer.length) = result at hparse ⊢
    cases result with
    | ok vs rb => exact hparse
    | error e rb =>
      rcases hparse with hinvalid | ⟨w, vs, wb, r', hbuf, hvs, hbad⟩
      · exact hinvalid
      · rw [Nat.zero_add] at hbad
        exact (hnot ⟨_, w, vs, wb, r', hbuf, hvs, hbad⟩).elim

/-- A table in a table, with 22 free slots. -/
theorem unpack_safe_nested : ¬ Defective (some 22) [0x0e, 0x06, 0x00, 0x00] := by
  refine (unpack_safe_iff 22 [0x0e, 0x06, 0x00, 0x00] (by decide) (by decide)).mp ?_
  exact ⟨by decide, by decide, by decide⟩

/-- The length `2^31` is `-2^31` as an `int`, so that the read passes the check, and
`lua_pushlstring` refuses it; the key `0x7ff8000000000000` is refused by `lua_rawset`; and a table
in a table needs a slot more than one. -/
theorem unpack_unsafe :
    (∃ rb, luaseriUnpack [0x25, 0, 0, 0, 0x80] 5 = .error .tooBig rb ∧
      rb.reads.head? = some ⟨5, -2 ^ 31, false, false⟩ ∧ rb.ptr = 5 - 2 ^ 31) ∧
    (∃ rb, luaseriUnpack [0x06, 0x42, 0, 0, 0, 0, 0, 0, 0xf8, 0x7f, 0x09, 0] 12 =
      .error .indexIsNaN rb) ∧
    (∃ rb, luaseriUnpackIn (some 20) [0x0e, 0x06, 0x00, 0x00] 4 = .error .stackOverflow rb) ∧
    ∀ room, ¬ Safe room [0x25, 0, 0, 0, 0x80] := by
  refine ⟨⟨_, rfl, by decide, by decide⟩, ⟨_, rfl⟩, ⟨_, rfl⟩, ?_⟩
  rintro room ⟨-, len, line, h⟩
  cases h

end XsServer.Seri
