import XsServer.Bson.Extent

/-! Decoding of any bytes: it stays in the buffer and comes to an end when no length is too short,
and only then. -/

namespace XsServer.Bson

open Lib XsServer.ServiceGate

variable {mem : Memory} {mode : Mode} {len p hi lo : Int} {enough : Prop} {bt : BsonType}
  {dict : BsonReader → Bool → Decode (Value × BsonReader)}

theorem binary_goes (hw : Window len p hi) :
    Goes len enough (Behind p hi (extent mem p hi (.counted 5 0)))
      ((extent mem p hi (.counted 5 0)).andThen fun _ => .done)
      (unpackValue mem dict .binary (window p hi)) := by
  have hsz : int32 (getLength mem p + 0) = getLength mem p := by
    rw [Int.add_zero, int32_getLength]
  simp only [extent, hsz, unpackValue]
  by_cases h4 : p + 4 ≤ hi
  · have hw4 := hw.move (by decide) h4
    have hread : Goes len enough (fun r => r = (getLength mem p, window (p + 4) hi)) .done
        (readInt32 mem (window p hi)) := readInt32_done hw h4
    apply hread.next
    rintro _ rfl
    dsimp only
    by_cases h5 : hi < p + 5
    · rw [if_pos (by exact_mod_cast h5)]
      apply goes_cut
      have hbyte : Goes len enough (fun _ => True) .stopped (readByte mem (window (p + 4) hi)) :=
        fixed_stopped (by omega)
      exact hbyte.bind_of_ne (by decide)
    · have hw5 : Window len (p + 4 + 1) hi := hw4.move (by decide) (by omega)
      have hbyte : Goes len enough (fun r => r = (mem (p + 4), window (p + 4 + 1) hi)) .done
          (readByte mem (window (p + 4) hi)) := fixed_done hw4 (by decide) (by omega)
      rw [if_neg (by exact_mod_cast h5)]
      apply hbyte.next
      rintro _ rfl
      dsimp only
      by_cases hneg : getLength mem p < 0
      · rw [if_pos hneg]
        apply goes_short
        exact (readBytes_violated hneg (P := fun _ => True)).bind_of_ne (by decide)
      · have h0 := Int.not_lt.mp hneg
        rw [if_neg hneg]
        by_cases hle : p + 5 + getLength mem p ≤ hi
        · have hlen := hw.le_len
          rw [if_pos (by exact_mod_cast hle)]
          apply goes_bytes
          apply (readBytes_done hw5 h0 (by omega)).next
          rintro _ rfl
          dsimp only
          apply (addlstring_done hw5.nonneg h0 (by omega)).next
          intro _ _
          apply Agrees.pure
          have hn : p + 4 + 1 + getLength mem p =
              p + ((5 + (getLength mem p).toNat : Nat) : Int) := by omega
          exact congrArg (window · hi) hn
        · rw [if_neg (by exact_mod_cast hle)]
          apply goes_cut
          exact (readBytes_stopped h0 (by omega) (P := fun _ => True)).bind_of_ne (by decide)
  · rw [if_pos (by omega)]
    apply goes_cut
    exact (readInt32_stopped (P := fun _ => True) (Int.not_le.mp h4)).bind_of_ne (by decide)

theorem int32_add_zero (mem : Memory) (p : Int) :
    getLength mem p = int32 (getLength mem p + 0) := by
  rw [Int.add_zero, int32_getLength]

theorem int32_add_add {x a b c sz : Int} (hsz : sz = int32 (x + a)) (hc : a + b = c)
    (h0 : 0 ≤ sz + b) (hlt : sz + b < 2 ^ 31) : int32 (x + c) = sz + b := by
  have hadd : int32 (x + c) = int32 (int32 (x + a) + b) := by
    rw [int32, int32, int32, Int.bmod_add_bmod, Int.add_assoc, hc]
  rw [hadd, ← hsz]
  exact Int.bmod_eq_of_le (by omega) (by omega)

theorem makeObject_goes {bt : BsonType} {q n sz : Int} (hw : Window len p hi) (hn : 0 ≤ n)
    (hle : p + n ≤ len) (hsz : sz = n) :
    Goes len enough (fun r => r.2 = window q hi) .done
      (do
        let v ← makeObject mem bt p sz
        return (v, window q hi)) := by
  subst hsz
  apply (makeObject_done hw.nonneg hn hle).next
  intro _ _
  exact .pure rfl

theorem unpackValue_goes (hw : Window len p hi)
    (hdict : ∀ array, Goes len enough (Behind p hi (extent mem p hi .document))
      ((extent mem p hi .document).andThen fun n => inside mem .decode p n .document)
      (dict (window p hi) array)) :
    Goes len enough (Behind p hi (extent mem p hi (form .decode bt)))
      ((extent mem p hi (form .decode bt)).andThen fun n =>
        inside mem .decode p n (form .decode bt))
      (unpackValue mem dict bt (window p hi)) := by
  have hlen := hw.le_len
  have hlt := hw.len_lt
  have h0 := hw.nonneg
  cases bt with
  | real =>
    exact plain_goes (k := 8) (g := fun v br => pure (Value.real v, br)) hw fun _ => .pure rfl
  | string =>
    exact text_goes (g := fun s br => pure (Value.string s, br)) hw fun _ _ => .pure rfl
  | document => exact hdict false
  | array => exact hdict true
  | binary => exact binary_goes hw
  | objectid =>
    refine taken_goes (k := 12) (g := fun q br => do
      let v ← makeObject mem .objectid q 12
      return (v, br)) hw fun hle => ?_
    exact makeObject_goes hw (by decide) (hle.trans hlen) rfl
  | boolean =>
    exact plain_goes (k := 1) (g := fun (v : UInt8) br => pure (Value.boolean (v ≠ 0), br)) hw
      fun _ => .pure rfl
  | date =>
    exact plain_goes (k := 8) (g := fun v br => pure (Value.string ([0, BsonType.date.code] ++
      int32Bytes (Int.tdiv v 1000)), br)) hw fun _ => .pure rfl
  | null | minkey | maxkey => exact empty_goes hw
  | regex =>
    refine strings_goes (g := fun p₁ n₁ p₂ n₂ br => do
      let b ← addlstring mem [0, BsonType.regex.code] p₁ n₁
      let b ← addlstring mem (b ++ [0]) p₂ n₂
      return (Value.string (b ++ [0]), br)) hw fun i j hij => ?_
    apply (addlstring_done h0 (by omega) (by omega)).next
    intro b _
    apply (addlstring_done (by omega) (by omega) (by omega)).next
    intro b' _
    exact .pure rfl
  | dbpointer =>
    refine counted_goes (f := fun sz => int32 (sz + 12)) (g := fun sz _ br => do
      let v ← makeObject mem .dbpointer p (int32 (sz + 16))
      return (v, br)) hw rfl fun sz hsz hpos hle => ?_
    exact makeObject_goes hw (by omega) (by omega)
      (int32_add_add hsz rfl (by omega) (by omega : sz + 4 < 2 ^ 31))
  | jscode =>
    refine counted_goes (f := fun sz => sz) (g := fun sz _ br => do
      let v ← makeObject mem .jscode p (int32 (sz + 4))
      return (v, br)) hw (int32_add_zero mem p) fun sz hsz hpos hle => ?_
    exact makeObject_goes hw (by omega) (by omega)
      (int32_add_add hsz rfl (by omega) (by omega : sz + 4 < 2 ^ 31))
  | symbol =>
    refine counted_goes (f := fun sz => sz) (g := fun sz _ br => do
      let v ← makeObject mem .symbol p (int32 (sz + 4))
      return (v, br)) hw (int32_add_zero mem p) fun sz hsz hpos hle => ?_
    exact makeObject_goes hw (by omega) (by omega)
      (int32_add_add hsz rfl (by omega) (by omega : sz + 4 < 2 ^ 31))
  | codews =>
    refine counted_goes (f := fun sz => int32 (sz - 4)) (g := fun sz _ br => do
      let v ← makeObject mem .codews p sz
      return (v, br)) hw rfl fun sz hsz hpos hle => ?_
    have hlength : getLength mem p = sz + 4 := by
      rw [int32_add_zero]
      exact int32_add_add hsz rfl (by omega) (by omega)
    exact makeObject_goes hw (by omega) (by omega) hlength
  | int32 =>
    exact plain_goes (k := 4) (g := fun v br => pure (Value.integer v, br)) hw fun _ => .pure rfl
  | timestamp =>
    exact pair_goes (g := fun inc ts br => pure (Value.string ([0, BsonType.timestamp.code] ++
      int32Bytes inc ++ int32Bytes ts), br)) hw fun _ _ => .pure rfl
  | int64 =>
    exact plain_goes (k := 8) (g := fun v br => pure (Value.integer v, br)) hw fun _ => .pure rfl

/-! ### Documents -/

theorem header_goes {mode : Mode} {β : Type} {P : β → Prop}
    {g : UInt8 → Int → Nat → BsonReader → Decode β} (hw : Window len lo hi) (hlt : lo < hi)
    (hg : ∀ i : Nat, cstringLoop mem (lo + 1) (hi - (lo + 1)).toNat 0 = some i →
      lo + 1 + i ≤ len → Window len (lo + 1 + (i + 1)) hi →
      Goes len enough P (scan mem mode lo hi) (g (mem lo) (lo + 1) i
        (window (lo + 1 + (i + 1)) hi))) :
    Goes len enough P (scan mem mode lo hi)
      (do
        let (c, br) ← readByte mem (window lo hi)
        let (q, klen, br) ← readCstring mem br
        g c q klen br) := by
  have hlen := hw.le_len
  have hw1 : Window len (lo + 1) hi := hw.move (by decide) (by omega)
  have hbyte : Goes len enough (fun r => r = (mem lo, window (lo + 1) hi)) .done
      (readByte mem (window lo hi)) := fixed_done hw (by decide) (by omega)
  apply hbyte.next
  rintro _ rfl
  cases hkey : cstringLoop mem (lo + 1) (hi - (lo + 1)).toNat 0 with
  | none =>
    rw [scan_key hlt hkey]
    exact (readCstring_stopped (P := fun _ => True) hw1 hkey).bind_of_ne (by decide)
  | some i =>
    have hi' := cstringLoop_lt hkey
    apply (readCstring_done hw1 hkey).next
    rintro _ rfl
    exact hg i hkey (by omega) (hw1.move (by omega) (by omega))

theorem error_ne_unfinished (msg : String) : Stop.error msg ≠ .unfinished := fun h => by cases h

/-- A round of a loop behind the key: the value, and `rest` for what comes behind it. -/
def valueRound {α β : Type} (lo : Int) (value : BsonType → BsonReader → Decode (α × BsonReader))
    (rest : α → BsonReader → Decode β) (c : UInt8) (br : BsonReader) : Decode β :=
  match BsonType.ofCode c with
  | none => .stop (.error s!"Invalid bson type : {c.toNat}")
  | some bt => do
    let (v, br) ← value bt br
    .log (.round lo br.ptr)
    rest v br

theorem valueRound_goes {α β : Type} {q : Int} {i : Nat}
    {value : BsonType → BsonReader → Decode (α × BsonReader)} {rest : α → BsonReader → Decode β}
    (hq : q = lo + 1 + (i + 1)) (hlt : lo < hi)
    (hkey : cstringLoop mem (lo + 1) (hi - (lo + 1)).toNat 0 = some i)
    (hvalue : ∀ bt, Goes len enough (Behind q hi (extent mem q hi (form mode bt)))
      ((extent mem q hi (form mode bt)).andThen fun n => inside mem mode q n (form mode bt))
      (value bt (window q hi)))
    (hrest : ∀ v (k : Nat), q + k ≤ hi →
      Goes len enough (fun _ => True) (scan mem mode (q + k) hi) (rest v (window (q + k) hi))) :
    Goes len enough (fun _ => True) (scan mem mode lo hi)
      (valueRound lo value rest (mem lo) (window q hi)) := by
  rw [valueRound]
  cases htype : BsonType.ofCode (mem lo) with
  | none =>
    rw [scan_type hlt htype]
    exact .stop (error_ne_unfinished _)
  | some bt =>
    have hbt := hvalue bt
    rw [scan_value hlt hkey htype, ← hq]
    cases hextent : extent mem q hi (form mode bt) with
    | cut =>
      rw [hextent] at hbt
      exact hbt.bind_of_ne (show Verdict.stopped ≠ .done by decide)
    | short =>
      rw [hextent] at hbt
      exact hbt.bind_of_ne (show Verdict.violated ≠ .done by decide)
    | bytes k =>
      rw [hextent] at hbt
      apply hbt.bind
      rintro ⟨v, br⟩ hbr
      obtain rfl : br = window (q + k) hi := hbr k rfl
      have hround : (Event.round lo (q + k)).Fine len := by
        change lo < q + k
        omega
      apply (Agrees.log hround).next
      intro _ _
      exact hrest v k (extent_le hextent)

/-- What is asked of the function that unpacks a document. -/
def Unpacks (mem : Memory) (len : Int) (dict : BsonReader → Bool → Decode (Value × BsonReader))
    (d : Nat) : Prop :=
  ∀ p hi array, Window len p hi → Goes len (hi - p < d) (Behind p hi (extent mem p hi .document))
    ((extent mem p hi .document).andThen fun n => inside mem .decode p n .document)
    (dict (window p hi) array)

theorem pushKey_done {array : Bool} {i : Nat} (hp : 0 ≤ p) (h : p + i ≤ len) :
    Goes len enough (fun _ => True) .done (pushKey mem array p i) := by
  cases array with
  | true => exact .pure trivial
  | false =>
    have hpush : Goes len enough (fun _ => True) .done (pushlstring mem p i) :=
      addlstring_done hp (Int.natCast_nonneg i) h
    apply hpush.next
    intro _ _
    exact .pure trivial

theorem ended_or_lt {mode : Mode} (hw : Window len lo hi) :
    (window lo hi).size = 0 ∧ scan mem mode lo hi = .done ∨ (window lo hi).size ≠ 0 ∧ lo < hi := by
  by_cases hend : (window lo hi).size = 0
  · exact .inl ⟨hend, scan_end (Int.sub_eq_zero.mp hend).le⟩
  · exact .inr ⟨hend, lt_of_le_of_ne hw.le fun heq => hend (Int.sub_eq_zero.mpr heq.symm)⟩

theorem dictLoop_goes {d n : Nat} {array : Bool} (hdict : Unpacks mem len dict d)
    (hw : Window len lo hi) :
    Goes len (hi - lo ≤ n ∧ hi - lo ≤ d) (fun _ => True) (scan mem .decode lo hi)
      (dictLoop mem dict array n (window lo hi)) := by
  induction n generalizing lo with
  | zero =>
    rw [dictLoop]
    obtain ⟨hend, hscan⟩ | ⟨hend, hlt⟩ := ended_or_lt hw
    · rw [if_pos hend, hscan]
      exact .pure trivial
    · rw [if_neg hend]
      exact .late (by omega) rfl
  | succ n ih =>
    rw [dictLoop]
    obtain ⟨hend, hscan⟩ | ⟨hend, hlt⟩ := ended_or_lt hw
    · rw [if_pos hend, hscan]
      exact .pure trivial
    · rw [if_neg hend]
      refine header_goes (g := fun c p klen t' => do
        let key ← pushKey mem array p klen
        valueRound lo (unpackValue mem dict) (fun v t' => do
          return (key, v) :: (← dictLoop mem dict array n t')) c t') hw hlt
        fun i hkey hle hwp => ?_
      apply (pushKey_done (Int.add_nonneg hw.nonneg (by decide)) hle).next
      intro key _
      refine valueRound_goes rfl hlt hkey (fun bt => ?_) fun v k hk => ?_
      · exact unpackValue_goes hwp fun array => (hdict _ _ array hwp).mono (fun _ h => h)
          (show hi - lo ≤ (n + 1 : Nat) ∧ hi - lo ≤ d → _ by omega)
      · have hrest := (ih (hwp.move (Int.natCast_nonneg k) hk)).mono (fun _ h => h)
          (show hi - lo ≤ (n + 1 : Nat) ∧ hi - lo ≤ d → _ by omega)
        apply hrest.followed
        intro _ _
        exact .pure trivial

theorem unpackDict_goes (n : Nat) : Unpacks mem len (unpackDict mem n) n := by
  induction n with
  | zero =>
    intro p hi array hw
    have := hw.le
    exact .late (by omega) rfl
  | succ n ih =>
    intro p hi array hw
    have hlen := hw.le_len
    rw [unpackDict]
    simp only [extent]
    by_cases h4 : hi < p + 4
    · rw [if_pos h4]
      apply goes_cut
      exact (readInt32_stopped (P := fun _ => True) h4).bind_of_ne (by decide)
    · have hfour := Int.not_lt.mp h4
      have hw4 := hw.move (by decide) hfour
      have hread : Goes len (hi - p < (n + 1 : Nat))
          (fun r => r = (getLength mem p, window (p + 4) hi)) .done
          (readInt32 mem (window p hi)) := readInt32_done hw hfour
      rw [if_neg h4]
      apply hread.next
      rintro _ rfl
      dsimp only
      generalize int32 (getLength mem p - 5) = m
      by_cases hneg : m < 0
      · rw [if_pos hneg]
        apply goes_short
        exact (readBytes_violated hneg (P := fun _ => True)).bind_of_ne (by decide)
      · have h0 := Int.not_lt.mp hneg
        rw [if_neg hneg]
        by_cases hle : p + 4 + m ≤ hi
        · have hwm := hw4.move h0 hle
          have hbytes : Goes len (hi - p < (n + 1 : Nat))
              (fun r => r = (p + 4, window (p + 4 + m) hi)) .done
              (readBytes (window (p + 4) hi) m) := readBytes_done hw4 h0 hle
          apply hbytes.next
          rintro _ rfl
          dsimp only
          by_cases hlast : p + 4 + m < hi
          · have hbyte : Goes len (hi - p < (n + 1 : Nat))
                (fun r => r = (mem (p + 4 + m), window (p + 4 + m + 1) hi)) .done
                (readByte mem (window (p + 4 + m) hi)) := fixed_done hwm (by decide) (by omega)
            apply hbyte.next
            rintro _ rfl
            dsimp only
            by_cases hzero : mem (p + 4 + m) = 0
            · rw [if_pos ⟨hlast, hzero⟩, if_neg (not_not_intro hzero)]
              apply goes_bytes
              have hreader : (⟨p + 4, m⟩ : BsonReader) = window (p + 4) (p + 4 + m) := by
                rw [window, show p + 4 + m - (p + 4) = m by omega]
              have hend : p + ((4 + m.toNat + 1 : Nat) : Int) - 1 = p + 4 + m := by omega
              have hcontent : Window len (p + 4) (p + 4 + m) :=
                ⟨hw4.nonneg, by omega, by omega, hw.len_lt⟩
              have hdict : Goes len (hi - p < (n + 1 : Nat)) (fun _ => True) _
                  (dictLoop mem (unpackDict mem n) array n (window (p + 4) (p + 4 + m))) :=
                (dictLoop_goes ih hcontent).mono (fun _ h => h) (by omega)
              rw [hreader, inside, hend]
              apply hdict.followed
              intro _ _
              apply Agrees.pure
              exact congrArg (window · hi) (by omega)
            · rw [if_neg fun h => hzero h.2, if_pos hzero]
              apply goes_cut
              exact .stop (error_ne_unfinished _)
          · rw [if_neg fun h => hlast h.1]
            apply goes_cut
            have hbyte : Goes len (hi - p < (n + 1 : Nat)) (fun _ => True) .stopped
                (readByte mem (window (p + 4 + m) hi)) := fixed_stopped (by omega)
            exact hbyte.bind_of_ne (by decide)
        · rw [if_neg (by omega)]
          apply goes_cut
          have hlt := Int.not_le.mp hle
          exact (readBytes_stopped h0 hlt (P := fun _ => True)).bind_of_ne (by decide)

theorem entry_goes {q : Int} {i k : Nat} (hw : Window len p hi) (hq : 0 ≤ q) (hi' : q + i ≤ len)
    (hk : 0 < k) (hskip : skipValue mem (window p hi) bt = pure ((k : Int), window p hi)) :
    Goes len enough (Behind p hi (extent mem p hi (.plain k)))
      ((extent mem p hi (.plain k)).andThen fun _ => .done)
      (indexValue mem q i (window p hi) bt) := by
  rw [indexValue, hskip, Logged.pure_bind]
  dsimp only
  rw [if_pos (by exact_mod_cast hk)]
  refine taken_goes (g := fun _ br => do
    let key ← pushlstring mem q i
    return ([(key, indexId bt p)], br)) hw fun _ => ?_
  have hpush : Goes len enough (fun _ => True) .done (pushlstring mem q i) :=
    addlstring_done hq (Int.natCast_nonneg i) hi'
  apply hpush.next
  intro _ _
  exact .pure rfl

theorem measured_goes {q add : Int} {i : Nat} {f : Int → Int} (hw : Window len p hi)
    (hf : f (getLength mem p) = int32 (getLength mem p + add))
    (hskip : skipValue mem (window p hi) bt = do
      let (sz, br) ← readInt32 mem (window p hi)
      let (_, br) ← readBytes br (f sz)
      return (0, br)) :
    Goes len enough (Behind p hi (extent mem p hi (.counted 4 add)))
      ((extent mem p hi (.counted 4 add)).andThen fun _ => .done)
      (indexValue mem q i (window p hi) bt) := by
  have hvalue : Goes len enough _ _ (skipValue mem (window p hi) bt) :=
    hskip ▸ counted_goes (g := fun _ _ br => (pure ((0 : Int), br) : Decode _)) hw hf
      fun _ _ _ _ => .pure rfl
  rw [indexValue]
  apply (hvalue.and_result (R := fun r => r.1 = 0) ?_).followed
  · rintro ⟨n, br⟩ ⟨hbr, rfl⟩
    exact .pure hbr
  · intro r hr
    rw [hskip] at hr
    obtain ⟨a, -, hr⟩ := Logged.bind_ok hr
    obtain ⟨b, -, hr⟩ := Logged.bind_ok hr
    cases hr
    rfl

theorem indexValue_goes {q : Int} {i : Nat} (hw : Window len p hi) (hq : 0 ≤ q)
    (hi' : q + i ≤ len) :
    Goes len enough (Behind p hi (extent mem p hi (form .index bt)))
      ((extent mem p hi (form .index bt)).andThen fun n => inside mem .index p n (form .index bt))
      (indexValue mem q i (window p hi) bt) := by
  have hzero := int32_add_zero mem p
  have hfour : int32 (getLength mem p - 4) = int32 (getLength mem p + -4) := by
    rw [Int.sub_eq_add_neg]
  cases bt with
  | int64 | timestamp | date | real | boolean | int32 | objectid =>
    exact entry_goes hw hq hi' (by decide) rfl
  | null | minkey | maxkey => exact empty_goes hw
  | regex =>
    have hvalue : Goes len enough _ _ (skipValue mem (window p hi) .regex) :=
      strings_goes (g := fun _ _ _ _ br => (pure ((0 : Int), br) : Decode _)) hw
        fun _ _ _ => .pure rfl
    apply (hvalue.and_result (R := fun r => r.1 = 0) ?_).followed
    · rintro ⟨n, br⟩ ⟨hbr, rfl⟩
      exact .pure hbr
    · intro r hr
      obtain ⟨a, -, hr⟩ := Logged.bind_ok hr
      obtain ⟨b, -, hr⟩ := Logged.bind_ok hr
      cases hr
      rfl
  | jscode | symbol | string => exact measured_goes (f := fun sz => sz) hw hzero rfl
  | codews | array | document => exact measured_goes (f := fun sz => int32 (sz - 4)) hw hfour rfl
  | binary => exact measured_goes (f := fun sz => int32 (sz + 1)) hw rfl rfl
  | dbpointer => exact measured_goes (f := fun sz => int32 (sz + 12)) hw rfl rfl

theorem indexLoop_goes {n : Nat} (hw : Window len lo hi) :
    Goes len (hi - lo ≤ n) (fun _ => True) (scan mem .index lo hi)
      (indexLoop mem n (window lo hi)) := by
  induction n generalizing lo with
  | zero =>
    rw [indexLoop]
    obtain ⟨hend, hscan⟩ | ⟨hend, hlt⟩ := ended_or_lt hw
    · rw [if_pos hend, hscan]
      exact .pure trivial
    · rw [if_neg hend]
      exact .late (by omega) rfl
  | succ n ih =>
    rw [indexLoop]
    obtain ⟨hend, hscan⟩ | ⟨hend, hlt⟩ := ended_or_lt hw
    · rw [if_pos hend, hscan]
      exact .pure trivial
    · have h0 := hw.nonneg
      rw [if_neg hend]
      refine header_goes (g := fun c p klen br => valueRound lo
        (fun bt br => indexValue mem p klen br bt) (fun entry br => do
          return entry ++ (← indexLoop mem n br)) c br) hw hlt fun i hkey hle hwp => ?_
      refine valueRound_goes rfl hlt hkey (fun bt => ?_) fun v k hk => ?_
      · exact indexValue_goes hwp (by omega) hle
      · have hrest := (ih (hwp.move (Int.natCast_nonneg k) hk)).mono (fun _ h => h)
          (show hi - lo ≤ (n + 1 : Nat) → _ by omega)
        apply hrest.followed
        intro _ _
        exact .pure trivial

/-! ### Both functions -/

/-- The calls with more and more rounds: one of them comes to a table or an error, only reads bytes
of the buffer, hands on no negative length, and comes further in each round. -/
def Safe {α : Type} (len : Int) (run : Nat → Decode α) : Prop :=
  ∃ n, (run n).Clean (Event.Fine len) ∧ (run n).result ≠ .error .unfinished

/-- No length that decoding comes to is too short. -/
def LengthsFit (mem : Memory) (mode : Mode) (len : Int) : Prop :=
  scan mem mode 4 (len - 1) ≠ .violated

instance : Decidable (LengthsFit mem mode len) := inferInstanceAs (Decidable (_ ≠ _))

theorem int32_sub_five (hlen : 5 ≤ len) (hmax : len < 2 ^ 31) : int32 (len - 5) = len - 5 :=
  Int.bmod_eq_of_le (by omega) (by omega)

theorem ldecode_safe_iff (hlen : 5 ≤ len) (hmax : len < 2 ^ 31) (htrue : getLength mem 0 = len) :
    Safe len (ldecode mem) ↔ mem (len - 1) ≠ 0 ∨ LengthsFit mem .decode len := by
  have hw : Window len 0 len := ⟨le_refl 0, by omega, le_refl len, hmax⟩
  have hextent : extent mem 0 len .document =
      if mem (len - 1) = 0 then .bytes len.toNat else .cut := by
    have hlast : 0 + 4 + (len - 5) = len - 1 := by omega
    have hsize : 4 + (len - 5).toNat + 1 = len.toNat := by omega
    simp only [extent, htrue, int32_sub_five hlen hmax, hlast, hsize]
    rw [if_neg (by omega), if_neg (by omega)]
    by_cases hzero : mem (len - 1) = 0
    · rw [if_pos ⟨by omega, hzero⟩, if_pos hzero]
    · rw [if_neg fun h => hzero h.2, if_neg hzero]
  have hrun : ∀ n, Goes len (len.toNat + 1 ≤ n) (fun _ => True)
      ((extent mem 0 len .document).andThen fun n => inside mem .decode 0 n .document)
      (ldecode mem n) := by
    intro n
    have hreader : (⟨0, getLength mem 0⟩ : BsonReader) = window 0 len := by
      rw [htrue, window, Int.sub_zero]
    rw [ldecode, hreader]
    exact (unpackDict_goes n 0 len false hw).mono (fun _ _ => trivial) (by omega)
  rw [Safe, Agrees.safe_iff hrun, hextent]
  by_cases hzero : mem (len - 1) = 0
  · have hend : (0 : Int) + len.toNat - 1 = len - 1 := by omega
    rw [if_pos hzero, Extent.andThen, inside, hend]
    exact ⟨Or.inr, fun h => h.resolve_left (not_not_intro hzero)⟩
  · rw [if_neg hzero]
    have hcut : Verdict.stopped ≠ .violated := by decide
    exact iff_of_true hcut (Or.inl hzero)

theorem lmakeindex_safe_iff (hlen : 5 ≤ len) (hmax : len < 2 ^ 31)
    (htrue : getLength mem 0 = len) : Safe len (lmakeindex mem) ↔ LengthsFit mem .index len := by
  have hw : Window len 4 (len - 1) := ⟨by decide, by omega, by omega, hmax⟩
  have hrun : ∀ n, Goes len (len.toNat ≤ n) (fun _ => True) (scan mem .index 4 (len - 1))
      (lmakeindex mem n) := by
    intro n
    have hreader : (⟨4, int32 (getLength mem 0 - 5)⟩ : BsonReader) = window 4 (len - 1) := by
      rw [htrue, int32_sub_five hlen hmax, window, show len - 1 - 4 = len - 5 by omega]
    rw [lmakeindex, hreader]
    exact (indexLoop_goes hw).mono (fun _ h => h) (by omega)
  exact Agrees.safe_iff hrun

/-- Decoding a buffer that starts with its length is safe exactly when no length field that it comes
to is too short: for the table all of them, unless the buffer does not end with a zero, and for the
index those of the document itself. -/
theorem decoding_safe_iff (hlen : 5 ≤ len) (hmax : len < 2 ^ 31) (htrue : getLength mem 0 = len) :
    (Safe len (ldecode mem) ↔ mem (len - 1) ≠ 0 ∨ LengthsFit mem .decode len) ∧
      (Safe len (lmakeindex mem) ↔ LengthsFit mem .index len) :=
  ⟨ldecode_safe_iff hlen hmax htrue, lmakeindex_safe_iff hlen hmax htrue⟩

def stored (bytes : List UInt8) : Memory := fun p => bytes.getD p.toNat 0

/-- A document with the number 1 under the key `a`. -/
def numberDoc : Memory := stored [12, 0, 0, 0, 16, 97, 0, 1, 0, 0, 0, 0]

theorem decoding_safe_iff_number :
    Safe 12 (ldecode numberDoc) ∧ Safe 12 (lmakeindex numberDoc) := by
  have hlen : getLength numberDoc 0 = 12 := by decide +kernel
  have hfit : ∀ mode, LengthsFit numberDoc mode 12 := by
    intro mode
    have htype : BsonType.ofCode (numberDoc 4) = some .int32 := rfl
    rw [LengthsFit, scan_value (i := 1) (by decide) rfl htype]
    change Verdict.andThen .done (scan _ mode 11 11) ≠ .violated
    rw [scan_end (by decide)]
    decide
  obtain ⟨hdecode, hindex⟩ := decoding_safe_iff (by decide) (by decide) hlen
  exact ⟨hdecode.mpr (Or.inr (hfit .decode)), hindex.mpr (hfit .index)⟩

/-- A document with a string of the length -7. -/
def stringDoc : Memory := stored [12, 0, 0, 0, 2, 97, 0, 249, 255, 255, 255, 0]

/-- A document with a document of the length -100. -/
def nestedDoc : Memory := stored [13, 0, 0, 0, 3, 97, 0, 156, 255, 255, 255, 0, 0]

/-- The string leads back to its own start, so that the index never comes to its end. -/
theorem lmakeindex_endless (n : Nat) :
    (lmakeindex stringDoc n).result = .error .unfinished := by
  have hsize : int32 (getLength stringDoc 0 - 5) = 7 := by decide +kernel
  rw [lmakeindex, hsize]
  induction n with
  | zero => rfl
  | succ n ih =>
    have hbyte : readByte stringDoc ⟨4, 7⟩ = ⟨[.read 4 1], .ok (2, ⟨5, 6⟩)⟩ := by rfl
    have hkey : readCstring stringDoc ⟨5, 6⟩ = ⟨[.read 5 2], .ok (5, 1, ⟨7, 4⟩)⟩ := by rfl
    have hlength : readInt32 stringDoc ⟨7, 4⟩ =
        ⟨[.read 7 4], .ok (getLength stringDoc 7, ⟨11, 0⟩)⟩ := by rfl
    have hminus : getLength stringDoc 7 = -7 := by decide +kernel
    have hvalue : indexValue stringDoc 5 1 ⟨7, 4⟩ .string =
        ⟨[.read 7 4, .handed (-7)], .ok ([], ⟨4, 7⟩)⟩ := by
      rw [indexValue, skipValue, hlength, hminus]
      rfl
    rw [indexLoop, if_neg (by decide), hbyte, Logged.bind_of_ok rfl]
    dsimp only
    rw [hkey, Logged.bind_of_ok rfl]
    have htype : BsonType.ofCode 2 = some .string := rfl
    dsimp only
    rw [htype]
    dsimp only
    rw [hvalue, Logged.bind_of_ok rfl]
    dsimp only
    rw [Logged.bind_of_ok rfl]
    dsimp only
    rw [Logged.bind_of_error ih]

/-- For a nested document the decoder looks for the end before the buffer. -/
theorem decoding_unsafe :
    getLength stringDoc 0 = 12 ∧ ¬ Safe 12 (lmakeindex stringDoc) ∧
      getLength nestedDoc 0 = 13 ∧ Event.read (-94) 1 ∈ (ldecode nestedDoc 2).events ∧
      ¬ Safe 13 (ldecode nestedDoc) := by
  have hlen : getLength nestedDoc 0 = 13 := by decide +kernel
  refine ⟨by decide +kernel, ?_, hlen, by decide +kernel, ?_⟩
  · rintro ⟨n, -, hend⟩
    exact hend (lmakeindex_endless n)
  · have htype : BsonType.ofCode (nestedDoc 4) = some .document := rfl
    rw [ldecode_safe_iff (by decide) (by decide) hlen, LengthsFit,
      scan_value (i := 1) (by decide) rfl htype]
    decide

end XsServer.Bson
