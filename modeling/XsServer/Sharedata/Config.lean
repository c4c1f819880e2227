import XsServer.Sharedata.Visit

/-! The object that `lnewconf` builds shows the original table, as long as every integer key and
every integer that is looked up is in the range of an `int`. -/

namespace XsServer.Sharedata

variable {ρ : Type}

mutual
def LuaValue.depth : LuaValue ρ → Nat
  | .scalar _ => 0
  | .table _ es => depths es + 1

def depths : Entries ρ → Nat
  | [] => 0
  | (_, v) :: es => max v.depth (depths es)
end

mutual
def LuaValue.strings : LuaValue ρ → List (List UInt8)
  | .scalar (.string s) => [s]
  | .scalar _ => []
  | .table _ es => entryStrings es

def entryStrings : Entries ρ → List (List UInt8)
  | [] => []
  | (k, v) :: es =>
    match k with
    | .int _ => v.strings ++ entryStrings es
    | .str s => s :: (v.strings ++ entryStrings es)
end

variable {es : Entries ρ}

theorem mem_entryStrings {s : List UInt8} :
    s ∈ entryStrings es ↔ ∃ e ∈ es, e.1 = .str s ∨ s ∈ e.2.strings := by
  induction es with
  | nil => simp [entryStrings]
  | cons e es ih =>
    obtain ⟨k, v⟩ := e
    cases k with
    | int n => simp [entryStrings, ih]
    | str s' => simp [entryStrings, ih, or_assoc, eq_comm]

variable {d : Nat}

theorem depths_le (h : ∀ e ∈ es, e.2.depth ≤ d) : depths es ≤ d := by
  induction es with
  | nil => exact Nat.zero_le d
  | cons e es ih =>
    obtain ⟨he, htail⟩ := List.forall_mem_cons.mp h
    exact max_le he (ih htail)

theorem depth_le_depths {e : Key × LuaValue ρ} (he : e ∈ es) :
    e.2.depth ≤ depths es := by
  induction es with
  | nil => exact absurd he List.not_mem_nil
  | cons e' es ih =>
    rw [depths]
    obtain rfl | he := List.mem_cons.mp he
    · exact le_max_left _ _
    · exact (ih he).trans (le_max_right _ _)

/-- The stack that gets the strings holds their map already. -/
def checkstack (r : ConfTable (Cell ρ) × Strings) : Except Fault (ConfTable (Cell ρ) × Strings) :=
  if INT_MAX < r.2.length + 4 then .error .undefined
  else if LUAI_MAXSTACK < r.2.length + 12 then .error .stackOverflow
  else .ok r

/-- `lnewconf` and `pconv`, inside of `nCcalls` C calls.  The call of `convtable` is one more. -/
def lnewconf (nCcalls border : Nat) (entries : Entries ρ) :
    Except Fault (ConfTable (Cell ρ) × Strings) :=
  if LUAI_MAXCCALLS ≤ nCcalls + 1 then .error .cStackOverflow
  else convtable (setvalue (LUAI_MAXCCALLS - (nCcalls + 2))) border entries [] >>= checkstack

/-- There is room for the strings, and for the calls. -/
structure Room (nCcalls : Nat) (v : LuaValue ρ) : Prop where
  calls : nCcalls + v.depth < LUAI_MAXCCALLS
  strings : v.strings.dedup.length + 12 ≤ LUAI_MAXSTACK

/-- `pushvalue` of a value that is no table. -/
def pushvalue (strings : Strings) : Stored ρ → Option (Scalar ρ)
  | .real n => some (.real n)
  | .integer d => some (.integer d)
  | .string index => (stringAt strings index).map .string
  | .boolean b => some (.boolean b)

inductive LuaValue.All (p : Nat → Entries ρ → Prop) : LuaValue ρ → Prop
  | scalar (x : Scalar ρ) : All p (.scalar x)
  | table {b : Nat} {es : Entries ρ} (h : p b es) (hes : ∀ e ∈ es, All p e.2) :
    All p (.table b es)

/-- No key occurs twice, and the length is a border. -/
structure IsTable (b : Nat) (es : Entries ρ) : Prop where
  distinct : (es.map Prod.fst).Nodup
  border : b = 0 ∨ Key.int b ∈ es.map Prod.fst
  next : Key.int (b + 1) ∉ es.map Prod.fst

/-- The keys that are looked up: those in the range of an `int`, and some others. -/
def Looked (X : Key → Prop) (k : Key) : Prop := k.InRange ∨ X k

/-- The object shows the value: every key that is looked up has its value, the keys are visited
once each, the length is the border, and every slot is filled. -/
inductive Shows (S : Strings) (X : Key → Prop) : LuaValue ρ → Cell ρ → Prop
  | scalar {x : Scalar ρ} {c : Stored ρ} (h : pushvalue S c = some x) :
    Shows S X (.scalar x) (.scalar c)
  | table {b : Nat} {es : Entries ρ} {t : ConfTable (Cell ρ)} (cell : Key × LuaValue ρ → Cell ρ)
    (held : ∀ e ∈ es, Looked X e.1 → lindexconf S t e.1 = .ok (some (cell e)))
    (sub : ∀ e ∈ es, Looked X e.1 → Shows S X e.2 (cell e))
    (absent : ∀ k, Looked X k → (∀ e ∈ es, e.1 ≠ k) → lindexconf S t k = .ok none)
    (visits : ∃ l, Visits S t none l ∧ l.Perm (es.map Prod.fst)) (len : llen t = b)
    (full : ∀ i < t.sizehash, ∃ n, t.hash i = some n) : Shows S X (.table b es) (.table t)

/-- The keys are in the range of an `int`, their number is, and no other integer that is looked up
is one of them when it is narrowed. -/
structure Kept (X : Key → Prop) (b : Nat) (es : Entries ρ) : Prop where
  range : ∀ e ∈ es, e.1.InRange
  fits : Fits b es
  others : ∀ k, X k → ¬ k.InRange → ∀ e ∈ es, e.1 ≠ narrow k

theorem setscalar_adds (S : Strings) (x : Scalar ρ) :
    Adds (· ∈ (LuaValue.scalar x).strings) S (setscalar S x).2 := by
  cases x with
  | string s => exact adds_stringindex S (List.mem_singleton.mpr rfl)
  | _ => exact .refl

theorem setscalar_pushvalue {S S' : Strings} (x : Scalar ρ) (hS : (setscalar S x).2 <+: S') :
    pushvalue S' (setscalar S x).1 = some x := by
  cases x with
  | string s =>
    have hmem := stringindex_mem S s
    obtain ⟨l, rfl⟩ := hS
    simp only [setscalar, pushvalue, stringindex_index]
    rw [← List.idxOf_append_of_mem hmem, stringAt_idxOf (List.mem_append_left l hmem)]
    rfl
  | _ => rfl

theorem setvalue_scalar (d : Nat) (x : Scalar ρ) (S : Strings) :
    setvalue d (.scalar x) S = .ok (.scalar (setscalar S x).1, (setscalar S x).2) := by
  cases d <;> rfl

variable {v : LuaValue ρ} {S : Strings}

theorem setvalue_adds {c : Cell ρ} {S' : Strings}
    (h : setvalue d v S = .ok (c, S')) : Adds (· ∈ v.strings) S S' := by
  induction d generalizing v S c S' with
  | zero =>
    cases v with
    | scalar x =>
      cases h
      exact setscalar_adds S x
    | table b es => cases h
  | succ d ih =>
    cases v with
    | scalar x =>
      cases h
      exact setscalar_adds S x
    | table b es =>
      obtain ⟨⟨t, S1⟩, ht, h⟩ := Lib.bind_ok h
      cases h
      exact (convtable_keeps (fun e he => ⟨fun s hs => mem_entryStrings.mpr ⟨e, he, .inl hs⟩,
        fun _ _ _ hv => (ih hv).mono fun s hs => mem_entryStrings.mpr ⟨e, he, .inr hs⟩⟩) ht).1

theorem setvalue_grows {d : Nat} (v : LuaValue ρ) (S : Strings) (c : Cell ρ) (S' : Strings)
    (h : setvalue d v S = .ok (c, S')) : S <+: S' := (setvalue_adds h).grows

theorem checkstack_ok {r r' : ConfTable (Cell ρ) × Strings} :
    checkstack r = .ok r' ↔ r = r' ∧ r.2.length + 12 ≤ LUAI_MAXSTACK := by
  have hmax : LUAI_MAXSTACK < INT_MAX := by decide
  unfold checkstack
  split
  · exact ⟨fun h => (nomatch h), fun h => absurd h.2 (by omega)⟩
  · split
    · exact ⟨fun h => (nomatch h), fun h => absurd h.2 (by omega)⟩
    · exact ⟨fun h => ⟨Except.ok.inj h, by omega⟩, fun h => congrArg _ h.1⟩

theorem lnewconf_ok {nCcalls b : Nat} {t : ConfTable (Cell ρ)} :
    lnewconf nCcalls b es = .ok (t, S) ↔ nCcalls + 1 < LUAI_MAXCCALLS ∧
      setvalue (LUAI_MAXCCALLS - (nCcalls + 1)) (.table b es) [] = .ok (.table t, S) ∧
      S.length + 12 ≤ LUAI_MAXSTACK := by
  unfold lnewconf
  split
  · rename_i hcalls
    exact ⟨fun h => (nomatch h), fun h => absurd h.1 (Nat.not_lt.mpr hcalls)⟩
  · rename_i hcalls
    have hdepth : LUAI_MAXCCALLS - (nCcalls + 1) = LUAI_MAXCCALLS - (nCcalls + 2) + 1 := by omega
    rw [hdepth, setvalue, and_iff_right (Nat.not_le.mp hcalls)]
    cases convtable (setvalue (LUAI_MAXCCALLS - (nCcalls + 2))) b es [] with
    | error err => exact ⟨fun h => (nomatch h), fun h => (nomatch h.1)⟩
    | ok r =>
      refine checkstack_ok.trans ⟨?_, ?_⟩
      · rintro ⟨rfl, hroom⟩
        exact ⟨rfl, hroom⟩
      · rintro ⟨h, hroom⟩
        cases h
        exact ⟨rfl, hroom⟩

/-! ### Both directions -/

variable {X : Key → Prop}

theorem IsTable.border_lt {b : Nat} (h : IsTable b es)
    (hrange : ∀ e ∈ es, e.1.InRange) : (b : Int) < 2 ^ 31 := by
  obtain rfl | hb := h.border
  · decide
  · obtain ⟨e, he, heq⟩ := List.mem_map.mp hb
    have hr := hrange e he
    rw [heq] at hr
    exact hr.2

theorem LuaValue.All.table_inv {p : Nat → Entries ρ → Prop} {b : Nat}
    (h : (LuaValue.table b es).All p) : p b es ∧ ∀ e ∈ es, e.2.All p := by
  cases h with
  | table h hes => exact ⟨h, hes⟩

theorem shows_of_kept (hd : v.depth ≤ d) (hv : v.All IsTable)
    (hk : v.All (Kept X)) (S0 : Strings) :
    ∃ c S1, setvalue d v S0 = .ok (c, S1) ∧ ∀ S, S1 <+: S → Shows S X v c := by
  induction d generalizing v S0 with
  | zero =>
    cases v with
    | scalar x => exact ⟨_, _, rfl, fun S hS => .scalar (setscalar_pushvalue x hS)⟩
    | table b es =>
      rw [LuaValue.depth] at hd
      omega
  | succ d ih =>
    cases v with
    | scalar x => exact ⟨_, _, rfl, fun S hS => .scalar (setscalar_pushvalue x hS)⟩
    | table b es =>
      rw [LuaValue.depth] at hd
      obtain ⟨htable, htables⟩ := hv.table_inv
      obtain ⟨hkept, hkepts⟩ := hk.table_inv
      have hes : ∀ e ∈ es, ∀ S0, ∃ c S1, setvalue d e.2 S0 = .ok (c, S1) ∧
          ∀ S, S1 <+: S → Shows S X e.2 c := fun e he =>
        ih ((depth_le_depths he).trans (by omega)) (htables e he) (hkepts e he)
      obtain ⟨t, S1, ht, hlaid⟩ | ⟨e, he, S', err, herr, -⟩ :=
        convtable_passes (@setvalue_grows ρ d) (htable.border_lt hkept.range) htable.distinct
          hkept.range hkept.fits (S := S0)
      · refine ⟨.table t, S1, by rw [setvalue, ht]; rfl, fun S hS => ?_⟩
        have hlaid := hlaid.mono hS
        have hcell : ∀ e ∈ es, ∃ c, lindexconf S t e.1 = .ok (some c) ∧ Shows S X e.2 c := by
          rintro ⟨k, v⟩ he
          obtain ⟨c, hc, S0', S1', hmade, hS1⟩ :=
            hlaid.lindexconf_held hkept.range htable.distinct he
          obtain ⟨c', S1'', hmade', hshow⟩ := hes _ he S0'
          rw [hmade] at hmade'
          cases hmade'
          exact ⟨c, hc, hshow S hS1⟩
        have : Nonempty (Cell ρ) := ⟨.table t⟩
        choose! cell hcell using hcell
        refine .table cell (fun e he _ => (hcell e he).1) (fun e he _ => (hcell e he).2) ?_
          (hlaid.visits hkept.range htable.distinct) hlaid.sizearray
          (fun i hi => hlaid.full hkept.range htable.distinct hi)
        intro k hk habsent
        by_cases hr : k.InRange
        · exact hlaid.lindexconf_absent hkept.range htable.distinct hr habsent
        · rw [lindexconf_narrow]
          exact hlaid.lindexconf_absent hkept.range htable.distinct (narrow_inRange k)
            (hkept.others k (hk.resolve_left hr) hr)
      · obtain ⟨c, S1, hok, -⟩ := hes e he S'
        rw [herr] at hok
        cases hok

theorem kept_of_shows {c : Cell ρ} (h : Shows S X v c)
    (hv : v.All IsTable) {S0 S1 : Strings} (hmade : setvalue d v S0 = .ok (c, S1))
    (hS : S1 <+: S) : v.All (Kept X) ∧ v.depth ≤ d ∧ ∀ s ∈ v.strings, s ∈ S := by
  induction h generalizing d S0 S1 with
  | @scalar x c _ =>
    refine ⟨.scalar _, Nat.zero_le d, fun s hs => ?_⟩
    rw [setvalue_scalar] at hmade
    cases hmade
    cases x with
    | string s' =>
      rw [List.mem_singleton.mp hs]
      exact hS.subset (stringindex_mem S0 s')
    | _ => exact absurd hs List.not_mem_nil
  | @table b es t cell held sub absent visits len full ih =>
    obtain ⟨htable, htables⟩ := hv.table_inv
    cases d with
    | zero => cases hmade
    | succ d =>
      obtain ⟨⟨t', S1'⟩, ht, hmade⟩ := Lib.bind_ok hmade
      cases hmade
      have hsize := (convtable_keeps (P := fun _ => True) (fun e he => ⟨fun _ _ => trivial,
        fun _ _ _ h => (setvalue_adds h).mono fun _ _ => trivial⟩) ht).2
      have hrange : ∀ e ∈ es, e.1.InRange := by
        obtain ⟨l, hl, hperm⟩ := visits
        have hlt := Int32.toInt_lt (Int32.ofNat b)
        exact fun e he => hl.inRange (by rw [hsize]; omega) e.1
          (hperm.mem_iff.mpr (List.mem_map_of_mem he))
      have hb := htable.border_lt hrange
      have hfits := convtable_fits hb ht
      obtain ⟨t'', S1'', ht', hlaid⟩ | ⟨e, he, S', err, -, herr⟩ :=
        convtable_passes (S := S0) setvalue_grows hb htable.distinct hrange hfits
      · rw [ht] at ht'
        cases ht'
        have hlaid := hlaid.mono hS
        have hes : ∀ e ∈ es, e.2.All (Kept X) ∧ e.2.depth ≤ d ∧ ∀ s ∈ e.2.strings, s ∈ S := by
          intro e he
          have hlooked : Looked X e.1 := .inl (hrange e he)
          obtain ⟨c, hc, S0', S1', hmade, hS1⟩ :=
            hlaid.lindexconf_held hrange htable.distinct he
          rw [held e he hlooked] at hc
          cases hc
          exact ih e he hlooked (htables e he) hmade hS1
        refine ⟨.table ⟨hrange, hfits, fun k hX hnot e he heq => ?_⟩ fun e he => (hes e he).1,
          Nat.succ_le_succ (depths_le fun e he => (hes e he).2.1), fun s hs => ?_⟩
        · obtain ⟨c, hc, -⟩ := hlaid.lindexconf_held hrange htable.distinct he
          rw [heq, ← lindexconf_narrow, absent k (.inr hX)] at hc
          · cases hc
          · rintro e' he' rfl
            exact hnot (hrange e' he')
        · obtain ⟨e, he, hkey | hvalue⟩ := mem_entryStrings.mp hs
          · have hknown := hlaid.known e he
            rw [hkey] at hknown
            exact hknown
          · exact (hes e he).2.2 s hvalue
      · rw [ht] at herr
        cases herr

/-- The object that is built shows a table exactly if its integer keys are in the range of an `int`,
no other integer that is looked up has one of them as its narrowed value, and there is room for the
calls and the strings. -/
theorem sharedata_iff (nCcalls : Nat) (X : Key → Prop) {b : Nat} {es : Entries ρ}
    (h : (LuaValue.table b es).All IsTable) :
    (∃ t S, lnewconf nCcalls b es = .ok (t, S) ∧ Shows S X (.table b es) (.table t)) ↔
      (LuaValue.table b es).All (Kept X) ∧ Room nCcalls (.table b es) := by
  constructor
  · rintro ⟨t, S, ht, hshow⟩
    obtain ⟨hcalls, hmade, hroom⟩ := lnewconf_ok.mp ht
    obtain ⟨hkept, hdepth, hstrings⟩ := kept_of_shows hshow h hmade (List.prefix_refl S)
    refine ⟨hkept, by omega, ?_⟩
    have hle := (List.subperm_of_subset (List.nodup_dedup (LuaValue.table b es).strings)
      fun s hs => hstrings s (List.mem_dedup.mp hs)).length_le
    omega
  · rintro ⟨hkept, hcalls, hstrings⟩
    have hdepth : (LuaValue.table b es).depth = depths es + 1 := rfl
    obtain ⟨c, S, hc, hshow⟩ :=
      shows_of_kept (d := LUAI_MAXCCALLS - (nCcalls + 1)) (by omega) h hkept []
    have hadds := setvalue_adds hc
    have hle := (List.subperm_of_subset (hadds.nodup List.nodup_nil) fun s hs =>
      List.mem_dedup.mpr ((hadds.mem hs).resolve_left List.not_mem_nil)).length_le
    have hshows := hshow S (List.prefix_refl S)
    cases c with
    | scalar c => cases hshows
    | table t => exact ⟨t, S, lnewconf_ok.mpr ⟨by omega, hc, by omega⟩, hshows⟩

/-- The table `{[0] = 1, [2 ^ 32] = 2}`. -/
def clashing : Entries UInt64 :=
  [(.int 0, .scalar (.integer 1)), (.int (2 ^ 32), .scalar (.integer 2))]

/-- Of two keys that are the same when they are narrowed, one is lost. -/
theorem clashing_lost :
    (LuaValue.table 0 clashing).All IsTable ∧ ∃ t S, lnewconf 1 0 clashing = .ok (t, S) ∧
      lindexconf S t (.int (2 ^ 32)) = .ok (some (.scalar (.integer 1))) ∧
      ¬ Shows S (fun _ => True) (.table 0 clashing) (.table t) := by
  refine ⟨?_, ?_⟩
  · refine .table ⟨by decide, .inl rfl, by decide⟩ fun e he => ?_
    obtain rfl | rfl : e = _ ∨ e = _ := by simpa [clashing] using he
    · exact .scalar _
    · exact .scalar _
  · refine ⟨_, _, rfl, rfl, ?_⟩
    intro h
    cases h with
    | table cell held sub absent visits len full =>
      obtain ⟨l, hl, hperm⟩ := visits
      have hmem : Key.int (2 ^ 32) ∈ l := hperm.mem_iff.mpr (by decide)
      exact absurd (hl.inRange (by decide) _ hmem).2 (by decide)

/-- The table `{10, x = {}}` is shown as it is. -/
theorem sharedata_iff_nested :
    ∃ t S, lnewconf 1 1 ([(.int 1, .scalar (.integer 10)), (.str [120], .table 0 [])] :
        Entries UInt64) = .ok (t, S) ∧
      Shows S (fun k => k = .int (2 ^ 33)) (.table 1 [(.int 1, .scalar (.integer 10)),
        (.str [120], .table 0 [])]) (.table t) := by
  refine (sharedata_iff 1 _ ?_).mpr ⟨?_, by decide, by decide⟩
  · refine .table ⟨by decide, .inr (by decide), by decide⟩ fun e he => ?_
    obtain rfl | rfl : e = _ ∨ e = _ := by simpa using he
    · exact .scalar _
    · exact .table ⟨List.nodup_nil, .inl rfl, List.not_mem_nil⟩ fun _ h => absurd h List.not_mem_nil
  · refine .table ⟨?_, ⟨by decide, by decide⟩, ?_⟩ fun e he => ?_
    · rintro e he
      obtain rfl | rfl : e = _ ∨ e = _ := by simpa using he
      · exact ⟨by decide, by decide⟩
      · trivial
    · rintro k rfl - e he
      obtain rfl | rfl : e = _ ∨ e = _ := by simpa using he
      · decide
      · decide
    · obtain rfl | rfl : e = _ ∨ e = _ := by simpa using he
      · exact .scalar _
      · exact .table ⟨fun _ h => absurd h List.not_mem_nil, ⟨by decide, by decide⟩,
          fun _ _ _ _ h => absurd h List.not_mem_nil⟩ fun _ h => absurd h List.not_mem_nil

end XsServer.Sharedata
