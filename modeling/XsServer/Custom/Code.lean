import Mathlib.Tactic.Ring

/-! The numbers of errors and messages, `code.lua`: a type, a module and a code in one integer. -/

namespace XsServer.Custom

def regionCode : Int := 100000000
def moduleCode : Int := 10000

/-- `ICode`, with `_mode` -/
structure ICode where
  mode : Int

namespace ICode

def new (mode : Int) : ICode := ⟨mode * moduleCode⟩

/-- `none` is an error: the table `s` has the types from 1 to 9. -/
def make (c : ICode) (type code : Int) : Option Int :=
  if 1 ≤ type ∧ type ≤ 9 then some (regionCode * type + c.mode + code) else none

def typeOf (code : Int) : Int := code / regionCode

def modeOf (code : Int) : Int := code % regionCode / moduleCode

def codeOf (code : Int) : Int := code % moduleCode

/-- `code.new` in `competition:ctor` -/
def ofGame (gameID : Nat) : ICode := new (gameID + 10000)

def Decodes (mode type code : Int) : Prop :=
  ∃ k, (new mode).make type code = some k ∧ typeOf k = type ∧ modeOf k = mode ∧ codeOf k = code

theorem make_decoded (mode : Int) {type code : Int} (ht : 1 ≤ type ∧ type ≤ 9)
    (hc : 0 ≤ code ∧ code < moduleCode) :
    ∃ k, (new mode).make type code = some k ∧ typeOf k = type + mode / moduleCode ∧
      modeOf k = mode % moduleCode ∧ codeOf k = code := by
  refine ⟨_, if_pos ht, ?_, ?_, ?_⟩ <;>
    simp only [typeOf, modeOf, codeOf, new, regionCode, moduleCode] at hc ⊢ <;>
    omega

theorem decodes_iff {mode type code : Int} (ht : 1 ≤ type ∧ type ≤ 9)
    (hc : 0 ≤ code ∧ code < moduleCode) :
    Decodes mode type code ↔ 0 ≤ mode ∧ mode < moduleCode := by
  obtain ⟨k, hk, htype, hmode, hcode⟩ := make_decoded mode ht hc
  simp only [moduleCode] at htype hmode ⊢
  constructor
  · rintro ⟨k', hk', htype', -⟩
    obtain rfl := Option.some.inj (hk.symm.trans hk')
    omega
  · intro h
    exact ⟨k, hk, by omega, by omega, hcode⟩

/-- No number of a game is decoded to what it was made of. -/
theorem game_never_decodes (gameID : Nat) {type code : Int} (ht : 1 ≤ type ∧ type ≤ 6)
    (hc : 0 ≤ code ∧ code < 10000) : ¬ Decodes (gameID + 10000) type code := by
  rw [decodes_iff ⟨ht.1, ht.2.trans (by decide)⟩ hc, moduleCode]
  omega

theorem game_never_decodes_one : ¬ Decodes ((1 : Nat) + 10000) 2 5 :=
  game_never_decodes 1 (by decide) (by decide)

/-- The games 1 and 10001 share a number, which is decoded to neither of them. -/
theorem games_share : (ofGame 1).make 2 5 = (ofGame 10001).make 1 5 ∧
    (ofGame 1).make 2 5 = some 300010005 ∧ typeOf 300010005 = 3 ∧ modeOf 300010005 = 1 ∧
    ¬ Decodes ((1 : Nat) + 10000) 2 5 := by
  refine ⟨rfl, rfl, rfl, rfl, ?_⟩
  rw [decodes_iff (by decide) (by decide)]
  decide

end ICode

end XsServer.Custom
