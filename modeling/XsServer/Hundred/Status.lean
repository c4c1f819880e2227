import XsServer.Lib.Run

/-! The state machine of a hundred-player table.  `setGameStatus` records a status and enters it
through a timer; `enterGameProcess` enters a status and arms the timer to leave it.  The betting
and the close phase are left through `enterGameProcess` alone, so what is recorded stays behind. -/

namespace XsServer.Hundred

open XsServer.Lib

inductive Status
  | idle
  | start
  | betting
  | close
  deriving DecidableEq

/-- The recorded status, the jumps whose timer is pending, the timer `leaveGameProcess` with its
duration, and the enter handlers that ran, the last one first. -/
structure Machine where
  gmstatus : Option Status
  jumps : List Status
  leave : Option (Status × Nat)
  entered : List Status

namespace Machine

def jumpGameStatus (m : Machine) : Machine := { m with jumps := m.jumps ++ m.gmstatus.toList }

def setGameStatus (m : Machine) (status : Status) : Machine :=
  ({ m with gmstatus := some status } : Machine).jumpGameStatus

def ifBetting (m : Machine) : Bool := m.gmstatus = some .betting

/-- A table after `dataReboot`. -/
def dataReboot : Machine := setGameStatus ⟨none, [], none, []⟩ .idle

/-- `totalMilliscond` of a game computes the duration from the recorded status. -/
def enterGameProcess (total : Option Status → Nat) (m : Machine) (status : Status) : Machine :=
  { m with leave := some (status, total m.gmstatus), entered := status :: m.entered }

/-- With the answer of `checkStart`. -/
def leaveGameProcess (total : Option Status → Nat) (m : Machine) (status : Status) (check : Bool) :
    Machine :=
  match status with
  | .idle => m.setGameStatus (if check then .start else .idle)
  | .start => m.setGameStatus .betting
  | .betting => m.enterGameProcess total .close
  | .close => m.enterGameProcess total .idle

/-- A timer fires, or a bet is tried: whether it passes what `tryBetting` checks beside the status,
and whether it is accepted. -/
inductive Event
  | jump (status : Status)
  | leave (status : Status) (check : Bool)
  | bet (passes accepted : Bool)

inductive Step (total : Option Status → Nat) (m : Machine) : Event → Machine → Prop
  | jump (status : Status) (h : status ∈ m.jumps) :
    Step total m (.jump status)
      (({ m with jumps := m.jumps.erase status } : Machine).enterGameProcess total status)
  | leave (status : Status) (time : Nat) (check : Bool) (h : m.leave = some (status, time)) :
    Step total m (.leave status check)
      (({ m with leave := none } : Machine).leaveGameProcess total status check)
  | bet (passes : Bool) : Step total m (.bet passes (m.ifBetting && passes)) m

/-- The phase that may come after a phase. -/
def Next : Status → Status → Prop
  | .idle, .idle => True
  | .idle, .start => True
  | .start, .betting => True
  | .betting, .close => True
  | .close, .idle => True
  | _, _ => False

/-- The phase may be entered after these, the last one first. -/
def After : List Status → Status → Prop
  | [], status => status = .idle
  | last :: _, status => Next last status

/-- The phases, the last one first, follow the cycle. -/
def Cycle : List Status → Prop
  | [] => True
  | status :: before => After before status ∧ Cycle before

/-- The recorded status is the phase that was entered last or is pending. -/
def InStep (m : Machine) : Prop :=
  ∃ status, m.gmstatus = some status ∧ (m.entered.head? = some status ∨ status ∈ m.jumps)

/-- A bet is accepted only in the betting phase. -/
def Timely (m : Machine) (e : Event) : Prop :=
  ∀ passes, e = .bet passes true → m.entered.head? = some .betting

/-- The betting phase does not end, and no bet that passes the other checks is tried before it is
entered. -/
def Clear (m : Machine) : Event → Prop
  | .leave status _ => status ≠ .betting
  | .bet passes _ => passes → .betting ∉ m.jumps
  | .jump _ => True

variable {total : Option Status → Nat} {m n : Machine} {e : Event}

/-- Either a jump is pending or the timer to leave is armed. -/
structure Turn (m : Machine) : Prop where
  cycle : Cycle m.entered
  pending : (∃ status, m.jumps = [status] ∧ m.leave = none ∧ After m.entered status) ∨
    ∃ status time, m.jumps = [] ∧ m.leave = some (status, time) ∧ m.entered.head? = some status

theorem Turn.dataReboot : Turn dataReboot :=
  ⟨trivial, Or.inl ⟨.idle, rfl, rfl, rfl⟩⟩

theorem Turn.step (h : Turn m) (hstep : Step total m e n) : Turn n := by
  obtain ⟨hcycle, ⟨status, hjumps, hleave, hafter⟩ | ⟨status, time, hjumps, hleave, hlast⟩⟩ := h
  · cases hstep with
    | jump status' hmem =>
      rw [hjumps] at hmem
      obtain rfl := List.mem_singleton.mp hmem
      refine ⟨⟨hafter, hcycle⟩, Or.inr ⟨status', _, ?_, rfl, rfl⟩⟩
      show m.jumps.erase status' = []
      rw [hjumps]
      simp
    | leave status' time check hleave' =>
      rw [hleave] at hleave'
      cases hleave'
    | bet => exact ⟨hcycle, Or.inl ⟨status, hjumps, hleave, hafter⟩⟩
  · cases hstep with
    | jump status' hmem =>
      rw [hjumps] at hmem
      exact absurd hmem List.not_mem_nil
    | leave status' time' check hleave' =>
      obtain ⟨rfl, rfl⟩ := Prod.mk.inj (Option.some.inj (hleave.symm.trans hleave'))
      obtain ⟨before, hbefore⟩ := List.head?_eq_some_iff.mp hlast
      have hjump : ∀ next, Next status next →
          Turn (({ m with leave := none } : Machine).setGameStatus next) := by
        intro next hnext
        refine ⟨hcycle, Or.inl ⟨next, ?_, rfl, ?_⟩⟩
        · show m.jumps ++ [next] = [next]
          rw [hjumps]
          rfl
        · show After m.entered next
          rw [hbefore]
          exact hnext
      have henter : ∀ next, Next status next →
          Turn (({ m with leave := none } : Machine).enterGameProcess total next) := by
        intro next hnext
        refine ⟨⟨?_, hcycle⟩, Or.inr ⟨next, _, hjumps, rfl, rfl⟩⟩
        show After m.entered next
        rw [hbefore]
        exact hnext
      cases status with
      | idle => cases check <;> exact hjump _ trivial
      | start => exact hjump _ trivial
      | betting | close => exact henter _ trivial
    | bet => exact ⟨hcycle, Or.inr ⟨status, time, hjumps, hleave, hlast⟩⟩

/-- The status that is pending or was entered last is the recorded one, and not `close`. -/
structure Agrees (m : Machine) : Prop where
  turn : Turn m
  pending : ∀ status ∈ m.jumps, m.gmstatus = some status
  entered : ∀ status time, m.leave = some (status, time) → m.gmstatus = some status
  not_close : m.gmstatus ≠ some .close

theorem Agrees.inStep (h : Agrees m) : InStep m := by
  obtain ⟨status, hjumps, -⟩ | ⟨status, time, -, hleave, hlast⟩ := h.turn.pending
  · have hmem : status ∈ m.jumps := by simp [hjumps]
    exact ⟨status, h.pending status hmem, Or.inr hmem⟩
  · exact ⟨status, h.entered status time hleave, Or.inl hlast⟩

theorem Agrees.setGameStatus {status : Status} (hjumps : m.jumps = []) (hleave : m.leave = none)
    (hturn : Turn (m.setGameStatus status)) (hclose : status ≠ .close) :
    Agrees (m.setGameStatus status) := by
  refine ⟨hturn, fun status' hmem => ?_, fun _ _ h => ?_, fun h => hclose (Option.some.inj h)⟩
  · have hmem' : status' ∈ m.jumps ++ [status] := hmem
    rw [hjumps] at hmem'
    rw [List.mem_singleton.mp hmem']
    rfl
  · exact absurd (hleave.symm.trans h) (by simp)

theorem Agrees.dataReboot : Agrees dataReboot :=
  .setGameStatus rfl rfl .dataReboot (by decide)

theorem Agrees.step (h : Agrees m) (hstep : Step total m e n)
    (hclear : ∀ check, e ≠ .leave .betting check) : Agrees n := by
  have hturn := h.turn.step hstep
  cases hstep with
  | jump status hmem =>
    refine ⟨hturn, fun status' hmem' => h.pending status' (List.mem_of_mem_erase hmem'), ?_,
      h.not_close⟩
    intro status' time hleave
    obtain ⟨rfl, -⟩ := Prod.mk.inj (Option.some.inj hleave)
    exact h.pending status hmem
  | leave status time check hleave =>
    have hjumps : m.jumps = [] := by
      obtain ⟨status', -, hnone, -⟩ | ⟨status', time', hjumps, -⟩ := h.turn.pending
      · rw [hnone] at hleave
        cases hleave
      · exact hjumps
    cases status with
    | idle =>
      refine .setGameStatus hjumps rfl hturn ?_
      cases check <;> decide
    | start => exact .setGameStatus hjumps rfl hturn (by decide)
    | betting => exact absurd rfl (hclear check)
    | close => exact absurd (h.entered _ _ hleave) h.not_close
  | bet => exact h

theorem Agrees.not_inStep {check : Bool} (h : Agrees m)
    (hstep : Step total m (.leave .betting check) n) : ¬ InStep n := by
  cases hstep with
  | leave _ time _ hleave =>
    rintro ⟨status, hstatus, hin⟩
    have hrecorded : m.gmstatus = some status := hstatus
    obtain rfl := Option.some.inj (hrecorded.symm.trans (h.entered _ _ hleave))
    obtain ⟨status', -, hnone, -⟩ | ⟨status', time', hjumps, -⟩ := h.turn.pending
    · rw [hnone] at hleave
      cases hleave
    · have hin' : some Status.close = some .betting ∨ .betting ∈ m.jumps := hin
      rw [hjumps] at hin'
      simp at hin'

theorem Agrees.timely_iff {passes accepted : Bool} (h : Agrees m)
    (hstep : Step total m (.bet passes accepted) n) :
    Timely m (.bet passes accepted) ↔ (passes → .betting ∉ m.jumps) := by
  cases hstep with
  | bet =>
    constructor
    · intro htimely hpasses hmem
      have hrecorded := h.pending _ hmem
      have haccepted : (m.ifBetting && passes) = true := by simp [ifBetting, hrecorded, hpasses]
      have hlast := htimely passes (by rw [haccepted])
      obtain ⟨status, hjumps, -, hafter⟩ | ⟨status, time, hjumps, -⟩ := h.turn.pending
      · rw [hjumps] at hmem
        obtain rfl := List.mem_singleton.mp hmem
        obtain ⟨before, hbefore⟩ := List.head?_eq_some_iff.mp hlast
        rw [hbefore] at hafter
        exact hafter
      · rw [hjumps] at hmem
        exact absurd hmem List.not_mem_nil
    · intro hnot passes' heq
      obtain ⟨rfl, haccepted⟩ := Event.bet.inj heq
      obtain ⟨hbetting, hpasses⟩ := Bool.and_eq_true_iff.mp haccepted
      have hrecorded : m.gmstatus = some .betting := of_decide_eq_true hbetting
      obtain ⟨status, hjumps, -⟩ | ⟨status, time, -, hleave, hlast⟩ := h.turn.pending
      · have hmem : status ∈ m.jumps := by simp [hjumps]
        obtain rfl := Option.some.inj ((h.pending _ hmem).symm.trans hrecorded)
        exact absurd hmem (hnot hpasses)
      · rw [hlast]
        exact congrArg some (Option.some.inj ((h.entered _ _ hleave).symm.trans hrecorded))

/-- The phases follow the cycle in every run.  Up to the end of the first betting phase the recorded
status is in step, and a bet is accepted only in that phase if none is tried before it is entered;
the step that ends it puts the status out of step. -/
theorem in_step {es : List Event} (hrun : Run (Guarded Clear (Step total)) dataReboot es m) :
    InStep m ∧ (∀ fs n, Run (Step total) m fs n → Cycle n.entered) ∧
      ∀ e n, Step total m e n → (InStep n ∧ Timely m e ↔ Clear m e) := by
  have hagrees : Agrees m := by
    refine hrun.invariant Agrees.dataReboot fun s e n h hstep => h.step hstep.2 ?_
    rintro check rfl
    exact hstep.1 rfl
  refine ⟨hagrees.inStep, fun fs n hfs => ?_, fun e n hstep => ?_⟩
  · exact (hfs.invariant hagrees.turn fun s e n h hstep => h.step hstep).cycle
  · cases e with
    | jump status =>
      refine iff_of_true ⟨(hagrees.step hstep (by simp)).inStep, ?_⟩ trivial
      intro passes h
      cases h
    | leave status check =>
      constructor
      · rintro ⟨hin, -⟩ rfl
        exact hagrees.not_inStep hstep hin
      · intro hclear
        refine ⟨(hagrees.step hstep ?_).inStep, fun passes h => ?_⟩
        · rintro check' heq
          exact hclear (Event.leave.inj heq).1
        · cases h
    | bet passes accepted =>
      have hin := (hagrees.step hstep (by simp)).inStep
      rw [and_iff_right hin]
      exact hagrees.timely_iff hstep

theorem in_step_betting : ∃ m, Run (Guarded Clear (Step fun _ => 1000)) dataReboot
    [.jump .idle, .leave .idle true, .jump .start, .leave .start false, .jump .betting,
      .bet true true] m ∧ InStep m := by
  have hrun : Run (Guarded Clear (Step fun _ => 1000)) dataReboot
      [.jump .idle, .leave .idle true, .jump .start, .leave .start false, .jump .betting,
        .bet true true] _ :=
    .cons (.of_step (.jump .idle (by decide)) trivial) <|
    .cons (.of_step (.leave .idle 1000 true rfl) (by simp [Clear])) <|
    .cons (.of_step (.jump .start (by decide)) trivial) <|
    .cons (.of_step (.leave .start 1000 false rfl) (by simp [Clear])) <|
    .cons (.of_step (.jump .betting (by decide)) trivial) <|
    .cons (.of_step (.bet true) fun _ => by decide) <| .nil _
  exact ⟨_, hrun, (in_step hrun).1⟩

/-- The close phase with a bet that is accepted. -/
theorem close_bet : ∃ m, Run (Step fun _ => 1000) dataReboot
    [.jump .idle, .leave .idle true, .jump .start, .leave .start false, .jump .betting,
      .leave .betting false, .bet true true] m ∧
    m.entered.head? = some .close ∧ ¬ InStep m := by
  refine ⟨_, .cons (.jump .idle (by decide)) <| .cons (.leave .idle 1000 true rfl) <|
    .cons (.jump .start (by decide)) <| .cons (.leave .start 1000 false rfl) <|
    .cons (.jump .betting (by decide)) <| .cons (.leave .betting 1000 false rfl) <|
    .cons (.bet true) <| .nil _, rfl, ?_⟩
  rintro ⟨status, hstatus, hin⟩
  obtain rfl : Status.betting = status := Option.some.inj hstatus
  exact absurd hin (by decide)

end Machine

end XsServer.Hundred
