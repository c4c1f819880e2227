import Mathlib.Data.List.Basic

/-! FIFO channels between parties, one for each key: what is in them after messages are sent and
after the first one of a channel is received. -/

namespace XsServer.Lib

variable {κ α : Type*}

/-- The messages in flight. -/
abbrev Channels (κ α : Type*) := κ → List α

namespace Channels

/-- Each channel takes the messages that `out` has for it. -/
def send (c out : Channels κ α) : Channels κ α := fun k => c k ++ out k

@[simp] theorem mem_send {c out : Channels κ α} {k : κ} {m : α} :
    m ∈ c.send out k ↔ m ∈ c k ∨ m ∈ out k := List.mem_append

variable [DecidableEq κ]

/-- Messages for one channel. -/
def single (k : κ) (ms : List α) : Channels κ α := Function.update (fun _ => []) k ms

/-- The channels after the first message of one is received. -/
def receive (c : Channels κ α) (k : κ) : Channels κ α := Function.update c k (c k).tail

/-- The channels after what is in one is lost. -/
def lose (c : Channels κ α) (k : κ) : Channels κ α := Function.update c k []

variable {c : Channels κ α} {j k : κ} {m p : α} {ms ps : List α}

@[simp] theorem single_self : single k ms k = ms := Function.update_self ..

theorem single_of_ne (h : j ≠ k) : single k ms j = [] := Function.update_of_ne h ..

theorem mem_single : m ∈ single k ms j ↔ j = k ∧ m ∈ ms := by
  by_cases h : j = k
  · subst h
    simp
  · simp [single_of_ne h, h]

@[simp] theorem send_single_nil : c.send (single k []) = c := by
  funext j
  by_cases h : j = k
  · rw [send, h, single_self, List.append_nil]
  · rw [send, single_of_ne h, List.append_nil]

theorem receive_of_ne (h : j ≠ k) : c.receive k j = c j := Function.update_of_ne h ..

theorem receive_self (h : c k = p :: ps) : c.receive k k = ps := by
  rw [receive, Function.update_self, h, List.tail_cons]

theorem mem_of_mem_receive (h : m ∈ c.receive k j) : m ∈ c j := by
  by_cases hj : j = k
  · subst hj
    rw [receive, Function.update_self] at h
    exact List.mem_of_mem_tail h
  · rwa [receive_of_ne hj] at h

/-- What was in flight still is, or it was the message received. -/
theorem mem_receive (hk : c k = p :: ps) (h : m ∈ c j) : m ∈ c.receive k j ∨ j = k ∧ m = p := by
  by_cases hj : j = k
  · subst hj
    rw [hk] at h
    rw [receive_self hk]
    exact (List.mem_cons.mp h).symm.imp_right fun h => ⟨rfl, h⟩
  · exact .inl (by rwa [receive_of_ne hj])

end Channels

end XsServer.Lib
