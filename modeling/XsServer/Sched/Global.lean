import XsServer.Lib.Chain

/-! The global queue of `skynet_mq.c`, `struct global_queue`: the message queues that wait for a
worker, linked through their fields `next`.  Message queues are of any type `ν`. -/

namespace XsServer.Sched

open XsServer.Lib

variable {ν : Type*}

/-- `struct global_queue`, and the field `next` of the message queues. -/
structure GlobalQueue (ν : Type*) where
  head : Option ν
  tail : Option ν
  next : ν → Option ν

/-- `skynet_mq_init`, before there is any message queue. -/
def skynetMqInit : GlobalQueue ν := ⟨none, none, fun _ => none⟩

/-- `none` where `assert(queue->next == NULL)` fails. -/
def skynetGlobalmqPush [DecidableEq ν] (q : GlobalQueue ν) (queue : ν) : Option (GlobalQueue ν) :=
  if (q.next queue).isSome then none
  else match q.tail with
    | some tail =>
      some { q with next := Function.update q.next tail (some queue), tail := some queue }
    | none => some { q with head := some queue, tail := some queue }

/-- The queue at the head, or `none` for `NULL`; `none` as a whole where `assert(mq == q->tail)`
fails. -/
def skynetGlobalmqPop [DecidableEq ν] (q : GlobalQueue ν) : Option (Option ν × GlobalQueue ν) :=
  match q.head with
  | none => some (none, q)
  | some mq =>
    match q.next mq with
    | some head =>
      some (some mq, { q with head := some head, next := Function.update q.next mq none })
    | none =>
      if q.tail = some mq then
        some (some mq, { head := none, tail := none, next := Function.update q.next mq none })
      else none

/-- The global queue is this list, and no other queue has a `next`. -/
structure GlobalQueue.Linked (q : GlobalQueue ν) (l : List ν) : Prop where
  chain : Chain q.next q.head l
  tail : q.tail = l.getLast?
  clear : ∀ i ∉ l, q.next i = none

theorem linked_init : (skynetMqInit : GlobalQueue ν).Linked [] := ⟨.nil, rfl, fun _ _ => rfl⟩

namespace GlobalQueue.Linked

variable {q : GlobalQueue ν} {l : List ν} {i : ν}

theorem nodup (h : q.Linked l) : l.Nodup := h.chain.nodup

variable [DecidableEq ν]

theorem push (h : q.Linked l) (hi : i ∉ l) :
    ∃ q', skynetGlobalmqPush q i = some q' ∧ q'.Linked (l ++ [i]) := by
  have hnext : ¬ (q.next i).isSome := by simp [h.clear i hi]
  rw [skynetGlobalmqPush, if_neg hnext]
  obtain rfl | ⟨l, last, rfl⟩ := l.eq_nil_or_concat'
  · have htail : q.tail = none := h.tail
    rw [htail]
    refine ⟨_, rfl, .cons ?_, rfl, fun j _ => h.clear j (by simp)⟩
    rw [h.clear i hi]
    exact .nil
  · have htail : q.tail = some last := by rw [h.tail, List.getLast?_concat]
    have hlast : last ∉ l := by
      have := h.nodup
      rw [List.nodup_append] at this
      exact fun hmem => this.2.2 last hmem last (by simp) rfl
    have hne : i ≠ last := by
      rintro rfl
      simp at hi
    rw [htail]
    refine ⟨_, rfl, ?_, by simp, fun j hj => ?_⟩
    · rw [List.append_assoc]
      refine h.chain.splice (fun j hj => Function.update_of_ne ?_ ..) ?_
      · exact ne_of_mem_of_not_mem hj hlast
      · simp only [Function.update_self]
        apply Chain.cons
        rw [Function.update_of_ne hne, h.clear i hi]
        exact .nil
    · have hj' : j ∉ l ++ [last] := fun hmem => hj (List.mem_append_left _ hmem)
      have hne' : j ≠ last := by
        rintro rfl
        simp at hj'
      exact (Function.update_of_ne hne' ..).trans (h.clear j hj')

theorem pop_nil (h : q.Linked []) : skynetGlobalmqPop q = some (none, q) := by
  have hhead : q.head = none := h.chain.start
  rw [skynetGlobalmqPop, hhead]

theorem pop_cons (h : q.Linked (i :: l)) :
    ∃ q', skynetGlobalmqPop q = some (some i, q') ∧ q'.Linked l := by
  have hhead : q.head = some i := h.chain.start
  have hnodup := List.nodup_cons.mp h.nodup
  have hclear : ∀ j ∉ l, Function.update q.next i none j = none := by
    intro j hj
    by_cases hji : j = i
    · rw [hji, Function.update_self]
    · rw [Function.update_of_ne hji]
      exact h.clear j (by simp [hji, hj])
  have hchain : Chain (Function.update q.next i none) (q.next i) l :=
    h.chain.tail.congr fun j hj => Function.update_of_ne (ne_of_mem_of_not_mem hj hnodup.1) ..
  rw [skynetGlobalmqPop, hhead]
  cases l with
  | nil =>
    have hnext : q.next i = none := h.chain.tail.start
    have htail : q.tail = some i := h.tail
    simp only [hnext, htail, if_pos]
    exact ⟨_, rfl, .nil, rfl, hclear⟩
  | cons j l =>
    have hnext : q.next i = some j := h.chain.tail.start
    simp only [hnext]
    rw [hnext] at hchain
    exact ⟨_, rfl, hchain, h.tail, hclear⟩

theorem of_push {q' : GlobalQueue ν} (h : q.Linked l) (hi : i ∉ l)
    (hp : skynetGlobalmqPush q i = some q') : q'.Linked (l ++ [i]) := by
  obtain ⟨q1, hq1, hl⟩ := h.push hi
  cases hp.symm.trans hq1
  exact hl

theorem of_pop {q' : GlobalQueue ν} {o : Option ν} (h : q.Linked l)
    (hp : skynetGlobalmqPop q = some (o, q')) : ∃ l', l = o.toList ++ l' ∧ q'.Linked l' := by
  cases l with
  | nil =>
    cases hp.symm.trans h.pop_nil
    exact ⟨[], rfl, h⟩
  | cons j l =>
    obtain ⟨q1, hq1, hl⟩ := h.pop_cons
    cases hp.symm.trans hq1
    exact ⟨l, rfl, hl⟩

end GlobalQueue.Linked

end XsServer.Sched
