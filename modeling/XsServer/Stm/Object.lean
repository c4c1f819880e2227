import XsServer.Lib.Run
import XsServer.Lib.Threads
import Mathlib.Algebra.Ring.Int.Defs

/-! The transactional memory of `lua-stm.c`: an object with one writer and any number of readers,
one atomic step at a time.  A step takes or leaves the lock, changes a counter, or reads or writes a
field; memory that was freed may be given out again.  What is not in the source is the number of an
update, from 0 on, by which reads are compared. -/

namespace XsServer.Stm

open XsServer.Lib

/-- `struct stm_copy`, with the number of its update once that is in the object. -/
structure Copy (μ : Type*) where
  reference : Int
  msg : μ
  no : Option Nat

/-- `struct stm_object` -/
structure Object where
  write : Bool
  read : Nat
  reference : Int
  copy : Option Nat

/-- The object and the copies, by their addresses, unless they are freed, and what all updates have
put in the object. -/
structure Memory (μ : Type*) where
  obj : Option Object
  copies : Nat → Option (Copy μ)
  msgs : List μ

/-- `boxstm`, or a `boxreader` with `lastcopy` and the number of the update that it saw last. -/
inductive Box
  | writer
  | reader (lastcopy seen : Option Nat)

inductive Frame
  /-- None of these functions, with a box. -/
  | box (b : Box)
  -- `stm_update`: lock, exchange the copies, unlock
  | newcopy (copy : Nat)
  | swapping (copy : Nat)
  | swapped (oldcopy : Option Nat)
  -- `stm_release`: lock, release the copy, reset it, count, and unlock or free the object
  | retiring
  | retired
  | resetting
  | counting
  | unlocking
  | freeing
  -- `stm_grab`: count, unlock, assert; and the pointer that `lcopy` gives
  | grabbing (b : Box)
  | grabbed (b : Box) (ref : Int)
  | asserting (b : Box) (ref : Int)
  | pointer
  -- `stm_copy`: load, count, unlock; and what `lread` does with the result.  `now` is the number of
  -- the latest update when the lock was taken.
  | copying (lastcopy seen now : Option Nat)
  | loaded (ret lastcopy seen now : Option Nat)
  | counted (ret : Option Nat) (ref : Int) (lastcopy seen now : Option Nat)
  | copied (ret lastcopy seen now : Option Nat)
  | took (ret seen now : Option Nat)
  -- `stm_releasereader`: count, and unlock or free the object
  | deleting (lastcopy : Option Nat)
  | deleted (lastcopy : Option Nat)
  | last (lastcopy : Option Nat)
  -- `stm_releasecopy`
  | release (copy : Option Nat)
  | free (copy : Nat)

/-- A counter is incremented from `ref`, a reader counts down to 0, or a read ends: it compares the
numbers `now` and `seen`, and calls the function of the reader with the message, or does not. -/
inductive Event (μ : Type*)
  | silent
  | increment (ref : Int)
  | lastReader
  | read (now seen : Option Nat) (called : Option μ)

variable {μ : Type*}

/-- An `int`. -/
def int (n : Int) : Int := n.bmod (2 ^ 32)

def Memory.setObj (m : Memory μ) (o : Object) : Memory μ := { m with obj := some o }

def Memory.setCopy (m : Memory μ) (a : Nat) (c : Option (Copy μ)) : Memory μ :=
  { m with copies := Function.update m.copies a c }

def Memory.latest (m : Memory μ) (o : Object) : Option Nat := o.copy.map fun _ => m.msgs.length - 1

/-- The step of a frame: the frames that take its place, the memory after it, and whether `lcopy`
gives a pointer to another thread. -/
inductive Act (m : Memory μ) : Frame → Event μ → List Frame → Bool → Memory μ → Prop
  -- `stm_newcopy`
  | update (a : Nat) (msg : μ) (h : m.copies a = none) :
    Act m (.box .writer) .silent [.newcopy a] false (m.setCopy a (some ⟨1, msg, none⟩))
  | wlock (a : Nat) (o : Object) (h : m.obj = some o) (hw : o.write = false) (hr : o.read = 0) :
    Act m (.newcopy a) .silent [.swapping a] false (m.setObj { o with write := true })
  | swap (a : Nat) (o : Object) (c : Copy μ) (h : m.obj = some o) (hc : m.copies a = some c) :
    Act m (.swapping a) .silent [.swapped o.copy] false
      ⟨some { o with copy := some a },
        Function.update m.copies a (some { c with no := some m.msgs.length }), m.msgs ++ [c.msg]⟩
  | wunlock (old : Option Nat) (o : Object) (h : m.obj = some o) :
    Act m (.swapped old) .silent [.release old, .box .writer] false
      (m.setObj { o with write := false })
  -- `assert(obj->copy)`
  | retire (o : Object) (h : m.obj = some o) (hcopy : o.copy.isSome) :
    Act m (.box .writer) .silent [.retiring] false m
  | wlockRetire (o : Object) (h : m.obj = some o) (hw : o.write = false) (hr : o.read = 0) :
    Act m .retiring .silent [.retired] false (m.setObj { o with write := true })
  | releaseLast (o : Object) (h : m.obj = some o) :
    Act m .retired .silent [.release o.copy, .resetting] false m
  | reset (o : Object) (h : m.obj = some o) :
    Act m .resetting .silent [.counting] false (m.setObj { o with copy := none })
  | count (o : Object) (h : m.obj = some o) :
    Act m .counting .silent [if int (o.reference - 1) > 0 then .unlocking else .freeing] false
      (m.setObj { o with reference := int (o.reference - 1) })
  | unlock (o : Object) (h : m.obj = some o) :
    Act m .unlocking .silent [] false (m.setObj { o with write := false })
  | freeObj (o : Object) (h : m.obj = some o) :
    Act m .freeing .silent [] false { m with obj := none }
  | grab (b : Box) (o : Object) (h : m.obj = some o) (hw : o.write = false) :
    Act m (.box b) .silent [.grabbing b] false (m.setObj { o with read := o.read + 1 })
  | grabInc (b : Box) (o : Object) (h : m.obj = some o) :
    Act m (.grabbing b) (.increment o.reference) [.grabbed b o.reference] false
      (m.setObj { o with reference := int (o.reference + 1) })
  | grabUnlock (b : Box) (ref : Int) (o : Object) (h : m.obj = some o) :
    Act m (.grabbed b ref) .silent [.asserting b ref] false (m.setObj { o with read := o.read - 1 })
  | grabAssert (b : Box) (ref : Int) (h : ref > 0) :
    Act m (.asserting b ref) .silent [.box b] true m
  -- `lnewreader`
  | newreader : Act m .pointer .silent [.box (.reader none none)] false m
  | rlock (lastcopy seen : Option Nat) (o : Object) (h : m.obj = some o) (hw : o.write = false) :
    Act m (.box (.reader lastcopy seen)) .silent [.copying lastcopy seen (m.latest o)] false
      (m.setObj { o with read := o.read + 1 })
  | load (lastcopy seen now : Option Nat) (o : Object) (h : m.obj = some o) :
    Act m (.copying lastcopy seen now) .silent [.loaded o.copy lastcopy seen now] false m
  | loadNull (lastcopy seen now : Option Nat) :
    Act m (.loaded none lastcopy seen now) .silent [.counted none 1 lastcopy seen now] false m
  | inc (a : Nat) (lastcopy seen now : Option Nat) (c : Copy μ) (h : m.copies a = some c) :
    Act m (.loaded (some a) lastcopy seen now) (.increment c.reference)
      [.counted (some a) c.reference lastcopy seen now] false
      (m.setCopy a (some { c with reference := int (c.reference + 1) }))
  -- `assert(ref > 0)` and the unlock
  | runlock (ret : Option Nat) (ref : Int) (lastcopy seen now : Option Nat) (o : Object)
    (h : m.obj = some o) (href : ref > 0) :
    Act m (.counted ret ref lastcopy seen now) .silent [.copied ret lastcopy seen now] false
      (m.setObj { o with read := o.read - 1 })
  | same (ret seen now : Option Nat) :
    Act m (.copied ret ret seen now) (.read now seen none)
      [.release ret, .box (.reader ret now)] false m
  | changed (ret lastcopy seen now : Option Nat) (h : ret ≠ lastcopy) :
    Act m (.copied ret lastcopy seen now) .silent [.release lastcopy, .took ret seen now] false m
  | call (a : Nat) (seen now : Option Nat) (c : Copy μ) (h : m.copies a = some c) :
    Act m (.took (some a) seen now) (.read now seen (some c.msg))
      [.box (.reader (some a) now)] false m
  | noCall (seen now : Option Nat) :
    Act m (.took none seen now) (.read now seen none) [.box (.reader none now)] false m
  | delete (lastcopy seen : Option Nat) (o : Object) (h : m.obj = some o) (hw : o.write = false) :
    Act m (.box (.reader lastcopy seen)) .silent [.deleting lastcopy] false
      (m.setObj { o with read := o.read + 1 })
  | dec (lastcopy : Option Nat) (o : Object) (h : m.obj = some o)
    (hne : int (o.reference - 1) ≠ 0) :
    Act m (.deleting lastcopy) .silent [.deleted lastcopy] false
      (m.setObj { o with reference := int (o.reference - 1) })
  | decLast (lastcopy : Option Nat) (o : Object) (h : m.obj = some o)
    (hzero : int (o.reference - 1) = 0) :
    Act m (.deleting lastcopy) .lastReader [.last lastcopy] false
      (m.setObj { o with reference := int (o.reference - 1) })
  | runlockDeleted (lastcopy : Option Nat) (o : Object) (h : m.obj = some o) :
    Act m (.deleted lastcopy) .silent [.release lastcopy] false
      (m.setObj { o with read := o.read - 1 })
  -- `assert(obj->copy == NULL)`
  | freeLast (lastcopy : Option Nat) (o : Object) (h : m.obj = some o) (hcopy : o.copy = none) :
    Act m (.last lastcopy) .silent [.release lastcopy] false { m with obj := none }
  | releaseNull : Act m (.release none) .silent [] false m
  | release (a : Nat) (c : Copy μ) (h : m.copies a = some c) :
    Act m (.release (some a)) .silent (if int (c.reference - 1) = 0 then [.free a] else []) false
      (m.setCopy a (some { c with reference := int (c.reference - 1) }))
  | free (a : Nat) (c : Copy μ) (h : m.copies a = some c) :
    Act m (.free a) .silent [] false (m.setCopy a none)

/-- The memory and the threads, each a stack of frames. -/
structure State (μ : Type*) where
  memory : Memory μ
  threads : List (List Frame)

def spawned (b : Bool) : List (List Frame) := if b then [[.pointer]] else []

inductive Step (s : State μ) : Event μ → State μ → Prop
  | act {f : Frame} {e : Event μ} {fs : List Frame} {spawn : Bool} {m : Memory μ}
    {ts : List (List Frame)} (h : Act s.memory f e fs spawn m) (ht : Replaces s.threads f fs ts) :
    Step s e ⟨m, ts ++ spawned spawn⟩

/-- `stm_new` of a message, with its writer. -/
def State.new (a : Nat) (msg : μ) : State μ where
  memory :=
    { obj := some ⟨false, 0, 1, some a⟩
      copies := Function.update (fun _ => none) a (some ⟨1, msg, some 0⟩)
      msgs := [msg] }
  threads := [[.box .writer]]

def Frame.UsesObj : Frame → Prop
  | box _ | newcopy _ | swapping _ | swapped _ | retiring | retired | resetting | counting
  | unlocking | freeing | grabbing _ | grabbed _ _ | copying _ _ _ | counted _ _ _ _ _ | deleting _
  | deleted _ | last _ => True
  | asserting _ _ | pointer | loaded _ _ _ _ | copied _ _ _ _ | took _ _ _ | release _
  | free _ => False

/-- The copy that the frame reads, writes or frees next. -/
def Frame.usesCopy : Frame → Option Nat
  | free copy => some copy
  | loaded ret _ _ _ | took ret _ _ => ret
  | release copy => copy
  | _ => none

def Frame.Asserts (m : Memory μ) : Frame → Prop
  | box .writer => ∀ o, m.obj = some o → o.copy.isSome
  | asserting _ ref => ref > 0
  | counted _ ref _ _ _ => ref > 0
  | last _ => ∀ o, m.obj = some o → o.copy = none
  | _ => True

/-- No thread is about to use what was freed, or to free it again, and no assertion fails. -/
structure State.Safe (s : State μ) : Prop where
  obj : ∀ f st, f :: st ∈ s.threads → f.UsesObj → ∃ o, s.memory.obj = some o
  copies : ∀ f st, f :: st ∈ s.threads → ∀ a, f.usesCopy = some a →
    ∃ c, s.memory.copies a = some c
  asserts : ∀ f st, f :: st ∈ s.threads → f.Asserts s.memory

/-- A read calls the function if and only if there is an update and it is not the one seen last, and
with the message of that update. -/
def Newest (msgs : List μ) : Event μ → Prop
  | .read now seen called =>
    (called.isSome ↔ now.isSome ∧ now ≠ seen) ∧
      ∀ msg, called = some msg → ∃ n, now = some n ∧ msgs[n]? = some msg
  | _ => True

/-- No counter is at its maximum when it is incremented, and the last reader leaves when no other
thread has the lock. -/
def Clear (s : State μ) : Event μ → Prop
  | .increment ref => ref < 2 ^ 31 - 1
  | .lastReader => ∀ o, s.memory.obj = some o → o.read = 1
  | _ => True

end XsServer.Stm
