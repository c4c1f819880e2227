import XsServer.Sproto.Integers

/-! Arrays of booleans, of byte strings and of structs, and what is reported of the elements. -/

namespace XsServer.Sproto

open Lib

variable {cb : Supply} {arg : Arg}

def booleanByte (b : Bool) : UInt8 := if b then 1 else 0

theorem booleanByte_eq (b : Bool) :
    (if Bytes.ofLe (Bytes.le 4 b.toNat) = 0 then 0 else 1) = booleanByte b := by
  cases b <;> rfl

theorem booleanLoop_codes {bs : List Bool}
    (hcb : GivesElements cb arg 4 bs fun b => .ok (Bytes.le 4 b.toNat)) (rest done : List Bool)
    (h : bs = done ++ rest) :
    Codes (fun size => booleanLoop cb arg size (done.length + 1)) (some (rest.map booleanByte))
      rest.length := by
  induction rest generalizing done with
  | nil =>
    rw [List.append_nil] at h
    subst h
    have hloop : (fun size => booleanLoop cb arg size (bs.length + 1)) =
        fun _ => .ok (some []) := by
      funext size
      rw [booleanLoop, hcb, supplyElement_end]
    rw [hloop]
    exact Codes.always _
  | cons b rest ih =>
    have hlt : done.length < bs.length := by
      rw [h, List.length_append, List.length_cons]
      omega
    have hb : bs[done.length] = b := by
      subst h
      rw [List.getElem_append_right (Nat.le_refl _)]
      simp only [Nat.sub_self, List.getElem_cons_zero]
    have hrest := ih (done ++ [b]) (by rw [h, List.append_assoc, List.singleton_append])
    rw [List.length_append, List.length_singleton] at hrest
    have hloop : (fun size => booleanLoop cb arg size (done.length + 1)) = fun size : Int =>
        if size < (1 : Nat) then .error .failed
        else Option.map (booleanByte b :: ·) <$>
          booleanLoop cb arg (size - (1 : Nat)) (done.length + 1 + 1) := by
      funext size
      rw [booleanLoop, hcb, supplyElement_of_lt hlt, hb]
      dsimp only
      rw [booleanByte_eq]
      rfl
    rw [hloop, List.length_cons, Nat.add_comm rest.length 1]
    exact (hrest.map (Option.map (booleanByte b :: ·))).header 1

def sized (s : List UInt8) : List UInt8 := fillSize s.length ++ s

theorem sized_length (s : List UInt8) : (sized s).length = 4 + s.length := by
  rw [sized, List.length_append, fillSize, Bytes.le_length]

/-- The callback gives the elements one after the other, and then `nil`. -/
structure GivesAll (cb : Supply) (arg : Arg) (elements : List (List UInt8)) : Prop where
  gives : ∀ i (h : i < elements.length),
    Gives (cb { arg with index := (i + 1 : Nat) }) elements[i]
  last : ∀ length, cb { arg with index := (elements.length + 1 : Nat) } length = .nil

theorem objectLoop_codes {elements : List (List UInt8)} (hcb : GivesAll cb arg elements)
    (rest done : List (List UInt8)) (h : elements = done ++ rest) :
    Codes (fun size => objectLoop cb arg size (done.length + 1)) (some (rest.flatMap sized))
      (rest.flatMap sized).length := by
  induction rest generalizing done with
  | nil =>
    rw [List.append_nil] at h
    subst h
    have hloop : (fun size => objectLoop cb arg size (elements.length + 1)) =
        fun size : Int => if size < (4 : Nat) then .error .failed else .ok (some []) := by
      funext size
      rw [objectLoop, hcb.last]
      rfl
    rw [hloop]
    exact (Codes.guard (some []) 4).mono (Nat.zero_le 4)
  | cons e rest ih =>
    have hlt : done.length < elements.length := by
      rw [h, List.length_append, List.length_cons]
      omega
    have he : elements[done.length] = e := by
      subst h
      rw [List.getElem_append_right (Nat.le_refl _)]
      simp only [Nat.sub_self, List.getElem_cons_zero]
    have hrest := ih (done ++ [e]) (by rw [h, List.append_assoc, List.singleton_append])
    rw [List.length_append, List.length_singleton] at hrest
    have hgives := hcb.gives done.length hlt
    rw [he] at hgives
    rw [List.flatMap_cons, List.length_append, sized_length, Nat.add_assoc]
    have hleft : ∀ left : Int, left + (4 : Nat) - 4 = left := fun left => Int.add_sub_cancel left 4
    refine Codes.after_header (hgives.bind (hrest.map (Option.map (sized e ++ ·)))
      (fun left hle hok => ?_) fun left hle hfail => ?_) fun size hlt => ?_
    · rw [objectLoop, if_neg (by push_cast; omega), hleft, hok]
      rfl
    · rw [objectLoop, if_neg (by push_cast; omega), hleft, hfail]
    · rw [objectLoop]
      exact if_pos hlt

def reportsFrom (tag : Nat) : Nat → List Seen → List Report
  | _, [] => []
  | index, v :: rest => (tag, (index : Int), v) :: reportsFrom tag (index + 1) rest

theorem elementReports_eq {seen : List Seen} (h : seen ≠ []) (tag : Nat) :
    elementReports tag seen = reportsFrom tag 1 seen := by
  have hfrom : ∀ (vs : List Seen) (k : Nat),
      vs.mapIdx (fun i v => (tag, ((i + k : Nat) : Int) + 1, v)) = reportsFrom tag (k + 1) vs := by
    intro vs
    induction vs with
    | nil => exact fun _ => rfl
    | cons v vs ih =>
      intro k
      rw [List.mapIdx_cons, reportsFrom, ← ih (k + 1), Nat.zero_add]
      push_cast
      simp only [Int.add_assoc, Int.add_comm 1]
  cases seen with
  | nil => exact absurd rfl h
  | cons v vs =>
    have h0 := hfrom (v :: vs) 0
    simp only [Nat.add_zero, Nat.zero_add] at h0
    exact h0

theorem collect_integer (types : Types) {a : Arg} (htype : a.type ≠ .string ∧ a.type ≠ .struct)
    (hindex : 0 ≤ a.index) {v : Nat} (hv : v < 2 ^ 64) (fuel : Nat) (s : List Report) :
    collectInteger (collect types (fuel + 1)) a v s = s ++ [(a.tagid, a.index, .integer v)] := by
  have hvalue : Bytes.ofLe (Bytes.le 8 v) = v := by
    rw [Bytes.ofLe_le]
    exact Nat.mod_eq_of_lt hv
  rw [collectInteger, collect, if_neg (not_lt.mpr hindex), hvalue]
  cases h : a.type with
  | string => exact absurd h htype.1
  | struct => exact absurd h htype.2
  | integer | boolean | double => rfl

theorem collectAll_reports {types : Types} {a : Arg}
    (htype : a.type ≠ .string ∧ a.type ≠ .struct) (fuel : Nat) (vs : List Nat)
    (hvs : ∀ v ∈ vs, v < 2 ^ 64) (index : Nat) (s : List Report) :
    collectAll (collect types (fuel + 1)) a vs index s =
      s ++ reportsFrom a.tagid index (vs.map .integer) := by
  induction vs generalizing index s with
  | nil => exact (List.append_nil s).symm
  | cons v vs ih =>
    have hcollect := collect_integer types (a := { a with index := index }) htype
      (Int.natCast_nonneg index) (hvs v List.mem_cons_self) fuel s
    rw [collectAll, hcollect, ih (fun x hx => hvs x (List.mem_cons_of_mem v hx)),
      List.append_assoc]
    rfl

def Reports (cb : Collect (List Report)) (a : Arg) (bytes : List UInt8) (seen : Seen) : Prop :=
  ∀ (index : Nat) (s : List Report),
    cb { a with index := index } bytes s = (s ++ [(a.tagid, (index : Int), seen)], true)

theorem decodeArrayObject_elements {cb : Collect (List Report)} {a : Arg}
    (es : List (List UInt8 × Seen)) (hes : ∀ e ∈ es, Reports cb a e.1 e.2)
    (hlen : ∀ e ∈ es, e.1.length < 2 ^ 32) (tail : List UInt8) (index : Nat) (s : List Report) :
    decodeArrayObject cb a ((es.map Prod.fst).flatMap sized ++ tail)
        ((es.map Prod.fst).flatMap sized).length index s =
      .ok (s ++ reportsFrom a.tagid index (es.map Prod.snd)) := by
  induction es generalizing index s with
  | nil =>
    rw [decodeArrayObject]
    exact congrArg Except.ok (List.append_nil s).symm
  | cons e es ih =>
    have hsz : Bytes.ofLe (fillSize e.1.length) = e.1.length := by
      rw [fillSize, Bytes.ofLe_le]
      exact Nat.mod_eq_of_lt (hlen e List.mem_cons_self)
    have hfill : (fillSize e.1.length).length = 4 := Bytes.le_length ..
    have hrest := ih (fun x hx => hes x (List.mem_cons_of_mem e hx))
      (fun x hx => hlen x (List.mem_cons_of_mem e hx)) (index + 1)
      (s ++ [(a.tagid, (index : Int), e.2)])
    rw [List.map_cons, List.flatMap_cons, List.append_assoc, List.length_append, sized_length,
      decodeArrayObject, if_neg (by omega), dif_neg (by omega), readDword, sized, List.append_assoc,
      readBytes_append hfill]
    change (if Bytes.ofLe (fillSize e.1.length) > _ then _ else _) = _
    rw [hsz, if_neg (by omega), List.drop_left' hfill, readBytes_append rfl]
    dsimp only [bind, Except.bind]
    rw [hes e List.mem_cons_self index s, if_pos rfl, List.drop_left' rfl]
    have hleft : 4 + e.1.length + ((es.map Prod.fst).flatMap sized).length - 4 - e.1.length =
        ((es.map Prod.fst).flatMap sized).length := by omega
    rw [hleft, hrest, List.append_assoc]
    rfl

end XsServer.Sproto
