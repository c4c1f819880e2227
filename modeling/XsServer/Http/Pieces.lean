import Mathlib.Data.List.TakeWhile
import Mathlib.Data.Nat.Digits.Defs
import XsServer.Http.Internal

/-! What is taken from a connection is the same however the bytes come in: size lines, data, line
ends and trailers. -/

namespace XsServer.Http

open Lib

/-- The number in a size line: hexadecimal digits, and the sign. -/
def announced (line : List UInt8) : Option Int :=
  (numeral 16 line).map fun (neg, digits) =>
    let n : Nat := Nat.ofDigits 16 digits.reverse
    if neg then -n else n

/-- A line with a number, which the next line end ends. -/
def Announces (line : List UInt8) (z : Int) : Prop := announced line = some z ∧ ¬ crlf <:+: line

def trailerBlock (trailers : List (List UInt8)) : List UInt8 :=
  trailers.flatMap (· ++ crlf) ++ crlf

variable {src src' : Source} {body body' line data t : List UInt8} {n i : Nat} {z sz : Int}

theorem foldl_digits (digits : List Nat) :
    digits.foldl (fun n d => n * BitVec.ofNat 64 16 + BitVec.ofNat 64 d) 0 =
      BitVec.ofNat 64 (Nat.ofDigits 16 digits.reverse) := by
  induction digits using List.reverseRecOn with
  | nil => rfl
  | append_singleton digits d ih =>
    rw [List.foldl_append, ih, List.reverse_append, List.reverse_singleton, List.singleton_append,
      Nat.ofDigits_cons, Nat.add_comm, Nat.mul_comm, BitVec.ofNat_add, BitVec.ofNat_mul]
    rfl

theorem tonumber_eq (line : List UInt8) : tonumber line 16 = (announced line).map integer := by
  rw [tonumber, announced, Option.map_map]
  congr 1
  funext ⟨neg, digits⟩
  dsimp only [Function.comp_apply]
  rw [foldl_digits, integer]
  generalize Nat.ofDigits 16 digits.reverse = n
  cases neg with
  | false => exact BitVec.toInt_ofNat ..
  | true =>
    change (0#64 - BitVec.ofNat 64 n).toInt = (-(n : Int)).bmod (2 ^ 64)
    rw [BitVec.zero_sub, ← BitVec.ofInt_natCast, ← BitVec.ofInt_neg,
      BitVec.toInt_ofInt]

theorem integer_of_lt (h0 : 0 ≤ z) (h : z < 2 ^ 63) : integer z = z :=
  Int.bmod_eq_of_le (by omega) (by omega)

/-! ### What is taken from the connection -/

theorem readbytes_none (h : src.rest ≠ []) :
    ∃ bytes src', src.readbytes none = .ok (bytes, src') ∧ bytes ++ src'.rest = src.rest ∧
      bytes ≠ [] := by
  refine ⟨_, _, if_neg h, List.take_append_drop .., ?_⟩
  exact mt List.take_eq_nil_iff.mp fun hor => hor.elim (Nat.succ_ne_zero _) h

theorem readbytes_none_ok (h : src.readbytes none = .ok (body, src')) :
    body ++ src'.rest = src.rest ∧ body ≠ [] := by
  have hne : src.rest ≠ [] := by
    intro hnil
    rw [Source.readbytes, if_pos hnil] at h
    cases h
  obtain ⟨bytes, src₁, hread, heq⟩ := readbytes_none hne
  rw [hread] at h
  cases h
  exact heq

theorem readbytes_some (h : n ≤ src.rest.length) :
    src.readbytes (some n) = .ok (src.rest.take n, ⟨src.rest.drop n, src.cut⟩) :=
  if_neg (by omega)

theorem readbytes_some_ok (h : src.readbytes (some n) = .ok (body, src')) :
    body ++ src'.rest = src.rest ∧ body.length = n := by
  rw [Source.readbytes] at h
  split at h
  · cases h
  · cases h
    refine ⟨List.take_append_drop .., ?_⟩
    rw [List.length_take]
    omega

theorem firstAt_crlf (hline : ¬ crlf <:+: line) (t : List UInt8) :
    FirstAt crlf (line ++ (crlf ++ t)) line.length :=
  FirstAt.of_not_isInfix (by decide) hline

theorem chunksize_succ (n : Nat) (src : Source) (body : List UInt8) :
    chunksize (n + 1) src body = match findFirst crlf body with
      | some i => .ok ((tonumber (body.take i) 16).map (·, body.drop (i + 2)), src)
      | none =>
        if 128 < body.length then .ok (none, src)
        else src.readbytes none >>= fun r => chunksize n r.2 (body ++ r.1) := by
  rw [chunksize, find_one]
  cases findFirst crlf body with
  | none => rfl
  | some i =>
    have hf : ((i : Int) + 1) - 1 = i := by omega
    have he : (i : Int) + crlf.length + 1 = (i + 2 : Nat) + 1 := rfl
    simp only [Option.map_some, hf, he, sub_one, sub_from]

theorem chunksize_ok (h : chunksize n src body = .ok (some (sz, body'), src')) :
    ∃ line z, Announces line z ∧ sz = integer z ∧
      line ++ crlf ++ (body' ++ src'.rest) = body ++ src.rest := by
  induction n generalizing src body with
  | zero => cases h
  | succ n ih =>
    rw [chunksize_succ] at h
    cases hfind : findFirst crlf body with
    | some i =>
      have hfirst := findFirst_some hfind
      simp only [hfind] at h
      obtain ⟨hsome, rfl⟩ := Prod.mk.inj (Except.ok.inj h)
      obtain ⟨sz', hnum, heq⟩ := Option.map_eq_some_iff.mp hsome
      obtain ⟨rfl, rfl⟩ := Prod.mk.inj heq
      rw [tonumber_eq] at hnum
      obtain ⟨z, hz, rfl⟩ := Option.map_eq_some_iff.mp hnum
      refine ⟨body.take i, z, ⟨hz, hfirst.not_isInfix_take (List.cons_ne_nil _ _)⟩, rfl, ?_⟩
      rw [← List.append_assoc]
      exact congrArg (· ++ src.rest) (take_append_of_isPrefix_drop hfirst.1)
    | none =>
      simp only [hfind] at h
      split at h
      · cases h
      · obtain ⟨⟨bytes, src₁⟩, hread, h⟩ := bind_ok h
        obtain ⟨line, z, hline, hsz, heq⟩ := ih h
        refine ⟨line, z, hline, hsz, heq.trans ?_⟩
        rw [List.append_assoc, (readbytes_none_ok hread).1]

theorem chunksize_line (hline : ¬ crlf <:+: line) (hshort : line.length ≤ 127)
    (h : body ++ src.rest = line ++ (crlf ++ t)) (hn : src.rest.length < n) :
    ∃ body' src', chunksize n src body = .ok ((tonumber line 16).map (·, body'), src') ∧
      body' ++ src'.rest = t := by
  have hfirst : FirstAt crlf (body ++ src.rest) line.length := by
    rw [h]
    exact firstAt_crlf hline t
  induction n generalizing src body with
  | zero => cases hn
  | succ n ih =>
    rw [chunksize_succ]
    cases hfind : findFirst crlf body with
    | some i =>
      have hbody := findFirst_some hfind
      have hle : i + 2 ≤ body.length := hbody.add_length_le (List.cons_ne_nil _ _)
      obtain rfl : i = line.length := ((FirstAt.append_iff hle).mpr hbody).unique hfirst
      have htake : body.take line.length = line := by
        rw [← List.take_append_of_le_length (by omega), h, List.take_left]
      refine ⟨body.drop (line.length + 2), src, by simp only [htake], ?_⟩
      rw [← List.drop_append_of_le_length hle, h, ← List.drop_drop, List.drop_left]
      rfl
    | none =>
      have hlen : body.length < line.length + 2 := by
        by_contra hle
        have hin := ((FirstAt.append_iff (Nat.le_of_not_lt hle)).mp hfirst).isInfix
        exact findFirst_none hfind hin
      have hall := congrArg List.length h
      simp only [List.length_append, List.length_cons, List.length_nil] at hall
      have hrest : src.rest ≠ [] := List.ne_nil_of_length_pos (by omega)
      obtain ⟨bytes, src₁, hread, heq, hbytes⟩ := readbytes_none hrest
      have hpending : body ++ bytes ++ src₁.rest = body ++ src.rest := by
        rw [List.append_assoc, heq]
      have hpos := List.length_pos_iff.mpr hbytes
      have hcount := congrArg List.length heq
      rw [List.length_append] at hcount
      dsimp only
      rw [if_neg (by omega), hread, ok_bind]
      have hfuel : src₁.rest.length < n := by omega
      exact ih (hpending.trans h) hfuel (hpending ▸ hfirst)

theorem chunkdata_ok (h : chunkdata src n body = .ok (data, body', src')) :
    data.length = n ∧ data ++ (body' ++ src'.rest) = body ++ src.rest := by
  rw [chunkdata] at h
  split at h
  · rw [sub_one, sub_from] at h
    cases h
    refine ⟨?_, by rw [← List.append_assoc, List.take_append_drop]⟩
    rw [List.length_take]
    omega
  · obtain ⟨⟨bytes, src₁⟩, hread, h⟩ := bind_ok h
    cases h
    obtain ⟨heq, hlen⟩ := readbytes_some_ok hread
    refine ⟨?_, by rw [List.nil_append, List.append_assoc, heq]⟩
    rw [List.length_append, hlen]
    omega

theorem chunkdata_data (h : body ++ src.rest = data ++ t) :
    ∃ body' src', chunkdata src data.length body = .ok (data, body', src') ∧
      body' ++ src'.rest = t := by
  rw [chunkdata]
  by_cases hle : data.length ≤ body.length
  · rw [if_pos (Int.ofNat_le.mpr hle), sub_one, sub_from]
    refine ⟨body.drop data.length, src, ?_, ?_⟩
    · rw [← List.take_append_of_le_length hle, h, List.take_left]
    · rw [← List.drop_append_of_le_length hle, h, List.drop_left]
  · have hcount : ((data.length : Int) - body.length).toNat = data.length - body.length := by omega
    have hall := congrArg List.length h
    rw [List.length_append, List.length_append] at hall
    rw [if_neg (by omega), hcount, readbytes_some (by omega), ok_bind]
    refine ⟨[], ⟨src.rest.drop (data.length - body.length), src.cut⟩, ?_, ?_⟩
    · have htake := congrArg (List.take data.length) h
      rw [List.take_left, List.take_append, List.take_of_length_le (by omega)] at htake
      dsimp only
      rw [htake]
    · have hdrop := congrArg (List.drop data.length) h
      rwa [List.drop_left, List.drop_append, List.drop_eq_nil_of_le (by omega)] at hdrop

theorem readcrln_ok (h : readcrln src body = .ok (some body', src')) :
    crlf ++ (body' ++ src'.rest) = body ++ src.rest := by
  have hline : sub body 1 2 = body.take 2 := sub_one body 2
  have hrest : sub body 3 (-1) = body.drop 2 := sub_from body 2
  rw [readcrln, hline, hrest] at h
  split at h
  · split at h
    · cases h
    · cases h
      rw [← List.append_assoc, ← Decidable.not_not.mp ‹¬ body.take 2 ≠ crlf›,
        List.take_append_drop]
  · obtain ⟨⟨bytes, src₁⟩, hread, h⟩ := bind_ok h
    dsimp only at h
    split at h
    · cases h
    · cases h
      rw [← (readbytes_some_ok hread).1, ← List.append_assoc body,
        Decidable.not_not.mp ‹¬ body ++ bytes ≠ crlf›, List.nil_append]

theorem readcrln_crlf (h : body ++ src.rest = crlf ++ t) :
    ∃ body' src', readcrln src body = .ok (some body', src') ∧ body' ++ src'.rest = t := by
  have hline : sub body 1 2 = body.take 2 := sub_one body 2
  have hrest : sub body 3 (-1) = body.drop 2 := sub_from body 2
  rw [readcrln, hline, hrest]
  by_cases hle : 2 ≤ body.length
  · have htake : body.take 2 = crlf := by
      rw [← List.take_append_of_le_length hle, h]
      rfl
    refine ⟨body.drop 2, src, by rw [if_pos hle, if_neg (not_not_intro htake)], ?_⟩
    rw [← List.drop_append_of_le_length hle, h]
    rfl
  · have hall := congrArg List.length h
    simp only [List.length_append, List.length_cons, List.length_nil] at hall
    have htake := congrArg (List.take 2) h
    rw [List.take_append, List.take_of_length_le (by omega)] at htake
    have hdrop := congrArg (List.drop 2) h
    rw [List.drop_append, List.drop_eq_nil_of_le (by omega)] at hdrop
    rw [if_neg hle, readbytes_some (by omega), ok_bind]
    dsimp only
    rw [htake]
    exact ⟨[], _, if_neg (not_not_intro rfl), hdrop⟩

/-! ### Trailers -/

def Lines (trailers : List (List UInt8)) : Prop := ∀ l ∈ trailers, l ≠ [] ∧ ¬ crlf <:+: l

variable {trailers lines : List (List UInt8)} {header : List UInt8}

theorem trailerBlock_cons (l : List UInt8) (trailers : List (List UInt8)) (t : List UInt8) :
    trailerBlock (l :: trailers) ++ t = l ++ (crlf ++ (trailerBlock trailers ++ t)) := by
  simp only [trailerBlock, List.flatMap_cons, List.append_assoc]

theorem trailers_eq_nil (hlines : Lines trailers) (h : crlf <+: trailerBlock trailers ++ t) :
    trailers = [] := by
  cases trailers with
  | nil => rfl
  | cons l trailers =>
    obtain ⟨hne, hl⟩ := hlines l (List.mem_cons_self ..)
    rw [trailerBlock_cons] at h
    have hfirst := firstAt_crlf hl (trailerBlock trailers ++ t)
    exact absurd h (hfirst.2 0 (List.length_pos_iff.mpr hne))

theorem length_trailerBlock_le (hlines : Lines trailers)
    (h : crlf ++ crlf <+: (trailerBlock trailers ++ t).drop i) :
    (trailerBlock trailers).length ≤ i + 4 := by
  induction trailers generalizing i with
  | nil => exact Nat.le_add_left_of_le (by decide)
  | cons l trailers ih =>
    obtain ⟨hne, hl⟩ := hlines l (List.mem_cons_self ..)
    have htail : Lines trailers := fun l' hl' => hlines l' (List.mem_cons_of_mem _ hl')
    have hfirst := firstAt_crlf hl (trailerBlock trailers ++ t)
    have hlen : (trailerBlock (l :: trailers)).length =
        l.length + 2 + (trailerBlock trailers).length := by
      have := congrArg List.length (trailerBlock_cons l trailers [])
      simp only [List.length_append, List.length_cons, List.length_nil] at this
      omega
    rw [trailerBlock_cons] at h
    rcases Nat.lt_trichotomy i l.length with hi | rfl | hi
    · exact absurd ((List.prefix_append ..).trans h) (hfirst.2 i hi)
    · rw [List.drop_left, List.prefix_append_right_inj] at h
      obtain rfl := trailers_eq_nil htail h
      exact hlen.le
    · obtain ⟨k, rfl⟩ := Nat.exists_eq_add_of_lt hi
      rw [Nat.add_assoc, ← List.drop_drop, List.drop_left] at h
      cases k with
      | zero =>
        -- the second byte of the line end is not a first one
        obtain ⟨s, hs⟩ := h
        exact absurd (List.cons.inj hs).1 (by decide)
      | succ k =>
        rw [Nat.add_comm (k + 1), Nat.add_comm k, ← Nat.add_assoc, ← List.drop_drop] at h
        have := ih htail h
        omega

theorem isInfix_trailerBlock (hne : trailers ≠ []) : crlf ++ crlf <:+: trailerBlock trailers := by
  induction trailers with
  | nil => exact absurd rfl hne
  | cons l trailers ih =>
    have hcons := trailerBlock_cons l trailers []
    rw [List.append_nil, List.append_nil] at hcons
    rw [hcons]
    cases trailers with
    | nil => exact (List.suffix_append l (crlf ++ crlf)).isInfix
    | cons l' trailers =>
      have hsuffix := (List.suffix_append crlf (trailerBlock (l' :: trailers))).trans
        (List.suffix_append l _)
      exact (ih (List.cons_ne_nil _ _)).trans hsuffix.isInfix

theorem prefix_of_blank {s : List UInt8} (hlines : Lines trailers)
    (h : header ++ s = trailerBlock trailers ++ t) (hblank : crlf ++ crlf <:+: header) :
    trailerBlock trailers <+: header := by
  obtain ⟨i, hi⟩ := exists_drop_of_isInfix hblank
  have hle : i + 4 ≤ header.length := add_length_le_of_isPrefix_drop (List.cons_ne_nil _ _) hi
  have hlen : (trailerBlock trailers).length ≤ i + 4 := by
    apply length_trailerBlock_le hlines (t := t)
    rw [← h]
    exact (isPrefix_drop_append hle).mpr hi
  exact List.prefix_of_prefix_length_le (List.prefix_append _ t) ⟨s, h⟩ (hlen.trans hle)

theorem blank_of_block (h : trailerBlock trailers <+: header) (hno : ¬ crlf <+: header) :
    crlf ++ crlf <:+: header := by
  cases trailers with
  | nil => exact absurd h hno
  | cons l trailers => exact (isInfix_trailerBlock (List.cons_ne_nil _ _)).trans h.isInfix

theorem gmatch_trailerBlock (hlines : Lines trailers) (hn : trailers.length < n) :
    gmatch n (trailerBlock trailers ++ t) = trailers := by
  induction trailers generalizing n with
  | nil =>
    obtain ⟨n, rfl⟩ := Nat.exists_eq_succ_of_ne_zero (Nat.ne_of_gt hn)
    have hfind : findFirst crlf (trailerBlock [] ++ t) = some 0 :=
      findFirst_eq_some_iff.mpr (FirstAt.zero (List.prefix_append ..))
    rw [gmatch, hfind]
    rfl
  | cons l trailers ih =>
    obtain ⟨n, rfl⟩ := Nat.exists_eq_succ_of_ne_zero (Nat.ne_of_gt (Nat.zero_lt_of_lt hn))
    obtain ⟨hne, hl⟩ := hlines l (List.mem_cons_self ..)
    have htail : Lines trailers := fun l' hl' => hlines l' (List.mem_cons_of_mem _ hl')
    have hfind := findFirst_eq_some_iff.mpr (firstAt_crlf hl (trailerBlock trailers ++ t))
    rw [gmatch, trailerBlock_cons, hfind]
    dsimp only
    rw [if_neg (mt List.length_eq_zero_iff.mp hne), List.take_left, ← List.drop_drop,
      List.drop_left, List.drop_left, ih htail (Nat.lt_of_succ_lt_succ hn)]

theorem length_lt_trailerBlock (trailers : List (List UInt8)) :
    trailers.length < (trailerBlock trailers).length := by
  induction trailers with
  | nil => decide
  | cons l trailers ih =>
    have := congrArg List.length (trailerBlock_cons l trailers [])
    simp only [List.length_append, List.length_cons, List.length_nil] at this ⊢
    omega

theorem received_trailerBlock (hlines : Lines trailers) (h : trailerBlock trailers <+: header)
    (e : Int) : received lines header e = some (sub header (e + 4) (-1), lines ++ trailers) := by
  obtain ⟨s, rfl⟩ := h
  have hlt := length_lt_trailerBlock trailers
  rw [received, gmatch_trailerBlock hlines]
  rw [List.length_append]
  omega

theorem find_resumed {bytes : List UInt8} (h : ¬ crlf ++ crlf <:+: header) :
    find (header ++ bytes) (crlf ++ crlf) (-bytes.length - 3) =
      find (header ++ bytes) (crlf ++ crlf) 1 := by
  rw [find_one]
  by_cases hshort : header.length < 3
  · have hpos : posrelat (-bytes.length - 3) (header ++ bytes).length = 0 := by
      rw [List.length_append, posrelat, if_neg (by omega), if_pos (by omega)]
    rw [← find_one, find, find, hpos]
    rfl
  · obtain ⟨k, hk⟩ := Nat.exists_eq_add_of_le' (Nat.le_of_not_lt hshort)
    have hpos : posrelat (-bytes.length - 3) (header ++ bytes).length = k + 1 := by
      rw [List.length_append, posrelat, if_neg (by omega), if_neg (by omega)]
      omega
    have hno : ∀ j < k, ¬ crlf ++ crlf <+: (header ++ bytes).drop j := by
      intro j hj hpre
      have hle : j + (crlf ++ crlf).length ≤ header.length := by
        change j + 4 ≤ _
        omega
      exact h (isInfix_of_isPrefix_drop ((isPrefix_drop_append hle).mp hpre))
    have hle : k ≤ (header ++ bytes).length := by
      rw [List.length_append]
      omega
    have hstart : max (1 : Int) (k + 1) = k + 1 := by omega
    rw [findFirst_drop hle hno, find, hpos, Option.map_map]
    simp only [hstart]
    rw [if_neg (by omega), show ((k : Int) + 1 - 1).toNat = k by omega]
    congr 1
    funext j
    apply Prod.ext
    · change (k : Int) + 1 + j = (j + k : Nat) + 1
      omega
    · change (k : Int) + 1 + j + 4 - 1 = (j + k : Nat) + 4
      omega

theorem eq_nil_of_crlf {s : List UInt8} (hlines : Lines trailers)
    (h : header ++ s = trailerBlock trailers ++ t) (hcrlf : crlf <+: header) : trailers = [] := by
  apply trailers_eq_nil hlines (t := t)
  rw [← h]
  exact hcrlf.trans (List.prefix_append ..)

theorem length_lt_of_no_blank {s : List UInt8} (h : header ++ s = trailerBlock trailers ++ t)
    (hblank : ¬ crlf ++ crlf <:+: header) (hcrlf : ¬ crlf <+: header) :
    header.length < (trailerBlock trailers).length := by
  by_contra hle
  have hprefix := List.prefix_of_prefix_length_le (List.prefix_append _ t) ⟨s, h⟩
    (Nat.le_of_not_lt hle)
  exact hblank (blank_of_block hprefix hcrlf)

theorem find_blank_some {f e : Int} (h : find header (crlf ++ crlf) 1 = some (f, e)) :
    crlf ++ crlf <:+: header := by
  rw [find_one] at h
  obtain ⟨i, hi, -⟩ := Option.map_eq_some_iff.mp h
  exact (findFirst_some hi).isInfix

theorem find_blank_none (h : find header (crlf ++ crlf) 1 = none) : ¬ crlf ++ crlf <:+: header := by
  rw [find_one] at h
  exact findFirst_none (Option.map_eq_none_iff.mp h)

theorem receive_trailers (hlines : Lines trailers)
    (hlimit : (trailerBlock trailers).length ≤ LIMIT + 1)
    (h : header ++ src.rest = trailerBlock trailers ++ t) (hno : ¬ crlf ++ crlf <:+: header)
    (hshort : header.length < (trailerBlock trailers).length) (hn : src.rest.length < n) :
    ∃ body' src', receive lines n src header = .ok (some (body', lines ++ trailers), src') := by
  induction n generalizing src header with
  | zero => cases hn
  | succ n ih =>
    have hall := congrArg List.length h
    rw [List.length_append, List.length_append] at hall
    have hrest : src.rest ≠ [] := List.ne_nil_of_length_pos (by omega)
    obtain ⟨bytes, src₁, hread, heq, hbytes⟩ := readbytes_none hrest
    have hpending : header ++ bytes ++ src₁.rest = trailerBlock trailers ++ t := by
      rw [List.append_assoc, heq, h]
    have hfuel : src₁.rest.length < n := by
      have hpos := List.length_pos_iff.mpr hbytes
      rw [← heq, List.length_append] at hn
      omega
    rw [receive, hread, ok_bind]
    dsimp only
    rw [find_resumed hno]
    cases hfind : find (header ++ bytes) (crlf ++ crlf) 1 with
    | some fe =>
      obtain ⟨f, e⟩ := fe
      have hprefix := prefix_of_blank hlines hpending (find_blank_some hfind)
      refine ⟨sub (header ++ bytes) (f + 4) (-1), src₁, ?_⟩
      rw [← received_trailerBlock hlines hprefix]
    | none =>
      have hblank := find_blank_none hfind
      by_cases hcrlf : crlf <+: header ++ bytes
      · refine ⟨sub (header ++ bytes) 3 (-1), src₁, ?_⟩
        rw [eq_nil_of_crlf hlines hpending hcrlf, List.append_nil]
        exact if_pos hcrlf
      · have hlt := length_lt_of_no_blank hpending hblank hcrlf
        rw [if_neg hcrlf, if_neg (by omega)]
        exact ih hpending hblank hlt hfuel

theorem recvheader_trailers (lines : List (List UInt8)) (hlines : Lines trailers)
    (hlimit : (trailerBlock trailers).length ≤ LIMIT + 1)
    (h : header ++ src.rest = trailerBlock trailers ++ t) :
    ∃ body' src', recvheader src lines header = .ok (some (body', lines ++ trailers), src') := by
  rw [recvheader]
  by_cases hcrlf : crlf <+: header
  · refine ⟨sub header 3 (-1), src, ?_⟩
    rw [eq_nil_of_crlf hlines h hcrlf, List.append_nil]
    exact if_pos ⟨hcrlf.length_le, hcrlf⟩
  · rw [if_neg fun hboth => hcrlf hboth.2]
    cases hfind : find header (crlf ++ crlf) 1 with
    | some fe =>
      obtain ⟨f, e⟩ := fe
      have hprefix := prefix_of_blank hlines h (find_blank_some hfind)
      refine ⟨sub header (f + 4) (-1), src, ?_⟩
      rw [← received_trailerBlock hlines hprefix]
    | none =>
      have hblank := find_blank_none hfind
      have hlt := length_lt_of_no_blank h hblank hcrlf
      exact receive_trailers hlines hlimit h hblank hlt (Nat.lt_succ_self _)

theorem recvheader_refused {bytes : List UInt8} (hread : src.readbytes none = .ok (bytes, src'))
    (hlimit : LIMIT < (header ++ bytes).length) (hcrlf : ¬ crlf <+: header ++ bytes)
    (hblank : ¬ crlf ++ crlf <:+: header ++ bytes) :
    recvheader src lines header = .ok (none, src') := by
  have hno : ¬ crlf ++ crlf <:+: header := fun hin =>
    hblank (hin.trans (List.prefix_append ..).isInfix)
  have hfind : ∀ s : List UInt8, ¬ crlf ++ crlf <:+: s → find s (crlf ++ crlf) 1 = none :=
    fun s hs => by rw [find_one, findFirst_eq_none_iff.mpr hs, Option.map_none]
  rw [recvheader, if_neg fun h => hcrlf (h.2.trans (List.prefix_append ..)), hfind _ hno]
  dsimp only
  rw [receive, hread, ok_bind]
  dsimp only
  rw [find_resumed hno, hfind _ hblank]
  dsimp only
  rw [if_neg hcrlf, if_pos hlimit]

/-! ### No loop is endless -/

theorem readbytes_ne_endless (o : Option Nat) : src.readbytes o ≠ .error .endless := by
  intro h
  cases o with
  | none | some sz =>
    rw [Source.readbytes] at h
    split at h <;> cases h

theorem length_readbytes_lt (h : src.readbytes none = .ok (body, src')) :
    src'.rest.length < src.rest.length := by
  obtain ⟨heq, hne⟩ := readbytes_none_ok h
  have hpos := List.length_pos_iff.mpr hne
  rw [← heq, List.length_append]
  omega

theorem chunksize_ne_endless (hn : src.rest.length < n) :
    chunksize n src body ≠ .error .endless := by
  induction n generalizing src body with
  | zero => cases hn
  | succ n ih =>
    intro h
    rw [chunksize_succ] at h
    split at h
    · cases h
    · split at h
      · cases h
      · rcases bind_error h with hread | ⟨r, hread, h⟩
        · exact readbytes_ne_endless _ hread
        · have hlt := length_readbytes_lt hread
          exact ih (by omega) h

theorem chunkdata_ne_endless : chunkdata src sz body ≠ .error .endless := by
  intro h
  rw [chunkdata] at h
  split at h
  · cases h
  · rcases bind_error h with hread | ⟨r, -, h⟩
    · exact readbytes_ne_endless _ hread
    · cases h

theorem length_chunkdata_le (h : chunkdata src sz body = .ok (data, body', src')) :
    (body' ++ src'.rest).length ≤ (body ++ src.rest).length := by
  rw [chunkdata] at h
  split at h
  · cases h
    have := length_sub_le body (sz + 1) (-1)
    rw [List.length_append, List.length_append]
    omega
  · obtain ⟨⟨bytes, src₁⟩, hread, h⟩ := bind_ok h
    cases h
    have := congrArg List.length (readbytes_some_ok hread).1
    rw [List.length_append] at this ⊢
    rw [List.length_append, List.length_nil]
    omega

theorem readcrln_ne_endless : readcrln src body ≠ .error .endless := by
  intro h
  rw [readcrln] at h
  split at h
  · split at h <;> cases h
  · rcases bind_error h with hread | ⟨r, -, h⟩
    · exact readbytes_ne_endless _ hread
    · dsimp only at h
      split at h <;> cases h

theorem receive_ne_endless (hn : src.rest.length < n) :
    receive lines n src header ≠ .error .endless := by
  induction n generalizing src header with
  | zero => cases hn
  | succ n ih =>
    intro h
    rw [receive] at h
    rcases bind_error h with hread | ⟨r, hread, h⟩
    · exact readbytes_ne_endless _ hread
    · have hlt := length_readbytes_lt hread
      dsimp only at h
      split at h
      · cases h
      · split at h
        · cases h
        · split at h
          · cases h
          · exact ih (by omega) h

theorem recvheader_ne_endless : recvheader src lines header ≠ .error .endless := by
  intro h
  rw [recvheader] at h
  split at h
  · cases h
  · split at h
    · cases h
    · exact receive_ne_endless (Nat.lt_succ_self _) h

theorem parseLines_ne_endless (name : Option (List UInt8)) (lines : List (List UInt8))
    (header : Header) : parseLines name lines header ≠ .error .endless := by
  induction lines generalizing name header with
  | nil => nofun
  | cons line lines ih =>
    intro h
    unfold parseLines at h
    split at h
    · split at h
      · cases h
      · split at h
        · exact ih _ _ h
        · cases h
    · split at h
      · cases h
      · exact ih _ _ h

end XsServer.Http
