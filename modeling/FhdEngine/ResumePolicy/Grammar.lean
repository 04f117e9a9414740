import FhdEngine.Library.Fallible
import FhdEngine.Library.Trimming
import FhdEngine.ResumePolicy.Policy

/-!
# The grammar of a content range

The texts that `ContentRange.parse` accepts, and what each of them denotes. The parser splits at the
separators, wherever they stand; the grammar has each of them once, and both agree because no separator
is a digit.
-/

namespace Fhd.ResumePolicy

open Fallible

/-! ### Numbers -/

/-- Digits that denote a word. -/
structure IsWord (n : ℕ) (text : Bytes) : Prop where
  ne_nil : text ≠ []
  isDigit : ∀ b ∈ text, isDigit b = true
  value_eq : valueFrom 0 text = n
  le : n ≤ u64Max

/-- A digit counts if the number is still a word with it. -/
theorem readDigit_eq_ok {acc n : ℕ} {b : UInt8} : readDigit acc b = .ok n ↔
    Fhd.isDigit b = true ∧ acc * 10 + (b.toNat - 48) = n ∧ n ≤ u64Max := by
  unfold readDigit checkedMul
  by_cases hb : Fhd.isDigit b = true
  · rw [if_pos hb]
    by_cases hmul : acc * 10 ≤ u64Max
    · rw [if_pos hmul, Option.bind_some]
      rcases hadd : checkedAdd (acc * 10) (b.toNat - 48) with _ | sum
      · constructor
        · intro h
          cases h
        · rintro ⟨-, rfl, hn⟩
          rw [checkedAdd, if_pos hn] at hadd
          cases hadd
      · obtain ⟨hfits, rfl⟩ := checkedAdd_eq_some.1 hadd
        constructor
        · intro h
          cases h
          exact ⟨hb, rfl, hfits⟩
        · rintro ⟨-, rfl, -⟩
          rfl
    · rw [if_neg hmul]
      constructor
      · intro h
        cases h
      · rintro ⟨-, rfl, hn⟩
        omega
  · rw [if_neg hb]
    exact ⟨(by rintro ⟨⟩), fun h ↦ absurd h.1 hb⟩

theorem foldlM_readDigit {text : Bytes} {acc n : ℕ} (hacc : acc ≤ u64Max) :
    text.foldlM readDigit acc = .ok n ↔
      (∀ b ∈ text, Fhd.isDigit b = true) ∧ valueFrom acc text = n ∧ n ≤ u64Max := by
  induction text generalizing acc with
  | nil =>
    constructor
    · intro h
      cases h
      exact ⟨fun _ hb ↦ absurd hb List.not_mem_nil, rfl, hacc⟩
    · rintro ⟨-, rfl, -⟩
      rfl
  | cons b text ih =>
    have hle := le_valueFrom (acc * 10 + (b.toNat - 48)) text
    have hvalue : valueFrom acc (b :: text) = valueFrom (acc * 10 + (b.toNat - 48)) text := rfl
    rw [List.foldlM_cons, hvalue, List.forall_mem_cons, bind_eq_ok]
    constructor
    · rintro ⟨m, hm, hrest⟩
      obtain ⟨hb, rfl, hm⟩ := readDigit_eq_ok.1 hm
      obtain ⟨hdigits, heq, hn⟩ := (ih hm).1 hrest
      exact ⟨⟨hb, hdigits⟩, heq, hn⟩
    · -- the number does not shrink, so it is a word as far as it is read
      rintro ⟨⟨hb, hdigits⟩, rfl, hn⟩
      exact ⟨_, readDigit_eq_ok.2 ⟨hb, rfl, hle.trans hn⟩, (ih (hle.trans hn)).2 ⟨hdigits, rfl, hn⟩⟩

theorem readDecimal_eq_ok {text : Bytes} {n : ℕ} : readDecimal text = .ok n ↔ IsWord n text := by
  unfold readDecimal
  by_cases hnil : text = []
  · rw [if_pos hnil]
    exact ⟨nofun, fun h ↦ absurd hnil h.ne_nil⟩
  · rw [if_neg hnil, foldlM_readDigit (Nat.zero_le _)]
    exact ⟨fun h ↦ ⟨hnil, h.1, h.2.1, h.2.2⟩, fun h ↦ ⟨h.isDigit, h.value_eq, h.le⟩⟩

theorem isWord_decimal {n : ℕ} (h : n ≤ u64Max) : IsWord n (decimal n) where
  ne_nil := fun hnil ↦ by
    rw [decimal_eq] at hnil
    exact List.append_ne_nil_of_right_ne_nil _ (List.cons_ne_nil _ _) hnil
  isDigit := isDigit_decimal n
  value_eq := valueFrom_decimal n
  le := h

theorem IsWord.not_mem {n : ℕ} {text : Bytes} (h : IsWord n text) {b : UInt8} (hb : Fhd.isDigit b = false) :
    b ∉ text := fun hmem ↦ by
  rw [h.isDigit b hmem] at hb
  cases hb

theorem IsWord.ne_star {n : ℕ} {text : Bytes} (h : IsWord n text) : text ≠ [42] := by
  rintro rfl
  exact h.not_mem rfl List.mem_cons_self

/-! ### Ranges -/

theorem ascii_star : ascii "*" = [42] := by with_unfolding_all rfl

/-- What stands after `bytes ` in a content range: `s-e/t`, `s-e/*` or `*/t`. -/
inductive Spells : Bytes → ContentRange → Prop
  | satisfied {s e t : Bytes} {start last total : ℕ} (hs : IsWord start s) (he : IsWord last e)
      (ht : IsWord total t) (hle : start ≤ last) (hlt : last < total) (hfits : last + 1 ≤ u64Max) :
      Spells (s ++ 45 :: e ++ 47 :: t) (.satisfied start (last + 1) (some total))
  | unbounded {s e : Bytes} {start last : ℕ} (hs : IsWord start s) (he : IsWord last e) (hle : start ≤ last)
      (hfits : last + 1 ≤ u64Max) : Spells (s ++ 45 :: e ++ [47, 42]) (.satisfied start (last + 1) none)
  | unsatisfied {t : Bytes} {total : ℕ} (ht : IsWord total t) : Spells (42 :: 47 :: t) (.unsatisfied total)

theorem eq_intercalate_of_splitOn {value : Bytes} {b : UInt8} {parts : List Bytes}
    (h : value.splitOn b = parts) : value = [b].intercalate parts := by
  rw [← h, List.intercalate_splitOn]

theorem splitOn_pair {a b : Bytes} {x : UInt8} (ha : x ∉ a) (hb : x ∉ b) : (a ++ x :: b).splitOn x = [a, b] := by
  rw [List.splitOn_append_cons_self_of_not_mem ha, List.splitOn_eq_singleton hb]

theorem parseBounds_eq_ok {total : Option ℕ} {parts : List Bytes} {r : ContentRange} :
    parseBounds total parts = .ok r ↔ ∃ s e start last, parts = [s, e] ∧ IsWord start s ∧ IsWord last e ∧
      start ≤ last ∧ (∀ n ∈ total, last < n) ∧ last + 1 ≤ u64Max ∧ r = .satisfied start (last + 1) total := by
  match parts with
  | [] => exact ⟨nofun, by rintro ⟨s, e, start, last, hparts, -⟩; cases hparts⟩
  | [s] =>
    refine ⟨fun h ↦ ?_, by rintro ⟨s', e, start, last, hparts, -⟩; cases hparts⟩
    obtain ⟨n, -, h⟩ := bind_eq_ok.1 h
    cases h
  | s :: e :: more =>
    constructor
    · intro h
      obtain ⟨start, hs, h⟩ := bind_eq_ok.1 h
      obtain ⟨last, he, h⟩ := bind_eq_ok.1 h
      obtain ⟨hok, h⟩ := throwIf_eq_ok.1 h
      rcases hadd : checkedAdd last 1 with _ | next
      · rw [hadd] at h
        cases h
      · rw [hadd] at h
        obtain ⟨hfits, rfl⟩ := checkedAdd_eq_some.1 hadd
        cases h
        rw [not_or, not_or, not_not, not_lt, Bool.not_eq_true, Option.any_eq_false] at hok
        obtain ⟨rfl, hle, htotal⟩ := hok
        exact ⟨s, e, start, last, rfl, readDecimal_eq_ok.1 hs, readDecimal_eq_ok.1 he, hle,
          fun n hn ↦ by simpa using htotal n hn, hfits, rfl⟩
    · rintro ⟨s', e', start, last, hparts, hs, he, hle, htotal, hfits, rfl⟩
      cases hparts
      refine bind_eq_ok.2 ⟨start, readDecimal_eq_ok.2 hs, bind_eq_ok.2 ⟨last, readDecimal_eq_ok.2 he,
        throwIf_eq_ok.2 ⟨?_, ?_⟩⟩⟩
      · rw [not_or, not_or, not_not, not_lt, Bool.not_eq_true, Option.any_eq_false]
        exact ⟨rfl, hle, fun n hn ↦ by simpa using htotal n hn⟩
      · rw [checkedAdd_eq_some.2 ⟨hfits, rfl⟩]
        rfl

/-- What is split at the dash was written with one. -/
theorem splitOn_bounds {range s e : Bytes} {start last : ℕ} (hs : IsWord start s) (he : IsWord last e) :
    range.splitOn 45 = [s, e] ↔ range = s ++ 45 :: e := by
  constructor
  · intro h
    rw [eq_intercalate_of_splitOn h]
    simp [List.intercalate]
  · rintro rfl
    exact splitOn_pair (hs.not_mem rfl) (he.not_mem rfl)

theorem parseRange_eq_ok {value : Bytes} {r : ContentRange} : parseRange value = .ok r ↔ Spells value r := by
  constructor
  · intro h
    unfold parseRange at h
    split at h
    next range total hparts =>
      have hvalue : value = range ++ 47 :: total := by
        rw [eq_intercalate_of_splitOn hparts]
        simp [List.intercalate]
      subst hvalue
      split at h
      next hstar =>
        obtain ⟨n, hn, rfl⟩ := map_eq_ok.1 h
        rw [hstar, ascii_star]
        exact .unsatisfied (readDecimal_eq_ok.1 hn)
      next hrange =>
        split at h
        next hopen =>
          obtain ⟨s, e, start, last, hbounds, hs, he, hle, -, hfits, rfl⟩ := parseBounds_eq_ok.1 h
          rw [(splitOn_bounds hs he).1 hbounds, hopen, ascii_star]
          exact .unbounded hs he hle hfits
        next =>
          obtain ⟨n, hn, h⟩ := bind_eq_ok.1 h
          obtain ⟨s, e, start, last, hbounds, hs, he, hle, hlt, hfits, rfl⟩ := parseBounds_eq_ok.1 h
          rw [(splitOn_bounds hs he).1 hbounds]
          exact .satisfied hs he (readDecimal_eq_ok.1 hn) hle (hlt n rfl) hfits
    next => cases h
  · intro h
    have hslash {s e : Bytes} {start last : ℕ} (hs : IsWord start s) (he : IsWord last e) :
        (47 : UInt8) ∉ s ++ 45 :: e := by
      rw [List.mem_append, List.mem_cons]
      rintro (hmem | hmem | hmem)
      · exact hs.not_mem rfl hmem
      · cases hmem
      · exact he.not_mem rfl hmem
    have hnotStar {s e : Bytes} : s ++ 45 :: e ≠ [42] := by
      cases s with
      | nil =>
        rintro heq
        exact absurd (List.cons.inj heq).1 (by decide)
      | cons b s => exact fun heq ↦ List.append_ne_nil_of_right_ne_nil _ (List.cons_ne_nil _ _) (List.cons.inj heq).2
    unfold parseRange
    rw [ascii_star]
    cases h with
    | satisfied hs he ht hle hlt hfits =>
      rw [splitOn_pair (hslash hs he) (ht.not_mem rfl)]
      dsimp only
      rw [if_neg hnotStar, if_neg ht.ne_star, readDecimal_eq_ok.2 ht]
      exact parseBounds_eq_ok.2 ⟨_, _, _, _, (splitOn_bounds hs he).2 rfl, hs, he, hle,
        fun n hn ↦ by cases hn; exact hlt, hfits, rfl⟩
    | unbounded hs he hle hfits =>
      rw [splitOn_pair (hslash hs he) (by decide)]
      dsimp only
      rw [if_neg hnotStar, if_pos rfl]
      exact parseBounds_eq_ok.2 ⟨_, _, _, _, (splitOn_bounds hs he).2 rfl, hs, he, hle, nofun, hfits, rfl⟩
    | unsatisfied ht =>
      rw [show (42 :: 47 :: _ : Bytes) = [42] ++ 47 :: _ from rfl, splitOn_pair (by decide) (ht.not_mem rfl)]
      dsimp only
      rw [if_pos rfl, readDecimal_eq_ok.2 ht]
      rfl

/-! ### Fields -/

/-- Spaces and tabs on either side. -/
def Pads (field core : Bytes) : Prop :=
  ∃ left right, field = left ++ core ++ right ∧ (∀ b ∈ left, isOws b = true) ∧ ∀ b ∈ right, isOws b = true

theorem boundedField_eq_ok {value core : Bytes} :
    boundedField value = .ok core ↔ value.length ≤ maxField ∧ Trimming.trim isOws value = core := by
  unfold boundedField bounded
  by_cases hlong : value.length > maxField
  · rw [if_pos hlong]
    exact ⟨nofun, fun h ↦ absurd h.1 (Nat.not_le_of_gt hlong)⟩
  · rw [if_neg hlong]
    exact ⟨fun h ↦ ⟨Nat.le_of_not_gt hlong, Except.ok.inj h⟩, fun h ↦ congrArg _ h.2⟩

theorem pads_iff {value core : Bytes} (hhead : ∀ b ∈ core.head?, isOws b = false)
    (hlast : ∀ b ∈ core.getLast?, isOws b = false) : Pads value core ↔ Trimming.trim isOws value = core :=
  (Trimming.trim_eq_iff hhead hlast).symm

theorem isOws_eq_false {f : UInt8 → Bool} {b : UInt8} (h : f b = true) (hspace : f 32 = false)
    (htab : f 9 = false) : isOws b = false := by
  rw [isOws, decide_eq_false_iff_not]
  rintro (rfl | rfl)
  · rw [hspace] at h
    cases h
  · rw [htab] at h
    cases h

theorem lower_eq_space {b : UInt8} : lower b = 32 ↔ b = 32 := by
  unfold lower
  split
  next h =>
    constructor
    · intro heq
      grind
    · rintro rfl
      exact absurd h.1 (by decide)
  next => exact Iff.rfl

/-- A text that does not end in a space. -/
def EndsVisibly (text : Bytes) : Prop := text ≠ [] ∧ ∀ b ∈ text.getLast?, isOws b = false

theorem EndsVisibly.append {text : Bytes} (h : EndsVisibly text) (front : Bytes) : EndsVisibly (front ++ text) := by
  refine ⟨List.append_ne_nil_of_right_ne_nil _ h.1, ?_⟩
  rw [List.getLast?_append_of_ne_nil _ h.1]
  exact h.2

theorem IsWord.endsVisibly {n : ℕ} {text : Bytes} (h : IsWord n text) : EndsVisibly text :=
  ⟨h.ne_nil, fun b hb ↦ isOws_eq_false (h.isDigit b (List.mem_of_getLast? hb)) rfl rfl⟩

theorem Spells.endsVisibly {body : Bytes} {r : ContentRange} (h : Spells body r) : EndsVisibly body := by
  cases h with
  | satisfied hs he ht hle hlt hfits => exact (ht.endsVisibly.append [47]).append _
  | unbounded hs he hle hfits =>
    refine EndsVisibly.append ⟨List.cons_ne_nil _ _, fun b hb ↦ ?_⟩ _
    rw [← Option.some.inj hb]
    rfl
  | unsatisfied ht => exact ht.endsVisibly.append [42, 47]

/-- The unit, in any letter case. -/
def IsUnit (word : Bytes) : Prop := word.map lower = ascii "bytes"

theorem ascii_bytes : ascii "bytes" = [98, 121, 116, 101, 115] := by with_unfolding_all rfl

theorem ascii_unit : ascii "bytes " = ascii "bytes" ++ [32] := by
  rw [ascii_bytes]
  with_unfolding_all rfl

theorem length_unit : (ascii "bytes").length = 5 := by
  rw [ascii_bytes]
  rfl

theorem map_lower_unit : (ascii "bytes").map lower = ascii "bytes" := by
  rw [ascii_bytes]
  rfl

/-- Where the unit and one space stand. -/
theorem take_unit {core : Bytes} : eqIgnoreAsciiCase (core.take 6) (ascii "bytes ") = true ↔
    ∃ word body, core = word ++ 32 :: body ∧ IsUnit word := by
  have hself : (ascii "bytes ").map lower = ascii "bytes" ++ [32] := by
    rw [ascii_unit, List.map_append, map_lower_unit]
    rfl
  rw [eqIgnoreAsciiCase, decide_eq_true_iff, hself]
  constructor
  · intro h
    obtain ⟨word, space, hcut, hword, hspace⟩ := List.map_eq_append_iff.1 h
    obtain ⟨b, hb, hlower⟩ : ∃ b, space = [b] ∧ lower b = 32 := by
      rcases space with _ | ⟨b, _ | ⟨b', rest⟩⟩
      · cases hspace
      · exact ⟨b, rfl, (List.cons.inj hspace).1⟩
      · cases (List.cons.inj hspace).2
    rw [hb, lower_eq_space.1 hlower] at hcut
    refine ⟨word, core.drop 6, ?_, hword⟩
    calc core = core.take 6 ++ core.drop 6 := (List.take_append_drop 6 core).symm
      _ = word ++ 32 :: core.drop 6 := by rw [hcut, List.append_assoc]; rfl
  · rintro ⟨word, body, rfl, hword⟩
    have hlength : word.length = 5 := by rw [← length_unit, ← hword, List.length_map]
    rw [List.take_append, List.take_of_length_le (by omega), hlength, List.map_append, hword]
    rfl

theorem IsUnit.not_isOws_head {word rest : Bytes} (h : IsUnit word) :
    ∀ b ∈ (word ++ rest).head?, isOws b = false := by
  have hunit : ascii "bytes" = 98 :: [121, 116, 101, 115] := ascii_bytes
  rw [IsUnit, hunit] at h
  cases word with
  | nil => cases h
  | cons b word =>
    intro b' hb'
    cases hb'
    exact isOws_eq_false (f := fun b ↦ lower b = 98) (decide_eq_true (List.cons.inj h).1) rfl rfl

/-- **The grammar of a content range.** -/
theorem parse_eq_ok {value : Bytes} {r : ContentRange} : ContentRange.parse value = .ok r ↔
    value.length ≤ maxField ∧ ∃ word body, Pads value (word ++ 32 :: body) ∧ IsUnit word ∧ Spells body r := by
  have hdrop {word body : Bytes} (hword : IsUnit word) : (word ++ 32 :: body).drop 6 = body := by
    have hlength : word.length = 5 := by rw [← length_unit, ← hword, List.length_map]
    rw [List.drop_append, List.drop_eq_nil_of_le (by omega), hlength]
    rfl
  have hpads {word body : Bytes} (hword : IsUnit word) (hbody : Spells body r) :
      Pads value (word ++ 32 :: body) ↔ Trimming.trim isOws value = word ++ 32 :: body :=
    pads_iff hword.not_isOws_head ((hbody.endsVisibly.append [32]).append word).2
  unfold ContentRange.parse
  constructor
  · intro h
    obtain ⟨core, hcore, h⟩ := bind_eq_ok.1 h
    obtain ⟨hlong, rfl⟩ := boundedField_eq_ok.1 hcore
    obtain ⟨hunit, h⟩ := throwIf_eq_ok.1 h
    rw [not_or, Bool.not_eq_true, Bool.not_eq_false'] at hunit
    obtain ⟨word, body, hvalue, hword⟩ := take_unit.1 hunit.2
    rw [hvalue, hdrop hword, parseRange_eq_ok] at h
    exact ⟨hlong, word, body, (hpads hword h).2 hvalue, hword, h⟩
  · rintro ⟨hlong, word, body, hvalue, hword, hbody⟩
    have htrim := (hpads hword hbody).1 hvalue
    refine bind_eq_ok.2 ⟨_, boundedField_eq_ok.2 ⟨hlong, htrim⟩, throwIf_eq_ok.2 ⟨?_, ?_⟩⟩
    · rw [take_unit.2 ⟨word, body, rfl, hword⟩, not_or]
      have hlength : word.length = 5 := by rw [← length_unit, ← hword, List.length_map]
      have hbodyLength : 0 < body.length := List.length_pos_iff.2 hbody.endsVisibly.1
      refine ⟨?_, nofun⟩
      rw [List.length_append, List.length_cons]
      omega
    · rw [hdrop hword]
      exact parseRange_eq_ok.2 hbody

/-! ### Printing -/

namespace ContentRange

/-- A range of bytes that words can describe, within the total if there is one. -/
def Valid : ContentRange → Prop
  | .satisfied start stop total => start < stop ∧ stop ≤ u64Max ∧ ∀ n ∈ total, stop ≤ n ∧ n ≤ u64Max
  | .unsatisfied total => total ≤ u64Max

/-- The canonical text. -/
def print : ContentRange → Bytes
  | .satisfied start stop total =>
    ascii "bytes" ++ 32 :: (decimal start ++ 45 :: decimal (stop - 1) ++ 47 :: total.elim (ascii "*") decimal)
  | .unsatisfied total => ascii "bytes" ++ 32 :: 42 :: 47 :: decimal total

theorem length_decimal_word {n : ℕ} (h : n ≤ u64Max) : (decimal n).length ≤ 20 :=
  length_decimal_le n 20 (by decide) (Nat.lt_of_le_of_lt h (by decide))

theorem length_print_le {r : ContentRange} (h : r.Valid) : r.print.length ≤ maxField := by
  unfold maxField
  cases r with
  | satisfied start stop total =>
    obtain ⟨hlt, hstop, htotal⟩ := h
    have hstart := length_decimal_word (n := start) (by omega)
    have hlast := length_decimal_word (n := stop - 1) (by omega)
    have htotal : (total.elim (ascii "*") decimal).length ≤ 20 := by
      cases total with
      | none => rw [Option.elim_none, ascii_star]; decide
      | some n => exact length_decimal_word (htotal n rfl).2
    simp only [print, List.length_append, List.length_cons, length_unit]
    omega
  | unsatisfied total =>
    have htotal := length_decimal_word (n := total) h
    simp only [print, List.length_append, List.length_cons, length_unit]
    omega

/-- **Printed and read.** -/
theorem parse_print {r : ContentRange} (h : r.Valid) : parse r.print = .ok r := by
  have hunit := map_lower_unit
  have hpads (body : Bytes) : Pads body body := ⟨[], [], by simp, by simp, by simp⟩
  refine parse_eq_ok.2 ⟨length_print_le h, ?_⟩
  cases r with
  | satisfied start stop total =>
    obtain ⟨hlt, hstop, htotal⟩ := h
    refine ⟨_, _, hpads _, hunit, ?_⟩
    obtain ⟨last, rfl⟩ : ∃ last, stop = last + 1 := ⟨stop - 1, by omega⟩
    have hstart : IsWord start (decimal start) := isWord_decimal (by omega)
    have hlast : IsWord last (decimal last) := isWord_decimal (by omega)
    cases total with
    | none =>
      rw [Option.elim_none, ascii_star]
      exact .unbounded hstart hlast (by omega) hstop
    | some n =>
      obtain ⟨hle, hword⟩ := htotal n rfl
      exact .satisfied hstart hlast (isWord_decimal hword) (by omega) hle hstop
  | unsatisfied total => exact ⟨_, _, hpads _, hunit, .unsatisfied (isWord_decimal h)⟩

/-- **`ContentRange::parse`** accepts a text exactly if it is not too long and, without the spaces and tabs
around it, it is the unit, one space and a range; it reads what the range spells, and what it can read
it reads back from its canonical text. -/
theorem parse_grammar :
    (∀ value r, parse value = .ok r ↔ value.length ≤ maxField ∧
      ∃ word body, Pads value (word ++ 32 :: body) ∧ IsUnit word ∧ Spells body r) ∧
    (∀ value : Bytes, maxField < value.length → parse value = .error .fieldTooLarge) ∧
    ∀ r : ContentRange, r.Valid → parse r.print = .ok r := by
  refine ⟨fun _ _ ↦ parse_eq_ok, fun value hlong ↦ ?_, fun _ ↦ parse_print⟩
  rw [parse, boundedField, bounded, if_pos hlong]
  rfl

theorem parse_grammar_open : parse (print (.satisfied 0 5 none)) = .ok (.satisfied 0 5 none) ∧
    parse (List.replicate (maxField + 1) 32) = .error .fieldTooLarge :=
  ⟨parse_grammar.2.2 _ ⟨by decide, by decide, nofun⟩, parse_grammar.2.1 _ (by rw [List.length_replicate]; exact Nat.lt_succ_self _)⟩

end ContentRange

end Fhd.ResumePolicy
