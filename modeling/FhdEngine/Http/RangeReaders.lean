import FhdEngine.ResumePolicy.Grammar

/-!
# Two readers of a content range

The transport's `content_range` splits at the first separators and reads at most twenty digits; the resume
policy's `ContentRange::parse` splits at all of them, in any letter case and with spaces around. Where the
first reads a value, the second reads the same.
-/

namespace Fhd

open ResumePolicy

theorem isWord_of_digits {text : Bytes} {n : ℕ} (h : digits text = some n) : IsWord n text := by
  obtain ⟨hne, -, hdigits, hvalue, hle⟩ := digits_eq_some.1 h
  exact ⟨hne, hdigits, hvalue, hle⟩

/-- **The resume policy reads what the transport reads.** -/
theorem parse_of_contentRange {headers : HeaderMap} {value : Bytes} {expected : ByteRange} {total : ℕ}
    (hvalue : headers.getAll .contentRange = [value]) (h : headers.contentRange expected = some total) :
    ContentRange.parse value = .ok (.satisfied expected.start expected.stop (some total)) := by
  obtain ⟨a, b, t, hsingle, ha, hb, ht, hle⟩ := HeaderMap.contentRange_eq_some.1 h
  obtain ⟨hall, hlong⟩ := HeaderMap.single_eq_some.1 hsingle
  obtain rfl : value = _ := List.singleton_inj.1 (hvalue.symm.trans hall)
  have hunit := map_lower_unit
  have hstart := expected.start_lt
  have hlast : expected.stop - 1 + 1 = expected.stop := Nat.sub_add_cancel (by omega)
  have hspells : Spells (a ++ 45 :: b ++ 47 :: t) (.satisfied expected.start (expected.stop - 1 + 1) (some total)) :=
    .satisfied (isWord_of_digits ha) (isWord_of_digits hb) (isWord_of_digits ht) (by omega) (by omega)
      (hlast.trans_le (expected.stop_le.trans (by decide)))
  rw [hlast] at hspells
  refine parse_eq_ok.2 ⟨hlong, ascii "bytes", _, ?_, hunit, hspells⟩
  rw [ascii_unit, List.append_assoc]
  exact ⟨[], [], by simp, by simp, by simp⟩

/-- No more than so many digits in a row. -/
def DigitRuns (n : ℕ) (value : Bytes) : Prop := ∀ run, run <:+: value → (∀ b ∈ run, isDigit b = true) → run.length ≤ n

theorem digits_of_isWord {n : ℕ} {text : Bytes} (h : IsWord n text) (hlong : text.length ≤ 20) :
    digits text = some n :=
  digits_eq_some.2 ⟨h.ne_nil, hlong, h.isDigit, h.value_eq, h.le⟩

/-- How a range with a total is spelled. -/
theorem exists_of_spells {body : Bytes} {start stop total : ℕ}
    (h : Spells body (.satisfied start stop (some total))) : ∃ s e t last, body = s ++ 45 :: e ++ 47 :: t ∧
      IsWord start s ∧ IsWord last e ∧ IsWord total t ∧ stop = last + 1 ∧ last < total := by
  generalize hr : ContentRange.satisfied start stop (some total) = r at h
  cases h with
  | unbounded hs he hle hfits => cases hr
  | unsatisfied ht => cases hr
  | satisfied hs he ht hle hlt hfits =>
    cases hr
    exact ⟨_, _, _, _, rfl, hs, he, ht, rfl, hlt⟩

/-- **The transport reads what the resume policy reads**, in lower case, without spaces around it and with
numbers that are not written too long. -/
theorem contentRange_of_parse {headers : HeaderMap} {value rest : Bytes} {expected : ByteRange} {total : ℕ}
    (hvalue : headers.getAll .contentRange = [value]) (hlower : value = ascii "bytes " ++ rest)
    (htrimmed : Trimming.trim isOws value = value) (hruns : DigitRuns 20 value)
    (h : ContentRange.parse value = .ok (.satisfied expected.start expected.stop (some total))) :
    headers.contentRange expected = some total := by
  obtain ⟨hlong, word, body, hpads, hword, hbody⟩ := parse_eq_ok.1 h
  have hcore : value = word ++ 32 :: body := by
    rw [← htrimmed]
    exact (pads_iff hword.not_isOws_head ((hbody.endsVisibly.append [32]).append word).2).1 hpads
  have hsame : word = ascii "bytes" ∧ body = rest := by
    rw [hlower, ascii_unit, List.append_assoc] at hcore
    have hlength : (ascii "bytes").length = word.length := by rw [← hword, List.length_map]
    obtain ⟨hwords, hrest⟩ := List.append_inj hcore hlength
    exact ⟨hwords.symm, (List.cons.inj hrest).2.symm⟩
  obtain ⟨rfl, rfl⟩ := hsame
  obtain ⟨s, e, t, last, rfl, hs, he, ht, hstop, hlt⟩ := exists_of_spells hbody
  have hdigits {n : ℕ} {text : Bytes} (htext : IsWord n text) (hin : text <:+: value) : digits text = some n :=
    digits_of_isWord htext (hruns text hin htext.isDigit)
  refine HeaderMap.contentRange_eq_some.2 ⟨s, e, t, HeaderMap.single_eq_some.2 ⟨?_, ?_⟩, ?_, ?_, ?_, ?_⟩
  · rw [hvalue, hlower]
  · rw [← hlower]
    exact hlong
  · exact hdigits hs ⟨ascii "bytes ", 45 :: e ++ 47 :: t, by rw [hlower]; simp⟩
  · rw [hstop, Nat.add_sub_cancel]
    exact hdigits he ⟨ascii "bytes " ++ s ++ [45], 47 :: t, by rw [hlower]; simp⟩
  · exact hdigits ht ⟨ascii "bytes " ++ s ++ 45 :: e ++ [47], [], by rw [hlower]; simp⟩
  · rw [hstop]
    exact hlt

/-- **The two readers agree.** -/
theorem contentRange_agrees (headers : HeaderMap) (value : Bytes) (expected : ByteRange) (total : ℕ)
    (hvalue : headers.getAll .contentRange = [value]) :
    (headers.contentRange expected = some total →
      ContentRange.parse value = .ok (.satisfied expected.start expected.stop (some total))) ∧
    (ContentRange.parse value = .ok (.satisfied expected.start expected.stop (some total)) →
      (∃ rest, value = ascii "bytes " ++ rest) → Trimming.trim isOws value = value → DigitRuns 20 value →
        headers.contentRange expected = some total) :=
  ⟨parse_of_contentRange hvalue, fun h ⟨_, hlower⟩ htrimmed hruns ↦
    contentRange_of_parse hvalue hlower htrimmed hruns h⟩

def Sample.rangeValue : Bytes := ascii "bytes 2-5/10"

theorem Sample.wanted_start_lt : 2 < 6 := by decide

def Sample.wanted : ByteRange := ⟨2, 6, Sample.wanted_start_lt, six_le_i64Max⟩

theorem contentRange_agrees_sample :
    ContentRange.parse Sample.rangeValue = .ok (.satisfied 2 6 (some 10)) ∧
      HeaderMap.contentRange [(.contentRange, Sample.rangeValue)] Sample.wanted = some 10 := by
  obtain ⟨hparse, hread⟩ :=
    contentRange_agrees [(.contentRange, Sample.rangeValue)] Sample.rangeValue Sample.wanted 10 rfl
  have hruns : DigitRuns 20 Sample.rangeValue := fun run hrun _ ↦
    hrun.length_le.trans (by decide +kernel)
  refine ⟨hparse (by decide +kernel), hread (by decide +kernel) ⟨ascii "2-5/10", by decide +kernel⟩ ?_ hruns⟩
  decide +kernel

end Fhd
