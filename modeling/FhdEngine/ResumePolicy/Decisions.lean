import FhdEngine.ResumePolicy.Grammar

/-!
# When a range may be read

`evaluate` lets a response be read as the range that was asked for exactly if each of the four fields says
so. Every field is read without the spaces and tabs around it.
-/

namespace Fhd.ResumePolicy

open Fallible

theorem Pads.trans {field core core' : Bytes} (h : Pads field core) (h' : Pads core core') : Pads field core' := by
  obtain ⟨left, right, rfl, hleft, hright⟩ := h
  obtain ⟨left', right', rfl, hleft', hright'⟩ := h'
  refine ⟨left ++ left', right' ++ right, by simp only [List.append_assoc], fun b hb ↦ ?_, fun b hb ↦ ?_⟩
  · exact (List.mem_append.1 hb).elim (hleft b) (hleft' b)
  · exact (List.mem_append.1 hb).elim (hright' b) (hright b)

/-- A text with no space at either end. -/
def Visible (text : Bytes) : Prop := (∀ b ∈ text.head?, isOws b = false) ∧ ∀ b ∈ text.getLast?, isOws b = false

theorem Visible.pads_trim {value core : Bytes} (h : Visible core) :
    Pads (Trimming.trim isOws value) core ↔ Pads value core := by
  constructor
  · exact Pads.trans (Trimming.exists_eq_append isOws value)
  · intro hpads
    rw [(pads_iff h.1 h.2).1 hpads]
    exact ⟨[], [], by simp, by simp, by simp⟩

theorem required_eq_ok {field : Field} {core : Bytes} : field.required = .ok core ↔
    ∃ value, field = .single value ∧ value.length ≤ maxField ∧ Trimming.trim isOws value = core := by
  cases field with
  | missing => exact ⟨nofun, by rintro ⟨_, h, -⟩; cases h⟩
  | repeated => exact ⟨nofun, by rintro ⟨_, h, -⟩; cases h⟩
  | single value =>
    rw [Field.required, boundedField_eq_ok]
    constructor
    · exact fun h ↦ ⟨value, rfl, h⟩
    · rintro ⟨_, heq, h⟩
      cases heq
      exact h

/-- A field with a single value, which is not too large and reads `core`. -/
def Reads (field : Field) (core : Bytes) : Prop :=
  ∃ value, field = .single value ∧ value.length ≤ maxField ∧ Pads value core

/-- What is read of a field, by a reader that looks past the spaces itself. -/
theorem Visible.reads_iff {field : Field} {core : Bytes} (h : Visible core) :
    Reads field core ↔ ∃ value, field.required = .ok value ∧ Pads value core := by
  constructor
  · rintro ⟨value, hfield, hlong, hpads⟩
    exact ⟨_, required_eq_ok.2 ⟨value, hfield, hlong, rfl⟩, h.pads_trim.2 hpads⟩
  · rintro ⟨value, hvalue, hpads⟩
    obtain ⟨text, hfield, hlong, rfl⟩ := required_eq_ok.1 hvalue
    exact ⟨text, hfield, hlong, h.pads_trim.1 hpads⟩

theorem Visible.reads_iff_required {field : Field} {core : Bytes} (h : Visible core) :
    Reads field core ↔ field.required = .ok core := by
  rw [required_eq_ok]
  constructor
  · rintro ⟨value, hfield, hlong, hpads⟩
    exact ⟨value, hfield, hlong, (pads_iff h.1 h.2).1 hpads⟩
  · rintro ⟨value, hfield, hlong, htrim⟩
    exact ⟨value, hfield, hlong, (pads_iff h.1 h.2).2 htrim⟩

/-! ### Each field -/

/-- A strong entity tag: quoted, and not weak. -/
def IsStrongTag (tag : Bytes) : Prop := ∃ inner, tag = 34 :: inner ++ [34] ∧ ∀ b ∈ inner, isEtagByte b = true

theorem IsStrongTag.visible {tag : Bytes} (h : IsStrongTag tag) : Visible tag := by
  obtain ⟨inner, rfl, -⟩ := h
  refine ⟨fun b hb ↦ ?_, fun b hb ↦ ?_⟩
  · cases hb
    rfl
  · rw [List.getLast?_append_of_ne_nil _ (List.cons_ne_nil _ _)] at hb
    cases hb
    rfl

theorem quoted_iff {tag : Bytes} : ¬(tag.length < 2 ∨ tag.head? ≠ some 34 ∨ tag.getLast? ≠ some 34) ↔
    ∃ inner, tag = 34 :: inner ++ [34] := by
  constructor
  · intro h
    rw [not_or, not_or, not_not, not_not, not_lt] at h
    obtain ⟨hlength, hhead, hlast⟩ := h
    obtain ⟨rest, rfl⟩ := List.head?_eq_some_iff.1 hhead
    obtain ⟨front, hfront⟩ := List.getLast?_eq_some_iff.1 hlast
    cases front with
    | nil =>
      rw [hfront] at hlength
      exact absurd hlength (by decide)
    | cons b front =>
      cases hfront
      exact ⟨front, rfl⟩
  · rintro ⟨inner, rfl⟩
    rw [not_or, not_or, not_not, not_not, List.getLast?_append_of_ne_nil _ (List.cons_ne_nil _ _)]
    refine ⟨?_, rfl, rfl⟩
    rw [List.length_append, List.length_cons, List.length_singleton]
    omega

theorem strongEtag_eq_some {value tag : Bytes} :
    strongEtag value = some tag ↔ value.length ≤ maxField ∧ Pads value tag ∧ IsStrongTag tag := by
  have hinner (inner : Bytes) : ((34 :: inner ++ [34]).drop 1).take ((34 :: inner ++ [34]).length - 2) = inner := by
    simp
  unfold strongEtag bounded
  by_cases hlong : value.length > maxField
  · rw [if_pos hlong]
    exact ⟨nofun, fun h ↦ absurd h.1 (Nat.not_le_of_gt hlong)⟩
  · rw [if_neg hlong]
    change (if (Trimming.trim isOws value).length < 2 ∨ (Trimming.trim isOws value).head? ≠ some 34 ∨
      (Trimming.trim isOws value).getLast? ≠ some 34 then none
      else if (((Trimming.trim isOws value).drop 1).take ((Trimming.trim isOws value).length - 2)).all isEtagByte
        then some (Trimming.trim isOws value) else none) = some tag ↔ _
    constructor
    · intro h
      split at h
      next => cases h
      next hquoted =>
        obtain ⟨inner, htag⟩ := quoted_iff.1 hquoted
        rw [htag, hinner] at h
        split at h
        next hall =>
          cases h
          have hstrong : IsStrongTag (34 :: inner ++ [34]) := ⟨inner, rfl, List.all_eq_true.1 hall⟩
          exact ⟨Nat.le_of_not_gt hlong, (pads_iff hstrong.visible.1 hstrong.visible.2).2 htag, hstrong⟩
        next => cases h
    · rintro ⟨-, hpads, hstrong⟩
      rw [(pads_iff hstrong.visible.1 hstrong.visible.2).1 hpads]
      obtain ⟨inner, rfl, hall⟩ := hstrong
      rw [if_neg (quoted_iff.2 ⟨inner, rfl⟩), hinner, if_pos (List.all_eq_true.2 hall)]

theorem parseEtag_eq_ok {value tag : Bytes} :
    parseEtag value = .ok tag ↔ value.length ≤ maxField ∧ Pads value tag ∧ IsStrongTag tag := by
  rw [← strongEtag_eq_some]
  unfold parseEtag
  constructor
  · intro h
    obtain ⟨core, -, h⟩ := bind_eq_ok.1 h
    split at h
    next => cases h
    next tag' htag =>
      cases h
      exact htag
  · intro h
    refine bind_eq_ok.2 ⟨_, boundedField_eq_ok.2 ⟨(strongEtag_eq_some.1 h).1, rfl⟩, ?_⟩
    rw [h]
    rfl

/-- No spaces, no greater length. -/
theorem length_of_required {field : Field} {core : Bytes} (h : field.required = .ok core) :
    core.length ≤ maxField := by
  obtain ⟨value, -, hlong, rfl⟩ := required_eq_ok.1 h
  obtain ⟨left, right, hvalue, -, -⟩ := Trimming.exists_eq_append isOws value
  have hlength := congrArg List.length hvalue
  simp only [List.length_append] at hlength
  omega

/-- The etag field, as the check reads it. -/
theorem etag_eq_ok {field : Field} {tag : Bytes} :
    (∃ value, field.required = .ok value ∧ parseEtag value = .ok tag) ↔ Reads field tag ∧ IsStrongTag tag := by
  constructor
  · rintro ⟨value, hvalue, hparse⟩
    obtain ⟨-, hpads, hstrong⟩ := parseEtag_eq_ok.1 hparse
    exact ⟨hstrong.visible.reads_iff.2 ⟨value, hvalue, hpads⟩, hstrong⟩
  · rintro ⟨hreads, hstrong⟩
    obtain ⟨value, hvalue, hpads⟩ := hstrong.visible.reads_iff.1 hreads
    exact ⟨value, hvalue, parseEtag_eq_ok.2 ⟨length_of_required hvalue, hpads, hstrong⟩⟩

theorem range_eq_ok {field : Field} {r : ContentRange} :
    (∃ value, field.required = .ok value ∧ ContentRange.parse value = .ok r) ↔
      ∃ word body, Reads field (word ++ 32 :: body) ∧ IsUnit word ∧ Spells body r := by
  have hvisible {word body : Bytes} (hword : IsUnit word) (hbody : Spells body r) : Visible (word ++ 32 :: body) :=
    ⟨hword.not_isOws_head, ((hbody.endsVisibly.append [32]).append word).2⟩
  constructor
  · rintro ⟨value, hvalue, hparse⟩
    obtain ⟨-, word, body, hpads, hword, hbody⟩ := parse_eq_ok.1 hparse
    exact ⟨word, body, (hvisible hword hbody).reads_iff.2 ⟨value, hvalue, hpads⟩, hword, hbody⟩
  · rintro ⟨word, body, hreads, hword, hbody⟩
    obtain ⟨value, hvalue, hpads⟩ := (hvisible hword hbody).reads_iff.1 hreads
    exact ⟨value, hvalue, parse_eq_ok.2 ⟨length_of_required hvalue, word, body, hpads, hword, hbody⟩⟩

theorem IsWord.visible {n : ℕ} {text : Bytes} (h : IsWord n text) : Visible text :=
  ⟨fun b hb ↦ isOws_eq_false (h.isDigit b (List.mem_of_head? hb)) rfl rfl, h.endsVisibly.2⟩

theorem length_eq_ok {field : Field} {n : ℕ} :
    (∃ value, field.required = .ok value ∧ readDecimal value = .ok n) ↔ ∃ text, Reads field text ∧ IsWord n text := by
  constructor
  · rintro ⟨value, hvalue, hread⟩
    have hword := readDecimal_eq_ok.1 hread
    exact ⟨value, hword.visible.reads_iff_required.2 hvalue, hword⟩
  · rintro ⟨text, hreads, hword⟩
    exact ⟨text, hword.visible.reads_iff_required.1 hreads, readDecimal_eq_ok.2 hword⟩

/-- The identity, in any letter case. -/
def IsIdentity (text : Bytes) : Prop := text.map lower = ascii "identity"

theorem ascii_identity : ascii "identity" = [105, 100, 101, 110, 116, 105, 116, 121] := by with_unfolding_all rfl

theorem eqIgnoreAsciiCase_identity {text : Bytes} :
    eqIgnoreAsciiCase text (ascii "identity") = true ↔ IsIdentity text := by
  have hself : (ascii "identity").map lower = ascii "identity" := by
    rw [ascii_identity]
    rfl
  rw [eqIgnoreAsciiCase, decide_eq_true_iff, hself, IsIdentity]

theorem IsIdentity.visible {text : Bytes} (h : IsIdentity text) : Visible text := by
  have hletters : ∀ b ∈ ascii "identity", b ≠ 32 ∧ b ≠ 9 := by
    rw [ascii_identity]
    simp
  have hows {b : UInt8} (hb : b ∈ text) : isOws b = false := by
    have hlower : lower b ∈ ascii "identity" := by
      rw [← show text.map lower = _ from h]
      exact List.mem_map_of_mem hb
    obtain ⟨hspace, htab⟩ := hletters _ hlower
    rw [isOws, decide_eq_false_iff_not]
    rintro (rfl | rfl)
    · exact hspace rfl
    · exact htab rfl
  exact ⟨fun b hb ↦ hows (List.mem_of_head? hb), fun b hb ↦ hows (List.mem_of_getLast? hb)⟩

theorem checkEncoding_eq_ok {field : Field} : checkEncoding field = .ok () ↔
    field = .missing ∨ ∃ text, Reads field text ∧ IsIdentity text := by
  have hread (hfield : field ≠ .missing) : (do
      let encoding ← field.required
      if !eqIgnoreAsciiCase encoding (ascii "identity") then throw .nonIdentityEncoding : Except Error Unit) =
        .ok () ↔ ∃ text, Reads field text ∧ IsIdentity text := by
    constructor
    · intro h
      obtain ⟨text, htext, h⟩ := bind_eq_ok.1 h
      split at h
      next => cases h
      next hidentity =>
        rw [Bool.not_eq_true, Bool.not_eq_false', eqIgnoreAsciiCase_identity] at hidentity
        exact ⟨text, hidentity.visible.reads_iff_required.2 htext, hidentity⟩
    · rintro ⟨text, hreads, hidentity⟩
      refine bind_eq_ok.2 ⟨text, hidentity.visible.reads_iff_required.1 hreads, ?_⟩
      rw [eqIgnoreAsciiCase_identity.2 hidentity]
      rfl
  cases field with
  | missing => exact ⟨fun _ ↦ .inl rfl, fun _ ↦ rfl⟩
  | single value => exact (hread nofun).trans (or_iff_right nofun).symm
  | repeated => exact (hread nofun).trans (or_iff_right nofun).symm

/-! ### The decision -/

/-- What the four fields must say for a request. -/
structure Agrees (request : ResumeRequest) (headers : ResponseHeaders) : Prop where
  encoding : headers.contentEncoding = .missing ∨ ∃ text, Reads headers.contentEncoding text ∧ IsIdentity text
  etag : Reads headers.etag request.etag ∧ IsStrongTag request.etag
  range : ∃ word body, Reads headers.contentRange (word ++ 32 :: body) ∧ IsUnit word ∧
    Spells body (.satisfied request.start request.stop (some request.total))
  length : ∃ text, Reads headers.contentLength text ∧ IsWord (request.stop - request.start) text

theorem checkPartial_eq_ok {request : ResumeRequest} {headers : ResponseHeaders} {permit : BodyPermit} :
    checkPartial request headers = .ok permit ↔
      Agrees request headers ∧ permit = ⟨request.stop - request.start⟩ := by
  unfold checkPartial
  constructor
  · intro h
    obtain ⟨⟨⟩, hencoding, h⟩ := bind_eq_ok.1 h
    obtain ⟨value, hetag, h⟩ := bind_eq_ok.1 h
    obtain ⟨tag, htag, h⟩ := bind_eq_ok.1 h
    obtain ⟨hsame, hrest⟩ := throwIf_eq_ok.1 h
    obtain rfl := not_not.1 hsame
    obtain ⟨text, htext, hrest⟩ := bind_eq_ok.1 hrest
    obtain ⟨range, hrange, hrest⟩ := bind_eq_ok.1 hrest
    obtain ⟨hsame, hlength⟩ := throwIf_eq_ok.1 hrest
    obtain rfl := not_not.1 hsame
    obtain ⟨digits, hdigits, hlength⟩ := bind_eq_ok.1 hlength
    obtain ⟨n, hn, hlength⟩ := bind_eq_ok.1 hlength
    obtain ⟨hsame, hpermit⟩ := throwIf_eq_ok.1 hlength
    obtain rfl := not_not.1 hsame
    cases hpermit
    exact ⟨⟨checkEncoding_eq_ok.1 hencoding, etag_eq_ok.1 ⟨value, hetag, htag⟩, range_eq_ok.1 ⟨text, htext, hrange⟩,
      length_eq_ok.1 ⟨digits, hdigits, hn⟩⟩, rfl⟩
  · rintro ⟨⟨hencoding, hetag, hrange, hlength⟩, rfl⟩
    obtain ⟨value, hvalue, htag⟩ := etag_eq_ok.2 hetag
    obtain ⟨text, htext, hrange⟩ := range_eq_ok.2 hrange
    obtain ⟨digits, hdigits, hn⟩ := length_eq_ok.2 hlength
    refine bind_eq_ok.2 ⟨(), checkEncoding_eq_ok.2 hencoding, bind_eq_ok.2 ⟨value, hvalue, bind_eq_ok.2 ⟨_, htag,
      throwIf_eq_ok.2 ⟨not_not.2 rfl, bind_eq_ok.2 ⟨text, htext, bind_eq_ok.2 ⟨_, hrange,
        throwIf_eq_ok.2 ⟨not_not.2 rfl, bind_eq_ok.2 ⟨digits, hdigits, bind_eq_ok.2 ⟨_, hn,
          throwIf_eq_ok.2 ⟨not_not.2 rfl, rfl⟩⟩⟩⟩⟩⟩⟩⟩⟩⟩

/-- **A range is read only when every header agrees**, and whenever they do: the status is 206, the encoding is
missing or the identity, the tag is the strong tag of the request, and the range and the length are the
ones that were asked for. -/
theorem evaluate_eq_readRange (request : ResumeRequest) (status : ℕ) (headers : ResponseHeaders)
    (permit : BodyPermit) :
    (evaluate request status headers = .readRange permit ↔
      status = 206 ∧ Agrees request headers ∧ permit = ⟨request.stop - request.start⟩) ∧
    (evaluate request status headers = .readRange permit → 0 < permit.expectedBytes) := by
  have hiff : evaluate request status headers = .readRange permit ↔
      status = 206 ∧ Agrees request headers ∧ permit = ⟨request.stop - request.start⟩ := by
    rw [← checkPartial_eq_ok]
    unfold evaluate
    constructor
    · intro h
      split at h
      next => cases h
      next =>
        split at h
        next => cases h
        next =>
          split at h
          next hstatus =>
            refine ⟨hstatus, ?_⟩
            split at h
            next granted hgranted =>
              cases h
              exact hgranted
            next => cases h
          next => cases h
    · rintro ⟨rfl, hgranted⟩
      rw [if_neg (by decide), if_neg (by decide), if_pos rfl, hgranted]
  refine ⟨hiff, fun h ↦ ?_⟩
  rw [(hiff.1 h).2.2]
  exact Nat.sub_pos_of_lt request.start_lt

theorem Sample.request_start_lt : 4 < 8 := by decide

theorem Sample.request_stop_le : 8 ≤ 12 := by decide

def Sample.request : ResumeRequest :=
  ⟨4, 8, 12, ascii "\"v1\"", Sample.request_start_lt, Sample.request_stop_le⟩

def Sample.headers : ResponseHeaders :=
  ⟨.single (ascii "Bytes 4-7/12"), .single (ascii "4"), .single (ascii "\"v1\""), .missing⟩

theorem evaluate_eq_readRange_sample : Agrees Sample.request Sample.headers ∧ 0 < 4 := by
  have h : evaluate Sample.request 206 Sample.headers = .readRange ⟨4⟩ := by decide +kernel
  obtain ⟨hiff, hpos⟩ := evaluate_eq_readRange Sample.request 206 Sample.headers ⟨4⟩
  exact ⟨(hiff.1 h).2.1, hpos h⟩

end Fhd.ResumePolicy
