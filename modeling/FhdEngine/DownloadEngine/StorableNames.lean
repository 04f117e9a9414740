import FhdEngine.DownloadEngine.ManagerRuns
import Mathlib

/-!
# Names that are admitted and cannot be stored

The manager checks the name of an output as it admits a job, and the store checks it again as it is created, which
is after the request was answered. The two were written apart: one compares in small letters and the other in
capitals, one allows 200 bytes and the other 180, one numbers devices from 1 and the other from 0, and the store
keeps six names for itself. `Storable` is exactly what the admission leaves unchecked.
-/

namespace Fhd.DownloadEngine

variable {name : String}

/-! ### Comparing in capitals and in small letters -/

/-- Capitals are equal exactly if small letters are. -/
theorem map_toUpper_eq_iff {l capitals : List Char} (h : capitals.map Char.toUpper = capitals) :
    l.map Char.toUpper = capitals ↔ l.map Char.toLower = capitals.map Char.toLower := by
  constructor
  · rintro rfl
    simp [Function.comp_def]
  · intro hlower
    have hupper := congrArg (List.map Char.toUpper) hlower
    simpa [Function.comp_def, h] using hupper

/-- A device with a digit behind it. -/
theorem numbered_iff {l : List Char} :
    (l.length = 4 ∧ l.take 3 ∈ ["COM", "LPT"].map String.toList ∧ (l.getD 3 ' ').isDigit = true) ↔
      ∃ device ∈ ["COM", "LPT"].map String.toList, ∃ digit, digit.isDigit = true ∧ l = device ++ [digit] := by
  constructor
  · rintro ⟨hlength, hdevice, hdigit⟩
    obtain ⟨a, b, c, d, rfl⟩ := List.length_eq_four.1 hlength
    exact ⟨[a, b, c], hdevice, d, hdigit, rfl⟩
  · rintro ⟨device, hdevice, digit, hdigit, rfl⟩
    have hlength : device.length = 3 := by
      simp only [List.map_cons, List.map_nil, List.mem_cons, List.not_mem_nil, or_false] at hdevice
      rcases hdevice with rfl | rfl <;> rfl
    exact ⟨by simp [hlength], by simpa [← hlength] using hdevice, by simpa [← hlength] using hdigit⟩

/-! ### What the admission leaves unchecked -/

/-- The part of a name before its first dot, in small letters. -/
def stemOf (name : String) : List Char := (name.toList.takeWhile (· ≠ '.')).map Char.toLower

/-- **What the store asks for beyond the admission.** -/
structure Storable (name : String) : Prop where
  length : name.utf8ByteSize ≤ 180
  device : stemOf name ∉ ["com0".toList, "lpt0".toList]
  reserved : name.toList.map Char.toLower ∉ TransferStore.reservedNames.map String.toList

/-- What a name that passes the admission is known to be. -/
structure Admitted (name : String) : Prop where
  ne_empty : name ≠ ""
  ne_dot : name ≠ "."
  ne_dots : name ≠ ".."
  last_dot : name.toList.getLast? ≠ some '.'
  last_space : name.toList.getLast? ≠ some ' '
  chars : ∀ c ∈ name.toList, c ∉ ['/', '\\', ':', '<', '>', '"', '|', '?', '*']
  controls : ∀ c ∈ name.toList, isControl c = false
  device : isDevice (String.ofList (stemOf name)) = false

theorem admitted_of_validateName (h : validateName name = .ok ()) : Admitted name := by
  unfold validateName at h
  dsimp only at h
  split at h
  · cases h
  next hno =>
    simp only [not_or, Bool.not_eq_true, List.any_eq_false, decide_eq_true_eq] at hno
    obtain ⟨hempty, -, hdot, hdots, hlastDot, hlastSpace, hchars, hcontrols, hdevice⟩ := hno
    exact ⟨hempty, hdot, hdots, hlastDot, hlastSpace, hchars, fun c hc ↦ by simpa using hcontrols c hc, hdevice⟩

theorem ofList_eq_iff {l : List Char} {s : String} : String.ofList l = s ↔ l = s.toList := by
  rw [← String.toList_inj, String.toList_ofList]

/-- The names of devices, in small letters. -/
theorem isDevice_ofList {l : List Char} : isDevice (String.ofList l) = true ↔
    l ∈ ["con", "prn", "aux", "nul", "conin$", "conout$"].map String.toList ∨
      ∃ device ∈ ["com", "lpt"].map String.toList,
        ∃ digit ∈ "123456789¹²³".toList, l = device ++ [digit] := by
  unfold isDevice
  rw [decide_eq_true_iff, List.any_eq_true]
  refine or_congr (by simp [ofList_eq_iff]) ?_
  simp only [List.any_eq_true, decide_eq_true_iff, ofList_eq_iff, String.toList_append]
  simp

theorem mem_digits {c : Char} : c.isDigit = true ↔ c ∈ "0123456789".toList := by
  constructor
  · intro h
    have hbounds : 48 ≤ c.toNat ∧ c.toNat ≤ 57 := by simpa [Char.isDigit, UInt32.le_iff_toNat_le] using h
    rw [← Char.ofNat_toNat c]
    generalize c.toNat = n at hbounds ⊢
    obtain ⟨hlow, hhigh⟩ := hbounds
    interval_cases n <;> decide
  · revert c
    simp

/-- A device as the store sees it is one the admission knows, or has the number 0. -/
theorem device_iff (h : Admitted name) :
    ((name.toList.takeWhile (· ≠ '.')).map Char.toUpper ∈ ["CON", "PRN", "AUX", "NUL"].map String.toList ∨
      ∃ device ∈ ["COM", "LPT"].map String.toList, ∃ digit, digit.isDigit = true ∧
        (name.toList.takeWhile (· ≠ '.')).map Char.toUpper = device ++ [digit]) ↔
      stemOf name ∈ ["com0".toList, "lpt0".toList] := by
  have hdevice := h.device
  rw [← Bool.not_eq_true, isDevice_ofList] at hdevice
  have hfold : ∀ capitals : List Char, capitals.map Char.toUpper = capitals →
      ((name.toList.takeWhile (· ≠ '.')).map Char.toUpper = capitals ↔ stemOf name = capitals.map Char.toLower) :=
    fun capitals h ↦ map_toUpper_eq_iff h
  constructor
  · rintro (hname | ⟨device, hcapitals, digit, hdigit, heq⟩)
    · refine absurd (.inl ?_) hdevice
      simp only [List.map_cons, List.map_nil, List.mem_cons, List.not_mem_nil, or_false] at hname
      rcases hname with hname | hname | hname | hname <;>
        rw [(hfold _ (by decide)).1 hname] <;> decide
    · rw [mem_digits] at hdigit
      simp only [List.map_cons, List.map_nil, List.mem_cons, List.not_mem_nil, or_false] at hcapitals
      -- every digit but the first is one of those the admission compares with
      have hcases : digit = '0' ∨ digit ∈ "123456789".toList := by simpa using hdigit
      have hfixed : digit.toUpper = digit ∧ digit.toLower = digit := by
        simp only [String.reduceToList, List.mem_cons, List.not_mem_nil, or_false] at hdigit
        rcases hdigit with rfl | rfl | rfl | rfl | rfl | rfl | rfl | rfl | rfl | rfl <;> decide
      rcases hcases with rfl | hcases
      · rcases hcapitals with rfl | rfl <;> rw [(hfold _ (by decide)).1 heq] <;> decide
      · refine absurd (.inr ⟨device.map Char.toLower, ?_, digit, ?_, ?_⟩) hdevice
        · rcases hcapitals with rfl | rfl <;> decide
        · simp at hcases ⊢
          tauto
        · have hcapital : (device ++ [digit]).map Char.toUpper = device ++ [digit] := by
            rcases hcapitals with rfl | rfl <;> simp [hfixed.1]
          rw [(hfold _ hcapital).1 heq]
          simp [hfixed.2]
  · intro hzero
    simp only [List.mem_cons, List.not_mem_nil, or_false] at hzero
    rcases hzero with hzero | hzero
    · exact .inr ⟨"COM".toList, by simp, '0', by decide, (hfold _ (by decide)).2 (hzero.trans (by decide))⟩
    · exact .inr ⟨"LPT".toList, by simp, '0', by decide, (hfold _ (by decide)).2 (hzero.trans (by decide))⟩

/-- **What the store makes of an admitted name.** -/
theorem store_validateName_iff (h : Admitted name) :
    TransferStore.validateName name = .ok () ↔ Storable name := by
  have hdevice := device_iff h
  rw [← numbered_iff] at hdevice
  have hchars : name.toList.any (fun c ↦ isControl c || decide (c ∈ "\\/:*?\"<>|".toList)) = false := by
    refine List.any_eq_false.2 fun c hc ↦ ?_
    have hforbidden := h.chars c hc
    rw [h.controls c hc]
    simp only [List.mem_cons, List.not_mem_nil, or_false, not_or] at hforbidden
    simp [hforbidden]
  unfold TransferStore.validateName
  dsimp only
  split
  next hrefused =>
    refine iff_of_false nofun fun hstorable ↦ ?_
    rw [hchars] at hrefused
    rcases hrefused with hno | hno | hno | hno | hno | hno | hno | hno | hno | hno
    · exact h.ne_empty hno
    · exact absurd hstorable.length (by omega)
    · exact h.last_dot hno
    · exact h.last_space hno
    · cases hno
    · exact h.ne_dot hno
    · exact h.ne_dots hno
    · exact hstorable.device (hdevice.1 (.inl hno))
    · exact hstorable.device (hdevice.1 (.inr hno))
    · exact hstorable.reserved hno
  next haccepted =>
    simp only [not_or] at haccepted
    obtain ⟨-, hlength, -, -, -, -, -, hplain, hnumbered, hreserved⟩ := haccepted
    exact iff_of_true rfl ⟨by omega, fun hzero ↦ (hdevice.2 hzero).elim hplain hnumbered, hreserved⟩

section Options

variable {Url UrlOrigin PathBuf : Type} {U : UrlLibrary Url UrlOrigin} {P : Paths PathBuf}

theorem validateName_of_validateOptions {options : Options PathBuf} (h : validateOptions U P options = .ok ()) :
    validateName options.outputName = .ok () := by
  unfold validateOptions at h
  split at h
  · cases h
  · split at h
    · cases h
    next hname => exact hname

/-- **An admitted name can be stored** exactly if it is at most 180 bytes long, is no device with the number 0 and is
none of the names a store keeps for itself. -/
theorem admitted_name_storable_iff {options : Options PathBuf} (h : validateOptions U P options = .ok ()) :
    TransferStore.validateName options.outputName = .ok () ↔ Storable options.outputName :=
  store_validateName_iff (admitted_of_validateName (validateName_of_validateOptions h))

end Options

/-- Downloads into a file of this name. -/
def Sample.into (name : String) : Options String := { Sample.options "/d" with outputName := name }

theorem admitted_name_storable_iff_f :
    TransferStore.validateName "f" = .ok () ↔ Storable "f" :=
  admitted_name_storable_iff
    (show validateOptions Sample.library Sample.paths (Sample.options "/d") = .ok () by decide)

/-- A device with the number 0, and a name the store keeps for itself. -/
theorem admitted_names_not_storable :
    ¬∀ options : Options String, validateOptions Sample.library Sample.paths options = .ok () →
      TransferStore.validateName options.outputName = .ok () := by
  intro hall
  have hadmitted : validateOptions Sample.library Sample.paths (Sample.into "COM0.bin") = .ok () := by decide
  have hrefused : TransferStore.validateName "COM0.bin" = .error .invalidInput := by decide
  have hstored := hall _ hadmitted
  rw [show (Sample.into "COM0.bin").outputName = "COM0.bin" from rfl, hrefused] at hstored
  cases hstored

end Fhd.DownloadEngine
