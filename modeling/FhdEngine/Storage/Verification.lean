import FhdEngine.Storage.CoverageHistory

/-!
# What a verification accepts

The sweep of `verify` sorts the recorded ranges by where they start and follows the furthest end. On
ranges in that order it succeeds exactly when together they are one piece from the start (`reach_eq_ok`),
so nested, repeated and unordered ranges never hide a hole. While reading the file does not fail, a
verification succeeds exactly on an attested file (`Attests`), and a verification that fails leaves a
handle that nothing but a later verification can publish (`Shut`).
-/

namespace Fhd

open Process (Environment Ensures Returns Does Post)

/-- Every call is answered, and none fails that need not. -/
def steadily : Environment Disk Syscall Reply := fun d op x d' ↦ d.answer op = (x, d')

theorem steadily_onDisk : OnDisk steadily := fun h ↦ ⟨none, h⟩

theorem steadily_total (d : Disk) (op : Syscall) : ∃ x d', steadily d op x d' :=
  ⟨(d.answer op).1, (d.answer op).2, rfl⟩

namespace FilePart

variable {h h' : FilePart} {d : Disk} {sha256 : List UInt8 → Digest} {expected : Option Digest}
  {record : List (ByteRange × Digest)} {digest : Digest}

/-! ### The sweep -/

/-- A range that begins no later than what was reached carries it to its end. -/
theorem lt_max_stop_iff {range : ByteRange} {reached p : ℕ} (hle : range.start ≤ reached) :
    p < max reached range.stop ↔ p < reached ∨ p ∈ range := by
  have := range.start_lt
  rw [ByteRange.mem_def]
  omega

/-- **The sweep** over ranges in the order of their starts: it gets to `m` exactly when the bytes before
`m`, and no others, were reached before or lie in a range. -/
theorem reach_eq_ok {l : List ByteRange} {reached m : ℕ} (hsorted : l.Pairwise (·.start ≤ ·.start)) :
    reach l reached = .ok m ↔ ∀ p, p < reached ∨ Covered l p ↔ p < m := by
  induction l generalizing reached with
  | nil =>
    rw [reach]
    refine ⟨fun heq p ↦ ?_, fun hall ↦ congrArg _ ?_⟩
    · cases heq
      exact or_iff_left covered_nil
    · have hbelow := hall reached
      have habove := hall m
      simp only [covered_nil, or_false] at hbelow habove
      omega
  | cons range l ih =>
    obtain ⟨hfirst, hrest⟩ := List.pairwise_cons.1 hsorted
    rw [reach]
    split
    next hgap =>
      -- the byte that was reached would have to lie in a range, and all of them start later
      refine iff_of_false (by rintro ⟨⟩) fun hall ↦ ?_
      have hstart : range.start < m :=
        (hall range.start).1 (Or.inr ⟨range, List.mem_cons_self, le_rfl, range.start_lt⟩)
      rcases (hall reached).2 (by omega) with hlt | ⟨e, he, hmem⟩
      · exact lt_irrefl _ hlt
      · rw [ByteRange.mem_def] at hmem
        rcases List.mem_cons.1 he with rfl | he
        · omega
        · have := hfirst e he
          omega
    next hmeets =>
      rw [ih hrest]
      refine forall_congr' fun p ↦ ?_
      rw [lt_max_stop_iff (Nat.le_of_not_lt hmeets), covered_cons, or_assoc]

/-- **A record attests a part** when its ranges are exactly the bytes of the part, in whatever order they
come and however they overlap. -/
theorem attested_eq_ok : h.attested record = .ok () ↔
    ∀ p, Covered (record.map Prod.fst) p ↔ p < h.spec.size := by
  have hsorted : ((record.map Prod.fst).insertionSort fun a b : ByteRange ↦ a.start ≤ b.start).Pairwise
      (·.start ≤ ·.start) :=
    List.pairwise_insertionSort _ _
  have hreach : h.attested record = .ok () ↔
      reach ((record.map Prod.fst).insertionSort fun a b ↦ a.start ≤ b.start) 0 = .ok h.spec.size := by
    rw [attested]
    split
    next e he => exact iff_of_false nofun (by rw [he]; exact nofun)
    next reached hreached =>
      rw [hreached]
      split
      next hne => exact iff_of_false nofun fun heq ↦ hne (Except.ok.inj heq)
      next heq => exact iff_of_true rfl (congrArg _ (not_not.1 heq))
  rw [hreach, reach_eq_ok hsorted]
  refine forall_congr' fun p ↦ ?_
  rw [covered_perm (List.perm_insertionSort _ _), or_iff_right (Nat.not_lt_zero p)]

/-! ### Attested files -/

/-- **An attested file**, and its digest. -/
structure Attests (sha256 : List UInt8 → Digest) (h : FilePart) (d : Disk) (expected : Option Digest)
    (record : List (ByteRange × Digest)) (digest : Digest) : Prop where
  healthy : h.poisoned = false
  complete : h.complete = true
  synchronized : h.synchronized = true
  length : (d.contents h.file).length = h.spec.size
  union : ∀ p, Covered (record.map Prod.fst) p ↔ p < h.spec.size
  rehashed : ∀ e ∈ record, sha256 (d.slice h.file e.1.start e.1.len) = e.2
  whole : digest = sha256 (d.slice h.file 0 h.spec.size)
  expected : ∀ g ∈ expected, g = digest

theorem Attests.stop_le (ha : Attests sha256 h d expected record digest) :
    ∀ e ∈ record, e.1.stop ≤ h.spec.size := by
  intro e he
  have hlt := e.1.start_lt
  have hlast := (ha.union (e.1.stop - 1)).1
    ⟨e.1, List.mem_map_of_mem he, by rw [ByteRange.mem_def]; omega⟩
  omega

theorem Verified.attests (hv : Verified sha256 h d expected record digest) :
    Attests sha256 h d expected record digest :=
  ⟨hv.healthy, hv.complete, hv.synchronized, hv.length, attested_eq_ok.1 hv.attested,
    fun e he ↦ (hv.rehashed e he).2, hv.whole, hv.expected⟩

section Calm

variable {τ α : Type} {I : Disk → Prop} {t : τ}

/-- A call that is answered. -/
theorem sys_calm {op : Syscall} {x : Output op} {f : Output op → StorageM τ α}
    {Q : α → τ → Disk → Prop} {X : StorageError → τ → Disk → Prop} (hx : d.answer op = (.ok x, d))
    (hI : I d) (hf : Does steadily I t d (f x) Q X) : Does steadily I t d (sys op >>= f) Q X := by
  refine sys_does (fun y d' hy ↦ ?_) fun kind d' hy ↦ ?_
  · rw [steadily, hx, Prod.mk.injEq] at hy
    obtain ⟨hxy, rfl⟩ := hy
    obtain rfl := Except.ok.inj hxy
    exact ⟨hI, hf⟩
  · rw [steadily, hx, Prod.mk.injEq] at hy
    exact nomatch hy.1

/-- Bytes that are there are hashed. -/
theorem hash_calm {start length : ℕ} {f : Digest → PartM α} {Q : α → FilePart → Disk → Prop}
    {X : StorageError → FilePart → Disk → Prop} (hI : I d)
    (hle : start + length ≤ (d.contents h.file).length)
    (hf : Does steadily I h d (f (sha256 (d.slice h.file start length))) Q X) :
    Does steadily I h d (hash sha256 start length >>= f) Q X := by
  have hhash : Does steadily I h d (hash sha256 start length)
      (fun digest h' d' ↦ digest = sha256 (d.slice h.file start length) ∧ h' = h ∧ d' = d)
      (fun _ _ _ ↦ False) := by
    refine sys_calm rfl hI ?_
    split
    next hzero => exact ⟨by rw [hzero, Disk.slice, List.take_zero], rfl, rfl⟩
    · exact sys_calm (if_pos hle) hI ⟨rfl, rfl, rfl⟩
  refine (hhash.mono (fun _ _ _ h ↦ h) fun _ _ _ hf ↦ hf.elim).bind ?_
  rintro _ h' d' ⟨rfl, rfl, rfl⟩
  exact hf

/-- Recorded ranges that are there, with their digests. -/
theorem rehash_calm (hI : I d) (hlength : (d.contents h.file).length = h.spec.size)
    (hall : ∀ e ∈ record, e.1.stop ≤ h.spec.size ∧ sha256 (d.slice h.file e.1.start e.1.len) = e.2) :
    Does steadily I h d (rehash sha256 record) (fun _ h' d' ↦ h' = h ∧ d' = d) (fun _ _ _ ↦ False) := by
  induction record with
  | nil => exact ⟨rfl, rfl⟩
  | cons e record ih =>
    obtain ⟨⟨hstop, hdigest⟩, hrest⟩ := List.forall_mem_cons.1 hall
    have hlt := e.1.start_lt
    refine Does.get (throwIf_does (fun hbeyond ↦ absurd hstop (Nat.not_le_of_gt hbeyond)) fun _ ↦ ?_)
    refine hash_calm hI (by rw [hlength, ByteRange.len]; omega) ?_
    exact throwIf_does (fun hne ↦ hne hdigest) fun _ ↦ ih hrest

/-- **An attested file is accepted.** -/
theorem verify_calm (ha : Attests sha256 h d expected record digest) (hI : I d) :
    Does steadily I h d (verify sha256 expected record)
      (fun r h' d' ↦ r = digest ∧ h' = { h with verified := some digest } ∧ d' = d)
      (fun _ _ _ ↦ False) := by
  refine throwIf_does (fun hpoisoned ↦ ?_) fun _ ↦ Does.change (Does.get ?_)
  · exact absurd (ha.healthy.symm.trans hpoisoned) nofun
  refine throwIf_does (fun hready ↦ ?_) fun _ ↦ sys_calm rfl hI ?_
  · rcases hready with hready | hready
    · exact absurd (ha.complete.symm.trans hready) nofun
    · exact absurd (ha.synchronized.symm.trans hready) nofun
  refine throwIf_does (fun hne ↦ hne ha.length) fun _ ↦ ?_
  refine ofExcept_does (fun e he ↦ ?_) fun _ _ ↦ ?_
  · have hok : FilePart.attested { h with verified := none } record = .ok () := attested_eq_ok.2 ha.union
    rw [hok] at he
    exact nomatch he
  have hall : ∀ e ∈ record, e.1.stop ≤ h.spec.size ∧ sha256 (d.slice h.file e.1.start e.1.len) = e.2 :=
    fun e he ↦ ⟨ha.stop_le e he, ha.rehashed e he⟩
  have hrehash := rehash_calm (h := { h with verified := none }) hI ha.length hall
  refine (hrehash.mono (fun _ _ _ h ↦ h) fun _ _ _ hf ↦ hf.elim).bind ?_
  rintro _ h' d' ⟨rfl, rfl⟩
  refine hash_calm hI (by rw [Nat.zero_add]; exact ha.length.ge) ?_
  refine throwIf_does (fun hother ↦ ?_) fun _ ↦ Does.change (Does.pure ⟨ha.whole.symm, ?_, rfl⟩)
  · obtain ⟨g, hg, hne⟩ := (Option.any_eq_true _ _).1 hother
    rw [← ha.whole] at hne
    exact (of_decide_eq_true hne) (ha.expected g hg)
  · rw [ha.whole]

end Calm

/-! ### Handles that cannot publish -/

/-- **Publication is shut**: nothing is verified, or the handle will refuse everything. -/
def Shut (h : FilePart) : Prop := h.poisoned = true ∨ h.verified = none

/-- A shut handle refuses a publication, and calls nothing. -/
theorem Shut.publish {destination : Path} (hs : h.Shut) :
    publish sha256 destination h = .done (.error .invalidState, h) := by
  obtain ⟨file, metadata, part, directory, spec, coverage, protectedRanges, synchronized, verified, isSealed,
    published, cancelled, poisoned⟩ := h
  cases poisoned with
  | true => rfl
  | false =>
    obtain rfl : verified = none := hs.resolve_left nofun
    rfl

/-- A removal of a file leaves the handle alone. -/
theorem removeGone_keeps (path : Path) : Does onDisk (fun _ ↦ True) h d (removeGone path)
    (fun _ h' _ ↦ h' = h) (fun _ h' _ ↦ h' = h) := by
  refine attempt_does fun x d' _ ↦ ⟨trivial, ?_⟩
  split
  · exact Does.pure rfl
  · exact Does.pure rfl
  · exact Does.throw rfl

/-- A shut handle stays shut when its part is removed. -/
theorem discard_shut (hs : h.Shut) :
    Does onDisk (fun _ ↦ True) h d discard (fun _ h' _ ↦ h'.Shut) (fun _ h' _ ↦ h'.Shut) := by
  refine Does.get (throwIf_does (fun _ ↦ hs) fun _ ↦ Does.change ?_)
  have hshut : Shut { h with poisoned := true } := Or.inl rfl
  refine ((removeGone_keeps _).mono (fun _ _ _ h ↦ h) fun _ _ _ heq ↦ heq ▸ hshut).bind ?_
  rintro _ h₁ d₁ rfl
  refine ((removeGone_keeps _).mono (fun _ _ _ h ↦ h) fun _ _ _ heq ↦ heq ▸ hshut).bind ?_
  rintro _ h₂ d₂ rfl
  exact (Looks.sys rfl).last id trivial (fun _ _ ↦ hshut) fun _ ↦ hshut

end FilePart

section Follows

variable (sha256 : List UInt8 → Digest) (path : Path) (spec : PartSpec)

/-- Whatever is done from a desk on: acts, and removals of the part. -/
inductive Follows (D : Desk) : Log → Desk → Prop
  | refl : Follows D [] D
  | act {log : Log} {D' D'' : Desk} {act : Act} {outcome : Upshot} (hfollows : Follows D log D')
      (hstep : Step sha256 path spec (fun _ _ ↦ onDisk) D' act outcome D'') :
      Follows D ((act, outcome) :: log) D''
  | discard {log : Log} {d d' : Disk} {h : FilePart} {r : Except StorageError Unit}
      {handle : Option FilePart} (hfollows : Follows D log ⟨d, some h⟩)
      (hreturns : Returns onDisk d (calling FilePart.discard h) (r, handle) d') :
      Follows D log ⟨d', handle⟩

end Follows

section Shut

variable {sha256 : List UInt8 → Digest} {path : Path} {spec : PartSpec} {log : Log} {D D' : Desk} {act : Act}
  {outcome : Upshot}

/-- **Step lemma**: only a verification that succeeds opens a shut handle. -/
theorem shut_step (hs : ∀ h ∈ D.handle, h.Shut)
    (hstep : Step sha256 path spec (fun _ _ ↦ onDisk) D act outcome D')
    (hverify : ∀ expected record, (act, outcome) ≠ (.verify expected record, some (.ok ()))) :
    ∀ h ∈ D'.handle, h.Shut := by
  cases hstep with
  | crashed hp hreaches => exact nofun
  | @done prog r handle d' hp hreturns =>
    show ∀ h ∈ handle, _
    suffices hends : Ensures onDisk (fun _ ↦ True)
        (fun e _ ↦ (act, some e.1) = (act, some r) → ∀ h ∈ e.2, h.Shut) D.disk prog from
      hends.returns hreturns rfl
    obtain ⟨disk, handle⟩ := D
    -- what a handle is like that was opened just now, or that a call left
    have hopen : ∀ {h d create}, FilePart.Opened d path spec create h → ∀ g ∈ some h, g.Shut := by
      rintro h d create ho _ ⟨⟩
      exact Or.inr ho.verified
    have hsome : ∀ {h' : FilePart}, h'.Shut → ∀ g ∈ some h', g.Shut := by
      rintro h' hh' _ ⟨⟩
      exact hh'
    cases handle with
    | none =>
      cases act with
      | create =>
        cases hp
        exact (opening_ensures (I := Creating path spec disk) (X := fun _ ↦ True)
          (Q := fun h d' ↦ FilePart.Opened d' path spec true h)
          ((create_does id).mono (fun _ _ _ h ↦ h.2.1) fun _ _ _ _ ↦ trivial) (fun _ _ ho _ ↦ hopen ho)
          fun _ _ _ _ ↦ nofun).weaken fun _ _ ↦ trivial
      | reopen =>
        cases hp
        exact opening_ensures (Q := fun h _ ↦ FilePart.Opened disk path spec false h) (X := fun _ ↦ True)
          (reopen_looks.last id trivial (fun _ hh ↦ hh.1) fun _ ↦ trivial) (fun _ _ ho _ ↦ hopen ho)
          fun _ _ _ _ ↦ nofun
      | _ => cases hp
    | some h =>
      have hs := hs h rfl
      cases act with
      | create | reopen => cases hp
      | write offset bytes =>
        cases hp
        refine calling_ensures (FilePart.writeAt_does id trivial fun _ _ _ _ ↦ trivial) ?_ ?_
        · rintro _ h' d' (⟨-, rfl, -⟩ | ⟨range, plan, hpasses, rfl, -⟩) -
          · exact hsome hs
          · exact hsome (Or.inr rfl)
        · rintro e h' d' (⟨-, rfl, -⟩ | ⟨range, plan, written, kind, -, -, rfl, -⟩) -
          · exact hsome hs
          · exact hsome (Or.inr rfl)
      | sync =>
        cases hp
        refine calling_ensures (FilePart.sync_does id trivial) ?_ ?_
        · rintro _ h' d' ⟨-, rfl, -⟩ -
          exact hsome hs
        · rintro e h' d' ⟨rfl | rfl, -⟩ -
          · exact hsome hs
          · exact hsome (Or.inl rfl)
      | hashRange range =>
        cases hp
        refine calling_ensures (FilePart.hashRange_does id trivial) ?_ ?_
        · rintro _ h' d' ⟨-, rfl, -⟩ -
          exact hsome hs
        · rintro e h' d' ⟨rfl, -⟩ -
          exact hsome hs
      | recoverExtent range digest =>
        cases hp
        refine calling_ensures (FilePart.recoverExtent_does id trivial) ?_ ?_
        · rintro _ h' d' ⟨plan, -, -, -, -, rfl, -⟩ -
          exact hsome hs
        · rintro e h' d' ⟨rfl, -⟩ -
          exact hsome hs
      | verify expected record =>
        cases hp
        refine calling_ensures (FilePart.verify_does id trivial) ?_ ?_
        · intro digest h' d' _ heq
          exact absurd heq.symm (hverify expected record)
        · rintro e h' d' ⟨⟨-, rfl⟩ | rfl, -⟩ -
          · exact hsome hs
          · exact hsome (Or.inr rfl)
      | publish destination =>
        cases hp
        rw [calling, hs.publish]
        exact fun _ ↦ hsome hs
      | abandon =>
        cases hp
        exact fun _ ↦ hsome hs
      | close =>
        cases hp
        exact fun _ ↦ nofun

/-- **Run lemma.** -/
theorem shut_follows (hs : ∀ h ∈ D.handle, h.Shut) (hfollows : Follows sha256 path spec D log D')
    (hverify : ∀ expected record, (.verify expected record, some (.ok ())) ∉ log) :
    ∀ h ∈ D'.handle, h.Shut := by
  induction hfollows with
  | refl => exact hs
  | act _ hstep ih =>
    refine shut_step (ih fun e r hmem ↦ hverify e r (List.mem_cons_of_mem _ hmem)) hstep fun e r heq ↦ ?_
    exact hverify e r (heq ▸ List.mem_cons_self)
  | @discard _ d d' h r handle _ hreturns ih =>
    refine (calling_ensures (R := fun e _ ↦ ∀ g ∈ e.2, g.Shut) (FilePart.discard_shut (ih hverify h rfl))
      ?_ ?_).returns hreturns
    · rintro _ h' d' hshut _ ⟨⟩
      exact hshut
    · rintro e h' d' hshut _ ⟨⟩
      exact hshut

end Shut

/-- **Verification accepts exactly attested files**, while reading the file does not fail: it always
returns, and with a digest exactly when the file is attested with that digest. After any other end, no
publication is accepted until a later verification succeeds, whatever else is done and whatever fails. -/
theorem verify_exact (sha256 : List UInt8 → Digest) (h : FilePart) (d : Disk) (expected : Option Digest)
    (record : List (ByteRange × Digest)) :
    (∃ r h' d', Returns steadily d (FilePart.verify sha256 expected record h) (r, h') d') ∧
      ∀ r h' d', Returns steadily d (FilePart.verify sha256 expected record h) (r, h') d' →
        (∀ digest, r = .ok digest ↔ FilePart.Attests sha256 h d expected record digest) ∧
        ((∀ digest, r ≠ .ok digest) → ∀ path spec log D, Follows sha256 path spec ⟨d', some h'⟩ log D →
          (∀ expected record, (.verify expected record, some (.ok ())) ∉ log) → ∀ g ∈ D.handle,
          ∀ destination, FilePart.publish sha256 destination g = .done (.error .invalidState, g)) := by
  have hverify : Ensures steadily (fun _ ↦ True)
      (Post (fun digest _ _ ↦ FilePart.Attests sha256 h d expected record digest) fun _ h' _ ↦ h'.Shut) d
      (FilePart.verify sha256 expected record h) := by
    refine (FilePart.verify_does steadily_onDisk trivial).mono (fun _ _ _ hv ↦ hv.1.attests) ?_
    rintro e h' d' ⟨⟨hpoisoned, rfl⟩ | rfl, -⟩
    · exact Or.inl hpoisoned
    · exact Or.inr rfl
  refine ⟨?_, fun r h' d' hreturns ↦ ⟨fun digest ↦ ⟨?_, fun ha ↦ ?_⟩, ?_⟩⟩
  · obtain ⟨⟨r, h'⟩, d', hreturns, -⟩ := hverify.exists_returns steadily_total
    exact ⟨r, h', d', hreturns⟩
  · rintro rfl
    exact hverify.returns hreturns
  · have hcalm : Ensures steadily (fun _ ↦ True) _ d _ := FilePart.verify_calm ha trivial
    have hpost := hcalm.returns hreturns
    cases r with
    | ok found => exact congrArg _ hpost.1
    | error e => exact hpost.elim
  · intro hfailed path spec log D hfollows hlog g hg destination
    have hshut : h'.Shut := by
      cases r with
      | ok digest => exact absurd rfl (hfailed digest)
      | error e => exact hverify.returns hreturns
    refine FilePart.Shut.publish (shut_follows ?_ hfollows hlog g hg)
    rintro _ ⟨⟩
    exact hshut

end Fhd
