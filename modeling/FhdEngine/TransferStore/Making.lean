import FhdEngine.TransferStore.Rows
import FhdEngine.TransferStore.StoreRuns

/-!
# Folders that are made, or not quite

A creation may be interrupted anywhere. Then the folder is still not there, or it is **broken** and no store ever opens
it, or the store is there but its names may go in a crash, since nothing has synced the folder yet (`Folder.Lags`). A
folder that lags behind a sound one answers every call as that one does.
-/

namespace Fhd

namespace TransferStore

open Process (Does Refines Routine Synced)

namespace Folder

/-- A folder that is not there, and of which nothing is settled. -/
structure Empty (f : Folder) : Prop extends f.Vacant where
  settled : f.settled = []

/-- A folder without a store. -/
def Broken (f : Folder) : Prop := f.ordinary = true ∧ (f.job = none ∨ ∃ name ∈ ownNames, f.node name = none)

/-- **This folder is that one**, but for the names it made for itself, which may not be settled. -/
def Lags (f g : Folder) : Prop := f.ordinary = true ∧ (g = f ∨ f.settled = [] ∧ g = { f with settled := ownNames })

variable {f f' g : Folder} {op : Call}

theorem update_settled (f : Folder) (settled : List String) (φ : JobRow → JobRow) :
    { f with settled := settled }.update φ = ((f.update φ).1, { (f.update φ).2 with settled := settled }) ∧
      (f.update φ).2.settled = f.settled := by
  unfold update
  dsimp only
  split
  · exact ⟨rfl, rfl⟩
  · split <;> exact ⟨rfl, rfl⟩

/-- **What a call does** does not depend on what is settled. -/
theorem answer_settled (f : Folder) (settled : List String) (taken : ℕ) (op : Call) :
    { f with settled := settled }.answer taken op = f.answer taken op ∧ op = .syncDirectory ∨
      { f with settled := settled }.answer taken op =
          ((f.answer taken op).1, { (f.answer taken op).2 with settled := settled }) ∧
        (f.answer taken op).2.settled = f.settled := by
  have hnode : ∀ name, { f with settled := settled }.node name = f.node name := fun _ ↦ rfl
  cases op with
  | syncDirectory => exact Or.inl ⟨rfl, rfl⟩
  | updateUrls | updateReceipt | updatePhase => exact Or.inr (update_settled f settled _)
  | commitCompletion total =>
    obtain ⟨hsame, hsettled⟩ := update_settled f settled (completed total)
    refine Or.inr ⟨?_, hsettled⟩
    simp only [answer, hsame]
  | createDir | symlinkMetadata | selectVersion | selectJob | selectLengthKnown | insertJob =>
    right
    simp only [answer, hnode]
    split <;> exact ⟨rfl, rfl⟩
  | openOptions name createNew =>
    right
    simp only [answer, hnode]
    split
    · split <;> exact ⟨rfl, rfl⟩
    · exact ⟨rfl, rfl⟩
    · split <;> exact ⟨rfl, rfl⟩
  | openDatabase name create =>
    right
    simp only [answer, hnode]
    split
    · exact ⟨rfl, rfl⟩
    · split <;> exact ⟨rfl, rfl⟩
  | hardLink original link =>
    right
    simp only [answer, hnode]
    split
    · exact ⟨rfl, rfl⟩
    · split <;> exact ⟨rfl, rfl⟩
    · exact ⟨rfl, rfl⟩
  | executeCompletion total =>
    right
    simp only [answer]
    split
    · exact ⟨rfl, rfl⟩
    · split
      · split <;> exact ⟨rfl, rfl⟩
      · exact ⟨rfl, rfl⟩
  | _ => exact Or.inr ⟨rfl, rfl⟩

/-- A directory that is there stays. -/
theorem serve_ordinary (h : f.ordinary = true) (op : Call) (fate : Fate) : (f.serve op fate).2.ordinary = true := by
  have hupdate : ∀ φ, (f.update φ).2.ordinary = true := by
    intro φ
    unfold update
    split
    · exact h
    · split <;> exact h
  have hanswer : ∀ taken, (f.answer taken op).2.ordinary = true := by
    intro taken
    by_cases hlooks : op.looks = true
    · rw [f.answer_of_looks hlooks]
      exact h
    cases op with
    | updateUrls | updateReceipt | updatePhase | commitCompletion => exact hupdate _
    | createDir | insertJob =>
      simp only [answer]
      split <;> exact h
    | openOptions name createNew =>
      simp only [answer]
      split
      · split <;> exact h
      · exact h
      · split <;> exact h
    | openDatabase name create =>
      simp only [answer]
      split
      · exact h
      · split <;> exact h
    | hardLink original link =>
      simp only [answer]
      split
      · exact h
      · split <;> exact h
      · exact h
    | setLen | syncAll | writeAll | syncDirectory | createTable | addLengthKnown => exact h
    | _ => exact absurd rfl hlooks
  cases fate with
  | answered taken => exact hanswer taken
  | failed kind written => cases op <;> exact h
  | lost kind => exact hanswer 0

/-- **A folder that lags** answers as the other one does, and lags behind what becomes of it. -/
theorem lags_refines {output : String} : Refines (onFolder True output) (onFolder True output) Lags := by
  rintro f g op x f' ⟨hordinary, hlags⟩ ⟨f₁, fate, hstirred, hhonest, hserve⟩
  obtain rfl : f₁ = f := hstirred.eq_of_alone trivial
  have hserve : f₁.serve op fate = (x, f') := hserve
  have hhonest : fate.honest op := hhonest
  have hordinary' : f'.ordinary = true := by
    have h := serve_ordinary hordinary op fate
    rw [hserve] at h
    exact h
  rcases hlags with rfl | ⟨hsettled, rfl⟩
  · exact ⟨f', ⟨g, fate, .refl g, hhonest, hserve⟩, hordinary', Or.inl rfl⟩
  have hanswer : ∀ taken,
      { f₁ with settled := ownNames }.answer taken op = f₁.answer taken op ∨
        { f₁ with settled := ownNames }.answer taken op =
            ((f₁.answer taken op).1, { (f₁.answer taken op).2 with settled := ownNames }) ∧
          (f₁.answer taken op).2.settled = [] := fun taken ↦
    (answer_settled f₁ ownNames taken op).imp And.left fun h ↦ ⟨h.1, h.2.trans hsettled⟩
  have hgoal : ∀ g', { f₁ with settled := ownNames }.serve op fate = (x, g') →
      (g' = f' ∨ f'.settled = [] ∧ g' = { f' with settled := ownNames }) →
      ∃ t', onFolder True output { f₁ with settled := ownNames } op x t' ∧ f'.Lags t' := fun g' hserve' hlags ↦
    ⟨g', ⟨_, fate, .refl _, hhonest, hserve'⟩, hordinary', hlags⟩
  cases fate with
  | answered taken =>
    have hserve : f₁.answer taken op = (x, f') := hserve
    rcases hanswer taken with hsame | ⟨hsame, hnone⟩
    · exact hgoal f' (hsame.trans hserve) (Or.inl rfl)
    · rw [hserve] at hsame hnone
      exact hgoal _ hsame (Or.inr ⟨hnone, rfl⟩)
  | failed kind written =>
    cases hserve
    refine hgoal ({ f₁ with settled := ownNames }.spoil op written) rfl (Or.inr ?_)
    cases op <;> exact ⟨hsettled, rfl⟩
  | lost kind =>
    cases hserve
    rcases hanswer 0 with hsame | ⟨hsame, hnone⟩
    · exact hgoal _ (congrArg (fun r : Reply op × Folder ↦ (Except.error kind, r.2)) hsame) (Or.inl rfl)
    · exact hgoal _ (congrArg (fun r : Reply op × Folder ↦ (Except.error kind, r.2)) hsame) (Or.inr ⟨hnone, rfl⟩)

/-- **A crash** takes a name that is not settled, or the folder still lags behind what became of the other one. -/
theorem Lags.crashed (h : f.Lags g) (hcrash : f.Crashed f') :
    f.settled = [] ∧ g = { f with settled := ownNames } ∧ f'.Broken ∨ ∃ g', f'.Lags g' ∧ g.Crashed g' := by
  obtain ⟨hordinary, hlags⟩ := h
  have hordinary' : f'.ordinary = true := hcrash.ordinary.trans hordinary
  rcases hlags with rfl | ⟨hsettled, rfl⟩
  · exact Or.inr ⟨f', ⟨hordinary', Or.inl rfl⟩, hcrash⟩
  by_cases hall : ∀ name ∈ ownNames, f'.node name = f.node name
  · refine Or.inr ⟨{ f' with settled := ownNames }, ⟨hordinary', Or.inr ⟨hcrash.settled.trans hsettled, rfl⟩⟩, ?_⟩
    exact { ordinary := hcrash.ordinary, entries := hcrash.entries, settled := rfl, names := hall, files := hcrash.files,
            fresh := hcrash.fresh, job := hcrash.job, made := hcrash.made }
  · refine Or.inl ⟨hsettled, rfl, hordinary', Or.inr ?_⟩
    push Not at hall
    obtain ⟨name, hname, hne⟩ := hall
    exact ⟨name, hname, (hcrash.node name).resolve_left hne⟩

theorem Empty.crashed (h : f.Empty) (hcrash : f.Crashed f') : f'.Empty := by
  obtain ⟨kept, hentries⟩ := hcrash.entries
  rw [h.entries] at hentries
  exact { ordinary := hcrash.ordinary.trans h.ordinary, entries := hentries, job := hcrash.job.trans h.job,
          made := hcrash.made.trans h.made, settled := hcrash.settled.trans h.settled }

theorem Broken.crashed (h : f.Broken) (hcrash : f.Crashed f') : f'.Broken := by
  refine ⟨hcrash.ordinary.trans h.1, h.2.imp (fun hjob ↦ hcrash.job.trans hjob) ?_⟩
  rintro ⟨name, hname, hnone⟩
  exact ⟨name, hname, (hcrash.node name).elim (fun hsame ↦ hsame.trans hnone) id⟩

end Folder

section Making

variable {sha256 : List UInt8 → Digest} {calm : Prop} {output : String} {f f₁ f₀ : Folder} {τ : Type} {t : τ}
  {identity : Identity} {unknown : Bool}

/-! ### No store is opened -/

theorem steady_of_alone (P : Folder → Prop) : Steady True output P := fun _ _ h hstirred ↦
  (hstirred.eq_of_alone trivial).symm ▸ h

theorem requireFile_finds (name : String) : Looks (τ := τ) calm True output (· = f₀) (requireFile name)
    (fun _ ↦ f₀.node name ≠ none) fun _ ↦ True := by
  have hlook : Looks (τ := τ) calm True output (· = f₀) (io (.symlinkMetadata name)) (fun _ ↦ f₀.node name ≠ none)
      fun _ ↦ True := by
    refine Looks.call io_eq rfl (steady_of_alone _) (fun f taken hf x hx hnone ↦ ?_) (fun _ _ _ _ _ ↦ trivial)
      fun _ _ ↦ trivial
    subst hf
    simp only [Folder.answer, hnone] at hx
    cases hx
  exact Looks.bind hlook fun fileType hfound ↦
    (Looks.failIf_last fun _ ↦ trivial).mono (fun _ _ ↦ hfound) fun _ ↦ id

/-- **No store is opened** where there is none. -/
theorem openStore_broken (h : f₀.job = none ∨ ∃ name ∈ ownNames, f₀.node name = none) : Looks (τ := τ) calm True output (· = f₀) (openStore sha256)
    (fun _ ↦ False) fun _ ↦ True := by
  have hany : ∀ {op : Call}, op.looks = true →
      Looks (τ := τ) calm True output (· = f₀) (io op) (fun _ ↦ True) fun _ ↦ True := fun hop ↦
    Looks.call_any io_eq hop (steady_of_alone _)
  refine Looks.bind (hany rfl) fun _ _ ↦ Looks.bind (hany rfl) fun names _ ↦ ?_
  refine Looks.bind (rejectLinks_looks (steady_of_alone _) (fun _ _ ↦ trivial) fun _ _ ↦ Or.inl fun _ ↦ trivial) fun _ _ ↦ ?_
  refine Looks.bind (requireFile_finds _) fun _ hlock ↦ Looks.bind (requireFile_finds _) fun _ hdatabase ↦ ?_
  refine Looks.bind (requireFile_finds _) fun _ hpart ↦ Looks.bind (hany rfl) fun lock _ ↦ ?_
  refine Looks.bind (Looks.tryLock (steady_of_alone _) fun _ _ ↦ trivial) fun _ _ ↦ ?_
  have hjob : f₀.job = none := by
    refine h.resolve_right ?_
    rintro ⟨name, hname, hnone⟩
    rcases List.mem_cons.1 hname with rfl | hname
    · exact hlock hnone
    rcases List.mem_cons.1 hname with rfl | hname
    · exact hdatabase hnone
    · obtain rfl := List.mem_singleton.1 hname
      exact hpart hnone
  have hversion : Looks (τ := τ) calm True output (· = f₀) (db .selectVersion) (fun _ ↦ False) fun _ ↦ True := by
    refine Looks.call db_eq rfl (steady_of_alone _) (fun f taken hf x hx ↦ ?_) (fun _ _ _ _ _ ↦ trivial)
      fun _ _ ↦ trivial
    subst hf
    simp only [Folder.answer, hjob] at hx
    cases hx
  have hrow : Looks (τ := τ) calm True output (· = f₀) readRow (fun _ ↦ False) fun _ ↦ True :=
    Looks.bind (Looks.call_any db_eq rfl (steady_of_alone _)) fun _ _ ↦ Looks.bind hversion fun _ ↦ False.elim
  exact Looks.bind hrow fun _ ↦ False.elim

/-! ### What a creation leaves -/

/-- A call that is answered in one way, while nobody else is there. -/
theorem call_alone {α : Type} {op : Call} {err : ErrorKind → StoreError} {x : StoreM τ (TransferStore.Output op)}
    {k : TransferStore.Output op → StoreM τ α} {out : TransferStore.Output op} {M : Folder → Prop}
    {Q : α → τ → Folder → Prop}
    (hx : x = called err op) (hspoil : ∀ written, f.spoil op written = f)
    (hanswer : ∀ taken, f.answer taken op = (.ok out, f₁)) (hM : M f) (hM₁ : M f₁)
    (hok : Does (world calm True output) M t f₁ (k out) Q fun _ _ ↦ M) :
    Does (world calm True output) M t f (x >>= k) Q fun _ _ ↦ M := by
  refine call_does (P := (· = f)) (R := M) hx rfl (steady_of_alone _) ?_ ?_ (fun _ h ↦ h) (fun _ _ h _ ↦ h) ?_
  · rintro _ written rfl
    rw [hspoil]
    exact hM
  · rintro _ taken rfl
    rw [hanswer]
    exact hM₁
  · rintro _ taken x' rfl hx'
    rw [hanswer] at hx' ⊢
    cases hx'
    exact hok

theorem createInner_stays (h : f₀.ordinary = true) :
    Does (world calm True output) (· = f₀) t f₀ (createInner sha256 identity output unknown : StoreM τ Store)
      (fun _ _ _ ↦ False) fun _ _ f ↦ f = f₀ := by
  have hdir : ∀ taken, f₀.answer taken .createDir = (.error .alreadyExists, f₀) := fun taken ↦ if_pos h
  refine Does.ofExcept (fun _ _ ↦ rfl) fun _ _ ↦ Does.ofExcept (fun _ _ ↦ rfl) fun _ _ ↦ ?_
  refine Looks.does (Looks.call_any io_eq rfl (steady_of_alone _)) (fun _ ↦ id) rfl (fun _ f _ hf ↦ ?_) fun _ _ _ hf ↦ hf
  refine call_does (P := (· = f₀)) (R := (· = f₀)) io_eq hf (steady_of_alone _) (fun _ _ hf ↦ hf) ?_ (fun _ hf ↦ hf)
    (fun _ _ hf _ ↦ hf) ?_
  · rintro _ taken rfl
    rw [hdir]
  · rintro _ taken x rfl hx
    rw [hdir] at hx
    cases hx

variable (sha256 output identity unknown) in
/-- **What an interrupted creation leaves.** -/
def Made (f : Folder) : Prop :=
  f.Empty ∨ f.Broken ∨ ∃ part g, f.Lags g ∧
    g.Sound sha256 True output part (.nothing unknown) (newRow sha256 identity output unknown)

theorem Folder.Begun.made {made : List (String × Inode)} (h : f.Begun True output none made) (hordinary : f.ordinary = true) :
    Made sha256 output identity unknown f :=
  Or.inr (Or.inl ⟨hordinary, Or.inl h.job⟩)

/-- Before the folder is synced, and after that. -/
theorem Folder.Begun.lags {part lock database : Inode} (h : f.Begun True output (some (newRow sha256 identity output unknown))
    [("owner.lock", lock), ("payload.part", part), ("state.sqlite", database)])
    (hbacks : (Ledger.nothing unknown).Backs sha256 output (newRow sha256 identity output unknown))
    (hordinary : f.ordinary = true) (hsettled : f.settled = []) :
    Made sha256 output identity unknown f ∧
      Made sha256 output identity unknown { f with settled := f.entries.map (·.1) } := by
  obtain ⟨hsound, -⟩ := h.finished hbacks
  have hphase : (newRow sha256 identity output unknown).phase ≠ 3 := (by decide : (0 : ℤ) ≠ 3)
  have hsound' : ({ f with settled := ownNames } : Folder).Sound sha256 True output part (.nothing unknown)
      (newRow sha256 identity output unknown) :=
    { hsound with settled := fun _ h ↦ h, published := fun _ hthree ↦ absurd hthree hphase }
  exact ⟨Or.inr (Or.inr ⟨part, _, ⟨hordinary, Or.inr ⟨hsettled, rfl⟩⟩, hsound'⟩),
    Or.inr (Or.inr ⟨part, _, ⟨hordinary, Or.inl rfl⟩, hsound⟩)⟩

theorem createInner_leaves (h₀ : f₀.Empty) (hunknown : unknown = true → identity.total ≠ 0) :
    Does (world calm True output) (Made sha256 output identity unknown) t f₀
      (createInner sha256 identity output unknown : StoreM τ Store) (fun _ _ f ↦ f.ordinary = true)
      fun _ _ ↦ Made sha256 output identity unknown := by
  have hempty : Made sha256 output identity unknown f₀ := Or.inl h₀
  refine Does.ofExcept (fun _ _ ↦ hempty) fun _ hname ↦ Does.ofExcept (fun _ _ ↦ hempty) fun _ hidentity ↦ ?_
  refine call_alone io_eq (fun _ ↦ rfl) (fun _ ↦ rfl) hempty hempty ?_
  have hdir : ∀ taken, f₀.answer taken .createDir = (.ok (), { f₀ with ordinary := true }) := fun taken ↦
    if_neg (by rw [h₀.ordinary]; exact Bool.false_ne_true)
  have h : ({ f₀ with ordinary := true } : Folder).Begun True output none [] := { (h₀.begun : f₀.Begun True output none []) with }
  refine call_alone io_eq (fun _ ↦ rfl) hdir hempty (h.made rfl) ?_
  generalize hf₁ : ({ f₀ with ordinary := true } : Folder) = f₁ at h
  have hordinary : f₁.ordinary = true := hf₁ ▸ rfl
  have hsettled : f₁.settled = [] := hf₁ ▸ h₀.settled
  have h₂ := h.create hname (by simp [ownNames] : "owner.lock" ∈ ownNames) (by simp)
  refine call_alone io_eq (fun _ ↦ rfl) (open_new h "owner.lock" (by simp [ownNames]) (by simp)) (h.made hordinary)
    (h₂.made hordinary) ?_
  have hlock : ∀ taken, (f₁.create "owner.lock").answer taken (.tryLock f₁.fresh) = (.ok (), f₁.create "owner.lock") :=
    fun _ ↦ rfl
  refine call_alone (tryLock_eq _) (fun _ ↦ rfl) hlock (h₂.made hordinary) (h₂.made hordinary) ?_
  have h₃ := h₂.create hname (by simp [ownNames] : "payload.part" ∈ ownNames) (by simp)
  refine call_alone io_eq (fun _ ↦ rfl) (open_new h₂ "payload.part" (by simp [ownNames]) (by simp)) (h₂.made hordinary)
    (h₃.made hordinary) ?_
  have h₄ := h₃.change (f₁.create "owner.lock").fresh .sync fun file ↦ rfl
  refine call_alone io_eq (fun _ ↦ rfl) (fun _ ↦ rfl) (h₃.made hordinary) (h₄.made hordinary) ?_
  have h₅ := h₄.create hname (by simp [ownNames] : "state.sqlite" ∈ ownNames) (by simp)
  refine call_alone db_eq (fun _ ↦ rfl) (database_new h₄ (by simp)) (h₄.made hordinary) (h₅.made hordinary) ?_
  refine call_alone db_eq (fun _ ↦ rfl) (fun _ ↦ rfl) (h₅.made hordinary) (h₅.made hordinary) ?_
  have hcolumn : Does (world calm True output) (Made sha256 output identity unknown) t
      (((f₁.create "owner.lock").create "payload.part").change (f₁.create "owner.lock").fresh .sync |>.create "state.sqlite")
      (if unknown = true then db .addLengthKnown else pure () : StoreM τ Unit)
      (fun _ t' f' ↦ f' = (((f₁.create "owner.lock").create "payload.part").change (f₁.create "owner.lock").fresh .sync
        |>.create "state.sqlite")) fun _ _ ↦ Made sha256 output identity unknown := by
    refine Does.ite (fun _ ↦ ?_) fun _ ↦ rfl
    refine call_last (P := (· = _)) (R := Made sha256 output identity unknown) db_eq rfl (steady_of_alone _) ?_ ?_
      (fun _ hf ↦ hf) (fun _ _ hf _ ↦ hf) fun f taken _ hf _ ↦ hf
    · rintro _ written rfl
      exact h₅.made hordinary
    · rintro _ taken rfl
      exact h₅.made hordinary
  refine Does.bind hcolumn ?_
  rintro _ t' f₆ rfl
  generalize hlast : (((f₁.create "owner.lock").create "payload.part").change (f₁.create "owner.lock").fresh .sync
    |>.create "state.sqlite") = f₆ at h₅
  have hordinary : f₆.ordinary = true := hlast ▸ hordinary
  have hsettled : f₆.settled = [] := hlast ▸ hsettled
  have hbacks := newRow_backs sha256 hname hidentity hunknown
  have hinsert : ∀ taken, f₆.answer taken (.insertJob (newRow sha256 identity output unknown)) =
      (.ok (), { f₆ with job := some (newRow sha256 identity output unknown) }) := fun _ ↦
    if_pos ⟨hbacks.fits.check, h₅.job⟩
  have h₆ : { f₆ with job := some (newRow sha256 identity output unknown) }.Begun True output
      (some (newRow sha256 identity output unknown)) _ := { h₅ with job := rfl }
  obtain ⟨hlags, hmade⟩ := h₆.lags hbacks hordinary hsettled
  refine call_alone db_eq (fun _ ↦ rfl) hinsert (h₅.made hordinary) hlags ?_
  exact call_alone io_eq (fun _ ↦ rfl) (fun _ ↦ rfl) hlags hmade hordinary

variable (sha256 identity output unknown) in
/-- `Store::create`, or `Store::create_unknown`. -/
def creation : StoreM τ Store :=
  if unknown then createUnknown sha256 identity output else create sha256 identity output

/-- **A creation** makes a store, or leaves it half made. -/
theorem creation_makes (h₀ : f₀.Empty) :
    Does (world calm True output) (Made sha256 output identity unknown) t f₀
      (creation sha256 output identity unknown : StoreM τ Store)
      (fun s _ f ↦ f.ordinary = true ∧
        f.Sound sha256 True output s.part (.nothing unknown) (newRow sha256 identity output unknown) ∧
        s.Held output s.part (.nothing unknown) (newRow sha256 identity output unknown) f)
      fun _ _ ↦ Made sha256 output identity unknown := by
  have hinner : (unknown = true → identity.total ≠ 0) → Does (world calm True output)
      (Made sha256 output identity unknown) t f₀ (createInner sha256 identity output unknown : StoreM τ Store) _ _ :=
    fun hunknown ↦ ((createInner_leaves h₀ hunknown).and
      (createInner_does h₀.begun hunknown)).mono (fun _ _ _ h ↦ h) fun _ _ _ h ↦ h.1
  cases unknown with
  | false => exact hinner fun h ↦ Bool.noConfusion h
  | true => exact Does.failIf (fun _ ↦ Or.inl h₀) fun hne ↦ hinner fun _ ↦ hne

/-- It needs a directory that is not there. -/
theorem creation_stays (h : f₀.ordinary = true) :
    Does (world calm True output) (· = f₀) t f₀ (creation sha256 output identity unknown : StoreM τ Store)
      (fun _ _ _ ↦ False) fun _ _ f ↦ f = f₀ := by
  cases unknown with
  | false => exact createInner_stays h
  | true => exact Does.failIf (fun _ ↦ rfl) fun _ ↦ createInner_stays h

end Making

end TransferStore

end Fhd
