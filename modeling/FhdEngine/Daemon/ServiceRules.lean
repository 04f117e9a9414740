import FhdEngine.Daemon.Service

/-!
# What a request does to the engine

Each call of `add` leaves the tables and the registry alone, or it is one of three steps of its request:
the request finds its name free, its references are recorded, or the name is registered (`Acts`). That
is proved of every request at every point of its execution, whatever happens in between, and so is what an
accepted request can say (`Good`). Both are judgements of the program, one rule for each call it makes;
`lives_induction` carries what follows from them through any number of lives.
-/

namespace Fhd

open Fallible

namespace Daemon

open Process (Prog System Pool Move Safe Discipline Contract Disciplined)
open Persistence (References)

variable {Url Origin : Type} {U : Urls Url Origin} {sha256 : Bytes → Digest}

/-- What is recorded of the link of a request. -/
structure Describes (x : Call) (reference : SourceReference) : Prop where
  allowHttp : reference.allowHttp = x.allowHttp
  sensitive : reference.isSensitive = x.request.sensitive
  url : x.request.sensitive = false → reference.url = some x.request.url

namespace Engine

variable {s s' s'' : Engine Url} {n m : ℕ}

/-- What a call relies on: nothing is taken from its records, and the discipline of the admission. -/
structure Rely (n : ℕ) (s s' : Engine Url) : Prop where
  desk : AddDownload.Desk.Rely n s.desk s'.desk
  passed : s.passed ⊆ s'.passed
  recorded : s.recorded ⊆ s'.recorded

theorem Rely.refl (n : ℕ) (s : Engine Url) : Rely n s s :=
  ⟨.refl n s.desk, List.Subset.refl _, List.Subset.refl _⟩

theorem Rely.trans (h : Rely n s s') (h' : Rely n s' s'') : Rely n s s'' :=
  ⟨h.desk.trans h'.desk, List.Subset.trans h.passed h'.passed, List.Subset.trans h.recorded h'.recorded⟩

/-- **What one call of a request does.** -/
inductive Acts (sha256 : Bytes → Digest) (x : Call) (n : ℕ) (s s' : Engine Url) : Prop
  | quiet (hpassed : s'.passed = s.passed) (hrecorded : s'.recorded = s.recorded)
      (hreferences : s'.references = s.references) (hregistry : s'.registry = s.registry)
  | passes (path : Path) (hfree : s.claimedByOther (x.destination sha256) path = false)
      (heq : s' = { s with passed := s.passed ++ [(n, x.destination sha256, path)] })
  | records (path : Path) (reference : SourceReference) (hpassed : (n, x.destination sha256, path) ∈ s.passed)
      (hdescribes : Describes x reference)
      (heq : s' = s.record n (x.source sha256) reference (x.destination sha256) path)
  | inserts (path : Path) (hpassed : (n, x.destination sha256, path) ∈ s.passed)
      (heq : s' = { s with registry := s.registry.insert (x.destination sha256) path })

/-- What call `n` guarantees, by the name it was called with. -/
structure Guarantee (sha256 : Bytes → Digest) (n : ℕ) (x : Call) (s s' : Engine Url) : Prop where
  others : ∀ m, m ≠ n → Rely m s s'
  acts : Acts sha256 x n s s'

/-- A call that leaves the desk as it is. -/
theorem Guarantee.of_acts {x : Call} (hdesk : s'.desk = s.desk) (hpassed : s.passed ⊆ s'.passed)
    (hrecorded : s.recorded ⊆ s'.recorded) (hacts : Acts sha256 x n s s') : Guarantee sha256 n x s s' :=
  ⟨fun m _ ↦ ⟨hdesk ▸ .refl m s.desk, hpassed, hrecorded⟩, hacts⟩

end Engine

open Engine (Rely Guarantee Acts)

/-- What an answer says: an accepted request found its name free, is recorded, and names the job that was
created for its key. -/
def Good (sha256 : Bytes → Digest) (n : ℕ) (x : Call) (answer : Except EngineError JobId) (s : Engine Url) :
    Prop :=
  match answer with
  | .ok id => (∃ path, (n, x.destination sha256, path) ∈ s.passed) ∧ n ∈ s.recorded ∧
      ∃ e ∈ s.desk.created, e.2.key = x.key sha256 ∧ e.2.job = id
  | .error _ => True

variable {n : ℕ} {x : Call} {s s' : Engine Url} {α β : Type}

theorem Good.mono {answer : Except EngineError JobId} (h : Good sha256 n x answer s) (hs : Rely n s s') :
    Good sha256 n x answer s' := by
  cases answer with
  | error e => trivial
  | ok id =>
    obtain ⟨⟨path, hpassed⟩, hrecorded, e, he, hkey, hjob⟩ := h
    exact ⟨⟨path, hs.passed hpassed⟩, hs.recorded hrecorded, e, hs.desk.grows.created he, hkey, hjob⟩

/-- The judgement of a request. -/
abbrev Sound (sha256 : Bytes → Digest) (n : ℕ) (x : Call) :
    Prog (Port Url) Answer (Except EngineError JobId) → Engine Url → Prop :=
  Safe (Engine.serve n) (·.desk.Inv) (Rely n) (Guarantee sha256 n x) (Good sha256 n x)

/-! One rule for each call a request makes. -/

theorem sound_throw {e : EngineError} {f : α → ServiceM Url JobId} :
    Sound sha256 n x ((throw e : ServiceM Url α) >>= f).run s := fun _ _ _ ↦ trivial

/-- A step that calls nothing and may end the request. -/
theorem sound_lift {r : Except EngineError α} {f : α → ServiceM Url JobId}
    (h : ∀ a, r = .ok a → Sound sha256 n x (f a).run s) :
    Sound sha256 n x ((ExceptT.mk (pure r) : ServiceM Url α) >>= f).run s := by
  cases r with
  | error e => exact fun _ _ _ ↦ trivial
  | ok a => exact h a rfl

/-- One call: it keeps the desk in order, and the request goes on or ends. -/
theorem sound_call {op : Port Url} {g : Answer op → Except EngineError α} {f : α → ServiceM Url JobId}
    (h : ∀ s', Rely n s s' → s'.desk.Inv → ∀ c, (Engine.serve n s' op c).2.desk.Inv ∧
      Guarantee sha256 n x s' (Engine.serve n s' op c).2 ∧
      ∀ a, g (Engine.serve n s' op c).1 = .ok a →
        Sound sha256 n x (f a).run (Engine.serve n s' op c).2) :
    Sound sha256 n x (call op g >>= f).run s := by
  intro s' hs' hinv c
  obtain ⟨hinv', hguarantee, hnext⟩ := h s' hs' hinv c
  refine ⟨hinv', hguarantee, ?_⟩
  show Sound sha256 n x (ExceptT.bindCont f (g (Engine.serve n s' op c).1)) _
  cases hg : g (Engine.serve n s' op c).1 with
  | error e => exact fun _ _ _ ↦ trivial
  | ok a => exact hnext a hg

/-- One call that changes nothing a request looks at. -/
theorem sound_quiet {op : Port Url} {g : Answer op → Except EngineError α} {f : α → ServiceM Url JobId}
    (hquiet : ∀ (s' : Engine Url) c, (Engine.serve n s' op c).2.desk = s'.desk ∧
      (Engine.serve n s' op c).2.passed = s'.passed ∧ (Engine.serve n s' op c).2.recorded = s'.recorded ∧
      (Engine.serve n s' op c).2.references = s'.references ∧
      (Engine.serve n s' op c).2.registry = s'.registry)
    (h : ∀ a s', Rely n s s' → s'.desk.Inv → Sound sha256 n x (f a).run s') :
    Sound sha256 n x (call op g >>= f).run s := by
  refine sound_call fun s' hs' hinv c ↦ ?_
  obtain ⟨hdesk, hpassed, hrecorded, hreferences, hregistry⟩ := hquiet s' c
  have hrely : Rely n s' (Engine.serve n s' op c).2 :=
    ⟨hdesk ▸ .refl n s'.desk, hpassed ▸ List.Subset.refl _, hrecorded ▸ List.Subset.refl _⟩
  have hinv' : (Engine.serve n s' op c).2.desk.Inv := hdesk.symm ▸ hinv
  exact ⟨hinv', .of_acts hdesk hrely.passed hrely.recorded
    (.quiet hpassed hrecorded hreferences hregistry), fun a _ ↦ h a _ (hs'.trans hrely) hinv'⟩

theorem sound_allowedDestination {service : Service} {proposed : String} {f : Path → ServiceM Url JobId}
    (h : ∀ path s', Rely n s s' → s'.desk.Inv → Sound sha256 n x (f path).run s') :
    Sound sha256 n x (allowedDestination service proposed >>= f).run s := by
  unfold allowedDestination
  split
  · exact sound_throw
  · split
    · exact sound_throw
    · split
      · exact sound_throw
      · split
        · exact sound_throw
        · exact sound_quiet (fun _ _ ↦ ⟨rfl, rfl, rfl, rfl, rfl⟩) h

/-- The request finds its name free. -/
theorem sound_refuseClaimed {path : Path} {f : Unit → ServiceM Url JobId}
    (h : ∀ s', Rely n s s' → s'.desk.Inv → (n, x.destination sha256, path) ∈ s'.passed →
      Sound sha256 n x (f ()).run s') :
    Sound sha256 n x (refuseClaimed (x.destination sha256) path >>= f).run s := by
  refine sound_call fun s' hs' hinv c ↦ ?_
  rw [Engine.serve]
  split
  next hclaimed =>
    exact ⟨hinv, .of_acts rfl (List.Subset.refl _) (List.Subset.refl _) (.quiet rfl rfl rfl rfl),
      fun a ha ↦ by cases ha⟩
  next hfree =>
    have hpassed := List.subset_append_left s'.passed [(n, x.destination sha256, path)]
    exact ⟨hinv, .of_acts rfl hpassed (List.Subset.refl _) (.passes path (Bool.not_eq_true _ ▸ hfree) rfl),
      fun a _ ↦ h _ (hs'.trans ⟨.refl n s'.desk, hpassed, List.Subset.refl _⟩) hinv (by simp)⟩

theorem sound_bind {source : SourceRef} {url : String} {allowHttp : Bool} {f : Unit → ServiceM Url JobId}
    (h : ∀ s', Rely n s s' → s'.desk.Inv → Sound sha256 n x (f ()).run s') :
    Sound sha256 n x (bind U source url allowHttp >>= f).run s := by
  unfold bind
  split
  · exact sound_throw
  · exact sound_quiet (fun _ _ ↦ ⟨rfl, rfl, rfl, rfl, rfl⟩) fun _ ↦ h

/-- **The admission**: what it says of its own part of the engine holds of the whole. -/
theorem sound_execute {spec : JobSpec} {path : Path} {f : JobId → ServiceM Url JobId}
    (hfresh : s.desk.turns.count n = 0) (hinv : s.desk.Inv)
    (hpassed : (n, x.destination sha256, path) ∈ s.passed)
    (h : ∀ id s', (n, x.destination sha256, path) ∈ s'.passed →
      (∃ e ∈ s'.desk.created, e.2.key = x.key sha256 ∧ e.2.job = id) → Sound sha256 n x (f id).run s') :
    Sound sha256 n x (execute (x.key sha256) spec >>= f).run s := by
  have hexecute : Safe (Engine.serve n) (·.desk.Inv) (Rely n) (Guarantee sha256 n x)
      (fun answer s' ↦ AddDownload.Answers n ⟨x.key sha256, spec⟩ answer s'.desk ∧
        (n, x.destination sha256, path) ∈ s'.passed)
      ((AddDownload.execute (x.key sha256) spec).run.embed Port.admission fun _ ↦ id) s := by
    refine Safe.embed (π := Engine.desk) (f := fun c : Choice ↦ ⟨.ok (), c.fate⟩)
      (φ := fun s' ↦ (n, x.destination sha256, path) ∈ s'.passed) ?_ (fun _ ↦ id)
      (fun _ _ h ↦ Rely.desk h) (fun _ _ h hφ ↦ Rely.passed h hφ) ?_ hpassed
      (AddDownload.sound_execute (x := ⟨x.key sha256, spec⟩) hfresh)
    · exact fun _ _ _ ↦ ⟨rfl, rfl⟩
    · intro s' op c _ hφ hdesk hguarantee
      exact ⟨hdesk, ⟨fun m hm ↦ ⟨hguarantee.others m hm, List.Subset.refl _, List.Subset.refl _⟩,
        .quiet rfl rfl rfl rfl⟩, hφ⟩
  refine Safe.bindExcept (Rely.refl n) hinv (Safe.bind (Rely.refl n) hinv
    (hexecute.mono fun answer s' _ h' ↦ fun s'' hs'' hinv'' ↦ ?_))
  obtain ⟨hanswers, hpassed'⟩ := h'
  cases answer with
  | error e => exact fun _ _ _ ↦ trivial
  | ok id =>
    obtain ⟨e, he, hkey, -, hjob⟩ := hanswers
    exact h id s'' (hs''.passed hpassed') ⟨e, hs''.desk.grows.created he, hkey, hjob⟩

theorem sound_record {reference : SourceReference} {path : Path} {f : Unit → ServiceM Url JobId}
    (hdescribes : Describes x reference) (hpassed : (n, x.destination sha256, path) ∈ s.passed)
    (h : ∀ s', Rely n s s' → n ∈ s'.recorded → Sound sha256 n x (f ()).run s') :
    Sound sha256 n x ((call (.record (x.source sha256) reference (x.destination sha256) path)
      (orElse fun _ ↦ .admission .persistenceUnavailable)) >>= f).run s := by
  refine sound_call fun s' hs' hinv c ↦ ?_
  have hrecorded := List.subset_append_left s'.recorded [n]
  have hrely : Rely n s'
      (s'.record n (x.source sha256) reference (x.destination sha256) path) :=
    ⟨.refl n s'.desk, List.Subset.refl _, hrecorded⟩
  have hacts : Guarantee sha256 n x s'
      (s'.record n (x.source sha256) reference (x.destination sha256) path) :=
    .of_acts rfl (List.Subset.refl _) hrecorded
      (.records path reference (hs'.passed hpassed) hdescribes rfl)
  rw [Engine.serve]
  cases c.fate with
  | failed =>
    exact ⟨hinv, .of_acts rfl (List.Subset.refl _) (List.Subset.refl _) (.quiet rfl rfl rfl rfl),
      fun a ha ↦ by cases ha⟩
  | lost => exact ⟨hinv, hacts, fun a ha ↦ by cases ha⟩
  | answered => exact ⟨hinv, hacts, fun a _ ↦ h _ (hs'.trans hrely) (by simp [Engine.record])⟩

theorem sound_insert {path : Path} {f : Unit → ServiceM Url JobId}
    (hpassed : (n, x.destination sha256, path) ∈ s.passed)
    (h : ∀ s', Rely n s s' → Sound sha256 n x (f ()).run s') :
    Sound sha256 n x ((call (.insert (x.destination sha256) path) fun _ ↦ .ok ()) >>= f).run s := by
  refine sound_call fun s' hs' hinv c ↦ ?_
  exact ⟨hinv, .of_acts rfl (List.Subset.refl _) (List.Subset.refl _)
      (.inserts path (hs'.passed hpassed) rfl),
    fun a _ ↦ h _ (hs'.trans ⟨.refl n s'.desk, List.Subset.refl _, List.Subset.refl _⟩)⟩

theorem sound_job {id : JobId} {f : Job → ServiceM Url JobId}
    (h : ∀ job s', Rely n s s' → Sound sha256 n x (f job).run s') :
    Sound sha256 n x (job id >>= f).run s := by
  refine sound_quiet (fun s' c ↦ ?_) fun job s' hs' _ ↦ h job s' hs'
  cases hfate : c.fate <;> simp [Engine.serve, hfate]

/-! ### A whole request -/

theorem sound_settle {path : Path} {id : JobId} (hpassed : (n, x.destination sha256, path) ∈ s.passed)
    (hcreated : ∃ e ∈ s.desk.created, e.2.key = x.key sha256 ∧ e.2.job = id) :
    Sound sha256 n x (@settle Url x.request x.allowHttp (x.source sha256) (x.destination sha256) path
      id).run s := by
  have hrest : ∀ {reference : SourceReference}, Describes x reference →
      @Sound Url sha256 n x (do
        call (.record (x.source sha256) reference (x.destination sha256) path)
          (orElse fun _ ↦ .admission .persistenceUnavailable)
        call (.insert (x.destination sha256) path) fun _ ↦ .ok ()
        let job ← job id
        if job.state = .queued then call (.send job) fun _ ↦ .ok ()
        return id : ServiceM Url JobId).run s := by
    intro reference hdescribes
    refine sound_record hdescribes hpassed fun s₁ hs₁ hrecorded ↦ ?_
    refine sound_insert (hs₁.passed hpassed) fun s₂ hs₂ ↦ ?_
    refine sound_job fun job s₃ hs₃ ↦ ?_
    have hdone : ∀ s₄, Rely n s₃ s₄ → Good sha256 n x (.ok id) s₄ := fun s₄ hs₄ ↦ by
      have hrely := ((hs₁.trans hs₂).trans hs₃).trans hs₄
      obtain ⟨e, he, hkey, hjob⟩ := hcreated
      exact ⟨⟨path, hrely.passed hpassed⟩, ((hs₂.trans hs₃).trans hs₄).recorded hrecorded, e,
        hrely.desk.grows.created he, hkey, hjob⟩
    dsimp only
    split
    · refine sound_quiet (fun s' c ↦ ?_) fun _ s₄ hs₄ _ s₅ hs₅ _ ↦ hdone s₅ (hs₄.trans hs₅)
      cases hfate : c.fate <;> simp [Engine.serve, hfate]
    · exact fun s₄ hs₄ _ ↦ hdone s₄ hs₄
  unfold settle
  split
  next hsensitive =>
    have hmarked : ¬x.request.sensitive = false := by simp [hsensitive]
    exact hrest ⟨rfl, hsensitive.symm, fun h ↦ absurd h hmarked⟩
  next hplain =>
    refine sound_lift fun reference hr ↦ hrest ?_
    cases hnew : SourceReference.new x.request.url x.allowHttp with
    | error e =>
      rw [hnew] at hr
      cases hr
    | ok stored =>
      rw [hnew] at hr
      cases hr
      obtain ⟨hurl, hallow, hnot⟩ := SourceReference.new_eq_ok hnew
      have hunmarked : x.request.sensitive = false := by simpa using hplain
      exact ⟨hallow, hnot.trans hunmarked.symm, fun _ ↦ hurl⟩

/-- **A request keeps to this from wherever it starts**, if its number has had no turn at the desk. -/
theorem sound_add (hfresh : s.desk.turns.count n = 0) :
    Sound sha256 n x (add U sha256 x.service x.request).run s := by
  have haddTo : ∀ path expected s', Rely n s s' → s'.desk.Inv →
      Sound sha256 n x (addTo U sha256 x.service x.request path expected).run s' := by
    intro path expected s' hs' hinv
    refine sound_refuseClaimed fun s₁ hs₁ _ hpassed ↦ ?_
    refine sound_bind fun s₂ hs₂ hinv₂ ↦ ?_
    refine sound_lift fun spec _ ↦ ?_
    refine sound_execute ?_ hinv₂ (hs₂.passed hpassed) fun id s₃ hpassed₃ hcreated ↦ ?_
    · rw [((hs'.trans hs₁).trans hs₂).desk.turns, hfresh]
    · exact sound_settle hpassed₃ hcreated
  refine sound_allowedDestination fun path s₁ hs₁ hinv ↦ ?_
  split
  · exact haddTo path none s₁ hs₁ hinv
  · exact sound_lift fun expected _ ↦ haddTo path expected s₁ hs₁ hinv

/-- Only a look at the registry makes an entry. -/
theorem passed_serve (n : ℕ) (s : Engine Url) (op : Port Url) (c : Choice) :
    (Engine.serve n s op c).2.passed = s.passed ∨
    ∃ destination path, op = .claimedByOther destination path ∧
      s.claimedByOther destination path = false ∧
      (Engine.serve n s op c).2.passed = s.passed ++ [(n, destination, path)] := by
  cases op with
  | claimedByOther destination path =>
    rw [Engine.serve]
    split
    · exact Or.inl rfl
    next hfree => exact Or.inr ⟨destination, path, rfl, Bool.not_eq_true _ ▸ hfree, rfl⟩
  | record source reference destination path =>
    left
    cases hfate : c.fate <;> simp [Engine.serve, hfate, Engine.record]
  | loadJobs =>
    left
    cases hfate : c.fate <;> simp [Engine.serve, hfate]
  | send job =>
    left
    cases hfate : c.fate <;> simp [Engine.serve, hfate]
  | _ => exact Or.inl rfl

/-! ### Every request among all others -/

/-- What an ended call says. -/
def Post (sha256 : Bytes → Digest) (n : ℕ) (x : Call) (ended : Ended) (s : Engine Url) : Prop :=
  ∀ answer, ended = some answer → Good sha256 n x answer s

def discipline (sha256 : Bytes → Digest) : Discipline (Engine Url) Call Ended where
  inv s := s.desk.Inv
  fresh n s := s.desk.turns.count n = 0 ∧ ∀ r, (n, r) ∉ s.desk.created
  rely := Rely
  guarantee n s s' := ∀ m, m ≠ n → Rely m s s'
  post := Post sha256

theorem safe_program (hinv : s.desk.Inv) (hfresh : s.desk.turns.count n = 0) :
    Safe (Engine.serve n) (·.desk.Inv) (Rely n) (Guarantee sha256 n x) (Post sha256 n x)
      ((system U sha256).program x) s := by
  refine Safe.bind (Rely.refl n) hinv ((sound_add hfresh).mono fun answer s' _ hgood ↦ ?_)
  intro s'' hs'' _ answer' hanswer
  cases hanswer
  exact hgood.mono hs''

/-- **What each request guarantees is what the others rely on.** -/
theorem contract : Contract (system U sha256) (discipline sha256) where
  refl := Rely.refl
  trans _ _ _ _ := Rely.trans
  others hnm h := h _ (Ne.symm hnm)
  disturb _ e hs :=
    ⟨(hs.commit e).1, fun n ↦ ⟨(hs.commit e).2 n, List.Subset.refl _, List.Subset.refl _⟩⟩
  fresh h hfresh := ⟨h.desk.turns.trans hfresh.1, fun r hr ↦ hfresh.2 r (h.desk.created r hr)⟩
  start _ _ _ hinv hfresh := (safe_program hinv hfresh.1).weaken fun _ _ h ↦ h.others

/-- **Every call stands well**: in the pool it relies on, and by its own name. -/
structure Standing (U : Urls Url Origin) (sha256 : Bytes → Digest) (P : Calls Url) : Prop where
  disciplined : Disciplined (system U sha256) (discipline sha256) P
  each : ∀ n x p, P.procs[n]? = some (x, p) →
    Safe (Engine.serve n) (·.desk.Inv) (Rely n) (Guarantee sha256 n x) (Post sha256 n x) p P.shared

namespace Standing

variable {P : Calls Url}

theorem step (h : Standing U sha256 P) (move : Move Call Choice AddDownload.Transaction) :
    Standing U sha256 ((system U sha256).step P move) where
  disciplined := contract.step h.disciplined move
  each := contract.each_run h.disciplined (fun _ _ _ hinv hfresh ↦ safe_program hinv hfresh.1) h.each [move]

/-- What an answer says holds. -/
theorem good (h : Standing U sha256 P) {answer : Except EngineError JobId}
    (hn : P.procs[n]? = some (x, .done (some answer))) : Good sha256 n x answer P.shared :=
  h.each n x _ hn _ (Rely.refl _ _) h.disciplined.inv answer rfl

/-- **What an advance does.** -/
theorem acts (h : Standing U sha256 P) {op : Port Url} {next : Answer op → Prog (Port Url) Answer Ended}
    (hn : P.procs[n]? = some (x, .call op next)) (c : Choice) :
    Acts sha256 x n P.shared ((system U sha256).step P (.advance n c)).shared := by
  rw [System.step_advance hn]
  exact (h.each n x _ hn _ (Rely.refl _ _) h.disciplined.inv c).2.1.acts

/-- **What a move does**: it leaves the tables, the registry and the records as they are, or it is a step of
a request that is in flight. -/
theorem step_cases (h : Standing U sha256 P) (move : Move Call Choice AddDownload.Transaction) :
    (∃ n x op next c, move = .advance n c ∧ P.procs[n]? = some (x, .call op next) ∧
      Acts sha256 x n P.shared ((system U sha256).step P move).shared) ∨
    (((system U sha256).step P move).shared.passed = P.shared.passed ∧
      ((system U sha256).step P move).shared.recorded = P.shared.recorded ∧
      ((system U sha256).step P move).shared.references = P.shared.references ∧
      ((system U sha256).step P move).shared.registry = P.shared.registry ∧
      ∀ n c, move = .advance n c → (system U sha256).step P move = P) := by
  cases move with
  | start x => exact Or.inr ⟨rfl, rfl, rfl, rfl, fun n c h ↦ by cases h⟩
  | disturb e => exact Or.inr ⟨rfl, rfl, rfl, rfl, fun n c h ↦ by cases h⟩
  | advance n c =>
    rcases hn : P.procs[n]? with - | ⟨x, p⟩
    · have hsame : (system U sha256).step P (.advance n c) = P := by simp only [System.step, hn]
      rw [hsame]
      exact Or.inr ⟨rfl, rfl, rfl, rfl, fun _ _ _ ↦ rfl⟩
    · cases p with
      | done ended =>
        have hsame : (system U sha256).step P (.advance n c) = P := by simp only [System.step, hn]
        rw [hsame]
        exact Or.inr ⟨rfl, rfl, rfl, rfl, fun _ _ _ ↦ rfl⟩
      | call op next => exact Or.inl ⟨n, x, op, next, c, rfl, hn, h.acts hn c⟩

/-- Two accepted requests with one key were given one job. -/
theorem job_eq (h : Standing U sha256 P) {n' : ℕ} {x' : Call} {id id' : JobId}
    (hn : P.procs[n]? = some (x, .done (some (.ok id))))
    (hn' : P.procs[n']? = some (x', .done (some (.ok id')))) (hkey : x.key sha256 = x'.key sha256) :
    id = id' := by
  obtain ⟨-, -, e, he, hek, rfl⟩ := h.good hn
  obtain ⟨-, -, e', he', hek', rfl⟩ := h.good hn'
  have hinv : P.shared.desk.Inv := h.disciplined.inv
  have hsame := List.inj_on_of_nodup_map hinv.keys he he' (by rw [hek, hek', hkey])
  rw [hsame]

end Standing

/-! ### Lives -/

/-- What is restored: the database is as it was, and the registry is what it says. -/
theorem restore_eq_ok {config : EngineConfig} {jobs : List Job}
    (h : restore U config s = .ok (s', jobs)) : s'.desk = s.desk ∧ s'.references = s.references ∧
      s'.passed = s.passed ∧ s'.recorded = s.recorded ∧
      s'.registry = s.references.storedDestinations.foldl (fun map e ↦ map.insert e.1 e.2) ∅ := by
  unfold restore at h
  obtain ⟨sources, -, h⟩ := bind_eq_ok.1 h
  obtain ⟨stored, -, h⟩ := bind_eq_ok.1 h
  cases h
  exact ⟨rfl, rfl, rfl, rfl, rfl⟩

theorem procs_reborn {P : Calls Url} {p : Prog (Port Url) Answer Ended}
    (hn : (reborn s P).procs[n]? = some (x, p)) :
    ∃ q, P.procs[n]? = some (x, q) ∧ p = die q := by
  simp only [reborn, List.getElem?_map, Option.map_eq_some_iff] at hn
  obtain ⟨⟨y, q⟩, hq, heq⟩ := hn
  cases heq
  exact ⟨q, hq, rfl⟩

/-- A call that is done after a rebirth was done before it, or has died. -/
theorem done_of_reborn {P : Calls Url} {p : Prog (Port Url) Answer Ended}
    (hn : (reborn s P).procs[n]? = some (x, p)) :
    p = .done none ∨ P.procs[n]? = some (x, p) ∧ ∃ ended, p = .done ended := by
  obtain ⟨q, hq, rfl⟩ := procs_reborn hn
  cases q with
  | done ended => exact Or.inr ⟨hq, ended, rfl⟩
  | call op next => exact Or.inl rfl

theorem Standing.reborn {P : Calls Url} (h : Standing U sha256 P) (hrely : ∀ n, Rely n P.shared s)
    (hinv : s.desk.Inv) : Standing U sha256 (reborn s P) := by
  have heach : ∀ n x p, (Daemon.reborn s P).procs[n]? = some (x, p) →
      Safe (Engine.serve n) (·.desk.Inv) (Rely n) (Guarantee sha256 n x) (Post sha256 n x) p s := by
    intro n x p hn
    rcases done_of_reborn hn with rfl | ⟨hp, -, -⟩
    · exact fun _ _ _ answer hanswer ↦ by cases hanswer
    · exact (h.each n x p hp).stable Rely.trans (hrely n)
  refine ⟨⟨hinv, fun n hn ↦ ?_, fun n x p hn ↦ (heach n x p hn).weaken fun _ _ hg ↦ hg.others⟩, heach⟩
  have hlength : P.procs.length ≤ n := by simpa [Daemon.reborn] using hn
  have hcontract : Contract (system U sha256) (discipline sha256) := contract
  exact hcontract.fresh (hrely n) (h.disciplined.fresh n hlength)

theorem rely_restore {config : EngineConfig} {jobs : List Job}
    (h : restore U config s = .ok (s', jobs)) (n : ℕ) : Rely n s s' := by
  obtain ⟨hdesk, -, hpassed, hrecorded, -⟩ := restore_eq_ok h
  exact ⟨hdesk ▸ .refl n s.desk, hpassed ▸ List.Subset.refl _, hrecorded ▸ List.Subset.refl _⟩

theorem standing_init (limits : Persistence.Limits) : Standing U sha256 ⟨Engine.init limits, []⟩ := by
  refine ⟨⟨AddDownload.Desk.inv_init limits, fun n _ ↦ ⟨rfl, fun r h ↦ ?_⟩, fun n x p h ↦ ?_⟩,
    fun n x p h ↦ ?_⟩
  · cases h
  · simp at h
  · simp at h

theorem eachStep_true (P : Calls Url) (lives : List Life) :
    EachStep U sha256 (fun _ _ ↦ True) P lives := by
  have hmoves : ∀ (moves : List (Move Call Choice AddDownload.Transaction)) (P : Calls Url),
      (system U sha256).Throughout (fun _ _ ↦ True) P moves := by
    intro moves
    induction moves with
    | nil => exact fun _ ↦ trivial
    | cons m moves ih => exact fun P ↦ ⟨trivial, ih _⟩
  induction lives generalizing P with
  | nil => trivial
  | cons life lives ih =>
    refine ⟨?_, ih _⟩
    split
    · trivial
    · exact hmoves _ _

/-- **The rule for lives**: what holds of every call that stands well, is kept by a rebirth, and by every
step that finds the engine as `C` says. -/
theorem lives_induction {J : Calls Url → Prop}
    {C : Calls Url → Move Call Choice AddDownload.Transaction → Prop}
    (hreborn : ∀ P s config, Standing U sha256 P → J P →
      (∃ jobs, restore U config P.shared = .ok (s, jobs)) ∨ s = P.shared → J (reborn s P))
    (hstep : ∀ P move, Standing U sha256 P → J P → C P move → J ((system U sha256).step P move))
    {P : Calls Url} (hP : Standing U sha256 P) (hJ : J P) {lives : List Life}
    (h : EachStep U sha256 C P lives) :
    Standing U sha256 (lives.foldl (live U sha256) P) ∧ J (lives.foldl (live U sha256) P) := by
  induction lives generalizing P with
  | nil => exact ⟨hP, hJ⟩
  | cons life lives ih =>
    obtain ⟨hlife, hlives⟩ := h
    have hone : Standing U sha256 (live U sha256 P life) ∧ J (live U sha256 P life) := by
      unfold live
      split
      next e hrestore =>
        exact ⟨hP.reborn (fun n ↦ .refl n _) hP.disciplined.inv,
          hreborn P _ life.service.config hP hJ (Or.inr rfl)⟩
      next s jobs hrestore =>
        have hinv : s.desk.Inv := (restore_eq_ok hrestore).1 ▸ hP.disciplined.inv
        refine System.run_of_throughout (J := fun P ↦ Standing U sha256 P ∧ J P) (C := C)
          (fun P move hP hC ↦ ⟨hP.1.step move, hstep P move hP.1 hP.2 hC⟩)
          ⟨hP.reborn (rely_restore hrestore) hinv, ?_⟩ (by rwa [hrestore] at hlife)
        exact hreborn P s life.service.config hP hJ (Or.inl ⟨jobs, hrestore⟩)
    exact ih hone.1 hone.2 hlives

/-- No entry is forgotten while a process lives. -/
theorem passed_step {P : Calls Url} {e : ℕ × DestinationRef × Path} (he : e ∈ P.shared.passed)
    (move : Move Call Choice AddDownload.Transaction) :
    e ∈ ((system U sha256).step P move).shared.passed := by
  cases move with
  | start x => exact he
  | disturb transaction => exact he
  | advance n c =>
    simp only [System.step]
    split
    next x op next hn =>
      rcases passed_serve n P.shared op c with hsame | ⟨destination, path, -, -, hpassed⟩
      · exact hsame ▸ he
      · exact hpassed ▸ List.mem_append_left _ he
    · exact he

theorem passed_run {P : Calls Url} {e : ℕ × DestinationRef × Path} (he : e ∈ P.shared.passed)
    (moves : List (Move Call Choice AddDownload.Transaction)) :
    e ∈ ((system U sha256).run P moves).shared.passed := by
  induction moves generalizing P with
  | nil => exact he
  | cons move moves ih => exact ih (passed_step he move)

/-- Entries are made by calls that were started. -/
theorem started_after (limits : Persistence.Limits) (lives : List Life) :
    ∀ e ∈ (after U sha256 limits lives).shared.passed, e.1 < (after U sha256 limits lives).procs.length := by
  refine (lives_induction (J := fun P ↦ ∀ e ∈ P.shared.passed, e.1 < P.procs.length) ?_ ?_
    (standing_init limits) (fun e he ↦ absurd he List.not_mem_nil) (eachStep_true _ lives)).2
  · intro P s config _ hJ hs e he
    have hpassed : s.passed = P.shared.passed := by
      rcases hs with ⟨jobs, hrestore⟩ | rfl
      · exact (restore_eq_ok hrestore).2.2.1
      · rfl
    simpa [reborn] using hJ e (hpassed ▸ he)
  · intro P move hP hJ _ e he
    have hlength := ((system U sha256).names_step P move).length_le
    rw [List.length_map, List.length_map] at hlength
    rcases hP.step_cases move with ⟨n, x, op, next, c, rfl, hn, hacts⟩ | ⟨hpassed, -⟩
    · have hlt : n < P.procs.length := (List.getElem?_eq_some_iff.1 hn).1
      rw [System.step_advance hn] at he
      rcases passed_serve n P.shared op c with hsame | ⟨destination, path, -, -, hpassed⟩
      · exact (hJ e (hsame ▸ he)).trans_le hlength
      · rcases List.mem_append.1 (hpassed ▸ he : e ∈ P.shared.passed ++ [(n, destination, path)]) with he | he
        · exact (hJ e he).trans_le hlength
        · cases List.mem_singleton.1 he
          exact hlt.trans_le hlength
    · exact (hJ e (hpassed ▸ he)).trans_le hlength

end Daemon

end Fhd
