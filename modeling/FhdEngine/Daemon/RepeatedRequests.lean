import FhdEngine.Daemon.ServiceRules

/-!
# Repeating a request

The admission answers a repeated request with the job it has made (`AddDownload`), but a request does not get
that far twice. A source is bound before anything is admitted, nothing ever unbinds it, and what is bound is not
bound again. So no request is accepted a second time by one process, whether the first attempt failed
or not, and an attempt that fails after its source was bound leaves the binding behind.
-/

namespace Fhd

namespace Daemon

open Process (Prog System Pool Move Safe Discipline Contract Disciplined)

variable {Url Origin : Type} {U : Urls Url Origin} {sha256 : Bytes → Digest}

/-- **The source of this call cannot be bound again**: it is bound, or its link is refused. -/
def Spent (U : Urls Url Origin) (sha256 : Bytes → Digest) (x : Call) (s : Engine Url) : Prop :=
  (∀ binding, SourceBinding.new U x.request.url none none x.allowHttp [] ≠ .ok binding) ∨
    x.source sha256 ∈ s.transport.bindings

/-- Nobody unbinds, and nobody makes entries for call `n`. -/
structure KeepsBound (n : ℕ) (s s' : Engine Url) : Prop where
  bound : ∀ source ∈ s.transport.bindings, source ∈ s'.transport.bindings
  passed : ∀ e ∈ s'.passed, e.1 = n → e ∈ s.passed

theorem KeepsBound.refl (n : ℕ) (s : Engine Url) : KeepsBound n s s := ⟨fun _ ↦ id, fun _ h _ ↦ h⟩

theorem KeepsBound.trans {n : ℕ} {s s' s'' : Engine Url} (h : KeepsBound n s s') (h' : KeepsBound n s' s'') :
    KeepsBound n s s'' :=
  ⟨fun source hs ↦ h'.bound source (h.bound source hs), fun e he hn ↦ h.passed e (h'.passed e he hn) hn⟩

theorem Spent.mono {n : ℕ} {x : Call} {s s' : Engine Url} (h : Spent U sha256 x s) (hs : KeepsBound n s s') :
    Spent U sha256 x s' := h.imp_right (hs.bound _)

/-- Every call of every request keeps what is bound. -/
theorem bound_serve (n : ℕ) (s : Engine Url) (op : Port Url) (c : Choice) :
    ∀ source ∈ s.transport.bindings, source ∈ (Engine.serve n s op c).2.transport.bindings := by
  intro source hsource
  cases op with
  | claimedByOther destination path =>
    rw [Engine.serve]
    split <;> exact hsource
  | bind source' binding =>
    show source ∈ (s.transport.bind source' binding).2.bindings
    rw [Sources.bind]
    split
    · exact hsource
    · exact (AList.mem_insert _).2 (Or.inr hsource)
  | record source' reference destination path =>
    cases hfate : c.fate <;> simpa [Engine.serve, hfate, Engine.record] using hsource
  | loadJobs => cases hfate : c.fate <;> simpa [Engine.serve, hfate] using hsource
  | send job => cases hfate : c.fate <;> simpa [Engine.serve, hfate] using hsource
  | _ => exact hsource

theorem keepsBound_serve {n m : ℕ} (hmn : m ≠ n) (s : Engine Url) (op : Port Url) (c : Choice) :
    KeepsBound m s (Engine.serve n s op c).2 := by
  refine ⟨bound_serve n s op c, fun e he hem ↦ ?_⟩
  rcases passed_serve n s op c with hsame | ⟨destination, path, -, -, hpassed⟩
  · rwa [hsame] at he
  · rw [hpassed] at he
    rcases List.mem_append.1 he with he | he
    · exact he
    · cases List.mem_singleton.1 he
      exact absurd hem.symm hmn

/-! ### The first attempt -/

/-- The judgement of a first attempt: when it has ended and has found its name free, its source is spent. -/
abbrev Spends (U : Urls Url Origin) (sha256 : Bytes → Digest) {α : Type} (n : ℕ) (x : Call) :
    Prog (Port Url) Answer α → Engine Url → Prop :=
  Safe (Engine.serve n) (fun _ ↦ True) (KeepsBound n) (fun s s' ↦ ∀ m, m ≠ n → KeepsBound m s s')
    fun _ s ↦ (∃ e ∈ s.passed, e.1 = n) → Spent U sha256 x s

variable {α : Type} {n : ℕ} {x : Call} {s : Engine Url}

/-- A source that is spent stays so. -/
theorem spends_of_spent (h : Spent U sha256 x s) (p : Prog (Port Url) Answer α) : Spends U sha256 n x p s := by
  induction p generalizing s with
  | done a => exact fun s' hs' _ _ ↦ h.mono hs'
  | call op next ih =>
    intro s' hs' _ c
    exact ⟨trivial, fun m hm ↦ keepsBound_serve hm s' op c,
      ih _ ((h.mono hs').imp_right (bound_serve n s' op c _))⟩

/-- A request may be refused before it has found its name free. -/
theorem spends_done (hfresh : ∀ e ∈ s.passed, e.1 ≠ n) (a : α) : Spends U sha256 n x (.done a) s :=
  fun _ hs' _ ⟨e, he, hen⟩ ↦ absurd hen (hfresh e (hs'.passed e he hen))

theorem spends_call {op : Port Url} {g : Answer op → Except EngineError α} {f : α → ServiceM Url JobId}
    (h : ∀ s', KeepsBound n s s' → ∀ c,
      (∀ e, g (Engine.serve n s' op c).1 = .error e → ∀ e ∈ (Engine.serve n s' op c).2.passed, e.1 ≠ n) ∧
      ∀ a, g (Engine.serve n s' op c).1 = .ok a →
        Spends U sha256 n x (f a).run (Engine.serve n s' op c).2) :
    Spends U sha256 n x (call op g >>= f).run s := by
  intro s' hs' _ c
  obtain ⟨hrefused, hnext⟩ := h s' hs' c
  refine ⟨trivial, fun m hm ↦ keepsBound_serve hm s' op c, ?_⟩
  show Spends U sha256 n x (ExceptT.bindCont f (g (Engine.serve n s' op c).1)) _
  cases hg : g (Engine.serve n s' op c).1 with
  | ok a => exact hnext a hg
  | error e => exact spends_done (hrefused e hg) _

theorem spends_bind {f : Unit → ServiceM Url JobId} :
    Spends U sha256 n x (bind U (x.source sha256) x.request.url x.allowHttp >>= f).run s := by
  unfold bind
  split
  next e hnew => exact spends_of_spent (Or.inl fun binding h ↦ by rw [hnew] at h; cases h) _
  next binding hnew =>
    intro s' hs' _ c
    refine ⟨trivial, fun m hm ↦ keepsBound_serve hm s' _ c, spends_of_spent (Or.inr ?_) _⟩
    show _ ∈ (s'.transport.bind (x.source sha256) binding).2.bindings
    rw [Sources.bind]
    split
    next hbound => exact hbound
    · exact (AList.mem_insert _).2 (Or.inl rfl)

theorem spends_addTo {path : Path} {expected : Option Digest} (hfresh : ∀ e ∈ s.passed, e.1 ≠ n) :
    Spends U sha256 n x (addTo U sha256 x.service x.request path expected).run s := by
  refine spends_call fun s' hs' c ↦ ?_
  refine ⟨fun e he ↦ ?_, fun a _ ↦ spends_bind⟩
  rw [Engine.serve] at he ⊢
  split
  next hclaimed => exact fun e he hen ↦ hfresh e (hs'.passed e he hen) hen
  next hfree =>
    rw [if_neg hfree] at he
    cases he

theorem spends_allowedDestination {service : Service} {proposed : String} {f : Path → ServiceM Url JobId}
    (hfresh : ∀ e ∈ s.passed, e.1 ≠ n)
    (h : ∀ path s', (∀ e ∈ s'.passed, e.1 ≠ n) → Spends U sha256 n x (f path).run s') :
    Spends U sha256 n x (allowedDestination service proposed >>= f).run s := by
  unfold allowedDestination
  split
  · exact spends_done hfresh _
  · split
    · exact spends_done hfresh _
    · split
      · exact spends_done hfresh _
      · split
        · exact spends_done hfresh _
        · refine spends_call fun s' hs' c ↦ ?_
          have hfresh' : ∀ e ∈ s'.passed, e.1 ≠ n := fun e he hen ↦ hfresh e (hs'.passed e he hen) hen
          exact ⟨fun _ _ ↦ hfresh', fun path _ ↦ h path s' hfresh'⟩

/-- **A first attempt spends its source**, from wherever it starts. -/
theorem spends_add (hfresh : ∀ e ∈ s.passed, e.1 ≠ n) :
    Spends U sha256 n x (add U sha256 x.service x.request).run s := by
  refine spends_allowedDestination hfresh fun path s' hfresh' ↦ ?_
  split
  · exact spends_addTo hfresh'
  next hex _ =>
    cases hdecoded : decodeDigest hex with
    | error e => exact spends_done hfresh' _
    | ok expected => exact spends_addTo hfresh'

/-! ### The second attempt -/

/-- The judgement of a second attempt: it is refused. -/
abbrev Refuses (U : Urls Url Origin) (sha256 : Bytes → Digest) (n : ℕ) (x : Call) :
    Prog (Port Url) Answer (Except EngineError JobId) → Engine Url → Prop :=
  Safe (Engine.serve n) (Spent U sha256 x) (fun _ _ ↦ True) (fun _ _ ↦ True) fun r _ ↦ ∀ id, r ≠ .ok id

theorem refuses_error (e : EngineError) : Refuses U sha256 n x (.done (.error e)) s :=
  fun _ _ _ _ h ↦ by cases h

theorem spent_serve (op : Port Url) (c : Choice) (h : Spent U sha256 x s) :
    Spent U sha256 x (Engine.serve n s op c).2 := h.imp_right (bound_serve n s op c _)

theorem refuses_call {op : Port Url} {g : Answer op → Except EngineError α} {f : α → ServiceM Url JobId}
    (h : ∀ s', Spent U sha256 x s' → ∀ c a, g (Engine.serve n s' op c).1 = .ok a →
      Refuses U sha256 n x (f a).run (Engine.serve n s' op c).2) :
    Refuses U sha256 n x (call op g >>= f).run s := by
  intro s' _ hs' c
  refine ⟨spent_serve op c hs', trivial, ?_⟩
  show Refuses U sha256 n x (ExceptT.bindCont f (g (Engine.serve n s' op c).1)) _
  cases hg : g (Engine.serve n s' op c).1 with
  | ok a => exact h s' hs' c a hg
  | error e => exact refuses_error e

/-- What is bound is not bound again. -/
theorem refuses_bind {f : Unit → ServiceM Url JobId} :
    Refuses U sha256 n x (bind U (x.source sha256) x.request.url x.allowHttp >>= f).run s := by
  unfold bind
  split
  next e hnew => exact refuses_error _
  next binding hnew =>
    refine refuses_call fun s' hs' c a ha ↦ ?_
    have hbound : x.source sha256 ∈ s'.transport.bindings := hs'.resolve_left fun h ↦ h binding hnew
    have hserve : (Engine.serve n s' (.bind (x.source sha256) binding) c).1 = .error .alreadyBound := by
      show (s'.transport.bind (x.source sha256) binding).1 = _
      rw [Sources.bind, if_pos hbound]
    rw [hserve] at ha
    cases ha

/-- **A second attempt is refused**, from wherever it starts. -/
theorem refuses_addTo (path : Path) (expected : Option Digest) : Refuses U sha256 n x
    (addTo U sha256 x.service x.request path expected).run s :=
  refuses_call fun _ _ _ _ _ ↦ refuses_bind

/-- What `add` does once the destination is allowed. -/
theorem refuses_addAllowed (path : Path) : Refuses U sha256 n x (do
    let expected ←
      match x.request.expectedSha256 with
      | none => pure none
      | some hex => ExceptT.mk (pure ((decodeDigest hex).map some))
    addTo U sha256 x.service x.request path expected : ServiceM Url JobId).run s := by
  split
  · exact refuses_addTo path none
  next hex _ =>
    cases hdecoded : decodeDigest hex with
    | error e => exact refuses_error e
    | ok expected => exact refuses_addTo path (some expected)

theorem refuses_add : Refuses U sha256 n x (add U sha256 x.service x.request).run s := by
  unfold add allowedDestination
  split
  · exact refuses_error _
  · split
    · exact refuses_error _
    · split
      · exact refuses_error _
      · split
        · exact refuses_error _
        · exact refuses_call fun _ _ _ path _ ↦ refuses_addAllowed path

/-! ### Any two attempts -/

def bindingDiscipline : Discipline (Engine Url) Call Ended where
  inv _ := True
  fresh n s := ∀ e ∈ s.passed, e.1 ≠ n
  rely := KeepsBound
  guarantee n s s' := ∀ m, m ≠ n → KeepsBound m s s'
  post _ _ _ _ := True

theorem bindingContract : Contract (system U sha256) bindingDiscipline where
  refl := KeepsBound.refl
  trans _ _ _ _ := KeepsBound.trans
  others hnm h := h _ (Ne.symm hnm)
  disturb _ _ _ := ⟨trivial, fun _ ↦ ⟨fun _ ↦ id, fun _ he _ ↦ he⟩⟩
  fresh h hfresh e he hen := hfresh e (h.passed e he hen) hen
  start _ _ _ _ _ := Process.safe_of_serve (fun _ _ _ _ ↦ trivial)
    (fun s op c _ _ hm ↦ keepsBound_serve hm s op c) _ _

/-- **A first attempt among all others** has spent its source when it has ended, if it found its name
free. -/
theorem spent_run {P : Calls Url} (hstarted : ∀ e ∈ P.shared.passed, e.1 < P.procs.length)
    (moves : List (Move Call Choice AddDownload.Transaction)) {ended : Ended}
    (hended : ((system U sha256).run P (.start x :: moves)).procs[P.procs.length]? = some (x, .done ended))
    (hpassed : ∃ e ∈ ((system U sha256).run P (.start x :: moves)).shared.passed, e.1 = P.procs.length) :
    Spent U sha256 x ((system U sha256).run P (.start x :: moves)).shared := by
  have hfresh : ∀ n, P.procs.length ≤ n → ∀ e ∈ P.shared.passed, e.1 ≠ n := fun _ hn e he hen ↦
    absurd (hstarted e he) (by omega)
  have hP : Disciplined (system U sha256) bindingDiscipline P :=
    ⟨trivial, hfresh, fun _ _ _ _ ↦ Process.safe_of_serve (fun _ _ _ _ ↦ trivial)
      (fun s op c _ _ hm ↦ keepsBound_serve hm s op c) _ _⟩
  have hcontract : Contract (system U sha256) bindingDiscipline := bindingContract
  have hsafe : Spends U sha256 P.procs.length x ((system U sha256).program x) P.shared :=
    Safe.bind (KeepsBound.refl _) trivial ((spends_add (hfresh _ (le_refl _))).mono
      fun answer s _ hspent s' hs' _ ⟨e, he, hen⟩ ↦
        (hspent ⟨e, hs'.passed e he hen, hen⟩).mono hs')
  obtain ⟨p, hp, hpsafe⟩ := hcontract.safe_run (hcontract.step hP (.start x)) (System.procs_start x) hsafe moves
  rw [System.run_cons] at hended hpassed ⊢
  rw [hended] at hp
  cases hp
  exact hpsafe _ (KeepsBound.refl _ _) trivial hpassed

/-- **A second attempt among all others** is never accepted, once its source is spent. -/
theorem refused_run {P : Calls Url} (hspent : Spent U sha256 x P.shared)
    (moves : List (Move Call Choice AddDownload.Transaction)) (id : JobId) :
    ((system U sha256).run P (.start x :: moves)).procs[P.procs.length]? ≠
      some (x, .done (some (.ok id))) := by
  have hsafe_all : ∀ (n : ℕ) (p : Prog (Port Url) Answer Ended) (s : Engine Url),
      Safe (Engine.serve n) (Spent U sha256 x) (fun _ _ ↦ True) (fun _ _ ↦ True) (fun _ _ ↦ True) p s :=
    fun _ p s ↦ Process.safe_of_serve (fun s op c ↦ spent_serve op c) (fun _ _ _ _ ↦ trivial) p s
  have hcontract : Contract (system U sha256) ⟨Spent U sha256 x, fun _ _ ↦ True, fun _ _ _ ↦ True,
      fun _ _ _ ↦ True, fun _ _ _ _ ↦ True⟩ :=
    ⟨fun _ _ ↦ trivial, fun _ _ _ _ _ _ ↦ trivial, fun _ _ ↦ trivial, fun _ _ h ↦ ⟨h, fun _ ↦ trivial⟩,
      fun _ _ ↦ trivial, fun n y s _ _ ↦ hsafe_all n _ s⟩
  have hP : Disciplined (system U sha256) ⟨Spent U sha256 x, fun _ _ ↦ True, fun _ _ _ ↦ True,
      fun _ _ _ ↦ True, fun _ _ _ _ ↦ True⟩ P :=
    ⟨hspent, fun _ _ ↦ trivial, fun n y p _ ↦ hsafe_all n p _⟩
  have hsafe : Safe (Engine.serve P.procs.length) (Spent U sha256 x) (fun _ _ ↦ True) (fun _ _ ↦ True)
      (fun ended _ ↦ ended ≠ some (.ok id)) ((system U sha256).program x) P.shared :=
    Safe.bind (fun _ ↦ trivial) hspent (refuses_add.mono fun answer s _ hrefused _ _ _ h ↦
      hrefused id (Option.some.inj h))
  intro hended
  obtain ⟨p, hp, hpsafe⟩ := hcontract.safe_run (hcontract.step hP (.start x)) (System.procs_start x) hsafe moves
  rw [System.run_cons] at hended
  rw [hended] at hp
  cases hp
  have hinv : Spent U sha256 x ((system U sha256).run ((system U sha256).step P (.start x)) moves).shared :=
    (hcontract.run (hcontract.step hP (.start x)) moves).inv
  exact hpsafe _ trivial hinv rfl

/-! ### The promise -/

/-- The request is made, and takes its calls one after the other. -/
def attempt (P : Calls Url) (x : Call) (choices : List Choice) :
    List (Move Call Choice AddDownload.Transaction) :=
  .start x :: choices.map (.advance P.procs.length)

/-- The request passes the checks of its destination and its digest, and finds its name free. -/
def Passes (U : Urls Url Origin) (sha256 : Bytes → Digest) (P : Calls Url) (x : Call)
    (canonical : Option Path) : Prop :=
  ∃ e ∈ ((system U sha256).run P (attempt P x (List.replicate 2 ⟨canonical, .answered⟩))).shared.passed,
    e.1 = P.procs.length

/-- **The request is retryable**: an attempt that fails leaves the bindings and the registry as they were,
and after any attempt one with which nothing goes wrong is accepted, as the same job. -/
def Retryable (U : Urls Url Origin) (sha256 : Bytes → Digest) (P : Calls Url) (x : Call)
    (canonical : Option Path) : Prop :=
  ∀ (choices : List Choice) (answer : Except EngineError JobId) (P' : Calls Url),
    P' = (system U sha256).run P (attempt P x choices) →
    P'.procs[P.procs.length]? = some (x, .done (some answer)) →
    (∀ e, answer = .error e → P'.shared.transport.bindings = P.shared.transport.bindings ∧
      P'.shared.registry = P.shared.registry) ∧
    ∀ (again : List Choice) (answer' : Except EngineError JobId),
      (∀ c ∈ again, c = ⟨canonical, .answered⟩) →
      ((system U sha256).run P' (attempt P' x again)).procs[P'.procs.length]? =
        some (x, .done (some answer')) →
      ∃ id, answer' = .ok id ∧ ∀ id', answer = .ok id' → id' = id

/-- An attempt that is continued ends, with an answer. -/
theorem exists_answer {P : Calls Url} {p : Prog (Port Url) Answer Ended}
    (hn : P.procs[n]? = some (x, p)) (hp : p.Within (fun _ ↦ True) (· ≠ none)) (c : Choice) :
    ∃ k answer, ((system U sha256).run P (List.replicate k (.advance n c))).procs[n]? =
      some (x, .done (some answer)) := by
  obtain ⟨k, ended, hk⟩ := System.exists_done (S := system U sha256) hn c
  obtain ⟨p', hp', hwithin⟩ := System.within_run (S := system U sha256) hn hp
    (List.replicate k (.advance n c))
  rw [hk] at hp'
  cases hp'
  cases ended with
  | none => exact absurd rfl hwithin
  | some answer => exact ⟨k, answer, hk⟩

theorem within_program (x : Call) : ((system U sha256).program x).Within (fun _ ↦ True) (· ≠ none) :=
  Prog.Within.bind ((Prog.within_trivial _).mono (fun _ ↦ id) fun _ _ ↦ Option.some_ne_none _)

/-- **No request is retryable**: in no state of the engine, and whatever it asks for. -/
theorem not_retryable (limits : Persistence.Limits) (lives : List Life) (x : Call) (canonical : Option Path)
    (hpasses : Passes U sha256 (after U sha256 limits lives) x canonical) :
    ¬Retryable U sha256 (after U sha256 limits lives) x canonical := by
  intro hretryable
  obtain ⟨e, he, hen⟩ := hpasses
  have hstarted : ∀ e ∈ (after U sha256 limits lives).shared.passed,
      e.1 < (after U sha256 limits lives).procs.length := started_after limits lives
  generalize after U sha256 limits lives = P at *
  -- the first attempt, with which nothing goes wrong, until it has ended
  obtain ⟨p, hp, hwithin⟩ := System.within_run (S := system U sha256) (System.procs_start x)
    (within_program x) (List.replicate 2 (.advance P.procs.length ⟨canonical, .answered⟩))
  obtain ⟨k, answer, hanswer⟩ := exists_answer hp hwithin ⟨canonical, .answered⟩
  have hruns : ∀ k, (system U sha256).run ((system U sha256).run ((system U sha256).step P (.start x))
      (List.replicate 2 (.advance P.procs.length ⟨canonical, .answered⟩)))
      (List.replicate k (.advance P.procs.length ⟨canonical, .answered⟩)) =
      (system U sha256).run P (attempt P x (List.replicate (2 + k) ⟨canonical, .answered⟩)) := by
    intro k
    rw [← System.run_append, ← List.replicate_add, attempt, List.map_replicate, System.run_cons]
  have hearly := hruns 0
  rw [List.replicate_zero, System.run_nil] at hearly
  rw [hruns] at hanswer
  have hpassed : e ∈ ((system U sha256).run P
      (attempt P x (List.replicate (2 + k) ⟨canonical, .answered⟩))).shared.passed := by
    rw [← hruns]
    refine passed_run ?_ _
    rw [hearly]
    exact he
  have hspent : Spent U sha256 x ((system U sha256).run P
      (attempt P x (List.replicate (2 + k) ⟨canonical, .answered⟩))).shared :=
    spent_run hstarted _ hanswer ⟨e, hpassed, hen⟩
  -- the second attempt
  generalize hP' : (system U sha256).run P (attempt P x (List.replicate (2 + k) ⟨canonical, .answered⟩)) = P'
    at hanswer hspent
  obtain ⟨k', answer', hanswer'⟩ := exists_answer (System.procs_start (S := system U sha256) x)
    (within_program x) ⟨canonical, .answered⟩
  have hagain : ((system U sha256).run P' (attempt P' x (List.replicate k' ⟨canonical, .answered⟩))).procs[
      P'.procs.length]? = some (x, .done (some answer')) := by
    rw [attempt, List.map_replicate, System.run_cons]
    exact hanswer'
  obtain ⟨id, rfl, -⟩ := (hretryable _ answer P' hP'.symm hanswer).2 _ answer'
    (fun c hc ↦ List.eq_of_mem_replicate hc) hagain
  exact refused_run hspent _ id hagain

/-- An engine that has just been started. -/
def Sample.started : List Life := [⟨Sample.service, []⟩]

def Sample.call : Call := ⟨Sample.service, Sample.request "/d/a" false true⟩

theorem Sample.passes :
    Passes Sample.urls Sample.hashOf (after Sample.urls Sample.hashOf Sample.limits Sample.started) Sample.call
      (some ["d"]) := by
  unfold Passes
  decide +kernel

theorem not_retryable_started : ¬Retryable Sample.urls Sample.hashOf
    (after Sample.urls Sample.hashOf Sample.limits Sample.started) Sample.call (some ["d"]) :=
  not_retryable Sample.limits Sample.started Sample.call (some ["d"]) Sample.passes

/-- The request is accepted, and its repetition finds the source bound. -/
theorem accepted_then_alreadyBound : ¬∀ (lives : List Life) (x : Call) (canonical : Option Path),
    Passes Sample.urls Sample.hashOf (after Sample.urls Sample.hashOf Sample.limits lives) x canonical →
      Retryable Sample.urls Sample.hashOf (after Sample.urls Sample.hashOf Sample.limits lives) x
        canonical := by
  intro h
  let choices := fun k ↦ List.replicate k (⟨some ["d"], .answered⟩ : Choice)
  let P := after Sample.urls Sample.hashOf Sample.limits Sample.started
  let P' := (system Sample.urls Sample.hashOf).run P (attempt P Sample.call (choices 12))
  have hfirst : P'.procs[P.procs.length]?.map (fun e ↦ (e.1, e.2.result?)) =
      some (Sample.call, some (some (.ok ⟨1, by decide⟩))) := by
    decide +kernel
  have hsecond : ((system Sample.urls Sample.hashOf).run P' (attempt P' Sample.call (choices 3))).procs[
      P'.procs.length]?.map (fun e ↦ (e.1, e.2.result?)) =
        some (Sample.call, some (some (.error (.binding .alreadyBound)))) := by
    decide +kernel
  obtain ⟨id, hid, -⟩ := (h Sample.started Sample.call (some ["d"]) Sample.passes (choices 12) _ P' rfl
    (Prog.getElem?_of_result hfirst)).2 (choices 3) _ (fun c hc ↦ List.eq_of_mem_replicate hc)
    (Prog.getElem?_of_result hsecond)
  cases hid

end Daemon

end Fhd
