import FhdEngine.Daemon.ServiceRules

/-!
# Who owns a destination

Before a request binds anything it looks whether another reference holds its path. The look and the claim
are several calls apart, and a request with the same reference is never refused by it. So two accepted
jobs may aim at one path in two ways, and these are the only ones: another request is between its own look
and its end (or has left a row behind that the registry does not know), or the same spelling was accepted
for another job.
-/

namespace Fhd

namespace Daemon

open Process (Prog System Pool Move)
open Persistence (References)

variable {Url Origin : Type} {U : Urls Url Origin} {sha256 : Bytes → Digest}

/-- **No two accepted jobs resolve to one path.** -/
def OneJobPerName (sha256 : Bytes → Digest) (P : Calls Url) : Prop :=
  ∀ (n n' : ℕ) (x x' : Call) (id id' : JobId), P.procs[n]? = some (x, .done (some (.ok id))) →
    P.procs[n']? = some (x', .done (some (.ok id'))) → id ≠ id' →
    ∀ path, P.shared.resolve (x.destination sha256) = some path →
      P.shared.resolve (x'.destination sha256) ≠ some path

/-- The call has not ended. -/
def inFlight (P : Calls Url) (n : ℕ) : Bool := P.procs[n]?.any (·.2.result?.isNone)

/-- The call has been accepted, or it has found its name free and has not ended. -/
def isLive (P : Calls Url) (n : ℕ) : Bool :=
  P.procs[n]?.any fun e ↦
    match e.2.result? with
    | none => P.shared.passed.any (·.1 = n)
    | some (some (.ok _)) => true
    | some _ => false

/-- **A name that is found free is free**: a live request with this reference asks for the same job, and
neither a request on its way nor a row holds the path under another reference. -/
def Clear (sha256 : Bytes → Digest) (P : Calls Url) : Move Call Choice AddDownload.Transaction → Prop
  | .advance n _ =>
    match P.procs[n]? with
    | some (x, .call (.claimedByOther destination path) _) =>
      P.shared.claimedByOther destination path = false →
        (∀ m < P.procs.length, isLive P m = true → ∀ y ∈ P.procs[m]?.map Prod.fst,
          y.destination sha256 = destination → y.key sha256 = x.key sha256) ∧
        (∀ e ∈ P.shared.passed, inFlight P e.1 = true → e.2.2 = path → e.2.1 = destination) ∧
        ∀ e ∈ P.shared.references.destinations.entries, e.2 = path → e.1 = destination
    | _ => True
  | _ => True

instance (P : Calls Url) (move : Move Call Choice AddDownload.Transaction) :
    Decidable (Clear sha256 P move) := by
  unfold Clear
  split
  · split <;> infer_instance
  · infer_instance

/-! ### The invariant -/

/-- Something holds the path under this reference. -/
inductive Aims (P : Calls Url) (destination : DestinationRef) (path : Path) : Prop
  | row (h : P.shared.references.destinations.lookup destination = some path)
  | registered (h : P.shared.registry.lookup destination = some path)
  | underway (n : ℕ) (hpassed : (n, destination, path) ∈ P.shared.passed) (h : inFlight P n = true)

/-- **Names are kept apart**: a path is held under one reference, and a reference is live for one job. -/
structure Apart (sha256 : Bytes → Digest) (P : Calls Url) : Prop where
  started : ∀ e ∈ P.shared.passed, e.1 < P.procs.length
  unique : ∀ destination destination' path, Aims P destination path → Aims P destination' path →
    destination = destination'
  keys : ∀ m m' y y', (P.procs.map Prod.fst)[m]? = some y → (P.procs.map Prod.fst)[m']? = some y' →
    isLive P m = true → isLive P m' = true → y.destination sha256 = y'.destination sha256 →
      y.key sha256 = y'.key sha256

theorem inFlight_eq_true {P : Calls Url} {n : ℕ} :
    inFlight P n = true ↔ ∃ x op next, P.procs[n]? = some (x, .call op next) := by
  unfold inFlight
  rcases P.procs[n]? with - | ⟨x, ended | ⟨op, next⟩⟩
  · simp
  · simp [Prog.result?]
  · simp [Prog.result?]

/-- A live call found its name free. -/
theorem passed_of_isLive {P : Calls Url} (hP : Standing U sha256 P) {n : ℕ} (h : isLive P n = true) :
    ∃ e ∈ P.shared.passed, e.1 = n := by
  unfold isLive at h
  rcases hn : P.procs[n]? with - | ⟨x, ended | ⟨op, next⟩⟩
  · simp [hn] at h
  · rcases ended with - | e | id
    · simp [hn, Prog.result?] at h
    · simp [hn, Prog.result?] at h
    · obtain ⟨⟨path, hpassed⟩, -, -⟩ := hP.good hn
      exact ⟨_, hpassed, rfl⟩
  · simpa [hn, Prog.result?] using h

theorem lt_of_isLive {P : Calls Url} {n : ℕ} (h : isLive P n = true) : n < P.procs.length := by
  rcases hn : P.procs[n]? with - | e
  · simp [isLive, hn] at h
  · exact (List.getElem?_eq_some_iff.1 hn).1

/-- A call on its way that has found its name free is live. -/
theorem isLive_of_call {P : Calls Url} {n : ℕ} {x : Call} {op : Port Url}
    {next : Answer op → Prog (Port Url) Answer Ended} (hn : P.procs[n]? = some (x, .call op next))
    (h : ∃ e ∈ P.shared.passed, e.1 = n) : isLive P n = true := by
  simpa [isLive, hn, Prog.result?] using h

theorem lookup_insert_cases {α β : Type} [DecidableEq α] {t : AList fun _ : α ↦ β} {a a' : α} {b b' : β}
    (h : (t.insert a b).lookup a' = some b') : a' = a ∧ b' = b ∨ t.lookup a' = some b' := by
  by_cases ha : a' = a
  · subst ha
    rw [AList.lookup_insert] at h
    exact Or.inl ⟨rfl, (Option.some.inj h).symm⟩
  · rw [AList.lookup_insert_ne ha] at h
    exact Or.inr h

/-! ### One move -/

section Step

variable {P : Calls Url} {m : ℕ} {move : Move Call Choice AddDownload.Transaction}

/-- No call that was there comes to life again. -/
theorem inFlight_of_step (hm : m < P.procs.length)
    (h : inFlight ((system U sha256).step P move) m = true) : inFlight P m = true := by
  unfold inFlight at h ⊢
  cases move with
  | start x => rwa [System.step, List.getElem?_append_left hm] at h
  | disturb e => exact h
  | advance n c =>
    simp only [System.step] at h
    split at h
    next x op next hn =>
      by_cases hmn : n = m
      · subst hmn
        rw [hn]
        rfl
      · rwa [List.getElem?_set_ne hmn] at h
    · exact h

/-- A call is live since its look at the registry. -/
theorem isLive_of_step (hP : Standing U sha256 P) (hstarted : ∀ e ∈ P.shared.passed, e.1 < P.procs.length)
    (hpassed : ∀ e ∈ ((system U sha256).step P move).shared.passed, e.1 = m → e ∈ P.shared.passed)
    (h : isLive ((system U sha256).step P move) m = true) : isLive P m = true := by
  obtain ⟨e, he, rfl⟩ := passed_of_isLive (hP.step move) h
  have hold := hpassed e he rfl
  have hlt := hstarted e hold
  have hany : P.shared.passed.any (·.1 = e.1) = true := List.any_eq_true.2 ⟨e, hold, by simp⟩
  have hlive : ∀ q : Call × Prog (Port Url) Answer Ended, P.procs[e.1]? = some q →
      ((system U sha256).step P move).procs[e.1]? = some q → isLive P e.1 = true := by
    intro q hq hq'
    unfold isLive at h ⊢
    rw [hq'] at h
    rw [hq]
    cases hresult : q.2.result? with
    | none => simpa [hresult] using ⟨_, _, hold⟩
    | some ended => rcases ended with _ | _ | _ <;> simp_all
  obtain ⟨q, hq⟩ : ∃ q, P.procs[e.1]? = some q := ⟨_, List.getElem?_eq_getElem hlt⟩
  by_cases hmove : ∀ c, move ≠ .advance e.1 c
  · obtain ⟨x, p⟩ := q
    exact hlive (x, p) hq (System.procs_step hq hmove)
  · obtain ⟨c, hc⟩ := not_forall.1 hmove
    obtain rfl := not_not.1 hc
    obtain ⟨x, ended | ⟨op, next⟩⟩ := q
    · exact hlive _ hq (by simp [System.step, hq])
    · exact isLive_of_call hq ⟨e, hold, rfl⟩

/-- Nothing is held that was not held. -/
theorem Apart.mono {P' : Calls Url} (h : Apart sha256 P)
    (hnames : P.procs.map Prod.fst <+: P'.procs.map Prod.fst)
    (hpassed : P'.shared.passed = P.shared.passed)
    (hflight : ∀ m < P.procs.length, inFlight P' m = true → inFlight P m = true)
    (hlive : ∀ m, isLive P' m = true → isLive P m = true)
    (htable : ∀ destination path, P'.shared.references.destinations.lookup destination = some path →
      Aims P destination path)
    (hregistry : ∀ destination path, P'.shared.registry.lookup destination = some path →
      Aims P destination path) : Apart sha256 P' := by
  have hlength := hnames.length_le
  rw [List.length_map, List.length_map] at hlength
  have haims : ∀ destination path, Aims P' destination path → Aims P destination path := by
    intro destination path haim
    cases haim with
    | row hrow => exact htable _ _ hrow
    | registered hrow => exact hregistry _ _ hrow
    | underway n hn hin =>
      rw [hpassed] at hn
      exact .underway n hn (hflight n (h.started _ hn) hin)
  have hname : ∀ m y, isLive P m = true → (P'.procs.map Prod.fst)[m]? = some y →
      (P.procs.map Prod.fst)[m]? = some y := by
    intro m y hm hy
    have hlt : m < (P.procs.map Prod.fst).length := by
      rw [List.length_map]
      exact lt_of_isLive hm
    obtain ⟨later, hlater⟩ := hnames
    rwa [← hlater, List.getElem?_append_left hlt] at hy
  refine ⟨fun e he ↦ ?_, fun d d' path hd hd' ↦ h.unique d d' path (haims _ _ hd) (haims _ _ hd'), ?_⟩
  · exact (h.started e (hpassed ▸ he)).trans_le hlength
  · intro m m' y y' hy hy' hm hm'
    exact h.keys m m' y y' (hname m y (hlive m hm) hy) (hname m' y' (hlive m' hm') hy') (hlive m hm)
      (hlive m' hm')

/-- A path that is clear is aimed at under this reference only. -/
theorem aims_eq_of_clear {destination destination' : DestinationRef} {path : Path}
    (hfree : P.shared.claimedByOther destination path = false)
    (hflight : ∀ e ∈ P.shared.passed, inFlight P e.1 = true → e.2.2 = path → e.2.1 = destination)
    (htable : ∀ e ∈ P.shared.references.destinations.entries, e.2 = path → e.1 = destination)
    (haim : Aims P destination' path) : destination' = destination := by
  cases haim with
  | row h => exact htable ⟨destination', path⟩ (AList.mem_lookup_iff.1 h) rfl
  | registered h =>
    rw [Engine.claimedByOther, List.any_eq_false] at hfree
    by_contra hne
    exact hfree ⟨destination', path⟩ (AList.mem_lookup_iff.1 h) (by simp [hne])
  | underway n hpassed h => exact hflight _ hpassed h rfl

/-- **A name is claimed**: it was clear, and its reference is live for no other job. -/
theorem Apart.pass (h : Apart sha256 P) (hP : Standing U sha256 P) {n : ℕ} {c : Choice} {x : Call}
    {path : Path} {next : Bool → Prog (Port Url) Answer Ended}
    (hn : P.procs[n]? = some (x, .call (.claimedByOther (x.destination sha256) path) next))
    (hclear : Clear sha256 P (.advance n c))
    (hfree : P.shared.claimedByOther (x.destination sha256) path = false)
    (heq : ((system U sha256).step P (.advance n c)).shared =
      { P.shared with passed := P.shared.passed ++ [(n, x.destination sha256, path)] }) :
    Apart sha256 ((system U sha256).step P (.advance n c)) := by
  simp only [Clear, hn] at hclear
  obtain ⟨hkeys, hflight, htable⟩ := hclear hfree
  have hnames := (system U sha256).names_step P (.advance n c)
  have hlength := hnames.length_le
  rw [List.length_map, List.length_map] at hlength
  have hname : (P.procs.map Prod.fst)[n]? = some x := by
    rw [List.getElem?_map, hn]
    rfl
  have hlt : n < P.procs.length := (List.getElem?_eq_some_iff.1 hn).1
  have haims : ∀ d path', Aims ((system U sha256).step P (.advance n c)) d path' →
      Aims P d path' ∨ d = x.destination sha256 ∧ path' = path := by
    intro d path' haim
    cases haim with
    | row hrow =>
      rw [heq] at hrow
      exact Or.inl (.row hrow)
    | registered hrow =>
      rw [heq] at hrow
      exact Or.inl (.registered hrow)
    | underway k hk hkin =>
      rw [heq] at hk
      rcases List.mem_append.1 hk with hk | hk
      · exact Or.inl (.underway k hk (inFlight_of_step (h.started _ hk) hkin))
      · cases List.mem_singleton.1 hk
        exact Or.inr ⟨rfl, rfl⟩
  have hlive : ∀ k, isLive ((system U sha256).step P (.advance n c)) k = true →
      isLive P k = true ∨ k = n := by
    intro k hk
    by_cases hkn : k = n
    · exact Or.inr hkn
    · refine Or.inl (isLive_of_step hP h.started (fun e he hek ↦ ?_) hk)
      rw [heq] at he
      rcases List.mem_append.1 he with he | he
      · exact he
      · cases List.mem_singleton.1 he
        exact absurd hek.symm hkn
  have hold : ∀ k y, k < P.procs.length →
      (((system U sha256).step P (.advance n c)).procs.map Prod.fst)[k]? = some y →
        (P.procs.map Prod.fst)[k]? = some y := by
    intro k y hk hy
    obtain ⟨later, hlater⟩ := hnames
    rwa [← hlater, List.getElem?_append_left (by rwa [List.length_map])] at hy
  -- the new name against a live one
  have hnew : ∀ k y, isLive P k = true → (P.procs.map Prod.fst)[k]? = some y →
      y.destination sha256 = x.destination sha256 → y.key sha256 = x.key sha256 := by
    intro k y hk hy hdest
    refine hkeys k (lt_of_isLive hk) hk y ?_ hdest
    rw [← List.getElem?_map, hy]
    exact rfl
  refine ⟨fun e he ↦ ?_, fun d d' path' hd hd' ↦ ?_, fun k k' y y' hy hy' hk hk' hdest ↦ ?_⟩
  · rw [heq] at he
    rcases List.mem_append.1 he with he | he
    · exact (h.started e he).trans_le hlength
    · cases List.mem_singleton.1 he
      exact hlt.trans_le hlength
  · rcases haims d path' hd with hd | ⟨rfl, rfl⟩
    · rcases haims d' path' hd' with hd' | ⟨rfl, rfl⟩
      · exact h.unique d d' path' hd hd'
      · exact aims_eq_of_clear hfree hflight htable hd
    · rcases haims d' path' hd' with hd' | ⟨rfl, -⟩
      · exact (aims_eq_of_clear hfree hflight htable hd').symm
      · rfl
  · rcases hlive k hk with hwas | rfl
    · have hyname := hold k y (lt_of_isLive hwas) hy
      rcases hlive k' hk' with hwas' | rfl
      · exact h.keys k k' y y' hyname (hold k' y' (lt_of_isLive hwas') hy') hwas hwas' hdest
      · obtain rfl : x = y' := Option.some.inj (hname.symm.trans (hold k' y' hlt hy'))
        exact hnew k y hwas hyname hdest
    · obtain rfl : x = y := Option.some.inj (hname.symm.trans (hold k y hlt hy))
      rcases hlive k' hk' with hwas' | rfl
      · exact (hnew k' y' hwas' (hold k' y' (lt_of_isLive hwas') hy') hdest.symm).symm
      · obtain rfl : x = y' := Option.some.inj (hname.symm.trans (hold k' y' hlt hy'))
        rfl

/-- **One move keeps the names apart**, if it finds a name clear that it finds free. -/
theorem Apart.step (h : Apart sha256 P) (hP : Standing U sha256 P) (hclear : Clear sha256 P move) :
    Apart sha256 ((system U sha256).step P move) := by
  have hnames := (system U sha256).names_step P move
  -- every move but a look at the registry
  have hquiet : ((system U sha256).step P move).shared.passed = P.shared.passed →
      (∀ d path, ((system U sha256).step P move).shared.references.destinations.lookup d = some path →
        Aims P d path) →
      (∀ d path, ((system U sha256).step P move).shared.registry.lookup d = some path → Aims P d path) →
      Apart sha256 ((system U sha256).step P move) := fun hpassed htable hregistry ↦
    h.mono hnames hpassed (fun _ hm ↦ inFlight_of_step hm)
      (fun _ ↦ isLive_of_step hP h.started fun e he _ ↦ hpassed ▸ he) htable hregistry
  rcases hP.step_cases move with ⟨n, x, op, next, c, rfl, hn, hacts⟩ | ⟨hpassed, -, hreferences, hregistry, -⟩
  · have hin : inFlight P n = true := inFlight_eq_true.2 ⟨x, op, next, hn⟩
    cases hacts with
    | quiet hpassed hrecorded hreferences hregistry =>
      exact hquiet hpassed (fun d path hd ↦ .row (hreferences ▸ hd)) fun d path hd ↦
        .registered (hregistry ▸ hd)
    | records path reference hpassed hdescribes heq =>
      refine hquiet (by rw [heq]; rfl) (fun d path' hd ↦ ?_) fun d path' hd ↦ ?_
      · rw [heq] at hd
        rcases lookup_insert_cases hd with ⟨rfl, rfl⟩ | hold
        · exact .underway n hpassed hin
        · exact .row hold
      · rw [heq] at hd
        exact .registered hd
    | inserts path hpassed heq =>
      refine hquiet (by rw [heq]) (fun d path' hd ↦ ?_) fun d path' hd ↦ ?_
      · rw [heq] at hd
        exact .row hd
      · rw [heq] at hd
        rcases lookup_insert_cases hd with ⟨rfl, rfl⟩ | hold
        · exact .underway n hpassed hin
        · exact .registered hold
    | passes path hfree heq =>
      have hserve : ((system U sha256).step P (.advance n c)).shared = (Engine.serve n P.shared op c).2 := by
        rw [System.step_advance hn]
        rfl
      have hop : op = .claimedByOther (x.destination sha256) path := by
        have hentry : (Engine.serve n P.shared op c).2.passed =
            P.shared.passed ++ [(n, x.destination sha256, path)] := by rw [← hserve, heq]
        rcases passed_serve n P.shared op c with hsame | ⟨d, path', rfl, -, hpassed⟩
        · rw [hsame] at hentry
          simp at hentry
        · rw [hpassed] at hentry
          simpa using hentry
      subst hop
      exact h.pass hP hn hclear hfree heq
  · exact hquiet hpassed (fun d path hd ↦ .row (hreferences ▸ hd)) fun d path hd ↦
      .registered (hregistry ▸ hd)

end Step

/-! ### Every run -/

theorem mem_of_lookup_foldl {α β : Type} [DecidableEq α] {l : List (α × β)} {t : AList fun _ : α ↦ β} {a : α}
    {b : β} (h : (l.foldl (fun t e ↦ t.insert e.1 e.2) t).lookup a = some b) :
    (a, b) ∈ l ∨ t.lookup a = some b := by
  induction l generalizing t with
  | nil => exact Or.inr h
  | cons e l ih =>
    rcases ih h with hmem | hlookup
    · exact Or.inl (List.mem_cons_of_mem _ hmem)
    · rcases lookup_insert_cases hlookup with ⟨rfl, rfl⟩ | hold
      · exact Or.inl List.mem_cons_self
      · exact Or.inr hold

/-- The registry is rebuilt from the rows. -/
theorem lookup_of_restore {config : EngineConfig} {s s' : Engine Url} {jobs : List Job}
    (h : restore U config s = .ok (s', jobs)) {destination : DestinationRef} {path : Path}
    (hlookup : s'.registry.lookup destination = some path) :
    s.references.destinations.lookup destination = some path := by
  rw [(restore_eq_ok h).2.2.2.2] at hlookup
  rcases mem_of_lookup_foldl hlookup with hmem | hnone
  · obtain ⟨e, he, heq⟩ := List.mem_map.1 hmem
    cases heq
    exact AList.mem_lookup_iff.2 he
  · simp at hnone

theorem Apart.reborn {P : Calls Url} {s : Engine Url} (h : Apart sha256 P)
    (hs : (∃ config jobs, restore U config P.shared = .ok (s, jobs)) ∨ s = P.shared) :
    Apart sha256 (reborn s P) := by
  have hnames : P.procs.map Prod.fst <+: (Daemon.reborn s P).procs.map Prod.fst := by
    simp [Daemon.reborn, List.map_map, Function.comp_def]
  have hflight : ∀ m, inFlight (Daemon.reborn s P) m = true → False := by
    intro m hm
    obtain ⟨x, op, next, hn⟩ := inFlight_eq_true.1 hm
    rcases done_of_reborn hn with hdone | ⟨-, ended, hdone⟩ <;> cases hdone
  have hlive : ∀ m, isLive (Daemon.reborn s P) m = true → isLive P m = true := by
    intro m hm
    unfold isLive at hm ⊢
    rcases hn : (Daemon.reborn s P).procs[m]? with - | ⟨x, p⟩
    · simp [hn] at hm
    · rw [hn] at hm
      rcases done_of_reborn hn with rfl | ⟨hp, ended, rfl⟩
      · cases hm
      · rw [hp]
        rcases ended with _ | _ | _ <;> exact hm
  rcases hs with ⟨config, jobs, hrestore⟩ | rfl
  · obtain ⟨-, hreferences, hpassed, -, -⟩ := restore_eq_ok hrestore
    exact h.mono hnames hpassed (fun m _ hm ↦ (hflight m hm).elim) hlive
      (fun d path hd ↦ .row (by rwa [← hreferences])) fun d path hd ↦ .row (lookup_of_restore hrestore hd)
  · exact h.mono hnames rfl (fun m _ hm ↦ (hflight m hm).elim) hlive (fun d path hd ↦ .row hd)
      fun d path hd ↦ .registered hd

theorem apart_init (limits : Persistence.Limits) :
    Apart sha256 (⟨Engine.init limits, []⟩ : Calls Url) := by
  refine ⟨fun e he ↦ absurd he List.not_mem_nil, fun d d' path hd _ ↦ ?_, fun m m' y y' hy ↦ by simp at hy⟩
  cases hd with
  | row h => simp [Engine.init, References.empty] at h
  | registered h => simp [Engine.init] at h
  | underway n h => simp [Engine.init] at h

/-- **One job per destination name**, at every point of every sequence of lives in which a name that is
found free is free. -/
theorem oneJobPerName (limits : Persistence.Limits) (lives : List Life)
    (hclear : EachStep U sha256 (Clear sha256) ⟨Engine.init limits, []⟩ lives) :
    OneJobPerName sha256 (after U sha256 limits lives) := by
  obtain ⟨hstanding, hapart⟩ : Standing U sha256 (after U sha256 limits lives) ∧
      Apart sha256 (after U sha256 limits lives) :=
    lives_induction (fun P s config _ hJ hs ↦ hJ.reborn (hs.imp_left fun ⟨jobs, h⟩ ↦ ⟨config, jobs, h⟩))
      (fun P move hP hJ hC ↦ hJ.step hP hC) (standing_init limits) (apart_init limits) hclear
  intro n n' x x' id id' hn hn' hne path hpath hpath'
  have hdest := hapart.unique _ _ path (.registered hpath) (.registered hpath')
  have hlive : ∀ {k y i}, (after U sha256 limits lives).procs[k]? = some (y, .done (some (.ok i))) →
      (((after U sha256 limits lives).procs.map Prod.fst)[k]? = some y ∧
        isLive (after U sha256 limits lives) k = true) := by
    intro k y i hk
    refine ⟨by rw [List.getElem?_map, hk]; rfl, ?_⟩
    rw [isLive, hk]
    rfl
  have hkey := hapart.keys n n' x x' (hlive hn).1 (hlive hn').1 (hlive hn).2 (hlive hn').2 hdest
  exact hne (hstanding.job_eq hn hn' hkey)

/-- Two requests, each for a name of its own. -/
def Sample.twoNames : List Life :=
  [⟨Sample.service, Sample.adding 0 (Sample.request "/d/a" false true) ++
    Sample.adding 1 (Sample.request "/d/b" false false)⟩]

theorem oneJobPerName_twoNames : Sample.ended Sample.twoNames =
      [(⟨Sample.service, Sample.request "/d/a" false true⟩, some (some (.ok ⟨1, by decide⟩))),
        (⟨Sample.service, Sample.request "/d/b" false false⟩, some (some (.ok ⟨2, by decide⟩)))] ∧
    OneJobPerName Sample.hashOf (after Sample.urls Sample.hashOf Sample.limits Sample.twoNames) := by
  have hclear : EachStep Sample.urls Sample.hashOf (Clear Sample.hashOf) ⟨Engine.init Sample.limits, []⟩
      Sample.twoNames := by decide +kernel
  have hended : Sample.ended Sample.twoNames =
      [(⟨Sample.service, Sample.request "/d/a" false true⟩, some (some (.ok ⟨1, by decide⟩))),
        (⟨Sample.service, Sample.request "/d/b" false false⟩, some (some (.ok ⟨2, by decide⟩)))] := by
    decide +kernel
  exact ⟨hended, oneJobPerName Sample.limits Sample.twoNames hclear⟩

/-- Two jobs for one spelling of one name: the request is made under both policies. -/
def Sample.oneName : List Life :=
  [⟨Sample.service, Sample.adding 0 (Sample.request "/d/a" false true) ++
    Sample.adding 1 (Sample.request "/d/a" false false)⟩]

/-- The second request is not refused. -/
theorem not_oneJobPerName : ¬∀ lives : List Life,
    OneJobPerName Sample.hashOf (after Sample.urls Sample.hashOf Sample.limits lives) := by
  intro h
  have hended : Sample.ended Sample.oneName =
      [(⟨Sample.service, Sample.request "/d/a" false true⟩, some (some (.ok ⟨1, by decide⟩))),
        (⟨Sample.service, Sample.request "/d/a" false false⟩, some (some (.ok ⟨2, by decide⟩)))] := by
    decide +kernel
  have hpath : (after Sample.urls Sample.hashOf Sample.limits Sample.oneName).shared.resolve
      (Call.destination Sample.hashOf ⟨Sample.service, Sample.request "/d/a" false true⟩) =
        some ["d", "a"] := by
    decide +kernel
  have hpath' : (after Sample.urls Sample.hashOf Sample.limits Sample.oneName).shared.resolve
      (Call.destination Sample.hashOf ⟨Sample.service, Sample.request "/d/a" false false⟩) =
        some ["d", "a"] := by
    decide +kernel
  have hfirst : (Sample.ended Sample.oneName)[0]? =
      some (⟨Sample.service, Sample.request "/d/a" false true⟩, some (some (.ok ⟨1, by decide⟩))) := by
    rw [hended]
    rfl
  have hsecond : (Sample.ended Sample.oneName)[1]? =
      some (⟨Sample.service, Sample.request "/d/a" false false⟩, some (some (.ok ⟨2, by decide⟩))) := by
    rw [hended]
    rfl
  exact h Sample.oneName 0 1 _ _ _ _ (Sample.procs_of_ended hfirst) (Sample.procs_of_ended hsecond)
    (by decide) ["d", "a"] hpath hpath'

end Daemon

end Fhd
