import FhdEngine.Daemon.ServiceRules

/-!
# Sensitive links and the disk

A row of `sources` belongs to a link together with the transport policy it is fetched under. Marking keeps
the link out of that row for good, whatever was in it and whatever comes later; but the same link under
the other policy has a row of its own, which no mark reaches. So a link that was once accepted as sensitive
is on the disk exactly if it was recorded without its mark under a policy under which it never was marked.
-/

namespace Fhd

namespace Daemon

open Process (System Move)
open Persistence (References SourceRow)

variable {Url Origin : Type} {U : Urls Url Origin} {sha256 : Bytes → Digest}

/-- Some row of `sources` holds the link. -/
def OnDisk (s : Engine Url) (url : String) : Prop :=
  ∃ source row, s.references.sources.lookup source = some row ∧ row.url = some url

/-- The references of a call took effect. -/
def Recorded (P : Calls Url) (x : Call) : Prop :=
  ∃ n ∈ P.shared.recorded, (P.procs.map Prod.fst)[n]? = some x

/-- The link was recorded under this policy, marked or unmarked. -/
def RecordedAs (P : Calls Url) (url : String) (allowHttp sensitive : Bool) : Prop :=
  ∃ x, Recorded P x ∧ x.request.url = url ∧ x.allowHttp = allowHttp ∧ x.request.sensitive = sensitive

/-- No two links of the run, or policies of one, have the same reference. -/
def DistinctSources (sha256 : Bytes → Digest) (P : Calls Url) : Prop :=
  ∀ x ∈ P.procs.map Prod.fst, ∀ x' ∈ P.procs.map Prod.fst, x.source sha256 = x'.source sha256 →
    x.request.url = x'.request.url ∧ x.allowHttp = x'.allowHttp

/-! ### What a row says of the calls that were recorded -/

/-- **A row agrees with the calls**: it is marked if one of them was, and holds the link of one if none
was. -/
structure Agrees (sha256 : Bytes → Digest) (R : Call → Prop) (source : SourceRef) (row : Option SourceRow) :
    Prop where
  absent : row = none → ∀ x, R x → x.source sha256 ≠ source
  marked : ∀ r ∈ row, r.sensitive = true →
    r.url = none ∧ ∃ x, R x ∧ x.source sha256 = source ∧ x.request.sensitive = true
  plain : ∀ r ∈ row, r.sensitive = false →
    (∃ x, R x ∧ x.source sha256 = source ∧ r.url = some x.request.url ∧ x.request.sensitive = false) ∧
      ∀ x, R x → x.source sha256 = source → x.request.sensitive = false

/-- Only the calls of that source matter. -/
theorem Agrees.congr {R R' : Call → Prop} {source : SourceRef} {row : Option SourceRow}
    (h : Agrees sha256 R source row) (hR : ∀ x, x.source sha256 = source → (R' x ↔ R x)) :
    Agrees sha256 R' source row := by
  refine ⟨fun hnone x hx hsource ↦ h.absent hnone x ((hR x hsource).1 hx) hsource, fun r hr hmark ↦ ?_,
    fun r hr hmark ↦ ?_⟩
  · obtain ⟨hurl, x, hx, hsource, hsensitive⟩ := h.marked r hr hmark
    exact ⟨hurl, x, (hR x hsource).2 hx, hsource, hsensitive⟩
  · obtain ⟨⟨x, hx, hsource, hurl, hsensitive⟩, hall⟩ := h.plain r hr hmark
    exact ⟨⟨x, (hR x hsource).2 hx, hsource, hurl, hsensitive⟩,
      fun y hy hsource' ↦ hall y ((hR y hsource').1 hy) hsource'⟩

/-- **Recording keeps every row in agreement.** -/
theorem Agrees.record {R : Call → Prop} {t : References} {x : Call} {reference : SourceReference}
    {destination : DestinationRef} {path : Path} (hdescribes : Describes x reference)
    (h : ∀ source, Agrees sha256 R source (t.sources.lookup source)) (source : SourceRef) :
    Agrees sha256 (fun y ↦ R y ∨ y = x) source
      ((t.record (x.source sha256) reference destination path).sources.lookup source) := by
  by_cases hsource : source = x.source sha256
  case neg =>
    rw [References.lookup_record_of_ne hsource]
    refine (h source).congr fun y hy ↦ or_iff_left ?_
    rintro rfl
    exact hsource hy.symm
  subst hsource
  have hold := h (x.source sha256)
  by_cases hmarked : ∃ row, t.sources.lookup (x.source sha256) = some row ∧ row.sensitive = true
  · -- the row keeps its mark and stays without a link
    obtain ⟨row, hrow, hmark⟩ := hmarked
    rw [References.lookup_record_of_marked hrow hmark]
    obtain ⟨hurl, y, hy, hys, hsensitive⟩ := hold.marked row hrow hmark
    refine ⟨fun hnone ↦ by simp at hnone, fun r hr _ ↦ ?_, fun r hr hplain ↦ ?_⟩
    · obtain rfl := Option.mem_some_iff.1 hr
      exact ⟨hurl, y, Or.inl hy, hys, hsensitive⟩
    · obtain rfl := Option.mem_some_iff.1 hr
      rw [hmark] at hplain
      cases hplain
  · have hplain : ∀ row, t.sources.lookup (x.source sha256) = some row → row.sensitive = false :=
      fun row hrow ↦ Bool.eq_false_iff.2 fun hmark ↦ hmarked ⟨row, hrow, hmark⟩
    have hunmarked : ∀ y, R y → y.source sha256 = x.source sha256 → y.request.sensitive = false := by
      intro y hy hys
      cases hrow : t.sources.lookup (x.source sha256) with
      | none => exact absurd hys (hold.absent hrow y hy)
      | some row => exact (hold.plain row hrow (hplain row hrow)).2 y hy hys
    rw [References.lookup_record hplain]
    refine ⟨fun hnone ↦ by simp at hnone, fun r hr hmark ↦ ?_, fun r hr hmark ↦ ?_⟩
    · obtain rfl := Option.mem_some_iff.1 hr
      have hwithheld : reference.url = none := by
        have := reference.withheld
        rw [show reference.isSensitive = true from hmark] at this
        exact Option.isNone_iff_eq_none.1 this.symm
      exact ⟨hwithheld, x, Or.inr rfl, rfl, hdescribes.sensitive.symm.trans hmark⟩
    · obtain rfl := Option.mem_some_iff.1 hr
      have hx : x.request.sensitive = false := hdescribes.sensitive.symm.trans hmark
      refine ⟨⟨x, Or.inr rfl, rfl, hdescribes.url hx, hx⟩, fun y hy hys ↦ ?_⟩
      rcases hy with hy | rfl
      · exact hunmarked y hy hys
      · exact hx

/-! ### Every run -/

/-- **The table agrees with the calls of the run.** -/
structure Ledger (sha256 : Bytes → Digest) (P : Calls Url) : Prop where
  started : ∀ n ∈ P.shared.recorded, n < P.procs.length
  rows : ∀ source, Agrees sha256 (Recorded P) source (P.shared.references.sources.lookup source)

/-- Calls that are recorded stay so, and none is added, if the names stay and so does the record. -/
theorem recorded_congr {P P' : Calls Url} (hstarted : ∀ n ∈ P.shared.recorded, n < P.procs.length)
    (hnames : P.procs.map Prod.fst <+: P'.procs.map Prod.fst)
    (hrecorded : P'.shared.recorded = P.shared.recorded) (x : Call) : Recorded P' x ↔ Recorded P x := by
  unfold Recorded
  rw [hrecorded]
  refine exists_congr fun n ↦ and_congr_right fun hn ↦ ?_
  have hlt : n < (P.procs.map Prod.fst).length := by
    rw [List.length_map]
    exact hstarted n hn
  obtain ⟨later, hlater⟩ := hnames
  rw [← hlater, List.getElem?_append_left hlt]

theorem Ledger.congr {P P' : Calls Url} (h : Ledger sha256 P)
    (hnames : P.procs.map Prod.fst <+: P'.procs.map Prod.fst)
    (hrecorded : P'.shared.recorded = P.shared.recorded)
    (hreferences : P'.shared.references = P.shared.references) : Ledger sha256 P' := by
  have hlength := hnames.length_le
  rw [List.length_map, List.length_map] at hlength
  refine ⟨fun n hn ↦ (h.started n (hrecorded ▸ hn)).trans_le hlength, fun source ↦ ?_⟩
  rw [hreferences]
  exact (h.rows source).congr fun x _ ↦ recorded_congr h.started hnames hrecorded x

/-- **One move keeps the agreement.** -/
theorem Ledger.step {P : Calls Url} (h : Ledger sha256 P) (hP : Standing U sha256 P)
    (move : Move Call Choice AddDownload.Transaction) : Ledger sha256 ((system U sha256).step P move) := by
  have hnames := (system U sha256).names_step P move
  rcases hP.step_cases move with ⟨n, x, op, next, c, -, hn, hacts⟩ | ⟨-, hrecorded, hreferences, -, -⟩
  · cases hacts with
    | quiet hpassed hrecorded hreferences hregistry => exact h.congr hnames hrecorded hreferences
    | passes path hfree heq => exact h.congr hnames (by rw [heq]) (by rw [heq])
    | inserts path hpassed heq => exact h.congr hnames (by rw [heq]) (by rw [heq])
    | records path reference hpassed hdescribes heq =>
      have hname : (P.procs.map Prod.fst)[n]? = some x := by
        rw [List.getElem?_map, hn]
        rfl
      have hlt : n < P.procs.length := (List.getElem?_eq_some_iff.1 hn).1
      have hlength := hnames.length_le
      rw [List.length_map, List.length_map] at hlength
      have hrecorded : ((system U sha256).step P move).shared.recorded = P.shared.recorded ++ [n] := by
        rw [heq]
        rfl
      have hsame : ∀ m < P.procs.length, (((system U sha256).step P move).procs.map Prod.fst)[m]? =
          (P.procs.map Prod.fst)[m]? := by
        intro m hm
        obtain ⟨later, hlater⟩ := hnames
        rw [← hlater, List.getElem?_append_left (by rwa [List.length_map])]
      have hcalls : ∀ y, Recorded ((system U sha256).step P move) y ↔ Recorded P y ∨ y = x := by
        intro y
        unfold Recorded
        rw [hrecorded]
        constructor
        · rintro ⟨m, hm, hmy⟩
          rcases List.mem_append.1 hm with hm | hm
          · exact Or.inl ⟨m, hm, by rwa [← hsame m (h.started m hm)]⟩
          · obtain rfl := List.mem_singleton.1 hm
            rw [hsame m hlt, hname] at hmy
            exact Or.inr (Option.some.inj hmy).symm
        · rintro (⟨m, hm, hmy⟩ | rfl)
          · exact ⟨m, List.mem_append_left _ hm, by rwa [hsame m (h.started m hm)]⟩
          · exact ⟨n, by simp, by rwa [hsame n hlt]⟩
      refine ⟨fun m hm ↦ ?_, fun source ↦ ?_⟩
      · rw [hrecorded] at hm
        rcases List.mem_append.1 hm with hm | hm
        · exact (h.started m hm).trans_le hlength
        · obtain rfl := List.mem_singleton.1 hm
          exact hlt.trans_le hlength
      · rw [heq]
        exact (Agrees.record hdescribes h.rows source).congr fun y _ ↦ hcalls y
  · exact h.congr hnames hrecorded hreferences

theorem ledger_init (limits : Persistence.Limits) :
    Ledger sha256 (⟨Engine.init limits, []⟩ : Calls Url) := by
  refine ⟨fun n hn ↦ absurd hn List.not_mem_nil, fun source ↦
    ⟨fun _ x hx ↦ ?_, fun r hr ↦ absurd hr (by simp [Engine.init, References.empty]),
      fun r hr ↦ absurd hr (by simp [Engine.init, References.empty])⟩⟩
  obtain ⟨n, hn, -⟩ := hx
  cases hn

theorem ledger_after (limits : Persistence.Limits) (lives : List Life) :
    Ledger sha256 (after U sha256 limits lives) := by
  refine (lives_induction (J := Ledger sha256) (fun P s config _ hJ hrestore ↦ ?_)
    (fun P move hP hJ _ ↦ hJ.step hP move) (standing_init limits) (ledger_init limits)
    (eachStep_true _ lives)).2
  have hnames : P.procs.map Prod.fst <+: (reborn s P).procs.map Prod.fst := by
    simp [reborn, List.map_map, Function.comp_def]
  rcases hrestore with ⟨jobs, hrestore⟩ | rfl
  · obtain ⟨-, hreferences, -, hrecorded, -⟩ := restore_eq_ok hrestore
    exact hJ.congr hnames hrecorded hreferences
  · exact hJ.congr hnames rfl rfl

/-- **What is on the disk**: a link that was recorded unmarked under a policy under which it never was
marked. -/
theorem onDisk_iff {P : Calls Url} (h : Ledger sha256 P) (hdistinct : DistinctSources sha256 P)
    (url : String) : OnDisk P.shared url ↔
      ∃ allowHttp, RecordedAs P url allowHttp false ∧ ¬RecordedAs P url allowHttp true := by
  have hmem : ∀ x, Recorded P x → x ∈ P.procs.map Prod.fst := fun x ⟨_, _, hx⟩ ↦ List.mem_of_getElem? hx
  constructor
  · rintro ⟨source, row, hrow, hurl⟩
    have hplain : row.sensitive = false := by
      refine Bool.eq_false_iff.2 fun hmark ↦ ?_
      rw [((h.rows source).marked row hrow hmark).1] at hurl
      cases hurl
    obtain ⟨⟨x, hx, hsource, hxurl, hunmarked⟩, hall⟩ := (h.rows source).plain row hrow hplain
    obtain rfl : x.request.url = url := Option.some.inj (hxurl.symm.trans hurl)
    refine ⟨x.allowHttp, ⟨x, hx, rfl, rfl, hunmarked⟩, ?_⟩
    rintro ⟨y, hy, hyurl, hyallow, hmarked⟩
    have hsame : y.source sha256 = source := by
      rw [← hsource, Call.source, Call.source, hyurl, hyallow]
    rw [hall y hy hsame] at hmarked
    cases hmarked
  · rintro ⟨allowHttp, ⟨x, hx, rfl, rfl, hunmarked⟩, hnever⟩
    have hagrees := h.rows (x.source sha256)
    cases hrow : P.shared.references.sources.lookup (x.source sha256) with
    | none => exact absurd rfl (hagrees.absent hrow x hx)
    | some row =>
      have hplain : row.sensitive = false := by
        refine Bool.eq_false_iff.2 fun hmark ↦ hnever ?_
        obtain ⟨-, y, hy, hsource, hmarked⟩ := hagrees.marked row hrow hmark
        obtain ⟨hurl, hallow⟩ := hdistinct y (hmem y hy) x (hmem x hx) hsource
        exact ⟨y, hy, hurl, hallow, hmarked⟩
      obtain ⟨⟨y, hy, hsource, hurl, -⟩, -⟩ := hagrees.plain row hrow hplain
      exact ⟨_, row, hrow, hurl.trans (congrArg some (hdistinct y (hmem y hy) x (hmem x hx) hsource).1)⟩

/-- A request for the link was accepted with its mark. -/
def AcceptedSensitive (P : Calls Url) (url : String) : Prop :=
  ∃ (n : ℕ) (x : Call) (id : JobId), P.procs[n]? = some (x, .done (some (.ok id))) ∧
    x.request.sensitive = true ∧ x.request.url = url

/-- Once a request for the link was accepted with its mark, no row holds it. -/
def KeptOff (P : Calls Url) (url : String) : Prop := AcceptedSensitive P url → ¬OnDisk P.shared url

/-- **When a sensitive link stays off the disk**, at every point of every sequence of lives: when it was
marked under every policy under which it was ever recorded without its mark. -/
theorem keptOff_iff (limits : Persistence.Limits) (lives : List Life)
    (hdistinct : DistinctSources sha256 (after U sha256 limits lives)) (url : String) :
    KeptOff (after U sha256 limits lives) url ↔ (AcceptedSensitive (after U sha256 limits lives) url →
      ∀ allowHttp, RecordedAs (after U sha256 limits lives) url allowHttp false →
        RecordedAs (after U sha256 limits lives) url allowHttp true) := by
  refine imp_congr_right fun _ ↦ ?_
  rw [onDisk_iff (ledger_after limits lives) hdistinct url, not_exists]
  exact forall_congr' fun allowHttp ↦ not_and_not_right

/-- One request, with its mark. -/
def Sample.marked : List Life :=
  [⟨Sample.service, Sample.adding 0 (Sample.request "/d/a" true true)⟩]

theorem keptOff_marked : AcceptedSensitive (after Sample.urls Sample.hashOf Sample.limits Sample.marked)
      "https://a/f" ∧
    KeptOff (after Sample.urls Sample.hashOf Sample.limits Sample.marked) "https://a/f" := by
  have hended : Sample.ended Sample.marked =
      [(⟨Sample.service, Sample.request "/d/a" true true⟩, some (some (.ok ⟨1, by decide⟩)))] := by
    decide +kernel
  have hnames := Sample.names_of_ended hended
  have hone : ∀ x ∈ (after Sample.urls Sample.hashOf Sample.limits Sample.marked).procs.map Prod.fst,
      x = ⟨Sample.service, Sample.request "/d/a" true true⟩ := by
    intro x hx
    rw [hnames] at hx
    exact List.mem_singleton.1 hx
  have hdistinct : DistinctSources Sample.hashOf
      (after Sample.urls Sample.hashOf Sample.limits Sample.marked) := by
    intro x hx x' hx' _
    rw [hone x hx, hone x' hx']
    exact ⟨rfl, rfl⟩
  refine ⟨⟨0, _, _, Sample.procs_of_ended (by rw [hended]; rfl), rfl, rfl⟩,
    (keptOff_iff Sample.limits Sample.marked hdistinct "https://a/f").2 fun _ allowHttp h ↦ ?_⟩
  obtain ⟨x, ⟨n, -, hx⟩, -, -, hunmarked⟩ := h
  rw [hone x (List.mem_of_getElem? hx)] at hunmarked
  cases hunmarked

/-- The link without its mark over HTTP, and then with its mark over HTTPS. -/
def Sample.bothPolicies : List Life :=
  [⟨Sample.service, Sample.adding 0 (Sample.request "/d/a" false true) ++
    Sample.adding 1 (Sample.request "/d/b" true false)⟩]

/-- The mark does not reach the row of the other policy. -/
theorem not_keptOff : ¬∀ (lives : List Life) (url : String),
    DistinctSources Sample.hashOf (after Sample.urls Sample.hashOf Sample.limits lives) →
      KeptOff (after Sample.urls Sample.hashOf Sample.limits lives) url := by
  intro h
  have hended : Sample.ended Sample.bothPolicies =
      [(⟨Sample.service, Sample.request "/d/a" false true⟩, some (some (.ok ⟨1, by decide⟩))),
        (⟨Sample.service, Sample.request "/d/b" true false⟩, some (some (.ok ⟨2, by decide⟩)))] := by
    decide +kernel
  have hrow : ((after Sample.urls Sample.hashOf Sample.limits
      Sample.bothPolicies).shared.references.sources.lookup
        (sourceRef Sample.hashOf "https://a/f" true)).bind (·.url) = some "https://a/f" := by
    decide +kernel
  obtain ⟨row, hrow, hurl⟩ := Option.bind_eq_some_iff.1 hrow
  refine h Sample.bothPolicies "https://a/f" ?_
    ⟨1, _, _, Sample.procs_of_ended (by rw [hended]; rfl), rfl, rfl⟩ ⟨_, row, hrow, hurl⟩
  rw [DistinctSources, Sample.names_of_ended hended]
  decide +kernel

end Daemon

end Fhd
