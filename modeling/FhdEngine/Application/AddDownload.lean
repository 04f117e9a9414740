import FhdEngine.Library.Process
import FhdEngine.Persistence.Receipts

/-!
# Exactly-once admission

`execute` of `crates/application/src/lib.rs` looks a receipt up, reserves an identifier, commits the
job with its receipt, and looks again if it lost its key to a rival. Each of these is a transaction
of its own, so any number of calls interleave with each other and with everything else the repository
does. The answer of a transaction may be lost after it took effect, and a transaction may fail
without any. The two gates answer as they like.

`exactly_once` is about every run: one job for each key, one identifier for each job, the same answer
for the same request.
-/

namespace Fhd

namespace AddDownload

open Persistence Process

/-- What `execute` calls. -/
inductive Port
  | authorize (principal : Principal) (spec : JobSpec)
  | receipt (key : ReceiptKey)
  | entitle (principal : Principal) (spec : JobSpec)
  | reserveId
  | commitAdd (unit : AddUnitOfWork)

def Port.Answer : Port → Type
  | .authorize _ _ | .entitle _ _ => Except AppError Unit
  | .receipt _ => Except AppError (Option Receipt)
  | .reserveId => Except AppError JobId
  | .commitAdd _ => Except CommitError Unit

/-- An `async fn` that returns a `Result`. -/
abbrev Service := ExceptT AppError (Prog Port Port.Answer)

def authorize (principal : Principal) (spec : JobSpec) : Service Unit :=
  ExceptT.mk (Prog.ask (Port.authorize principal spec))

def receipt (key : ReceiptKey) : Service (Option Receipt) := ExceptT.mk (Prog.ask (Port.receipt key))

def entitle (principal : Principal) (spec : JobSpec) : Service Unit :=
  ExceptT.mk (Prog.ask (Port.entitle principal spec))

def reserveId : Service JobId := ExceptT.mk (Prog.ask Port.reserveId)

def commitAdd (unit : AddUnitOfWork) : Service (Except CommitError Unit) :=
  ExceptT.lift (Prog.ask (Port.commitAdd unit))

/-- The use case. A changed entitlement must not prevent the reconciliation of a create that was
already accepted, so a replay asks the authorizer only. -/
def execute (key : ReceiptKey) (spec : JobSpec) : Service JobId := do
  authorize key.principal spec
  if let some found ← receipt key then
    return ← ExceptT.mk (pure (found.replay key spec))
  entitle key.principal spec
  let id ← reserveId
  match ← commitAdd ⟨Job.new id spec, Receipt.new key spec id⟩ with
  | .ok () => return id
  | .error .conflict =>
    match ← receipt key with
    | none => throw .corruptRepository
    | some found => ExceptT.mk (pure (found.replay key spec))
  -- a commit may have succeeded before the response was lost
  | .error .unavailable => throw .persistenceUnavailable
  | .error .capacity => throw .capacity

/-! ### The repository between the calls -/

/-- What becomes of a transaction and its answer. -/
inductive Fate
  | answered
  | lost
  | failed
deriving DecidableEq

/-- What a call of `execute` does not control: the verdict of a gate, the fate of a transaction. -/
structure Choice where
  verdict : Except AppError Unit
  fate : Fate

/-- The repository, and ghost records of what happened: which call reserved and created what, which
keys were removed, which call was refused by a gate or had a transaction fail, and whose turns it
was. -/
structure Desk where
  store : Store
  reserved : List (ℕ × JobId)
  created : List (ℕ × Receipt)
  removed : List ReceiptKey
  refused : List (ℕ × AppError)
  failed : List ℕ
  turns : List ℕ

namespace Desk

def init (limits : Limits) : Desk := ⟨Store.empty limits, [], [], [], [], [], []⟩

def fail (s : Desk) (n : ℕ) : Desk := { s with failed := s.failed ++ [n] }

/-- A gate's verdict. -/
def judge (s : Desk) (n : ℕ) : Except AppError Unit → Except AppError Unit × Desk
  | .ok () => (.ok (), s)
  | .error e => (.error e, { s with refused := s.refused ++ [(n, e)] })

/-- The end of a transaction. -/
def transact {ε α : Type} (s : Desk) (n : ℕ) (unavailable : ε) (result : Except ε (α × Desk)) :
    Fate → Except ε α × Desk
  | .failed => (.error unavailable, s.fail n)
  | .lost =>
    match result with
    | .error _ => (.error unavailable, s.fail n)
    | .ok (_, s') => (.error unavailable, s'.fail n)
  | .answered =>
    match result with
    | .error e => (.error e, s)
    | .ok (a, s') => (.ok a, s')

/-- Serves a call that is about to be made; `serve` counts the turn first. -/
def respond (n : ℕ) (s : Desk) (port : Port) (c : Choice) : port.Answer × Desk :=
  match port with
  | .authorize _ _ | .entitle _ _ => s.judge n c.verdict
  | .receipt key => s.transact n (appError .unavailable)
    (((loadReceipt s.store key).mapError appError).map fun found ↦ (found, s)) c.fate
  | .reserveId => s.transact n (appError .unavailable)
    (((Persistence.reserveId s.store).mapError appError).map fun (id, store) ↦
      (id, { s with store := store, reserved := s.reserved ++ [(n, id)] })) c.fate
  | .commitAdd unit => s.transact n (commitError .unavailable)
    (((Persistence.commitAdd s.store unit).mapError commitError).map fun store ↦
      ((), { s with store := store, created := s.created ++ [(n, unit.receipt)] })) c.fate

def serve (n : ℕ) (s : Desk) (port : Port) (c : Choice) : port.Answer × Desk :=
  respond n { s with turns := s.turns ++ [n] } port c

end Desk

/-- A transaction of somebody else. -/
inductive Transaction
  | remove (key : ReceiptKey) (expectedVersion : ℕ)
  | commitTransition (event : JobEvent)
  | commitExtents (job : JobId) (generation : Generation) (extents : List DurableExtent)
  | recordPublishIntent (intent : PublishIntent)

/-- A refused transaction changes nothing. -/
def Desk.commit (s : Desk) : Transaction → Desk
  | .remove key expectedVersion =>
    match remove s.store key expectedVersion with
    | .error _ => s
    | .ok store => { s with store := store, removed := s.removed ++ [key] }
  | .commitTransition event =>
    match transition s.store event with
    | .error _ => s
    | .ok store => { s with store := store }
  | .commitExtents job generation extents =>
    match durable s.store job generation extents with
    | .error _ => s
    | .ok store => { s with store := store }
  | .recordPublishIntent intent =>
    match intendPublish s.store intent with
    | .error _ => s
    | .ok store => { s with store := store }

/-- The arguments of a call. -/
structure Request where
  key : ReceiptKey
  spec : JobSpec
deriving DecidableEq

/-- Any number of calls, and everybody else. -/
def system : System Desk Request Port Port.Answer (Except AppError JobId) Choice Transaction where
  program x := (execute x.key x.spec).run
  serve := Desk.serve
  disturb := Desk.commit

abbrev Step := Move Request Choice Transaction

abbrev Calls := Pool Desk Request Port Port.Answer (Except AppError JobId)

/-- The state after a run from an empty repository. -/
def after (limits : Limits) (steps : List Step) : Calls := system.run ⟨Desk.init limits, []⟩ steps

/-- Call number `n`, which was called with `x`, has answered. -/
def Answered (P : Calls) (n : ℕ) (x : Request) (answer : Except AppError JobId) : Prop :=
  P.procs[n]? = some (x, .done answer)

/-! ### What the calls keep -/

namespace Desk

variable {s s' s'' : Desk} {n m : ℕ}

/-- **The records agree with the repository.** -/
structure Inv (s : Desk) : Prop where
  receipted : Receipted s.store
  reserved_nodup : (s.reserved.map (·.2)).Nodup
  reserved_le : ∀ e ∈ s.reserved, (e.2.get : ℤ) ≤ s.store.lastId
  live : ∀ e ∈ s.created, e.2.removed = false
  filed : ∀ e ∈ s.created, Filed s.store e.2 ∨ Filed s.store e.2.tombstone
  created : ∀ r, Filed s.store r → ∃ e ∈ s.created, r = e.2 ∨ r = e.2.tombstone
  own : ∀ e ∈ s.created, (e.1, e.2.job) ∈ s.reserved
  keys : (s.created.map (·.2.key)).Nodup
  jobs : (s.created.map (·.2.job)).Nodup
  removed : ∀ key ∈ s.removed, ∃ r, Filed s.store r ∧ r.key = key ∧ r.removed = true

theorem inv_init (limits : Limits) : (init limits).Inv := by
  refine ⟨receipted_empty limits, List.nodup_nil, by simp [init], by simp [init], by simp [init], ?_,
    by simp [init], List.nodup_nil, List.nodup_nil, by simp [init]⟩
  intro r h
  cases h

/-- Nothing that happened is forgotten. -/
structure Grows (s s' : Desk) : Prop where
  keeps : Keeps s.store s'.store
  reserved : s.reserved ⊆ s'.reserved
  created : s.created ⊆ s'.created
  refused : s.refused ⊆ s'.refused
  failed : s.failed ⊆ s'.failed

theorem Grows.refl (s : Desk) : Grows s s :=
  ⟨Keeps.refl _, List.Subset.refl _, List.Subset.refl _, List.Subset.refl _, List.Subset.refl _⟩

theorem Grows.trans (h : Grows s s') (h' : Grows s' s'') : Grows s s'' :=
  ⟨h.keeps.trans h'.keeps, List.Subset.trans h.reserved h'.reserved,
    List.Subset.trans h.created h'.created, List.Subset.trans h.refused h'.refused,
    List.Subset.trans h.failed h'.failed⟩

/-- What call `n` relies on: nobody else uses an identifier it reserved, creates in its name, or
takes its turn. -/
structure Rely (n : ℕ) (s s' : Desk) : Prop where
  grows : Grows s s'
  unfiled : ∀ id, (n, id) ∈ s.reserved → Unfiled s.store id → Unfiled s'.store id
  turns : s'.turns.count n = s.turns.count n
  created : ∀ r, (n, r) ∈ s'.created → (n, r) ∈ s.created

theorem Rely.refl (n : ℕ) (s : Desk) : Rely n s s :=
  ⟨Grows.refl s, fun _ _ h ↦ h, rfl, fun _ h ↦ h⟩

theorem Rely.trans (h : Rely n s s') (h' : Rely n s' s'') : Rely n s s'' :=
  ⟨h.grows.trans h'.grows, fun id hid hu ↦ h'.unfiled id (h.grows.reserved hid) (h.unfiled id hid hu),
    h'.turns.trans h.turns, fun r hr ↦ h.created r (h'.created r hr)⟩

/-- What call `n` guarantees: what the others rely on, and that it makes six calls at most. -/
structure Guarantee (n : ℕ) (s s' : Desk) : Prop where
  others : ∀ m, m ≠ n → Rely m s s'
  turns : s'.turns.count n ≤ 6

/-- One turn of call `n`. -/
structure Turn (n : ℕ) (s s' : Desk) : Prop where
  inv : s'.Inv
  grows : Grows s s'
  others : ∀ m, m ≠ n → Rely m s s'
  turns : s'.turns.count n = s.turns.count n + 1

theorem Turn.guarantee (h : Turn n s s') (hturns : s.turns.count n < 6) : Guarantee n s s' :=
  ⟨h.others, by rw [h.turns]; omega⟩

/-- A turn that only takes note of a refusal or a failure. -/
theorem turn_of_same (hs : s.Inv) (hstore : s'.store = s.store) (hreserved : s'.reserved = s.reserved)
    (hcreated : s'.created = s.created) (hremoved : s'.removed = s.removed)
    (hrefused : s.refused ⊆ s'.refused) (hfailed : s.failed ⊆ s'.failed)
    (hturns : s'.turns = s.turns ++ [n]) : Turn n s s' := by
  have hgrows : Grows s s' := by
    refine ⟨?_, hreserved.symm ▸ List.Subset.refl _, hcreated.symm ▸ List.Subset.refl _, hrefused,
      hfailed⟩
    rw [hstore]
    exact Keeps.refl _
  refine ⟨?_, hgrows, fun m hm ↦ ⟨hgrows, ?_, ?_, ?_⟩, ?_⟩
  · obtain ⟨h₁, h₂, h₃, h₄, h₅, h₆, h₇, h₈, h₉, h₁₀⟩ := hs
    constructor <;> simpa only [hstore, hreserved, hcreated, hremoved]
  · intro id _ hu
    rwa [hstore]
  · rw [hturns, List.count_append, List.count_singleton]
    simp [Ne.symm hm]
  · intro r hr
    rwa [← hcreated]
  · rw [hturns, List.count_append, List.count_singleton]
    simp

theorem count_turns (l : List ℕ) (n : ℕ) : (l ++ [n]).count n = l.count n + 1 := by
  rw [List.count_append, List.count_singleton_self]

theorem count_turns_ne (l : List ℕ) (h : m ≠ n) : (l ++ [n]).count m = l.count m := by
  rw [List.count_append, List.count_singleton]
  simp [Ne.symm h]

/-- **A reserved identifier is new**, so its holder may count on it. -/
theorem turn_reserve (hs : s.Inv) {id : JobId} {store : Store}
    (h : Persistence.reserveId s.store = .ok (id, store)) :
    Turn n s { s with store := store, reserved := s.reserved ++ [(n, id)], turns := s.turns ++ [n] } ∧
      Unfiled store id := by
  obtain ⟨hreceipted, hkeeps, hlt, hlast, hsame⟩ := hs.receipted.reserveId h
  have hfiled : ∀ r, Filed store r ↔ Filed s.store r := fun r ↦ by rw [Filed, Filed, hsame]
  have hunfiled : Unfiled store id := by
    intro r hr heq
    have := hs.receipted.reserved r ((hfiled r).1 hr)
    rw [heq] at this
    omega
  have hnew : id ∉ s.reserved.map (·.2) := by
    intro hmem
    obtain ⟨e, he, rfl⟩ := List.mem_map.1 hmem
    have := hs.reserved_le e he
    omega
  have hgrows : Grows s { s with
      store := store, reserved := s.reserved ++ [(n, id)], turns := s.turns ++ [n] } :=
    ⟨hkeeps, List.subset_append_left _ _, List.Subset.refl _, List.Subset.refl _, List.Subset.refl _⟩
  refine ⟨⟨?_, hgrows, fun m hm ↦ ⟨hgrows, fun id' _ hu r hr ↦ hu r ((hfiled r).1 hr),
    count_turns_ne _ hm, fun r hr ↦ hr⟩, count_turns _ n⟩, hunfiled⟩
  constructor
  case receipted => exact hreceipted
  case reserved_nodup =>
    rw [List.map_append]
    exact List.nodup_append.2 ⟨hs.reserved_nodup, List.nodup_singleton _, fun a ha b hb ↦ by
      rw [List.mem_singleton.1 hb]
      rintro rfl
      exact hnew ha⟩
  case reserved_le =>
    intro e he
    rcases List.mem_append.1 he with he | he
    · exact (hs.reserved_le e he).trans hkeeps.sequence
    · rw [List.mem_singleton.1 he]
      exact hlast.le
  case live => exact hs.live
  case filed =>
    intro e he
    exact (hs.filed e he).imp (hfiled _).2 (hfiled _).2
  case created => exact fun r hr ↦ hs.created r ((hfiled r).1 hr)
  case own => exact fun e he ↦ List.mem_append_left _ (hs.own e he)
  case keys => exact hs.keys
  case jobs => exact hs.jobs
  case removed =>
    intro key hkey
    obtain ⟨r, hr, hrest⟩ := hs.removed key hkey
    exact ⟨r, (hfiled r).2 hr, hrest⟩

/-- **A commit with an identifier of one's own** leaves the identifiers of the others alone. -/
theorem turn_commit (hs : s.Inv) {unit : AddUnitOfWork} {store : Store}
    (hlive : unit.receipt.removed = false) (hown : (n, unit.receipt.job) ∈ s.reserved)
    (h : Persistence.commitAdd s.store unit = .ok store) :
    Turn n s { s with
      store := store, created := s.created ++ [(n, unit.receipt)], turns := s.turns ++ [n] } := by
  obtain ⟨hreceipted, hkeeps, hkey, hunfiled, hfiled⟩ := hs.receipted.commitAdd hlive h
  have hlast : store.lastId = s.store.lastId := by rw [(commitAdd_eq_ok h).2.2.2.2.2.2]
  have hgrows : Grows s { s with
      store := store, created := s.created ++ [(n, unit.receipt)], turns := s.turns ++ [n] } :=
    ⟨hkeeps, List.Subset.refl _, List.subset_append_left _ _, List.Subset.refl _, List.Subset.refl _⟩
  -- two calls never hold the same identifier
  have hholder : ∀ m, m ≠ n → (m, unit.receipt.job) ∉ s.reserved := by
    intro m hm hmem
    have := List.inj_on_of_nodup_map hs.reserved_nodup hmem hown rfl
    exact hm (congrArg Prod.fst this)
  refine ⟨?_, hgrows, fun m hm ↦ ⟨hgrows, ?_, count_turns_ne _ hm, ?_⟩, count_turns _ n⟩
  · constructor
    case receipted => exact hreceipted
    case reserved_nodup => exact hs.reserved_nodup
    case reserved_le =>
      intro e he
      rw [hlast]
      exact hs.reserved_le e he
    case live =>
      intro e he
      rcases List.mem_append.1 he with he | he
      · exact hs.live e he
      · rw [List.mem_singleton.1 he]
        exact hlive
    case filed =>
      intro e he
      rcases List.mem_append.1 he with he | he
      · exact (hs.filed e he).imp (fun h ↦ (hfiled _).2 (Or.inl h)) fun h ↦ (hfiled _).2 (Or.inl h)
      · rw [List.mem_singleton.1 he]
        exact Or.inl ((hfiled _).2 (Or.inr rfl))
    case created =>
      intro r hr
      rcases (hfiled r).1 hr with hr | rfl
      · obtain ⟨e, he, hrest⟩ := hs.created r hr
        exact ⟨e, List.mem_append_left _ he, hrest⟩
      · exact ⟨_, List.mem_append_right _ (List.mem_singleton_self _), Or.inl rfl⟩
    case own =>
      intro e he
      rcases List.mem_append.1 he with he | he
      · exact hs.own e he
      · rw [List.mem_singleton.1 he]
        exact hown
    case keys =>
      rw [List.map_append]
      refine List.nodup_append.2 ⟨hs.keys, List.nodup_singleton _, fun a ha b hb ↦ ?_⟩
      rw [List.mem_singleton.1 hb]
      rintro rfl
      obtain ⟨e, he, heq⟩ := List.mem_map.1 ha
      have hnone : s.store.receipts.lookup e.2.key = none := by
        rw [heq]
        exact hkey
      rcases hs.filed e he with hf | hf
      · rw [Filed, hnone] at hf
        cases hf
      · have hf' : s.store.receipts.lookup e.2.key = _ := hf
        rw [hnone] at hf'
        cases hf'
    case jobs =>
      rw [List.map_append]
      refine List.nodup_append.2 ⟨hs.jobs, List.nodup_singleton _, fun a ha b hb ↦ ?_⟩
      rw [List.mem_singleton.1 hb]
      rintro rfl
      obtain ⟨e, he, heq⟩ := List.mem_map.1 ha
      rcases hs.filed e he with hf | hf
      · exact hunfiled _ hf heq
      · exact hunfiled _ hf heq
    case removed =>
      intro key hk
      obtain ⟨r, hr, hrest⟩ := hs.removed key hk
      exact ⟨r, (hfiled r).2 (Or.inl hr), hrest⟩
  · intro id hid hu r hr
    rcases (hfiled r).1 hr with hr | rfl
    · exact hu r hr
    · rintro rfl
      exact hholder m hm hid
  · intro r hr
    rcases List.mem_append.1 hr with hr | hr
    · exact hr
    · exact absurd (congrArg Prod.fst (List.mem_singleton.1 hr)) hm

/-- A turn whose answer is lost. -/
theorem Turn.fail (h : Turn n s s') : Turn n s (s'.fail n) := by
  have hgrows : Grows s (s'.fail n) :=
    ⟨h.grows.keeps, h.grows.reserved, h.grows.created, h.grows.refused,
      List.Subset.trans h.grows.failed (List.subset_append_left _ _)⟩
  refine ⟨⟨h.inv.receipted, h.inv.reserved_nodup, h.inv.reserved_le, h.inv.live, h.inv.filed,
    h.inv.created, h.inv.own, h.inv.keys, h.inv.jobs, h.inv.removed⟩, hgrows, fun m hm ↦ ?_, h.turns⟩
  have := h.others m hm
  exact ⟨hgrows, this.unfiled, this.turns, this.created⟩

/-! ### What a turn answers -/

/-- A turn that fails without any effect. -/
theorem turn_failed (hs : s.Inv) : Turn n s ({ s with turns := s.turns ++ [n] }.fail n) :=
  turn_of_same hs rfl rfl rfl rfl (List.Subset.refl _) (List.subset_append_left _ _) rfl

theorem mem_failed (s : Desk) (n : ℕ) : n ∈ (s.fail n).failed := by simp [fail]

/-- The three ends of a transaction. -/
theorem transact_cases {ε α : Type} (s : Desk) (n : ℕ) (unavailable : ε)
    (result : Except ε (α × Desk)) (fate : Fate) :
    (∃ s', (s' = s ∨ ∃ a, result = .ok (a, s')) ∧
      s.transact n unavailable result fate = (.error unavailable, s'.fail n)) ∨
    (∃ e, result = .error e ∧ s.transact n unavailable result fate = (.error e, s)) ∨
    ∃ a s', result = .ok (a, s') ∧ s.transact n unavailable result fate = (.ok a, s') := by
  cases fate with
  | failed => exact Or.inl ⟨s, Or.inl rfl, rfl⟩
  | lost =>
    rcases result with e | ⟨a, s'⟩
    · exact Or.inl ⟨s, Or.inl rfl, rfl⟩
    · exact Or.inl ⟨s', Or.inr ⟨a, rfl⟩, rfl⟩
  | answered =>
    rcases result with e | ⟨a, s'⟩
    · exact Or.inr (Or.inl ⟨e, rfl, rfl⟩)
    · exact Or.inr (Or.inr ⟨a, s', rfl, rfl⟩)

theorem turn_judge (hs : s.Inv) (verdict : Except AppError Unit) :
    Turn n s ({ s with turns := s.turns ++ [n] }.judge n verdict).2 ∧
      ∀ e, ({ s with turns := s.turns ++ [n] }.judge n verdict).1 = .error e →
        (n, e) ∈ ({ s with turns := s.turns ++ [n] }.judge n verdict).2.refused := by
  rcases verdict with e | ⟨⟩
  · refine ⟨turn_of_same hs rfl rfl rfl rfl (List.subset_append_left _ _) (List.Subset.refl _) rfl,
      fun e' he' ↦ ?_⟩
    cases he'
    simp [judge]
  · refine ⟨turn_of_same hs rfl rfl rfl rfl (List.Subset.refl _) (List.Subset.refl _) rfl,
      fun e' he' ↦ ?_⟩
    cases he'

/-- **A lookup never finds the repository corrupt.** -/
theorem turn_receipt (hs : s.Inv) (key : ReceiptKey) (c : Choice) :
    Turn n s (serve n s (.receipt key) c).2 ∧ (serve n s (.receipt key) c).2.store = s.store ∧
      (serve n s (.receipt key) c).2.created = s.created ∧
      ((serve n s (.receipt key) c).1 = .error .persistenceUnavailable ∧
          n ∈ (serve n s (.receipt key) c).2.failed ∨
        (serve n s (.receipt key) c).1 = .ok none ∧ s.store.receipts.lookup key = none ∨
        ∃ r, r.key = key ∧ Filed s.store r ∧ (serve n s (.receipt key) c).1 = .ok (some r)) := by
  have hnoted : Turn n s { s with turns := s.turns ++ [n] } :=
    turn_of_same hs rfl rfl rfl rfl (List.Subset.refl _) (List.Subset.refl _) rfl
  simp only [serve, respond]
  rcases transact_cases { s with turns := s.turns ++ [n] } n (appError .unavailable)
    (((loadReceipt s.store key).mapError appError).map fun found ↦
      (found, { s with turns := s.turns ++ [n] })) c.fate with
    ⟨s', hs', heq⟩ | ⟨e, hresult, heq⟩ | ⟨found, s', hresult, heq⟩
  · have hsame : s' = { s with turns := s.turns ++ [n] } := by
      rcases hs' with rfl | ⟨a, ha⟩
      · rfl
      · rcases hl : loadReceipt s.store key with e | found <;> rw [hl] at ha <;> cases ha
        rfl
    rw [heq, hsame]
    exact ⟨hnoted.fail, rfl, rfl, Or.inl ⟨rfl, mem_failed _ n⟩⟩
  · rcases hs.receipted.loadReceipt key with ⟨-, hl⟩ | ⟨r, -, -, hl⟩ <;> rw [hl] at hresult <;>
      cases hresult
  · rw [heq]
    rcases hs.receipted.loadReceipt key with ⟨hnone, hl⟩ | ⟨r, hkey, hr, hl⟩ <;> rw [hl] at hresult <;>
      cases hresult
    · exact ⟨hnoted, rfl, rfl, Or.inr (Or.inl ⟨rfl, hnone⟩)⟩
    · exact ⟨hnoted, rfl, rfl, Or.inr (Or.inr ⟨r, hkey, hr, rfl⟩)⟩

theorem turn_reserveId (hs : s.Inv) (c : Choice) :
    Turn n s (serve n s .reserveId c).2 ∧
      ((∃ e, (serve n s .reserveId c).1 = .error e ∧ e ≠ .corruptRepository) ∨
        ∃ id, (serve n s .reserveId c).1 = .ok id ∧
          (n, id) ∈ (serve n s .reserveId c).2.reserved ∧
          Unfiled (serve n s .reserveId c).2.store id) := by
  have hnoted : Turn n s { s with turns := s.turns ++ [n] } :=
    turn_of_same hs rfl rfl rfl rfl (List.Subset.refl _) (List.Subset.refl _) rfl
  simp only [serve, respond]
  rcases transact_cases { s with turns := s.turns ++ [n] } n (appError .unavailable)
    (((Persistence.reserveId s.store).mapError appError).map fun (id, store) ↦
      (id, { s with
        store := store, reserved := s.reserved ++ [(n, id)], turns := s.turns ++ [n] })) c.fate with
    ⟨s', hs', heq⟩ | ⟨e, hresult, heq⟩ | ⟨id, s', hresult, heq⟩
  · rw [heq]
    refine ⟨?_, Or.inl ⟨_, rfl, by decide⟩⟩
    rcases hs' with rfl | ⟨a, ha⟩
    · exact hnoted.fail
    · rcases hr : Persistence.reserveId s.store with e | ⟨id, store⟩ <;> rw [hr] at ha <;> cases ha
      exact (turn_reserve hs hr).1.fail
  · rw [heq]
    refine ⟨hnoted, Or.inl ⟨e, rfl, ?_⟩⟩
    rcases hr : Persistence.reserveId s.store with e' | ⟨id, store⟩ <;> rw [hr] at hresult <;>
      cases hresult
    rw [hs.receipted.reserveId_eq_error hr]
    decide
  · rw [heq]
    rcases hr : Persistence.reserveId s.store with e' | ⟨id, store⟩ <;> rw [hr] at hresult <;>
      cases hresult
    obtain ⟨hturn, hunfiled⟩ := turn_reserve (n := n) hs hr
    exact ⟨hturn, Or.inr ⟨id, rfl, by simp, hunfiled⟩⟩

/-- **A commit that conflicts has lost its key**, for nobody else has its identifier. -/
theorem turn_commitAdd (hs : s.Inv) (unit : AddUnitOfWork) (hlive : unit.receipt.removed = false)
    (hjob : unit.job.id = unit.receipt.job) (hown : (n, unit.receipt.job) ∈ s.reserved)
    (hunfiled : Unfiled s.store unit.receipt.job) (c : Choice) :
    Turn n s (serve n s (.commitAdd unit) c).2 ∧
      ((serve n s (.commitAdd unit) c).1 = .ok () ∧
          (n, unit.receipt) ∈ (serve n s (.commitAdd unit) c).2.created ∨
        (serve n s (.commitAdd unit) c).1 = .error .conflict ∧
          (∃ r, r.key = unit.receipt.key ∧ Filed (serve n s (.commitAdd unit) c).2.store r) ∨
        (serve n s (.commitAdd unit) c).1 = .error .unavailable ∨
        (serve n s (.commitAdd unit) c).1 = .error .capacity) := by
  have hnoted : Turn n s { s with turns := s.turns ++ [n] } :=
    turn_of_same hs rfl rfl rfl rfl (List.Subset.refl _) (List.Subset.refl _) rfl
  simp only [serve, respond]
  rcases transact_cases { s with turns := s.turns ++ [n] } n (commitError .unavailable)
    (((Persistence.commitAdd s.store unit).mapError commitError).map fun store ↦
      ((), { s with
        store := store, created := s.created ++ [(n, unit.receipt)], turns := s.turns ++ [n] }))
    c.fate with ⟨s', hs', heq⟩ | ⟨e, hresult, heq⟩ | ⟨⟨⟩, s', hresult, heq⟩
  · rw [heq]
    refine ⟨?_, Or.inr (Or.inr (Or.inl rfl))⟩
    rcases hs' with rfl | ⟨a, ha⟩
    · exact hnoted.fail
    · rcases hr : Persistence.commitAdd s.store unit with e | store <;> rw [hr] at ha <;> cases ha
      exact (turn_commit hs hlive hown hr).fail
  · rw [heq]
    refine ⟨hnoted, Or.inr ?_⟩
    rcases hr : Persistence.commitAdd s.store unit with e' | store <;> rw [hr] at hresult <;>
      cases hresult
    by_cases hconflict : e' = .conflict
    · subst hconflict
      have hlookup := hs.receipted.commitAdd_conflict (by rw [hjob]; exact hunfiled) hr
      obtain ⟨row, hrow⟩ := Option.ne_none_iff_exists'.1 hlookup
      obtain ⟨r, hkey, hof⟩ := hs.receipted.filed _ row hrow
      exact Or.inl ⟨rfl, r, hkey, by rw [Filed, hkey, hrow, hof]⟩
    · cases e' with
      | conflict => exact absurd rfl hconflict
      | capacity => exact Or.inr (Or.inr rfl)
      | _ => exact Or.inr (Or.inl rfl)
  · rw [heq]
    rcases hr : Persistence.commitAdd s.store unit with e' | store <;> rw [hr] at hresult <;>
      cases hresult
    exact ⟨turn_commit hs hlive hown hr, Or.inl ⟨rfl, by simp⟩⟩

/-- Every turn is counted. -/
theorem turns_serve (n : ℕ) (s : Desk) (port : Port) (c : Choice) :
    (serve n s port c).2.turns = s.turns ++ [n] := by
  obtain ⟨verdict, fate⟩ := c
  cases port with
  | authorize | entitle => rcases verdict with e | ⟨⟩ <;> rfl
  | receipt key =>
    rcases hl : loadReceipt s.store key with e | found <;> cases fate <;>
      simp only [serve, respond, hl] <;> rfl
  | reserveId =>
    rcases hr : Persistence.reserveId s.store with e | ⟨id, store⟩ <;> cases fate <;>
      simp only [serve, respond, hr] <;> rfl
  | commitAdd unit =>
    rcases hr : Persistence.commitAdd s.store unit with e | store <;> cases fate <;>
      simp only [serve, respond, hr] <;> rfl

/-! ### Everybody else -/

/-- A transaction that leaves the receipts as they are. -/
theorem Inv.congr (hs : s.Inv) {store : Store} (hreceipted : Receipted store)
    (hreceipts : store.receipts = s.store.receipts) (hlast : store.lastId = s.store.lastId) :
    { s with store := store }.Inv ∧ ∀ n, Rely n s { s with store := store } := by
  have hfiled : ∀ r, Filed store r ↔ Filed s.store r := fun r ↦ by rw [Filed, Filed, hreceipts]
  have hgrows : Grows s { s with store := store } :=
    ⟨⟨hlast.ge, fun r hr ↦ Or.inl ((hfiled r).2 hr)⟩, List.Subset.refl _, List.Subset.refl _,
      List.Subset.refl _, List.Subset.refl _⟩
  refine ⟨?_, fun n ↦ ⟨hgrows, fun id _ hu r hr ↦ hu r ((hfiled r).1 hr), rfl, fun r hr ↦ hr⟩⟩
  refine ⟨hreceipted, hs.reserved_nodup, fun e he ↦ ?_, hs.live, fun e he ↦ ?_, fun r hr ↦ ?_, hs.own,
    hs.keys, hs.jobs, fun key hkey ↦ ?_⟩
  · rw [hlast]
    exact hs.reserved_le e he
  · exact (hs.filed e he).imp (hfiled _).2 (hfiled _).2
  · exact hs.created r ((hfiled r).1 hr)
  · obtain ⟨r, hr, hrest⟩ := hs.removed key hkey
    exact ⟨r, (hfiled r).2 hr, hrest⟩

/-- Removal leaves a tombstone behind. -/
theorem Inv.remove (hs : s.Inv) {key : ReceiptKey} {expectedVersion : ℕ} {store : Store}
    (h : Persistence.remove s.store key expectedVersion = .ok store) :
    { s with store := store, removed := s.removed ++ [key] }.Inv ∧
      ∀ n, Rely n s { s with store := store, removed := s.removed ++ [key] } := by
  obtain ⟨hreceipted, hkeeps, r, rfl, hr, hfiled⟩ := hs.receipted.remove h
  have hlast : store.lastId = s.store.lastId := by
    obtain ⟨saved, row, -, -, -, heq⟩ := remove_eq_ok h
    rw [heq]
  have hgrows : Grows s { s with store := store, removed := s.removed ++ [r.key] } :=
    ⟨hkeeps, List.Subset.refl _, List.Subset.refl _, List.Subset.refl _, List.Subset.refl _⟩
  -- the tombstone of the one receipt that changed names the same job
  have hold : ∀ r', Filed store r' → ∃ r₀, Filed s.store r₀ ∧ (r' = r₀ ∨ r' = r₀.tombstone) := by
    intro r' hr'
    rcases (hfiled r').1 hr' with ⟨hr', -⟩ | rfl
    · exact ⟨r', hr', Or.inl rfl⟩
    · exact ⟨r, hr, Or.inr rfl⟩
  refine ⟨?_, fun n ↦ ⟨hgrows, fun id _ hu r' hr' ↦ ?_, rfl, fun r hr ↦ hr⟩⟩
  · refine ⟨hreceipted, hs.reserved_nodup, fun e he ↦ ?_, hs.live, fun e he ↦ ?_, fun r' hr' ↦ ?_,
      hs.own, hs.keys, hs.jobs, fun key hkey ↦ ?_⟩
    · rw [hlast]
      exact hs.reserved_le e he
    · rcases hs.filed e he with hf | hf
      · exact hkeeps.filed _ hf
      · exact Or.inr ((hkeeps.filed _ hf).elim (fun h ↦ h) fun h ↦ h)
    · obtain ⟨r₀, hr₀, heq⟩ := hold r' hr'
      obtain ⟨e, he, hcase⟩ := hs.created r₀ hr₀
      refine ⟨e, he, ?_⟩
      rcases heq with rfl | rfl
      · exact hcase
      · rcases hcase with h | h <;> rw [h]
        · exact Or.inr rfl
        · exact Or.inr rfl
    · rcases List.mem_append.1 hkey with hkey | hkey
      · obtain ⟨r', hr', hk, hremoved⟩ := hs.removed key hkey
        rcases hkeeps.filed r' hr' with hf | hf
        · exact ⟨r', hf, hk, hremoved⟩
        · exact ⟨_, hf, hk, rfl⟩
      · rw [List.mem_singleton.1 hkey]
        exact ⟨r.tombstone, (hfiled _).2 (Or.inr rfl), rfl, rfl⟩
  · obtain ⟨r₀, hr₀, heq⟩ := hold r' hr'
    rcases heq with rfl | rfl
    · exact hu _ hr₀
    · exact hu r₀ hr₀

/-- **Every other transaction is one that calls may rely on.** -/
theorem Inv.commit (hs : s.Inv) (transaction : Transaction) :
    (s.commit transaction).Inv ∧ ∀ n, Rely n s (s.commit transaction) := by
  cases transaction with
  | remove key expectedVersion =>
    rcases h : Persistence.remove s.store key expectedVersion with e | store <;>
      simp only [Desk.commit, h]
    · exact ⟨hs, fun n ↦ Rely.refl n s⟩
    · exact hs.remove h
  | commitTransition event =>
    rcases h : transition s.store event with e | store <;> simp only [Desk.commit, h]
    · exact ⟨hs, fun n ↦ Rely.refl n s⟩
    · obtain ⟨row, now, plan, durable, state, ht⟩ := transition_eq_ok h
      refine hs.congr (hs.receipted.transition h).1 ?_ ?_ <;> rw [ht.eq]
  | commitExtents job generation extents =>
    rcases h : durable s.store job generation extents with e | store <;> simp only [Desk.commit, h]
    · exact ⟨hs, fun n ↦ Rely.refl n s⟩
    · obtain ⟨row, now, total, maximum, existing, fresh, hh⟩ := durable_eq_ok h
      refine hs.congr (hs.receipted.durable h).1 ?_ ?_ <;> rw [hh.eq]
  | recordPublishIntent intent =>
    rcases h : intendPublish s.store intent with e | store <;> simp only [Desk.commit, h]
    · exact ⟨hs, fun n ↦ Rely.refl n s⟩
    · obtain ⟨now, maximum, -, -, -, -, heq⟩ := intendPublish_eq_ok h
      refine hs.congr (hs.receipted.intendPublish h).1 ?_ ?_ <;> rw [heq]

end Desk

/-! ### Every call among all others -/

/-- What an answer of call `n` says. A gate may answer what it likes. -/
def Answers (n : ℕ) (x : Request) (answer : Except AppError JobId) (s : Desk) : Prop :=
  match answer with
  | .ok id => ∃ e ∈ s.created, e.2.key = x.key ∧ e.2.original = x.spec ∧ e.2.job = id
  | .error .corruptRepository => (n, .corruptRepository) ∈ s.refused
  | .error _ => True

def discipline : Discipline Desk Request (Except AppError JobId) where
  inv := Desk.Inv
  fresh n s := s.turns.count n = 0 ∧ ∀ r, (n, r) ∉ s.created
  rely := Desk.Rely
  guarantee := Desk.Guarantee
  post := Answers

variable {s s' : Desk} {n : ℕ} {x : Request}

theorem Answers.mono {answer : Except AppError JobId} (h : Answers n x answer s)
    (hs : Desk.Grows s s') : Answers n x answer s' := by
  rcases answer with e | id
  · cases e with
    | corruptRepository => exact hs.refused h
    | _ => trivial
  · obtain ⟨e, he, hrest⟩ := h
    exact ⟨e, hs.created he, hrest⟩

/-- **A replayed receipt** answers with the job it names, and never that it is corrupt. -/
theorem answers_replay (hs : s.Inv) {r : Receipt} (hr : Filed s.store r) (hkey : r.key = x.key) :
    Answers n x (r.replay x.key x.spec) s := by
  unfold Receipt.replay
  rw [if_neg (not_not.2 hkey)]
  split
  · trivial
  next hspec =>
    split
    · trivial
    next hremoved =>
      obtain ⟨e, he, heq⟩ := hs.created r hr
      refine ⟨e, he, ?_⟩
      rcases heq with rfl | rfl
      · exact ⟨hkey, not_not.1 hspec, rfl⟩
      · exact absurd rfl hremoved

/-- The judgement of a call. -/
abbrev Sound (n : ℕ) (x : Request) : Prog Port Port.Answer (Except AppError JobId) → Desk → Prop :=
  Safe (Desk.serve n) Desk.Inv (Desk.Rely n) (Desk.Guarantee n) (Answers n x)

theorem sound_done {answer : Except AppError JobId} (h : Answers n x answer s) :
    Sound n x (.done answer) s :=
  fun _ hs' _ ↦ h.mono hs'.grows

/-- A gate refuses in its own words. -/
theorem answers_refused {e : AppError} (h : (n, e) ∈ s.refused) : Answers n x (.error e) s := by
  cases e with
  | corruptRepository => exact h
  | _ => trivial

theorem answers_error {e : AppError} (h : e ≠ .corruptRepository) : Answers n x (.error e) s := by
  cases e with
  | corruptRepository => exact absurd rfl h
  | _ => trivial

/-! One rule for each call `execute` makes, with `k` calls made before it. -/

section Rules

variable {k : ℕ} (hk : k < 6) (hturns : s.turns.count n = k)
include hk hturns

/-- One turn of a call that has turns left. -/
theorem sound_call {port : Port} {next : port.Answer → Prog Port Port.Answer (Except AppError JobId)}
    (h : ∀ s', Desk.Rely n s s' → s'.Inv → ∀ c, Desk.Turn n s' (Desk.serve n s' port c).2 ∧
      ((Desk.serve n s' port c).2.Inv → (Desk.serve n s' port c).2.turns.count n = k + 1 →
        Sound n x (next (Desk.serve n s' port c).1) (Desk.serve n s' port c).2)) :
    Sound n x (.call port next) s := by
  intro s' hs' hinv c
  obtain ⟨hturn, hnext⟩ := h s' hs' hinv c
  have hcount : s'.turns.count n = k := hs'.turns.trans hturns
  refine ⟨hturn.inv, hturn.guarantee (by omega), hnext hturn.inv ?_⟩
  rw [hturn.turns, hcount]

/-- Both gates: a refusal is handed on. -/
theorem sound_judge {port : Port} {next : port.Answer → Prog Port Port.Answer (Except AppError JobId)}
    (answer : Except AppError Unit → port.Answer)
    (hserve : ∀ s c, Desk.serve n s port c =
      ((answer ({ s with turns := s.turns ++ [n] }.judge n c.verdict).1),
        ({ s with turns := s.turns ++ [n] }.judge n c.verdict).2))
    (hok : ∀ s', s'.Inv → s'.turns.count n = k + 1 → Sound n x (next (answer (.ok ()))) s')
    (herror : ∀ e, next (answer (.error e)) = .done (.error e)) :
    Sound n x (.call port next) s := by
  refine sound_call hk hturns fun s' hs' hinv c ↦ ?_
  rw [hserve]
  obtain ⟨hturn, hrefused⟩ := Desk.turn_judge (n := n) hinv c.verdict
  refine ⟨hturn, fun hinv' hcount ↦ ?_⟩
  rcases hv : ({ s' with turns := s'.turns ++ [n] }.judge n c.verdict).1 with e | ⟨⟩
  · show Sound n x (next (answer _)) _
    rw [hv, herror]
    exact sound_done (answers_refused (hrefused e hv))
  · show Sound n x (next (answer _)) _
    rw [hv]
    exact hok _ hinv' hcount

theorem sound_authorize {principal : Principal} {spec : JobSpec} {f : Unit → Service JobId}
    (h : ∀ s', s'.Inv → s'.turns.count n = k + 1 → Sound n x (f ()).run s') :
    Sound n x (authorize principal spec >>= f).run s :=
  sound_judge hk hturns (fun a ↦ a) (fun _ _ ↦ rfl) h fun _ ↦ rfl

theorem sound_entitle {principal : Principal} {spec : JobSpec} {f : Unit → Service JobId}
    (h : ∀ s', s'.Inv → s'.turns.count n = k + 1 → Sound n x (f ()).run s') :
    Sound n x (entitle principal spec >>= f).run s :=
  sound_judge hk hturns (fun a ↦ a) (fun _ _ ↦ rfl) h fun _ ↦ rfl

/-- A lookup. A receipt that was there before is found, if anything answers at all. -/
theorem sound_receipt {key : ReceiptKey} {f : Option Receipt → Service JobId}
    (hnone : (∀ r, Filed s.store r → r.key ≠ key) → ∀ s', s'.Inv → s'.turns.count n = k + 1 →
      Sound n x (f none).run s')
    (hsome : ∀ s' r, s'.Inv → s'.turns.count n = k + 1 → Filed s'.store r → r.key = key →
      Sound n x (f (some r)).run s') :
    Sound n x (receipt key >>= f).run s := by
  refine sound_call hk hturns fun s' hs' hinv c ↦ ?_
  obtain ⟨hturn, hstore, -, hanswer⟩ := Desk.turn_receipt (n := n) hinv key c
  refine ⟨hturn, fun hinv' hcount ↦ ?_⟩
  rcases hanswer with ⟨heq, -⟩ | ⟨heq, hlookup⟩ | ⟨r, hkey, hr, heq⟩ <;> rw [heq]
  · exact sound_done trivial
  · refine hnone (fun r hr hkey ↦ ?_) _ hinv' hcount
    have hgone : ∀ r', Filed s'.store r' → r'.key ≠ key := by
      intro r' hr' hkey'
      rw [Filed, hkey', hlookup] at hr'
      cases hr'
    exact (hs'.grows.keeps.filed r hr).elim (fun h ↦ hgone r h hkey) fun h ↦ hgone _ h hkey
  · rw [← hstore] at hr
    exact hsome _ r hinv' hcount hr hkey

theorem sound_reserveId {f : JobId → Service JobId}
    (h : ∀ s' id, s'.Inv → s'.turns.count n = k + 1 → (n, id) ∈ s'.reserved →
      Unfiled s'.store id → Sound n x (f id).run s') :
    Sound n x (reserveId >>= f).run s := by
  refine sound_call hk hturns fun s' hs' hinv c ↦ ?_
  obtain ⟨hturn, hanswer⟩ := Desk.turn_reserveId (n := n) hinv c
  refine ⟨hturn, fun hinv' hcount ↦ ?_⟩
  rcases hanswer with ⟨e, heq, he⟩ | ⟨id, heq, hown, hunfiled⟩ <;> rw [heq]
  · exact sound_done (answers_error he)
  · exact h _ id hinv' hcount hown hunfiled

/-- A commit under an identifier that is the call's own. -/
theorem sound_commitAdd {unit : AddUnitOfWork} {f : Except CommitError Unit → Service JobId}
    (hlive : unit.receipt.removed = false) (hjob : unit.job.id = unit.receipt.job)
    (hown : (n, unit.receipt.job) ∈ s.reserved) (hunfiled : Unfiled s.store unit.receipt.job)
    (hok : ∀ s', (n, unit.receipt) ∈ s'.created → Sound n x (f (.ok ())).run s')
    (hconflict : ∀ s' r, s'.turns.count n = k + 1 → Filed s'.store r → r.key = unit.receipt.key →
      Sound n x (f (.error .conflict)).run s')
    (hunavailable : ∀ s', Sound n x (f (.error .unavailable)).run s')
    (hcapacity : ∀ s', Sound n x (f (.error .capacity)).run s') :
    Sound n x (commitAdd unit >>= f).run s := by
  refine sound_call hk hturns fun s' hs' hinv c ↦ ?_
  obtain ⟨hturn, hanswer⟩ := Desk.turn_commitAdd hinv unit hlive hjob (hs'.grows.reserved hown)
    (hs'.unfiled _ hown hunfiled) c
  refine ⟨hturn, fun hinv' hcount ↦ ?_⟩
  rcases hanswer with ⟨heq, hcreated⟩ | ⟨heq, r, hkey, hr⟩ | heq | heq <;> rw [heq]
  · exact hok _ hcreated
  · exact hconflict _ r hcount hr hkey
  · exact hunavailable _
  · exact hcapacity _

end Rules

/-- **A call keeps the discipline**, from wherever it starts. -/
theorem sound_execute (hfresh : s.turns.count n = 0) : Sound n x (execute x.key x.spec).run s := by
  refine sound_authorize (by decide) hfresh fun s₁ _ hturns₁ ↦ ?_
  refine sound_receipt (by decide) hturns₁ (fun _ s₂ _ hturns₂ ↦ ?_) fun s₂ r hinv₂ _ hr hkey ↦ ?_
  · refine sound_entitle (by decide) hturns₂ fun s₃ _ hturns₃ ↦ ?_
    refine sound_reserveId (by decide) hturns₃ fun s₄ id _ hturns₄ hown hunfiled ↦ ?_
    refine sound_commitAdd (by decide) hturns₄ rfl rfl hown hunfiled ?_ ?_ ?_ ?_
    · exact fun s₅ hcreated ↦ sound_done ⟨_, hcreated, rfl, rfl, rfl⟩
    · intro s₅ r hturns₅ hr hkey
      refine sound_receipt (by decide) hturns₅ (fun hgone ↦ absurd hkey (hgone r hr)) ?_
      exact fun s₆ r' hinv₆ _ hr' hkey' ↦ sound_done (answers_replay hinv₆ hr' hkey')
    · exact fun s₅ ↦ sound_done trivial
    · exact fun s₅ ↦ sound_done trivial
  · exact sound_done (answers_replay hinv₂ hr hkey)

/-- **The calls and everybody else keep to the discipline.** -/
theorem contract : Contract system discipline where
  refl := Desk.Rely.refl
  trans _ _ _ _ := Desk.Rely.trans
  others hnm h := h.others _ (Ne.symm hnm)
  disturb s e hs := hs.commit e
  fresh h hfresh := ⟨h.turns.trans hfresh.1, fun r hr ↦ hfresh.2 r (h.created r hr)⟩
  start n x s _ hfresh := sound_execute hfresh.1

theorem disciplined (limits : Limits) (steps : List Step) :
    Disciplined system discipline (after limits steps) := by
  have hinit : Disciplined system discipline ⟨Desk.init limits, []⟩ := by
    refine ⟨Desk.inv_init limits, fun n _ ↦ ⟨rfl, fun r h ↦ ?_⟩, fun n x p h ↦ ?_⟩
    · cases h
    · simp at h
  exact contract.run hinit steps

/-! ### A key that was used before -/

/-- The answer is `e`, unless a gate refused the call or the lookup failed. -/
def Replayed (n : ℕ) (e : AppError) (answer : Except AppError JobId) (s : Desk) : Prop :=
  answer = .error e ∨ (∃ refusal, (n, refusal) ∈ s.refused ∧ answer = .error refusal) ∨
    (n ∈ s.failed ∧ answer = .error .persistenceUnavailable)

theorem Replayed.mono {e : AppError} {answer : Except AppError JobId} (h : Replayed n e answer s)
    (hs : Desk.Grows s s') : Replayed n e answer s' := by
  rcases h with h | ⟨refusal, hmem, h⟩ | ⟨hmem, h⟩
  · exact Or.inl h
  · exact Or.inr (Or.inl ⟨refusal, hs.refused hmem, h⟩)
  · exact Or.inr (Or.inr ⟨hs.failed hmem, h⟩)

/-- The receipt that is filed under the key answers `e`, now and as a tombstone. -/
def Used (x : Request) (e : AppError) (s : Desk) : Prop :=
  ∃ r, Filed s.store r ∧ r.key = x.key ∧ r.replay x.key x.spec = .error e ∧
    r.tombstone.replay x.key x.spec = .error e

theorem Used.mono {e : AppError} (h : Used x e s) (hs : Desk.Grows s s') : Used x e s' := by
  obtain ⟨r, hr, hkey, hreplay, htomb⟩ := h
  rcases hs.keeps.filed r hr with hf | hf
  · exact ⟨r, hf, hkey, hreplay, htomb⟩
  · exact ⟨_, hf, hkey, htomb, htomb⟩

/-- A call that has had six turns has answered. -/
theorem returns (limits : Limits) (steps : List Step) {p : Prog Port Port.Answer (Except AppError JobId)}
    (hp : (after limits steps).procs[n]? = some (x, p))
    (hturns : 6 ≤ (after limits steps).shared.turns.count n) : ∃ answer, p = .done answer := by
  have hdisciplined := disciplined limits steps
  cases p with
  | done answer => exact ⟨answer, rfl⟩
  | call port next =>
    have hsafe := hdisciplined.safe n x _ hp
    have hmore : (Desk.serve n _ port ⟨.ok (), .failed⟩).2.turns.count n ≤ 6 :=
      (hsafe _ (Desk.Rely.refl n _) hdisciplined.inv ⟨.ok (), .failed⟩).2.1.turns
    rw [Desk.turns_serve, Desk.count_turns] at hmore
    omega

/-- Two rivals reserve an identifier each; one of them creates the job, and its answer is lost. -/
example :
    let limits : Limits := ⟨4, 8, by decide, by decide, by decide, by decide⟩
    let x : Request := ⟨⟨⟨1, by decide⟩, Vector.replicate 32 0⟩,
      ⟨⟨1, by decide⟩, ⟨1, by decide⟩, none, .normal, 100, by decide, by decide⟩⟩
    let turn := fun n fate ↦ (Move.advance n ⟨.ok (), fate⟩ : Step)
    let s := (after limits ([.start x, .start x] ++ (List.replicate 4 [0, 1]).flatten.map
      (turn · .answered) ++ [turn 1 .lost, turn 0 .answered, turn 0 .answered])).shared
    s.reserved.map (·.2.get) = [1, 2] ∧ s.created.map (fun e ↦ (e.1, e.2.job.get)) = [(1, 2)] ∧
      s.failed = [1] := by
  decide +kernel

end AddDownload

end Fhd
