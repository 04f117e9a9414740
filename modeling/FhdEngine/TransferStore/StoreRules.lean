import FhdEngine.TransferStore.Store

/-!
# Executing store code call by call

The rules that run a method of a store over its folder. `world` is a folder that may fail at every call, or at none
if it is calm. Between two calls others may take the name of the output, so what is carried from call to call is a
predicate that such an arrival keeps (`Steady`). Most of a method only looks (`Looks`).
-/

namespace Fhd

namespace TransferStore

open Process (Environment Ensures Does Post Routine Synced)

/-! ### Names -/

namespace Folder

variable {f f' : Folder} {name q : String} {node : Node} {inode : Inode}

theorem link_node : (f.link name node).node q = (f.node q).or (if q = name then some node else none) := by
  show List.lookup q (f.entries ++ [(name, node)]) = _
  rw [List.lookup_append]
  congr 1
  by_cases hq : q = name
  · rw [hq, if_pos rfl]
    simp
  · rw [if_neg hq, List.lookup_cons, show (q == name) = false by simpa using hq]
    rfl

/-- A name that is there stays. -/
theorem link_node_of_some (h : f.node q = some node) (node' : Node) : (f.link name node').node q = some node := by
  rw [link_node, h]
  rfl

theorem link_node_self (h : f.node name = none) : (f.link name node).node name = some node := by
  rw [link_node, h, if_pos rfl]
  rfl

theorem link_node_of_ne (h : q ≠ name) : (f.link name node).node q = f.node q := by
  rw [link_node, if_neg h, Option.or_none]

/-- Every name that is listed is there. -/
theorem node_of_mem (h : name ∈ f.entries.map (·.1)) : ∃ node, f.node name = some node := by
  refine Option.isSome_iff_exists.1 ?_
  obtain ⟨entry, hmem, rfl⟩ := List.mem_map.1 h
  exact List.lookup_isSome_iff.2 ⟨entry, hmem, beq_self_eq_true _⟩

theorem mem_of_node (h : f.node name = some node) : name ∈ f.entries.map (·.1) := by
  obtain ⟨front, back, hentries, -⟩ := List.lookup_eq_some_iff.1 h
  rw [hentries]
  simp

/-! ### Others -/

theorem Stirred.stays {alone : Prop} {output : String} (h : Stirred alone output f f') (hnode : f.node name = some node) :
    f'.node name = some node := by
  rcases h with rfl | ⟨-, -, arrival, rfl, -⟩
  · exact hnode
  · cases arrival <;> exact link_node_of_some hnode _

theorem Stirred.node_of_ne {alone : Prop} {output : String} (h : Stirred alone output f f') (hne : name ≠ output) :
    f'.node name = f.node name := by
  rcases h with rfl | ⟨-, -, arrival, rfl, -⟩
  · rfl
  · cases arrival <;> exact link_node_of_ne hne

theorem Stirred.eq_of_node {alone : Prop} {output : String} (h : Stirred alone output f f')
    (hnode : f.node output = some node) : f' = f := by
  rcases h with rfl | ⟨-, hnone, -⟩
  · rfl
  · rw [hnode] at hnone
    cases hnone

theorem Stirred.eq_of_alone {alone : Prop} {output : String} (h : Stirred alone output f f') (halone : alone) :
    f' = f := by
  rcases h with rfl | ⟨hnot, -⟩
  · rfl
  · exact absurd halone hnot

theorem arrive_node {output : String} (h : f.node output = none) (arrival : Arrival) :
    ∃ node, (f.arrive output arrival).node output = some node := by
  cases arrival <;> exact ⟨_, link_node_self h⟩

theorem Stirred.refl {alone : Prop} {output : String} (f : Folder) : f.Stirred alone output f := Or.inl rfl

/-- A name is taken once. -/
theorem Stirred.trans {alone : Prop} {output : String} {f'' : Folder} (h : Stirred alone output f f')
    (h' : Stirred alone output f' f'') : f.Stirred alone output f'' := by
  rcases h' with rfl | ⟨halone, hnone, arrival, rfl, hinode⟩
  · exact h
  rcases h with rfl | ⟨-, hfree, arrival', rfl, -⟩
  · exact Or.inr ⟨halone, hnone, arrival, rfl, hinode⟩
  · obtain ⟨node, hnode⟩ := arrive_node hfree arrival'
    rw [hnode] at hnone
    cases hnone

/-- Others touch neither the files that are there nor the row. -/
theorem Stirred.keeps {alone : Prop} {output : String} (h : Stirred alone output f f') :
    (∀ inode < f.fresh, f'.files inode = f.files inode) ∧ f.fresh ≤ f'.fresh ∧ f'.job = f.job ∧
      f'.settled = f.settled ∧ f'.made = f.made := by
  rcases h with rfl | ⟨-, -, arrival, rfl, -⟩
  · exact ⟨fun _ _ ↦ rfl, Nat.le_refl _, rfl, rfl, rfl⟩
  · cases arrival with
    | file content =>
      exact ⟨fun inode hlt ↦ Function.update_of_ne (Nat.ne_of_lt hlt) _ _, Nat.le_succ _, rfl, rfl, rfl⟩
    | _ => exact ⟨fun _ _ ↦ rfl, Nat.le_refl _, rfl, rfl, rfl⟩

end Folder

/-! ### The world -/

/-- A folder that answers, with whatever others do in between; while it is calm no call fails. -/
def world (calm alone : Prop) (output : String) : Environment Folder Call Reply :=
  fun f op x f' ↦ ∃ f₁ fate, f.Stirred alone output f₁ ∧ ((calm → ∃ taken, fate = .answered taken) ∧ fate.honest op) ∧
    f₁.serve op fate = (x, f')

theorem onFolder_eq (alone : Prop) (output : String) : onFolder alone output = world False alone output := by
  funext f op x f'
  refine propext ⟨?_, ?_⟩
  · rintro ⟨f₁, fate, hstirred, hhonest, hserve⟩
    exact ⟨f₁, fate, hstirred, ⟨nofun, hhonest⟩, hserve⟩
  · rintro ⟨f₁, fate, hstirred, ⟨-, hhonest⟩, hserve⟩
    exact ⟨f₁, fate, hstirred, hhonest, hserve⟩

theorem calmly_eq (alone : Prop) (output : String) : calmly alone output = world True alone output := by
  funext f op x f'
  refine propext ⟨?_, ?_⟩
  · rintro ⟨f₁, taken, hstirred, hserve⟩
    exact ⟨f₁, .answered taken, hstirred, ⟨fun _ ↦ ⟨taken, rfl⟩, trivial⟩, hserve⟩
  · rintro ⟨f₁, fate, hstirred, ⟨hcalm, -⟩, hserve⟩
    obtain ⟨taken, rfl⟩ := hcalm trivial
    exact ⟨f₁, taken, hstirred, hserve⟩

/-- A call that changes nothing, even when it succeeds. -/
def Call.looks : Call → Bool
  | .checkAncestors | .readDir | .symlinkMetadata _ | .tryLock _ | .metadata _ | .seek _ _ | .read _ _ _
  | .selectVersion | .selectJob | .selectLengthKnown | .beginTransaction | .executeCompletion _ => true
  | .openOptions _ createNew => !createNew
  | .openDatabase _ create => !create
  | _ => false

theorem Folder.answer_of_looks (f : Folder) {op : Call} (hop : op.looks = true) (taken : ℕ) :
    (f.answer taken op).2 = f := by
  cases op with
  | openOptions name createNew =>
    obtain rfl : createNew = false := by simpa [Call.looks] using hop
    simp only [answer]
    split <;> rfl
  | openDatabase name create =>
    obtain rfl : create = false := by simpa [Call.looks] using hop
    simp only [answer]
    split <;> rfl
  | symlinkMetadata | selectVersion | selectJob | selectLengthKnown =>
    simp only [answer]
    split <;> rfl
  | executeCompletion =>
    simp only [answer]
    split
    · rfl
    · split
      · split <;> rfl
      · rfl
  | _ => first | rfl | cases hop

/-- A call that only looks leaves the folder, whatever becomes of it. -/
theorem Folder.serve_of_looks (f : Folder) {op : Call} (hop : op.looks = true) (fate : Fate) :
    (f.serve op fate).2 = f := by
  cases fate with
  | answered taken => exact f.answer_of_looks hop taken
  | failed kind written => cases op <;> first | rfl | cases hop
  | lost kind => exact f.answer_of_looks hop 0

/-- What others do keeps it. -/
def Steady (alone : Prop) (output : String) (P : Folder → Prop) : Prop :=
  ∀ f f', P f → f.Stirred alone output f' → P f'

section Rules

variable {calm alone : Prop} {output : String} {P I : Folder → Prop} {τ α β : Type} {t : τ} {f : Folder} {op : Call}
  {Q : α → τ → Folder → Prop} {X : StoreError → τ → Folder → Prop}

/-- **A call**, in a world where `P` holds. -/
theorem ask_does_honest {k : Reply op → StoreM τ α} (hP : P f) (hsteady : Steady alone output P)
    (h : ∀ f fate, P f → (calm → ∃ taken, fate = .answered taken) → fate.honest op → I (f.serve op fate).2 ∧
      Does (world calm alone output) I t (f.serve op fate).2 (k (f.serve op fate).1) Q X) :
    Does (world calm alone output) I t f (Routine.ask op >>= k) Q X := by
  refine Does.ask fun x f' hcall ↦ ?_
  obtain ⟨f₁, fate, hstirred, ⟨hcalm, hhonest⟩, hserve⟩ := hcall
  have := h f₁ fate (hsteady f f₁ hP hstirred) hcalm hhonest
  rwa [hserve] at this

theorem ask_does {k : Reply op → StoreM τ α} (hP : P f) (hsteady : Steady alone output P)
    (h : ∀ f fate, P f → (calm → ∃ taken, fate = .answered taken) → I (f.serve op fate).2 ∧
      Does (world calm alone output) I t (f.serve op fate).2 (k (f.serve op fate).1) Q X) :
    Does (world calm alone output) I t f (Routine.ask op >>= k) Q X :=
  ask_does_honest hP hsteady fun f fate hPf hcalm _ ↦ h f fate hPf hcalm

/-- A call whose error is passed on under another name. -/
def called (err : ErrorKind → StoreError) (op : Call) : StoreM τ (Output op) := do
  match ← Routine.ask op with
  | .ok x => pure x
  | .error kind => throw (err kind)

theorem io_eq : (io op : StoreM τ (Output op)) = called .io op := rfl

theorem db_eq : (db op : StoreM τ (Output op)) = called (fun _ ↦ .database) op := rfl

theorem tryLock_eq (file : Inode) :
    (tryLock file : StoreM τ Unit) = called (fun _ ↦ .locked) (.tryLock file) := by
  refine congrArg (Routine.ask (Call.tryLock file) >>= ·) (funext fun r ↦ ?_)
  cases r <;> rfl

/-- **A call that may change the folder**. `R` is what is left of it if it fails, and it fails while the folder is
calm only where the folder refuses it. -/
theorem call_last {err : ErrorKind → StoreError} {x : StoreM τ (Output op)} {Q : Output op → τ → Folder → Prop}
    {R : Folder → Prop} (hx : x = called err op) (hP : P f) (hsteady : Steady alone output P)
    (hspoil : ∀ f written, P f → R (f.spoil op written)) (hanswer : ∀ f taken, P f → R (f.answer taken op).2)
    (hI : ∀ f, R f → I f)
    (herror : ∀ f kind, R f → (calm → ∃ f taken kind, P f ∧ (f.answer taken op).1 = .error kind) → X (err kind) t f)
    (hok : ∀ f taken x, P f → (f.answer taken op).1 = .ok x → Q x t (f.answer taken op).2) :
    Does (world calm alone output) I t f x Q X := by
  subst hx
  refine ask_does hP hsteady fun f fate hPf hcalm ↦ ?_
  cases fate with
  | answered taken =>
    refine ⟨hI _ (hanswer f taken hPf), ?_⟩
    show Does _ _ _ (f.answer taken op).2 (match (f.answer taken op).1 with
      | .ok x => pure x
      | .error kind => throw (err kind)) _ _
    cases hreply : (f.answer taken op).1 with
    | ok x => exact Does.pure (hok f taken x hPf hreply)
    | error kind => exact Does.throw (herror _ kind (hanswer f taken hPf) fun _ ↦ ⟨f, taken, kind, hPf, hreply⟩)
  | failed kind written =>
    refine ⟨hI _ (hspoil f written hPf), Does.throw (herror _ kind (hspoil f written hPf) fun hc ↦ ?_)⟩
    obtain ⟨taken, htaken⟩ := hcalm hc
    cases htaken
  | lost kind =>
    refine ⟨hI _ (hanswer f 0 hPf), Does.throw (herror _ kind (hanswer f 0 hPf) fun hc ↦ ?_)⟩
    obtain ⟨taken, htaken⟩ := hcalm hc
    cases htaken

/-- And what follows it. -/
theorem call_does {err : ErrorKind → StoreError} {x : StoreM τ (Output op)} {g : Output op → StoreM τ α}
    {R : Folder → Prop} (hx : x = called err op) (hP : P f) (hsteady : Steady alone output P)
    (hspoil : ∀ f written, P f → R (f.spoil op written)) (hanswer : ∀ f taken, P f → R (f.answer taken op).2)
    (hI : ∀ f, R f → I f)
    (herror : ∀ f kind, R f → (calm → ∃ f taken kind, P f ∧ (f.answer taken op).1 = .error kind) → X (err kind) t f)
    (hok : ∀ f taken x, P f → (f.answer taken op).1 = .ok x →
      Does (world calm alone output) I t (f.answer taken op).2 (g x) Q X) :
    Does (world calm alone output) I t f (x >>= g) Q X := by
  refine Does.bind (Q := fun x t' f' ↦ t' = t ∧ Does (world calm alone output) I t f' (g x) Q X)
    (call_last hx hP hsteady hspoil hanswer hI herror fun f taken x hPf hreply ↦ ⟨rfl, hok f taken x hPf hreply⟩) ?_
  rintro x t' f' ⟨rfl, hx⟩
  exact hx

/-- A folder whose output is there stays as it is. -/
theorem steady_of_node {node : Node} (h : f.node output = some node) : Steady alone output (· = f) := by
  rintro f f' rfl hstirred
  exact hstirred.eq_of_node h

/-- **A call on a folder nobody else changes**, since its output is there. -/
theorem call_here {err : ErrorKind → StoreError} {x : StoreM τ (Output op)} {g : Output op → StoreM τ α} {node : Node}
    {out : Output op} {f₁ : Folder} (hx : x = called err op) (hnode : f.node output = some node)
    (hspoil : ∀ written, f.spoil op written = f) (hanswer : ∀ taken, f.answer taken op = (.ok out, f₁)) (hI : I f)
    (hI₁ : I f₁) (herror : ¬calm → ∀ kind f', f' = f ∨ f' = f₁ → X (err kind) t f')
    (hok : Does (world calm alone output) I t f₁ (g out) Q X) :
    Does (world calm alone output) I t f (x >>= g) Q X := by
  refine call_does (P := (· = f)) (R := fun f' ↦ f' = f ∨ f' = f₁) hx rfl (steady_of_node hnode) ?_ ?_ ?_ ?_ ?_
  · rintro f' written rfl
    exact Or.inl (hspoil written)
  · rintro f' taken rfl
    exact Or.inr (by rw [hanswer])
  · rintro f' (rfl | rfl)
    · exact hI
    · exact hI₁
  · refine fun f' kind h hc ↦ herror (fun hcalm ↦ ?_) kind f' h
    obtain ⟨f', taken, kind, rfl, hrefused⟩ := hc hcalm
    rw [hanswer] at hrefused
    cases hrefused
  · rintro f' taken x' rfl hx'
    rw [hanswer] at hx' ⊢
    cases hx'
    exact hok

/-! ### Looking -/

/-- **Only looks**: keeps `P`, and returns as `φ` says or fails as `ψ` says. -/
def Looks (calm alone : Prop) (output : String) (P : Folder → Prop) (x : StoreM τ α) (φ : α → Prop)
    (ψ : StoreError → Prop) : Prop :=
  ∀ I t f, (∀ f, P f → I f) → P f →
    Does (world calm alone output) I t f x (fun a t' f' ↦ φ a ∧ t' = t ∧ P f') fun e t' f' ↦ ψ e ∧ t' = t ∧ P f'

namespace Looks

variable {x : StoreM τ α} {g : α → StoreM τ β} {φ : α → Prop} {χ : β → Prop} {ψ : StoreError → Prop}

theorem pure {a : α} (h : φ a) : Looks calm alone output P (Pure.pure a : StoreM τ α) φ ψ :=
  fun _ _ _ _ hP ↦ ⟨h, rfl, hP⟩

theorem throw {e : StoreError} (h : ψ e) : Looks calm alone output P (MonadExcept.throw e : StoreM τ α) φ ψ :=
  fun _ _ _ _ hP ↦ ⟨h, rfl, hP⟩

theorem bind (hx : Looks calm alone output P x φ ψ) (hg : ∀ a, φ a → Looks calm alone output P (g a) χ ψ) :
    Looks calm alone output P (x >>= g) χ ψ := by
  intro I t f hI hP
  refine Does.bind (hx I t f hI hP) ?_
  rintro a t' f' ⟨hφ, rfl, hP'⟩
  exact hg a hφ I t' f' hI hP'

theorem failIf {p : Prop} [Decidable p] {e : StoreError} {g : Unit → StoreM τ β} (hX : p → ψ e)
    (hg : ¬p → Looks calm alone output P (g ()) χ ψ) :
    Looks calm alone output P (Routine.failIf p e >>= g) χ ψ := by
  intro I t f hI hP
  exact Does.failIf (fun hp ↦ ⟨hX hp, rfl, hP⟩) fun hp ↦ hg hp I t f hI hP

theorem failIf_last {p : Prop} [Decidable p] {e : StoreError} (hX : p → ψ e) :
    Looks (τ := τ) calm alone output P (Routine.failIf p e) (fun _ ↦ ¬p) ψ := by
  unfold Routine.failIf
  split
  next hp => exact throw (hX hp)
  next hp => exact pure hp

theorem ofExcept {r : Except StoreError α} (hX : ∀ e, r = .error e → ψ e) (hφ : ∀ a, r = .ok a → φ a) :
    Looks calm alone output P (MonadExcept.ofExcept r : StoreM τ α) φ ψ := by
  cases r with
  | ok a => exact pure (hφ a rfl)
  | error e => exact throw (hX e rfl)

/-- A call whose answer is looked at, also if it is an error. -/
theorem ask {φ : Reply op → Prop} (hop : op.looks = true) (hsteady : Steady alone output P)
    (hok : ∀ f taken, P f → φ (f.answer taken op).1) (hfault : ¬calm → ∀ kind, φ (.error kind)) :
    Looks (τ := τ) calm alone output P (Routine.ask op) φ ψ := by
  intro I t f hI hP x f' hcall
  obtain ⟨f₁, fate, hstirred, ⟨hcalm, -⟩, hserve⟩ := hcall
  have hP₁ := hsteady f f₁ hP hstirred
  have hsame := f₁.serve_of_looks hop fate
  rw [hserve] at hsame
  obtain rfl : f' = f₁ := hsame
  refine ⟨hI f' hP₁, ?_, rfl, hP₁⟩
  cases fate with
  | answered taken =>
    rw [show x = (f'.answer taken op).1 from congrArg Prod.fst hserve.symm]
    exact hok f' taken hP₁
  | failed kind written =>
    rw [show x = .error kind from congrArg Prod.fst hserve.symm]
    exact hfault (fun hc ↦ by obtain ⟨_, h⟩ := hcalm hc; cases h) kind
  | lost kind =>
    rw [show x = .error kind from congrArg Prod.fst hserve.symm]
    exact hfault (fun hc ↦ by obtain ⟨_, h⟩ := hcalm hc; cases h) kind

theorem call {err : ErrorKind → StoreError} {x : StoreM τ (Output op)} {φ : Output op → Prop} (hx : x = called err op)
    (hop : op.looks = true) (hsteady : Steady alone output P)
    (hok : ∀ f taken, P f → ∀ x, (f.answer taken op).1 = .ok x → φ x)
    (herror : ∀ f taken, P f → ∀ kind, (f.answer taken op).1 = .error kind → ψ (err kind))
    (hfault : ¬calm → ∀ e, ψ e) : Looks (τ := τ) calm alone output P x φ ψ := by
  subst hx
  refine bind (φ := fun r ↦ (∀ x, r = .ok x → φ x) ∧ ∀ kind, r = .error kind → ψ (err kind))
    (ask hop hsteady (fun f taken hP ↦ ⟨hok f taken hP, herror f taken hP⟩)
      fun hc kind ↦ ⟨nofun, fun _ _ ↦ hfault hc _⟩) fun r hr ↦ ?_
  cases r with
  | ok x => exact pure (hr.1 x rfl)
  | error kind => exact throw (hr.2 kind rfl)

/-- What a routine that only looks leaves to what follows. -/
theorem does {Q : β → τ → Folder → Prop} (hx : Looks calm alone output P x φ ψ) (hI : ∀ f, P f → I f) (hP : P f)
    (hg : ∀ a f, φ a → P f → Does (world calm alone output) I t f (g a) Q X) (hX : ∀ e f, ψ e → P f → X e t f) :
    Does (world calm alone output) I t f (x >>= g) Q X := by
  refine Does.bind ((hx I t f hI hP).mono (fun _ _ _ h ↦ h) ?_) ?_
  · rintro e t' f' ⟨hψ, rfl, hP'⟩
    exact hX e f' hψ hP'
  · rintro a t' f' ⟨hφ, rfl, hP'⟩
    exact hg a f' hφ hP'

theorem mono {φ' : α → Prop} {ψ' : StoreError → Prop} (h : Looks calm alone output P x φ ψ) (hφ : ∀ a, φ a → φ' a)
    (hψ : ∀ e, ψ e → ψ' e) : Looks calm alone output P x φ' ψ' :=
  fun I t f hI hP ↦ (h I t f hI hP).mono (fun _ _ _ ⟨ha, hr⟩ ↦ ⟨hφ _ ha, hr⟩) fun _ _ _ ⟨he, hr⟩ ↦ ⟨hψ _ he, hr⟩

/-! ### Names -/

section Names

variable {name : String} {node : Node} {inode : Inode}

theorem symlinkMetadata (hsteady : Steady alone output P) (hnode : ∀ f, P f → f.node name = some node)
    (hfault : ¬calm → ∀ e, ψ e) :
    Looks (τ := τ) calm alone output P (TransferStore.io (.symlinkMetadata name)) (· = Disk.fileType node) ψ := by
  have hanswer : ∀ f taken, P f → f.answer taken (.symlinkMetadata name) = (.ok (Disk.fileType node), f) :=
    fun f taken hP ↦ by simp only [Folder.answer, hnode f hP]
  refine call io_eq rfl hsteady (fun f taken hP x hx ↦ ?_) (fun f taken hP kind hx ↦ ?_) hfault
  · rw [hanswer f taken hP] at hx
    exact (Except.ok.inj hx).symm
  · rw [hanswer f taken hP] at hx
    cases hx

/-- Neither a link nor a device. -/
theorem rejectLink (hsteady : Steady alone output P) (hnode : ∀ f, P f → f.node name = some node)
    (hψ : node = .other → ∀ e, ψ e) (hfault : ¬calm → ∀ e, ψ e) :
    Looks (τ := τ) calm alone output P (TransferStore.rejectLink name) (fun _ ↦ node ≠ .other) ψ := by
  refine bind (symlinkMetadata hsteady hnode hfault) fun fileType hfileType ↦ ?_
  subst hfileType
  refine (failIf_last fun hother ↦ ?_).mono (fun _ h hother ↦ h (by rw [hother]; rfl)) fun _ ↦ id
  cases node with
  | other => exact hψ rfl _
  | file | directory => cases hother

theorem requireFile (hsteady : Steady alone output P) (hnode : ∀ f, P f → f.node name = some node)
    (hψ : (∀ inode, node ≠ .file inode) → ∀ e, ψ e) (hfault : ¬calm → ∀ e, ψ e) :
    Looks (τ := τ) calm alone output P (TransferStore.requireFile name) (fun _ ↦ ∃ inode, node = .file inode) ψ := by
  refine bind (symlinkMetadata hsteady hnode hfault) fun fileType hfileType ↦ ?_
  subst hfileType
  refine (failIf_last fun hother ↦ ?_).mono (fun _ h ↦ ?_) fun _ ↦ id
  · refine hψ ?_ _
    rintro inode rfl
    exact hother rfl
  · cases node with
    | file inode => exact ⟨inode, rfl⟩
    | other | directory => exact absurd nofun h

theorem openOptions (hsteady : Steady alone output P) (hnode : ∀ f, P f → f.node name = some (.file inode))
    (hfault : ¬calm → ∀ e, ψ e) :
    Looks (τ := τ) calm alone output P (TransferStore.io (.openOptions name false)) (· = inode) ψ := by
  have hanswer : ∀ f taken, P f → f.answer taken (.openOptions name false) = (.ok inode, f) :=
    fun f taken hP ↦ by simp only [Folder.answer, hnode f hP, Bool.false_eq_true, if_false]
  refine call io_eq rfl hsteady (fun f taken hP x hx ↦ ?_) (fun f taken hP kind hx ↦ ?_) hfault
  · rw [hanswer f taken hP] at hx
    exact (Except.ok.inj hx).symm
  · rw [hanswer f taken hP] at hx
    cases hx

theorem tryLock {file : Inode} (hsteady : Steady alone output P) (hfault : ¬calm → ∀ e, ψ e) :
    Looks (τ := τ) calm alone output P (TransferStore.tryLock file) (fun _ ↦ True) ψ := by
  have hcall : Looks (τ := τ) calm alone output P (called (fun _ ↦ .locked) (.tryLock file)) (fun _ ↦ True) ψ :=
    call rfl rfl hsteady (fun _ _ _ _ _ ↦ trivial) (fun _ _ _ _ h ↦ by cases h) hfault
  rw [tryLock_eq]
  exact hcall

/-- The length of a file. -/
theorem metadata {file : Inode} {length : ℕ} (hsteady : Steady alone output P)
    (hlength : ∀ f, P f → (f.files file).bytes.length = length) (hfault : ¬calm → ∀ e, ψ e) :
    Looks (τ := τ) calm alone output P (TransferStore.io (.metadata file)) (· = length) ψ := by
  refine call io_eq rfl hsteady (fun f taken hP x hx ↦ ?_) (fun f taken hP kind hx ↦ by cases hx) hfault
  rw [← hlength f hP]
  exact (Except.ok.inj hx).symm

end Names

/-! ### Hashing -/

/-- **The loop of `hash_prefix`** reads what is left of a file of these bytes. -/
theorem hashLoop {file : Inode} {bytes : List UInt8} (hsteady : Steady alone output P)
    (hbytes : ∀ f, P f → (f.files file).bytes = bytes) (hfault : ¬calm → ∀ e, ψ e) {fuel position left : ℕ}
    {hasher : List UInt8} (hfuel : left ≤ fuel) (hlength : position + left ≤ bytes.length) :
    Looks (τ := τ) calm alone output P (TransferStore.hashLoop file fuel position left hasher)
      (fun r ↦ r = hasher ++ (bytes.drop position).take left) ψ := by
  induction fuel generalizing position left hasher with
  | zero =>
    obtain rfl : left = 0 := by omega
    exact pure (by simp)
  | succ fuel ih =>
    rw [TransferStore.hashLoop]
    split
    next hzero =>
      subst hzero
      exact pure (by simp)
    next hne =>
      refine bind (φ := fun r ↦ ∃ n, 0 < n ∧ n ≤ left ∧ r = (bytes.drop position).take n)
        (call io_eq rfl hsteady (fun f taken hP x hx ↦ ?_) (fun f taken hP kind hkind ↦ by cases hkind) hfault) fun r hr ↦ ?_
      · cases hx
        refine ⟨min (min left 65536) (taken + 1), by omega, by omega, ?_⟩
        rw [hbytes f hP]
      · obtain ⟨n, hpos, hle, rfl⟩ := hr
        have hn : ((bytes.drop position).take n).length = n := by
          rw [List.length_take, List.length_drop]
          omega
        refine failIf (fun hnil ↦ ?_) fun _ ↦ ?_
        · rw [hnil, List.length_nil] at hn
          omega
        · rw [hn]
          refine (ih (by omega) (by omega)).mono (fun r hr ↦ ?_) fun _ ↦ id
          rw [hr, List.append_assoc, ← List.drop_drop, ← List.take_add, Nat.add_sub_cancel' hle]

theorem hashPrefix {file : Inode} {bytes : List UInt8} (hsteady : Steady alone output P)
    (hbytes : ∀ f, P f → (f.files file).bytes = bytes) (hfault : ¬calm → ∀ e, ψ e) {len : ℕ}
    (hlength : len ≤ bytes.length) :
    Looks (τ := τ) calm alone output P (TransferStore.hashPrefix file len) (fun r ↦ r = bytes.take len) ψ := by
  refine bind (φ := fun _ ↦ True)
    (call io_eq rfl hsteady (fun _ _ _ _ _ ↦ trivial) (fun _ _ _ _ h ↦ by cases h) hfault) fun _ _ ↦ ?_
  refine (hashLoop hsteady hbytes hfault le_rfl (by omega)).mono (fun r hr ↦ ?_) fun _ ↦ id
  rw [hr, List.nil_append, List.drop_zero]

/-! ### Whatever is found -/

theorem call_any {err : ErrorKind → StoreError} {x : StoreM τ (Output op)} (hx : x = called err op)
    (hop : op.looks = true) (hsteady : Steady alone output P) :
    Looks calm alone output P x (fun _ ↦ True) fun _ ↦ True :=
  call hx hop hsteady (fun _ _ _ _ _ ↦ trivial) (fun _ _ _ _ _ ↦ trivial) fun _ _ ↦ trivial

theorem hashLoop_any {file : Inode} (hsteady : Steady alone output P) {fuel position left : ℕ} {hasher : List UInt8} :
    Looks (τ := τ) calm alone output P (TransferStore.hashLoop file fuel position left hasher) (fun _ ↦ True)
      fun _ ↦ True := by
  induction fuel generalizing position left hasher with
  | zero => exact pure trivial
  | succ fuel ih =>
    rw [TransferStore.hashLoop]
    split
    · exact pure trivial
    · exact bind (call_any io_eq rfl hsteady) fun _ _ ↦ failIf (fun _ ↦ trivial) fun _ ↦ ih

theorem hashPrefix_any {file : Inode} (hsteady : Steady alone output P) {len : ℕ} :
    Looks (τ := τ) calm alone output P (TransferStore.hashPrefix file len) (fun _ ↦ True) fun _ ↦ True :=
  bind (call_any io_eq rfl hsteady) fun _ _ ↦ hashLoop_any hsteady

theorem verifyDestination_any {sha256 : List UInt8 → Digest} {s : Store} (hsteady : Steady alone output P) :
    Looks (τ := τ) calm alone output P (s.verifyDestination sha256) (fun _ ↦ True) fun _ ↦ True := by
  have hlast : ∀ {p : Prop} [Decidable p] (e : StoreError),
      Looks (τ := τ) calm alone output P (Routine.failIf p e) (fun _ ↦ True) fun _ ↦ True := fun e ↦
    (failIf_last fun _ ↦ trivial).mono (fun _ _ ↦ trivial) fun _ ↦ id
  refine bind (bind (call_any io_eq rfl hsteady) fun _ _ ↦ hlast _) fun _ _ ↦ ?_
  refine bind (bind (call_any io_eq rfl hsteady) fun _ _ ↦ hlast _) fun _ _ ↦ ?_
  refine bind (call_any io_eq rfl hsteady) fun finalFile _ ↦ ?_
  refine bind (call_any io_eq rfl hsteady) fun length _ ↦ failIf (fun _ ↦ trivial) fun _ ↦ ?_
  exact bind (hashPrefix_any hsteady) fun _ _ ↦ hlast _

end Looks

end Rules

end TransferStore

end Fhd
