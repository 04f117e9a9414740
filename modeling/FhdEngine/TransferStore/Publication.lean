import FhdEngine.TransferStore.StoreRuns

/-!
# What publication can do to a folder

Anybody may take the name of the output at any time. A run of the owner never makes that name stand for anything but
the payload, and then only once the payload is what was asked for; it never takes a name away; and its row does not go
back. If it is interrupted after it recorded its intent, opening and finalizing again complete the publication, unless
somebody else's entry stands there (`Interrupted`).
-/

namespace Fhd

namespace TransferStore

open Process (Prog Returns Reaches Ensures Does Ends Asks)

section Names

variable {f f' : Folder} {name : String} {node : Node} {alone : Prop} {output : String}

/-- A name that is there is kept by every call. -/
theorem Folder.answer_stays (taken : ℕ) (call : Call) (h : f.node name = some node) :
    (f.answer taken call).2.node name = some node := by
  by_cases hlooks : call.looks = true
  · rwa [f.answer_of_looks hlooks]
  cases call with
  | createDir | insertJob =>
    simp only [answer]
    split <;> exact h
  | openOptions q createNew =>
    simp only [answer]
    split
    · split <;> exact h
    · exact h
    · split
      · exact link_node_of_some h _
      · exact h
  | openDatabase q create =>
    simp only [answer]
    split
    · exact h
    · split
      · exact link_node_of_some h _
      · exact h
  | hardLink original link =>
    simp only [answer]
    split
    · exact h
    · split
      · exact h
      · exact link_node_of_some h _
    · exact h
  | updateUrls | updateReceipt | updatePhase | commitCompletion =>
    simp only [answer, update]
    split
    · exact h
    · split <;> exact h
  | _ => first | exact h | exact absurd rfl hlooks

theorem Folder.spoil_node (call : Call) (written : ℕ) : (f.spoil call written).node name = f.node name := by
  cases call <;> rfl

/-- **Nothing is replaced or removed** by a call, whatever becomes of it. -/
theorem onFolder_stays {call : Call} {x : Reply call} (h : f.node name = some node)
    (hcall : onFolder alone output f call x f') : f'.node name = some node := by
  obtain ⟨f₁, fate, hstirred, -, hserve⟩ := hcall
  have h₁ := hstirred.stays h
  obtain rfl : (f₁.serve call fate).2 = f' := congrArg Prod.snd hserve
  cases fate with
  | answered taken => exact Folder.answer_stays taken call h₁
  | failed kind written => exact (Folder.spoil_node call written).trans h₁
  | lost kind => exact Folder.answer_stays 0 call h₁

theorem onFolder_of_calmly (f : Folder) (call : Call) (x : Reply call) (f' : Folder)
    (h : calmly alone output f call x f') : onFolder alone output f call x f' := by
  obtain ⟨f₁, taken, hstirred, hanswer⟩ := h
  exact ⟨f₁, .answered taken, hstirred, trivial, hanswer⟩

theorem reaches_stays {α : Type} {p p' : Prog Call Reply α} (h : f.node name = some node)
    (hreaches : Reaches (onFolder alone output) f p f' p') : f'.node name = some node := by
  induction hreaches with
  | refl f p => exact h
  | call hcall _ ih => exact ih (onFolder_stays h hcall)

/-- **A name that comes** is a new file's, or was recorded with the file it stands for. -/
theorem Folder.answer_made (taken : ℕ) (call : Call) (hnone : f.node name = none)
    (h : (f.answer taken call).2.node name = some node) :
    ∃ inode, node = .file inode ∧ (name, inode) ∈ (f.answer taken call).2.made := by
  by_cases hlooks : call.looks = true
  · rw [f.answer_of_looks hlooks, hnone] at h
    cases h
  have hlink : ∀ q n, (f.link q n).node name = some node → q = name ∧ n = node := by
    intro q n hq
    by_cases heq : name = q
    · subst heq
      exact ⟨rfl, Option.some.inj ((link_node_self hnone).symm.trans hq)⟩
    · rw [link_node_of_ne heq, hnone] at hq
      cases hq
  cases call with
  | createDir | insertJob =>
    simp only [answer] at h
    split at h <;> exact absurd (hnone.symm.trans h) (by rintro ⟨⟩)
  | openOptions q createNew =>
    simp only [answer] at h ⊢
    split at h
    · split at h <;> exact absurd (hnone.symm.trans h) (by rintro ⟨⟩)
    · exact absurd (hnone.symm.trans h) (by rintro ⟨⟩)
    · split at h
      next hnew =>
        obtain ⟨rfl, rfl⟩ := hlink _ _ h
        simp only [hnew, if_true]
        exact ⟨f.fresh, rfl, List.mem_append_right _ (List.mem_singleton_self _)⟩
      · exact absurd (hnone.symm.trans h) (by rintro ⟨⟩)
  | openDatabase q create =>
    simp only [answer] at h ⊢
    split at h
    · exact absurd (hnone.symm.trans h) (by rintro ⟨⟩)
    next hfree =>
      split at h
      next hcreate =>
        obtain ⟨rfl, rfl⟩ := hlink _ _ h
        rw [if_neg hfree, if_pos hcreate]
        exact ⟨f.fresh, rfl, List.mem_append_right _ (List.mem_singleton_self _)⟩
      · exact absurd (hnone.symm.trans h) (by rintro ⟨⟩)
  | hardLink original link =>
    simp only [answer] at h ⊢
    split at h
    · exact absurd (hnone.symm.trans h) (by rintro ⟨⟩)
    next inode _ =>
      split at h
      · exact absurd (hnone.symm.trans h) (by rintro ⟨⟩)
      next hfree =>
        obtain ⟨rfl, rfl⟩ := hlink _ _ h
        rw [if_neg hfree]
        exact ⟨inode, rfl, List.mem_append_right _ (List.mem_singleton_self _)⟩
    · exact absurd (hnone.symm.trans h) (by rintro ⟨⟩)
  | updateUrls | updateReceipt | updatePhase | commitCompletion =>
    simp only [answer, update] at h
    split at h
    · exact absurd (hnone.symm.trans h) (by rintro ⟨⟩)
    · split at h <;> exact absurd (hnone.symm.trans h) (by rintro ⟨⟩)
  | _ => first | exact absurd (hnone.symm.trans h) (by rintro ⟨⟩) | exact absurd rfl hlooks

end Names

section Publication

variable {sha256 : List UInt8 → Digest} {alone calm ours : Prop} {output : String} {part : Inode} {g : Ledger}
  {row : JobRow} {f f' f₀ : Folder} {s : Store} {D D₀ : Desk} {log : Log} {identity : Identity} {unknown : Bool}

/-- The store is opened again, and finalized. -/
def retry (sha256 : List UInt8 → Digest) : Prog Call Reply (Except StoreError String) := do
  let (r, _) ← (openStore sha256 : StoreM Unit Store) ()
  match r with
  | .error e => pure (.error e)
  | .ok s => do
    let (r, _) ← Store.finalize sha256 s
    pure r

variable (calm) in
/-- **A publication that was interrupted** goes through, unless others have their hand in it. -/
theorem retry_ensures (hs : f₀.Sound sha256 alone output part g row) (htwo : row.phase = 2)
    (hours : ours → alone ∧ f₀.node output = none ∨ f₀.Exact output g.content) :
    Ensures (world calm alone output) (fun _ ↦ True)
      (fun r f' ↦ r = .ok output ∧ f'.Shows sha256 output g.content ∧
          (∃ row' : JobRow, row'.phase = 3 ∧ f'.job = some row') ∧
          (∀ node, f₀.node output = some node → f₀.Shows sha256 output g.content) ∨
        ∃ e, r = .error e ∧ (calm → ¬ours ∧ f₀.Stirred alone output f'))
      f₀ (retry sha256) := by
  have hpositive : 0 < row.phase := by omega
  have hopening := openStore_does calm (t := ()) hs fun hour ↦
    (hours hour).imp_left fun h ↦ ⟨h.1, h.2, by omega⟩
  refine Ensures.bind (hopening.weaken fun _ _ ↦ trivial) fun r f₁ hr ↦ ?_
  obtain ⟨r, t⟩ := r
  cases r with
  | error e =>
    obtain ⟨-, hfailed, hstirred⟩ := hr
    exact Or.inr ⟨e, rfl, fun hc ↦ ⟨hfailed hc, hstirred hpositive⟩⟩
  | ok s =>
    obtain ⟨hs₁, hheld, hpoisoned, hstirred⟩ := hr
    have hstirred := hstirred hpositive
    have hcontent : (g.cut row.length).content = g.content := by
      rw [Ledger.cut, (hs.backs.complete hpositive).1, List.take_length]
    have hclean : s.poisoned = false := by
      refine Bool.eq_false_iff.2 fun h ↦ ?_
      have hknown := hpoisoned.1 h
      rcases hs.backs.fits.version with ⟨-, h⟩ | ⟨-, -, h, -⟩ | ⟨-, h, -⟩
      · rw [hknown] at h
        cases h
      · omega
      · rw [hknown] at h
        cases h
    have hphase : s.phase = 2 := hheld.phase.trans htwo
    have hopen : ¬(s.poisoned = true ∨ s.phase = 0) := by
      rw [hclean, hphase]
      decide
    obtain ⟨call, hasks⟩ := (Store.finalize_asks hopen : ∃ call, Asks (Store.finalize sha256) s call)
    have hours₁ : ours → alone ∧ f₁.node output = none ∧ row.phase = 2 ∨ f₁.Exact output (g.cut row.length).content := by
      intro hour
      rw [hcontent]
      rcases hours hour with ⟨halone, hnone⟩ | hexact
      · rw [hstirred.eq_of_alone halone]
        exact Or.inl ⟨halone, hnone, htwo⟩
      · obtain ⟨inode, hinode, -⟩ := id hexact
        rw [hstirred.eq_of_node hinode]
        exact Or.inr hexact
    have hfinalize := Store.finalize_does calm hs₁ (fun _ ↦ hheld) hours₁ fun e ↦ hasks.not_ends
    refine Ensures.bind (hfinalize.weaken fun _ _ ↦ trivial) fun r f' hr ↦ ?_
    obtain ⟨r, s'⟩ := r
    cases r with
    | ok path =>
      obtain ⟨rfl, hshows, -, hthere, row', hthree, hs', -⟩ := hr
      rw [hcontent] at hshows hthere
      refine Or.inl ⟨rfl, hshows, ⟨row', hthree, hs'.job⟩, fun node hnode ↦ ?_⟩
      have hsame := hstirred.eq_of_node hnode
      subst hsame
      exact hthere htwo node hnode
    | error e =>
      obtain ⟨-, -, htrouble⟩ := hr
      exact Or.inr ⟨e, rfl, fun hc ↦ ⟨(htrouble htwo hc).1, hstirred.trans (htrouble htwo hc).2⟩⟩

/-- **A run that never found the name taken** is one in which nobody else was there. -/
theorem returns_alone {α : Type} {p : Prog Call Reply α} {a : α} (h : Returns (calmly False output) f p a f')
    (hnone : f'.node output = none) : Returns (calmly True output) f p a f' := by
  induction h with
  | done f a => exact .done f a
  | @call f f₁ f₂ op next x a hcall hnext ih =>
    refine .call ?_ (ih hnone)
    obtain ⟨f₀, taken, hstirred, hanswer⟩ := hcall
    refine ⟨f₀, taken, ?_, hanswer⟩
    rcases hstirred with rfl | ⟨-, hfree, arrival, rfl, -⟩
    · exact .refl f₀
    · exfalso
      obtain ⟨node, hnode⟩ := Folder.arrive_node hfree arrival
      have hanswered : f₁.node output = some node := by
        obtain rfl : ((f.arrive output arrival).answer taken op).2 = f₁ := congrArg Prod.snd hanswer
        exact Folder.answer_stays taken op hnode
      have hstays := reaches_stays hanswered (hnext.mono onFolder_of_calmly).reaches
      rw [hnone] at hstays
      cases hstays

/-! ### After any run -/

/-- What the output is made a name of: the payload, with the hash the row tells of and the one that was asked for. -/
def Earned (sha256 : List UInt8 → Digest) (content : List UInt8) (f : Folder) (inode : Inode) : Prop :=
  f.node "payload.part" = some (.file inode) ∧ (f.files inode).bytes = content ∧
    ∃ row, f.job = some row ∧ row.digest = (sha256 content).toList ∧ ∀ bytes ∈ row.expected, bytes = row.digest

/-- **What is asked of publication**, whatever fails, and whatever others put at the output's name. -/
structure Publishes (sha256 : List UInt8 → Digest) (output : String) (g : Ledger) (D : Desk) : Prop where
  /-- A call that makes the output's name makes it a name of the payload. -/
  earned : ∀ (act : Act) p f p', act.program sha256 D.handle = some p →
    Reaches (onFolder False output) D.folder p f p' → ∀ inode, (output, inode) ∈ f.made →
      Earned sha256 g.content f inode
  /-- Nothing is replaced or removed. -/
  stays : ∀ (act : Act) p f p', act.program sha256 D.handle = some p →
    Reaches (onFolder False output) D.folder p f p' → ∀ name node, D.folder.node name = some node →
      f.node name = some node
  /-- The durable phase does not go back, not even in a crash. -/
  forward : ∀ act upshot D', Step sha256 False output D act upshot D' →
    ∃ row row', D.folder.job = some row ∧ D'.folder.job = some row' ∧ row.phase ≤ row'.phase
  /-- Before the intent is recorded, an occupied name is a collision, and nothing changes. -/
  collides : ∀ s node, D.handle = some s → s.poisoned = false → s.phase = 1 → D.folder.node output = some node →
    ∀ r s' f, (Returns (onFolder False output) D.folder ((Store.finalize sha256).run.run s) (r, s') f →
        f = D.folder ∧ (r = .error .collision ∨ ∃ kind, r = .error (.io kind))) ∧
      (Returns (calmly False output) D.folder ((Store.finalize sha256).run.run s) (r, s') f → r = .error .collision)
  /-- After the intent was recorded, and nobody holds the store. -/
  interrupted : ∀ row, D.folder.job = some row → row.phase = 2 → D.handle = none →
    (∃ r f, Returns (calmly False output) D.folder (retry sha256) r f) ∧
    ∀ r f, Returns (calmly False output) D.folder (retry sha256) r f →
      r = .ok output ∧ (f.Shows sha256 output g.content ∧
          ((∀ bytes, sha256 bytes = sha256 g.content → bytes = g.content) → f.Exact output g.content)) ∧
        (∃ row' : JobRow, row'.phase = 3 ∧ f.job = some row') ∧
        (∀ node, D.folder.node output = some node → D.folder.Shows sha256 output g.content) ∨
      ∃ e node, r = .error e ∧ f.node output = some node ∧ D.folder.Stirred False output f ∧
        (D.folder.node output = none ∨ ¬D.folder.Exact output g.content)

/-- A folder in which nobody took the name is one's own. -/
theorem Folder.Sound.own_of_free (hs : f.Sound sha256 False output part g row) (hnone : f.node output = none)
    (hphase : row.phase ≠ 3) : f.Sound sha256 True output part g row := by
  refine { hs with strange := fun name hname ↦ ?_, linked := fun _ ↦ Or.inl ⟨hnone, hphase⟩,
                   published := fun _ h ↦ absurd h hphase }
  obtain ⟨-, rfl⟩ := hs.strange name hname
  rw [hnone] at hname
  cases hname

/-- The retry from a sound folder, whoever is there. -/
theorem Folder.Sound.retries (hs : f₀.Sound sha256 False output part g row) (htwo : row.phase = 2)
    {r : Except StoreError String} (hreturns : Returns (calmly False output) f₀ (retry sha256) r f) :
    r = .ok output ∧ f.Shows sha256 output g.content ∧ (∃ row' : JobRow, row'.phase = 3 ∧ f.job = some row') ∧
        (∀ node, f₀.node output = some node → f₀.Shows sha256 output g.content) ∨
      ∃ e node, r = .error e ∧ f.node output = some node ∧ f₀.Stirred False output f ∧
        (f₀.node output = none ∨ ¬f₀.Exact output g.content) := by
  have hreturns' := hreturns
  rw [calmly_eq] at hreturns'
  rcases (retry_ensures True hs htwo (Or.inr : f₀.Exact output g.content → _)).returns hreturns' with hok | ⟨e, rfl, hfailed⟩
  · exact Or.inl hok
  obtain ⟨hforeign, hstirred⟩ := hfailed trivial
  right
  cases hnode : f.node output with
  | some node => exact ⟨e, node, rfl, rfl, hstirred, Or.inr hforeign⟩
  | none =>
    -- nobody came, so it cannot have failed
    exfalso
    have hfree : f₀.node output = none := by
      cases hbefore : f₀.node output with
      | none => rfl
      | some node => exact (hnode.symm.trans (hstirred.stays hbefore)).symm
    have halone := returns_alone hreturns hnode
    rw [calmly_eq] at halone
    have hours : True → True ∧ f₀.node output = none ∨ f₀.Exact output g.content := fun _ ↦ Or.inl ⟨trivial, hfree⟩
    rcases (retry_ensures True (hs.own_of_free hfree (by omega)) htwo hours).returns halone with ⟨h, -⟩ | ⟨e', -, h⟩
    · cases h
    · exact (h trivial).1 trivial

end Publication

namespace Sample

/-- All four bytes, and that they are all. -/
def completed : List Act := [.operate (.append [7, 8, 9, 10]), .operate .markTransferComplete]

end Sample

end TransferStore

end Fhd
