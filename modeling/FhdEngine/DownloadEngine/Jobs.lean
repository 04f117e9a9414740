import FhdEngine.DownloadEngine.Vault
import FhdEngine.TransferStore.Making

/-!
# Blocking jobs on a folder

A download works on its store in blocking jobs, while nobody else touches the folder. A job comes to its end, or it
panics somewhere (`Worked`), and unless it succeeds the handle it was given is gone.
-/

namespace Fhd.DownloadEngine

open Process (Does Ends Ensures Environment Post Reaches Returns)
open TransferStore

/-- A folder nobody else touches. -/
def undisturbed : Environment Folder Call TransferStore.Reply := fun f op x f' ↦ ∃ fate : Folder.Fate, fate.honest op ∧ f.serve op fate = (x, f')

theorem onFolder_alone (output : String) : onFolder True output = undisturbed := by
  funext f op x f'
  refine propext ⟨?_, ?_⟩
  · rintro ⟨f₁, fate, hstirred, hhonest, hserve⟩
    obtain rfl := hstirred.eq_of_alone trivial
    exact ⟨fate, hhonest, hserve⟩
  · rintro ⟨fate, hhonest, hserve⟩
    exact ⟨f, fate, .refl f, hhonest, hserve⟩

theorem world_alone (output : String) : world False True output = undisturbed := by
  rw [← onFolder_eq, onFolder_alone]

section Jobs

variable {α β τ : Type}

/-- **A blocking job** comes to its end, or it panics somewhere. -/
def Worked (x : StoreM τ α) (t : τ) (f : Folder) : Option (Except StoreError (α × τ)) → Folder → Prop
  | none, f' => ∃ p, Reaches undisturbed f (x.run.run t) f' p
  | some (.error e), f' => ∃ t', Returns undisturbed f (x.run.run t) (.error e, t') f'
  | some (.ok (a, t')), f' => Returns undisturbed f (x.run.run t) (.ok a, t') f'

/-- What is told of it. -/
def told (tell : α → β) (done : Option (Except StoreError (α × τ))) : Option (Except StoreError β) :=
  done.map fun r ↦ r.map fun a ↦ tell a.1

/-- The handle that is left. -/
def left (done : Option (Except StoreError (α × τ))) : Option τ := done.bind fun r ↦ r.toOption.map Prod.snd

variable {x : StoreM τ α} {k : α → StoreM τ β} {t : τ} {f f' g : Folder} {done : Option (Except StoreError (α × τ))}

theorem failed_none : Failed (none : Option (Except StoreError α)) := by
  rintro _ ⟨⟩

theorem failed_error (e : StoreError) : Failed (some (.error e) : Option (Except StoreError α)) := by
  rintro _ ⟨⟩

theorem Failed.left (h : Failed done) : left done = none := by
  rcases done with _ | e | a
  · rfl
  · rfl
  · exact absurd rfl (h a)

theorem Failed.told {tell : α → β} (h : Failed done) : Failed (told tell done) := by
  rcases done with _ | e | a
  · exact failed_none
  · exact failed_error e
  · exact absurd rfl (h a)

/-- How a job ends that is judged. -/
theorem Worked.ends {output : String} {I : Folder → Prop} {Q : α → τ → Folder → Prop} {X : StoreError → τ → Folder → Prop}
    (hw : Worked x t f done f') (hx : Does (world False True output) I t f x Q X) (hI : I f) :
    (∃ a t', done = some (.ok (a, t')) ∧ Q a t' f') ∨ Failed done ∧ (I f' ∨ ∃ e t', X e t' f') := by
  rw [world_alone] at hx
  have hx : Ensures undisturbed I (Post Q X) f (x.run.run t) := hx
  rcases done with _ | e | ⟨a, t'⟩
  · obtain ⟨p, hreaches⟩ := hw
    exact Or.inr ⟨failed_none, Or.inl (hx.reaches hreaches hI).1⟩
  · obtain ⟨t', hreturns⟩ := hw
    exact Or.inr ⟨failed_error e, Or.inr ⟨e, t', hx.returns hreturns⟩⟩
  · exact Or.inl ⟨a, t', rfl, hx.returns hw⟩

/-- A job that is refused at once. -/
theorem Worked.refused {e : StoreError} (hw : Worked x t f done f') (hends : Ends x t (.error e) t) :
    Failed done ∧ f' = f := by
  have hx : x.run.run t = .done (.error e, t) := hends
  rcases done with _ | e' | ⟨a, t'⟩
  · obtain ⟨p, hreaches⟩ := hw
    rw [hx] at hreaches
    exact ⟨failed_none, Reaches.of_done hreaches⟩
  · obtain ⟨t', hreturns⟩ := hw
    rw [hx] at hreturns
    exact ⟨failed_error e', (Returns.of_done hreturns).2⟩
  · have hreturns : Returns undisturbed f (x.run.run t) (.ok a, t') f' := hw
    rw [hx] at hreturns
    cases (Returns.of_done hreturns).1

/-- What a job does to a folder that lags it does to the other one. -/
theorem Worked.lags (hw : Worked x t f done f') (h : f.Lags g) :
    ∃ g', Worked x t g done g' ∧ f'.Lags g' ∧ (g = f → g' = f') := by
  have hrefines : Process.Refines undisturbed undisturbed Folder.Lags := onFolder_alone "" ▸ Folder.lags_refines
  have hother : ∃ g', Worked x t g done g' ∧ f'.Lags g' := by
    rcases done with _ | e | ⟨a, t'⟩
    · obtain ⟨p, hreaches⟩ := hw
      obtain ⟨g', hreaches', hlags⟩ := hrefines.reaches h hreaches
      exact ⟨g', ⟨p, hreaches'⟩, hlags⟩
    · obtain ⟨t', hreturns⟩ := hw
      obtain ⟨g', hreturns', hlags⟩ := hrefines.returns h hreturns
      exact ⟨g', ⟨t', hreturns'⟩, hlags⟩
    · exact hrefines.returns h hw
  by_cases heq : g = f
  · obtain ⟨g', -, hordinary, -⟩ := hother
    exact ⟨f', heq ▸ hw, ⟨hordinary, Or.inl rfl⟩, fun _ ↦ rfl⟩
  · obtain ⟨g', hw', hlags⟩ := hother
    exact ⟨g', hw', hlags, fun h ↦ absurd h heq⟩

/-- **One job after another**: the first one fails, or the second one follows. -/
theorem Worked.of_bind {done : Option (Except StoreError (β × τ))} (hw : Worked (x >>= k) t f done f') :
    (Failed done ∧ ∃ done', Failed done' ∧ Worked x t f done' f') ∨
      ∃ a t₁ f₁, Worked x t f (some (.ok (a, t₁))) f₁ ∧ Worked (k a) t₁ f₁ done f' := by
  have hrun : (x >>= k).run.run t = (x.run.run t >>= fun r ↦ (ExceptT.bindCont k r.1).run r.2) := rfl
  rcases done with _ | e | ⟨b, t'⟩
  · obtain ⟨p, hreaches⟩ := hw
    rw [hrun] at hreaches
    rcases Reaches.of_bind hreaches with ⟨p', hfirst⟩ | ⟨⟨r, t₁⟩, f₁, hfirst, hrest⟩
    · exact Or.inl ⟨failed_none, none, failed_none, p', hfirst⟩
    · cases r with
      | ok a => exact Or.inr ⟨a, t₁, f₁, hfirst, p, hrest⟩
      | error e =>
        obtain rfl := Reaches.of_done hrest
        exact Or.inl ⟨failed_none, none, failed_none, _, hfirst.reaches⟩
  · obtain ⟨t', hreturns⟩ := hw
    rw [hrun] at hreturns
    obtain ⟨⟨r, t₁⟩, f₁, hfirst, hrest⟩ := Returns.of_bind hreturns
    cases r with
    | ok a => exact Or.inr ⟨a, t₁, f₁, hfirst, t', hrest⟩
    | error e' =>
      obtain ⟨-, rfl⟩ := Returns.of_done hrest
      exact Or.inl ⟨failed_error e, some (.error e'), failed_error e', t₁, hfirst⟩
  · have hreturns : Returns undisturbed f ((x >>= k).run.run t) (.ok b, t') f' := hw
    rw [hrun] at hreturns
    obtain ⟨⟨r, t₁⟩, f₁, hfirst, hrest⟩ := Returns.of_bind hreturns
    cases r with
    | ok a => exact Or.inr ⟨a, t₁, f₁, hfirst, hrest⟩
    | error e' => cases (Returns.of_done hrest).1

end Jobs

end Fhd.DownloadEngine
