import FhdEngine.DownloadCore.State
import Mathlib.Data.List.Induction

/-!
# What any run of a download keeps

Whoever commands a download and whatever it is told, in any order and with any tokens: tokens only grow, an event of an
attempt that is over is refused for good, a download that was paused or cancelled learns of no progress in that attempt
any more, and a completed one was told every step of its last attempt.
-/

namespace Fhd.DownloadCore

/-- A download, and what it has accepted since its attempt began, newest first. -/
structure Account where
  download : Download
  accepted : List Input
deriving DecidableEq, Repr

namespace Account

def step (a : Account) (input : Input) : Account :=
  match a.download.take input with
  | .ok d => ⟨d, if d.attempt = a.download.attempt then input :: a.accepted else []⟩
  | .error _ => a

def run (a : Account) (inputs : List Input) : Account := inputs.foldl step a

/-- The account keeps the download as it is. -/
theorem run_download (a : Account) (inputs : List Input) : (a.run inputs).download = a.download.run inputs := by
  induction inputs generalizing a with
  | nil => rfl
  | cons input inputs ih =>
    refine (ih (a.step input)).trans (congrArg (Download.run · inputs) ?_)
    rw [step, Download.step]
    split
    next d hd =>
      rw [hd]
      rfl
    next e he =>
      rw [he]
      rfl

end Account

/-- The steps of an attempt that has come this far, newest first. -/
def State.steps : State → Option (List Event)
  | .probing => some []
  | .downloading => some [.probeSucceeded]
  | .verifying => some [.transferFinished, .probeSucceeded]
  | .publishing => some [.verified, .transferFinished, .probeSucceeded]
  | .completed => some [.publishSucceeded, .verified, .transferFinished, .probeSucceeded]
  | _ => none

/-- Paused or cancelled, or about to be. -/
def State.Stopped (s : State) : Prop := s = .pausing ∨ s = .cancelling ∨ s = .paused ∨ s = .cancelled

instance (s : State) : Decidable s.Stopped := inferInstanceAs (Decidable (_ ∨ _))

/-- Nothing leads on from here. -/
def State.Terminal (s : State) : Prop := s = .completed ∨ s = .cancelled

/-! ### One transition -/

section Tables

variable {s s' : State} {c : Command} {e : Event} {begins : Bool} {steps : List Event}

/-- A command only ever leads to the first step of an attempt, or to none. -/
theorem obey_steps (h : s.obey c = some (s', begins)) (hsteps : s'.steps = some steps) : begins = true ∧ steps = [] := by
  cases s <;> cases c <;> cases h <;> cases hsteps <;> exact ⟨rfl, rfl⟩

/-- An event leads one step further, or off the way. -/
theorem learn_steps (h : s.learn e = some s') (hsteps : s'.steps = some steps) :
    ∃ before, s.steps = some before ∧ steps = e :: before := by
  cases s <;> cases e <;> cases h <;> cases hsteps <;> exact ⟨_, rfl, rfl⟩

theorem obey_stopped (h : s.obey c = some (s', false)) (hs : s.Stopped) : s'.Stopped := by
  revert hs
  cases s <;> cases c <;> cases h <;> decide

theorem learn_stopped (h : s.learn e = some s') (hs : s.Stopped) : s'.Stopped := by
  revert hs
  cases s <;> cases e <;> cases h <;> decide

theorem obey_terminal (c : Command) (hs : s.Terminal) : s.obey c = none := by
  rcases hs with rfl | rfl
  · cases c <;> rfl
  · cases c <;> rfl

theorem learn_terminal (e : Event) (hs : s.Terminal) : s.learn e = none := by
  rcases hs with rfl | rfl
  · cases e <;> rfl
  · cases e <;> rfl

end Tables

namespace Download

variable {d d' : Download} {input : Input} {inputs : List Input}

/-- **What an accepted input does to the token**: an event has it and keeps it, a command keeps it or takes the next. -/
theorem take_attempt (h : d.take input = .ok d') : d'.attempt.downloadId = d.attempt.downloadId ∧
    (d'.attempt = d.attempt ∨ d'.attempt.sequence = d.attempt.sequence + 1) := by
  cases input with
  | command c =>
    obtain ⟨begins, -, hid, hattempt⟩ := command_eq_ok.1 h
    cases begins with
    | false => exact ⟨hid, Or.inl hattempt⟩
    | true => exact ⟨hid, Or.inr hattempt.2⟩
  | event attempt e =>
    obtain ⟨-, hsame, -⟩ := event_eq_ok.1 h
    exact ⟨congrArg _ hsame, Or.inl hsame⟩

theorem step_eq (d : Download) (input : Input) : d.step input = d ∨ d.take input = .ok (d.step input) := by
  rw [step]
  cases d.take input with
  | error e => exact Or.inl rfl
  | ok d' => exact Or.inr rfl

theorem run_append (d : Download) (l l' : List Input) : d.run (l ++ l') = (d.run l).run l' := List.foldl_append

theorem step_attempt (d : Download) (input : Input) : (d.step input).attempt.downloadId = d.attempt.downloadId ∧
    ((d.step input).attempt = d.attempt ∨ (d.step input).attempt.sequence = d.attempt.sequence + 1) := by
  rcases d.step_eq input with hsame | htake
  · rw [hsame]
    exact ⟨rfl, Or.inl rfl⟩
  · exact take_attempt htake

/-- **Tokens grow.** -/
theorem run_attempt (d : Download) (inputs : List Input) : (d.run inputs).attempt.downloadId = d.attempt.downloadId ∧
    ((d.run inputs).attempt = d.attempt ∨ d.attempt.sequence < (d.run inputs).attempt.sequence) := by
  induction inputs generalizing d with
  | nil => exact ⟨rfl, Or.inl rfl⟩
  | cons input inputs ih =>
    obtain ⟨hid, hstep⟩ := d.step_attempt input
    obtain ⟨hid', hrun⟩ := ih (d.step input)
    refine ⟨hid'.trans hid, ?_⟩
    rcases hstep with hsame | hnext
    · rw [← hsame]
      exact hrun
    · rcases hrun with hsame | hmore
      · have hlast := congrArg AttemptToken.sequence hsame
        exact Or.inr (by show _ < ((d.step input).run inputs).attempt.sequence; omega)
      · exact Or.inr (by show _ < ((d.step input).run inputs).attempt.sequence; omega)

/-- An attempt that is over stays over. -/
theorem run_superseded (hover : (d.run inputs).attempt ≠ d.attempt) (more : List Input) :
    (d.run (inputs ++ more)).attempt ≠ d.attempt := by
  have hless := (d.run_attempt inputs).2.resolve_left hover
  intro hsame
  have hback := congrArg AttemptToken.sequence hsame
  rw [run_append] at hback
  rcases ((d.run inputs).run_attempt more).2 with h | h
  · have := congrArg AttemptToken.sequence h
    omega
  · omega

/-- **A stopped attempt stays stopped.** -/
theorem run_stopped (hs : d.state.Stopped) (hsame : (d.run inputs).attempt = d.attempt) :
    (d.run inputs).state.Stopped := by
  induction inputs using List.reverseRecOn with
  | nil => exact hs
  | append_singleton inputs input ih =>
    have hbefore : (d.run inputs).attempt = d.attempt :=
      not_not.1 fun hover ↦ run_superseded hover [input] hsame
    have hstopped := ih hbefore
    rw [run_append] at hsame ⊢
    rcases (d.run inputs).step_eq input with heq | htake
    · show ((d.run inputs).step input).state.Stopped
      rw [heq]
      exact hstopped
    · cases input with
      | command c =>
        obtain ⟨begins, hobey, -, hattempt⟩ := command_eq_ok.1 htake
        cases begins with
        | false => exact obey_stopped hobey hstopped
        | true =>
          have hnext : ((d.run inputs).step (.command c)).attempt.sequence = d.attempt.sequence :=
            congrArg AttemptToken.sequence hsame
          rw [hattempt.2, hbefore] at hnext
          omega
      | event attempt e => exact learn_stopped (event_eq_ok.1 htake).2.2 hstopped

/-- **Nothing leads on** from a terminal state. -/
theorem run_terminal (hs : d.state.Terminal) (inputs : List Input) : d.run inputs = d := by
  induction inputs with
  | nil => rfl
  | cons input inputs ih =>
    have hstep : d.step input = d := by
      refine (d.step_eq input).resolve_right fun htake ↦ ?_
      cases input with
      | command c =>
        obtain ⟨begins, hobey, -⟩ := command_eq_ok.1 htake
        rw [obey_terminal c hs] at hobey
        cases hobey
      | event attempt e =>
        have hlearn := (event_eq_ok.1 htake).2.2
        rw [learn_terminal e hs] at hlearn
        cases hlearn
    show (d.step input).run inputs = d
    rw [hstep]
    exact ih

end Download

/-! ### The account -/

/-- **The account of an attempt on its way** is made of its steps so far. -/
def Account.Right (a : Account) : Prop :=
  ∀ steps ∈ a.download.state.steps, a.accepted = steps.map (.event a.download.attempt)

theorem Account.Right.step {a : Account} (h : a.Right) (input : Input) : (a.step input).Right := by
  rw [Account.step]
  split
  next d htake =>
    intro steps hsteps
    cases input with
    | command c =>
      obtain ⟨begins, hobey, -, hattempt⟩ := Download.command_eq_ok.1 htake
      obtain ⟨rfl, rfl⟩ := obey_steps hobey hsteps
      refine if_neg fun hsame ↦ ?_
      have := congrArg AttemptToken.sequence hsame
      rw [hattempt.2] at this
      omega
    | event attempt e =>
      obtain ⟨rfl, hsame, hlearn⟩ := Download.event_eq_ok.1 htake
      obtain ⟨before, hbefore, rfl⟩ := learn_steps hlearn hsteps
      rw [List.map_cons, hsame, ← h before hbefore]
      exact if_pos rfl
  next => exact h

theorem Account.Right.run {a : Account} (h : a.Right) (inputs : List Input) : (a.run inputs).Right := by
  induction inputs generalizing a with
  | nil => exact h
  | cons input inputs ih => exact ih (h.step input)

/-- **What every run of a download keeps.** -/
structure Lifecycle (id : DownloadId) : Prop where
  /-- It is completed only by the four acknowledgements of one attempt, with nothing accepted between them. -/
  completed : ∀ inputs, ((Download.new id).run inputs).state = .completed →
    (Account.run ⟨.new id, []⟩ inputs).accepted =
      [.publishSucceeded, .verified, .transferFinished, .probeSucceeded].map
        (Input.event ((Download.new id).run inputs).attempt)
  /-- The token of an attempt that is over is refused for good. -/
  fenced : ∀ inputs more later event, ((Download.new id).run (inputs ++ more)).attempt ≠
      ((Download.new id).run inputs).attempt →
    ((Download.new id).run (inputs ++ more ++ later)).event ((Download.new id).run inputs).attempt event =
      .error .staleAttempt
  /-- A stopped attempt makes no progress, whatever it is told. -/
  stopped : ∀ inputs more, ((Download.new id).run inputs).state.Stopped →
    ((Download.new id).run (inputs ++ more)).attempt = ((Download.new id).run inputs).attempt →
      ((Download.new id).run (inputs ++ more)).state.Stopped
  /-- What is over stays over. -/
  terminal : ∀ inputs more, ((Download.new id).run inputs).state.Terminal →
    (Download.new id).run (inputs ++ more) = (Download.new id).run inputs

/-- **Every run of every download** keeps its lifecycle. -/
theorem download_lifecycle (id : DownloadId) : Lifecycle id := by
  refine ⟨fun inputs hcompleted ↦ ?_, fun inputs more later event hover ↦ ?_, fun inputs more hs hsame ↦ ?_,
    fun inputs more hs ↦ ?_⟩
  · have hnew : Account.Right ⟨.new id, []⟩ := by rintro _ ⟨⟩
    have hright := hnew.run inputs
    have hdownload := Account.run_download ⟨.new id, []⟩ inputs
    rw [Account.Right, hdownload] at hright
    exact hright _ (by rw [hcompleted]; rfl)
  · rw [Download.run_append] at hover
    have hlater := Download.run_superseded hover later
    rw [← Download.run_append, ← List.append_assoc] at hlater
    exact if_pos (Ne.symm hlater)
  · rw [Download.run_append] at hsame ⊢
    exact Download.run_stopped hs hsame
  · rw [Download.run_append]
    exact Download.run_terminal hs more

/-- An attempt that was recovered is refused, and the next one completes. -/
example : (((Download.new 1).run [.command .start, .event ⟨1, 1⟩ .probeSucceeded, .command .recover,
    .event ⟨1, 1⟩ .transferFinished, .event ⟨1, 2⟩ .reconciled, .command .resume, .event ⟨1, 3⟩ .probeSucceeded,
    .event ⟨1, 3⟩ .transferFinished, .event ⟨1, 3⟩ .verified, .event ⟨1, 3⟩ .publishSucceeded]).state = .completed) := by
  decide

end Fhd.DownloadCore
