import Mathlib.Data.List.Basic
import Mathlib.Tactic.Common

/-!
# Programs that call their environment, and how they interleave

A **program** is done, or it calls and goes on with the answer. Calls of program number `n` are
served from a shared state by `serve n`, with a choice that stands for everything the program does not
control. Between two calls anybody may change the state: a pool is the shared state with any number
of programs at any point of their execution, and a run is any sequence of moves, each of which starts
a program, serves one call, or disturbs the state from outside.

`Safe` is the rule for one program at a time. It is a **rely–guarantee** judgement: whatever the
others do within `rely`, every call of the program stays within `guarantee` and keeps the invariant,
and its result satisfies the postcondition at all later times. If what each program guarantees is
what the others rely on (`Contract`), then the judgement of every program survives every run
(`Contract.run`), and so does any further judgement of one of them (`Contract.safe_run`).
-/

namespace Process

/-- A program with result `α` that calls operations of `Op`. -/
inductive Prog (Op : Type) (Ans : Op → Type) (α : Type) : Type
  | done (result : α)
  | call (op : Op) (next : Ans op → Prog Op Ans α)

variable {Op : Type} {Ans : Op → Type} {α β σ χ : Type}

namespace Prog

def bind : Prog Op Ans α → (α → Prog Op Ans β) → Prog Op Ans β
  | .done a, f => f a
  | .call op next, f => .call op fun x ↦ (next x).bind f

instance : Monad (Prog Op Ans) where
  pure := .done
  bind := .bind

/-- One call. -/
def ask (op : Op) : Prog Op Ans (Ans op) := .call op .done

/-- What a program has returned. -/
def result? : Prog Op Ans α → Option α
  | .done a => some a
  | .call _ _ => none

theorem eq_done {p : Prog Op Ans α} {a : α} (h : p.result? = some a) : p = .done a := by
  cases p with
  | done b => rw [Option.some.inj h]
  | call op next => cases h

/-- A named program that has returned is found by its name and its result. -/
theorem getElem?_of_result {ι : Type} {l : List (ι × Prog Op Ans α)} {n : ℕ} {x : ι} {a : α}
    (h : l[n]?.map (fun e ↦ (e.1, e.2.result?)) = some (x, some a)) : l[n]? = some (x, .done a) := by
  obtain ⟨⟨y, p⟩, hp, heq⟩ := Option.map_eq_some_iff.1 h
  obtain ⟨rfl, hresult⟩ := Prod.mk.inj heq
  have hdone : p = .done a := eq_done hresult
  rw [hp, hdone]

end Prog

/-! ### One program among others -/

section Safe

variable (serve : σ → (op : Op) → χ → Ans op × σ) (I : σ → Prop) (R G : σ → σ → Prop)

/-- **From here on**, whatever the others do within `R`, the program keeps `I`, moves the state
within `G`, and returns only results that satisfy `Q`. -/
def Safe (Q : α → σ → Prop) : Prog Op Ans α → σ → Prop
  | .done a, s => ∀ s', R s s' → I s' → Q a s'
  | .call op next, s => ∀ s', R s s' → I s' → ∀ c,
    I (serve s' op c).2 ∧ G s' (serve s' op c).2 ∧
      Safe Q (next (serve s' op c).1) (serve s' op c).2

variable {serve I R G} {Q Q' : α → σ → Prop} {p : Prog Op Ans α} {s s' : σ}

/-- The others may always do one more thing. -/
theorem Safe.stable (htrans : ∀ {a b c : σ}, R a b → R b c → R a c)
    (h : Safe serve I R G Q p s) (hs : R s s') : Safe serve I R G Q p s' := by
  cases p with
  | done a => exact fun s'' hs' ↦ h s'' (htrans hs hs')
  | call op next => exact fun s'' hs' ↦ h s'' (htrans hs hs')

theorem Safe.mono (h : Safe serve I R G Q p s) (hQ : ∀ a s, I s → Q a s → Q' a s) :
    Safe serve I R G Q' p s := by
  induction p generalizing s with
  | done a => exact fun s' hs' hI ↦ hQ a s' hI (h s' hs' hI)
  | call op next ih =>
    intro s' hs' hI c
    obtain ⟨hI', hg, hnext⟩ := h s' hs' hI c
    exact ⟨hI', hg, ih _ hnext⟩

/-- Every program keeps what every call keeps. -/
theorem safe_of_serve (hI : ∀ s op c, I s → I (serve s op c).2) (hG : ∀ s op c, I s → G s (serve s op c).2)
    (p : Prog Op Ans α) (s : σ) : Safe serve I R G (fun _ _ ↦ True) p s := by
  induction p generalizing s with
  | done a => exact fun _ _ _ ↦ trivial
  | call op next ih => exact fun s' _ hs' c ↦ ⟨hI s' op c hs', hG s' op c hs', ih _ _⟩

theorem Safe.weaken {G' : σ → σ → Prop} (h : Safe serve I R G Q p s) (hG : ∀ s s', G s s' → G' s s') :
    Safe serve I R G' Q p s := by
  induction p generalizing s with
  | done a => exact h
  | call op next ih =>
    intro s' hs' hI c
    obtain ⟨hI', hg, hnext⟩ := h s' hs' hI c
    exact ⟨hI', hG _ _ hg, ih _ hnext⟩

/-- **Sequencing**: the second program starts where the first one stops. -/
theorem Safe.bind (hrefl : ∀ a : σ, R a a) {f : α → Prog Op Ans β} {Q : β → σ → Prop} (hI : I s)
    (h : Safe serve I R G (fun a s ↦ Safe serve I R G Q (f a) s) p s) :
    Safe serve I R G Q (p >>= f) s := by
  induction p generalizing s with
  | done a => exact h s (hrefl s) hI
  | call op next ih =>
    intro s' hs' hI' c
    obtain ⟨hI'', hg, hnext⟩ := h s' hs' hI' c
    exact ⟨hI'', hg, ih _ hI'' hnext⟩

/-- A single call. -/
theorem Safe.ask {op : Op} {Q : Ans op → σ → Prop}
    (hQ : ∀ a {s s'}, R s s' → I s' → Q a s → Q a s')
    (h : ∀ s', R s s' → I s' → ∀ c, I (serve s' op c).2 ∧ G s' (serve s' op c).2 ∧
      Q (serve s' op c).1 (serve s' op c).2) :
    Safe serve I R G Q (Prog.ask op) s := by
  intro s' hs' hI c
  obtain ⟨hI', hg, hq⟩ := h s' hs' hI c
  exact ⟨hI', hg, fun s'' hs'' hI'' ↦ hQ _ hs'' hI'' hq⟩

/-- Sequencing with early return. -/
theorem Safe.bindExcept {ε : Type} (hrefl : ∀ a : σ, R a a) {x : ExceptT ε (Prog Op Ans) α}
    {f : α → ExceptT ε (Prog Op Ans) β} {Q : Except ε β → σ → Prop} (hI : I s)
    (h : Safe serve I R G (fun r s ↦
      match r with
      | .ok a => Safe serve I R G Q (f a).run s
      | .error e => Safe serve I R G Q (.done (.error e)) s) x.run s) :
    Safe serve I R G Q (x >>= f).run s := by
  have hbind : Safe serve I R G Q (x.run >>= ExceptT.bindCont f) s := by
    refine Safe.bind hrefl hI (h.mono fun r s _ hr ↦ ?_)
    cases r with
    | ok a => exact hr
    | error e => exact hr
  exact hbind

end Safe

/-! ### Programs whatever they are answered -/

section Within

variable {C C' : Op → Prop} {Q Q' : α → Prop} {p : Prog Op Ans α}

/-- Whatever it is answered, the program makes only calls of `C` and returns only results of `Q`. -/
def Prog.Within (C : Op → Prop) (Q : α → Prop) : Prog Op Ans α → Prop
  | .done a => Q a
  | .call op next => C op ∧ ∀ x, (next x).Within C Q

theorem Prog.Within.mono (h : p.Within C Q) (hC : ∀ op, C op → C' op) (hQ : ∀ a, Q a → Q' a) :
    p.Within C' Q' := by
  induction p with
  | done a => exact hQ a h
  | call op next ih => exact ⟨hC op h.1, fun x ↦ ih x (h.2 x)⟩

theorem Prog.within_trivial (p : Prog Op Ans α) : p.Within (fun _ ↦ True) fun _ ↦ True := by
  induction p with
  | done a => exact trivial
  | call op next ih => exact ⟨trivial, ih⟩

theorem Prog.Within.bind {f : α → Prog Op Ans β} {Q : β → Prop}
    (h : p.Within C fun a ↦ (f a).Within C Q) : (p >>= f).Within C Q := by
  induction p with
  | done a => exact h
  | call op next ih => exact ⟨h.1, fun x ↦ ih x (h.2 x)⟩

theorem Prog.Within.bindExcept {ε : Type} {x : ExceptT ε (Prog Op Ans) α}
    {f : α → ExceptT ε (Prog Op Ans) β} {Q : Except ε β → Prop}
    (h : x.run.Within C fun r ↦
      match r with
      | .ok a => (f a).run.Within C Q
      | .error e => Q (.error e)) : (x >>= f).run.Within C Q := by
  have hbind : (x.run >>= ExceptT.bindCont f).Within C Q := by
    refine Prog.Within.bind (h.mono (fun _ ↦ id) fun r hr ↦ ?_)
    cases r with
    | ok a => exact hr
    | error e => exact hr
  exact hbind

end Within

/-! ### Pools -/

/-- Programs by name, how their calls are served, and what else happens to the state. -/
structure System (σ ι Op : Type) (Ans : Op → Type) (α χ ε : Type) where
  program : ι → Prog Op Ans α
  serve : ℕ → σ → (op : Op) → χ → Ans op × σ
  disturb : σ → ε → σ

/-- The shared state, and what is left of every program that was started, with its name. -/
structure Pool (σ ι Op : Type) (Ans : Op → Type) (α : Type) where
  shared : σ
  procs : List (ι × Prog Op Ans α)

inductive Move (ι χ ε : Type)
  | start (x : ι)
  | advance (n : ℕ) (choice : χ)
  | disturb (e : ε)
deriving DecidableEq

namespace System

variable {ι ε : Type} (S : System σ ι Op Ans α χ ε)

/-- One move. A program that is done, or that does not exist, cannot be advanced. -/
def step (P : Pool σ ι Op Ans α) : Move ι χ ε → Pool σ ι Op Ans α
  | .start x => { P with procs := P.procs ++ [(x, S.program x)] }
  | .advance n c =>
    match P.procs[n]? with
    | some (x, .call op next) =>
      ⟨(S.serve n P.shared op c).2, P.procs.set n (x, next (S.serve n P.shared op c).1)⟩
    | _ => P
  | .disturb e => { P with shared := S.disturb P.shared e }

def run (P : Pool σ ι Op Ans α) (moves : List (Move ι χ ε)) : Pool σ ι Op Ans α :=
  moves.foldl S.step P

@[simp] theorem run_nil (P : Pool σ ι Op Ans α) : S.run P [] = P := rfl

@[simp] theorem run_cons (P : Pool σ ι Op Ans α) (m : Move ι χ ε) (l : List (Move ι χ ε)) :
    S.run P (m :: l) = S.run (S.step P m) l := rfl

theorem run_append (P : Pool σ ι Op Ans α) (l l' : List (Move ι χ ε)) :
    S.run P (l ++ l') = S.run (S.run P l) l' := List.foldl_append

/-- **Every move** of the run finds the pool as `C` says. -/
def Throughout (C : Pool σ ι Op Ans α → Move ι χ ε → Prop) :
    Pool σ ι Op Ans α → List (Move ι χ ε) → Prop
  | _, [] => True
  | P, m :: l => C P m ∧ Throughout C (S.step P m) l

instance decidableThroughout (C : Pool σ ι Op Ans α → Move ι χ ε → Prop) [∀ P m, Decidable (C P m)]
    (P : Pool σ ι Op Ans α) (moves : List (Move ι χ ε)) : Decidable (S.Throughout C P moves) :=
  match moves with
  | [] => inferInstanceAs (Decidable True)
  | m :: moves =>
    have := decidableThroughout C (S.step P m) moves
    inferInstanceAs (Decidable (_ ∧ _))

end System

namespace System

variable {ι ε : Type} {S : System σ ι Op Ans α χ ε} {P : Pool σ ι Op Ans α} {C : Op → Prop}
  {Q : α → Prop} {I : σ → Prop} {n : ℕ} {x : ι} {p : Prog Op Ans α}

/-- A program keeps its name, and a new one gets the next number. -/
theorem names_step (P : Pool σ ι Op Ans α) (move : Move ι χ ε) :
    P.procs.map Prod.fst <+: (S.step P move).procs.map Prod.fst := by
  cases move with
  | start x =>
    rw [step, List.map_append]
    exact List.prefix_append _ _
  | disturb e => exact List.prefix_refl _
  | advance n c =>
    simp only [step]
    split
    next y op next hn =>
      have hname : (P.procs.map Prod.fst)[n]? = some y := by rw [List.getElem?_map, hn]; rfl
      obtain ⟨hlt, rfl⟩ := List.getElem?_eq_some_iff.1 hname
      show P.procs.map Prod.fst <+: (P.procs.set n _).map Prod.fst
      exact List.map_set ▸ (List.set_getElem_self hlt).symm ▸ List.prefix_refl _
    · exact List.prefix_refl _

/-- What every move keeps, if it finds the pool as `C` says, holds after the run. -/
theorem run_of_throughout {J : Pool σ ι Op Ans α → Prop} {C : Pool σ ι Op Ans α → Move ι χ ε → Prop}
    (hstep : ∀ P m, J P → C P m → J (S.step P m)) (hJ : J P) {moves : List (Move ι χ ε)}
    (h : S.Throughout C P moves) : J (S.run P moves) := by
  induction moves generalizing P with
  | nil => exact hJ
  | cons m moves ih => exact ih (hstep P m hJ h.1) h.2

/-- A program that was started stays where it is, until it is advanced. -/
theorem procs_step (hn : P.procs[n]? = some (x, p)) {move : Move ι χ ε}
    (hmove : ∀ c, move ≠ .advance n c) : (S.step P move).procs[n]? = some (x, p) := by
  have hlt : n < P.procs.length := (List.getElem?_eq_some_iff.1 hn).1
  cases move with
  | start y => exact (List.getElem?_append_left hlt).trans hn
  | disturb e => exact hn
  | advance m c =>
    have hmn : m ≠ n := fun heq ↦ hmove c (by rw [heq])
    simp only [step]
    split
    · rw [List.getElem?_set_ne hmn]
      exact hn
    · exact hn

/-- A program that is started gets the next number. -/
theorem procs_start (x : ι) : (S.step P (.start x)).procs[P.procs.length]? = some (x, S.program x) := by
  rw [step, List.getElem?_append_right (Nat.le_refl _), Nat.sub_self]
  rfl

/-- An advance serves the next call. -/
theorem step_advance {op : Op} {next : Ans op → Prog Op Ans α} (hn : P.procs[n]? = some (x, .call op next))
    (c : χ) : S.step P (.advance n c) =
      ⟨(S.serve n P.shared op c).2, P.procs.set n (x, next (S.serve n P.shared op c).1)⟩ := by
  simp only [step, hn]

theorem procs_advance {op : Op} {next : Ans op → Prog Op Ans α} (hn : P.procs[n]? = some (x, .call op next))
    (c : χ) : (S.step P (.advance n c)).procs[n]? = some (x, next (S.serve n P.shared op c).1) := by
  rw [step_advance hn]
  exact List.getElem?_set_self (List.getElem?_eq_some_iff.1 hn).1

/-- What is done stays done. -/
theorem procs_done {a : α} (hn : P.procs[n]? = some (x, .done a)) (moves : List (Move ι χ ε)) :
    (S.run P moves).procs[n]? = some (x, .done a) := by
  induction moves generalizing P with
  | nil => exact hn
  | cons move moves ih =>
    refine ih ?_
    by_cases hmove : ∀ c, move ≠ .advance n c
    · exact procs_step hn hmove
    · obtain ⟨c, hc⟩ := not_forall.1 hmove
      obtain rfl := not_not.1 hc
      simp only [step, hn]

/-- **A program that is advanced often enough is done.** -/
theorem exists_done (hn : P.procs[n]? = some (x, p)) (c : χ) : ∃ k a,
    (S.run P (List.replicate k (.advance n c))).procs[n]? = some (x, .done a) := by
  induction p generalizing P with
  | done a => exact ⟨0, a, hn⟩
  | call op next ih =>
    obtain ⟨k, a, hk⟩ := ih _ (procs_advance hn c)
    exact ⟨k + 1, a, hk⟩

/-- **One program of a pool** keeps within what holds of it whatever it is answered. -/
theorem within_step (hn : P.procs[n]? = some (x, p)) (hp : p.Within C Q) (move : Move ι χ ε) :
    ∃ p', (S.step P move).procs[n]? = some (x, p') ∧ p'.Within C Q := by
  by_cases hmove : ∀ c, move ≠ .advance n c
  · exact ⟨p, procs_step hn hmove, hp⟩
  · obtain ⟨c, hc⟩ := not_forall.1 hmove
    obtain rfl := not_not.1 hc
    cases p with
    | done a =>
      simp only [step, hn]
      exact ⟨.done a, rfl, hp⟩
    | call op next => exact ⟨_, procs_advance hn c, hp.2 _⟩

theorem within_run (hn : P.procs[n]? = some (x, p)) (hp : p.Within C Q) (moves : List (Move ι χ ε)) :
    ∃ p', (S.run P moves).procs[n]? = some (x, p') ∧ p'.Within C Q := by
  induction moves generalizing P p with
  | nil => exact ⟨p, hn, hp⟩
  | cons move moves ih =>
    obtain ⟨p', hn', hp'⟩ := within_step hn hp move
    exact ih hn' hp'

/-- **What every call keeps holds after every run**, if each program makes no other calls. -/
theorem kept_of_within (hprogram : ∀ x, (S.program x).Within C Q)
    (hserve : ∀ n s op c, C op → I s → I (S.serve n s op c).2)
    (hdisturb : ∀ s e, I s → I (S.disturb s e)) (hI : I P.shared)
    (hP : ∀ (n : ℕ) (x : ι) (p : Prog Op Ans α), P.procs[n]? = some (x, p) → p.Within C Q) (moves : List (Move ι χ ε)) :
    I (S.run P moves).shared ∧
      ∀ (n : ℕ) (x : ι) (p : Prog Op Ans α), (S.run P moves).procs[n]? = some (x, p) → p.Within C Q := by
  induction moves generalizing P with
  | nil => exact ⟨hI, hP⟩
  | cons move moves ih =>
    refine ih ?_ fun n x p hn ↦ ?_
    · cases move with
      | start x => exact hI
      | disturb e => exact hdisturb _ e hI
      | advance m c =>
        simp only [step]
        split
        next y op next hm => exact hserve m _ op c (hP m y _ hm).1 hI
        · exact hI
    · rcases Nat.lt_or_ge n P.procs.length with hlt | hge
      · obtain ⟨⟨y, q⟩, hq⟩ : ∃ e, P.procs[n]? = some e := ⟨_, List.getElem?_eq_getElem hlt⟩
        obtain ⟨q', hq', hwithin⟩ := within_step (S := S) hq (hP n y q hq) move
        rw [hn] at hq'
        cases hq'
        exact hwithin
      · cases move with
        | start y =>
          rw [step, List.getElem?_append_right hge] at hn
          obtain ⟨hlt, heq⟩ := List.getElem?_eq_some_iff.1 hn
          rw [List.getElem_singleton] at heq
          cases heq
          exact hprogram x
        | disturb e => exact hP n x p hn
        | advance m c =>
          simp only [step] at hn
          split at hn
          · rw [List.getElem?_eq_none (by simpa using hge)] at hn
            cases hn
          · exact hP n x p hn

end System

/-! ### Records -/

section Erase

variable {τ ι ε : Type} {S : System σ ι Op Ans α χ ε} {T : System τ ι Op Ans α χ ε}

/-- No move of the run has a choice that `f` would change. -/
def Settled (f : Op → χ → χ) (P : Pool τ ι Op Ans α) (move : Move ι χ ε) : Prop :=
  ∀ n c, move = .advance n c → ∀ x op next, P.procs[n]? = some (x, .call op next) → f op c = c

/-- **What is only recorded changes nothing**: the system without the record makes the same moves. -/
theorem System.run_erase {π : σ → τ} {f : Op → χ → χ} (hprogram : ∀ x, S.program x = T.program x)
    (hserve : ∀ n s op c, T.serve n (π s) op (f op c) = ((S.serve n s op c).1, π (S.serve n s op c).2))
    (hdisturb : ∀ s e, π (S.disturb s e) = T.disturb (π s) e) {P : Pool σ ι Op Ans α} {moves : List (Move ι χ ε)}
    (h : T.Throughout (Settled f) ⟨π P.shared, P.procs⟩ moves) :
    T.run ⟨π P.shared, P.procs⟩ moves = ⟨π (S.run P moves).shared, (S.run P moves).procs⟩ := by
  induction moves generalizing P with
  | nil => rfl
  | cons move moves ih =>
    have hstep : T.step ⟨π P.shared, P.procs⟩ move = ⟨π (S.step P move).shared, (S.step P move).procs⟩ := by
      cases move with
      | start x => simp only [step, hprogram]
      | disturb e => simp only [step, hdisturb]
      | advance n c =>
        simp only [step]
        split
        next x op next hn =>
          have hserved := hserve n P.shared op c
          rw [h.1 n c rfl x op next hn] at hserved
          rw [hserved]
        next => rfl
    have hrest := h.2
    rw [hstep] at hrest
    rw [run_cons, run_cons, hstep]
    exact ih hrest

end Erase

/-- What is assumed and promised about every program, by its number. A program that has not started
yet has its number already; its start relies on `fresh`. -/
structure Discipline (σ ι α : Type) where
  inv : σ → Prop
  fresh : ℕ → σ → Prop
  rely : ℕ → σ → σ → Prop
  guarantee : ℕ → σ → σ → Prop
  post : ℕ → ι → α → σ → Prop

variable {ι ε : Type}

/-- **What each program guarantees is what the others rely on.** -/
structure Contract (S : System σ ι Op Ans α χ ε) (D : Discipline σ ι α) : Prop where
  refl : ∀ n s, D.rely n s s
  trans : ∀ n {a b c}, D.rely n a b → D.rely n b c → D.rely n a c
  others : ∀ {n m s s'}, n ≠ m → D.guarantee n s s' → D.rely m s s'
  disturb : ∀ s e, D.inv s → D.inv (S.disturb s e) ∧ ∀ n, D.rely n s (S.disturb s e)
  fresh : ∀ {n s s'}, D.rely n s s' → D.fresh n s → D.fresh n s'
  start : ∀ n x s, D.inv s → D.fresh n s →
    Safe (S.serve n) D.inv (D.rely n) (D.guarantee n) (D.post n x) (S.program x) s

/-- Every program of the pool is safe from here on. -/
structure Disciplined (S : System σ ι Op Ans α χ ε) (D : Discipline σ ι α)
    (P : Pool σ ι Op Ans α) : Prop where
  inv : D.inv P.shared
  fresh : ∀ n, P.procs.length ≤ n → D.fresh n P.shared
  safe : ∀ n x p, P.procs[n]? = some (x, p) →
    Safe (S.serve n) D.inv (D.rely n) (D.guarantee n) (D.post n x) p P.shared

namespace Contract

variable {S : System σ ι Op Ans α χ ε} {D : Discipline σ ι α} {P : Pool σ ι Op Ans α}
  {G : σ → σ → Prop} {Q : α → σ → Prop} {n : ℕ} {x : ι} {p : Prog Op Ans α}
  (h : Contract S D) (hP : Disciplined S D P)
include h hP

/-- Program number `n` may rely on every move but its own. -/
theorem rely_step (move : Move ι χ ε) (hn : ∀ c, move ≠ .advance n c) :
    D.rely n P.shared (S.step P move).shared := by
  cases move with
  | start x => exact h.refl n _
  | disturb e => exact (h.disturb _ e hP.inv).2 n
  | advance m c =>
    have hmn : m ≠ n := fun heq ↦ hn c (by rw [heq])
    simp only [System.step]
    split
    next y op next hm => exact h.others hmn (hP.safe m y _ hm _ (h.refl m _) hP.inv c).2.1
    · exact h.refl n _

/-- **A judgement survives every move.** It may be any judgement of the program, also one that the
discipline does not know. -/
theorem safe_step (hn : P.procs[n]? = some (x, p))
    (hp : Safe (S.serve n) D.inv (D.rely n) G Q p P.shared) (move : Move ι χ ε) :
    ∃ p', (S.step P move).procs[n]? = some (x, p') ∧
      Safe (S.serve n) D.inv (D.rely n) G Q p' (S.step P move).shared := by
  have hlt : n < P.procs.length := (List.getElem?_eq_some_iff.1 hn).1
  cases move with
  | start y => exact ⟨p, (List.getElem?_append_left hlt).trans hn, hp⟩
  | disturb e => exact ⟨p, hn, hp.stable (h.trans n) ((h.disturb _ e hP.inv).2 n)⟩
  | advance m c =>
    by_cases hmn : m = n
    · subst hmn
      cases p with
      | done a =>
        simp only [System.step, hn]
        exact ⟨.done a, rfl, hp⟩
      | call op next =>
        obtain ⟨-, -, hnext⟩ := hp _ (h.refl m _) hP.inv c
        simp only [System.step, hn]
        exact ⟨_, List.getElem?_set_self hlt, hnext⟩
    · have hrely := h.rely_step hP (.advance m c) fun c' heq ↦ hmn (Move.advance.inj heq).1
      refine ⟨p, ?_, hp.stable (h.trans n) hrely⟩
      simp only [System.step]
      split
      · rw [List.getElem?_set_ne hmn]
        exact hn
      · exact hn

/-- **One move keeps the discipline.** -/
theorem step (move : Move ι χ ε) : Disciplined S D (S.step P move) := by
  cases move with
  | start x =>
    refine ⟨hP.inv, fun n hn ↦ hP.fresh n ?_, fun n y p hn ↦ ?_⟩
    · rw [System.step, List.length_append] at hn
      exact Nat.le_of_add_right_le hn
    · rcases Nat.lt_or_ge n P.procs.length with hlt | hge
      · exact hP.safe n y p ((List.getElem?_append_left hlt).symm.trans hn)
      · rw [System.step, List.getElem?_append_right hge] at hn
        obtain ⟨hsub, heq⟩ := List.getElem?_eq_some_iff.1 hn
        rw [List.length_singleton] at hsub
        obtain rfl : n = P.procs.length := by omega
        rw [List.getElem_singleton] at heq
        cases heq
        exact h.start _ x _ hP.inv (hP.fresh _ (Nat.le_refl _))
  | disturb e =>
    obtain ⟨hinv, hrely⟩ := h.disturb _ e hP.inv
    exact ⟨hinv, fun n hn ↦ h.fresh (hrely n) (hP.fresh n hn), fun n y p hn ↦
      (hP.safe n y p hn).stable (h.trans n) (hrely n)⟩
  | advance m c =>
    rcases hm : P.procs[m]? with - | ⟨y, p⟩
    · rwa [System.step, hm]
    · cases p with
      | done a => rwa [System.step, hm]
      | call op next =>
        obtain ⟨hinv, hguarantee, -⟩ := hP.safe m y _ hm _ (h.refl m _) hP.inv c
        have hlt : m < P.procs.length := (List.getElem?_eq_some_iff.1 hm).1
        have hprocs : (S.step P (.advance m c)).procs.length = P.procs.length := by
          simp [System.step, hm]
        refine ⟨by simpa [System.step, hm] using hinv, fun n hn ↦ ?_, fun n z q hn ↦ ?_⟩
        · rw [hprocs] at hn
          refine h.fresh (h.rely_step hP (.advance m c) fun c' heq ↦ ?_) (hP.fresh n hn)
          have := (Move.advance.inj heq).1
          omega
        · have hlt' : n < P.procs.length := by
            rw [← hprocs]
            exact (List.getElem?_eq_some_iff.1 hn).1
          obtain ⟨⟨z', q'⟩, hn'⟩ : ∃ e, P.procs[n]? = some e := ⟨_, List.getElem?_eq_getElem hlt'⟩
          obtain ⟨q'', hq'', hsafe⟩ := h.safe_step hP hn' (hP.safe n z' q' hn') (.advance m c)
          rw [hn] at hq''
          cases hq''
          exact hsafe

/-- **The discipline holds after every run.** -/
theorem run (moves : List (Move ι χ ε)) : Disciplined S D (S.run P moves) := by
  induction moves generalizing P with
  | nil => exact hP
  | cons move moves ih => exact ih (h.step hP move)

/-- **A judgement survives every run.** -/
theorem safe_run (hn : P.procs[n]? = some (x, p))
    (hp : Safe (S.serve n) D.inv (D.rely n) G Q p P.shared) (moves : List (Move ι χ ε)) :
    ∃ p', (S.run P moves).procs[n]? = some (x, p') ∧
      Safe (S.serve n) D.inv (D.rely n) G Q p' (S.run P moves).shared := by
  induction moves generalizing P p with
  | nil => exact ⟨p, hn, hp⟩
  | cons move moves ih =>
    obtain ⟨p', hn', hp'⟩ := h.safe_step hP hn hp move
    exact ih (h.step hP move) hn' hp'

/-- A further judgement of every program, which may depend on its name, survives every run. -/
theorem each_run {G : ℕ → ι → σ → σ → Prop} {Q : ℕ → ι → α → σ → Prop}
    (hstart : ∀ n x s, D.inv s → D.fresh n s →
      Safe (S.serve n) D.inv (D.rely n) (G n x) (Q n x) (S.program x) s)
    (heach : ∀ n x p, P.procs[n]? = some (x, p) →
      Safe (S.serve n) D.inv (D.rely n) (G n x) (Q n x) p P.shared)
    (moves : List (Move ι χ ε)) : ∀ n x p, (S.run P moves).procs[n]? = some (x, p) →
      Safe (S.serve n) D.inv (D.rely n) (G n x) (Q n x) p (S.run P moves).shared := by
  induction moves generalizing P with
  | nil => exact heach
  | cons move moves ih =>
    refine ih (h.step hP move) fun n x p hn ↦ ?_
    rcases Nat.lt_or_ge n P.procs.length with hlt | hge
    · obtain ⟨⟨y, q⟩, hq⟩ : ∃ e, P.procs[n]? = some e := ⟨_, List.getElem?_eq_getElem hlt⟩
      obtain ⟨q', hq', hsafe⟩ := h.safe_step hP hq (heach n y q hq) move
      rw [hn] at hq'
      cases hq'
      exact hsafe
    · cases move with
      | start y =>
        rw [System.step, List.getElem?_append_right hge] at hn
        obtain ⟨hsub, heq⟩ := List.getElem?_eq_some_iff.1 hn
        rw [List.length_singleton] at hsub
        rw [List.getElem_singleton] at heq
        cases heq
        exact hstart n _ _ hP.inv (hP.fresh n hge)
      | disturb e => exact absurd (List.getElem?_eq_some_iff.1 hn).1 (Nat.not_lt.2 hge)
      | advance m c =>
        have hlength : (S.step P (.advance m c)).procs.length = P.procs.length := by
          simp only [System.step]
          split
          · exact List.length_set
          · rfl
        have hlt := (List.getElem?_eq_some_iff.1 hn).1
        rw [hlength] at hlt
        exact absurd hlt (Nat.not_lt.2 hge)

end Contract

end Process
