import FhdEngine.Library.Process

/-!
# One program alone, and functions with state and early return

`FhdEngine.Library.Process` runs programs side by side. Here one program runs alone in an
**environment**, a relation that says how a state may answer a call and what becomes of it. `Returns`
is what the program may come to, `Ensures` is the judgement that all of it is as wanted, with an
invariant that holds after every single call.

A **routine** is what a method with `&mut self` and a `Result` is: it changes its own state, calls, and
may return early, and the state it leaves behind is what its caller sees. `Does` is the judgement for
routines, with one postcondition for each way to return, and there is one rule for each way to build
a routine.
-/

namespace Process

variable {Op Op' : Type} {Ans : Op → Type} {Ans' : Op' → Type} {α β σ τ ε : Type}

namespace Prog

/-- The same program over more operations. -/
def embed (e : Op → Op') (answer : ∀ op, Ans' (e op) → Ans op) :
    Prog Op Ans α → Prog Op' Ans' α
  | .done a => .done a
  | .call op next => .call (e op) fun x ↦ (next (answer op x)).embed e answer

/-- The result when every call has its answer. -/
def eval (answer : (op : Op) → Ans op) : Prog Op Ans α → α
  | .done a => a
  | .call op next => (next (answer op)).eval answer

theorem eval_bind (answer : (op : Op) → Ans op) (p : Prog Op Ans α) (f : α → Prog Op Ans β) :
    (p >>= f).eval answer = (f (p.eval answer)).eval answer := by
  induction p with
  | done a => rfl
  | call op next ih => exact ih (answer op)

end Prog

/-- **A part of a larger program** is safe if it is safe alone on its part of the state, and its calls keep
what holds of the rest. -/
theorem Safe.embed {χ χ' : Type} {serve : τ → (op : Op) → χ → Ans op × τ}
    {serve' : σ → (op : Op') → χ' → Ans' op × σ} {I : τ → Prop} {I' φ : σ → Prop} {R G : τ → τ → Prop}
    {R' G' : σ → σ → Prop} {Q : α → τ → Prop} {π : σ → τ} {e : Op → Op'}
    {answer : ∀ op, Ans' (e op) → Ans op} {f : χ' → χ}
    (hserve : ∀ s op c, π (serve' s (e op) c).2 = (serve (π s) op (f c)).2 ∧
      answer op (serve' s (e op) c).1 = (serve (π s) op (f c)).1)
    (hI : ∀ s, I' s → I (π s)) (hR : ∀ s s', R' s s' → R (π s) (π s'))
    (hφ : ∀ s s', R' s s' → φ s → φ s')
    (hkeeps : ∀ s op c, I' s → φ s → I (π (serve' s (e op) c).2) →
      G (π s) (π (serve' s (e op) c).2) →
        I' (serve' s (e op) c).2 ∧ G' s (serve' s (e op) c).2 ∧ φ (serve' s (e op) c).2)
    {p : Prog Op Ans α} {s : σ} (hs : φ s) (h : Safe serve I R G Q p (π s)) :
    Safe serve' I' R' G' (fun a s ↦ Q a (π s) ∧ φ s) (p.embed e answer) s := by
  induction p generalizing s with
  | done a => exact fun s' hs' hI' ↦ ⟨h _ (hR _ _ hs') (hI _ hI'), hφ _ _ hs' hs⟩
  | call op next ih =>
    intro s' hs' hI' c
    obtain ⟨hstate, hanswer⟩ := hserve s' op c
    obtain ⟨hinv, hg, hnext⟩ := h _ (hR _ _ hs') (hI _ hI') (f c)
    rw [← hstate] at hinv hg hnext
    rw [← hanswer] at hnext
    obtain ⟨hinv', hg', hφ'⟩ := hkeeps s' op c hI' (hφ _ _ hs' hs) hinv hg
    exact ⟨hinv', hg', ih _ hφ' hnext⟩

/-- How a state may answer a call, and what becomes of it. -/
abbrev Environment (σ Op : Type) (Ans : Op → Type) := σ → (op : Op) → Ans op → σ → Prop

/-- The program may return this, and leave the state like that. -/
inductive Returns (E : Environment σ Op Ans) : σ → Prog Op Ans α → α → σ → Prop
  | done (s : σ) (a : α) : Returns E s (.done a) a s
  | call {s s' s'' : σ} {op : Op} {next : Ans op → Prog Op Ans α} {x : Ans op} {a : α}
      (hcall : E s op x s') (hnext : Returns E s' (next x) a s'') :
      Returns E s (.call op next) a s''

/-- The program may come to this point. -/
inductive Reaches (E : Environment σ Op Ans) : σ → Prog Op Ans α → σ → Prog Op Ans α → Prop
  | refl (s : σ) (p : Prog Op Ans α) : Reaches E s p s p
  | call {s s' s'' : σ} {op : Op} {next : Ans op → Prog Op Ans α} {x : Ans op}
      {p : Prog Op Ans α} (hcall : E s op x s') (hnext : Reaches E s' (next x) s'' p) :
      Reaches E s (.call op next) s'' p

/-- **Every** call leaves a state that satisfies `I`, and every result satisfies `Q`. -/
def Ensures (E : Environment σ Op Ans) (I : σ → Prop) (Q : α → σ → Prop) :
    σ → Prog Op Ans α → Prop
  | s, .done a => Q a s
  | s, .call op next => ∀ x s', E s op x s' → I s' ∧ Ensures E I Q s' (next x)

/-- The program run in one particular way: `serve` answers what it can. -/
def Prog.exec (serve : σ → (op : Op) → Option (Ans op × σ)) : Prog Op Ans α → σ → Option (α × σ)
  | .done a, s => some (a, s)
  | .call op next, s =>
    match serve s op with
    | none => none
    | some (x, s') => (next x).exec serve s'

/-- A way to run a program is one of the ways it may run. -/
theorem Returns.of_exec {E : Environment σ Op Ans} {serve : σ → (op : Op) → Option (Ans op × σ)}
    (hserve : ∀ s op x s', serve s op = some (x, s') → E s op x s') {p : Prog Op Ans α} {s s' : σ}
    {a : α} (h : p.exec serve s = some (a, s')) : Returns E s p a s' := by
  induction p generalizing s with
  | done b =>
    cases h
    exact .done _ _
  | call op next ih =>
    unfold Prog.exec at h
    split at h
    · cases h
    next x t hx => exact .call (hserve s op x t hx) (ih x h)

/-- The program run where every call has one answer. -/
def Prog.play (serve : σ → (op : Op) → Ans op × σ) : Prog Op Ans α → σ → α × σ
  | .done a, s => (a, s)
  | .call op next, s => (next (serve s op).1).play serve (serve s op).2

/-- Where more may be answered, a program may still return the same. -/
theorem Returns.mono {E E' : Environment σ Op Ans} (hE : ∀ s op x s', E s op x s' → E' s op x s')
    {p : Prog Op Ans α} {s s' : σ} {a : α} (h : Returns E s p a s') : Returns E' s p a s' := by
  induction h with
  | done s a => exact .done s a
  | call hcall _ ih => exact .call (hE _ _ _ _ hcall) ih

theorem Returns.reaches {E : Environment σ Op Ans} {p : Prog Op Ans α} {s s' : σ} {a : α}
    (h : Returns E s p a s') : Reaches E s p s' (.done a) := by
  induction h with
  | done s a => exact .refl s _
  | call hcall _ ih => exact .call hcall ih

/-- What is done returns at once. -/
theorem Returns.of_done {E : Environment σ Op Ans} {s s' : σ} {a b : α} (h : Returns E s (.done a) b s') :
    b = a ∧ s' = s := by
  cases h
  exact ⟨rfl, rfl⟩

theorem Reaches.of_done {E : Environment σ Op Ans} {s s' : σ} {a : α} {p : Prog Op Ans α}
    (h : Reaches E s (.done a) s' p) : s' = s := by
  cases h
  rfl

theorem Returns.bind {E : Environment σ Op Ans} {p : Prog Op Ans α} {f : α → Prog Op Ans β} {s s' s'' : σ}
    {a : α} {b : β} (h : Returns E s p a s') (hf : Returns E s' (f a) b s'') :
    Returns E s (p >>= f) b s'' := by
  induction h with
  | done s a => exact hf
  | call hcall _ ih => exact .call hcall (ih hf)

section Ensures

variable {E : Environment σ Op Ans} {I : σ → Prop} {Q Q' : α → σ → Prop} {s s' : σ}
  {p p' : Prog Op Ans α} {a : α}

theorem Ensures.returns (h : Ensures E I Q s p) (hr : Returns E s p a s') : Q a s' := by
  induction hr with
  | done s a => exact h
  | call hcall _ ih => exact ih (h _ _ hcall).2

/-- What is so whatever is answered is so for the one way of answering. -/
theorem Ensures.play {serve : σ → (op : Op) → Ans op × σ} (h : Ensures E I Q s p)
    (hserve : ∀ s op, E s op (serve s op).1 (serve s op).2) : Q (p.play serve s).1 (p.play serve s).2 := by
  induction p generalizing s with
  | done a => exact h
  | call op next ih => exact ih _ (h _ _ (hserve s op)).2

/-- Where every call is answered, a program returns. -/
theorem Ensures.exists_returns (h : Ensures E I Q s p) (htotal : ∀ s op, ∃ x s', E s op x s') :
    ∃ a s', Returns E s p a s' ∧ Q a s' := by
  induction p generalizing s with
  | done a => exact ⟨a, s, .done s a, h⟩
  | call op next ih =>
    obtain ⟨x, s', hcall⟩ := htotal s op
    obtain ⟨a, s'', hnext, hQ⟩ := ih x (h x s' hcall).2
    exact ⟨a, s'', .call hcall hnext, hQ⟩

theorem Ensures.reaches (h : Ensures E I Q s p) (hr : Reaches E s p s' p') (hI : I s) :
    I s' ∧ Ensures E I Q s' p' := by
  induction hr with
  | refl s p => exact ⟨hI, h⟩
  | call hcall _ ih => exact ih (h _ _ hcall).2 (h _ _ hcall).1

theorem Ensures.mono (h : Ensures E I Q s p) (hQ : ∀ a s, Q a s → Q' a s) :
    Ensures E I Q' s p := by
  induction p generalizing s with
  | done a => exact hQ a s h
  | call op next ih => exact fun x s' hcall ↦ ⟨(h x s' hcall).1, ih x (h x s' hcall).2⟩

/-- A weaker invariant along the way. -/
theorem Ensures.weaken {I' : σ → Prop} (h : Ensures E I Q s p) (hI : ∀ s, I s → I' s) :
    Ensures E I' Q s p := by
  induction p generalizing s with
  | done a => exact h
  | call op next ih => exact fun x s' hcall ↦ ⟨hI s' (h x s' hcall).1, ih x (h x s' hcall).2⟩

/-- **Sequencing.** -/
theorem Ensures.bind {f : α → Prog Op Ans β} {R : β → σ → Prop} (h : Ensures E I Q s p)
    (hf : ∀ a s, Q a s → Ensures E I R s (f a)) : Ensures E I R s (p >>= f) := by
  induction p generalizing s with
  | done a => exact hf a s h
  | call op next ih => exact fun x s' hcall ↦ ⟨(h x s' hcall).1, ih x (h x s' hcall).2⟩

/-- Two judgements of one program. -/
theorem Ensures.and (h : Ensures E I Q s p) (h' : Ensures E I Q' s p) :
    Ensures E I (fun a s ↦ Q a s ∧ Q' a s) s p := by
  induction p generalizing s with
  | done a => exact ⟨h, h'⟩
  | call op next ih =>
    exact fun x s' hcall ↦ ⟨(h x s' hcall).1, ih x (h x s' hcall).2 (h' x s' hcall).2⟩

end Ensures

/-! ### Routines -/

/-- Changes its own state, calls, and may return early. -/
abbrev Routine (ε τ Op : Type) (Ans : Op → Type) := ExceptT ε (StateT τ (Prog Op Ans))

namespace Routine

/-- A call, with whatever it is answered. -/
def ask (op : Op) : Routine ε τ Op Ans (Ans op) := fun t ↦ .call op fun x ↦ .done (.ok x, t)

def failIf (p : Prop) [Decidable p] (error : ε) : Routine ε τ Op Ans Unit :=
  if p then throw error else pure ()

end Routine

/-- Sequencing two routines that return. -/
theorem Returns.andThen {E : Environment σ Op Ans} {x : Routine ε τ Op Ans α} {f : α → Routine ε τ Op Ans β}
    {t t' t'' : τ} {s s' s'' : σ} {a : α} {r : Except ε β} (hx : Returns E s (x.run.run t) (.ok a, t') s')
    (hf : Returns E s' ((f a).run.run t') (r, t'') s'') : Returns E s ((x >>= f).run.run t) (r, t'') s'' := by
  have h : Returns E s (x.run.run t >>= fun r ↦ (ExceptT.bindCont f r.1).run r.2) (r, t'') s'' :=
    hx.bind hf
  exact h

/-- The postconditions of a routine as one of its program. -/
def Post (Q : α → τ → σ → Prop) (X : ε → τ → σ → Prop) : Except ε α × τ → σ → Prop
  | (.ok a, t), s => Q a t s
  | (.error e, t), s => X e t s

/-- **From this state**, the routine returns as `Q` says or fails as `X` says, and every call leaves
`I`. -/
def Does (E : Environment σ Op Ans) (I : σ → Prop) (t : τ) (s : σ) (x : Routine ε τ Op Ans α)
    (Q : α → τ → σ → Prop) (X : ε → τ → σ → Prop) : Prop :=
  Ensures E I (Post Q X) s (x.run.run t)

namespace Does

variable {E : Environment σ Op Ans} {I I' : σ → Prop} {t : τ} {s : σ} {x : Routine ε τ Op Ans α}
  {f : α → Routine ε τ Op Ans β} {Q Q' : α → τ → σ → Prop} {R : β → τ → σ → Prop}
  {X X' : ε → τ → σ → Prop}

theorem pure {a : α} (h : Q a t s) : Does E I t s (Pure.pure a) Q X := h

theorem throw {e : ε} (h : X e t s) : Does E I t s (MonadExcept.throw e : Routine ε τ Op Ans α) Q X :=
  h

/-- **Sequencing.** -/
theorem bind (hx : Does E I t s x Q X) (hf : ∀ a t' s', Q a t' s' → Does E I t' s' (f a) R X) :
    Does E I t s (x >>= f) R X := by
  have h : Ensures E I (Post R X) s (x.run.run t >>= fun r ↦ (ExceptT.bindCont f r.1).run r.2) :=
    Ensures.bind hx fun r s' hr ↦ by
      obtain ⟨r, t'⟩ := r
      cases r with
      | ok a => exact hf a t' s' hr
      | error e => exact hr
  exact h

theorem mono (h : Does E I t s x Q X) (hQ : ∀ a t s, Q a t s → Q' a t s)
    (hX : ∀ e t s, X e t s → X' e t s) : Does E I t s x Q' X' := by
  refine Ensures.mono h fun r s' hr ↦ ?_
  obtain ⟨r, t'⟩ := r
  cases r with
  | ok a => exact hQ a t' s' hr
  | error e => exact hX e t' s' hr

/-- A weaker invariant along the way. -/
theorem weaken (h : Does E I t s x Q X) (hI : ∀ s, I s → I' s) : Does E I' t s x Q X := Ensures.weaken h hI

theorem pure_bind {a : α} (h : Does E I t s (f a) R X) : Does E I t s (Pure.pure a >>= f) R X := h

theorem get {g : τ → Routine ε τ Op Ans β} (h : Does E I t s (g t) R X) :
    Does E I t s (MonadState.get >>= g) R X := h

theorem change {g : τ → τ} {k : PUnit → Routine ε τ Op Ans β} (h : Does E I (g t) s (k ⟨⟩) R X) :
    Does E I t s (modify g >>= k) R X := h

theorem ask {op : Op} {g : Ans op → Routine ε τ Op Ans β}
    (h : ∀ a s', E s op a s' → I s' ∧ Does E I t s' (g a) R X) :
    Does E I t s (Routine.ask op >>= g) R X := h

theorem failIf {p : Prop} [Decidable p] {e : ε} {g : Unit → Routine ε τ Op Ans β} (hX : p → X e t s)
    (hg : ¬p → Does E I t s (g ()) R X) : Does E I t s (Routine.failIf p e >>= g) R X := by
  unfold Routine.failIf
  split
  next hp => exact hX hp
  next hp => exact hg hp

theorem ofExcept {r : Except ε α} {g : α → Routine ε τ Op Ans β} (hX : ∀ e, r = .error e → X e t s)
    (hg : ∀ a, r = .ok a → Does E I t s (g a) R X) : Does E I t s (MonadExcept.ofExcept r >>= g) R X := by
  cases r with
  | ok a => exact hg a rfl
  | error e => exact hX e rfl

/-- A result that is returned as it is. -/
theorem except {r : Except ε α} (hX : ∀ e, r = .error e → X e t s) (hQ : ∀ a, r = .ok a → Q a t s) :
    Does E I t s (MonadExcept.ofExcept r) Q X := by
  cases r with
  | ok a => exact hQ a rfl
  | error e => exact hX e rfl

/-- An error that is thrown on a condition, as the `do` notation writes it. -/
theorem when {p : Prop} [Decidable p] {e : ε} {g : Unit → Routine ε τ Op Ans β} (hX : p → X e t s)
    (hg : ¬p → Does E I t s (g ()) R X) :
    Does E I t s (if p then MonadExcept.throw e >>= g else g ()) R X := by
  split
  next hp => exact hX hp
  next hp => exact hg hp

theorem ite {p : Prop} [Decidable p] {y : Routine ε τ Op Ans α} (hx : p → Does E I t s x Q X)
    (hy : ¬p → Does E I t s y Q X) : Does E I t s (if p then x else y) Q X := by
  split
  next hp => exact hx hp
  next hp => exact hy hp

/-- Another name for the errors. -/
theorem adapt {ε' : Type} {y : Routine ε' τ Op Ans α} {f : ε' → ε}
    (h : Does E I t s y Q fun e t s ↦ X (f e) t s) : Does E I t s (ExceptT.adapt f y) Q X := by
  have hmap : Ensures E I (Post Q X) s (y.run.run t >>= fun r ↦ .done (r.1.mapError f, r.2)) :=
    Ensures.bind h fun r s' hr ↦ by
      obtain ⟨r, t'⟩ := r
      cases r with
      | ok a => exact hr
      | error e => exact hr
  exact hmap

end Does

/-- A routine that returns without a single call, and what it returns. -/
def Ends (x : Routine ε τ Op Ans α) (t : τ) (r : Except ε α) (t' : τ) : Prop :=
  x.run.run t = .done (r, t')

namespace Ends

variable {x : Routine ε τ Op Ans α} {f : α → Routine ε τ Op Ans β} {t t' t'' : τ} {r : Except ε α}
  {r' : Except ε β}

theorem pure {a : α} : Ends (Pure.pure a : Routine ε τ Op Ans α) t (.ok a) t := rfl

theorem throw {e : ε} : Ends (MonadExcept.throw e : Routine ε τ Op Ans α) t (.error e) t := rfl

theorem unique {s s' : τ} {q q' : Except ε α} (h : Ends x t q s) (h' : Ends x t q' s') :
    q = q' ∧ s = s' :=
  Prod.mk.inj (Prog.done.inj (Eq.trans h.symm h'))

theorem bind {a : α} (hx : Ends x t (.ok a) t') (hf : Ends (f a) t' r' t'') :
    Ends (x >>= f) t r' t'' := by
  show (x.run.run t >>= fun r ↦ (ExceptT.bindCont f r.1).run r.2) = _
  rw [show x.run.run t = _ from hx]
  exact hf

theorem bind_error {e : ε} (hx : Ends x t (.error e) t') : Ends (x >>= f) t (.error e) t' := by
  show (x.run.run t >>= fun r ↦ (ExceptT.bindCont f r.1).run r.2) = _
  rw [show x.run.run t = _ from hx]
  rfl

theorem map {g : α → β} {a : α} (hx : Ends x t (.ok a) t') : Ends (g <$> x) t (.ok (g a)) t' :=
  bind (f := fun a ↦ Pure.pure (g a)) hx rfl

theorem map_error {g : α → β} {e : ε} (hx : Ends x t (.error e) t') : Ends (g <$> x) t (.error e) t' :=
  bind_error (f := fun a ↦ Pure.pure (g a)) hx

theorem get {g : τ → Routine ε τ Op Ans β} (h : Ends (g t) t r' t') :
    Ends (MonadState.get >>= g) t r' t' := h

theorem set {s : τ} {g : PUnit → Routine ε τ Op Ans β} (h : Ends (g ⟨⟩) s r' t') :
    Ends (MonadStateOf.set s >>= g) t r' t' := h

/-- A condition that fails at once. -/
theorem refuse {p : Prop} [Decidable p] {e : ε} {g : Unit → Routine ε τ Op Ans β} (h : p) :
    Ends (Routine.failIf p e >>= g) t (.error e) t := by
  rw [Routine.failIf, if_pos h]
  rfl

/-- A condition that does not hold. -/
theorem pass {p : Prop} [Decidable p] {e : ε} {g : Unit → Routine ε τ Op Ans β} (h : ¬p) (hg : Ends (g ()) t r' t') :
    Ends (Routine.failIf p e >>= g) t r' t' := by
  rw [Routine.failIf, if_neg h]
  exact hg

theorem modify {f : τ → τ} : Ends (modifyThe τ f : Routine ε τ Op Ans PUnit) t (.ok ⟨⟩) (f t) := rfl

end Ends

/-- A routine that calls, and what it calls first. -/
def Asks (x : Routine ε τ Op Ans α) (t : τ) (op : Op) : Prop := ∃ next, x.run.run t = .call op next

namespace Asks

variable {x : Routine ε τ Op Ans α} {f : α → Routine ε τ Op Ans β} {t t' : τ} {op : Op}

theorem bind (hx : Asks x t op) : Asks (x >>= f) t op := by
  obtain ⟨next, hx⟩ := hx
  refine ⟨fun y ↦ next y >>= fun r ↦ (ExceptT.bindCont f r.1).run r.2, ?_⟩
  show (x.run.run t >>= fun r ↦ (ExceptT.bindCont f r.1).run r.2) = _
  rw [hx]
  rfl

/-- What follows a part without calls is asked first. -/
theorem after {a : α} (hx : Ends x t (.ok a) t') (hf : Asks (f a) t' op) : Asks (x >>= f) t op := by
  obtain ⟨next, hf⟩ := hf
  refine ⟨next, ?_⟩
  show (x.run.run t >>= fun r ↦ (ExceptT.bindCont f r.1).run r.2) = _
  rw [show x.run.run t = _ from hx]
  exact hf

theorem get {g : τ → Routine ε τ Op Ans β} (h : Asks (g t) t op) : Asks (MonadState.get >>= g) t op := h

theorem change {g : τ → τ} {k : PUnit → Routine ε τ Op Ans β} (h : Asks (k ⟨⟩) (g t) op) :
    Asks (modify g >>= k) t op := h

theorem pass {p : Prop} [Decidable p] {e : ε} {g : Unit → Routine ε τ Op Ans β} (h : ¬p) (hg : Asks (g ()) t op) :
    Asks (Routine.failIf p e >>= g) t op := by
  rw [Routine.failIf, if_neg h]
  exact hg

/-- What calls does not end without a call. -/
theorem not_ends (h : Asks x t op) {r : Except ε α} : ¬Ends x t r t' := by
  obtain ⟨next, h⟩ := h
  intro hends
  cases h.symm.trans hends

end Asks

end Process
