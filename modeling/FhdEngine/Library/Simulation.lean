import FhdEngine.Library.Routine

/-!
# One environment in place of another

An environment **simulates** another one under a relation of their states if whatever the one may do, the other one may
do too, and the states stay related. Then what a program may return or come to in the one, it may in the other
(`Simulates.returns`, `Simulates.reaches`), so that a judgement of the abstract environment is one of the concrete
environment (`Simulates.ensures`).

The program may call other operations in the concrete environment: a part of a larger program (`Prog.embed`) is judged
in the environment of the part. `Routine.within` runs a routine as a part of another one, on a state of its own. A
judgement only depends on how the operations are answered that the program calls (`Does.allow`).
-/

namespace Process

variable {Op Op' : Type} {Ans : Op → Type} {Ans' : Op' → Type} {α β σ τ ρ υ ε : Type}

/-- Whatever `E` may answer to `e op` in a state, `F` may answer to `op` in every state that is related to it. -/
def Simulates (E : Environment σ Op' Ans') (F : Environment τ Op Ans) (e : Op → Op')
    (answer : ∀ op, Ans' (e op) → Ans op) (R : σ → τ → Prop) : Prop :=
  ∀ s t op x s', R s t → E s (e op) x s' → ∃ t', F t op (answer op x) t' ∧ R s' t'

namespace Simulates

variable {E : Environment σ Op' Ans'} {F : Environment τ Op Ans} {e : Op → Op'} {answer : ∀ op, Ans' (e op) → Ans op}
  {R : σ → τ → Prop} {I : τ → Prop} {Q : α → τ → Prop} {p : Prog Op Ans α} {s s' : σ} {t : τ} {a : α}

theorem returns (hsim : Simulates E F e answer R) (hR : R s t) (h : Returns E s (p.embed e answer) a s') :
    ∃ t', Returns F t p a t' ∧ R s' t' := by
  induction p generalizing s t with
  | done b =>
    obtain ⟨rfl, rfl⟩ := Returns.of_done h
    exact ⟨t, .done t _, hR⟩
  | call op next ih =>
    cases h with
    | call hcall hnext =>
      obtain ⟨t₁, hcall', hR₁⟩ := hsim _ _ _ _ _ hR hcall
      obtain ⟨t', hnext', hR'⟩ := ih _ hR₁ hnext
      exact ⟨t', .call hcall' hnext', hR'⟩

theorem reaches (hsim : Simulates E F e answer R) (hR : R s t) {p' : Prog Op' Ans' α}
    (h : Reaches E s (p.embed e answer) s' p') : ∃ t' q, Reaches F t p t' q ∧ R s' t' ∧ p' = q.embed e answer := by
  induction p generalizing s t with
  | done b =>
    cases h
    exact ⟨t, .done b, .refl t _, hR, rfl⟩
  | call op next ih =>
    cases h with
    | refl => exact ⟨t, .call op next, .refl t _, hR, rfl⟩
    | call hcall hnext =>
      obtain ⟨t₁, hcall', hR₁⟩ := hsim _ _ _ _ _ hR hcall
      obtain ⟨t', q, hnext', hR', hq⟩ := ih _ hR₁ hnext
      exact ⟨t', q, .call hcall' hnext', hR', hq⟩

/-- **A judgement of the abstract environment** is one of the concrete environment. -/
theorem ensures (hsim : Simulates E F e answer R) (hR : R s t) (h : Ensures F I Q t p) :
    Ensures E (fun s ↦ ∃ t, R s t ∧ I t) (fun a s ↦ ∃ t, R s t ∧ Q a t) s (p.embed e answer) := by
  induction p generalizing s t with
  | done b => exact ⟨t, hR, h⟩
  | call op next ih =>
    intro x s' hcall
    obtain ⟨t', hcall', hR'⟩ := hsim s t op x s' hR hcall
    obtain ⟨hI, hnext⟩ := h _ _ hcall'
    exact ⟨⟨t', hR', hI⟩, ih _ hR' hnext⟩

end Simulates

/-! ### The same operations -/

theorem Prog.embed_id (p : Prog Op Ans α) : p.embed id (fun _ x ↦ x) = p := by
  induction p with
  | done a => rfl
  | call op next ih => exact congrArg (Prog.call op) (funext ih)

/-- The operations are the same. -/
abbrev Refines (E : Environment σ Op Ans) (F : Environment τ Op Ans) (R : σ → τ → Prop) : Prop :=
  Simulates E F id (fun _ x ↦ x) R

namespace Refines

variable {E : Environment σ Op Ans} {F : Environment τ Op Ans} {R : σ → τ → Prop} {I : τ → Prop}
  {p : Prog Op Ans α} {s s' : σ} {t : τ} {a : α}

theorem returns (hsim : Refines E F R) (hR : R s t) (h : Returns E s p a s') : ∃ t', Returns F t p a t' ∧ R s' t' :=
  Simulates.returns hsim hR (p.embed_id.symm ▸ h)

theorem reaches (hsim : Refines E F R) (hR : R s t) {p' : Prog Op Ans α} (h : Reaches E s p s' p') :
    ∃ t', Reaches F t p t' p' ∧ R s' t' := by
  obtain ⟨t', q, hreaches, hR', rfl⟩ := Simulates.reaches hsim hR (p.embed_id.symm ▸ h)
  exact ⟨t', q.embed_id.symm ▸ hreaches, hR'⟩

end Refines

/-! ### What was sequenced -/

theorem Returns.of_bind {E : Environment σ Op Ans} {p : Prog Op Ans α} {f : α → Prog Op Ans β} {s s' : σ} {b : β}
    (h : Returns E s (p >>= f) b s') : ∃ a s₁, Returns E s p a s₁ ∧ Returns E s₁ (f a) b s' := by
  induction p generalizing s with
  | done a => exact ⟨a, s, .done s a, h⟩
  | call op next ih =>
    cases h with
    | call hcall hnext =>
      obtain ⟨a, s₁, hreturns, hrest⟩ := ih _ hnext
      exact ⟨a, s₁, .call hcall hreturns, hrest⟩

theorem Reaches.of_bind {E : Environment σ Op Ans} {p : Prog Op Ans α} {f : α → Prog Op Ans β} {s s' : σ}
    {q : Prog Op Ans β} (h : Reaches E s (p >>= f) s' q) :
    (∃ p', Reaches E s p s' p') ∨ ∃ a s₁, Returns E s p a s₁ ∧ Reaches E s₁ (f a) s' q := by
  induction p generalizing s with
  | done a => exact Or.inr ⟨a, s, .done s a, h⟩
  | call op next ih =>
    cases h with
    | refl => exact Or.inl ⟨_, .refl _ _⟩
    | call hcall hnext =>
      rcases ih _ hnext with ⟨p', hreaches⟩ | ⟨a, s₁, hreturns, hrest⟩
      · exact Or.inl ⟨p', .call hcall hreaches⟩
      · exact Or.inr ⟨a, s₁, .call hcall hreturns, hrest⟩

/-! ### Parts -/

/-- **A part on its own state**: a routine over some of the operations, whose state begins here and is handed back. -/
def Routine.within (e : Op → Op') (answer : ∀ op, Ans' (e op) → Ans op) (u : υ) (x : Routine ε υ Op Ans α) :
    Routine ε ρ Op' Ans' (α × υ) :=
  fun t ↦ ((x.run.run u).embed e answer).bind fun r ↦ .done (r.1.map (·, r.2), t)

/-- The judgement of a part. -/
theorem Does.within {E : Environment σ Op' Ans'} {F : Environment τ Op Ans} {e : Op → Op'}
    {answer : ∀ op, Ans' (e op) → Ans op} {R : σ → τ → Prop} {I : τ → Prop} {I' : σ → Prop} {Q : α → υ → τ → Prop}
    {X : ε → υ → τ → Prop} {x : Routine ε υ Op Ans α} {t₀ : τ} {s : σ} {u : υ} {v : ρ}
    (hsim : Simulates E F e answer R) (hR : R s t₀) (h : Does F I u t₀ x Q X) (hI : ∀ s t, R s t → I t → I' s) :
    Does E I' v s (Routine.within e answer u x) (fun r v' s ↦ v' = v ∧ ∃ t, R s t ∧ Q r.1 r.2 t)
      fun error v' s ↦ v' = v ∧ ∃ u t, R s t ∧ X error u t := by
  have hpart : Ensures E I' (fun r s ↦ ∃ t, R s t ∧ Post Q X r t) s ((x.run.run u).embed e answer) :=
    (hsim.ensures hR h).weaken fun s ↦ by
      rintro ⟨t, hR, ht⟩
      exact hI s t hR ht
  refine Ensures.bind (p := (x.run.run u).embed e answer) hpart fun r s' hr ↦ ?_
  obtain ⟨t, hR, hpost⟩ := hr
  obtain ⟨r, u'⟩ := r
  cases r with
  | ok a => exact ⟨rfl, t, hR, hpost⟩
  | error error => exact ⟨rfl, u', t, hR, hpost⟩

/-- Two judgements of one routine, with the invariant of the first. -/
theorem Does.and {E : Environment σ Op Ans} {I I' : σ → Prop} {Q Q' : α → τ → σ → Prop} {X X' : ε → τ → σ → Prop}
    {x : Routine ε τ Op Ans α} {t : τ} {s : σ} (h : Does E I t s x Q X) (h' : Does E I' t s x Q' X') :
    Does E I t s x (fun a t s ↦ Q a t s ∧ Q' a t s) fun e t s ↦ X e t s ∧ X' e t s := by
  have hboth : ∀ {p : Prog Op Ans (Except ε α × τ)} {s : σ}, Ensures E I (Post Q X) s p →
      Ensures E I' (Post Q' X') s p → Ensures E I (fun r s ↦ Post Q X r s ∧ Post Q' X' r s) s p := by
    intro p
    induction p with
    | done a => exact fun h h' ↦ And.intro h h'
    | call op next ih => exact fun h h' x s' hcall ↦ And.intro (h x s' hcall).1 (ih x (h x s' hcall).2 (h' x s' hcall).2)
  refine (hboth h h').mono fun r s hr ↦ ?_
  obtain ⟨r, t⟩ := r
  cases r with
  | ok a => exact hr
  | error e => exact hr

/-- What every call keeps is kept, however the routine goes on. -/
theorem Does.keeps {E : Environment σ Op Ans} {J : σ → Prop} (hE : ∀ s op x s', J s → E s op x s' → J s')
    {x : Routine ε τ Op Ans α} {t : τ} {s : σ} (hs : J s) : Does E J t s x (fun _ _ ↦ J) fun _ _ ↦ J := by
  have hall : ∀ (p : Prog Op Ans (Except ε α × τ)) (s : σ), J s → Ensures E J (fun _ ↦ J) s p := by
    intro p
    induction p with
    | done a => exact fun _ h ↦ h
    | call op next ih => exact fun s hs x s' hcall ↦ And.intro (hE s op x s' hs hcall) (ih x s' (hE s op x s' hs hcall))
  refine (hall _ s hs).mono fun r s hr ↦ ?_
  obtain ⟨r, t⟩ := r
  cases r with
  | ok a => exact hr
  | error e => exact hr

/-! ### The operations that are called -/

/-- Every call is noted, by whether it is one of these. -/
def noting (C : Op → Prop) : Environment Prop Op Ans := fun _ op _ P' ↦ P' = C op

/-- The other operations may be answered in any way, and change nothing. -/
def allowing (C : Op → Prop) (E : Environment σ Op Ans) : Environment σ Op Ans := fun s op x s' ↦
  (C op → E s op x s') ∧ (¬C op → s' = s)

/-- How the operations are answered that a program never calls is no concern of its. -/
theorem Ensures.allow {C : Op → Prop} {E : Environment σ Op Ans} {I : σ → Prop} {Q : α → σ → Prop}
    {Q' : α → Prop → Prop} {p : Prog Op Ans α} {s : σ} {P : Prop} (h : Ensures E I Q s p)
    (hp : Ensures (noting C) id Q' P p) : Ensures (allowing C E) I Q s p := by
  induction p generalizing s P with
  | done a => exact h
  | call op next ih =>
    intro x s' hcall
    obtain ⟨hC, hnext⟩ := hp x _ rfl
    obtain ⟨hI, h⟩ := h x s' (hcall.1 hC)
    exact ⟨hI, ih x h hnext⟩

theorem Does.allow {C : Op → Prop} {E : Environment σ Op Ans} {I : σ → Prop} {Q : α → τ → σ → Prop}
    {X : ε → τ → σ → Prop} {Q' : α → τ → Prop → Prop} {X' : ε → τ → Prop → Prop} {x : Routine ε τ Op Ans α} {t : τ}
    {s : σ} {P : Prop} (h : Does E I t s x Q X) (hx : Does (noting C) id t P x Q' X') :
    Does (allowing C E) I t s x Q X :=
  Ensures.allow h hx

/-- What the operations keep that a program calls is kept along with it. -/
theorem Ensures.keeping {C : Op → Prop} {E : Environment σ Op Ans} {J : σ → Prop} {Q' : α → Prop → Prop}
    {p : Prog Op Ans α} {s : σ} {P : Prop} (hE : ∀ s op x s', C op → J s → E s op x s' → J s')
    (hp : Ensures (noting C) id Q' P p) (hs : J s) : Ensures E J (fun _ ↦ J) s p := by
  induction p generalizing s P with
  | done a => exact hs
  | call op next ih =>
    intro x s' hcall
    obtain ⟨hC, hnext⟩ := hp x _ rfl
    have hs' := hE s op x s' hC hs hcall
    exact ⟨hs', ih x hnext hs'⟩

end Process
