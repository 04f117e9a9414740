import Mathlib.Data.Nat.Basic
import Mathlib.Tactic

/-!
# Reading from the front

A **reader** takes values from the front of a text, in order, and may fail. `Reads p text r` is the judgement:
wherever the text stands in front of a rest, the reader comes to `r`, and if that is a value it leaves the rest.
There is one rule for each way to build a reader, so that what a reader makes of a text that was written piece
by piece is read off its definition, the failures included.

Numbers are written with the low byte first.
-/

namespace Reading

variable {β ε α α' : Type}

/-- Takes from the front of a text, and may fail. -/
abbrev Reader (β ε : Type) := StateT (List β) (Except ε)

def take (short : ε) (count : ℕ) : Reader β ε (List β) := fun text ↦
  if count > text.length then .error short else .ok (text.take count, text.drop count)

def failIf (p : Prop) [Decidable p] (error : ε) : Reader β ε Unit :=
  if p then throw error else pure ()

/-- A value, or an error, of something that reads nothing. -/
def ofExcept (r : Except ε α) : Reader β ε α := fun text ↦ (fun a ↦ (a, text)) <$> r

/-- So many of the same. -/
def times (item : Reader β ε α) : ℕ → Reader β ε (List α)
  | 0 => return []
  | count + 1 => do
    let first ← item
    let rest ← times item count
    return first :: rest

/-- So many, each read in view of those before it. -/
def each (item : List α → Reader β ε α) : ℕ → List α → Reader β ε (List α)
  | 0, before => return before
  | count + 1, before => do
    let next ← item before
    each item count (before ++ [next])

/-- What `each` does with values at hand. -/
def eachOf {γ : Type} (item : List α → γ → Except ε α) : List γ → List α → Except ε (List α)
  | [], before => .ok before
  | x :: l, before => item before x >>= fun next ↦ eachOf item l (before ++ [next])

/-- **What a reader makes of a text**, in front of any rest. -/
def Reads (p : Reader β ε α) (text : List β) (r : Except ε α) : Prop :=
  ∀ rest, p.run (text ++ rest) = (fun a ↦ (a, rest)) <$> r

namespace Reads

variable {p : Reader β ε α} {f : α → Reader β ε α'} {text text' : List β} {r : Except ε α}
  {r' : α → Except ε α'}

theorem pure (a : α) : Reads (Pure.pure a : Reader β ε α) [] (.ok a) := fun _ ↦ rfl

theorem throw (e : ε) (text : List β) : Reads (MonadExcept.throw e : Reader β ε α) text (.error e) :=
  fun _ ↦ rfl

theorem bind (hp : Reads p text r) (hf : ∀ a, r = .ok a → Reads (f a) text' (r' a)) :
    Reads (p >>= f) (text ++ text') (r >>= r') := by
  intro rest
  rw [List.append_assoc]
  show (p.run (text ++ (text' ++ rest)) >>= fun x ↦ (f x.1).run x.2) = _
  rw [hp]
  cases r with
  | error e => rfl
  | ok a => exact hf a rfl rest

/-- After a part that reads nothing. -/
theorem bind_nil (hp : Reads p [] r) (hf : ∀ a, r = .ok a → Reads (f a) text' (r' a)) :
    Reads (p >>= f) text' (r >>= r') := hp.bind hf

/-- A last part that reads nothing. -/
theorem bind_last (hp : Reads p text r) (hf : ∀ a, r = .ok a → Reads (f a) [] (r' a)) :
    Reads (p >>= f) text (r >>= r') := by
  have h := hp.bind hf
  rwa [List.append_nil] at h

/-- After a part that is read. -/
theorem ok_bind {a : α} {q : Except ε α'} (hp : Reads p text (.ok a)) (hf : Reads (f a) text' q) :
    Reads (p >>= f) (text ++ text') q := by
  intro rest
  rw [List.append_assoc]
  show (p.run (text ++ (text' ++ rest)) >>= fun x ↦ (f x.1).run x.2) = _
  rw [hp]
  exact hf rest

/-- After a part that reads nothing and succeeds. -/
theorem ok_nil {a : α} {q : Except ε α'} (hp : Reads p [] (.ok a)) (hf : Reads (f a) text' q) :
    Reads (p >>= f) text' q := hp.ok_bind hf

theorem ok_last {a : α} {q : Except ε α'} (hp : Reads p text (.ok a)) (hf : Reads (f a) [] q) :
    Reads (p >>= f) text q := by
  have h := hp.ok_bind hf
  rwa [List.append_nil] at h

theorem map {g : α → α'} (hp : Reads p text r) : Reads (g <$> p) text (g <$> r) := by
  intro rest
  show (p.run (text ++ rest) >>= fun x ↦ Pure.pure (g x.1, x.2)) = _
  rw [hp]
  cases r <;> rfl

theorem take {short : ε} {count : ℕ} (h : text.length = count) :
    Reads (Reading.take short count) text (.ok text) := by
  intro rest
  show (if count > (text ++ rest).length then _ else _) = _
  rw [if_neg (by rw [List.length_append]; omega), List.take_left' h, List.drop_left' h]
  rfl

theorem failIf {c : Prop} [Decidable c] {e : ε} :
    Reads (Reading.failIf c e : Reader β ε Unit) [] (if c then .error e else .ok ()) := by
  intro rest
  unfold Reading.failIf
  split <;> rfl

theorem failIf_neg {c : Prop} [Decidable c] {e : ε} (h : ¬c) :
    Reads (Reading.failIf c e : Reader β ε Unit) [] (.ok ()) := by
  intro rest
  unfold Reading.failIf
  rw [if_neg h]
  rfl

theorem ofExcept : Reads (Reading.ofExcept r : Reader β ε α) [] r := fun _ ↦ rfl

theorem congr {r₂ : Except ε α} (hp : Reads p text r) (h : r = r₂) : Reads p text r₂ := h ▸ hp

theorem times {γ : Type} {item : Reader β ε α} {written : γ → List β} {q : γ → Except ε α} {l : List γ}
    (h : ∀ x ∈ l, Reads item (written x) (q x)) :
    Reads (Reading.times item l.length) (l.flatMap written) (l.mapM q) := by
  induction l with
  | nil => exact .pure _
  | cons x l ih =>
    obtain ⟨hx, hl⟩ := List.forall_mem_cons.1 h
    rw [List.mapM_cons, List.flatMap_cons]
    exact hx.bind fun _ _ ↦ (ih hl).bind_last fun _ _ ↦ .pure _

theorem each {γ : Type} {item : List α → Reader β ε α} {written : γ → List β}
    {q : List α → γ → Except ε α} {l : List γ}
    (h : ∀ x ∈ l, ∀ before, Reads (item before) (written x) (q before x)) (before : List α) :
    Reads (Reading.each item l.length before) (l.flatMap written) (eachOf q l before) := by
  induction l generalizing before with
  | nil => exact .pure _
  | cons x l ih =>
    obtain ⟨hx, hl⟩ := List.forall_mem_cons.1 h
    rw [List.flatMap_cons]
    exact (hx before).bind fun next _ ↦ ih hl _

/-- **Two texts that one reader reads** are told apart, whatever follows them. -/
theorem cancel {a a' : α} {rest rest' : List β} (hp : Reads p text (.ok a)) (hp' : Reads p text' (.ok a'))
    (h : text ++ rest = text' ++ rest') : a = a' ∧ rest = rest' := by
  have hrun := hp rest
  rw [h, hp' rest'] at hrun
  exact ⟨(Prod.mk.inj (Except.ok.inj hrun)).1.symm, (Prod.mk.inj (Except.ok.inj hrun)).2.symm⟩

/-- The whole text is read. -/
theorem run_all (hp : Reads p text r) : p.run text = (fun a ↦ (a, [])) <$> r := by
  have h := hp []
  rwa [List.append_nil] at h

end Reads

/-- **What holds of every value a reader comes to**, whatever the text. -/
def Yields (p : Reader β ε α) (Q : α → Prop) : Prop := ∀ text a rest, p.run text = .ok (a, rest) → Q a

namespace Yields

variable {p : Reader β ε α} {f : α → Reader β ε α'} {Q : α → Prop} {R : α' → Prop}

theorem any (p : Reader β ε α) : Yields p fun _ ↦ True := fun _ _ _ _ ↦ trivial

theorem pure {a : α} (h : Q a) : Yields (Pure.pure a : Reader β ε α) Q := by
  rintro text a' rest ⟨⟩
  exact h

theorem throw {e : ε} : Yields (MonadExcept.throw e : Reader β ε α) Q := by
  rintro text a' rest ⟨⟩

theorem bind (hp : Yields p Q) (hf : ∀ a, Q a → Yields (f a) R) : Yields (p >>= f) R := by
  intro text b rest h
  replace h : (p.run text >>= fun x ↦ (f x.1).run x.2) = .ok (b, rest) := h
  cases hrun : p.run text with
  | error e =>
    rw [hrun] at h
    cases h
  | ok x =>
    rw [hrun] at h
    exact hf x.1 (hp text x.1 x.2 hrun) x.2 b rest h

/-- After a part whose value does not matter. -/
theorem after (hf : ∀ a, Yields (f a) R) : Yields (p >>= f) R := (any p).bind fun a _ ↦ hf a

theorem failIf {c : Prop} [Decidable c] {e : ε} : Yields (Reading.failIf c e : Reader β ε Unit) fun _ ↦ ¬c := by
  unfold Reading.failIf
  split
  next h => exact throw
  next h => exact pure h

theorem ofExcept {r : Except ε α} : Yields (Reading.ofExcept r : Reader β ε α) fun a ↦ r = .ok a := by
  intro text a rest h
  cases r with
  | error e => cases h
  | ok a' =>
    obtain ⟨rfl, rfl⟩ := Prod.mk.inj (Except.ok.inj h)
    rfl

/-- What every item keeps. -/
theorem each {item : List α → Reader β ε α} {I : List α → Prop}
    (h : ∀ before, I before → Yields (item before) fun a ↦ I (before ++ [a])) {count : ℕ} {before : List α}
    (hbefore : I before) : Yields (Reading.each item count before) I := by
  induction count generalizing before with
  | zero => exact pure hbefore
  | succ count ih => exact (h before hbefore).bind fun a ha ↦ ih ha

end Yields

/-! ### Numbers -/

/-- A number in so many bytes, the low byte first. -/
def bytesOf : ℕ → ℕ → List UInt8
  | 0, _ => []
  | width + 1, n => UInt8.ofNat n :: bytesOf width (n / 256)

/-- The number the bytes stand for. -/
def numberOf : List UInt8 → ℕ
  | [] => 0
  | b :: bytes => b.toNat + 256 * numberOf bytes

theorem length_bytesOf (width n : ℕ) : (bytesOf width n).length = width := by
  induction width generalizing n with
  | zero => rfl
  | succ width ih => rw [bytesOf, List.length_cons, ih]

theorem numberOf_bytesOf {width n : ℕ} (h : n < 256 ^ width) : numberOf (bytesOf width n) = n := by
  induction width generalizing n with
  | zero =>
    rw [Nat.pow_zero] at h
    exact (Nat.lt_one_iff.1 h).symm
  | succ width ih =>
    have hlt : n / 256 < 256 ^ width := Nat.div_lt_of_lt_mul (by rw [pow_succ'] at h; exact h)
    rw [bytesOf, numberOf, ih hlt, UInt8.toNat_ofNat']
    omega

end Reading
