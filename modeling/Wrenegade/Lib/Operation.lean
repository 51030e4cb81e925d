/-
Operations on a state that may raise, and when two of them are the same.

An operation takes a state and leaves one, whether it returns a value or raises an
error.  Two operations are the same when they leave the same state behind, return
the same values and raise in the same cases; which errors count as the same is up
to a relation, so that two programs may word theirs differently.  Being the same
goes through sequencing and through loops, and this is all a proof that compares
two programs step by step needs.
-/
import Mathlib

namespace Operation

variable {ε α β γ σ : Type}

/-- An operation; its state survives an error. -/
abbrev Op (ε σ α : Type) := ExceptT ε (StateM σ) α

/-- The outcome on a state, and the state left. -/
def Op.apply (x : Op ε σ α) (s : σ) : Except ε α × σ := (ExceptT.run x).run s

@[simp] theorem apply_pure (a : α) (s : σ) : (pure a : Op ε σ α).apply s = (.ok a, s) := rfl

@[simp] theorem apply_throw (e : ε) (s : σ) : (throw e : Op ε σ α).apply s = (.error e, s) := rfl

theorem apply_get (s : σ) : (get : Op ε σ σ).apply s = (.ok s, s) := rfl

theorem apply_set (s t : σ) : (set t : Op ε σ Unit).apply s = (.ok (), t) := rfl

theorem apply_modify (f : σ → σ) (s : σ) : (modify f : Op ε σ Unit).apply s = (.ok (), f s) := rfl

theorem apply_bind (x : Op ε σ α) (f : α → Op ε σ β) (s : σ) :
    (x >>= f).apply s =
      match x.apply s with
      | (.ok a, t) => (f a).apply t
      | (.error e, t) => (.error e, t) := by
  show (match (ExceptT.run x).run s with
    | (r, t) => ((ExceptT.bindCont f r).run t : Except ε β × σ)) = _
  rw [Op.apply]
  rcases (ExceptT.run x).run s with ⟨r, t⟩
  cases r with
  | ok a => rfl
  | error e => rfl

/-- A sequence whose first part returned. -/
theorem apply_bind_ok {x : Op ε σ α} {f : α → Op ε σ β} {s t : σ} {a : α}
    (h : x.apply s = (.ok a, t)) : (x >>= f).apply s = (f a).apply t := by
  rw [apply_bind, h]

theorem apply_bind_error {x : Op ε σ α} {f : α → Op ε σ β} {s t : σ} {e : ε}
    (h : x.apply s = (.error e, t)) : (x >>= f).apply s = (.error e, t) := by
  rw [apply_bind, h]

/-- What is made of a result does not change the state. -/
theorem state_bind_pure (x : Op ε σ α) (f : α → β) (s : σ) :
    ((x >>= fun a => pure (f a)).apply s).2 = (x.apply s).2 := by
  rw [apply_bind]
  rcases x.apply s with ⟨r, t⟩
  cases r <;> rfl

/-- Sequences with the same first part leave the same state if what follows does. -/
theorem state_bind_congr {x y : Op ε σ α} {f : α → Op ε σ β} {g : α → Op ε σ γ} {s : σ}
    (hxy : x.apply s = y.apply s) (h : ∀ a t, ((f a).apply t).2 = ((g a).apply t).2) :
    ((x >>= f).apply s).2 = ((y >>= g).apply s).2 := by
  rw [apply_bind, apply_bind, hxy]
  rcases y.apply s with ⟨r, t⟩
  cases r with
  | ok a => exact h a t
  | error e => rfl

theorem state_discard (x : Op ε σ α) (s : σ) : ((discard x).apply s).2 = (x.apply s).2 :=
  state_bind_pure x (fun _ => ()) s

/-! ### The same operation -/

/-- The same value, or errors that correspond. -/
inductive SameOutcome (R : ε → ε → Prop) : Except ε α → Except ε α → Prop
  | returned (a : α) : SameOutcome R (.ok a) (.ok a)
  | raised {e e' : ε} (h : R e e') : SameOutcome R (.error e) (.error e')

/-- On every state, the same outcome and the same state left. -/
def Same (R : ε → ε → Prop) (x y : Op ε σ α) : Prop :=
  ∀ s, SameOutcome R (x.apply s).1 (y.apply s).1 ∧ (x.apply s).2 = (y.apply s).2

variable {R : ε → ε → Prop}

theorem SameOutcome.refl (hR : ∀ e, R e e) (r : Except ε α) : SameOutcome R r r := by
  cases r with
  | ok a => exact .returned a
  | error e => exact .raised (hR e)

theorem Same.refl (hR : ∀ e, R e e) (x : Op ε σ α) : Same R x x :=
  fun _ => ⟨SameOutcome.refl hR _, rfl⟩

theorem Same.throw {e e' : ε} (h : R e e') : Same R (throw e : Op ε σ α) (throw e') :=
  fun _ => ⟨.raised h, rfl⟩

/-- Sequences of the same operations are the same. -/
theorem Same.bind {x y : Op ε σ α} {f g : α → Op ε σ β} (hxy : Same R x y)
    (hfg : ∀ a, Same R (f a) (g a)) : Same R (x >>= f) (y >>= g) := by
  intro s
  obtain ⟨hout, hstate⟩ := hxy s
  rcases hx : x.apply s with ⟨r, t⟩
  rcases hy : y.apply s with ⟨r', t'⟩
  rw [hx, hy] at hout hstate
  simp only at hout hstate
  subst hstate
  cases hout with
  | returned a =>
      rw [apply_bind_ok hx, apply_bind_ok hy]
      exact hfg a t
  | raised h =>
      rw [apply_bind_error hx, apply_bind_error hy]
      exact ⟨.raised h, rfl⟩

/-- After the same beginning, only what follows has to be compared. -/
theorem Same.bind_left (hR : ∀ e, R e e) {x : Op ε σ α} {f g : α → Op ε σ β}
    (hfg : ∀ a, Same R (f a) (g a)) : Same R (x >>= f) (x >>= g) :=
  (Same.refl hR x).bind hfg

/-- Loops over the same list, with bodies that are the same. -/
theorem Same.foldlM {f g : β → α → Op ε σ β} (h : ∀ b a, Same R (f b a) (g b a))
    (hR : ∀ e, R e e) (l : List α) : ∀ b, Same R (l.foldlM f b) (l.foldlM g b) := by
  induction l with
  | nil => intro b; exact Same.refl hR _
  | cons a l ih =>
      intro b
      rw [List.foldlM_cons, List.foldlM_cons]
      exact (h b a).bind ih

/-! ### What an operation keeps -/

/-- From a state in `P` the operation leaves one in `P`, and it raises no error of the kind
`F`. -/
def Keeps (P : σ → Prop) (F : ε → Prop) (x : Op ε σ α) : Prop :=
  ∀ s, P s → P (x.apply s).2 ∧ ∀ e, (x.apply s).1 = .error e → ¬ F e

variable {P : σ → Prop} {F : ε → Prop}

theorem Keeps.pure (a : α) : Keeps P F (pure a : Op ε σ α) :=
  fun _ hs => ⟨hs, fun _ he => nomatch he⟩

theorem Keeps.throw {e : ε} (h : ¬ F e) : Keeps P F (throw e : Op ε σ α) := by
  intro s hs
  refine ⟨hs, fun e' he => ?_⟩
  rw [apply_throw, Except.error.injEq] at he
  rwa [← he]

/-- What the parts of a sequence keep, the sequence keeps. -/
theorem Keeps.bind {x : Op ε σ α} {f : α → Op ε σ β} (hx : Keeps P F x)
    (hf : ∀ a, Keeps P F (f a)) : Keeps P F (x >>= f) := by
  intro s hs
  obtain ⟨hP, herr⟩ := hx s hs
  rcases h : x.apply s with ⟨r, t⟩
  rw [h] at hP herr
  cases r with
  | ok a =>
      rw [apply_bind_ok h]
      exact hf a t hP
  | error e =>
      rw [apply_bind_error h]
      refine ⟨hP, fun e' he => ?_⟩
      rw [Except.error.injEq] at he
      rw [← he]
      exact herr e rfl

theorem Keeps.map {x : Op ε σ α} (hx : Keeps P F x) (f : α → β) : Keeps P F (f <$> x) := by
  rw [map_eq_pure_bind]
  exact hx.bind fun a => Keeps.pure (f a)

theorem Keeps.foldlM {f : β → α → Op ε σ β} (h : ∀ b a, Keeps P F (f b a)) (l : List α) :
    ∀ b, Keeps P F (l.foldlM f b) := by
  induction l with
  | nil => intro b; exact Keeps.pure b
  | cons a l ih =>
      intro b
      rw [List.foldlM_cons]
      exact (h b a).bind ih

theorem Keeps.mapM {f : α → Op ε σ β} (h : ∀ a, Keeps P F (f a)) (l : List α) :
    Keeps P F (l.mapM f) := by
  induction l with
  | nil => exact Keeps.pure []
  | cons a l ih =>
      rw [List.mapM_cons]
      exact (h a).bind fun b => ih.bind fun bs => Keeps.pure (b :: bs)

/-! ### What an operation leaves -/

/-- The operation leaves what `view` shows of the state. -/
def Leaves {τ : Type} (view : σ → τ) (x : Op ε σ α) : Prop :=
  ∀ l, Keeps (fun s => view s = l) (fun _ => False) x

section Leaves

variable {τ : Type} {view : σ → τ}

theorem Leaves.apply {x : Op ε σ α} (h : Leaves view x) (s : σ) :
    view (x.apply s).2 = view s := (h (view s) s rfl).1

theorem Leaves.pure (a : α) : Leaves view (pure a : Op ε σ α) := fun _ => Keeps.pure a

theorem Leaves.throw (e : ε) : Leaves view (throw e : Op ε σ α) := fun _ => Keeps.throw id

theorem Leaves.bind {x : Op ε σ α} {f : α → Op ε σ β} (hx : Leaves view x)
    (hf : ∀ a, Leaves view (f a)) : Leaves view (x >>= f) :=
  fun l => (hx l).bind fun a => hf a l

theorem Leaves.get : Leaves view (get : Op ε σ σ) := fun _ _ hs => ⟨hs, fun _ he => nomatch he⟩

theorem Leaves.set {f : σ → σ} (hf : ∀ s, view (f s) = view s) :
    Leaves view (modify f : Op ε σ Unit) :=
  fun _ s hs => ⟨(hf s).trans hs, fun _ _ => id⟩

theorem Leaves.forM (l : List α) {f : α → Op ε σ Unit} (hf : ∀ a, Leaves view (f a)) :
    Leaves view (l.forM f) := by
  induction l with
  | nil => exact Leaves.pure _
  | cons a l ih => exact (hf a).bind fun _ => ih

end Leaves

/-! ### Fuel -/

/-- Where `x` does not raise an error of the kind `F`, `y` does what `x` does. -/
def Extends (F : ε → Prop) (x y : Op ε σ α) : Prop :=
  ∀ s, (∀ e, (x.apply s).1 = .error e → ¬ F e) → y.apply s = x.apply s

theorem Extends.refl (x : Op ε σ α) : Extends F x x := fun _ _ => rfl

theorem Extends.bind {x y : Op ε σ α} {f g : α → Op ε σ β} (hxy : Extends F x y)
    (hfg : ∀ a, Extends F (f a) (g a)) : Extends F (x >>= f) (y >>= g) := by
  intro s hs
  rcases h : x.apply s with ⟨r, t⟩
  cases r with
  | ok a =>
      have hy : y.apply s = (.ok a, t) := by
        rw [hxy s (by rw [h]; exact fun _ he => nomatch he), h]
      rw [apply_bind_ok h] at hs ⊢
      rw [apply_bind_ok hy]
      exact hfg a t hs
  | error e =>
      rw [apply_bind_error h] at hs ⊢
      have hx : ∀ e', (x.apply s).1 = .error e' → ¬ F e' := by
        rw [h]
        intro e' he
        rw [Except.error.injEq] at he
        exact hs e' (by rw [he])
      have hy : y.apply s = (.error e, t) := by rw [hxy s hx, h]
      rw [apply_bind_error hy]

theorem Extends.foldlM {f g : β → α → Op ε σ β} (h : ∀ b a, Extends F (f b a) (g b a))
    (l : List α) : ∀ b, Extends F (l.foldlM f b) (l.foldlM g b) := by
  induction l with
  | nil => intro b; exact Extends.refl _
  | cons a l ih =>
      intro b
      rw [List.foldlM_cons, List.foldlM_cons]
      exact (h b a).bind ih

/-- From some fuel on the operation comes to the one result. -/
def Settles (x : Nat → Op ε σ α) (s : σ) (r : Except ε α × σ) : Prop :=
  ∃ n, ∀ fuel, n < fuel → (x fuel).apply s = r

/-- An operation that more fuel extends settles on the first result that is not for want of
fuel. -/
theorem settles_of_extends {x : Nat → Op ε σ α} (h : ∀ fuel, Extends F (x fuel) (x (fuel + 1)))
    {s : σ} {n : Nat} (hs : ∀ e, ((x (n + 1)).apply s).1 = .error e → ¬ F e) :
    Settles x s ((x (n + 1)).apply s) := by
  refine ⟨n, fun fuel hlt => ?_⟩
  obtain ⟨k, rfl⟩ := Nat.exists_eq_add_of_le hlt
  induction k with
  | zero => rfl
  | succ k ih =>
      have hk := ih (by omega)
      rw [← hk] at hs
      exact (h (n.succ + k) s hs).trans hk

/-- An operation without fuel settles at once. -/
theorem settles_const (x : Op ε σ α) (s : σ) : Settles (fun _ => x) s (x.apply s) :=
  ⟨0, fun _ _ => rfl⟩

/-- What every attempt keeps holds where they settle. -/
theorem Settles.keeps {P : σ → Prop} {F : ε → Prop} {x : Nat → Op ε σ α} {s : σ}
    {r : Except ε α × σ} (hx : Settles x s r) (h : ∀ n, Keeps P F (x n)) (hs : P s) : P r.2 := by
  obtain ⟨n, hn⟩ := hx
  have hP := (h (n + 1) s hs).1
  rw [hn (n + 1) (by omega)] at hP
  exact hP

/-- A sequence whose first part returns settles on what the second part does. -/
theorem Settles.bind_ok {x : Nat → Op ε σ α} {f : Nat → α → Op ε σ β} {s t : σ} {a : α}
    {r : Except ε β × σ} (hx : Settles x s (.ok a, t)) (hf : Settles (fun n => f n a) t r) :
    Settles (fun n => x n >>= f n) s r := by
  obtain ⟨n, hn⟩ := hx
  obtain ⟨m, hm⟩ := hf
  refine ⟨n + m, fun fuel hlt => ?_⟩
  have hnf : n < fuel := by omega
  have hmf : m < fuel := by omega
  show Op.apply (x fuel >>= f fuel) s = r
  rw [apply_bind_ok (hn fuel hnf)]
  exact hm fuel hmf

theorem Settles.bind_error {x : Nat → Op ε σ α} {f : Nat → α → Op ε σ β} {s t : σ} {e : ε}
    (hx : Settles x s (.error e, t)) : Settles (fun n => x n >>= f n) s (.error e, t) := by
  obtain ⟨n, hn⟩ := hx
  refine ⟨n, fun fuel hlt => ?_⟩
  show Op.apply (x fuel >>= f fuel) s = _
  exact apply_bind_error (hn fuel hlt)

end Operation
