/-
Runs of a fallible step, and what holds along them.

A run feeds a list of inputs to a step `σ → α → Except ε σ`, one after the other,
and ends with the first failure.  The one rule about runs is `run_invariant`: an
invariant that speaks about the inputs consumed so far and the state, holds at
the start and is kept by every step, holds at the end of every run that gets
there.  The steps may be assumed to meet a condition, which itself may look at the
inputs before the step.
-/
import Mathlib

namespace Run

variable {ε α β σ : Type}

/-- What the parts of a sequence did, when the whole succeeded. -/
theorem bind_eq_ok {x : Except ε α} {f : α → Except ε β} {b : β} :
    (x >>= f) = .ok b ↔ ∃ a, x = .ok a ∧ f a = .ok b := by
  cases x with
  | error e => simp [bind, Except.bind]
  | ok a => simp [bind, Except.bind]

/-- Which part of a sequence failed, when the whole did. -/
theorem bind_eq_error {x : Except ε α} {f : α → Except ε β} {e : ε} :
    (x >>= f) = .error e ↔ x = .error e ∨ ∃ a, x = .ok a ∧ f a = .error e := by
  cases x with
  | error e' => simp [bind, Except.bind]
  | ok a => simp [bind, Except.bind]

/-- A sequence succeeds where its parts do. -/
theorem exists_bind {x : Except ε α} {f : α → Except ε β} {P : β → Prop}
    (h : ∃ a, x = .ok a ∧ ∃ b, f a = .ok b ∧ P b) : ∃ b, (x >>= f) = .ok b ∧ P b := by
  obtain ⟨a, hx, b, hf, hP⟩ := h
  exact ⟨b, bind_eq_ok.mpr ⟨a, hx, hf⟩, hP⟩

/-- What the rest of a sequence does to an image is the image of what it does. -/
theorem map_bind {γ δ : Type} {x : Except ε α} {image : α → β} {f : β → Except ε γ}
    {g : α → Except ε δ} {image' : δ → γ}
    (h : ∀ a, x = .ok a → f (image a) = (g a).map image') :
    (x.map image >>= f) = (x >>= g).map image' := by
  cases x with
  | error e => rfl
  | ok a => exact h a rfl

/-- Mapping a function that does not fail on the list does not fail. -/
theorem exists_mapM {f : α → Except ε β} {l : List α} (h : ∀ a ∈ l, ∃ b, f a = .ok b) :
    ∃ r, l.mapM f = .ok r := by
  induction l with
  | nil => exact ⟨[], rfl⟩
  | cons a l ih =>
      obtain ⟨b, hb⟩ := h a (by simp)
      obtain ⟨r, hr⟩ := ih fun c hc => h c (by simp [hc])
      exact ⟨b :: r, by rw [List.mapM_cons, hb, hr]; rfl⟩

/-- Mapping a fallible function over a list relates the results one by one. -/
theorem mapM_eq_ok {f : α → Except ε β} {l : List α} {r : List β} (h : l.mapM f = .ok r) :
    List.Forall₂ (fun a b => f a = .ok b) l r := by
  induction l generalizing r with
  | nil =>
      simp only [List.mapM_nil, pure, Except.pure, Except.ok.injEq] at h
      subst h
      exact List.Forall₂.nil
  | cons a l ih =>
      rw [List.mapM_cons, bind_eq_ok] at h
      obtain ⟨b, hb, h⟩ := h
      rw [bind_eq_ok] at h
      obtain ⟨bs, hbs, h⟩ := h
      simp only [pure, Except.pure, Except.ok.injEq] at h
      subst h
      exact List.Forall₂.cons hb (ih hbs)

/-- What holds of every single result, as an equation between the two lists. -/
theorem map_eq_of_mapM {γ : Type} {f : α → Except ε β} {g : α → γ} {k : β → γ}
    (hf : ∀ a b, f a = .ok b → g a = k b) {l : List α} {r : List β} (h : l.mapM f = .ok r) :
    l.map g = r.map k := by
  have hpairs := mapM_eq_ok h
  clear h
  induction hpairs with
  | nil => rfl
  | cons hab _ ih => rw [List.map_cons, List.map_cons, hf _ _ hab, ih]

/-- Of two related lists, every entry of the first is related to one of the second. -/
theorem exists_of_forall₂ {R : α → β → Prop} {l : List α} {r : List β} (h : List.Forall₂ R l r)
    {a : α} (ha : a ∈ l) : ∃ b ∈ r, R a b := by
  induction h with
  | nil => simp at ha
  | @cons c d l r hcd _ ih =>
      rcases List.mem_cons.mp ha with rfl | ha
      · exact ⟨d, by simp, hcd⟩
      · obtain ⟨b, hb, hab⟩ := ih ha
        exact ⟨b, by simp [hb], hab⟩

/-- The computation succeeds, with a result that passes the test. -/
def holds (p : α → Bool) : Except ε α → Bool
  | .ok a => p a
  | .error _ => false

theorem exists_of_holds {p : α → Bool} {x : Except ε α} (h : holds p x = true) :
    ∃ a, x = .ok a ∧ p a = true := by
  cases x with
  | error e => exact Bool.noConfusion h
  | ok a => exact ⟨a, rfl, h⟩

/-- Every input meets `Q` together with the inputs before it. -/
def StepsMeet (Q : List α → α → Prop) (inputs : List α) : Prop :=
  ∀ done a rest, inputs = done ++ a :: rest → Q done a

theorem stepsMeet_nil (Q : List α → α → Prop) : StepsMeet Q [] := by
  intro done a rest h
  simp at h

theorem stepsMeet_concat {Q : List α → α → Prop} {inputs : List α} {a : α} :
    StepsMeet Q (inputs ++ [a]) ↔ StepsMeet Q inputs ∧ Q inputs a := by
  constructor
  · intro h
    refine ⟨?_, h inputs a [] rfl⟩
    rintro done b rest rfl
    exact h done b (rest ++ [a]) (by simp)
  · rintro ⟨h, ha⟩ done b rest heq
    rcases List.eq_nil_or_concat rest with rfl | ⟨rest, c, rfl⟩
    · obtain ⟨rfl, hb⟩ := List.append_inj' heq rfl
      rw [← List.singleton_inj.mp hb]
      exact ha
    · rw [List.concat_eq_append, ← List.cons_append, ← List.append_assoc] at heq
      exact h done b rest (List.append_inj' heq rfl).1

/-- **What every step keeps holds at the end of every run.** -/
theorem run_invariant {step : σ → α → Except ε σ} {s₀ : σ} {Inv : List α → σ → Prop}
    {Q : List α → α → Prop} (start : Inv [] s₀)
    (keeps : ∀ done a s s', Inv done s → Q done a → step s a = .ok s' → Inv (done ++ [a]) s') :
    ∀ (inputs : List α) (s : σ), StepsMeet Q inputs → inputs.foldlM step s₀ = .ok s →
      Inv inputs s := by
  intro inputs
  induction inputs using List.reverseRecOn with
  | nil =>
      intro s _ h
      simp only [List.foldlM_nil, pure, Except.pure, Except.ok.injEq] at h
      rw [← h]
      exact start
  | append_singleton inputs a ih =>
      intro s hQ h
      obtain ⟨hQ, ha⟩ := stepsMeet_concat.mp hQ
      rw [List.foldlM_append, bind_eq_ok] at h
      obtain ⟨mid, hmid, h⟩ := h
      simp only [List.foldlM_cons, List.foldlM_nil] at h
      rw [bind_eq_ok] at h
      obtain ⟨last, hlast, h⟩ := h
      simp only [pure, Except.pure, Except.ok.injEq] at h
      rw [← h]
      exact keeps inputs a mid last (ih mid hQ hmid) ha hlast

end Run
