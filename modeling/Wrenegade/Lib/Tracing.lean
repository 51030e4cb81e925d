/-
Marking what can be reached.

A node that was seen is gray until the nodes it points to were seen as well, and black from
then on.  Every node is pushed once, so that the work ends, and when nothing is gray the
black nodes are those that can be reached from the roots.
-/
import Mathlib

namespace Tracing

variable {α : Type}

/-- What can be reached from the roots along the edges. -/
inductive Reach (roots : List α) (edges : α → List α) : α → Prop
  | root {x : α} (h : x ∈ roots) : Reach roots edges x
  | step {x y : α} (hx : Reach roots edges x) (hy : y ∈ edges x) : Reach roots edges y

/-- Less is reached from less, along fewer edges. -/
theorem Reach.mono {roots roots' : List α} {edges edges' : α → List α}
    (hroots : ∀ x ∈ roots, Reach roots' edges' x)
    (hedges : ∀ x, Reach roots' edges' x → ∀ y ∈ edges x, Reach roots' edges' y) {x : α}
    (h : Reach roots edges x) : Reach roots' edges' x := by
  induction h with
  | root h => exact hroots _ h
  | step hx hy ih => exact hedges _ ih _ hy

/-- The nodes that were seen; the top of the stack of gray ones comes first. -/
structure Marks (α : Type) where
  gray : List α
  black : List α

namespace Marks

def Dark (s : Marks α) (x : α) : Prop := x ∈ s.gray ∨ x ∈ s.black

instance [DecidableEq α] (s : Marks α) (x : α) : Decidable (s.Dark x) :=
  inferInstanceAs (Decidable (_ ∨ _))

/-- See a node. -/
def visit [DecidableEq α] (s : Marks α) (x : α) : Marks α :=
  if s.Dark x then s else ⟨x :: s.gray, s.black⟩

def visitAll [DecidableEq α] (s : Marks α) (l : List α) : Marks α := l.foldl visit s

/-- No node is there twice. -/
def Distinct (s : Marks α) : Prop := (s.gray ++ s.black).Nodup

variable [DecidableEq α] {s : Marks α} {x y : α} {l : List α}

theorem visit_of_dark (h : s.Dark x) : s.visit x = s := if_pos h

theorem visit_of_not_dark (h : ¬ s.Dark x) : s.visit x = ⟨x :: s.gray, s.black⟩ := if_neg h

theorem dark_visit : (s.visit x).Dark y ↔ y = x ∨ s.Dark y := by
  unfold visit
  by_cases h : s.Dark x
  · rw [if_pos h]
    constructor
    · exact Or.inr
    · rintro (rfl | hy)
      · exact h
      · exact hy
  · rw [if_neg h]
    unfold Dark
    rw [List.mem_cons, or_assoc]

theorem black_visit : (s.visit x).black = s.black := by
  unfold visit
  split <;> rfl

theorem Distinct.visit (h : s.Distinct) : (s.visit x).Distinct := by
  unfold Marks.visit
  by_cases hx : s.Dark x
  · rwa [if_pos hx]
  · rw [if_neg hx]
    refine List.nodup_cons.mpr ⟨fun hmem => hx ?_, h⟩
    exact List.mem_append.mp hmem

theorem dark_visitAll : (s.visitAll l).Dark y ↔ y ∈ l ∨ s.Dark y := by
  induction l generalizing s with
  | nil => simp [visitAll]
  | cons x l ih =>
      show ((s.visit x).visitAll l).Dark y ↔ _
      rw [ih, dark_visit, List.mem_cons]
      tauto

theorem black_visitAll : (s.visitAll l).black = s.black := by
  induction l generalizing s with
  | nil => rfl
  | cons x l ih =>
      show ((s.visit x).visitAll l).black = _
      rw [ih, black_visit]

theorem Distinct.visitAll (h : s.Distinct) : (s.visitAll l).Distinct := by
  induction l generalizing s with
  | nil => exact h
  | cons x l ih => exact ih h.visit

theorem visitAll_append (l m : List α) : s.visitAll (l ++ m) = (s.visitAll l).visitAll m :=
  List.foldl_append

end Marks

/-! ### The search -/

section Search

variable {roots : List α} {edges : α → List α} {s : Marks α}

/-- What holds between two turns. -/
structure Traced (roots : List α) (edges : α → List α) (s : Marks α) : Prop where
  distinct : s.Distinct
  roots_dark : ∀ x ∈ roots, s.Dark x
  reached : ∀ x, s.Dark x → Reach roots edges x
  closed : ∀ x ∈ s.black, ∀ y ∈ edges x, s.Dark y

/-- Before the first turn the roots are gray. -/
theorem traced_roots [DecidableEq α] (roots : List α) (edges : α → List α) :
    Traced roots edges ((⟨[], []⟩ : Marks α).visitAll roots) := by
  refine ⟨Marks.Distinct.visitAll List.nodup_nil, ?_, ?_, ?_⟩
  · intro x hx
    exact Marks.dark_visitAll.mpr (Or.inl hx)
  · intro x hx
    rcases Marks.dark_visitAll.mp hx with hroot | hdark
    · exact Reach.root hroot
    · simp [Marks.Dark] at hdark
  · intro x hx
    rw [Marks.black_visitAll] at hx
    simp at hx

/-- **A turn** takes a gray node and sees what it points to. -/
theorem Traced.turn [DecidableEq α] (h : Traced roots edges s) {x : α} {gray : List α} (hgray : s.gray = x :: gray) :
    Traced roots edges ((⟨gray, x :: s.black⟩ : Marks α).visitAll (edges x)) := by
  have hdark : ∀ y, (⟨gray, x :: s.black⟩ : Marks α).Dark y ↔ s.Dark y := by
    intro y
    unfold Marks.Dark
    rw [hgray, List.mem_cons, List.mem_cons]
    tauto
  refine ⟨?_, ?_, ?_, ?_⟩
  · refine Marks.Distinct.visitAll ?_
    have hdistinct := h.distinct
    unfold Marks.Distinct at hdistinct ⊢
    rw [hgray] at hdistinct
    exact (List.perm_middle.nodup_iff).mpr hdistinct
  · intro y hy
    exact Marks.dark_visitAll.mpr (Or.inr ((hdark y).mpr (h.roots_dark y hy)))
  · intro y hy
    rcases Marks.dark_visitAll.mp hy with hedge | hold
    · refine Reach.step (h.reached x (Or.inl ?_)) hedge
      rw [hgray]
      exact List.mem_cons_self
    · exact h.reached y ((hdark y).mp hold)
  · intro y hy z hz
    rw [Marks.black_visitAll] at hy
    refine Marks.dark_visitAll.mpr ?_
    rcases List.mem_cons.mp hy with rfl | hblack
    · exact Or.inl hz
    · exact Or.inr ((hdark z).mpr (h.closed y hblack z hz))

/-- **When nothing is gray**, the black nodes are those that can be reached. -/
theorem Traced.mem_black_iff (h : Traced roots edges s) (hgray : s.gray = []) (x : α) :
    x ∈ s.black ↔ Reach roots edges x := by
  have hdark : ∀ y, s.Dark y → y ∈ s.black := by
    intro y hy
    rcases hy with hy | hy
    · rw [hgray] at hy
      simp at hy
    · exact hy
  constructor
  · intro hx
    exact h.reached x (Or.inr hx)
  · intro hx
    induction hx with
    | root hroot => exact hdark _ (h.roots_dark _ hroot)
    | step _ hy ih => exact hdark _ (h.closed _ ih _ hy)

/-- No more turns are needed than there are nodes. -/
theorem Traced.length_black_le (h : Traced roots edges s) {nodes : List α}
    (hnodes : ∀ x, Reach roots edges x → x ∈ nodes) :
    s.gray.length + s.black.length ≤ nodes.length := by
  have hsub : s.gray ++ s.black ⊆ nodes := by
    intro x hx
    exact hnodes x (h.reached x (List.mem_append.mp hx))
  have hle := (h.distinct.subperm hsub).length_le
  rwa [List.length_append] at hle

end Search

end Tracing
