/-
Linked lists in memory.

The memory says of a node what its next node is.  A segment leads from one pointer to
another along its nodes, and a list is a segment that ends nowhere.  To unlink a node is to
let the node before it point behind it; the rest of the list does not change.
-/
import Mathlib

namespace Linked

variable {α : Type}

/-- The nodes from one pointer up to another. -/
def Segment (next : α → Option (Option α)) : Option α → List α → Option α → Prop
  | start, [], end_ => start = end_
  | start, a :: l, end_ => start = some a ∧ ∃ rest, next a = some rest ∧ Segment next rest l end_

/-- The nodes of a list. -/
abbrev IsList (next : α → Option (Option α)) (start : Option α) (l : List α) : Prop :=
  Segment next start l none

variable {next next' : α → Option (Option α)} {start middle end_ : Option α} {l m : List α}
  {a : α}

theorem segment_cons : Segment next start (a :: l) end_ ↔
    start = some a ∧ ∃ rest, next a = some rest ∧ Segment next rest l end_ := Iff.rfl

theorem segment_append : Segment next start (l ++ m) end_ ↔
    ∃ middle, Segment next start l middle ∧ Segment next middle m end_ := by
  induction l generalizing start with
  | nil =>
      constructor
      · intro h
        exact ⟨start, rfl, h⟩
      · rintro ⟨middle, rfl, h⟩
        exact h
  | cons a l ih =>
      rw [List.cons_append, segment_cons]
      constructor
      · rintro ⟨hstart, rest, hnext, h⟩
        obtain ⟨middle, hl, hm⟩ := ih.mp h
        exact ⟨middle, ⟨hstart, rest, hnext, hl⟩, hm⟩
      · rintro ⟨middle, ⟨hstart, rest, hnext, hl⟩, hm⟩
        exact ⟨hstart, rest, hnext, ih.mpr ⟨middle, hl, hm⟩⟩

theorem segment_concat : Segment next start (l ++ [a]) end_ ↔
    Segment next start l (some a) ∧ next a = some end_ := by
  rw [segment_append]
  constructor
  · rintro ⟨middle, hl, rfl, rest, hnext, rfl⟩
    exact ⟨hl, hnext⟩
  · rintro ⟨hl, hnext⟩
    exact ⟨some a, hl, rfl, end_, hnext, rfl⟩

/-- Only the nodes of the segment matter. -/
theorem Segment.congr (h : Segment next start l end_) (heq : ∀ a ∈ l, next' a = next a) :
    Segment next' start l end_ := by
  induction l generalizing start with
  | nil => exact h
  | cons a l ih =>
      obtain ⟨hstart, rest, hnext, hrest⟩ := h
      rw [List.forall_mem_cons] at heq
      exact ⟨hstart, rest, by rw [heq.1, hnext], ih hrest heq.2⟩

/-- The memory and the start tell the nodes. -/
theorem IsList.unique (hl : IsList next start l) (hm : IsList next start m) : l = m := by
  induction l generalizing start m with
  | nil =>
      cases m with
      | nil => rfl
      | cons b m =>
          obtain ⟨hstart, -⟩ := hm
          rw [show start = none from hl] at hstart
          cases hstart
  | cons a l ih =>
      obtain ⟨rfl, rest, hnext, hrest⟩ := hl
      cases m with
      | nil => cases hm
      | cons b m =>
          obtain ⟨hab, rest', hnext', hrest'⟩ := hm
          rw [Option.some.injEq] at hab
          subst hab
          rw [hnext, Option.some.injEq] at hnext'
          subst hnext'
          rw [ih hrest hrest']

/-- No node is in a list twice: its rest would be two lists. -/
theorem IsList.nodup (h : IsList next start l) : l.Nodup := by
  induction l generalizing start with
  | nil => exact List.nodup_nil
  | cons a l ih =>
      obtain ⟨rfl, rest, hnext, hrest⟩ := h
      refine List.nodup_cons.mpr ⟨fun hmem => ?_, ih hrest⟩
      obtain ⟨p, q, rfl⟩ := List.append_of_mem hmem
      obtain ⟨middle, -, hq⟩ := segment_append.mp hrest
      have hmiddle : middle = some a := hq.1
      subst hmiddle
      have hwhole : IsList next (some a) (a :: (p ++ a :: q)) := ⟨rfl, rest, hnext, hrest⟩
      have hlen := congrArg List.length (IsList.unique hwhole hq)
      simp at hlen
      omega

/-- **The last node of a segment** can be made to point elsewhere. -/
theorem Segment.redirect [DecidableEq α] (h : Segment next start (l ++ [a]) middle)
    (hnodup : (l ++ [a]).Nodup) (end_ : Option α) :
    Segment (Function.update next a (some end_)) start (l ++ [a]) end_ := by
  rw [segment_concat] at h ⊢
  have hnot : a ∉ l := by
    intro hmem
    exact (List.nodup_append.mp hnodup).2.2 a hmem a List.mem_cons_self rfl
  refine ⟨h.1.congr fun b hb => Function.update_of_ne ?_ _ _, Function.update_self a _ next⟩
  intro heq
  exact hnot (by rwa [heq] at hb)

end Linked
