/-
Where a sequence occurs in another.

A search may skip a place if what it has seen rules the place out: the last unit of a window
that does not match tells how far the next window is.  To split a sequence at another is to
cut it at the first place, and to go on behind it.

In a self-synchronizing code all of this is the same for the words as for what they encode.
-/
import Wrenegade.Lib.Code

namespace Search

variable {α : Type}

def OccursAt (needle l : List α) (i : Nat) : Prop := needle <+: l.drop i

/-- There is no place from one on. -/
def Absent (needle l : List α) (start : Nat) : Prop := ∀ j, start ≤ j → ¬ OccursAt needle l j

/-- The first place from one on. -/
structure First (needle l : List α) (start i : Nat) : Prop where
  ge : start ≤ i
  occurs : OccursAt needle l i
  earlier : ∀ j, start ≤ j → j < i → ¬ OccursAt needle l j

/-- What a search has to find. -/
def Finds (needle l : List α) (start : Nat) : Option Nat → Prop
  | some i => First needle l start i
  | none => Absent needle l start

variable {needle l : List α} {start i j : Nat}

theorem occursAt_iff : OccursAt needle l i ↔ needle = (l.drop i).take needle.length :=
  List.prefix_iff_eq_take

theorem OccursAt.length_le (h : OccursAt needle l i) (hneedle : needle ≠ []) :
    i + needle.length ≤ l.length := by
  have hle := List.IsPrefix.length_le h
  have hpos := List.length_pos_iff.mpr hneedle
  rw [List.length_drop] at hle
  omega

theorem OccursAt.getElem? (h : OccursAt needle l i) {k : Nat} (hk : k < needle.length) :
    l[i + k]? = needle[k]? := by
  obtain ⟨t, ht⟩ := h
  rw [← List.getElem?_drop, ← ht, List.getElem?_append_left hk]

theorem occursAt_append (p : List α) :
    OccursAt needle (p ++ l) (p.length + i) ↔ OccursAt needle l i := by
  unfold OccursAt
  rw [List.drop_append, List.drop_of_length_le (by omega), List.nil_append,
    Nat.add_sub_cancel_left]

theorem OccursAt.split (h : OccursAt needle l i) :
    l = l.take i ++ needle ++ l.drop (i + needle.length) := by
  obtain ⟨t, ht⟩ := h
  have hdrop : l.drop (i + needle.length) = t := by
    rw [← List.drop_drop, ← ht, List.drop_left]
  rw [hdrop, List.append_assoc, ht, List.take_append_drop]

theorem First.unique (hi : First needle l start i) (hj : First needle l start j) : i = j := by
  rcases Nat.lt_trichotomy i j with h | h | h
  · exact absurd hi.occurs (hj.earlier i hi.ge h)
  · exact h
  · exact absurd hj.occurs (hi.earlier j hj.ge h)

theorem first_append (p : List α) :
    First needle (p ++ l) p.length (p.length + i) ↔ First needle l 0 i := by
  constructor
  · intro h
    refine ⟨Nat.zero_le i, (occursAt_append p).mp h.occurs, fun j _ hj hoccurs => ?_⟩
    exact h.earlier (p.length + j) (by omega) (by omega) ((occursAt_append p).mpr hoccurs)
  · intro h
    refine ⟨by omega, (occursAt_append p).mpr h.occurs, fun j hge hj hoccurs => ?_⟩
    obtain ⟨j, rfl⟩ := Nat.exists_eq_add_of_le hge
    exact h.earlier j (Nat.zero_le j) (by omega) ((occursAt_append p).mp hoccurs)

theorem absent_append (p : List α) :
    Absent needle (p ++ l) p.length ↔ Absent needle l 0 := by
  constructor
  · intro h j _ hoccurs
    exact h (p.length + j) (by omega) ((occursAt_append p).mpr hoccurs)
  · intro h j hge hoccurs
    obtain ⟨j, rfl⟩ := Nat.exists_eq_add_of_le hge
    exact h j (Nat.zero_le j) ((occursAt_append p).mp hoccurs)

/-- Where there is no room there is no place. -/
theorem absent_of_length_lt (hneedle : needle ≠ [])
    (hnone : ∀ j, start ≤ j → j < i → ¬ OccursAt needle l j)
    (hlt : l.length < i + needle.length) : Absent needle l start := by
  intro j hj hoccurs
  have hroom := hoccurs.length_le hneedle
  exact hnone j hj (by omega) hoccurs

/-- There is a first place, or there is none. -/
theorem exists_finds (needle l : List α) (start : Nat) : ∃ found, Finds needle l start found := by
  classical
  by_cases h : ∃ j, start ≤ j ∧ OccursAt needle l j
  · obtain ⟨hge, hoccurs⟩ := Nat.find_spec h
    refine ⟨some (Nat.find h), hge, hoccurs, fun j hj hlt hoccurs => ?_⟩
    exact Nat.find_min h hlt ⟨hj, hoccurs⟩
  · exact ⟨none, fun j hj hoccurs => h ⟨j, hj, hoccurs⟩⟩

/-! ### Skipping -/

/-- If a window ends with a unit and does not match, then nothing occurs before the distance:
the unit is none of the first units of the needle that would come to its place. -/
structure Skips (needle : List α) (n : Nat) (c : α) (distance : Nat) : Prop where
  pos : 0 < distance
  le : distance ≤ needle.length
  free : ∀ j < n, needle.length ≤ j + distance → needle[j]? ≠ some c

/-- To skip the whole needle is right if none of its units is known. -/
theorem skips_zero (hneedle : needle ≠ []) (c : α) : Skips needle 0 c needle.length :=
  ⟨List.length_pos_iff.mpr hneedle, Nat.le_refl _, fun j hj => absurd hj (Nat.not_lt_zero j)⟩

/-- **A unit of the needle** that is known later comes to its place earlier. -/
theorem Skips.succ [DecidableEq α] {n distance : Nat} {c d : α} (h : Skips needle n c distance)
    (hn : n + 1 < needle.length) (hd : needle[n]? = some d) :
    Skips needle (n + 1) c (if c = d then needle.length - 1 - n else distance) := by
  by_cases hcd : c = d
  · rw [if_pos hcd]
    exact ⟨by omega, by omega, fun j hj hle => by omega⟩
  · rw [if_neg hcd]
    refine ⟨h.pos, h.le, fun j hj hle hget => ?_⟩
    by_cases hjn : j = n
    · subst hjn
      rw [hd, Option.some.injEq] at hget
      exact hcd hget.symm
    · exact h.free j (by omega) hle hget

/-- **What is skipped** holds nothing. -/
theorem Skips.not_occursAt {c : α} {distance k : Nat}
    (h : Skips needle (needle.length - 1) c distance)
    (hc : l[i + (needle.length - 1)]? = some c) (hk : 0 < k) (hkd : k < distance) :
    ¬ OccursAt needle l (i + k) := by
  intro hoccurs
  have hle := h.le
  have hget := hoccurs.getElem? (k := needle.length - 1 - k) (by omega)
  rw [show i + k + (needle.length - 1 - k) = i + (needle.length - 1) by omega, hc] at hget
  exact h.free (needle.length - 1 - k) (by omega) (by omega) hget.symm

/-! ### Splitting -/

/-- The parts between the places, found from the left. -/
inductive Splits (sep : List α) : List α → List (List α) → Prop
  | last {l : List α} (h : Absent sep l 0) : Splits sep l [l]
  | cons {p q : List α} {parts : List (List α)} (h : First sep (p ++ sep ++ q) 0 p.length)
      (hrest : Splits sep q parts) : Splits sep (p ++ sep ++ q) (p :: parts)

variable {sep : List α} {parts : List (List α)}

theorem Splits.ne_nil (h : Splits sep l parts) : parts ≠ [] := by
  cases h <;> exact List.cons_ne_nil _ _

/-- Every sequence can be split. -/
theorem exists_splits (hsep : sep ≠ []) (l : List α) : ∃ parts, Splits sep l parts := by
  obtain ⟨found, hfound⟩ := exists_finds sep l 0
  cases found with
  | none => exact ⟨[l], Splits.last hfound⟩
  | some i =>
      have hsplit := hfound.occurs.split
      have hle := hfound.occurs.length_le hsep
      have hpos := List.length_pos_iff.mpr hsep
      obtain ⟨parts, hparts⟩ := exists_splits hsep (l.drop (i + sep.length))
      refine ⟨l.take i :: parts, ?_⟩
      have hlen : (l.take i).length = i := by
        rw [List.length_take]
        omega
      have hcons := @Splits.cons _ sep (l.take i) (l.drop (i + sep.length)) parts
        (by rw [← hsplit, hlen]; exact hfound) hparts
      rwa [← hsplit] at hcons
termination_by l.length
decreasing_by
  rw [List.length_drop]
  omega

/-- **To join the parts** gives the sequence back. -/
theorem Splits.intercalate_eq (h : Splits sep l parts) : sep.intercalate parts = l := by
  induction h with
  | last h => simp [List.intercalate]
  | @cons p q parts h hrest ih =>
      obtain ⟨part, parts, rfl⟩ := List.exists_cons_of_ne_nil hrest.ne_nil
      rw [← ih]
      simp [List.intercalate]

/-- No part has the separator in it. -/
theorem Splits.absent (h : Splits sep l parts) (hsep : sep ≠ []) {part : List α}
    (hpart : part ∈ parts) : Absent sep part 0 := by
  induction h with
  | last h => rwa [List.mem_singleton.mp hpart]
  | @cons p q parts h hrest ih =>
      rcases List.mem_cons.mp hpart with rfl | hpart
      · intro j hj hoccurs
        have hle := hoccurs.length_le hsep
        have hpos := List.length_pos_iff.mpr hsep
        refine h.earlier j hj (by omega) ?_
        unfold OccursAt at hoccurs ⊢
        rw [List.append_assoc, List.drop_append_of_le_length (by omega)]
        exact hoccurs.trans (List.prefix_append _ _)
      · exact ih hpart

/-! ### Codes -/

section Code

variable {γ β : Type} (code : Code γ β)

/-- **The places in the code** are the places in what is encoded. -/
theorem occursAt_text {l m : List γ} (hm : m ≠ []) {i : Nat} :
    OccursAt (code.text m) (code.text l) i ↔
      ∃ j, OccursAt m l j ∧ j ≤ l.length ∧ i = (code.text (l.take j)).length := by
  constructor
  · rintro ⟨t, ht⟩
    have hlen : i ≤ (code.text l).length := by
      by_contra hlt
      rw [List.drop_of_length_le (by omega), List.append_eq_nil_iff] at ht
      obtain ⟨c, m, rfl⟩ := List.exists_cons_of_ne_nil hm
      rw [code.text_cons, List.append_eq_nil_iff] at ht
      exact code.encode_ne_nil c ht.1.1
    have hsplit : code.text l = (code.text l).take i ++ code.text m ++ t := by
      rw [List.append_assoc, ht, List.take_append_drop]
    obtain ⟨l₁, l₂, hl, hp, -⟩ := code.text_sync hm hsplit
    subst hl
    refine ⟨l₁.length, ?_, by simp, ?_⟩
    · unfold OccursAt
      rw [List.append_assoc, List.drop_left]
      exact List.prefix_append _ _
    · rw [List.append_assoc, List.take_left, ← hp, List.length_take]
      omega
  · rintro ⟨j, ⟨t, ht⟩, -, rfl⟩
    refine ⟨code.text t, ?_⟩
    have hsplit : code.text l = code.text (l.take j) ++ code.text (m ++ t) := by
      rw [← code.text_append, ht, List.take_append_drop]
    rw [hsplit, List.drop_left, code.text_append]

theorem text_take_lt {l : List γ} {i j : Nat} (hij : i < j) (hj : j ≤ l.length) :
    (code.text (l.take i)).length < (code.text (l.take j)).length := by
  obtain ⟨k, rfl⟩ := Nat.exists_eq_add_of_lt hij
  rw [show i + k + 1 = i + (k + 1) by omega, List.take_add, code.text_append, List.length_append]
  have hle := code.length_le_text ((l.drop i).take (k + 1))
  rw [List.length_take, List.length_drop] at hle
  omega

/-- **The first place in the code** is the first place in what is encoded. -/
theorem first_text {l m : List γ} (hm : m ≠ []) {j : Nat} (h : First m l 0 j) :
    First (code.text m) (code.text l) 0 (code.text (l.take j)).length := by
  have hle := h.occurs.length_le hm
  refine ⟨Nat.zero_le _, (occursAt_text code hm).mpr ⟨j, h.occurs, by omega, rfl⟩, ?_⟩
  intro i _ hi hoccurs
  obtain ⟨k, hk, hkl, rfl⟩ := (occursAt_text code hm).mp hoccurs
  refine h.earlier k (Nat.zero_le k) ?_ hk
  by_contra hjk
  rcases Nat.eq_or_lt_of_le (Nat.le_of_not_lt hjk) with rfl | hlt
  · omega
  · have hlt' := text_take_lt code hlt hkl
    omega

theorem absent_text {l m : List γ} (hm : m ≠ []) (h : Absent m l 0) :
    Absent (code.text m) (code.text l) 0 := by
  intro i _ hoccurs
  obtain ⟨k, hk, -⟩ := (occursAt_text code hm).mp hoccurs
  exact h k (Nat.zero_le k) hk

end Code

end Search
