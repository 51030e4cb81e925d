/-
Allocated memory, cell by cell.

A block is a list of cells, and a cell that was allocated and not written yet holds
nothing.  To read such a cell, or any cell outside of the block, is an error, and so is to
write outside.  A growable sequence lives in the first cells of a block; the cells behind
it may hold anything.
-/
import Mathlib

abbrev Cells (α : Type) := List (Option α)

namespace Cells

variable {α : Type}

def get (cells : Cells α) (i : Nat) : Option α := (cells[i]?).join

def put (cells : Cells α) (i : Nat) (value : α) : Option (Cells α) :=
  if i < cells.length then some (cells.set i (some value)) else none

/-- Another block with the same first cells. -/
def resize (cells : Cells α) (n : Nat) : Cells α :=
  cells.take n ++ List.replicate (n - cells.length) none

/-- `cells[i] = cells[i - 1]`, for `i` down to the one after `index`. -/
def shiftDown (index : Nat) : Nat → Cells α → Option (Cells α)
  | 0, cells => some cells
  | i + 1, cells =>
      if index < i + 1 then do
        let value ← cells.get i
        let cells ← cells.put (i + 1) value
        shiftDown index i cells
      else some cells

/-- `cells[i] = cells[i + 1]`, as often as is said. -/
def shiftUp : Nat → Nat → Cells α → Option (Cells α)
  | 0, _, cells => some cells
  | n + 1, i, cells => do
      let value ← cells.get (i + 1)
      let cells ← cells.put i value
      shiftUp n (i + 1) cells

/-- The sequence lives in the first cells. -/
def Holds (cells : Cells α) (l : List α) : Prop := ∃ rest, cells = l.map some ++ rest

variable {cells : Cells α} {l : List α}

/-! ### One cell -/

theorem holds_nil (cells : Cells α) : Holds cells [] := ⟨cells, rfl⟩

theorem Holds.length_le (h : Holds cells l) : l.length ≤ cells.length := by
  obtain ⟨rest, rfl⟩ := h
  rw [List.length_append, List.length_map]
  omega

theorem Holds.get {i : Nat} (h : Holds cells l) (hi : i < l.length) :
    cells.get i = some l[i] := by
  obtain ⟨rest, rfl⟩ := h
  unfold Cells.get
  rw [List.getElem?_append_left (by simpa using hi), List.getElem?_map,
    List.getElem?_eq_getElem hi]
  rfl

theorem Holds.put {i : Nat} (h : Holds cells l) (hi : i < l.length) (value : α) :
    ∃ cells', cells.put i value = some cells' ∧ cells'.length = cells.length ∧
      Holds cells' (l.set i value) := by
  have hlen := h.length_le
  obtain ⟨rest, rfl⟩ := h
  refine ⟨_, if_pos (by omega), List.length_set, rest, ?_⟩
  rw [List.set_append_left _ _ (by simpa using hi), List.map_set]

/-- The next cell continues the sequence. -/
theorem Holds.push (h : Holds cells l) (hroom : l.length < cells.length) (value : α) :
    ∃ cells', cells.put l.length value = some cells' ∧ cells'.length = cells.length ∧
      Holds cells' (l ++ [value]) := by
  obtain ⟨rest, rfl⟩ := h
  refine ⟨_, if_pos hroom, List.length_set, ?_⟩
  cases rest with
  | nil => simp at hroom
  | cons c rest =>
      refine ⟨rest, ?_⟩
      rw [List.set_append_right _ _ (by simp)]
      simp

theorem Holds.resize (h : Holds cells l) {n : Nat} (hn : l.length ≤ n) :
    Holds (cells.resize n) l ∧ (cells.resize n).length = n := by
  obtain ⟨rest, rfl⟩ := h
  unfold Cells.resize
  constructor
  · rw [List.take_append, List.take_of_length_le (by simpa using hn), List.append_assoc]
    exact ⟨_, rfl⟩
  · rw [List.length_append, List.length_take, List.length_replicate]
    omega

theorem Holds.take (h : Holds cells l) (n : Nat) : Holds cells (l.take n) := by
  obtain ⟨rest, rfl⟩ := h
  refine ⟨(l.drop n).map some ++ rest, ?_⟩
  rw [← List.append_assoc, ← List.map_append, List.take_append_drop]

/-! ### Shifting -/

theorem get_append (a : List α) (value : α) (rest : Cells α) :
    get (a.map some ++ some value :: rest) a.length = some value := by
  unfold get
  rw [List.getElem?_append_right (by simp)]
  simp

theorem put_append (a : List α) (c : Option α) (rest : Cells α) (value : α) :
    put (a.map some ++ c :: rest) a.length value = some (a.map some ++ some value :: rest) := by
  unfold put
  rw [if_pos (by simp), List.set_append_right _ _ (by simp)]
  simp

/-- Shifting down makes a gap. -/
theorem shiftDown_eq (a b : List α) (c : Option α) (rest : Cells α) :
    ∃ gap, shiftDown a.length (a.length + b.length) ((a ++ b).map some ++ c :: rest)
      = some (a.map some ++ gap :: (b.map some ++ rest)) := by
  induction b using List.reverseRecOn generalizing c rest with
  | nil =>
      refine ⟨c, ?_⟩
      rw [List.append_nil, List.length_nil, Nat.add_zero]
      cases ha : a.length with
      | zero => simp [shiftDown]
      | succ n => simp [shiftDown]
  | append_singleton b z ih =>
      obtain ⟨gap, hgap⟩ := ih (some z) (some z :: rest)
      refine ⟨gap, ?_⟩
      have hlen : a.length + (b ++ [z]).length = a.length + b.length + 1 := by
        rw [List.length_append, List.length_singleton]
        omega
      have hget := get_append (a ++ b) z (c :: rest)
      have hput := put_append (a ++ b ++ [z]) c rest z
      have hsplit : (a ++ (b ++ [z])).map some ++ c :: rest
          = (a ++ b).map some ++ some z :: c :: rest := by simp
      have hsplit' : (a ++ b ++ [z]).map some ++ c :: rest
          = (a ++ b).map some ++ some z :: c :: rest := by simp
      rw [List.length_append] at hget
      rw [hsplit', List.length_append, List.length_append, List.length_singleton] at hput
      rw [hlen, hsplit]
      unfold shiftDown
      rw [if_pos (by omega), hget]
      show (put _ _ z >>= fun cells => shiftDown a.length (a.length + b.length) cells) = _
      rw [hput]
      show shiftDown a.length (a.length + b.length) _ = _
      rw [show (a ++ b ++ [z]).map some ++ some z :: rest
        = (a ++ b).map some ++ some z :: some z :: rest by simp, hgap]
      simp

/-- Shifting up closes a gap. -/
theorem shiftUp_eq (a b : List α) (c : Option α) (rest : Cells α) :
    ∃ last, shiftUp b.length a.length (a.map some ++ c :: (b.map some ++ rest))
      = some ((a ++ b).map some ++ last :: rest) := by
  induction b generalizing a c with
  | nil =>
      refine ⟨c, ?_⟩
      simp [shiftUp]
  | cons x b ih =>
      obtain ⟨last, hlast⟩ := ih (a ++ [x]) (some x)
      refine ⟨last, ?_⟩
      have hget : get (a.map some ++ c :: ((x :: b).map some ++ rest)) (a.length + 1)
          = some x := by
        unfold get
        rw [List.getElem?_append_right (by simp)]
        simp
      have hput := put_append a c ((x :: b).map some ++ rest) x
      rw [List.length_cons, shiftUp, hget]
      show (put (a.map some ++ c :: ((x :: b).map some ++ rest)) a.length x >>= fun cells =>
        shiftUp b.length (a.length + 1) cells) = _
      rw [hput]
      show shiftUp b.length (a.length + 1) _ = _
      rw [List.length_append, List.length_singleton] at hlast
      rw [show a.map some ++ some x :: ((x :: b).map some ++ rest)
        = (a ++ [x]).map some ++ some x :: (b.map some ++ rest) by simp, hlast]
      simp

end Cells
