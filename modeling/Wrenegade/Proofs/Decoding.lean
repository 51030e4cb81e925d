/-
Which values a read gets right.

The structural conversion takes a value apart: a scalar is itself, a foreign object
its payload, a list the array of its converted elements.  A read gives exactly that
where slot 0 suffices as scratch space, and nothing else gets through: a list of two
or more elements that has to be read in slot 0 always ends in a violated assertion
or outside the list.  The one other loss is in strings, which end at their first NUL
for C.
-/
import Wrenegade.Proofs.Reading

namespace Wrenegade

open Text Operation

variable {ν ω : Type}

/-! ### The structural conversion -/

mutual

/-- The value on the host's side; there is none behind a value without access. -/
def WrenValue.toDynamic : WrenValue ν ω → Dynamic ν ω
  | .bool b => .bool b
  | .num x => .num x
  | .foreign data => data
  | .list elements => .array (WrenValue.toDynamics elements)
  | .null => .null
  | .string text => .string text
  | .unknown => .null

def WrenValue.toDynamics : List (WrenValue ν ω) → List (Dynamic ν ω)
  | [] => []
  | e :: es => e.toDynamic :: WrenValue.toDynamics es

end

/-- Built from scalars, foreign objects and lists of these. -/
inductive WrenValue.Plain : WrenValue ν ω → Prop
  | bool (b : Bool) : Plain (.bool b)
  | num (x : ν) : Plain (.num x)
  | foreign (data : Dynamic ν ω) : Plain (.foreign data)
  | list {elements : List (WrenValue ν ω)} (h : ∀ e ∈ elements, Plain e) : Plain (.list elements)
  | null : Plain .null
  | string (text : Text) : Plain (.string text)

/-- No string holds a NUL. -/
inductive WrenValue.CTexts : WrenValue ν ω → Prop
  | bool (b : Bool) : CTexts (.bool b)
  | num (x : ν) : CTexts (.num x)
  | foreign (data : Dynamic ν ω) : CTexts (.foreign data)
  | list {elements : List (WrenValue ν ω)} (h : ∀ e ∈ elements, CTexts e) : CTexts (.list elements)
  | null : CTexts .null
  | string {text : Text} (h : '\x00' ∉ text) : CTexts (.string text)
  | unknown : CTexts .unknown

/-- All lists have at most one element. -/
inductive WrenValue.Narrow : WrenValue ν ω → Prop
  | scalar {v : WrenValue ν ω} (h : ∀ elements, v ≠ .list elements) : Narrow v
  | nil : Narrow (.list [])
  | single {e : WrenValue ν ω} (h : Narrow e) : Narrow (.list [e])

theorem WrenValue.cTexts_list {elements : List (WrenValue ν ω)} :
    (WrenValue.list elements).CTexts ↔ ∀ e ∈ elements, e.CTexts := by
  constructor
  · intro h
    cases h with
    | list h => exact h
  · exact .list

theorem WrenValue.narrow_single {e : WrenValue ν ω} :
    (WrenValue.list [e]).Narrow ↔ e.Narrow := by
  constructor
  · intro h
    cases h with
    | scalar h => exact absurd rfl (h [e])
    | single h => exact h
  · exact .single

theorem WrenValue.not_narrow_of_two (e e' : WrenValue ν ω) (es : List (WrenValue ν ω)) :
    ¬ (WrenValue.list (e :: e' :: es)).Narrow := by
  intro h
  cases h with
  | scalar h => exact absurd rfl (h _)

theorem cString_eq_iff {text : Text} : cString text = text ↔ '\x00' ∉ text := by
  unfold cString
  rw [List.takeWhile_eq_self_iff]
  constructor
  · intro h hmem
    have hne := h _ hmem
    simp at hne
  · intro h c hc
    simpa using fun heq : c = '\x00' => h (heq ▸ hc)

/-! ### Reads that are right -/

theorem readZero_scalar {v : WrenValue ν ω} (hlist : ∀ elements, v ≠ .list elements)
    (hplain : v.Plain) : (readZero v).1 = some v.toDynamic ↔ v.CTexts := by
  cases hplain with
  | bool b => exact ⟨fun _ => .bool b, fun _ => rfl⟩
  | num x => exact ⟨fun _ => .num x, fun _ => rfl⟩
  | foreign data => exact ⟨fun _ => .foreign data, fun _ => rfl⟩
  | list h => exact absurd rfl (hlist _)
  | null => exact ⟨fun _ => .null, fun _ => rfl⟩
  | string text =>
      rw [readZero, WrenValue.toDynamic, Option.some.injEq, Dynamic.string.injEq, cString_eq_iff]
      constructor
      · exact .string
      · intro h
        cases h with
        | string h => exact h

private theorem readZero_narrow {v : WrenValue ν ω} (hlist : ∀ elements, v ≠ .list elements)
    (hplain : v.Plain) : (readZero v).1 = some v.toDynamic ↔ v.Narrow ∧ v.CTexts := by
  rw [readZero_scalar hlist hplain]
  exact ⟨fun h => ⟨.scalar hlist, h⟩, fun h => h.2⟩

theorem plain_of_mem {elements : List (WrenValue ν ω)} (h : (WrenValue.list elements).Plain) :
    ∀ e ∈ elements, e.Plain := by
  cases h with
  | list h => exact h

/-- Slot 0 gives the conversion of exactly the narrow values without NUL. -/
theorem readZero_toDynamic {v : WrenValue ν ω} (hplain : v.Plain) :
    (readZero v).1 = some v.toDynamic ↔ v.Narrow ∧ v.CTexts := by
  induction v using readZero.induct with
  | case7 =>
      constructor
      · intro _
        exact ⟨.nil, .list (by simp)⟩
      · intro _
        rfl
  | case8 e ih =>
      have he := plain_of_mem hplain e (by simp)
      rw [WrenValue.narrow_single, WrenValue.cTexts_list, List.forall_mem_singleton, ← ih he,
        readZero, Option.map_eq_some_iff]
      constructor
      · rintro ⟨d, hd, heq⟩
        rw [hd]
        simpa [WrenValue.toDynamic, WrenValue.toDynamics] using heq
      · intro h
        exact ⟨e.toDynamic, h, rfl⟩
  | case9 e e' es ih =>
      constructor
      · intro h
        rw [readZero] at h
        cases h
      · intro h
        exact absurd h.1 (WrenValue.not_narrow_of_two e e' es)
  | _ => exact readZero_narrow (by intro _ h; cases h) hplain

/-- In another slot this goes for every element. -/
theorem readElements_toDynamic {es : List (WrenValue ν ω)} (hplain : ∀ e ∈ es, e.Plain)
    (zero : WrenValue ν ω) :
    (readElements es zero).1 = some (WrenValue.toDynamics es) ↔
      ∀ e ∈ es, e.Narrow ∧ e.CTexts := by
  induction es generalizing zero with
  | nil => simp [readElements, WrenValue.toDynamics]
  | cons e es ih =>
      have he := hplain e (by simp)
      have hes : ∀ x ∈ es, x.Plain := fun x hx => hplain x (by simp [hx])
      rw [List.forall_mem_cons, ← ih hes (readZero e).2, ← readZero_toDynamic he, readElements,
        WrenValue.toDynamics]
      cases (readZero e).1 with
      | none => simp
      | some d =>
          cases (readElements es (readZero e).2).1 with
          | none => simp
          | some ds => simp

/-- What can be read from a slot: lists with at most one element, except for the value
itself when it is not in slot 0. -/
def Stageable (slot : Nat) (v : WrenValue ν ω) : Prop :=
  if slot = 0 then v.Narrow else ∀ elements, v = .list elements → ∀ e ∈ elements, e.Narrow

/-- A read of a slot gives the conversion of its content exactly when it can be staged and
no string holds a NUL. -/
theorem readSlot_toDynamic {slots : Slots ν ω} {slot : Nat} {v : WrenValue ν ω}
    (hv : slots[slot]? = some v) (hplain : v.Plain) :
    (readSlot slots slot).1 = some v.toDynamic ↔ Stageable slot v ∧ v.CTexts := by
  obtain ⟨zero, rest, rfl⟩ := List.exists_cons_of_ne_nil
    (List.ne_nil_of_mem (List.mem_of_getElem? hv))
  unfold Stageable
  cases slot with
  | zero =>
      rw [List.getElem?_cons_zero, Option.some.injEq] at hv
      rw [hv, readSlot_zero, if_pos rfl]
      exact readZero_toDynamic hplain
  | succ slot =>
      rw [if_neg (by omega)]
      by_cases hlist : ∃ elements, v = .list elements
      · obtain ⟨elements, rfl⟩ := hlist
        have hv' : rest[slot]? = some (.list elements) := hv
        have hread := readElements_toDynamic (plain_of_mem hplain) zero
        rw [readSlot_list hv', WrenValue.toDynamic, WrenValue.cTexts_list]
        constructor
        · intro h
          rw [Option.map_eq_some_iff] at h
          obtain ⟨ds, hds, heq⟩ := h
          rw [Dynamic.array.injEq] at heq
          rw [heq] at hds
          have hall := hread.mp hds
          refine ⟨fun elements' h e he => ?_, fun e he => (hall e he).2⟩
          rw [WrenValue.list.injEq] at h
          exact (hall e (h ▸ he)).1
        · intro h
          rw [hread.mpr fun e he => ⟨h.1 elements rfl e he, h.2 e he⟩]
          rfl
      · have hscalar : ∀ elements, v ≠ .list elements := fun elements h => hlist ⟨elements, h⟩
        rw [readSlot_scalar hv hscalar, readZero_scalar hscalar hplain]
        exact ⟨fun h => ⟨fun elements heq => absurd heq (hscalar elements), h⟩, fun h => h.2⟩

/-! ### Both helpers -/

/-- Both helpers return the conversion of the content of the slot; a call of the API outside
its preconditions would have ended them with an error. -/
structure Converts (slots : Slots ν ω) (slot : Nat) (v : WrenValue ν ω) : Prop where
  haxe : ∃ left, Reads Helper.getFromSlot slots slot (some v.toDynamic, left)
  cpp : ∃ left, Reads CppHelper.getFromSlot slots slot (some v.toDynamic, left)

/--
**What reads get right.**  For every valid slot and every value without inaccessible
parts in it, both helpers return its structural conversion if and only if every list
that has to be read in slot 0 has at most one element, and no string holds a NUL.
-/
theorem converts_iff {slots : Slots ν ω} {slot : Nat} {v : WrenValue ν ω}
    (hv : slots[slot]? = some v) (hplain : v.Plain) :
    Converts slots slot v ↔ Stageable slot v ∧ v.CTexts := by
  obtain ⟨hhaxe, hcpp⟩ := reads_readSlot slots slot
  rw [← readSlot_toDynamic hv hplain]
  constructor
  · intro h
    obtain ⟨left, hread⟩ := h.haxe
    exact (congrArg Prod.fst (hread.unique hhaxe)).symm
  · intro h
    have hpair : readSlot slots slot = (some v.toDynamic, (readSlot slots slot).2) :=
      Prod.ext h rfl
    exact ⟨⟨_, hpair ▸ hhaxe⟩, ⟨_, hpair ▸ hcpp⟩⟩

namespace Sample

/-- A list with a list of one element in it, in slot 1. -/
def row : WrenValue Nat Unit := .list [.num 1, .list [.string "a"], .null]

theorem converts_row : Converts [.unknown, row] 1 row := by
  have helements : ∀ e ∈ [.num 1, .list [.string "a"], .null], (e : WrenValue Nat Unit).Plain ∧
      e.Narrow ∧ e.CTexts := by
    simp only [List.mem_cons, List.not_mem_nil, or_false, forall_eq_or_imp, forall_eq]
    refine ⟨⟨.num 1, .scalar (by simp), .num 1⟩, ⟨.list ?_, .single (.scalar (by simp)), .list ?_⟩,
      ⟨.null, .scalar (by simp), .null⟩⟩
    · simpa using .string "a"
    · simpa using .string (by decide)
  refine (converts_iff rfl (.list fun e he => (helements e he).1)).mpr ⟨?_, ?_⟩
  · rw [Stageable, if_neg (by omega)]
    intro elements h e he
    have helems := WrenValue.list.inj (h : WrenValue.list _ = WrenValue.list elements)
    exact (helements e (helems ▸ he)).2.1
  · exact .list fun e he => (helements e he).2.2

/-- The pair a call returned, in slot 0. -/
def pair : WrenValue Nat Unit := .list [.num 1, .num 2]

/-- It cannot be read there: its first element takes its place. -/
theorem pair_not_converts : pair.Plain ∧ ¬ Converts [pair] 0 pair := by
  refine ⟨.list (by simp; exact ⟨.num 1, .num 2⟩), fun h => ?_⟩
  obtain ⟨left, hread⟩ := h.cpp
  have heq := hread.unique (reads_readSlot _ _).2
  exact nomatch (congrArg Prod.fst heq : some _ = none)

end Sample

end Wrenegade
