/-
What the compilers hold is an image of the functions and their variables.

A local is marked if its variable was ever captured, and an upvalue says where the function around
has the variable.  The variables that a function captures are known to the function around it, and
their positions stay while the inner function is compiled.  So an upvalue is found again if and
only if it is for the same variable.  A static field is declared in a function further out, behind
what it has.
-/
import Wrenegade.Lib.Run
import Wrenegade.Model.Scoping

namespace Wrenegade

namespace Scoping

open Run (map_bind)
open WrenVM (Result)

variable {ν ω : Type}

/-! ### The image of the functions -/

def imageLocal (escaped : List Nat) (d : Declared) : Local := ⟨d.name, d.depth, d.id ∈ escaped⟩

def Function.image (escaped : List Nat) (parents : List Function) (f : Function) : Compiler where
  locals := f.declared.map (imageLocal escaped)
  upvalues := f.captured.map (describe parents)
  scopeDepth := f.scopeDepth
  enclosingClass := f.enclosingClass

def image (escaped : List Nat) : List Function → List Compiler
  | [] => []
  | f :: rest => f.image escaped rest :: image escaped rest

def Scopes.image (s : Scopes ν ω) : Compilation ν ω :=
  ⟨Scoping.image s.escaped s.functions, s.parser⟩

/-- A variable that a function captures is one of the function around it, or captured there. -/
def Knows (parents : List Function) (id : Nat) : Prop :=
  ∃ p rest, parents = p :: rest ∧ (id ∈ p.ids ∨ id ∈ p.captured)

/-- The scopes of a function are nested. -/
structure Nested (f : Function) : Prop where
  sorted : f.declared.Pairwise fun d d' => d.depth ≤ d'.depth
  depth_le : ∀ d ∈ f.declared, d.depth ≤ f.scopeDepth

def Closed : List Function → Prop
  | [] => True
  | f :: rest => (f.captured.Nodup ∧ f.captured.length ≤ MAX_UPVALUES) ∧
      (∀ id ∈ f.captured, Knows rest id) ∧ Nested f ∧ Closed rest

/-- All ids of the variables in scope. -/
def allIds (functions : List Function) : List Nat := functions.flatMap Function.ids

theorem allIds_cons (f : Function) (rest : List Function) :
    allIds (f :: rest) = f.ids ++ allIds rest := List.flatMap_cons

theorem nodup_ids {f : Function} {rest : List Function} (h : (allIds (f :: rest)).Nodup) :
    f.ids.Nodup := by
  rw [allIds_cons] at h
  exact (List.nodup_append.mp h).1

structure Scopes.WellFormed (s : Scopes ν ω) : Prop where
  distinct : (allIds s.functions).Nodup
  known : ∀ id ∈ allIds s.functions, id < s.count
  escapedKnown : ∀ id ∈ s.escaped, id < s.count
  closed : Closed s.functions

/-! ### Locals -/

section Locals

variable {f : Function} {escaped : List Nat} {parents : List Function} {name : Text} {id : Nat}

theorem find_mem (h : f.find name = some id) : id ∈ f.ids := by
  obtain ⟨d, hd, rfl⟩ := Option.map_eq_some_iff.mp h
  exact List.mem_map_of_mem (List.mem_reverse.mp (List.mem_of_find?_eq_some hd))

/-- The last local of a name, by its index or by its variable. -/
theorem findIdx_reverse (l : List Declared) (hdistinct : (l.map Declared.id).Nodup) :
    ((l.map (imageLocal escaped)).reverse.findIdx? fun x => decide (x.name = name)).map
        (fun i => l.length - 1 - i)
      = ((l.reverse.find? fun d => decide (d.name = name)).map Declared.id).map
        (l.map Declared.id).idxOf := by
  induction l using List.reverseRecOn with
  | nil => rfl
  | append_singleton l d ih =>
      rw [List.map_append, List.map_singleton] at hdistinct
      have hnot : d.id ∉ l.map Declared.id := by
        intro hmem
        exact (List.nodup_append.mp hdistinct).2.2 d.id hmem d.id (List.mem_singleton.mpr rfl) rfl
      rw [List.map_append, List.map_singleton, List.reverse_append, List.reverse_append,
        List.reverse_singleton, List.reverse_singleton, List.singleton_append,
        List.singleton_append, List.findIdx?_cons, List.find?_cons, List.map_append,
        List.map_singleton, List.length_append, List.length_singleton, Nat.add_sub_cancel]
      by_cases hd : d.name = name
      · have hd' : (imageLocal escaped d).name = name := hd
        rw [decide_eq_true hd, decide_eq_true hd']
        show some (l.length - 0) = some ((l.map Declared.id ++ [d.id]).idxOf d.id)
        rw [List.idxOf_append_of_notMem hnot, List.length_map, List.idxOf_cons_self]
        rfl
      · have hd' : ¬ (imageLocal escaped d).name = name := hd
        rw [decide_eq_false hd, decide_eq_false hd']
        show Option.map _ (Option.map _ _) = Option.map _ (Option.map _ (l.reverse.find? _))
        have hl := ih (List.nodup_append.mp hdistinct).1
        rw [Option.map_map] at hl ⊢
        cases hfind : l.reverse.find? fun d => decide (d.name = name) with
        | none =>
            rw [hfind] at hl
            have hnone := Option.map_eq_none_iff.mp hl
            rw [hnone]
            rfl
        | some x =>
            rw [hfind] at hl
            obtain ⟨i, hi, hidx⟩ := Option.map_eq_some_iff.mp hl
            rw [hi]
            have hmem : x.id ∈ l.map Declared.id :=
              List.mem_map_of_mem (List.mem_reverse.mp (List.mem_of_find?_eq_some hfind))
            show some (l.length - (i + 1)) = some ((l.map Declared.id ++ [d.id]).idxOf x.id)
            rw [List.idxOf_append_of_mem hmem, Option.some.injEq]
            have hidx' : l.length - 1 - i = (l.map Declared.id).idxOf x.id := hidx
            omega

/-- **A local is found** at the position of its variable. -/
theorem resolveLocal_eq (hdistinct : f.ids.Nodup) :
    (f.image escaped parents).resolveLocal name = (f.find name).map f.ids.idxOf := by
  unfold Compiler.resolveLocal Function.image
  rw [List.length_map]
  exact findIdx_reverse f.declared hdistinct

theorem imageLocal_of_ne {d : Declared} (h : d.id ≠ id) :
    imageLocal (id :: escaped) d = imageLocal escaped d := by
  unfold imageLocal
  simp [h]

/-- To capture a variable changes no function that does not have it. -/
theorem image_of_not_mem (h : id ∉ f.ids) :
    f.image (id :: escaped) parents = f.image escaped parents := by
  have hlocals : f.declared.map (imageLocal (id :: escaped))
      = f.declared.map (imageLocal escaped) := by
    refine List.map_congr_left fun d hd => imageLocal_of_ne fun heq => h ?_
    rw [← heq]
    exact List.mem_map_of_mem hd
  unfold Function.image
  rw [hlocals]

theorem images_of_not_mem {functions : List Function} (h : id ∉ allIds functions) :
    image (id :: escaped) functions = image escaped functions := by
  induction functions with
  | nil => rfl
  | cons f rest ih =>
      unfold allIds at h
      rw [List.flatMap_cons, List.mem_append, not_or] at h
      unfold image
      rw [image_of_not_mem h.1, ih h.2]

/-- To mark a local is to capture its variable. -/
theorem markUpvalue_eq (hdistinct : f.ids.Nodup) :
    (f.image escaped parents).markUpvalue (f.ids.idxOf id) = f.image (id :: escaped) parents := by
  have hlocals : (f.declared.map (imageLocal escaped)).modify (f.ids.idxOf id)
      (fun l => { l with isUpvalue := true }) = f.declared.map (imageLocal (id :: escaped)) := by
    refine List.ext_getElem (by simp) fun i hi hi' => ?_
    have hlt : i < f.declared.length := by simpa using hi'
    have hlt' : i < f.ids.length := by
      unfold Function.ids
      rwa [List.length_map]
    have hat : f.ids[i] = f.declared[i].id := List.getElem_map _
    rw [List.getElem_modify, List.getElem_map, List.getElem_map]
    by_cases hidx : f.ids.idxOf id = i
    · have hd : f.declared[i].id = id := by
        rw [← hat]
        subst hidx
        exact List.getElem_idxOf _
      rw [if_pos hidx]
      unfold imageLocal
      rw [hd]
      simp
    · rw [if_neg hidx, imageLocal_of_ne]
      intro heq
      refine hidx ?_
      rw [← heq, ← hat]
      exact hdistinct.idxOf_getElem i _
  unfold Compiler.markUpvalue Function.image
  rw [hlocals]

end Locals

/-! ### Upvalues -/

/-- The position of an element that is there is its own. -/
theorem idxOf?_map {α β : Type} [DecidableEq α] [DecidableEq β] {g : α → β} {a : α} {l : List α}
    (hinj : ∀ x ∈ l, g x = g a → x = a) :
    (l.map g).idxOf? (g a) = if a ∈ l then some (l.idxOf a) else none := by
  induction l with
  | nil => rfl
  | cons x l ih =>
      rw [List.forall_mem_cons] at hinj
      rw [List.map_cons, List.idxOf?_cons, ih hinj.2]
      by_cases hx : x = a
      · subst hx
        simp
      · have hgx : (g x == g a) = false := beq_eq_false_iff_ne.mpr fun heq => hx (hinj.1 heq)
        have hmem : a ∈ x :: l ↔ a ∈ l := by
          rw [List.mem_cons]
          exact or_iff_right fun heq => hx heq.symm
        rw [hgx, if_neg Bool.false_ne_true, List.idxOf_cons_ne l hx]
        by_cases ha : a ∈ l
        · rw [if_pos ha, if_pos (hmem.mpr ha)]
          rfl
        · rw [if_neg ha, if_neg fun h => ha (hmem.mp h)]
          rfl

theorem describe_cons (p : Function) (rest : List Function) (id : Nat) :
    describe (p :: rest) id
      = if id ∈ p.ids then ⟨true, p.ids.idxOf id⟩ else ⟨false, p.captured.idxOf id⟩ := rfl

/-- **Different variables** are described differently. -/
theorem describe_inj {parents : List Function} {a b : Nat} (ha : Knows parents a)
    (hb : Knows parents b) (h : describe parents a = describe parents b) : a = b := by
  obtain ⟨p, rest, rfl, ha⟩ := ha
  obtain ⟨p', rest', heq, hb⟩ := hb
  obtain ⟨rfl, rfl⟩ := List.cons.inj heq
  rw [describe_cons, describe_cons] at h
  by_cases hap : a ∈ p.ids
  · by_cases hbp : b ∈ p.ids
    · rw [if_pos hap, if_pos hbp] at h
      exact (List.idxOf_inj hap).mp (congrArg CompilerUpvalue.index h)
    · rw [if_pos hap, if_neg hbp] at h
      cases congrArg CompilerUpvalue.isLocal h
  · by_cases hbp : b ∈ p.ids
    · rw [if_neg hap, if_pos hbp] at h
      cases congrArg CompilerUpvalue.isLocal h
    · rw [if_neg hap, if_neg hbp] at h
      exact (List.idxOf_inj (ha.resolve_left hap)).mp (congrArg CompilerUpvalue.index h)

/-- One more variable is captured, if it was not yet. -/
def Function.captures (f : Function) (id : Nat) : Result Function :=
  if id ∈ f.captured then pure f
  else if f.captured.length < MAX_UPVALUES then pure { f with captured := f.captured ++ [id] }
  else throw .undefined

theorem addUpvalue_eq {f : Function} {escaped : List Nat} {parents : List Function} {id : Nat}
    (hcaptured : ∀ x ∈ f.captured, Knows parents x) (hid : Knows parents id) :
    (f.image escaped parents).addUpvalue (describe parents id) = (f.captures id).map
      fun f => (f.captured.idxOf id, f.image escaped parents) := by
  have hidx : (f.image escaped parents).upvalues.idxOf? (describe parents id)
      = if id ∈ f.captured then some (f.captured.idxOf id) else none :=
    idxOf?_map fun x hx heq => describe_inj (hcaptured x hx) hid heq
  unfold Compiler.addUpvalue Function.captures
  rw [hidx]
  by_cases hmem : id ∈ f.captured
  · rw [if_pos hmem, if_pos hmem]
    rfl
  · rw [if_neg hmem, if_neg hmem]
    show (if (f.captured.map (describe parents)).length < MAX_UPVALUES then _ else _) = _
    rw [List.length_map]
    by_cases hlt : f.captured.length < MAX_UPVALUES
    · rw [if_pos hlt, if_pos hlt]
      show Except.ok ((f.captured.map (describe parents)).length, { f.image escaped parents with
          upvalues := f.captured.map (describe parents) ++ [describe parents id] })
        = Except.ok ((f.captured ++ [id]).idxOf id,
          Function.image escaped parents { f with captured := f.captured ++ [id] })
      rw [List.idxOf_append_of_notMem hmem, List.idxOf_cons_self, Nat.add_zero, List.length_map]
      unfold Function.image
      rw [List.map_append]
      rfl
    · rw [if_neg hlt, if_neg hlt]
      rfl

/-- What a function around has does not move when it captures more. -/
theorem describe_stable {p p' : Function} {rest rest' : List Function} {l : List Nat} {id : Nat}
    (hdeclared : p'.declared = p.declared) (hcaptured : p'.captured = p.captured ++ l)
    (hid : Knows (p :: rest) id) : describe (p' :: rest') id = describe (p :: rest) id := by
  obtain ⟨q, _, heq, hid⟩ := hid
  obtain ⟨rfl, rfl⟩ := List.cons.inj heq
  rw [describe_cons, describe_cons]
  unfold Function.ids
  rw [hdeclared]
  by_cases hmem : id ∈ p.declared.map Declared.id
  · rw [if_pos hmem, if_pos hmem]
  · rw [if_neg hmem, if_neg hmem, hcaptured, List.idxOf_append_of_mem (hid.resolve_left hmem)]

/-- The image of a function is that of its variables and of how the captured ones are described. -/
theorem image_congr {f : Function} {escaped : List Nat} {parents parents' : List Function}
    (h : ∀ x ∈ f.captured, describe parents' x = describe parents x) :
    f.image escaped parents' = f.image escaped parents := by
  have hupvalues : f.captured.map (describe parents') = f.captured.map (describe parents) :=
    List.map_congr_left h
  unfold Function.image
  rw [hupvalues]

/-- What is captured is in scope further out. -/
theorem Knows.mem {functions : List Function} {id : Nat} (hclosed : Closed functions)
    (h : Knows functions id) : id ∈ allIds functions := by
  induction functions with
  | nil =>
      obtain ⟨p, rest, hnil, -⟩ := h
      cases hnil
  | cons f rest ih =>
      obtain ⟨p, rest', heq, hid⟩ := h
      obtain ⟨rfl, rfl⟩ := List.cons.inj heq
      rw [allIds_cons, List.mem_append]
      exact hid.imp_right fun hcaptured => ih hclosed.2.2.2 (hclosed.2.1 _ hcaptured)

/-! ### Declaring further out -/

/-- The functions after one of them may have declared the variable `id`: what is known stays where
it is. -/
structure Extends (id : Nat) (functions functions' : List Function) : Prop where
  knows : ∀ x, Knows functions x → Knows functions' x
  describe : ∀ x, Knows functions x → describe functions' x = describe functions x
  ids : allIds functions' = allIds functions ∨
    (allIds functions').Perm (id :: allIds functions)
  closed : Closed functions'

namespace Extends

variable {f : Function} {rest rest' : List Function} {id : Nat}

theorem refl {functions : List Function} (h : Closed functions) : Extends id functions functions :=
  ⟨fun _ hx => hx, fun _ _ => rfl, Or.inl rfl, h⟩

theorem declare (hclosed : Closed (f :: rest)) (hfresh : id ∉ allIds (f :: rest)) (name : Text) :
    Extends id (f :: rest) (f.declare id name :: rest) := by
  have hids : (f.declare id name).ids = f.ids ++ [id] := by
    unfold Function.ids Function.declare
    rw [List.map_append, List.map_singleton]
  have hclosed' := hclosed
  obtain ⟨hnodup, hknows, hnested, hrest⟩ := hclosed'
  refine ⟨fun x hx => ?_, fun x hx => ?_, Or.inr ?_, hnodup, hknows, ⟨?_, fun d hd => ?_⟩, hrest⟩
  · obtain ⟨q, _, heq, hx⟩ := hx
    obtain ⟨rfl, rfl⟩ := List.cons.inj heq
    refine ⟨f.declare id name, rest, rfl, ?_⟩
    rw [hids, List.mem_append]
    exact hx.imp_left Or.inl
  · have hne : x ≠ id := fun heq => hfresh (heq ▸ hx.mem hclosed)
    rw [describe_cons, describe_cons, hids]
    by_cases hmem : x ∈ f.ids
    · rw [if_pos hmem, if_pos (List.mem_append_left _ hmem), List.idxOf_append_of_mem hmem]
    · have hnot : x ∉ f.ids ++ [id] := by
        rw [List.mem_append, List.mem_singleton]
        exact not_or.mpr ⟨hmem, hne⟩
      rw [if_neg hmem, if_neg hnot]
      rfl
  · rw [allIds_cons, allIds_cons f, hids, List.append_assoc, List.singleton_append]
    exact List.perm_middle
  · refine List.pairwise_append.mpr ⟨hnested.sorted, List.pairwise_singleton _ _, ?_⟩
    intro d hd d' hd'
    rw [List.mem_singleton.mp hd']
    exact hnested.depth_le d hd
  · rcases List.mem_append.mp hd with hd | hd
    · exact hnested.depth_le d hd
    · rw [List.mem_singleton.mp hd]
      exact Int.le_refl _

theorem cons (hclosed : Closed (f :: rest)) (h : Extends id rest rest') :
    Extends id (f :: rest) (f :: rest') := by
  obtain ⟨hnodup, hknows, hnested, -⟩ := hclosed
  refine ⟨fun x hx => ?_, fun x _ => rfl, ?_, hnodup, fun x hx => h.knows x (hknows x hx), hnested,
    h.closed⟩
  · obtain ⟨q, _, heq, hx⟩ := hx
    obtain ⟨rfl, rfl⟩ := List.cons.inj heq
    exact ⟨f, rest', rfl, hx⟩
  · rw [allIds_cons, allIds_cons f rest]
    rcases h.ids with heq | hperm
    · exact Or.inl (congrArg (f.ids ++ ·) heq)
    · exact Or.inr ((hperm.append_left f.ids).trans List.perm_middle)

theorem wellFormed {functions functions' : List Function} {escaped : List Nat} {count : Nat}
    {p p' : Parser ν ω} (h : Scopes.WellFormed ⟨functions, escaped, count, p⟩)
    (hext : Extends count functions functions') :
    Scopes.WellFormed ⟨functions', escaped, count + 1, p'⟩ := by
  have hfresh : count ∉ allIds functions := fun hmem => Nat.lt_irrefl _ (h.known count hmem)
  have hescaped : ∀ x ∈ escaped, x < count + 1 := fun x hx =>
    Nat.lt_succ_of_lt (h.escapedKnown x hx)
  rcases hext.ids with heq | hperm
  · refine ⟨?_, fun x hx => ?_, hescaped, hext.closed⟩
    · show (allIds functions').Nodup
      rw [heq]
      exact h.distinct
    · have hx' : x ∈ allIds functions' := hx
      rw [heq] at hx'
      exact Nat.lt_succ_of_lt (h.known x hx')
  · refine ⟨hperm.nodup_iff.mpr (List.nodup_cons.mpr ⟨hfresh, h.distinct⟩), fun x hx => ?_,
      hescaped, hext.closed⟩
    rcases List.mem_cons.mp (hperm.subset hx) with rfl | hx
    · exact Nat.lt_succ_self _
    · exact Nat.lt_succ_of_lt (h.known x hx)

end Extends

/-! ### Capturing -/

theorem capture_cons {f : Function} {rest : List Function} {id : Nat} (h : id ∉ f.ids) :
    capture id (f :: rest) = capture id rest >>= fun rest => f.captures id >>= fun f =>
      pure (f :: rest) := by
  show (if id ∈ f.ids then _ else (capture id rest >>= _)) = _
  rw [if_neg h]
  unfold Function.captures
  cases capture id rest with
  | error e => rfl
  | ok rest =>
      show (if id ∈ f.captured then _ else _) = ((if id ∈ f.captured then _ else _) >>= _)
      by_cases hmem : id ∈ f.captured
      · rw [if_pos hmem, if_pos hmem]
        rfl
      · rw [if_neg hmem, if_neg hmem]
        by_cases hlt : f.captured.length < MAX_UPVALUES
        · rw [if_pos hlt, if_pos hlt]
          rfl
        · rw [if_neg hlt, if_neg hlt]
          rfl

theorem captures_ok {f f' : Function} {id : Nat} (h : f.captures id = .ok f') :
    f'.declared = f.declared ∧ f'.scopeDepth = f.scopeDepth ∧
      f'.enclosingClass = f.enclosingClass ∧ id ∈ f'.captured ∧
      (f.captured.Nodup ∧ f.captured.length ≤ MAX_UPVALUES →
        f'.captured.Nodup ∧ f'.captured.length ≤ MAX_UPVALUES) ∧
      (∃ l, f'.captured = f.captured ++ l) ∧ ∀ x ∈ f'.captured, x ∈ f.captured ∨ x = id := by
  unfold Function.captures at h
  by_cases hmem : id ∈ f.captured
  · rw [if_pos hmem] at h
    obtain rfl := Except.ok.inj h
    exact ⟨rfl, rfl, rfl, hmem, fun h => h, ⟨[], (List.append_nil _).symm⟩, fun x hx => Or.inl hx⟩
  · rw [if_neg hmem] at h
    by_cases hlt : f.captured.length < MAX_UPVALUES
    · rw [if_pos hlt] at h
      obtain rfl := Except.ok.inj h
      refine ⟨rfl, rfl, rfl, by simp, fun hnodup => ?_, ⟨[id], rfl⟩, fun x hx => ?_⟩
      · show (f.captured ++ [id]).Nodup ∧ (f.captured ++ [id]).length ≤ MAX_UPVALUES
        rw [← List.concat_eq_append, List.length_concat]
        exact ⟨hnodup.1.concat hmem, hlt⟩
      · rcases List.mem_append.mp hx with hx | hx
        · exact Or.inl hx
        · exact Or.inr (List.mem_singleton.mp hx)
    · rw [if_neg hlt] at h
      cases h

/-- **To capture** keeps the variables in scope and what the functions have; the innermost one
knows the variable then. -/
structure Captured (id : Nat) (f : Function) (rest : List Function) (f' : Function)
    (rest' : List Function) : Prop where
  declared : f'.declared = f.declared
  enclosingClass : f'.enclosingClass = f.enclosingClass
  has : id ∈ f'.ids ∨ id ∈ f'.captured
  more : ∃ l, f'.captured = f.captured ++ l
  ids : allIds (f' :: rest') = allIds (f :: rest)
  closed : Closed (f' :: rest')

theorem Captured.knows {f f' : Function} {rest rest' : List Function} {id x : Nat}
    (h : Captured id f rest f' rest') (hx : Knows (f :: rest) x) : Knows (f' :: rest') x := by
  obtain ⟨q, _, heq, hq⟩ := hx
  obtain ⟨rfl, rfl⟩ := List.cons.inj heq
  obtain ⟨l, hl⟩ := h.more
  refine ⟨f', rest', rfl, ?_⟩
  unfold Function.ids at hq ⊢
  rw [h.declared, hl, List.mem_append]
  exact hq.imp_right Or.inl

theorem capture_ok {f : Function} {rest fs : List Function} {id : Nat}
    (hclosed : Closed (f :: rest)) (hid : id ∈ allIds (f :: rest))
    (h : capture id (f :: rest) = .ok fs) :
    ∃ f' rest', fs = f' :: rest' ∧ Captured id f rest f' rest' := by
  induction rest generalizing f fs with
  | nil =>
      have hmem : id ∈ f.ids := by
        unfold allIds at hid
        rwa [List.flatMap_singleton] at hid
      unfold capture at h
      rw [if_pos hmem] at h
      obtain rfl := Except.ok.inj h
      exact ⟨f, [], rfl, rfl, rfl, Or.inl hmem, ⟨[], (List.append_nil _).symm⟩, rfl, hclosed⟩
  | cons p rest ih =>
      by_cases hmem : id ∈ f.ids
      · unfold capture at h
        rw [if_pos hmem] at h
        obtain rfl := Except.ok.inj h
        exact ⟨f, p :: rest, rfl, rfl, rfl, Or.inl hmem, ⟨[], (List.append_nil _).symm⟩, rfl,
          hclosed⟩
      · rw [capture_cons hmem] at h
        have hid' : id ∈ allIds (p :: rest) := by
          unfold allIds at hid ⊢
          rw [List.flatMap_cons, List.mem_append] at hid
          exact hid.resolve_left hmem
        obtain ⟨hnodup, hknows, hnested, hrest⟩ := hclosed
        cases hcapture : capture id (p :: rest) with
        | error e =>
            rw [hcapture] at h
            cases h
        | ok fs' =>
            rw [hcapture] at h
            obtain ⟨p', rest', rfl, hcaptured⟩ := ih hrest hid' hcapture
            cases hcaptures : f.captures id with
            | error e =>
                rw [show (Except.ok (p' :: rest') >>= _) = (f.captures id >>= _) from rfl,
                  hcaptures] at h
                cases h
            | ok f' =>
                rw [show (Except.ok (p' :: rest') >>= _) = (f.captures id >>= _) from rfl,
                  hcaptures] at h
                obtain rfl := Except.ok.inj h
                obtain ⟨hdeclared, hdepth, hclass, hhas, hnodup', hmore, honly⟩ :=
                  captures_ok hcaptures
                refine ⟨f', p' :: rest', rfl, hdeclared, hclass, Or.inr hhas, hmore, ?_,
                  hnodup' hnodup, fun x hx => ?_, ?_, hcaptured.closed⟩
                · rw [allIds_cons, allIds_cons f, hcaptured.ids]
                  unfold Function.ids
                  rw [hdeclared]
                · rcases honly x hx with hx | rfl
                  · exact hcaptured.knows (hknows x hx)
                  · exact ⟨p', rest', rfl, hcaptured.has⟩
                · refine ⟨?_, fun d hd => ?_⟩
                  · rw [hdeclared]
                    exact hnested.sorted
                  · rw [hdepth]
                    rw [hdeclared] at hd
                    exact hnested.depth_le d hd

/-! ### Resolving -/

theorem lookup_cons (name : Text) (f p : Function) (rest : List Function) :
    lookup name (f :: p :: rest) = (f.find name).or
      (if isBoundary name p.enclosingClass then none else lookup name (p :: rest)) := rfl

theorem lookup_of_find {name : Text} {f : Function} {id : Nat} (h : f.find name = some id)
    (rest : List Function) : lookup name (f :: rest) = some id := by
  cases rest with
  | nil => exact h
  | cons p rest =>
      rw [lookup_cons, h]
      rfl

theorem lookup_mem {name : Text} {functions : List Function} {id : Nat}
    (h : lookup name functions = some id) : id ∈ allIds functions := by
  induction functions with
  | nil => cases h
  | cons f rest ih =>
      rw [allIds_cons, List.mem_append]
      cases rest with
      | nil => exact Or.inl (find_mem h)
      | cons p rest =>
          rw [lookup_cons] at h
          cases hfind : f.find name with
          | some x =>
              rw [hfind] at h
              obtain rfl : x = id := Option.some.inj h
              exact Or.inl (find_mem hfind)
          | none =>
              rw [hfind, Option.none_or] at h
              by_cases hboundary : isBoundary name p.enclosingClass = true
              · rw [if_pos hboundary] at h
                cases h
              · rw [if_neg hboundary] at h
                exact Or.inr (ih h)

section Find

variable {name : Text} {escaped : List Nat}

variable {f p : Function} {rest : List Function} {index : Nat}

theorem findUpvalue_boundary (h : isBoundary name p.enclosingClass = true) :
    findUpvalue name (image escaped (f :: p :: rest))
      = .ok (none, image escaped (f :: p :: rest)) := by
  show findUpvalue name
    (f.image escaped (p :: rest) :: p.image escaped rest :: image escaped rest) = _
  unfold findUpvalue
  rw [show (p.image escaped rest).enclosingClass = p.enclosingClass from rfl, if_pos h]
  rfl

theorem findUpvalue_local (h : ¬ isBoundary name p.enclosingClass = true)
    (hlocal : (p.image escaped rest).resolveLocal name = some index) :
    findUpvalue name (image escaped (f :: p :: rest))
      = addLocalUpvalue (f.image escaped (p :: rest)) (p.image escaped rest) (image escaped rest)
        index := by
  show findUpvalue name
    (f.image escaped (p :: rest) :: p.image escaped rest :: image escaped rest) = _
  unfold findUpvalue
  rw [show (p.image escaped rest).enclosingClass = p.enclosingClass from rfl, if_neg h, hlocal]

theorem findUpvalue_outer (h : ¬ isBoundary name p.enclosingClass = true)
    (hlocal : (p.image escaped rest).resolveLocal name = none) :
    findUpvalue name (image escaped (f :: p :: rest))
      = findUpvalue name (image escaped (p :: rest)) >>= fun found =>
        addOuterUpvalue (f.image escaped (p :: rest)) found.1 found.2 := by
  show findUpvalue name
    (f.image escaped (p :: rest) :: p.image escaped rest :: image escaped rest) = _
  conv_lhs => unfold findUpvalue
  rw [show (p.image escaped rest).enclosingClass = p.enclosingClass from rfl, if_neg h, hlocal]
  rfl

/-- **A name that means no variable** is not found, and nothing changes. -/
theorem findUpvalue_none (hfind : f.find name = none)
    (hdistinct : (allIds (f :: rest)).Nodup) (h : lookup name (f :: rest) = none) :
    findUpvalue name (image escaped (f :: rest)) = .ok (none, image escaped (f :: rest)) := by
  induction rest generalizing f with
  | nil => rfl
  | cons p rest ih =>
      rw [lookup_cons, hfind, Option.none_or] at h
      rw [allIds_cons] at hdistinct
      have hdistinct' := (List.nodup_append.mp hdistinct).2.1
      by_cases hboundary : isBoundary name p.enclosingClass = true
      · exact findUpvalue_boundary hboundary
      · rw [if_neg hboundary] at h
        cases hp : p.find name with
        | some x =>
            rw [lookup_of_find hp] at h
            cases h
        | none =>
            have hlocal := @resolveLocal_eq p escaped rest name (nodup_ids hdistinct')
            rw [hp] at hlocal
            rw [findUpvalue_outer hboundary hlocal,
              ih hp hdistinct' h]
            rfl

theorem image_stable {f p p' : Function} {rest rest' : List Function} {l : List Nat}
    (hdeclared : p'.declared = p.declared) (hcaptured : p'.captured = p.captured ++ l)
    (hknows : ∀ x ∈ f.captured, Knows (p :: rest) x) :
    f.image escaped (p' :: rest') = f.image escaped (p :: rest) :=
  image_congr fun x hx => describe_stable hdeclared hcaptured (hknows x hx)

/-- What is found when the variable has been captured. -/
def upvalueFound (escaped : List Nat) (id : Nat) (functions : List Function) :
    Option Nat × List Compiler :=
  (functions.head?.map fun f => f.captured.idxOf id, image (id :: escaped) functions)

/-- A local of the function around is marked, and becomes an upvalue. -/
theorem findUpvalue_parent {id : Nat} (hdistinct : (allIds (p :: rest)).Nodup)
    (hknows : ∀ x ∈ f.captured, Knows (p :: rest) x)
    (hboundary : ¬ isBoundary name p.enclosingClass = true) (hnot : id ∉ f.ids)
    (hp : p.find name = some id) :
    findUpvalue name (image escaped (f :: p :: rest))
      = (capture id (f :: p :: rest)).map (upvalueFound escaped id) := by
  rw [allIds_cons] at hdistinct
  obtain ⟨hdistinctp, -, hdisjoint⟩ := List.nodup_append.mp hdistinct
  have hmem := find_mem hp
  have hnotrest : id ∉ allIds rest := fun hr => hdisjoint id hmem id hr rfl
  have hlocal := @resolveLocal_eq p escaped rest name hdistinctp
  rw [hp] at hlocal
  have hdescribe : describe (p :: rest) id = ⟨true, p.ids.idxOf id⟩ := by
    rw [describe_cons, if_pos hmem]
  have hcapture : capture id (p :: rest) = .ok (p :: rest) := by
    unfold capture
    rw [if_pos hmem]
    rfl
  rw [findUpvalue_local hboundary hlocal, capture_cons hnot, hcapture]
  show ((f.image escaped (p :: rest)).addUpvalue ⟨true, p.ids.idxOf id⟩ >>= _) = _
  rw [← hdescribe, addUpvalue_eq hknows ⟨p, rest, rfl, Or.inl hmem⟩]
  show _ = Except.map _ (f.captures id >>= _)
  refine map_bind fun f' hcaptures => ?_
  obtain ⟨hdeclared, -⟩ := captures_ok hcaptures
  have hnot' : id ∉ f'.ids := by
    unfold Function.ids at hnot ⊢
    rwa [hdeclared]
  show Except.ok (some (f'.captured.idxOf id), f'.image escaped (p :: rest) ::
      (p.image escaped rest).markUpvalue (p.ids.idxOf id) :: image escaped rest)
    = Except.ok (some (f'.captured.idxOf id), f'.image (id :: escaped) (p :: rest) ::
      p.image (id :: escaped) rest :: image (id :: escaped) rest)
  rw [markUpvalue_eq hdistinctp, image_of_not_mem hnot', images_of_not_mem hnotrest]

/-- What the function around has found becomes an upvalue of an upvalue. -/
theorem findUpvalue_further {id : Nat} (hdistinct : p.ids.Nodup) (hclosed : Closed (f :: p :: rest))
    (hboundary : ¬ isBoundary name p.enclosingClass = true) (hnot : id ∉ f.ids)
    (hnotp : id ∉ p.ids) (hp : p.find name = none) (hid : id ∈ allIds (p :: rest))
    (hfound : findUpvalue name (image escaped (p :: rest))
      = (capture id (p :: rest)).map (upvalueFound escaped id)) :
    findUpvalue name (image escaped (f :: p :: rest))
      = (capture id (f :: p :: rest)).map (upvalueFound escaped id) := by
  obtain ⟨-, hknows, -, hrest⟩ := hclosed
  have hlocal := @resolveLocal_eq p escaped rest name hdistinct
  rw [hp] at hlocal
  rw [findUpvalue_outer hboundary hlocal, hfound, capture_cons hnot]
  refine map_bind fun fs hcapture => ?_
  obtain ⟨p', rest', rfl, hcaptured⟩ := capture_ok hrest hid hcapture
  obtain ⟨l, hl⟩ := hcaptured.more
  have hnotp' : id ∉ p'.ids := by
    unfold Function.ids at hnotp ⊢
    rwa [hcaptured.declared]
  have hdescribe : describe (p' :: rest') id = ⟨false, p'.captured.idxOf id⟩ := by
    rw [describe_cons, if_neg hnotp']
  show ((f.image escaped (p :: rest)).addUpvalue ⟨false, p'.captured.idxOf id⟩ >>= _) = _
  rw [← hdescribe, ← image_stable hcaptured.declared hl hknows,
    addUpvalue_eq (fun x hx => hcaptured.knows (hknows x hx)) ⟨p', rest', rfl, hcaptured.has⟩]
  refine map_bind fun f' hcaptures => ?_
  obtain ⟨hdeclared, -⟩ := captures_ok hcaptures
  have hnot' : id ∉ f'.ids := by
    unfold Function.ids at hnot ⊢
    rwa [hdeclared]
  show Except.ok (some (f'.captured.idxOf id),
      f'.image escaped (p' :: rest') :: image (id :: escaped) (p' :: rest'))
    = Except.ok (some (f'.captured.idxOf id),
      f'.image (id :: escaped) (p' :: rest') :: image (id :: escaped) (p' :: rest'))
  rw [image_of_not_mem hnot']

/-- **A variable** of a function further out is captured by all functions on the way. -/
theorem findUpvalue_some {id : Nat} (hfind : f.find name = none)
    (hdistinct : (allIds (f :: rest)).Nodup) (hclosed : Closed (f :: rest))
    (h : lookup name (f :: rest) = some id) :
    id ∉ f.ids ∧ findUpvalue name (image escaped (f :: rest))
      = (capture id (f :: rest)).map (upvalueFound escaped id) := by
  induction rest generalizing f with
  | nil =>
      rw [show lookup name [f] = f.find name from rfl, hfind] at h
      cases h
  | cons p rest ih =>
      rw [lookup_cons, hfind, Option.none_or] at h
      rw [allIds_cons] at hdistinct
      obtain ⟨-, hdistinct', hdisjoint⟩ := List.nodup_append.mp hdistinct
      by_cases hboundary : isBoundary name p.enclosingClass = true
      · rw [if_pos hboundary] at h
        cases h
      rw [if_neg hboundary] at h
      have hid := lookup_mem h
      have hnot : id ∉ f.ids := fun hmem => hdisjoint id hmem id hid rfl
      refine ⟨hnot, ?_⟩
      cases hp : p.find name with
      | some x =>
          rw [lookup_of_find hp, Option.some.injEq] at h
          subst h
          exact findUpvalue_parent hdistinct' hclosed.2.1 hboundary hnot hp
      | none =>
          obtain ⟨hnotp, hfound⟩ := ih hp hdistinct' hclosed.2.2.2 h
          exact findUpvalue_further (nodup_ids hdistinct') hclosed hboundary hnot hnotp hp hid hfound

end Find

end Scoping

end Wrenegade
