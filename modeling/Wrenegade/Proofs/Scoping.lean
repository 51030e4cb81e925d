/-
The compiler resolves names as lexical scoping has it.

Each operation of the compilers does to the image what is meant to be done to the functions, and
keeps the functions well-formed: the variables are told apart, their scopes are nested, and what a
function captures is known to the one around it.  So it is in every run, in which errors are only
reported.
-/
import Wrenegade.Lib.Run
import Wrenegade.Proofs.Capturing

namespace Wrenegade

namespace Scoping

open ModuleVM (ObjModule)
open Run (bind_eq_ok map_bind)
open WrenVM (Result)

variable {ν ω : Type}

/-! ### Scopes -/

section Nesting

variable {escaped : List Nat} {l : List Declared} {depth : Int}

/-- As scopes are nested, the locals of the inner ones are the last ones. -/
theorem rtakeWhile_eq (hsorted : l.Pairwise fun d d' => d.depth ≤ d'.depth) :
    (l.map (imageLocal escaped)).rtakeWhile (fun x => decide (depth ≤ x.depth))
      = (l.filter fun d => decide (depth ≤ d.depth)).map (imageLocal escaped) := by
  induction l using List.reverseRecOn with
  | nil => rfl
  | append_singleton l d ih =>
      obtain ⟨hl, -, hd⟩ := List.pairwise_append.mp hsorted
      rw [List.map_append, List.map_singleton, List.rtakeWhile_concat, List.filter_append]
      by_cases hdepth : depth ≤ d.depth
      · have hdepth' : depth ≤ (imageLocal escaped d).depth := hdepth
        rw [decide_eq_true hdepth', if_pos rfl, ih hl, List.filter_singleton,
          decide_eq_true hdepth, cond_true, List.map_append, List.map_singleton]
      · have hdepth' : ¬ depth ≤ (imageLocal escaped d).depth := hdepth
        have hnone : (l.filter fun d => decide (depth ≤ d.depth)) = [] := by
          refine List.filter_eq_nil_iff.mpr fun x hx => ?_
          have hle := hd x hx d (List.mem_singleton.mpr rfl)
          rw [decide_eq_true_eq]
          omega
        rw [decide_eq_false hdepth', if_neg Bool.false_ne_true, List.filter_singleton,
          decide_eq_false hdepth, cond_false, hnone]
        rfl

theorem sorted_split (hsorted : l.Pairwise fun d d' => d.depth ≤ d'.depth) :
    (l.filter fun d => decide (¬ depth ≤ d.depth)) ++ (l.filter fun d => decide (depth ≤ d.depth))
      = l := by
  induction l with
  | nil => rfl
  | cons d l ih =>
      obtain ⟨hd, hl⟩ := List.pairwise_cons.mp hsorted
      by_cases hdepth : depth ≤ d.depth
      · have hall : (l.filter fun d => decide (depth ≤ d.depth)) = l := by
          refine List.filter_eq_self.mpr fun x hx => ?_
          rw [decide_eq_true_eq]
          exact hdepth.trans (hd x hx)
        have hnone : (l.filter fun d => decide (¬ depth ≤ d.depth)) = [] := by
          refine List.filter_eq_nil_iff.mpr fun x hx => ?_
          rw [decide_eq_true_eq, not_not]
          exact hdepth.trans (hd x hx)
        rw [List.filter_cons_of_neg (by simpa using hdepth), List.filter_cons_of_pos (by simpa),
          hall, hnone, List.nil_append]
      · rw [List.filter_cons_of_pos (by simpa using hdepth), List.filter_cons_of_neg (by simpa using hdepth),
          List.cons_append, ih hl]

theorem rdropWhile_eq (hsorted : l.Pairwise fun d d' => d.depth ≤ d'.depth) :
    (l.map (imageLocal escaped)).rdropWhile (fun x => decide (depth ≤ x.depth))
      = (l.filter fun d => decide (¬ depth ≤ d.depth)).map (imageLocal escaped) := by
  induction l using List.reverseRecOn with
  | nil => rfl
  | append_singleton l d ih =>
      obtain ⟨hl, -, hd⟩ := List.pairwise_append.mp hsorted
      rw [List.map_append, List.map_singleton, List.rdropWhile_concat, List.filter_append]
      by_cases hdepth : depth ≤ d.depth
      · have hdepth' : depth ≤ (imageLocal escaped d).depth := hdepth
        rw [decide_eq_true hdepth', if_pos rfl, ih hl, List.filter_singleton,
          decide_eq_false (not_not_intro hdepth), cond_false, List.append_nil]
      · have hdepth' : ¬ depth ≤ (imageLocal escaped d).depth := hdepth
        have hall : (l.filter fun d => decide (¬ depth ≤ d.depth)) = l := by
          refine List.filter_eq_self.mpr fun x hx => ?_
          have hle := hd x hx d (List.mem_singleton.mpr rfl)
          rw [decide_eq_true_eq]
          omega
        rw [decide_eq_false hdepth', if_neg Bool.false_ne_true, List.filter_singleton,
          decide_eq_true hdepth, cond_true, hall, List.map_append, List.map_singleton]

end Nesting

section Steps

variable {f f' : Function} {rest : List Function} {escaped : List Nat} {count : Nat}
  {p p' : Parser ν ω} {name : Text}

theorem discardLocals_eq (hnested : Nested f) (depth : Int) :
    (f.image escaped rest).discardLocals depth
      = if -1 < f.scopeDepth then .ok ((f.above depth).reverse.map (discardCode escaped))
        else .error (.assertion "Cannot exit top-level scope.") := by
  unfold Compiler.discardLocals
  show (if -1 < f.scopeDepth then pure (((f.declared.map (imageLocal escaped)).rtakeWhile
    fun l => decide (depth ≤ l.depth)).reverse.map Compiler.discardCode) else _) = _
  rw [rtakeWhile_eq hnested.sorted, ← List.map_reverse, List.map_map]
  have hcode : Compiler.discardCode ∘ imageLocal escaped = discardCode escaped := by
    funext d
    show (if decide (d.id ∈ escaped) = true then _ else _) = if d.id ∈ escaped then _ else _
    by_cases hd : d.id ∈ escaped
    · rw [decide_eq_true hd, if_pos rfl, if_pos hd]
    · rw [decide_eq_false hd, if_neg Bool.false_ne_true, if_neg hd]
  rw [hcode]
  rfl

theorem image_leave (hnested : Nested f) :
    f.leave.image escaped rest = { f.image escaped rest with
      locals := (f.image escaped rest).locals.rdropWhile
        fun l => decide ((f.image escaped rest).scopeDepth ≤ l.depth)
      scopeDepth := (f.image escaped rest).scopeDepth - 1 } := by
  have hlocals : (f.image escaped rest).locals.rdropWhile
      (fun l => decide ((f.image escaped rest).scopeDepth ≤ l.depth))
      = f.leave.declared.map (imageLocal escaped) := by
    show (f.declared.map (imageLocal escaped)).rdropWhile
      (fun l => decide (f.scopeDepth ≤ l.depth)) = _
    rw [rdropWhile_eq hnested.sorted]
    rfl
  rw [hlocals]
  rfl

theorem image_declare {id : Nat} (h : id ∉ escaped) (name : Text) :
    (f.declare id name).image escaped rest = { f.image escaped rest with
      locals := (f.image escaped rest).locals ++ [⟨name, f.scopeDepth, false⟩] } := by
  have hnew : imageLocal escaped ⟨id, name, f.scopeDepth⟩ = ⟨name, f.scopeDepth, false⟩ := by
    unfold imageLocal
    rw [decide_eq_false h]
  unfold Function.image Function.declare
  rw [List.map_append, List.map_singleton, hnew]

theorem image_init {id : Nat} (h : id ∉ escaped) (topLevel isMethod : Bool) :
    (Function.init id topLevel isMethod).image escaped rest = Compiler.init topLevel isMethod := by
  have hnew : imageLocal escaped ⟨id, if isMethod then "this" else [], -1⟩
      = ⟨if isMethod then "this" else [], -1, false⟩ := by
    unfold imageLocal
    rw [decide_eq_false h]
  unfold Function.image Function.init Compiler.init
  rw [List.map_singleton, hnew]
  rfl

/-- The state whose innermost function was changed in its scopes is well-formed. -/
theorem Scopes.WellFormed.replace (h : Scopes.WellFormed ⟨f :: rest, escaped, count, p⟩)
    (hids : f'.ids.Sublist f.ids) (hcaptured : f'.captured = f.captured) (hnested : Nested f') :
    Scopes.WellFormed ⟨f' :: rest, escaped, count, p⟩ := by
  obtain ⟨hdistinct, hknown, hescaped, hnodup, hknows, -, hrest⟩ := h
  have hsub : (allIds (f' :: rest)).Sublist (allIds (f :: rest)) := by
    rw [allIds_cons, allIds_cons f]
    exact hids.append_right _
  refine ⟨hdistinct.sublist hsub, fun id hid => hknown id (hsub.subset hid), hescaped, ?_, ?_,
    hnested, hrest⟩
  · rw [hcaptured]
    exact hnodup
  · rw [hcaptured]
    exact hknows

/-- What is reported is no matter of scopes. -/
theorem Scopes.WellFormed.parsed {s : Scopes ν ω} (h : s.WellFormed) (p : Parser ν ω) :
    Scopes.WellFormed { s with parser := p } :=
  ⟨h.distinct, h.known, h.escapedKnown, h.closed⟩

theorem Scopes.WellFormed.fresh {s : Scopes ν ω} (h : s.WellFormed) : s.count ∉ s.escaped :=
  fun hmem => Nat.lt_irrefl _ (h.escapedKnown s.count hmem)

theorem Scopes.WellFormed.undeclared {s : Scopes ν ω} (h : s.WellFormed) :
    s.count ∉ allIds s.functions :=
  fun hmem => Nat.lt_irrefl _ (h.known s.count hmem)

theorem nested_init (id : Nat) (topLevel isMethod : Bool) :
    Nested (Function.init id topLevel isMethod) := by
  refine ⟨List.pairwise_singleton _ _, fun d hd => ?_⟩
  rw [List.mem_singleton.mp hd]
  cases topLevel with
  | true => exact Int.le_refl _
  | false =>
      show (-1 : Int) ≤ 0
      decide

theorem wellFormed_init {functions : List Function}
    (h : Scopes.WellFormed ⟨functions, escaped, count, p⟩) (topLevel isMethod : Bool) :
    Scopes.WellFormed
      ⟨Function.init count topLevel isMethod :: functions, escaped, count + 1, p⟩ := by
  obtain ⟨hdistinct, hknown, hescaped, hclosed⟩ := h
  have hids : allIds (Function.init count topLevel isMethod :: functions)
      = count :: allIds functions := rfl
  refine ⟨?_, fun id hid => ?_, fun id hid => Nat.lt_succ_of_lt (hescaped id hid),
    ⟨List.nodup_nil, Nat.zero_le _⟩, fun id hid => absurd hid List.not_mem_nil, nested_init count topLevel isMethod,
    hclosed⟩
  · show (allIds (Function.init count topLevel isMethod :: functions)).Nodup
    rw [hids]
    exact List.nodup_cons.mpr ⟨fun hmem => Nat.lt_irrefl _ (hknown count hmem), hdistinct⟩
  · have hid' : id ∈ allIds (Function.init count topLevel isMethod :: functions) := hid
    rw [hids] at hid'
    rcases List.mem_cons.mp hid' with rfl | hid'
    · exact Nat.lt_succ_self _
    · exact Nat.lt_succ_of_lt (hknown id hid')

end Steps

/-! ### Declarations -/

section Declarations

variable {f : Function} {rest : List Function} {escaped : List Nat} {p : Parser ν ω}

theorem addLocal_eq {id : Nat} (h : id ∉ escaped) (name : Text) :
    (f.image escaped rest).addLocal name
      = (f.addLocal id name).map (Function.image escaped rest) := by
  have hlength : (f.image escaped rest).locals.length = f.declared.length := List.length_map _
  unfold Compiler.addLocal Function.addLocal
  rw [hlength]
  by_cases hlt : f.declared.length < MAX_LOCALS
  · rw [if_pos hlt, if_pos hlt]
    show _ = Except.ok ((f.declare id name).image escaped rest)
    rw [image_declare h]
    rfl
  · rw [if_neg hlt, if_neg hlt]
    rfl

/-- **The names of a scope** are all searched, although the search stops at the first local of
another one. -/
theorem findDeclared_eq (hdistinct : f.ids.Nodup) (hnested : Nested f) (name : Text) :
    (f.image escaped rest).findDeclared name = (f.findDeclared name).map f.ids.idxOf := by
  unfold Compiler.findDeclared Function.findDeclared
  show (((f.declared.map (imageLocal escaped)).rtakeWhile fun l =>
      decide (f.scopeDepth ≤ l.depth)).reverse.findIdx? _).map
    (fun i => (f.declared.map (imageLocal escaped)).length - 1 - i) = _
  rw [rtakeWhile_eq hnested.sorted, List.length_map]
  have hsplit : f.declared = f.leave.declared ++ f.above f.scopeDepth :=
    (sorted_split hnested.sorted).symm
  have hids : f.ids = f.leave.ids ++ (f.above f.scopeDepth).map Declared.id := by
    unfold Function.ids
    rw [← List.map_append, ← hsplit]
  obtain ⟨-, hdistinct', hdisjoint⟩ := List.nodup_append.mp (hids ▸ hdistinct)
  have hlength : f.declared.length = f.leave.ids.length + (f.above f.scopeDepth).length := by
    unfold Function.ids
    rw [List.length_map, ← List.length_append, ← hsplit]
  have hidx := @findIdx_reverse escaped name (f.above f.scopeDepth) hdistinct'
  cases hfind : (f.above f.scopeDepth).reverse.find? fun d => decide (d.name = name) with
  | none =>
      rw [hfind] at hidx
      have hnone := Option.map_eq_none_iff.mp hidx
      show Option.map _ (List.findIdx? _ ((f.above f.scopeDepth).map (imageLocal escaped)).reverse)
        = none
      rw [hnone]
      rfl
  | some d =>
      rw [hfind] at hidx
      obtain ⟨i, hi, hat⟩ := Option.map_eq_some_iff.mp hidx
      have hmem : d.id ∈ (f.above f.scopeDepth).map Declared.id :=
        List.mem_map_of_mem (List.mem_reverse.mp (List.mem_of_find?_eq_some hfind))
      have hnot : d.id ∉ f.leave.ids := fun hd => hdisjoint d.id hd d.id hmem rfl
      have hlt := (List.findIdx?_eq_some_iff_getElem.mp hi).1
      rw [List.length_reverse, List.length_map] at hlt
      show Option.map _ (List.findIdx? _ ((f.above f.scopeDepth).map (imageLocal escaped)).reverse)
        = some (f.ids.idxOf d.id)
      have hat' : (f.above f.scopeDepth).length - 1 - i
        = ((f.above f.scopeDepth).map Declared.id).idxOf d.id := hat
      rw [hi, hids, List.idxOf_append_of_notMem hnot, hlength]
      show some (f.leave.ids.length + (f.above f.scopeDepth).length - 1 - i) = _
      rw [Option.some.injEq]
      omega

theorem declareLocal_eq {id : Nat} (hfresh : id ∉ escaped) (hdistinct : f.ids.Nodup)
    (hnested : Nested f) (name : Text) :
    (f.image escaped rest).declareLocal p name = (f.declareLocal id p name).map
      fun r => (r.1, r.2.1, r.2.2.image escaped rest) := by
  have hlength : (f.image escaped rest).locals.length = f.declared.length := List.length_map _
  unfold Compiler.declareLocal Function.declareLocal
  rw [findDeclared_eq hdistinct hnested, hlength, addLocal_eq hfresh]
  cases f.findDeclared name with
  | some x => rfl
  | none =>
      by_cases hfull : f.declared.length = MAX_LOCALS
      · show (if f.declared.length = MAX_LOCALS then _ else _)
          = Except.map _ (if f.declared.length = MAX_LOCALS then _ else _)
        rw [if_pos hfull, if_pos hfull]
        rfl
      · show (if f.declared.length = MAX_LOCALS then _ else _)
          = Except.map _ (if f.declared.length = MAX_LOCALS then _ else _)
        rw [if_neg hfull, if_neg hfull]
        exact map_bind fun _ _ => rfl

theorem declareVariable_eq {id : Nat} (hfresh : id ∉ escaped) (hdistinct : f.ids.Nodup)
    (hnested : Nested f) (name : Text) :
    (f.image escaped rest).declareVariable p name = (f.declareVariable id p name).map
      fun r => (r.1, r.2.1, r.2.2.image escaped rest) := by
  unfold Compiler.declareVariable Function.declareVariable
  show (if f.scopeDepth = -1 then _ else _) = Except.map _ (if f.scopeDepth = -1 then _ else _)
  by_cases hmodule : f.scopeDepth = -1
  · rw [if_pos hmodule, if_pos hmodule]
    rfl
  · rw [if_neg hmodule, if_neg hmodule]
    exact declareLocal_eq hfresh hdistinct hnested name

theorem addLocal_ok {f' : Function} {id : Nat} {name : Text}
    (h : f.addLocal id name = .ok f') : f' = f.declare id name := by
  unfold Function.addLocal at h
  by_cases hlt : f.declared.length < MAX_LOCALS
  · rw [if_pos hlt] at h
    exact (Except.ok.inj h).symm
  · rw [if_neg hlt] at h
    cases h

theorem declareLocal_ok {p' : Parser ν ω} {f' : Function} {id : Nat} {name : Text} {symbol : Int}
    (h : f.declareLocal id p name = .ok (symbol, p', f')) : f' = f ∨ f' = f.declare id name := by
  unfold Function.declareLocal at h
  cases hfind : f.findDeclared name with
  | some x =>
      rw [hfind] at h
      exact Or.inl (congrArg (·.2.2) (Except.ok.inj h)).symm
  | none =>
      rw [hfind] at h
      have h' : (if f.declared.length = MAX_LOCALS then _ else (f.addLocal id name >>= _)) = _ := h
      by_cases hfull : f.declared.length = MAX_LOCALS
      · rw [if_pos hfull] at h'
        exact Or.inl (congrArg (·.2.2) (Except.ok.inj h')).symm
      · rw [if_neg hfull] at h'
        cases hadd : f.addLocal id name with
        | error e =>
            rw [hadd] at h'
            cases h'
        | ok g =>
            rw [hadd] at h'
            obtain rfl : g = f' := congrArg (·.2.2) (Except.ok.inj h')
            exact Or.inr (addLocal_ok hadd)

/-- **A declaration** adds a variable to the function, or changes nothing there. -/
theorem declareVariable_ok {p' : Parser ν ω} {f' : Function} {id : Nat} {name : Text} {symbol : Int}
    (h : f.declareVariable id p name = .ok (symbol, p', f')) : f' = f ∨ f' = f.declare id name := by
  unfold Function.declareVariable at h
  by_cases hmodule : f.scopeDepth = -1
  · have h' := h
    rw [if_pos hmodule] at h'
    exact Or.inl (congrArg (·.2.2) (Except.ok.inj h')).symm
  · have h' := h
    rw [if_neg hmodule] at h'
    exact declareLocal_ok h'

theorem declareVariable_extends {p' : Parser ν ω} {f' : Function} {id : Nat} {name : Text}
    {symbol : Int} (hclosed : Closed (f :: rest)) (hfresh : id ∉ allIds (f :: rest))
    (h : f.declareVariable id p name = .ok (symbol, p', f')) :
    Extends id (f :: rest) (f' :: rest) := by
  rcases declareVariable_ok h with rfl | rfl
  · exact Extends.refl hclosed
  · exact Extends.declare hclosed hfresh name

end Declarations

/-! ### Static fields -/

section Fields

variable {functions : List Function} {id : Nat} {name : Text} {p p' : Parser ν ω}

theorem declareField_extends {functions' : List Function} (hclosed : Closed functions)
    (hunused : id ∉ allIds functions)
    (h : declareField id p name functions = .ok (some (p', functions'))) :
    Extends id functions functions' := by
  induction functions generalizing functions' with
  | nil => cases h
  | cons f rest ih =>
      unfold declareField at h
      by_cases hclass : f.enclosingClass = true
      · rw [if_pos hclass] at h
        cases hfind : f.find name with
        | some x =>
            rw [hfind] at h
            obtain ⟨-, rfl⟩ := Prod.mk.inj (Option.some.inj (Except.ok.inj h))
            exact Extends.refl hclosed
        | none =>
            rw [hfind] at h
            obtain ⟨⟨symbol, p₁, f'⟩, hdeclare, h⟩ := bind_eq_ok.mp h
            obtain ⟨-, rfl⟩ := Prod.mk.inj (Option.some.inj (Except.ok.inj h))
            exact declareVariable_extends hclosed hunused hdeclare
      · rw [if_neg hclass] at h
        obtain ⟨found, hfound, h⟩ := bind_eq_ok.mp h
        rw [allIds_cons, List.mem_append, not_or] at hunused
        cases found with
        | none => cases h
        | some r =>
            obtain ⟨p₁, rest'⟩ := r
            obtain ⟨rfl, rfl⟩ := Prod.mk.inj (Option.some.inj (Except.ok.inj h))
            exact Extends.cons hclosed (ih hclosed.2.2.2 hunused.2 hfound)

/-- **A static field** is declared in the same function, and nothing moves in those further in. -/
theorem declareStatic_eq {escaped : List Nat} (hfresh : id ∉ escaped)
    (hdistinct : (allIds functions).Nodup) (hclosed : Closed functions)
    (hunused : id ∉ allIds functions) :
    declareStatic p name (image escaped functions) = (declareField id p name functions).map
      (Option.map fun r => (r.1, image escaped r.2)) := by
  induction functions with
  | nil => rfl
  | cons f rest ih =>
      have hunused' : id ∉ allIds rest := by
        rw [allIds_cons, List.mem_append, not_or] at hunused
        exact hunused.2
      rw [allIds_cons] at hdistinct
      obtain ⟨hdistinctf, hdistinct', -⟩ := List.nodup_append.mp hdistinct
      obtain ⟨-, hknows, hnested, hrest⟩ := hclosed
      show declareStatic p name (f.image escaped rest :: image escaped rest) = _
      conv_lhs => unfold declareStatic
      conv_rhs => unfold declareField
      rw [show (f.image escaped rest).enclosingClass = f.enclosingClass from rfl]
      by_cases hclass : f.enclosingClass = true
      · rw [if_pos hclass, if_pos hclass, resolveLocal_eq hdistinctf,
          declareVariable_eq hfresh hdistinctf hnested]
        cases f.find name with
        | some x => rfl
        | none =>
            show (Except.map _ (f.declareVariable id p name) >>= _)
              = Except.map _ (f.declareVariable id p name >>= _)
            exact map_bind fun _ _ => rfl
      · rw [if_neg hclass, if_neg hclass, ih hdistinct' hrest hunused']
        refine map_bind fun found hfound => ?_
        cases found with
        | none => rfl
        | some r =>
            obtain ⟨p', rest'⟩ := r
            have hext := declareField_extends hrest hunused' hfound
            have hf : f.image escaped rest' = f.image escaped rest :=
              image_congr fun x hx => hext.describe x (hknows x hx)
            show Except.ok (some (p', f.image escaped rest :: image escaped rest'))
              = Except.ok (some (p', f.image escaped rest' :: image escaped rest'))
            rw [hf]

end Fields

/-! ### Uses of names -/

section Uses

variable {s s' : Scopes ν ω} {name : Text}

/-- **A name** is where the variable is that it means. -/
theorem resolve_eq (h : s.WellFormed) (name : Text) :
    s.image.resolve name = (s.resolve name).map fun r => (r.1, r.2.image) := by
  obtain ⟨functions, escaped, count, p⟩ := s
  cases functions with
  | nil => rfl
  | cons f rest =>
      have hlocal := @resolveLocal_eq f escaped rest name (nodup_ids h.distinct)
      show (resolveNonmodule name (f.image escaped rest :: image escaped rest) >>= _) = _
      unfold resolveNonmodule
      rw [List.head?_cons, Option.bind_some, hlocal]
      unfold Scopes.resolve
      cases hfind : f.find name with
      | some id =>
          rw [lookup_of_find hfind]
          have hmem := find_mem hfind
          show _ = Except.map _ (if decide (id ∈ f.ids) = true then _ else _)
          rw [if_pos (decide_eq_true hmem)]
          show _ = Except.ok (some (position f id), _)
          unfold position
          rw [if_pos hmem]
          rfl
      | none =>
          show ((findUpvalue name (image escaped (f :: rest)) >>= _) >>= _) = _
          cases hlookup : lookup name (f :: rest) with
          | none =>
              rw [findUpvalue_none hfind h.distinct hlookup]
              rfl
          | some id =>
              obtain ⟨hnot, hfound⟩ := @findUpvalue_some name escaped f rest id hfind h.distinct
                h.closed hlookup
              rw [hfound]
              show _ = Except.map _ (if decide (id ∈ f.ids) = true then _ else _)
              rw [if_neg fun hmem => hnot (of_decide_eq_true hmem)]
              cases hcapture : capture id (f :: rest) with
              | error e => rfl
              | ok fs =>
                  obtain ⟨f', rest', rfl, hcaptured⟩ :=
                    capture_ok h.closed (lookup_mem hlookup) hcapture
                  have hnot' : id ∉ f'.ids := by
                    unfold Function.ids at hnot ⊢
                    rwa [hcaptured.declared]
                  have hposition : position f' id = .upvalue (f'.captured.idxOf id) :=
                    if_neg hnot'
                  show Except.ok (some (Variable.upvalue (f'.captured.idxOf id)),
                      Compilation.mk (image (id :: escaped) (f' :: rest')) p)
                    = Except.ok (some (position f' id),
                      Compilation.mk (image (id :: escaped) (f' :: rest')) p)
                  rw [hposition]

/-- What resolving a name does: nothing, or the functions up to the one that has the variable
capture it. -/
theorem resolve_cases {v : Option Variable} (h : s.WellFormed)
    (hs : s.resolve name = .ok (v, s')) :
    (v = none ∧ s' = s ∧ lookup name s.functions = none) ∨
    (∃ f rest id, s.functions = f :: rest ∧ lookup name s.functions = some id ∧ id ∈ f.ids ∧
      v = some (position f id) ∧ s' = s) ∨
    (∃ f rest f' rest' id, s.functions = f :: rest ∧ lookup name s.functions = some id ∧
      id ∉ f.ids ∧ Captured id f rest f' rest' ∧ v = some (position f' id) ∧
      s' = { s with functions := f' :: rest', escaped := id :: s.escaped }) := by
  obtain ⟨functions, escaped, count, p⟩ := s
  have hs' := hs
  unfold Scopes.resolve at hs'
  cases hlookup : lookup name functions with
  | none =>
      rw [show lookup name (Scopes.mk functions escaped count p).functions = none from hlookup]
        at hs'
      obtain ⟨rfl, rfl⟩ := Prod.mk.inj (Except.ok.inj hs')
      exact Or.inl ⟨rfl, rfl, rfl⟩
  | some id =>
      rw [show lookup name (Scopes.mk functions escaped count p).functions = some id from hlookup]
        at hs'
      have hmem := lookup_mem hlookup
      cases functions with
      | nil => cases hlookup
      | cons f rest =>
          have hs'' : (if decide (id ∈ f.ids) = true then _ else (capture id (f :: rest) >>= _))
            = _ := hs'
          by_cases hid : id ∈ f.ids
          · rw [if_pos (decide_eq_true hid)] at hs''
            obtain ⟨rfl, rfl⟩ := Prod.mk.inj (Except.ok.inj hs'')
            exact Or.inr (Or.inl ⟨f, rest, id, rfl, rfl, hid, rfl, rfl⟩)
          · rw [if_neg fun hmem => hid (of_decide_eq_true hmem)] at hs''
            obtain ⟨fs, hcapture, hs''⟩ := bind_eq_ok.mp hs''
            obtain ⟨f', rest', rfl, hcaptured⟩ := capture_ok h.closed hmem hcapture
            obtain ⟨rfl, rfl⟩ := Prod.mk.inj (Except.ok.inj hs'')
            exact Or.inr (Or.inr ⟨f, rest, f', rest', id, rfl, rfl, hid, hcaptured, rfl, rfl⟩)

theorem resolve_wellFormed {v : Option Variable} (h : s.WellFormed)
    (hs : s.resolve name = .ok (v, s')) : s'.WellFormed := by
  rcases resolve_cases h hs with ⟨-, rfl, -⟩ | ⟨f, rest, id, -, -, -, -, rfl⟩ |
    ⟨f, rest, f', rest', id, hfunctions, hlookup, -, hcaptured, -, rfl⟩
  · exact h
  · exact h
  · have hmem := lookup_mem hlookup
    refine ⟨?_, fun x hx => ?_, fun x hx => ?_, hcaptured.closed⟩
    · show (allIds (f' :: rest')).Nodup
      rw [hcaptured.ids, ← hfunctions]
      exact h.distinct
    · have hx' : x ∈ allIds (f' :: rest') := hx
      rw [hcaptured.ids, ← hfunctions] at hx'
      exact h.known x hx'
    · rcases List.mem_cons.mp hx with rfl | hx
      · exact h.known x hmem
      · exact h.escapedKnown x hx

theorem inClass_eq (s : Scopes ν ω) : s.image.inClass = s.inClass := by
  obtain ⟨functions, escaped, count, p⟩ := s
  show (image escaped functions).any Compiler.enclosingClass
    = functions.any Function.enclosingClass
  induction functions with
  | nil => rfl
  | cons f rest ih =>
      show (f.enclosingClass || (image escaped rest).any Compiler.enclosingClass)
        = (f.enclosingClass || rest.any Function.enclosingClass)
      rw [ih]

theorem name_eq (h : s.WellFormed) (name : Text) (line : ν) :
    s.image.name name line = (s.name name line).map fun r => (r.1, r.2.image) := by
  show (s.image.resolve name >>= _) = Except.map _ (s.resolve name >>= _)
  rw [resolve_eq h]
  refine map_bind fun r hresolve => ?_
  obtain ⟨v, s₁⟩ := r
  have hwf := resolve_wellFormed h hresolve
  show (if v.isSome = true then _
      else if (isLocalName name && s₁.image.inClass) = true then _ else _)
    = Except.map _ (if v.isSome = true then _
      else if (isLocalName name && s₁.inClass) = true then _ else _)
  rw [inClass_eq]
  by_cases hv : v.isSome = true
  · rw [if_pos hv, if_pos hv]
    rfl
  rw [if_neg hv, if_neg hv]
  by_cases hself : (isLocalName name && s₁.inClass) = true
  · rw [if_pos hself, if_pos hself]
    show (s₁.image.resolve "this" >>= _) = Except.map _ (s₁.resolve "this" >>= _)
    rw [resolve_eq hwf]
    exact map_bind fun _ _ => rfl
  · rw [if_neg hself, if_neg hself]
    rfl

theorem name_wellFormed {line : ν} {answer : Answer} (h : s.WellFormed)
    (hs : s.name name line = .ok (answer, s')) : s'.WellFormed := by
  obtain ⟨⟨v, s₁⟩, hresolve, hs⟩ := bind_eq_ok.mp hs
  have hwf := resolve_wellFormed h hresolve
  have hs' : (if v.isSome = true then _
    else if (isLocalName name && s₁.inClass) = true then _ else _) = _ := hs
  by_cases hv : v.isSome = true
  · rw [if_pos hv] at hs'
    obtain ⟨-, rfl⟩ := Prod.mk.inj (Except.ok.inj hs')
    exact hwf
  rw [if_neg hv] at hs'
  by_cases hself : (isLocalName name && s₁.inClass) = true
  · rw [if_pos hself] at hs'
    obtain ⟨⟨this, s₂⟩, hthis, hs'⟩ := bind_eq_ok.mp hs'
    obtain ⟨-, rfl⟩ := Prod.mk.inj (Except.ok.inj hs')
    exact resolve_wellFormed hwf hthis
  · rw [if_neg hself] at hs'
    obtain ⟨-, rfl⟩ := Prod.mk.inj (Except.ok.inj hs')
    exact hwf.parsed _

theorem staticField_eq (h : s.WellFormed) (name : Text) :
    s.image.staticField name = (s.staticField name).map fun r => (r.1, r.2.image) := by
  show (declareStatic s.parser name (image s.escaped s.functions) >>= _)
    = Except.map _ (declareField s.count s.parser name s.functions >>= _)
  rw [declareStatic_eq h.fresh h.distinct h.closed h.undeclared]
  refine map_bind fun found hfield => ?_
  cases found with
  | none => rfl
  | some r =>
      obtain ⟨p, functions⟩ := r
      have hext := declareField_extends h.closed h.undeclared hfield
      have hwf : Scopes.WellFormed ⟨functions, s.escaped, s.count + 1, p⟩ := hext.wellFormed h
      -- the rest is `resolveName`, and then the answer
      have hname : (Scopes.mk functions s.escaped (s.count + 1) p).image.resolveName name
          = ((Scopes.mk functions s.escaped (s.count + 1) p).resolve name).map
            fun r => (r.1.or (r.2.parser.find name), r.2.image) := by
        unfold Compilation.resolveName
        rw [resolve_eq hwf]
        cases (Scopes.mk functions s.escaped (s.count + 1) p).resolve name with
        | error e => rfl
        | ok r => rfl
      show ((Scopes.mk functions s.escaped (s.count + 1) p).image.resolveName name >>= _)
        = Except.map _ ((Scopes.mk functions s.escaped (s.count + 1) p).resolve name >>= _)
      rw [hname]
      exact map_bind fun _ _ => rfl

theorem staticField_wellFormed {answer : Answer} (h : s.WellFormed)
    (hs : s.staticField name = .ok (answer, s')) : s'.WellFormed := by
  obtain ⟨found, hfield, hs⟩ := bind_eq_ok.mp hs
  cases found with
  | none =>
      obtain ⟨-, rfl⟩ := Prod.mk.inj (Except.ok.inj hs)
      exact h.parsed _
  | some r =>
      obtain ⟨p, functions⟩ := r
      obtain ⟨⟨v, s₁⟩, hresolve, hs⟩ := bind_eq_ok.mp hs
      obtain ⟨-, rfl⟩ := Prod.mk.inj (Except.ok.inj hs)
      have hext := declareField_extends h.closed h.undeclared hfield
      have hwf : Scopes.WellFormed ⟨functions, s.escaped, s.count + 1, p⟩ := hext.wellFormed h
      exact resolve_wellFormed hwf hresolve

end Uses

/-! ### Operations -/

section Operations

variable {f : Function} {rest : List Function} {escaped : List Nat} {count : Nat}
  {p : Parser ν ω}

/-- **What the compilers do** is what is meant. -/
theorem execIn_eq (h : Scopes.WellFormed ⟨f :: rest, escaped, count, p⟩) (op : Op ν) :
    (Scopes.image ⟨f :: rest, escaped, count, p⟩).exec op
      = (Scopes.execIn ⟨f :: rest, escaped, count, p⟩ f rest op).map
        fun r => (r.1, r.2.image) := by
  have hnested : Nested f := h.closed.2.2.1
  have hfresh : count ∉ escaped := h.fresh
  have hdistinct : f.ids.Nodup := nodup_ids h.distinct
  cases op with
  | parse op => rfl
  | declareVariable name =>
      show (((f.image escaped rest).declareVariable p name >>= _) >>= _)
        = Except.map _ (f.declareVariable count p name >>= _)
      rw [declareVariable_eq hfresh hdistinct hnested, bind_assoc]
      exact map_bind fun _ _ => rfl
  | addLocal name =>
      have hlength : (f.image escaped rest).locals.length = f.declared.length := List.length_map _
      show (((f.image escaped rest).addLocal name >>= _) >>= _)
        = Except.map _ (f.addLocal count name >>= _)
      rw [addLocal_eq hfresh, hlength, bind_assoc]
      exact map_bind fun _ _ => rfl
  | pushScope => rfl
  | popScope =>
      show ((((f.image escaped rest).discardLocals f.scopeDepth >>= _) >>= _) >>= _)
        = Except.map _ (if -1 < f.scopeDepth then _ else _)
      rw [discardLocals_eq hnested]
      by_cases hdepth : -1 < f.scopeDepth
      · rw [if_pos hdepth, if_pos hdepth]
        show Except.ok (_, Compilation.mk ({ f.image escaped rest with
            locals := (f.image escaped rest).locals.rdropWhile
              fun l => decide ((f.image escaped rest).scopeDepth ≤ l.depth)
            scopeDepth := (f.image escaped rest).scopeDepth - 1 } :: image escaped rest) p)
          = Except.ok (_, Compilation.mk (f.leave.image escaped rest :: image escaped rest) p)
        rw [image_leave hnested]
        rfl
      · rw [if_neg hdepth, if_neg hdepth]
        rfl
  | discardLocals depth =>
      show (((f.image escaped rest).discardLocals depth >>= _) >>= _)
        = Except.map _ (if -1 < f.scopeDepth then _ else _)
      rw [discardLocals_eq hnested]
      by_cases hdepth : -1 < f.scopeDepth
      · rw [if_pos hdepth, if_pos hdepth]
        rfl
      · rw [if_neg hdepth, if_neg hdepth]
        rfl
  | resolve name =>
      show (Compilation.resolve _ name >>= _) = Except.map _ (Scopes.resolve _ name >>= _)
      rw [resolve_eq h]
      exact map_bind fun _ _ => rfl
  | name name line => exact name_eq h name line
  | staticField name => exact staticField_eq h name
  | initCompiler isMethod =>
      show Except.ok (Answer.done,
          Compilation.mk (Compiler.init false isMethod :: image escaped (f :: rest)) p)
        = Except.ok (Answer.done,
          Compilation.mk ((Function.init count false isMethod).image escaped (f :: rest) ::
            image escaped (f :: rest)) p)
      rw [image_init hfresh]
  | endCompiler => rfl
  | setClass inClass => rfl

theorem Nested.pushScope (h : Nested f) : Nested { f with scopeDepth := f.scopeDepth + 1 } := by
  refine ⟨h.sorted, fun d hd => ?_⟩
  have hle := h.depth_le d hd
  show d.depth ≤ f.scopeDepth + 1
  omega

theorem Nested.leave (h : Nested f) : Nested f.leave := by
  refine ⟨h.sorted.sublist List.filter_sublist, fun d hd => ?_⟩
  have hlt := (List.mem_filter.mp hd).2
  rw [decide_eq_true_eq] at hlt
  show d.depth ≤ f.scopeDepth - 1
  omega

theorem Scopes.WellFormed.endCompiler
    (h : Scopes.WellFormed ⟨f :: rest, escaped, count, p⟩) :
    Scopes.WellFormed ⟨rest, escaped, count, p⟩ := by
  have hdistinct := h.distinct
  rw [allIds_cons] at hdistinct
  refine ⟨(List.nodup_append.mp hdistinct).2.1, fun x hx => h.known x ?_, h.escapedKnown,
    h.closed.2.2.2⟩
  rw [allIds_cons]
  exact List.mem_append_right _ hx

theorem execIn_wellFormed (h : Scopes.WellFormed ⟨f :: rest, escaped, count, p⟩) {op : Op ν}
    {answer : Answer} {s : Scopes ν ω}
    (hs : Scopes.execIn ⟨f :: rest, escaped, count, p⟩ f rest op = .ok (answer, s)) :
    s.WellFormed := by
  have hnested : Nested f := h.closed.2.2.1
  cases op with
  | parse op =>
      obtain ⟨-, rfl⟩ := Prod.mk.inj (Except.ok.inj hs)
      exact h.parsed _
  | declareVariable name =>
      obtain ⟨⟨symbol, p', f'⟩, hdeclare, hs⟩ := bind_eq_ok.mp hs
      obtain ⟨-, rfl⟩ := Prod.mk.inj (Except.ok.inj hs)
      exact (declareVariable_extends h.closed h.undeclared hdeclare).wellFormed h
  | addLocal name =>
      obtain ⟨g, hadd, hs⟩ := bind_eq_ok.mp hs
      obtain ⟨-, rfl⟩ := Prod.mk.inj (Except.ok.inj hs)
      obtain rfl := addLocal_ok hadd
      exact (Extends.declare h.closed h.undeclared name).wellFormed h
  | pushScope =>
      obtain ⟨-, rfl⟩ := Prod.mk.inj (Except.ok.inj hs)
      exact h.replace (List.Sublist.refl _) rfl hnested.pushScope
  | popScope =>
      have hs' : (if -1 < f.scopeDepth then _ else _) = _ := hs
      by_cases hdepth : -1 < f.scopeDepth
      · rw [if_pos hdepth] at hs'
        obtain ⟨-, rfl⟩ := Prod.mk.inj (Except.ok.inj hs')
        exact h.replace (List.filter_sublist.map _) rfl hnested.leave
      · rw [if_neg hdepth] at hs'
        cases hs'
  | discardLocals depth =>
      have hs' : (if -1 < f.scopeDepth then _ else _) = _ := hs
      by_cases hdepth : -1 < f.scopeDepth
      · rw [if_pos hdepth] at hs'
        obtain ⟨-, rfl⟩ := Prod.mk.inj (Except.ok.inj hs')
        exact h
      · rw [if_neg hdepth] at hs'
        cases hs'
  | resolve name =>
      obtain ⟨⟨v, s₁⟩, hresolve, hs⟩ := bind_eq_ok.mp hs
      obtain ⟨-, rfl⟩ := Prod.mk.inj (Except.ok.inj hs)
      exact resolve_wellFormed h hresolve
  | name name line => exact name_wellFormed h hs
  | staticField name => exact staticField_wellFormed h hs
  | initCompiler isMethod =>
      obtain ⟨-, rfl⟩ := Prod.mk.inj (Except.ok.inj hs)
      exact wellFormed_init h false isMethod
  | endCompiler =>
      obtain ⟨-, rfl⟩ := Prod.mk.inj (Except.ok.inj hs)
      exact h.endCompiler
  | setClass inClass =>
      obtain ⟨-, rfl⟩ := Prod.mk.inj (Except.ok.inj hs)
      exact h.replace (List.Sublist.refl _) rfl ⟨hnested.sorted, hnested.depth_le⟩

end Operations

section Runs

variable {s s' : Scopes ν ω}

theorem exec_eq (h : s.WellFormed) (op : Op ν) :
    s.image.exec op = (s.exec op).map fun r => (r.1, r.2.image) := by
  obtain ⟨functions, escaped, count, p⟩ := s
  cases functions with
  | cons f rest => exact execIn_eq h op
  | nil =>
      cases op with
      | name name line => exact name_eq h name line
      | staticField name => exact staticField_eq h name
      | initCompiler isMethod =>
          show Except.ok (Answer.done, Compilation.mk [Compiler.init true isMethod] p)
            = Except.ok (Answer.done,
              Compilation.mk [(Function.init count true isMethod).image escaped []] p)
          rw [image_init h.fresh]
      | _ => rfl

theorem exec_wellFormed (h : s.WellFormed) {op : Op ν} {answer : Answer}
    (hs : s.exec op = .ok (answer, s')) : s'.WellFormed := by
  obtain ⟨functions, escaped, count, p⟩ := s
  cases functions with
  | cons f rest => exact execIn_wellFormed h hs
  | nil =>
      cases op with
      | parse op =>
          obtain ⟨-, rfl⟩ := Prod.mk.inj (Except.ok.inj hs)
          exact h.parsed _
      | resolve name =>
          obtain ⟨-, rfl⟩ := Prod.mk.inj (Except.ok.inj hs)
          exact h
      | name name line => exact name_wellFormed h hs
      | staticField name => exact staticField_wellFormed h hs
      | initCompiler isMethod =>
          obtain ⟨-, rfl⟩ := Prod.mk.inj (Except.ok.inj hs)
          exact wellFormed_init h true isMethod
      | _ => cases hs

/-! ### Runs -/

theorem wellFormed_start (module : ObjModule ν ω) : (Scopes.start module).WellFormed :=
  ⟨List.nodup_nil, fun _ hid => absurd hid List.not_mem_nil,
    fun _ hid => absurd hid List.not_mem_nil, trivial⟩

theorem runs_eq (h : s.WellFormed) (ops : List (Op ν)) :
    s.image.run ops = (s.run ops).map fun r => (r.1, r.2.image) := by
  induction ops generalizing s with
  | nil => rfl
  | cons op ops ih =>
      show (s.image.exec op >>= _) = Except.map _ (s.exec op >>= _)
      rw [exec_eq h]
      refine map_bind fun r hexec => ?_
      obtain ⟨answer, s'⟩ := r
      show (s'.image.run ops >>= _) = Except.map _ (s'.run ops >>= _)
      rw [ih (exec_wellFormed h hexec)]
      exact map_bind fun _ _ => rfl

theorem run_wellFormed (h : s.WellFormed) {ops : List (Op ν)} {answers : List Answer}
    (hs : s.run ops = .ok (answers, s')) : s'.WellFormed := by
  induction ops generalizing s answers with
  | nil =>
      obtain ⟨-, rfl⟩ := Prod.mk.inj (Except.ok.inj hs)
      exact h
  | cons op ops ih =>
      obtain ⟨⟨answer, s₁⟩, hexec, hs⟩ := bind_eq_ok.mp hs
      obtain ⟨⟨answers', s₂⟩, hrun, hs⟩ := bind_eq_ok.mp hs
      obtain ⟨-, rfl⟩ := Prod.mk.inj (Except.ok.inj hs)
      exact ih (exec_wellFormed h hexec) hrun

end Runs

/-- **The compilers do** what lexical scoping says, over every sequence of scopes, declarations,
functions, uses of names and errors, in any module. -/
theorem run_scopes_eq (module : ObjModule ν ω) (ops : List (Op ν)) :
    (Compilation.start module).run ops
      = ((Scopes.start module).run ops).map fun r => (r.1, r.2.image) :=
  runs_eq (wellFormed_start module) ops

/-! ### What the positions mean -/

/-- The variable at a position of the innermost function. -/
def Scopes.denotes (s : Scopes ν ω) (v : Variable) : Option Nat :=
  s.functions.head?.bind fun f =>
    match v with
    | .local_ i => f.ids[i]?
    | .upvalue i => f.captured[i]?
    | .module_ _ => none

/-- The variable that a closure captures out of the function around it. -/
def decode (parents : List Function) (upvalue : CompilerUpvalue) : Option Nat :=
  parents.head?.bind fun p =>
    if upvalue.isLocal then p.ids[upvalue.index]? else p.captured[upvalue.index]?

/-- The closures of all functions capture the variables that the functions refer to, each once. -/
def Faithful : List Function → Prop
  | [] => True
  | f :: rest => f.captured.Nodup ∧ f.captured.length ≤ MAX_UPVALUES ∧
      (∀ id ∈ f.captured, decode rest (describe rest id) = some id) ∧ Faithful rest

theorem getElem?_idxOf {l : List Nat} {a : Nat} (h : a ∈ l) : l[l.idxOf a]? = some a := by
  have hlt := List.idxOf_lt_length_of_mem h
  rw [List.getElem?_eq_getElem hlt, List.getElem_idxOf hlt]

theorem decode_describe {parents : List Function} {id : Nat} (h : Knows parents id) :
    decode parents (describe parents id) = some id := by
  obtain ⟨p, rest, rfl, hid⟩ := h
  rw [describe_cons]
  by_cases hmem : id ∈ p.ids
  · rw [if_pos hmem]
    exact getElem?_idxOf hmem
  · rw [if_neg hmem]
    exact getElem?_idxOf (hid.resolve_left hmem)

theorem Closed.faithful {functions : List Function} (h : Closed functions) :
    Faithful functions := by
  induction functions with
  | nil => trivial
  | cons f rest ih =>
      obtain ⟨⟨hnodup, hlength⟩, hknows, -, hrest⟩ := h
      exact ⟨hnodup, hlength, fun id hid => decode_describe (hknows id hid), ih hrest⟩

/-- The innermost function has the variable at its position. -/
theorem denotes_position {s : Scopes ν ω} {f : Function} {rest : List Function} {id : Nat}
    (hs : s.functions = f :: rest) (h : id ∈ f.ids ∨ id ∈ f.captured) :
    s.denotes (position f id) = some id := by
  unfold Scopes.denotes position
  rw [hs, List.head?_cons, Option.bind_some]
  by_cases hmem : id ∈ f.ids
  · rw [if_pos hmem]
    exact getElem?_idxOf hmem
  · rw [if_neg hmem]
    exact getElem?_idxOf (h.resolve_left hmem)

theorem resolve_denotes {s s' : Scopes ν ω} (h : s.WellFormed) {name : Text}
    {v : Option Variable} (hs : s.resolve name = .ok (v, s')) :
    v.bind s'.denotes = lookup name s.functions ∧
      (v = none ↔ lookup name s.functions = none) ∧
      ∀ i, v = some (.upvalue i) → ∃ id ∈ s'.escaped, lookup name s.functions = some id := by
  rcases resolve_cases h hs with ⟨rfl, rfl, hlookup⟩ | ⟨f, rest, id, hfunctions, hlookup, hid, rfl, rfl⟩ |
    ⟨f, rest, f', rest', id, -, hlookup, -, hcaptured, rfl, rfl⟩
  · rw [hlookup]
    exact ⟨rfl, iff_of_true rfl rfl, fun i hi => by cases hi⟩
  · rw [hlookup]
    refine ⟨denotes_position hfunctions (Or.inl hid),
      iff_of_false (Option.some_ne_none _) (Option.some_ne_none _), fun i hi => ?_⟩
    unfold position at hi
    rw [if_pos hid] at hi
    cases hi
  · have hdenotes : Scopes.denotes { s with functions := f' :: rest', escaped := id :: s.escaped }
        (position f' id) = some id := denotes_position rfl hcaptured.has
    rw [hlookup]
    exact ⟨hdenotes,
      iff_of_false (Option.some_ne_none _) (Option.some_ne_none _),
      fun i hi => ⟨id, List.mem_cons_self, rfl⟩⟩

/-- **A name is resolved** to the place of the variable it means, in every state of the compilers
that is reached, also after errors; a variable of another function is marked to be closed, and all
closures on the way capture it. -/
theorem resolve_reached {module : ObjModule ν ω} {ops : List (Op ν)} {answers : List Answer}
    {c c' : Compilation ν ω} {name : Text} {v : Option Variable}
    (h : (Compilation.start module).run ops = .ok (answers, c))
    (hr : c.exec (.resolve name) = .ok (.variable v, c')) :
    ∃ s s' : Scopes ν ω, (Scopes.start module).run ops = .ok (answers, s) ∧ c = s.image ∧
      c' = s'.image ∧ v.bind s'.denotes = lookup name s.functions ∧
      (v = none ↔ lookup name s.functions = none) ∧
      (∀ i, v = some (.upvalue i) → ∃ id ∈ s'.escaped, lookup name s.functions = some id) ∧
      Faithful s'.functions := by
  rw [run_scopes_eq] at h
  cases hrun : (Scopes.start module).run ops with
  | error e =>
      rw [hrun] at h
      cases h
  | ok r =>
      obtain ⟨answers', s⟩ := r
      rw [hrun] at h
      obtain ⟨rfl, rfl⟩ := Prod.mk.inj (Except.ok.inj h)
      have hwf := run_wellFormed (wellFormed_start module) hrun
      obtain ⟨⟨v', c₁⟩, hresolve, hr⟩ := bind_eq_ok.mp hr
      obtain ⟨hv, rfl⟩ := Prod.mk.inj (Except.ok.inj hr)
      obtain rfl := Answer.variable.inj hv
      rw [resolve_eq hwf] at hresolve
      cases hexec : s.resolve name with
      | error e =>
          rw [hexec] at hresolve
          cases hresolve
      | ok r =>
          obtain ⟨v, s'⟩ := r
          rw [hexec] at hresolve
          obtain ⟨rfl, rfl⟩ := Prod.mk.inj (Except.ok.inj hresolve)
          obtain ⟨hdenotes, hnone, hescaped⟩ := resolve_denotes hwf hexec
          exact ⟨s, s', rfl, rfl, rfl, hdenotes, hnone, hescaped,
            (resolve_wellFormed hwf hexec).closed.faithful⟩

/-- Two functions deep, `a` is a local of the outermost function and `b` of the one between. -/
def nestedFunctions : List (Op Nat) :=
  [.initCompiler false, .initCompiler false, .declareVariable "a", .pushScope,
    .initCompiler false, .declareVariable "b", .initCompiler false, .resolve "b"]

theorem resolve_reached_nested : ∃ answers c c',
    (Compilation.start (ModuleVM.wrenNewModule : ObjModule Nat Nat)).run nestedFunctions
      = .ok (answers, c) ∧
    c.exec (.resolve "a") = .ok (.variable (some (.upvalue 1)), c') ∧
    ∃ s s' : Scopes Nat Nat, (Scopes.start ModuleVM.wrenNewModule).run nestedFunctions
        = .ok (answers, s) ∧ c = s.image ∧
      c' = s'.image ∧ (some (Variable.upvalue 1)).bind s'.denotes = lookup "a" s.functions ∧
      (some (Variable.upvalue 1) = none ↔ lookup "a" s.functions = none) ∧
      (∀ i, some (Variable.upvalue 1) = some (.upvalue i) →
        ∃ id ∈ s'.escaped, lookup "a" s.functions = some id) ∧ Faithful s'.functions :=
  ⟨_, _, _, rfl, rfl, resolve_reached rfl rfl⟩

end Scoping

end Wrenegade
