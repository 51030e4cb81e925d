/-
What registration leaves in the tables.

The tables are many, but the ones that decide which signature is bound to which
function are three: the two declaration lists and the signature map.  Together
they are a `Registry`, filled by the entries a class contributes member by member:
a method is declared unless it is declared already, the two accessors of a
variable and every inherited member are declared in any case, and the constructor
only reserves its name.  `Represents` says that tables and registry agree, and
every turn of the two loops keeps them so.
-/
import Wrenegade.Lib.Registry
import Wrenegade.Proofs.Names

namespace Wrenegade

open Text Registry

/-! ### The cases of `registerFun` -/

/-- A static method that is neither the constructor, nor `main`, nor `getInstance`. -/
def isExportedStatic (access : List Access) (name : Text) : Bool :=
  isStaticAccess access && !isNew name && trim name ≠ ("main" : Text) &&
    trim name ≠ ("getInstance" : Text)

/-- The static method `getInstance`, of which only the module is noted. -/
def isGetInstance (access : List Access) (name : Text) : Bool :=
  isStaticAccess access && trim name = ("getInstance" : Text)

section Fun

variable (cfg : Config) (C : ClassDecl) {access : List Access} {name : Text} (n : Nat) (t : Tables)

/-- No list of modifiers is both. -/
theorem isStaticAccess_of_instance (h : isInstanceAccess access = true) :
    isStaticAccess access = false := by
  unfold isInstanceAccess at h
  split at h <;> first | rfl | cases h

theorem registerFun_new (hi : isInstanceAccess access = true) (hn : isNew name = true) :
    registerFun cfg C access name n t =
      t.setConstructor C (funcName cfg C name) (params n) (cCall cfg C [] ("__" ++ name) n)
        (methodSignature (className C) name n) := by
  simp [registerFun, hi, hn, staticMark, isStaticAccess_of_instance hi]

theorem registerFun_instance (hi : isInstanceAccess access = true) (hn : isNew name = false) :
    registerFun cfg C access name n t =
      (t.setMethod (funcName cfg C name) (params n) (cCall cfg C "getInstance()->" name n)
        (methodSignature (className C) name n)).pushNewFunc C
          (foreignFunc (funcName cfg C name)) := by
  simp [registerFun, hi, hn, staticMark, isStaticAccess_of_instance hi]

theorem registerFun_static (hi : isInstanceAccess access = false)
    (hs : isExportedStatic access name = true) :
    registerFun cfg C access name n t =
      { t.setMethod (funcName cfg C name) (params n) (cCall cfg C [] name n)
          ("static " ++ methodSignature (className C) name n) with
        bindCModules := t.bindCModules.insert (funcName cfg C name) C.moduleName }.pushNewFunc C
          (foreignFunc (funcName cfg C name)) := by
  simp only [isExportedStatic, Bool.and_eq_true, Bool.not_eq_true', decide_eq_true_eq] at hs
  obtain ⟨⟨⟨hs, hn⟩, hmain⟩, hget⟩ := hs
  unfold registerFun
  rw [if_neg (by rw [hi]; exact Bool.noConfusion), if_pos hs, if_neg, if_pos hget]
  · simp only [hi, hn, hs, staticMark, if_true, Bool.false_and, Bool.false_eq_true, if_false]
    rfl
  · intro h
    simp only [hn, Bool.false_or, decide_eq_true_eq] at h
    exact hmain h

/-- Anything else declares nothing and writes no signature. -/
theorem registerFun_other (hi : isInstanceAccess access = false)
    (hs : isExportedStatic access name = false) :
    registerFun cfg C access name n t =
      if isGetInstance access name then
        { t with
          bindCClassArgsMap := t.bindCClassArgsMap.insert (funcName cfg C name) (params n)
          bindCModules := t.bindCModules.insert (funcName cfg C name) C.moduleName }
      else t := by
  have hi' : ¬ isInstanceAccess access = true := by rw [hi]; exact Bool.noConfusion
  unfold registerFun
  rw [if_neg hi']
  by_cases hst : isStaticAccess access = true
  · rw [if_pos hst]
    by_cases hget : trim name = ("getInstance" : Text)
    · have hskip : ¬ (isNew name || decide (trim name = ("main" : Text))) = true := by
        rw [isNew, hget]
        decide
      have hboth : isGetInstance access name = true := by
        rw [isGetInstance, hst, hget]
        decide
      rw [if_neg hskip, if_neg (fun h => h hget), if_pos hboth]
    · have hnot : ¬ isGetInstance access name = true := by
        rw [isGetInstance, decide_eq_false hget, Bool.and_false]
        exact Bool.noConfusion
      rw [if_neg hnot]
      refine if_pos ?_
      rw [isExportedStatic, hst, decide_eq_true hget, Bool.true_and, Bool.and_true] at hs
      cases hn : isNew name with
      | true => rfl
      | false =>
          rw [hn, Bool.not_false, Bool.true_and, decide_eq_false_iff_not, not_not] at hs
          rw [Bool.false_or, decide_eq_true hs]
  · have hnot : ¬ isGetInstance access name = true := fun h =>
      hst (Bool.and_eq_true_iff.mp h).1
    rw [if_neg hst, if_neg hnot]

end Fun

/-! ### Entries -/

/-- An entry; its key is the lower-cased name of a member, with a mark for an accessor. -/
abbrev SigEntry := Entry Text Text

def methodEntry (mode : Mode) (name signature : Text) : SigEntry :=
  { key := toLower name, sig := signature, mode }

def variableEntries (C : ClassDecl) (name : Text) : List SigEntry :=
  [{ key := toLower name ++ "_set", sig := setterSignature C.name.text name, mode := .always },
   { key := toLower name ++ "_get", sig := getterSignature C.name.text name, mode := .always }]

/-- What an own field contributes. -/
def ownEntries (C : ClassDecl) (f : Field) : List SigEntry :=
  match f.kind with
  | .fFun n =>
      if isInstanceAccess f.access then
        [methodEntry (if isNew f.name.text then .reserve else .once) f.name.text
          (methodSignature C.name.text f.name.text n)]
      else if isExportedStatic f.access f.name.text then
        [methodEntry .once f.name.text
          ("static " ++ methodSignature C.name.text f.name.text n)]
      else []
  | .fVar =>
      if f.name.text ≠ ("instance" : Text) ∧ f.access = [.aPublic] then
        variableEntries C f.name.text
      else []
  | .fProp => []

/-- What an inherited field contributes. -/
def inheritedEntries (C : ClassDecl) (f : ClassField) : List SigEntry :=
  if f.isPublic then
    match f.kind with
    | .fMethod n => [methodEntry .always f.name.text (methodSignature C.name.text f.name.text n)]
    | .fVar => variableEntries C f.name.text
  else []

/-- The fields a class inherits from the bound class it extends. -/
def LocalClass.inheritedFields (C : LocalClass) : List ClassField :=
  match C.supers with
  | [] => []
  | S :: ancestors => S.typedFields ancestors

/-- All entries of a class, in the order of registration. -/
def LocalClass.entries (C : LocalClass) : List SigEntry :=
  C.fields.flatMap (ownEntries C.toClassDecl) ++
    C.inheritedFields.flatMap (inheritedEntries C.toClassDecl)

/-! ### Tables and registry -/

/-- The tables hold what the registry holds, every key behind the common beginning of the
C names of the class. -/
structure Represents (cfg : Config) (C : ClassDecl) (t : Tables) (s : State Text Text) : Prop where
  funcs : t.foreignFuncsDec = s.decls.map fun k => foreignFunc (funcBase cfg C ++ k)
  constructors :
    t.foreignConstructorDec = s.reserved.map fun k => foreignFunc (funcBase cfg C ++ k)
  signatures : ∀ k, t.bindSignatureMap.lookup (funcBase cfg C ++ k) = s.sigs k

section Step

variable {cfg : Config} {C : ClassDecl} {t : Tables} {s : State Text Text}

theorem represents_empty : Represents cfg C Tables.empty State.empty :=
  ⟨rfl, rfl, fun k => by simp [Tables.empty, State.empty]⟩

variable (cfg C) in
private theorem dec_mem_iff {ks : List Text} {k : Text} :
    foreignFunc (funcBase cfg C ++ k) ∈ (ks.map fun k => foreignFunc (funcBase cfg C ++ k)) ↔
      k ∈ ks := by
  rw [List.mem_map]
  refine ⟨?_, fun h => ⟨k, h, rfl⟩⟩
  rintro ⟨k', hk', h⟩
  rwa [List.append_cancel_left (foreignFunc_injective h)] at hk'

/-- A signature entered under a member's own key. -/
private theorem lookup_insert_update {m : TextMap Text} {sigs : Text → Option Text}
    (h : ∀ k, m.lookup (funcBase cfg C ++ k) = sigs k) (key sig k : Text) :
    (m.insert (funcBase cfg C ++ key) sig).lookup (funcBase cfg C ++ k)
      = Function.update sigs key (some sig) k := by
  by_cases hk : k = key
  · subst hk
    rw [AList.lookup_insert, Function.update_self]
  · rw [AList.lookup_insert_ne (fun h => hk (List.append_cancel_left h)), h,
      Function.update_of_ne hk]

theorem Represents.pushNewFunc_setMethod (h : Represents cfg C t s) (name : Text)
    (params : List Text) (cFuncName sig : Text) :
    Represents cfg C
      ((t.setMethod (funcName cfg C name) params cFuncName sig).pushNewFunc C
        (foreignFunc (funcName cfg C name)))
      (s.add (methodEntry .once name sig)) := by
  rw [funcName_eq]
  have hsig := lookup_insert_update h.signatures (toLower name) sig
  rw [Tables.pushNewFunc]
  split
  · rename_i hmem
    have hmem : toLower name ∈ s.decls := by
      rw [← dec_mem_iff cfg C, ← h.funcs]
      exact hmem
    exact ⟨by simp [methodEntry, State.add, pushNew, hmem, ← h.funcs, Tables.setMethod],
      h.constructors, hsig⟩
  · rename_i hmem
    have hmem : toLower name ∉ s.decls := by
      rw [← dec_mem_iff cfg C, ← h.funcs]
      exact hmem
    refine ⟨?_, h.constructors, hsig⟩
    simp [methodEntry, State.add, pushNew, hmem, Tables.pushFunc, Tables.setMethod, h.funcs]

theorem Represents.pushFunc_setMethod (h : Represents cfg C t s) (name : Text)
    (params : List Text) (cFuncName sig : Text) :
    Represents cfg C
      ((t.setMethod (funcName cfg C name) params cFuncName sig).pushFunc C
        (foreignFunc (funcName cfg C name)))
      (s.add (methodEntry .always name sig)) := by
  rw [funcName_eq]
  refine ⟨?_, h.constructors, lookup_insert_update h.signatures (toLower name) sig⟩
  simp [methodEntry, State.add, Tables.pushFunc, Tables.setMethod, h.funcs]

theorem Represents.setVariable (h : Represents cfg C t s) (cFuncName name : Text) :
    Represents cfg C (t.setVariable C (funcName cfg C name) cFuncName name)
      ((variableEntries C name).foldl State.add s) := by
  rw [funcName_eq]
  refine ⟨?_, h.constructors, ?_⟩
  · simp [variableEntries, State.add, Tables.setVariable, Tables.pushFunc, h.funcs]
  · have hset := lookup_insert_update h.signatures (toLower name ++ "_set")
      (setterSignature C.name.text name)
    have hget := lookup_insert_update hset (toLower name ++ "_get")
      (getterSignature C.name.text name)
    intro k
    simpa only [Tables.setVariable, Tables.pushFunc, className_eq, List.append_assoc,
      variableEntries, List.foldl_cons, List.foldl_nil, State.add] using hget k

theorem Represents.setConstructor (h : Represents cfg C t s) (name : Text)
    (params : List Text) (cFuncName sig : Text) :
    Represents cfg C (t.setConstructor C (funcName cfg C name) params cFuncName sig)
      (s.add (methodEntry .reserve name sig)) := by
  rw [funcName_eq]
  have hsig := lookup_insert_update h.signatures (toLower name) sig
  simp only [Tables.setConstructor]
  split
  · rename_i hmem
    have hmem : toLower name ∈ s.reserved := by
      rw [← dec_mem_iff cfg C, ← h.constructors]
      exact hmem
    exact ⟨h.funcs, by simp [methodEntry, State.add, pushNew, hmem, ← h.constructors], hsig⟩
  · rename_i hmem
    have hmem : toLower name ∉ s.reserved := by
      rw [← dec_mem_iff cfg C, ← h.constructors]
      exact hmem
    exact ⟨h.funcs, by simp [methodEntry, State.add, pushNew, hmem, h.constructors], hsig⟩

/-- One turn of the loop over the own fields. -/
theorem Represents.registerField (h : Represents cfg C t s) (f : Field) :
    Represents cfg C (registerField cfg C t f) ((ownEntries C f).foldl State.add s) := by
  rw [Wrenegade.registerField, ownEntries]
  cases f.kind with
  | fProp => exact h
  | fVar =>
      simp only [registerVar]
      by_cases hinst : f.name.text = ("instance" : Text)
      · rw [if_pos hinst, if_neg (fun hc => hc.1 hinst)]
        exact h
      · rw [if_neg hinst]
        by_cases hpub : f.access = [.aPublic]
        · have hexp : f.name.text ≠ ("instance" : Text) ∧ f.access = [.aPublic] := ⟨hinst, hpub⟩
          rw [if_pos hpub, if_pos hexp]
          exact h.setVariable _ _
        · rw [if_neg hpub, if_neg (fun hc => hpub hc.2)]
          exact h
  | fFun n =>
      simp only
      cases hi : isInstanceAccess f.access with
      | true =>
          cases hn : isNew f.name.text with
          | true =>
              rw [registerFun_new cfg C n t hi hn, className_eq]
              exact h.setConstructor _ _ _ _
          | false =>
              rw [registerFun_instance cfg C n t hi hn, className_eq]
              exact h.pushNewFunc_setMethod _ _ _ _
      | false =>
          cases hs : isExportedStatic f.access f.name.text with
          | true =>
              rw [registerFun_static cfg C n t hi hs, className_eq]
              have hmod : ∀ m, Represents cfg C { t with bindCModules := m } s := fun m =>
                ⟨h.funcs, h.constructors, h.signatures⟩
              exact (hmod (t.bindCModules.insert (funcName cfg C f.name.text)
                C.moduleName)).pushNewFunc_setMethod f.name.text (params n) _ _
          | false =>
              rw [registerFun_other cfg C n t hi hs]
              split
              · exact ⟨h.funcs, h.constructors, h.signatures⟩
              · exact h

/-- One turn of the loop over the inherited fields. -/
theorem Represents.registerInheritedField {r : Inherited} (h : Represents cfg C r.tables s)
    (superClassName : Text) (f : ClassField) :
    Represents cfg C (registerInheritedField cfg C superClassName r f).tables
      ((inheritedEntries C f).foldl State.add s) := by
  rw [Wrenegade.registerInheritedField, inheritedEntries]
  split
  · cases f.kind with
    | fMethod n =>
        simp only [className_eq]
        exact h.pushFunc_setMethod _ _ _ _
    | fVar => exact h.setVariable _ _
  · exact h

end Step

/-! ### All members -/

/-- The tables of a class when content generation starts, over what was there before. -/
def registration (cfg : Config) (C : LocalClass) (t : Tables) : Tables :=
  match C.supers with
  | [] => registerFields cfg C.toClassDecl t
  | S :: ancestors =>
      (registerInherited cfg C.toClassDecl S ancestors
        (registerFields cfg C.toClassDecl t)).tables

/-- A property of the tables, and of what the fields so far contribute, kept by every turn of
the two registration loops. -/
theorem registration_induction {cfg : Config} {C : LocalClass} {α : Type} {f : Field → List α}
    {g : ClassField → List α} {P : List α → Tables → Prop}
    (own : ∀ xs t, ∀ x ∈ C.fields, P xs t →
      P (xs ++ f x) (registerField cfg C.toClassDecl t x))
    (inherited : ∀ xs name s, ∀ x ∈ C.inheritedFields, P xs s.tables →
      P (xs ++ g x) (registerInheritedField cfg C.toClassDecl name s x).tables)
    {t : Tables} (start : P [] t) :
    P (C.fields.flatMap f ++ C.inheritedFields.flatMap g) (registration cfg C t) := by
  have hown : ∀ fs, fs <:+ C.fields → ∀ xs t, P xs t →
      P (xs ++ fs.flatMap f) (fs.foldl (registerField cfg C.toClassDecl) t) := by
    intro fs
    induction fs with
    | nil => intro _ xs t h; simpa using h
    | cons x fs ih =>
        intro hfs xs t h
        rw [List.flatMap_cons, ← List.append_assoc, List.foldl_cons]
        exact ih ((List.suffix_cons x fs).trans hfs) _ _
          (own xs t x (hfs.subset (by simp)) h)
  have hinherited : ∀ name fs, fs <:+ C.inheritedFields → ∀ xs s, P xs s.tables →
      P (xs ++ fs.flatMap g)
        (fs.foldl (registerInheritedField cfg C.toClassDecl name) s).tables := by
    intro name fs
    induction fs with
    | nil => intro _ xs s h; simpa using h
    | cons x fs ih =>
        intro hfs xs s h
        rw [List.flatMap_cons, ← List.append_assoc, List.foldl_cons]
        exact ih ((List.suffix_cons x fs).trans hfs) _ _
          (inherited xs name s x (hfs.subset (by simp)) h)
  have h := hown C.fields (List.suffix_refl _) [] t start
  rw [registration]
  cases hs : C.supers with
  | nil => simpa [LocalClass.inheritedFields, hs, registerFields] using h
  | cons S ancestors =>
      have hfields : C.inheritedFields = S.typedFields ancestors := by
        simp [LocalClass.inheritedFields, hs]
      rw [List.nil_append] at h
      rw [hfields] at hinherited ⊢
      exact hinherited S.name.text _ (List.suffix_refl _) _
        { tables := registerFields cfg C.toClassDecl t, signatures := [], constructorParamSize := 0 } h

/-- **The tables of a class are the registry of its entries.** -/
theorem registration_represents (cfg : Config) (C : LocalClass) :
    Represents cfg C.toClassDecl (registration cfg C Tables.empty) (run C.entries) := by
  refine registration_induction (P := fun es t => Represents cfg C.toClassDecl t (run es))
    ?_ ?_ represents_empty
  · intro es t f _ h
    rw [run, List.foldl_append]
    exact h.registerField f
  · intro es name s f _ h
    rw [run, List.foldl_append]
    exact h.registerInheritedField name f

end Wrenegade
