/-
The constructor: its tables, its allocator, and the module it notes.

A class has one constructor at most, being the one field called `new`, so unlike the
tables of the members those of the constructor need no care about keys entered
twice.  What content generation makes of them is said in closed form: one allocator
for the constructor, one line in `bindClass`, and the number of arguments for the
extern block.

The constructor also notes the module of the class.  Static methods do as well, and
nothing else does.
-/
import Wrenegade.Proofs.Members

namespace Wrenegade

open Text Registry Run

/-! ### The constructor -/

/-- The number of arguments of a constructor, in a list that has one entry if the field is
bound as one. -/
def Field.constructors (f : Field) : List Nat :=
  match f.kind with
  | .fFun n => if isInstanceAccess f.access ∧ f.name.text = "new" then [n] else []
  | _ => []

def ClassDecl.constructors (C : ClassDecl) : List Nat := C.fields.flatMap Field.constructors

/-- The C function of the constructor. -/
def constructorName (cfg : Config) (C : ClassDecl) : Text := funcBase cfg C ++ "new"

theorem mem_constructors {f : Field} {n : Nat} :
    n ∈ f.constructors ↔
      f.kind = .fFun n ∧ isInstanceAccess f.access = true ∧ f.name.text = "new" := by
  unfold Field.constructors
  split
  · rename_i m hm
    rw [hm]
    split
    · rename_i h
      simp [h, eq_comm]
    · rename_i h
      simp only [List.not_mem_nil, false_iff, not_and]
      exact fun _ hi hn => h ⟨hi, hn⟩
  · rename_i hk
    simp only [List.not_mem_nil, false_iff, not_and]
    exact fun h => absurd h (hk n)

/-- A class has one constructor at most. -/
theorem constructors_cases (C : ClassDecl) : C.constructors = [] ∨ ∃ n, C.constructors = [n] := by
  have hfields : ∀ fs : List Field, (fs.map fun f => f.name.text).Nodup →
      fs.flatMap Field.constructors = [] ∨ ∃ n, fs.flatMap Field.constructors = [n] := by
    intro fs
    induction fs with
    | nil => intro _; exact Or.inl rfl
    | cons f fs ih =>
        intro hnodup
        rw [List.map_cons, List.nodup_cons] at hnodup
        rw [List.flatMap_cons]
        rcases hf : f.constructors with _ | ⟨n, ns⟩
        · exact ih hnodup.2
        · have hn := mem_constructors.mp (hf ▸ List.mem_cons_self : n ∈ f.constructors)
          -- the name is taken, so no later field is one
          have hrest : fs.flatMap Field.constructors = [] := by
            rw [List.flatMap_eq_nil_iff]
            intro g hg
            rw [List.eq_nil_iff_forall_not_mem]
            intro m hm
            refine hnodup.1 (List.mem_map.mpr ⟨g, hg, ?_⟩)
            rw [(mem_constructors.mp hm).2.2, hn.2.2]
          have hone : f.constructors = [n] := by
            rw [Field.constructors, hn.1]
            exact if_pos hn.2
          rw [← hf, hone, hrest]
          exact Or.inr ⟨n, rfl⟩
  exact hfields C.fields C.nodup

/-- What the tables of the constructor hold: one declaration, and the entries of the last
constructor registered. -/
structure Constructs (cfg : Config) (C : ClassDecl) (t : Tables) (ns : List Nat) : Prop where
  declared : t.foreignConstructorDec =
    if ns = [] then [] else [foreignFunc (constructorName cfg C)]
  entries : ∀ n, ns.getLast? = some n →
    t.bindCClassArgsMap.lookup (constructorName cfg C) = some (params n) ∧
    t.bindCModules.lookup (constructorName cfg C) = some C.moduleName ∧
    t.bindClassSignatureMap.lookup (constructorName cfg C) = some C.name.text

/-- The class name is what stands in front of `.new(`. -/
theorem className_of_newSignature (c : Ident) (n : Nat) :
    replace ((split (methodSignature c.text "new" n) "(").headD []) ".new" [] = c.text := by
  have hparen : '(' ∉ c.text ++ ".new" := by
    rw [List.mem_append, not_or]
    exact ⟨c.not_mem (by decide), by decide⟩
  have hsig : methodSignature c.text "new" n
      = (c.text ++ ".new") ++ '(' :: (argLoop (fun _ => "_") "," n ++ ")") := by
    simp [methodSignature]
  have hhead : split (methodSignature c.text "new" n) "("
      = (c.text ++ ".new") :: split (argLoop (fun _ => "_") "," n ++ ")") "(" := by
    rw [hsig]
    exact split_append_cons hparen _
  have hnew : replace (".new" : Text) ".new" [] = [] := by
    have h := @replace_append_self ".new" (by simp) [] []
    rw [List.append_nil, replace_nil (by simp)] at h
    exact h
  have hskip : replace (c.text ++ ".new") ".new" [] = c.text ++ replace (".new" : Text) ".new" [] := by
    rw [show (".new" : Text) = '.' :: "new" by decide]
    exact replace_skip (c.not_mem (by decide)) _ _ _
  rw [hhead, List.headD_cons, hskip, hnew, List.append_nil]

section Constructor

variable {cfg : Config} {C : ClassDecl} {t t' : Tables} {ns : List Nat}

variable (cfg C) in
theorem funcName_new : funcName cfg C "new" = constructorName cfg C := by
  rw [funcName_eq, constructorName]
  exact congrArg (funcBase cfg C ++ ·) (by decide)

/-- A field that is no constructor leaves the entries of the constructor as they are. -/
theorem Constructs.keep (h : Constructs cfg C t ns)
    (hdec : t'.foreignConstructorDec = t.foreignConstructorDec)
    (hargs : t'.bindCClassArgsMap.lookup (constructorName cfg C)
      = t.bindCClassArgsMap.lookup (constructorName cfg C))
    (hmodules : t.bindCModules.lookup (constructorName cfg C) = some C.moduleName →
      t'.bindCModules.lookup (constructorName cfg C) = some C.moduleName)
    (hsigs : t'.bindClassSignatureMap = t.bindClassSignatureMap) :
    Constructs cfg C t' (ns ++ []) := by
  rw [List.append_nil]
  refine ⟨hdec.trans h.declared, fun n hn => ?_⟩
  obtain ⟨ha, hm, hs⟩ := h.entries n hn
  exact ⟨hargs.trans ha, hmodules hm, by rw [hsigs, hs]⟩

theorem Constructs.setConstructor (h : Constructs cfg C t ns) (n : Nat) :
    Constructs cfg C (t.setConstructor C (funcName cfg C "new") (params n)
      (cCall cfg C [] ("__" ++ "new") n) (methodSignature C.name.text "new" n)) (ns ++ [n]) := by
  rw [funcName_new]
  have hne : ns ++ [n] ≠ [] := by simp
  have hlast : ∀ m, (ns ++ [n]).getLast? = some m → n = m := by
    intro m hm
    rwa [List.getLast?_concat, Option.some.injEq] at hm
  have hdecl : (foreignFunc (constructorName cfg C) ∈ t.foreignConstructorDec) ↔ ns ≠ [] := by
    rw [h.declared]
    split <;> simp [*]
  simp only [Tables.setConstructor]
  refine ⟨?_, fun m hm => ?_⟩
  · rw [if_neg hne]
    split
    · rename_i hmem
      show t.foreignConstructorDec = _
      rw [h.declared, if_neg (hdecl.mp hmem)]
    · rename_i hmem
      show t.foreignConstructorDec ++ _ = _
      rw [h.declared, if_pos (not_not.mp fun hns => hmem (hdecl.mpr hns))]
      rfl
  · rw [← hlast m hm]
    have hsig := className_of_newSignature C.name.toIdent n
    split
    · exact ⟨AList.lookup_insert _, AList.lookup_insert _, by rw [hsig, AList.lookup_insert]⟩
    · exact ⟨AList.lookup_insert _, AList.lookup_insert _, by rw [hsig, AList.lookup_insert]⟩

/-- A module noted for a function is the module of the class, under any key. -/
private theorem lookup_module {m : TextMap Text} {k key : Text}
    (h : m.lookup key = some C.moduleName) :
    (m.insert k C.moduleName).lookup key = some C.moduleName := by
  rw [lookup_insert_eq]
  split
  · rfl
  · exact h

theorem Constructs.registerField (h : Constructs cfg C t ns) (f : Field) :
    Constructs cfg C (registerField cfg C t f) (ns ++ f.constructors) := by
  rw [Wrenegade.registerField, Field.constructors]
  cases f.kind with
  | fProp => exact h.keep rfl rfl id rfl
  | fVar =>
      simp only [registerVar]
      split
      · exact h.keep rfl rfl id rfl
      · split
        · exact h.keep rfl rfl id rfl
        · exact h.keep rfl rfl id rfl
  | fFun n =>
      simp only
      cases hi : isInstanceAccess f.access with
      | true =>
          cases hn : isNew f.name.text with
          | true =>
              have hname := (isNew_iff _).mp hn
              rw [registerFun_new cfg C n t hi hn, className_eq, hname, if_pos ⟨rfl, rfl⟩]
              exact h.setConstructor n
          | false =>
              have hname : f.name.text ≠ "new" := fun hname =>
                Bool.noConfusion (hn.symm.trans ((isNew_iff _).mpr hname))
              rw [registerFun_instance cfg C n t hi hn, if_neg (fun hc => hname hc.2)]
              refine h.keep ?_ ?_ ?_ ?_ <;> rw [Tables.pushNewFunc]
              · split <;> rfl
              · split <;> rfl
              · split <;> exact id
              · split <;> rfl
      | false =>
          have hno : ¬ (false = true ∧ f.name.text = "new") := fun hc => Bool.noConfusion hc.1
          rw [if_neg hno]
          cases hs : isExportedStatic f.access f.name.text with
          | true =>
              rw [registerFun_static cfg C n t hi hs]
              refine h.keep ?_ ?_ ?_ ?_
              · rw [Tables.pushNewFunc]
                split <;> rfl
              · rw [Tables.pushNewFunc]
                split <;> rfl
              · rw [bindCModules_pushNewFunc]
                exact lookup_module
              · rw [Tables.pushNewFunc]
                split <;> rfl
          | false =>
              rw [registerFun_other cfg C n t hi hs]
              split
              · rename_i hget
                have hname := of_decide_eq_true (Bool.and_eq_true_iff.mp hget).2
                have hne : constructorName cfg C ≠ funcName cfg C f.name.text := by
                  rw [f.name.trim_text] at hname
                  rw [← funcName_new, Ne, funcName_inj, hname]
                  decide
                exact h.keep rfl (AList.lookup_insert_ne hne) lookup_module rfl
              · exact h.keep rfl rfl id rfl

end Constructor

/-- **The tables of the constructor hold what the class declares.** -/
theorem registration_constructs (cfg : Config) (C : LocalClass) :
    Constructs cfg C.toClassDecl (registration cfg C Tables.empty) C.constructors := by
  have h := @registration_induction cfg C _ Field.constructors
    (fun _ => []) (fun ns t => Constructs cfg C.toClassDecl t ns) ?_ ?_ Tables.empty ?_
  · have hnil : C.inheritedFields.flatMap (fun _ => ([] : List Nat)) = [] :=
      List.flatMap_eq_nil_iff.mpr fun _ _ => rfl
    rwa [hnil, List.append_nil] at h
  · intro ns t f _ h
    exact h.registerField f
  · intro ns name s f _ h
    rw [registerInheritedField]
    split
    · cases f.kind <;> exact h.keep rfl rfl id rfl
    · exact h.keep rfl rfl id rfl
  · exact ⟨rfl, fun n hn => by simp at hn⟩

/-! ### The modules noted -/

/-- The field has its module noted: a constructor, or a static method. -/
def Field.notesModule (f : Field) : Bool :=
  match f.kind with
  | .fFun _ =>
      if isInstanceAccess f.access then isNew f.name.text
      else isExportedStatic f.access f.name.text || isGetInstance f.access f.name.text
  | _ => false

/-- **A module is noted if and only if some field notes it.** -/
theorem registration_noModules (cfg : Config) (C : LocalClass) :
    (registration cfg C Tables.empty).bindCModules.keys = [] ↔
      ∀ f ∈ C.fields, f.notesModule = false := by
  have h := @registration_induction cfg C _
    (fun f => if f.notesModule then [()] else [])
    (fun _ => []) (fun ns t => t.bindCModules.keys = [] ↔ ns = []) ?_ ?_ Tables.empty ?_
  · rw [h]
    simp
  · intro ns t f _ h
    rw [registerField, Field.notesModule]
    cases f.kind with
    | fProp => simpa using h
    | fVar =>
        have hvar : (registerVar cfg C.toClassDecl f.access f.name.text t).bindCModules
            = t.bindCModules := by
          rw [registerVar]
          split
          · rfl
          · split <;> rfl
        simp only [hvar]
        simpa using h
    | fFun n =>
        simp only
        cases hi : isInstanceAccess f.access with
        | true =>
            cases hn : isNew f.name.text with
            | true =>
                rw [registerFun_new _ _ n t hi hn, bindCModules_setConstructor]
                simp
            | false =>
                rw [registerFun_instance _ _ n t hi hn, bindCModules_pushNewFunc]
                simpa [Tables.setMethod] using h
        | false =>
            cases hs : isExportedStatic f.access f.name.text with
            | true =>
                rw [registerFun_static _ _ n t hi hs, bindCModules_pushNewFunc]
                simp
            | false =>
                rw [registerFun_other _ _ n t hi hs]
                cases hg : isGetInstance f.access f.name.text with
                | true => simp
                | false => simpa using h
  · intro ns name s f _ h
    have hkeep : (registerInheritedField cfg C.toClassDecl name s f).tables.bindCModules
        = s.tables.bindCModules := by
      rw [registerInheritedField]
      split
      · cases f.kind <;> rfl
      · rfl
    rw [hkeep, List.append_nil]
    exact h
  · simp [Tables.empty]

/-! ### The allocator -/

section Unit

variable {cfg : Config} {C : LocalClass}

/-- The allocator of a constructor with `n` arguments. -/
def allocator (cfg : Config) (C : ClassDecl) (n : Nat) : CFunction where
  dec := foreignFunc (constructorName cfg C)
  name := constructorName cfg C
  body := [.newForeign (replace C.moduleName "." "::")] ++
    ((params n).zipIdx.flatMap fun a => [Stmt.argument "value" (a.2 + 1), .dynamicArgument a.1]) ++
    [.object (replace C.moduleName "." "::"), .newData (params n),
      .copyData (replace C.moduleName "." "::")]

/-- What `bindClass` assigns to `methods->allocate`. -/
def allocateTarget (cfg : Config) (C : ClassDecl) : Text :=
  if ("static" : Text) <:+: C.name.text then "NULL" else constructorName cfg C

theorem funcSig_constructor (cfg : Config) (C : ClassDecl) :
    funcSig (foreignFunc (constructorName cfg C)) = constructorName cfg C := by
  refine funcSig_foreignFunc fun c hc => ?_
  rcases List.mem_append.mp hc with hc | hc
  · exact isIdentChar_of_mem_funcBase cfg C c hc
  · have hnew : ("new" : Text).all isIdentChar = true := by decide
    exact List.all_eq_true.mp hnew c hc

/-- A table is looked up under the name read back from the declaration. -/
theorem lookup_constructor {β : Type} (m : TextMap β) :
    m.lookup (funcSig (foreignFunc (constructorName cfg C.toClassDecl)))
      = m.lookup (constructorName cfg C.toClassDecl) :=
  congrArg (fun key => m.lookup key) (funcSig_constructor cfg C.toClassDecl)

theorem length_params (n : Nat) : (params n).length = n := by simp [params]

theorem genAllocator_constructor {n : Nat} (hn : C.constructors = [n]) :
    genAllocator (replace C.moduleName "." "::") (registration cfg C Tables.empty)
      (foreignFunc (constructorName cfg C.toClassDecl)) = .ok (allocator cfg C.toClassDecl n, n) := by
  obtain ⟨hargs, hmodules, -⟩ := (registration_constructs cfg C).entries n (by simp [hn])
  unfold genAllocator
  simp only [(lookup_constructor _).trans hargs, (lookup_constructor _).trans hmodules,
    funcSig_constructor, length_params]
  rfl

theorem genAllocate_constructor {n : Nat} (hn : C.constructors = [n]) :
    genAllocate (registration cfg C Tables.empty)
      (foreignFunc (constructorName cfg C.toClassDecl)) = .ok (allocateTarget cfg C.toClassDecl) := by
  obtain ⟨-, -, hsigs⟩ := (registration_constructs cfg C).entries n (by simp [hn])
  unfold genAllocate
  simp only [(lookup_constructor _).trans hsigs, funcSig_constructor]
  rfl

/-- Allocators are made for the constructor and nothing else. -/
theorem mapM_genAllocator :
    (registration cfg C Tables.empty).foreignConstructorDec.mapM
        (genAllocator (replace C.moduleName "." "::") (registration cfg C Tables.empty))
      = .ok (C.constructors.map fun n => (allocator cfg C.toClassDecl n, n)) := by
  rw [(registration_constructs cfg C).declared]
  rcases constructors_cases C.toClassDecl with hn | ⟨n, hn⟩
  · rw [hn]
    rfl
  · rw [if_neg (by simp [hn]), List.mapM_cons, genAllocator_constructor hn, hn]
    rfl

theorem mapM_genAllocate :
    (registration cfg C Tables.empty).foreignConstructorDec.mapM
        (genAllocate (registration cfg C Tables.empty))
      = .ok (C.constructors.map fun _ => allocateTarget cfg C.toClassDecl) := by
  rw [(registration_constructs cfg C).declared]
  rcases constructors_cases C.toClassDecl with hn | ⟨n, hn⟩
  · rw [hn]
    rfl
  · rw [if_neg (by simp [hn]), List.mapM_cons, genAllocate_constructor hn, hn]
    rfl

/-- **The constructor in the unit**: its allocator, its line in `bindClass`, and the number
of arguments for the extern block. -/
theorem genUnit_constructor {cpp : CppUnit} {header : CppHeader} {n : Nat}
    (h : genUnit cfg.order C.moduleName C.name.text (registration cfg C Tables.empty)
      = .ok (cpp, header, n)) :
    cpp.allocators = C.constructors.map (allocator cfg C.toClassDecl) ∧
      cpp.bindClass = C.constructors.map (fun _ => allocateTarget cfg C.toClassDecl) ∧
      n = C.constructors.getLastD 0 := by
  rw [genUnit] at h
  simp only at h
  split at h
  · cases h
  · obtain ⟨functions, -, h⟩ := bind_eq_ok.mp h
    rw [mapM_genAllocator, mapM_genAllocate] at h
    have h := Except.ok.inj h
    rw [Prod.mk.injEq, Prod.mk.injEq] at h
    obtain ⟨rfl, -, rfl⟩ := h
    refine ⟨?_, rfl, ?_⟩
    · show (C.constructors.map _).map Prod.fst = _
      rw [List.map_map]
      rfl
    · rcases constructors_cases C.toClassDecl with hn | ⟨n, hn⟩
      · rw [hn]
        rfl
      · rw [hn]
        rfl

end Unit

end Wrenegade
