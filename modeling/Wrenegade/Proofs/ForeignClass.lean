/-
What the host answers when Wren asks for a foreign class.

For most names the generated code writes nothing at all: the dispatcher may have no
branch, and `bindClass` of a class without a constructor has no line.  The callback
then returns what was in memory, and the VM, which looks for its own classes only
when both fields are `NULL`, takes that for an allocator.  Only the names of classes
with an allocator get a defined answer, and of these the ones with `static` in the
name get `NULL`.
-/
import Wrenegade.Model.ForeignClass
import Wrenegade.Proofs.Constructors
import Wrenegade.Proofs.Dispatch

namespace Wrenegade

open Text Files Run

/-! ### The units of a run -/

/-- The unit of a class, as made from the tables filled from nothing. -/
def Makes (cfg : Config) (C : LocalClass) (u : GeneratedUnit) : Prop :=
  ∃ n, genUnit cfg.order C.moduleName C.name.text (registration cfg C Tables.empty)
    = .ok (u.cpp, u.header, n)

/-- **Every class of a run has its unit made.** -/
theorem bindAll_makes {fuel : Nat} {cfg : Config} {cs : List LocalClass} {fs : FileSystem}
    {g : Gen} (h : bindAll fuel cfg cs (Gen.start fs) = .ok g) :
    List.Forall₂ (Makes cfg) cs g.units := by
  refine @run_invariant _ _ _ _ _ (fun done g => List.Forall₂ (Makes cfg) done g.units)
    (fun _ _ => True) List.Forall₂.nil ?_ cs g (fun _ _ _ _ => trivial) h
  intro done C s s' hs _ hstep
  obtain ⟨u, n, hunits, hunit, -⟩ := bind_unit hstep
  rw [hunits]
  exact List.rel_append hs (List.Forall₂.cons ⟨n, hunit⟩ List.Forall₂.nil)

/-- The namespace of the unit of a class. -/
def unitNamespace (C : ClassDecl) : Text := flatName C.moduleName ++ "_functions"

/-! ### What is asked for -/

/-- The host is compiled from what a run has generated. -/
structure HostProgram.BuiltFrom (p : HostProgram) (g : Gen) : Prop where
  table : ∀ b, g.bindings = some b → p.table = b.bindClass
  units : p.units = g.units.map fun u => u.cpp

/-- The dispatcher forwards the name to the unit of the class. -/
def HostProgram.ForwardsTo (p : HostProgram) (module_ className : Text) (C : ClassDecl) : Prop :=
  dispatch p.table module_ className = some (unitNamespace C)

/-- The class declares a public constructor. -/
def ClassDecl.HasPublicConstructor (C : ClassDecl) : Prop :=
  ∃ f ∈ C.fields, f.name.text = "new" ∧ (∃ n, f.kind = .fFun n) ∧ .aPublic ∈ f.access

/-- The host provides the class: the name is forwarded to a bound class with a public
constructor. -/
def HostProgram.Provides (p : HostProgram) (cs : List LocalClass) (module_ className : Text) :
    Prop :=
  ∃ C ∈ cs, p.ForwardsTo module_ className C.toClassDecl ∧ C.HasPublicConstructor

/-- The answer is determined: the allocator of the class where the host provides it, `NULL`
everywhere else, so that the VM gets to its own classes, and the same whatever was in
memory. -/
structure Determined (cfg : Config) (p : HostProgram) (cs : List LocalClass)
    (module_ className : Text) : Prop where
  provided : ∀ C ∈ cs, p.ForwardsTo module_ className C.toClassDecl → C.HasPublicConstructor →
    ∀ memory, p.bindForeignClass memory module_ className
      = { allocate := .fn (unitNamespace C.toClassDecl) (constructorName cfg C.toClassDecl)
          finalize := .null }
  otherwise : ¬ p.Provides cs module_ className → ∀ memory,
    p.bindForeignClass memory module_ className = { allocate := .null, finalize := .null }
  sameForAll : ∀ memory memory', p.bindForeignClass memory module_ className
    = p.bindForeignClass memory' module_ className
  fallback : ¬ p.Provides cs module_ className → ∀ memory,
    foreignClassMethods p memory module_ className
      = if module_ = ("random" : Text) then wrenRandomBindForeignClass
        else { allocate := .null, finalize := .null }

/-! ### The answer -/

section Answer

variable {cfg : Config} {p : HostProgram} {module_ className : Text}

theorem bindForeignClass_none (h : dispatch p.table module_ className = none)
    (memory : WrenForeignClassMethods) :
    p.bindForeignClass memory module_ className = { memory with finalize := .null } := by
  rw [HostProgram.bindForeignClass, HostProgram.bindClass, h]

/-- Of a unit of the program the dispatcher finds the unit itself. -/
theorem bindForeignClass_unit {u : CppUnit} (hu : u ∈ p.units)
    (h : dispatch p.table module_ className = some u.namespace_)
    (memory : WrenForeignClassMethods) :
    p.bindForeignClass memory module_ className
      = u.runBindClass { memory with finalize := .null } := by
  obtain ⟨v, hfind⟩ : ∃ v, p.units.find? (fun v => v.namespace_ = u.namespace_) = some v :=
    Option.isSome_iff_exists.mp (List.find?_isSome.mpr ⟨u, hu, by simp⟩)
  have hns : v.namespace_ = u.namespace_ := by simpa using List.find?_some hfind
  have hv : v = u :=
    List.inj_on_of_nodup_map p.once (List.mem_of_find?_eq_some hfind) hu hns
  rw [HostProgram.bindForeignClass, HostProgram.bindClass, h]
  simp only [hfind, hv]

/-- A branch of the dispatcher leads to a unit. -/
theorem exists_unit_of_dispatch {ns : Text} (h : dispatch p.table module_ className = some ns) :
    ∃ u ∈ p.units, u.namespace_ = ns := by
  obtain ⟨row, hrow, hsome⟩ := List.exists_of_findSome?_eq_some h
  split at hsome
  · obtain ⟨e, he, hentry⟩ := List.exists_of_findSome?_eq_some hsome
    split at hentry
    · rw [Option.some.injEq] at hentry
      obtain ⟨u, hu, hns⟩ := p.defined row hrow e he
      exact ⟨u, hu, hns.trans hentry⟩
    · cases hentry
  · cases hsome

theorem constructorName_ne_NULL (cfg : Config) (C : ClassDecl) :
    constructorName cfg C ≠ "NULL" := by
  intro h
  have hlast : (constructorName cfg C).getLast? = some 'w' :=
    List.getLast?_append_of_ne_nil _ (by decide)
  rw [h] at hlast
  exact absurd hlast (by decide)

/-- The allocator is installed unless the name of the class has `static` in it. -/
theorem pointer_allocateTarget (cfg : Config) (C : ClassDecl) (ns : Text) :
    pointer ns (allocateTarget cfg C) =
      if ("static" : Text) <:+: C.name.text then .null else .fn ns (constructorName cfg C) := by
  unfold pointer allocateTarget
  split
  · exact if_pos rfl
  · exact if_neg (constructorName_ne_NULL cfg C)

/-- `bindClass` of a class with a constructor writes the field. -/
theorem runBindClass_constructor {C : ClassDecl} {u : CppUnit}
    (h : u.bindClass = [allocateTarget cfg C]) (methods : WrenForeignClassMethods) :
    u.runBindClass methods =
      { methods with
        allocate := if ("static" : Text) <:+: C.name.text then .null
          else .fn u.namespace_ (constructorName cfg C) } := by
  rw [CppUnit.runBindClass, h, ← pointer_allocateTarget]

theorem publicConstructor_of_constructors {C : ClassDecl} (h : C.constructors ≠ []) :
    C.HasPublicConstructor := by
  obtain ⟨n, ns, hn⟩ := List.exists_cons_of_ne_nil h
  have hmem : n ∈ C.constructors := by simp [hn]
  obtain ⟨f, hf, hmem⟩ := List.mem_flatMap.mp hmem
  obtain ⟨hkind, haccess, hname⟩ := mem_constructors.mp hmem
  refine ⟨f, hf, hname, ⟨n, hkind⟩, ?_⟩
  unfold isInstanceAccess at haccess
  split at haccess
  · rename_i heq
    simp [heq]
  · rename_i heq
    simp [heq]
  · exact Bool.noConfusion haccess

end Answer

/-! ### After a run -/

section Run

variable {cfg : Config} {cs : List LocalClass} {g : Gen} {p : HostProgram}

/-- A unit of the program and its class. -/
structure BindsClass (cfg : Config) (C : LocalClass) (u : CppUnit) : Prop where
  namespace_ : u.namespace_ = unitNamespace C.toClassDecl
  bindClass : u.bindClass = C.constructors.map fun _ => allocateTarget cfg C.toClassDecl

theorem Makes.bindsClass {C : LocalClass} {u : GeneratedUnit} (h : Makes cfg C u) :
    BindsClass cfg C u.cpp := by
  obtain ⟨n, hunit⟩ := h
  exact ⟨(genUnit_ok hunit).2.1, (genUnit_constructor hunit).2.1⟩

theorem HostProgram.BuiltFrom.unit_of_class (hp : p.BuiltFrom g)
    (hg : List.Forall₂ (Makes cfg) cs g.units) {C : LocalClass} (hC : C ∈ cs) :
    ∃ u ∈ p.units, BindsClass cfg C u := by
  obtain ⟨u, hu, hmakes⟩ := exists_of_forall₂ hg hC
  refine ⟨u.cpp, ?_, hmakes.bindsClass⟩
  rw [hp.units]
  exact List.mem_map_of_mem hu

theorem HostProgram.BuiltFrom.class_of_unit (hp : p.BuiltFrom g)
    (hg : List.Forall₂ (Makes cfg) cs g.units) {u : CppUnit} (hu : u ∈ p.units) :
    ∃ C ∈ cs, BindsClass cfg C u := by
  rw [hp.units] at hu
  obtain ⟨v, hv, rfl⟩ := List.mem_map.mp hu
  obtain ⟨C, hC, hmakes⟩ := exists_of_forall₂ (R := flip (Makes cfg)) hg.flip hv
  exact ⟨C, hC, hmakes.bindsClass⟩

/-- An answer that shows what was in memory is none. -/
theorem not_determined_of_stale {module_ className : Text}
    (h : ∀ memory, (p.bindForeignClass memory module_ className).allocate = memory.allocate) :
    ¬ Determined cfg p cs module_ className := by
  intro hd
  have hsame := hd.sameForAll ⟨.stale 0, .null⟩ ⟨.stale 1, .null⟩
  have halloc := congrArg WrenForeignClassMethods.allocate hsame
  rw [h, h] at halloc
  exact absurd halloc (by decide)

/-- Classes with the same namespace have the same unit, so the same line in it. -/
theorem HostProgram.BuiltFrom.constructorName_eq (hp : p.BuiltFrom g)
    (hg : List.Forall₂ (Makes cfg) cs g.units) {C D : LocalClass} (hC : C ∈ cs) (hD : D ∈ cs)
    (hns : unitNamespace C.toClassDecl = unitNamespace D.toClassDecl) (hne : C.constructors ≠ [])
    (hstatic : ¬ ("static" : Text) <:+: C.name.text) :
    constructorName cfg C.toClassDecl = constructorName cfg D.toClassDecl := by
  obtain ⟨u, hu, hbinds⟩ := hp.unit_of_class hg hC
  obtain ⟨v, hv, hbindsD⟩ := hp.unit_of_class hg hD
  have huv : u = v := List.inj_on_of_nodup_map p.once hu hv (by
    rw [hbinds.namespace_, hbindsD.namespace_, hns])
  have htargets := hbinds.bindClass.symm.trans (huv ▸ hbindsD.bindClass)
  obtain ⟨n, hn⟩ : ∃ n, C.constructors = [n] := (constructors_cases _).resolve_left hne
  rw [hn, List.map_singleton, allocateTarget, if_neg hstatic] at htargets
  rcases constructors_cases D.toClassDecl with hnone | ⟨m, hm⟩
  · rw [hnone] at htargets
    cases htargets
  · rw [hm, List.map_singleton, List.singleton_inj, allocateTarget] at htargets
    split at htargets
    · exact absurd htargets (constructorName_ne_NULL cfg C.toClassDecl)
    · exact htargets

/-- The answer to a name that is forwarded to a class with a constructor. -/
theorem HostProgram.BuiltFrom.answer (hp : p.BuiltFrom g)
    (hg : List.Forall₂ (Makes cfg) cs g.units) {C : LocalClass} (hC : C ∈ cs)
    {module_ className : Text} (hforward : p.ForwardsTo module_ className C.toClassDecl)
    (hne : C.constructors ≠ []) (hstatic : ¬ ("static" : Text) <:+: C.name.text)
    (memory : WrenForeignClassMethods) :
    p.bindForeignClass memory module_ className
      = { allocate := .fn (unitNamespace C.toClassDecl) (constructorName cfg C.toClassDecl)
          finalize := .null } := by
  obtain ⟨u, hu, hbinds⟩ := hp.unit_of_class hg hC
  have hdispatch : dispatch p.table module_ className = some u.namespace_ := by
    rw [hbinds.namespace_]
    exact hforward
  obtain ⟨n, hn⟩ : ∃ n, C.constructors = [n] := (constructors_cases _).resolve_left hne
  rw [bindForeignClass_unit hu hdispatch,
    runBindClass_constructor (by rw [hbinds.bindClass, hn]; rfl), if_neg hstatic,
    hbinds.namespace_]

/--
**Which names get a determined answer.**  In a host built from any run, the answer to
a module and a class name is the allocator of the class or `NULL`, whatever was in
memory, if and only if the dispatcher forwards the name to a bound class that
declares its constructor with no modifier but `public` (or `override public`) and
has no `static` in its name.
-/
theorem bindForeignClass_determined_iff {fuel : Nat} {fs : FileSystem}
    (h : bindAll fuel cfg cs (Gen.start fs) = .ok g) (hp : p.BuiltFrom g)
    (module_ className : Text) :
    Determined cfg p cs module_ className ↔
      ∃ C ∈ cs, p.ForwardsTo module_ className C.toClassDecl ∧ C.constructors ≠ [] ∧
        ¬ ("static" : Text) <:+: C.name.text := by
  have hg := bindAll_makes h
  constructor
  · intro hd
    cases hdispatch : dispatch p.table module_ className with
    | none =>
        refine absurd hd (not_determined_of_stale fun memory => ?_)
        rw [bindForeignClass_none hdispatch]
    | some ns =>
        obtain ⟨u, hu, hns⟩ := exists_unit_of_dispatch hdispatch
        obtain ⟨C, hC, hbinds⟩ := hp.class_of_unit hg hu
        rw [← hns] at hdispatch
        have hforward : p.ForwardsTo module_ className C.toClassDecl := by
          rw [HostProgram.ForwardsTo, hdispatch, hbinds.namespace_]
        rcases constructors_cases C.toClassDecl with hnone | ⟨n, hn⟩
        · -- `bindClass` is empty
          refine absurd hd (not_determined_of_stale fun memory => ?_)
          rw [bindForeignClass_unit hu hdispatch, CppUnit.runBindClass, hbinds.bindClass, hnone]
          rfl
        · have hne : C.constructors ≠ [] := by simp [hn]
          refine ⟨C, hC, hforward, hne, fun hstatic => ?_⟩
          have hanswer := hd.provided C hC hforward (publicConstructor_of_constructors hne)
            ⟨.null, .null⟩
          rw [bindForeignClass_unit hu hdispatch,
            runBindClass_constructor (by rw [hbinds.bindClass, hn]; rfl), if_pos hstatic] at hanswer
          exact absurd (congrArg WrenForeignClassMethods.allocate hanswer) (by simp)
  · rintro ⟨C, hC, hforward, hne, hstatic⟩
    have hanswer := hp.answer hg hC hforward hne hstatic
    have hprovides : p.Provides cs module_ className :=
      ⟨C, hC, hforward, publicConstructor_of_constructors hne⟩
    refine ⟨fun D hD hforwardD _ memory => ?_, fun hno => absurd hprovides hno,
      fun memory memory' => by rw [hanswer, hanswer], fun hno => absurd hprovides hno⟩
    have hns : unitNamespace C.toClassDecl = unitNamespace D.toClassDecl := by
      rw [HostProgram.ForwardsTo] at hforward hforwardD
      rw [hforward, Option.some.injEq] at hforwardD
      exact hforwardD
    rw [hanswer, hp.constructorName_eq hg hC hD hns hne hstatic, hns]

/-- On decodable packages the generated code makes a program. -/
theorem exists_builtFrom {fuel : Nat} {fs : FileSystem}
    (h : bindAll fuel cfg cs (Gen.start fs) = .ok g) (hcs : ∀ C ∈ cs, C.IsMain ∧ C.Decodable)
    (hdistinct : (cs.map fun C => C.moduleName).Nodup) {b : Bindings}
    (hb : g.bindings = some b) : ∃ p : HostProgram, p.BuiltFrom g := by
  obtain ⟨hexact, -⟩ := bindAll_dispatchesExactly h hcs b hb
  have hnamespaces : (g.units.map fun u => u.cpp).map CppUnit.namespace_
      = cs.map fun C => unitNamespace C.toClassDecl := by
    rw [List.map_map]
    have hg := bindAll_makes h
    clear h hcs hdistinct hexact hb
    generalize g.units = us at hg
    induction hg with
    | nil => rfl
    | cons hmakes _ ih => rw [List.map_cons, List.map_cons, ih, ← hmakes.bindsClass.namespace_]; rfl
  have honce : ((g.units.map fun u => u.cpp).map CppUnit.namespace_).Nodup := by
    rw [hnamespaces]
    rw [List.Nodup, List.pairwise_map] at hdistinct ⊢
    refine hdistinct.imp_of_mem fun {C D} hC hD hne heq => hne ?_
    unfold unitNamespace at heq
    exact flatName_inj (hcs C hC).2 (hcs D hD).2 (List.append_cancel_right heq)
  refine ⟨⟨b.bindClass, g.units.map fun u => u.cpp, honce, fun row hrow e he => ?_⟩,
    ⟨fun b' hb' => ?_, rfl⟩⟩
  · obtain ⟨u, hu, hns⟩ := hexact.defined row hrow e he
    exact ⟨u.cpp, List.mem_map_of_mem hu, hns⟩
  · rw [hb, Option.some.injEq] at hb'
    exact congrArg Bindings.bindClass hb'

/-- On decodable packages the dispatcher forwards the import path and the name of a class,
and nothing else. -/
theorem forwardsTo_iff {fuel : Nat} {fs : FileSystem}
    (h : bindAll fuel cfg cs (Gen.start fs) = .ok g) (hp : p.BuiltFrom g)
    (hcs : ∀ C ∈ cs, C.IsMain ∧ C.Decodable) {b : Bindings} (hb : g.bindings = some b)
    {C : LocalClass} (hC : C ∈ cs) (module_ className : Text) :
    p.ForwardsTo module_ className C.toClassDecl ↔
      module_ = importPath C.toClassDecl ∧ className = C.name.text := by
  have hg := bindAll_recorded h
  rw [HostProgram.ForwardsTo, hp.table b hb, hg.bindings b hb]
  constructor
  · intro hd
    obtain ⟨D, hD, hmod, hcls, hns⟩ := hg.class_of_dispatch hcs hd
    rw [unitNamespace] at hns
    have hname := flatName_inj (hcs C hC).2 (hcs D hD).2 (List.append_cancel_right hns)
    have hsplit : C.packTexts ++ [C.name.text] = D.packTexts ++ [D.name.text] := by
      rw [← C.split_moduleName, ← D.split_moduleName, hname]
    obtain ⟨hpack, hlast⟩ := List.append_inj' hsplit rfl
    have hpath : importPath C.toClassDecl = importPath D.toClassDecl := by
      unfold importPath
      rw [hpack]
    exact ⟨hmod.trans hpath.symm, hcls.trans (List.singleton_inj.mp hlast).symm⟩
  · rintro ⟨rfl, rfl⟩
    exact hg.dispatch_class hcs hC

end Run

namespace Sample

/-- The host of the test. -/
theorem exists_host : ∃ (g : Gen) (p : HostProgram),
    bindAll 1 config [hello, mySuperClass, myClass] (Gen.start noFiles) = .ok g ∧ p.BuiltFrom g ∧
    dispatch p.table "foreign/myclass" "MyClass" = some "myclass_MyClass_functions" ∧
    dispatch p.table "random" "Random" = none := by
  have hrun : Run.holds (fun g => match g.bindings with
      | some b =>
          dispatch b.bindClass "foreign/myclass" "MyClass" = some "myclass_MyClass_functions" &&
            dispatch b.bindClass "random" "Random" = none
      | none => false)
      (bindAll 1 config [hello, mySuperClass, myClass] (Gen.start noFiles)) := by decide +kernel
  obtain ⟨g, h, hg⟩ := Run.exists_of_holds hrun
  split at hg
  · rename_i b hb
    simp only [Bool.and_eq_true, decide_eq_true_eq] at hg
    obtain ⟨p, hp⟩ := exists_builtFrom h (fun C hC => by
      simp only [List.mem_cons, List.not_mem_nil, or_false] at hC
      rcases hC with rfl | rfl | rfl <;> exact ⟨rfl, by decide, by decide, by decide⟩)
      (by decide) hb
    rw [← hp.table b hb] at hg
    exact ⟨g, p, h, hp, hg.1, hg.2⟩
  · exact Bool.noConfusion hg

theorem bindForeignClass_determined_myClass :
    ∃ (g : Gen) (p : HostProgram),
      bindAll 1 config [hello, mySuperClass, myClass] (Gen.start noFiles) = .ok g ∧
      p.BuiltFrom g ∧
      Determined config p [hello, mySuperClass, myClass] "foreign/myclass" "MyClass" := by
  obtain ⟨g, p, h, hp, hforward, -⟩ := exists_host
  refine ⟨g, p, h, hp, (bindForeignClass_determined_iff h hp _ _).mpr
    ⟨myClass, by simp, ?_, by decide, by decide⟩⟩
  have hns : unitNamespace myClass.toClassDecl = "myclass_MyClass_functions" := by decide +kernel
  rw [HostProgram.ForwardsTo, hns]
  exact hforward

/-- The VM asks about its own class, and gets what was in memory. -/
theorem random_not_determined :
    ∃ (g : Gen) (p : HostProgram),
      bindAll 1 config [hello, mySuperClass, myClass] (Gen.start noFiles) = .ok g ∧
      p.BuiltFrom g ∧
      ¬ Determined config p [hello, mySuperClass, myClass] "random" "Random" ∧
      foreignClassMethods p ⟨.stale 1, .null⟩ "random" "Random" = ⟨.stale 1, .null⟩ := by
  obtain ⟨g, p, h, hp, -, hnone⟩ := exists_host
  refine ⟨g, p, h, hp, not_determined_of_stale fun memory => ?_, ?_⟩
  · rw [bindForeignClass_none hnone]
  · unfold foreignClassMethods
    rw [bindForeignClass_none hnone]
    rfl

end Sample

end Wrenegade
