/-
Which classes the generator gets through.

Content generation looks things up without asking whether they are there: the first
module noted, the arguments of every declared function, the tables of the
constructor, the signature of every function.  `Completable` says when all of it is
there.  Two of the lookups can fail: no module is noted for a class that has neither
a constructor of its own nor a static method, and a function is found under the key
of a variable, whose arguments are `null`.

After the content of a class with a bound superclass the module is read back.  It is
read from the file just written, or it need not be there.
-/
import Wrenegade.Proofs.Constructors
import Wrenegade.Proofs.ModulePaths

namespace Wrenegade

open Text Files Registry Run

/-- Everything content generation looks up is there, and the module read back is the one
just written. -/
structure Completable (cfg : Config) (C : LocalClass) : Prop where
  notesModule : ∃ f ∈ C.fields, f.notesModule = true
  functions : ∀ e ∈ C.entries, e.published = true → ∀ m, C.lastMember e.key = some m →
    m.access ≠ .variable_
  superRead : C.supers ≠ [] →
    resolve cfg.cwd (superReadFile cfg C.toClassDecl)
      = resolve cfg.cwd (writerFile cfg C.toClassDecl)

/-- The generator gets through the class: no missing entry is dereferenced, what is derived
is the class's own, and the superclass path reads no file that is not there. -/
structure Completes (cfg : Config) (C : LocalClass) : Prop where
  noMissing : ∀ fuel fs,
    createBindInclude (fuel + 1) cfg C Tables.empty fs ≠ .error .nullAccess
  derived : ∃ cpp header n,
    genUnit cfg.order C.moduleName (className C.toClassDecl) (registration cfg C Tables.empty)
      = .ok (cpp, header, n) ∧
    cpp.namespace_ = flatName C.moduleName ++ "_functions" ∧
    header.guard = flatName C.moduleName ∧
    externModule (cpp.includes.headD []) (className C.toClassDecl)
      = externModule C.moduleName (className C.toClassDecl)
  superRead : C.supers ≠ [] → ∀ fs u fs₁,
    genContent cfg C.toClassDecl (registration cfg C Tables.empty) fs = .ok (u, fs₁) →
      ∃ buf, readModule cfg (cutModule cfg (superModule C.toClassDecl)).1
        (cutModule cfg (superModule C.toClassDecl)).2 fs₁ = .ok buf

/-! ### The unit -/

section Unit

variable {cfg : Config} {C : LocalClass}

/-- A declared function, by its key. -/
theorem mem_foreignFuncsDec {func : Text} :
    func ∈ (registration cfg C Tables.empty).foreignFuncsDec ↔
      ∃ e ∈ C.entries, e.published = true ∧
        func = foreignFunc (funcBase cfg C.toClassDecl ++ e.key) := by
  rw [(registration_represents cfg C).funcs, List.mem_map]
  constructor
  · rintro ⟨k, hk, rfl⟩
    obtain ⟨e, he, hpub, rfl⟩ := mem_decls.mp hk
    exact ⟨e, he, hpub, rfl⟩
  · rintro ⟨e, he, hpub, rfl⟩
    exact ⟨e.key, mem_decls.mpr ⟨e, he, hpub, rfl⟩, rfl⟩

/-- What the argument table holds for a function. -/
theorem lookup_args {e : SigEntry} (he : e ∈ C.entries) :
    (registration cfg C Tables.empty).bindMethodMap.lookup
        (funcSig (foreignFunc (funcBase cfg C.toClassDecl ++ e.key)))
      = (C.lastMember e.key).map BoundMember.args := by
  have hsig : funcSig (foreignFunc (funcBase cfg C.toClassDecl ++ e.key))
      = funcBase cfg C.toClassDecl ++ e.key := funcSig_entry he
  have hlookup := (registration_accesses cfg C).args (funcBase cfg C.toClassDecl ++ e.key)
  rw [memberAt_key] at hlookup
  exact (congrArg (fun key => (registration cfg C Tables.empty).bindMethodMap.lookup key)
    hsig).trans hlookup

/-- A body is made unless the arguments are the `null` of a variable. -/
theorem genFunction_fails {cModule func : Text} {t : Tables} :
    (∃ f, genFunction cModule t func = .ok f) ↔
      t.bindMethodMap.lookup (funcSig func) ≠ some none := by
  unfold genFunction
  simp only
  split
  · rename_i h
    simp [h]
  · rename_i h
    rw [h]
    simp
  · rename_i h _
    exact ⟨fun _ => h, fun _ => ⟨_, rfl⟩⟩

theorem genFunction_entry {cModule : Text} {e : SigEntry} (he : e ∈ C.entries) :
    (∃ f, genFunction cModule (registration cfg C Tables.empty)
      (foreignFunc (funcBase cfg C.toClassDecl ++ e.key)) = .ok f) ↔
      ∀ m, C.lastMember e.key = some m → m.access ≠ .variable_ := by
  rw [genFunction_fails, lookup_args he]
  cases C.lastMember e.key with
  | none => simp
  | some m =>
      rw [Option.map_some, BoundMember.args]
      cases hm : m.access <;> simp [hm]

/-- **The unit is made if and only if a module is noted and no function has the key of a
variable.** -/
theorem genUnit_succeeds_iff :
    (∃ r, genUnit cfg.order C.moduleName C.name.text (registration cfg C Tables.empty) = .ok r) ↔
      (∃ f ∈ C.fields, f.notesModule = true) ∧
      ∀ e ∈ C.entries, e.published = true → ∀ m, C.lastMember e.key = some m →
        m.access ≠ .variable_ := by
  have hkeys : (registration cfg C Tables.empty).bindCModules.keys ≠ [] ↔
      ∃ f ∈ C.fields, f.notesModule = true := by
    rw [Ne, registration_noModules]
    simp
  rw [← hkeys, genUnit, collectIncludes_registration]
  by_cases hnone : (registration cfg C Tables.empty).bindCModules.keys = []
  · rw [if_pos hnone]
    simp [hnone]
  · rw [if_neg hnone]
    simp only [mapM_genAllocator, mapM_genAllocate]
    constructor
    · rintro ⟨r, h⟩
      refine ⟨hnone, fun e he hpub => ?_⟩
      obtain ⟨functions, hfunctions, -⟩ := bind_eq_ok.mp h
      obtain ⟨f, -, hf⟩ := exists_of_forall₂ (mapM_eq_ok hfunctions)
        (mem_foreignFuncsDec.mpr ⟨e, he, hpub, rfl⟩)
      exact (genFunction_entry he).mp ⟨f, hf⟩
    · rintro ⟨-, h⟩
      obtain ⟨functions, hfunctions⟩ := exists_mapM
        (f := genFunction (replace C.moduleName "." "::") (registration cfg C Tables.empty))
        (l := (registration cfg C Tables.empty).foreignFuncsDec) fun func hfunc => by
          obtain ⟨e, he, hpub, rfl⟩ := mem_foreignFuncsDec.mp hfunc
          exact (genFunction_entry he).mpr (h e he hpub)
      exact ⟨_, bind_eq_ok.mpr ⟨functions, hfunctions, rfl⟩⟩

/-- Every declared function has a signature. -/
theorem lookup_signature {func : Text}
    (hfunc : func ∈ (registration cfg C Tables.empty).foreignFuncsDec) :
    ∃ sig, (registration cfg C Tables.empty).bindSignatureMap.lookup (funcSig func) = some sig := by
  obtain ⟨e, he, -, rfl⟩ := mem_foreignFuncsDec.mp hfunc
  obtain ⟨sig, hsig⟩ := sigs_of_mem he
  have hlookup := (registration_represents cfg C).signatures e.key
  rw [hsig] at hlookup
  exact ⟨sig, (congrArg (fun key =>
    (registration cfg C Tables.empty).bindSignatureMap.lookup key)
      (@funcSig_entry cfg C e he)).trans hlookup⟩

end Unit

/-! ### Errors -/

section Errors

variable {cfg : Config}

theorem bind_ne_error {α β : Type} {x : Except GenError α} {f : α → Except GenError β}
    {e : GenError} (hx : x ≠ .error e) (hf : ∀ a, x = .ok a → f a ≠ .error e) :
    (x >>= f) ≠ .error e := by
  intro h
  rcases bind_eq_error.mp h with h | ⟨a, ha, h⟩
  · exact hx h
  · exact hf a ha h

theorem mapM_ne_error {α β : Type} {f : α → Except GenError β} {l : List α} {e : GenError}
    (h : ∀ a ∈ l, ∃ b, f a = .ok b) : l.mapM f ≠ .error e := by
  obtain ⟨r, hr⟩ := exists_mapM h
  rw [hr]
  simp

theorem saveContent_ne_null (path content : Text) (fs : FileSystem) :
    saveContent cfg path content fs ≠ .error .nullAccess := by
  rw [saveContent]
  split <;> simp

theorem genWrenExterns_ne_null (buf className module_ : Text) (sigs : List Text) (ctor : Bool)
    (n : Nat) (fs : FileSystem) :
    genWrenExterns cfg buf className module_ sigs ctor n fs ≠ .error .nullAccess :=
  saveContent_ne_null _ _ _

theorem readModule_ne_null (wrenPath file : Text) (fs : FileSystem) :
    readModule cfg wrenPath file fs ≠ .error .nullAccess := by
  rw [readModule, getContent]
  split
  · cases fs.getContent (resolve cfg.cwd (wrenFile wrenPath file)) <;> simp
  · simp

theorem appendSuperBlock_ne_null (C : ClassDecl) (superClassName : Text) (sigs : List Text)
    (n : Nat) (fs : FileSystem) :
    appendSuperBlock cfg C superClassName sigs n fs ≠ .error .nullAccess := by
  rw [appendSuperBlock]
  exact bind_ne_error (readModule_ne_null _ _ _) fun _ _ => genWrenExterns_ne_null _ _ _ _ _ _ _

/-- Once the unit is made, nothing missing is dereferenced any more. -/
theorem genContent_ne_null {C : LocalClass}
    (h : ∃ r, genUnit cfg.order C.moduleName C.name.text (registration cfg C Tables.empty) = .ok r)
    (fs : FileSystem) :
    genContent cfg C.toClassDecl (registration cfg C Tables.empty) fs ≠ .error .nullAccess := by
  obtain ⟨⟨cpp, header, n⟩, h⟩ := h
  rw [genContent, className_eq, h]
  refine bind_ne_error (by simp) fun r hr => ?_
  refine bind_ne_error (saveContent_ne_null _ _ _) fun fs₁ _ => ?_
  refine bind_ne_error (saveContent_ne_null _ _ _) fun fs₂ _ => ?_
  refine bind_ne_error (mapM_ne_error fun func hfunc => ?_) fun sigs _ => ?_
  · obtain ⟨sig, hsig⟩ := lookup_signature hfunc
    exact ⟨sig, by rw [hsig]⟩
  exact bind_ne_error (genWrenExterns_ne_null _ _ _ _ _ _ _) fun _ _ => by simp

end Errors

/-! ### The module read back -/

section Files

variable {cfg : Config}

theorem saveContent_succeeds {path : Text} {fs : FileSystem}
    (hdir : fs.isDirectory (resolve cfg.cwd path).dropLast = true) (content : Text) :
    ∃ fs', saveContent cfg path content fs = .ok fs' ∧ fs'.dirs = fs.dirs := by
  obtain ⟨fs', hsave⟩ : ∃ fs', fs.saveContent (resolve cfg.cwd path) content = some fs' :=
    ⟨_, if_pos hdir⟩
  refine ⟨fs', ?_, FileSystem.dirs_saveContent hsave⟩
  rw [saveContent, hsave]

/-- The file of a module text lies in the directory cut out of it. -/
theorem resolve_cutModule {m : Text} (hslash : '/' ∉ m) :
    (resolve cfg.cwd (externFile cfg m)).dropLast = resolve cfg.cwd (cutModule cfg m).1 := by
  have hfile : '/' ∉ (cutModule cfg m).2 := by
    rw [cutModule]
    split
    · intro hmem
      have hlast : (split m "_").getLastD [] ∈ split m "_" := by
        have hne : split m "_" ≠ [] := split_ne_nil (by simp) m
        rw [List.getLastD_eq_getLast?, List.getLast?_eq_some_getLast hne, Option.getD_some]
        exact List.getLast_mem hne
      exact hslash ((mem_piece (x := '_') hlast).2 _ hmem)
    · exact hslash
  have hdir : (cutModule cfg m).1 ≠ [] := by
    rw [cutModule]
    split
    · simp
    · exact wrenDir_ne_nil cfg
  rw [externFile, resolve_wrenFile hdir hfile, List.dropLast_concat]

/-- From where the module of the class is, it can be read back. -/
theorem readModule_succeeds {wrenPath file : Text} {fs : FileSystem} {content : Text}
    (h : fs.getContent (resolve cfg.cwd (wrenFile wrenPath file)) = some content) :
    ∃ buf, readModule cfg wrenPath file fs = .ok buf := by
  rw [readModule, getContent, h]
  split
  · exact ⟨_, rfl⟩
  · exact ⟨_, rfl⟩

theorem readModule_fails {wrenPath file : Text} {fs : FileSystem}
    (hdir : fs.isDirectory (resolve cfg.cwd wrenPath) = true)
    (h : fs.getContent (resolve cfg.cwd (wrenFile wrenPath file)) = none) :
    ∀ buf, readModule cfg wrenPath file fs ≠ .ok buf := by
  intro buf
  have hexists : fs.exists_ (resolve cfg.cwd wrenPath) = true := by
    rw [FileSystem.exists_, hdir, Bool.true_or]
  rw [readModule, if_pos hexists, getContent, h]
  simp

variable {C : LocalClass}

/-- After the content of a class only its own module is new among the Wren modules. -/
theorem getContent_genContent {fs fs₁ : FileSystem} {u : GeneratedUnit}
    (h : genContent cfg C.toClassDecl (registration cfg C Tables.empty) fs = .ok (u, fs₁))
    (m : Text) :
    ∃ block, fs₁.getContent (resolve cfg.cwd (externFile cfg m)) =
      if resolve cfg.cwd (externFile cfg m) = resolve cfg.cwd (writerFile cfg C.toClassDecl) then
        some block
      else fs.getContent (resolve cfg.cwd (externFile cfg m)) := by
  obtain ⟨n, sigs, fs₂, fs₃, hunit, hcppPath, hheaderPath, hcpp, hheader, -, hextern⟩ :=
    genContent_ok h
  rw [className_eq] at hunit
  rw [(genUnit_ok hunit).1, List.headD_cons] at hextern
  rw [hcppPath] at hcpp
  rw [hheaderPath] at hheader
  have hget := genWrenExterns_ok hextern (resolve cfg.cwd (externFile cfg m))
  have hkeep : fs₃.getContent (resolve cfg.cwd (externFile cfg m))
      = fs.getContent (resolve cfg.cwd (externFile cfg m)) := by
    rw [externFile, wrenFile,
      getContent_saveContent_of_extension extension_h extension_wren (by decide) hheader,
      getContent_saveContent_of_extension extension_cpp extension_wren (by decide) hcpp]
  rw [hkeep] at hget
  exact ⟨_, hget⟩

/-- Where all directories are there already, the content of a class can be written. -/
theorem genContent_succeeds
    (hunit : ∃ r, genUnit cfg.order C.moduleName C.name.text (registration cfg C Tables.empty)
      = .ok r) {fs : FileSystem}
    (hcpp : fs.isDirectory
      (resolve cfg.cwd (unitFile cfg C.toClassDecl ".cpp")).dropLast = true)
    (hheader : fs.isDirectory
      (resolve cfg.cwd (unitFile cfg C.toClassDecl ".h")).dropLast = true)
    (hwren : fs.isDirectory (resolve cfg.cwd (writerFile cfg C.toClassDecl)).dropLast = true) :
    ∃ u fs₁, genContent cfg C.toClassDecl (registration cfg C Tables.empty) fs = .ok (u, fs₁) ∧
      fs₁.dirs = fs.dirs := by
  have hsame : ∀ {fs fs' : FileSystem} {l : Location}, fs'.dirs = fs.dirs →
      fs.isDirectory l = true → fs'.isDirectory l = true := by
    intro fs fs' l hdirs h
    rw [FileSystem.isDirectory, hdirs]
    exact h
  obtain ⟨⟨cpp, header, n⟩, hunit⟩ := hunit
  have hmodule : cpp.includes.headD [] = C.moduleName := by
    rw [(genUnit_ok hunit).1]
    rfl
  obtain ⟨fs₁, hsave₁, hdirs₁⟩ := saveContent_succeeds hcpp cpp.text
  obtain ⟨fs₂, hsave₂, hdirs₂⟩ := saveContent_succeeds (hsame hdirs₁ hheader) header.text
  have hdir : fs₂.exists_ (resolve cfg.cwd
      (cutModule cfg (externModule C.moduleName (className C.toClassDecl))).1) = true := by
    rw [writerFile, resolve_cutModule (externModule_noSeparator C.toClassDecl (by decide))] at hwren
    rw [FileSystem.exists_, hsame hdirs₂ (hsame hdirs₁ hwren), Bool.true_or]
  have hextern : ∀ sigs, ∃ fs₃, genWrenExterns cfg [] (className C.toClassDecl)
      (externModule (cpp.includes.headD []) (className C.toClassDecl)) sigs
      (decide ((registration cfg C Tables.empty).foreignConstructorDec ≠ [])) n fs₂ = .ok fs₃ ∧
        fs₃.dirs = fs₂.dirs := by
    intro sigs
    rw [hmodule, genWrenExterns]
    simp only [hdir, if_true]
    exact @saveContent_succeeds cfg (writerFile cfg C.toClassDecl) fs₂
      (hsame hdirs₂ (hsame hdirs₁ hwren)) _
  rw [← className_eq C.toClassDecl] at hunit
  suffices h : ∃ r, genContent cfg C.toClassDecl (registration cfg C Tables.empty) fs = .ok r ∧
      r.2.dirs = fs.dirs by
    obtain ⟨⟨u, fs₃⟩, hgen, hdirs⟩ := h
    exact ⟨u, fs₃, hgen, hdirs⟩
  rw [genContent]
  refine exists_bind ⟨_, hunit, ?_⟩
  refine exists_bind ⟨fs₁, by rw [className_eq]; exact hsave₁, ?_⟩
  refine exists_bind ⟨fs₂, by rw [className_eq]; exact hsave₂, ?_⟩
  refine exists_bind (Exists.imp (fun sigs hsigs => ⟨hsigs, ?_⟩)
    (exists_mapM fun func hfunc => ?_))
  · obtain ⟨fs₃, hgen, hdirs₃⟩ := hextern sigs
    exact exists_bind ⟨fs₃, hgen, _, rfl, hdirs₃.trans (hdirs₂.trans hdirs₁)⟩
  · obtain ⟨sig, hsig⟩ := lookup_signature hfunc
    exact ⟨sig, by simp only [hsig]⟩

/-- The module of a package of at most one segment is read back from where it was written. -/
theorem superReadFile_of_short {C : ClassDecl} (h : C.pack.length ≤ 1) :
    superReadFile cfg C = writerFile cfg C := by
  have hmodule : superModule C = externModule C.moduleName (className C) := by
    rw [superModule_eq, externModule_eq]
    unfold ClassDecl.packTexts
    rcases hp : C.pack with _ | ⟨p, _ | ⟨q, ps⟩⟩
    · rfl
    · simp
    · rw [hp] at h
      simp at h
  rw [superReadFile, writerFile, hmodule]

end Files

/-! ### Every class -/

section Class

variable {cfg : Config} {C : LocalClass}

theorem Completable.genUnit (h : Completable cfg C) :
    ∃ r, Wrenegade.genUnit cfg.order C.moduleName C.name.text (registration cfg C Tables.empty)
      = .ok r :=
  genUnit_succeeds_iff.mpr ⟨h.notesModule, h.functions⟩

/-- With at most one bound superclass nothing missing is dereferenced. -/
theorem Completable.createBindInclude_ne_null (h : Completable cfg C)
    (hchain : C.supers.length ≤ 1) (fuel : Nat) (fs : FileSystem) :
    createBindInclude (fuel + 1) cfg C Tables.empty fs ≠ .error .nullAccess := by
  have hcallback : contentCallback cfg C.toClassDecl (registration cfg C Tables.empty) fs
      ≠ .error .nullAccess := by
    rw [contentCallback]
    exact bind_ne_error (genContent_ne_null h.genUnit fs) fun _ _ => by simp
  rw [createBindInclude]
  unfold registration at hcallback
  rcases hs : C.supers with _ | ⟨S, _ | ⟨A, as⟩⟩
  · rw [hs] at hcallback
    exact hcallback
  · rw [hs] at hcallback
    simp only [createBindSuperClass, ne_eq, not_true_eq_false, if_false]
    refine bind_ne_error hcallback fun r _ => ?_
    exact bind_ne_error (appendSuperBlock_ne_null _ _ _ _ _) fun _ _ => by simp
  · rw [hs] at hchain
    simp at hchain

/--
**Which classes the generator gets through.**  For a class below `WrenClass` or below
one bound superclass, no missing entry is dereferenced, namespace, guard and extern
file are its own and no missing file is read, if and only if it has a constructor of
its own or a static method to note its module, no function has the key of a
variable, and a module that is read back is the one just written.
-/
theorem completes_iff (cfg : Config) (C : LocalClass) (hchain : C.supers.length ≤ 1) :
    Completes cfg C ↔ Completable cfg C := by
  constructor
  · intro h
    obtain ⟨cpp, header, n, hunit, -⟩ := h.derived
    rw [className_eq] at hunit
    have hok := genUnit_succeeds_iff.mp ⟨_, hunit⟩
    refine ⟨hok.1, hok.2, fun hs => ?_⟩
    by_contra hne
    -- all directories are there, but no file
    have hin : ∀ {d : Location} {ds : List Location}, d ∈ ds →
        FileSystem.isDirectory { dirs := ds, files := [] } d = true := by
      intro d ds hd
      rw [FileSystem.isDirectory, Bool.or_eq_true]
      exact Or.inr (List.any_eq_true.mpr ⟨d, hd, by simp⟩)
    obtain ⟨u, fs₁, hgen, hdirs⟩ := @genContent_succeeds cfg C ⟨_, hunit⟩
      { dirs := [(resolve cfg.cwd (unitFile cfg C.toClassDecl ".cpp")).dropLast,
                  (resolve cfg.cwd (unitFile cfg C.toClassDecl ".h")).dropLast,
                  (resolve cfg.cwd (writerFile cfg C.toClassDecl)).dropLast,
                  resolve cfg.cwd (cutModule cfg (superModule C.toClassDecl)).1]
        files := [] }
      (hin (by simp)) (hin (by simp)) (hin (by simp))
    obtain ⟨block, hget⟩ := getContent_genContent hgen (superModule C.toClassDecl)
    have hne : resolve cfg.cwd (externFile cfg (superModule C.toClassDecl))
        ≠ resolve cfg.cwd (writerFile cfg C.toClassDecl) := hne
    rw [if_neg hne] at hget
    obtain ⟨buf, hbuf⟩ := h.superRead hs _ u fs₁ hgen
    refine readModule_fails ?_ hget buf hbuf
    rw [FileSystem.isDirectory, hdirs]
    exact hin (by simp)
  · intro h
    obtain ⟨⟨cpp, header, n⟩, hunit⟩ := h.genUnit
    obtain ⟨hincludes, hns, -⟩ := genUnit_ok hunit
    refine ⟨h.createBindInclude_ne_null hchain, ⟨cpp, header, n, ?_, hns, ?_, ?_⟩, ?_⟩
    · rw [className_eq]
      exact hunit
    · exact genUnit_guard hunit
    · rw [hincludes, List.headD_cons]
    · intro hs fs u fs₁ hgen
      obtain ⟨block, hget⟩ := getContent_genContent hgen (superModule C.toClassDecl)
      have hsame : resolve cfg.cwd (externFile cfg (superModule C.toClassDecl))
          = resolve cfg.cwd (writerFile cfg C.toClassDecl) := h.superRead hs
      rw [if_pos hsame] at hget
      exact readModule_succeeds hget

end Class

namespace Sample

/-- `MyClass` has a constructor, and its package is a single segment. -/
theorem completes_myClass : Completes config myClass := by
  refine (completes_iff config myClass (by decide)).mpr ⟨by decide, ?_, fun _ => ?_⟩
  · have hall : ∀ e ∈ myClass.entries, e.published = true →
        (myClass.lastMember e.key).all (fun m => m.access ≠ .variable_) = true := by decide
    intro e he hpub m hm
    simpa [hm] using hall e he hpub
  · rw [superReadFile_of_short (by decide)]

/-- `myclass.Tool`, with a method but no constructor of its own. -/
def tool : LocalClass := topClass [myclass] (typeName "Tool") [method addName 2]

/-- No module is noted for it, and the first one is asked for. -/
theorem tool_not_completes :
    ¬ Completes config tool ∧
      ∀ fs, createBindInclude 1 config tool Tables.empty fs = .error .nullAccess := by
  have hmodules : (registration config tool Tables.empty).bindCModules.keys = [] :=
    (registration_noModules config tool).mpr (by decide)
  have hunit : genUnit config.order tool.moduleName (className tool.toClassDecl)
      (registration config tool Tables.empty) = .error .nullAccess := by
    rw [genUnit, collectIncludes_registration, if_pos hmodules]
  constructor
  · intro h
    obtain ⟨cpp, header, n, hok, -⟩ := h.derived
    rw [hunit] at hok
    cases hok
  · intro fs
    show contentCallback config tool.toClassDecl (registration config tool Tables.empty) fs = _
    rw [contentCallback, genContent, hunit]
    rfl

end Sample

end Wrenegade
