/-
What one run of the macro leaves behind.

Every function that can fail gets one lemma here saying what it did when it
succeeded: which files it wrote, which tables it filled, which unit it made.  The
run of a class comes apart into `createPath`, registration, content generation
and, for a class with a bound superclass, one more block in a Wren module.

Two facts about the whole follow.  A class with two bound classes above it never
completes, because the recursion along the superclass passes the same class on.
And the unit of a class is a function of the class and the configuration alone:
`createPath` ends with a reset, so nothing of an earlier class is left when
registration starts.
-/
import Wrenegade.Lib.Run
import Wrenegade.Proofs.Registration

namespace Wrenegade

open Text Files Run

/-! ### Files -/

theorem saveContent_ok {cfg : Config} {path content : Text} {fs fs' : FileSystem}
    (h : saveContent cfg path content fs = .ok fs') (l : Location) :
    fs'.getContent l = if l = resolve cfg.cwd path then some content else fs.getContent l := by
  rw [saveContent] at h
  split at h
  · rename_i hsave
    rw [Except.ok.injEq] at h
    subst h
    exact FileSystem.getContent_saveContent hsave l
  · simp at h

theorem extension_wren : Extension ".wren" := by constructor <;> decide
theorem extension_cpp : Extension ".cpp" := by constructor <;> decide
theorem extension_h : Extension ".h" := by constructor <;> decide
theorem extension_xml : Extension ".xml" := by constructor <;> decide

/-- Writing one kind of file leaves the files of the other kinds alone. -/
theorem getContent_saveContent_of_extension {cfg : Config} {path content ext ext' : Text}
    {fs fs' : FileSystem} (hext : Extension ext) (hext' : Extension ext')
    (hne : ext'.getLast? ≠ ext.getLast?)
    (h : saveContent cfg (path ++ ext) content fs = .ok fs') (path' : Text) :
    fs'.getContent (resolve cfg.cwd (path' ++ ext')) =
      fs.getContent (resolve cfg.cwd (path' ++ ext')) := by
  rw [saveContent_ok h, if_neg (resolve_ne_of_extension hext' hext hne _ _ _)]

/-- The Wren file of a module text. -/
def externFile (cfg : Config) (module_ : Text) : Text :=
  wrenFile (cutModule cfg module_).1 (cutModule cfg module_).2

theorem genWrenExterns_ok {cfg : Config} {buf className module_ : Text} {sigs : List Text}
    {ctor : Bool} {n : Nat} {fs fs' : FileSystem}
    (h : genWrenExterns cfg buf className module_ sigs ctor n fs = .ok fs') (l : Location) :
    fs'.getContent l =
      if l = resolve cfg.cwd (externFile cfg module_) then
        some (buf ++ externBlock className sigs ctor n)
      else fs.getContent l := by
  rw [genWrenExterns] at h
  simp only at h
  have hsame : ∀ d, (if fs.exists_ d then fs else fs.createDirectory d).getContent l
      = fs.getContent l := by
    intro d
    split <;> rfl
  rw [saveContent_ok h l, hsame]
  rfl

/-- Its directory is there afterwards. -/
theorem genWrenExterns_dir {cfg : Config} {buf className module_ : Text} {sigs : List Text}
    {ctor : Bool} {n : Nat} {fs fs' : FileSystem}
    (h : genWrenExterns cfg buf className module_ sigs ctor n fs = .ok fs') :
    fs'.isDirectory (resolve cfg.cwd (externFile cfg module_)).dropLast = true := by
  rw [genWrenExterns] at h
  simp only [saveContent] at h
  split at h
  · rename_i hsave
    rw [Except.ok.injEq] at h
    subst h
    exact FileSystem.isDirectory_saveContent hsave
  · cases h

/-- The module is read back from the file the block is appended to. -/
theorem appendSuperBlock_ok {cfg : Config} {C : ClassDecl} {superClassName : Text}
    {sigs : List Text} {n : Nat} {fs fs' : FileSystem}
    (h : appendSuperBlock cfg C superClassName sigs n fs = .ok fs') :
    ∃ buf, readModule cfg (cutModule cfg (superModule C)).1 (cutModule cfg (superModule C)).2 fs
        = .ok buf ∧
      ∀ l, fs'.getContent l =
        if l = resolve cfg.cwd (externFile cfg (cutModule cfg (superModule C)).2) then
          some (buf ++ externBlock superClassName sigs true n)
        else fs.getContent l := by
  rw [appendSuperBlock] at h
  obtain ⟨buf, hbuf, h⟩ := bind_eq_ok.mp h
  exact ⟨buf, hbuf, genWrenExterns_ok h⟩

/-! ### Content generation -/

theorem genContent_ok {cfg : Config} {C : ClassDecl} {t : Tables} {fs fs' : FileSystem}
    {u : GeneratedUnit} (h : genContent cfg C t fs = .ok (u, fs')) :
    ∃ n signatures fs₁ fs₂,
      genUnit cfg.order C.moduleName (className C) t = .ok (u.cpp, u.header, n) ∧
      u.cppPath = bindCPath cfg C ++ "/" ++ className C ++ ".cpp" ∧
      u.headerPath = bindCPath cfg C ++ "/" ++ className C ++ ".h" ∧
      saveContent cfg u.cppPath u.cpp.text fs = .ok fs₁ ∧
      saveContent cfg u.headerPath u.header.text fs₁ = .ok fs₂ ∧
      t.foreignFuncsDec.map (fun func => t.bindSignatureMap.lookup (funcSig func))
        = signatures.map some ∧
      genWrenExterns cfg [] (className C)
        (externModule (u.cpp.includes.headD []) (className C)) signatures
        (decide (t.foreignConstructorDec ≠ [])) n fs₂ = .ok fs' := by
  rw [genContent] at h
  obtain ⟨⟨cpp, header, n⟩, hunit, h⟩ := bind_eq_ok.mp h
  obtain ⟨fs₁, hcpp, h⟩ := bind_eq_ok.mp h
  obtain ⟨fs₂, hheader, h⟩ := bind_eq_ok.mp h
  obtain ⟨signatures, hsigs, h⟩ := bind_eq_ok.mp h
  obtain ⟨fs₃, hextern, h⟩ := bind_eq_ok.mp h
  simp only [Except.ok.injEq, Prod.mk.injEq] at h
  obtain ⟨rfl, rfl⟩ := h
  refine ⟨n, signatures, fs₁, fs₂, hunit, rfl, rfl, hcpp, hheader, ?_, hextern⟩
  refine map_eq_of_mapM (fun func sig hf => ?_) hsigs
  split at hf
  · rename_i g hg
    rw [Except.ok.injEq] at hf
    rw [hg, hf]
  · cases hf

/-! ### The superclass path -/

/-- The recursion along the superclass does not end: it passes the same superclass on. -/
theorem createBindSuperClass_deep {cfg : Config} {C S : ClassDecl} {ancestors : List ClassDecl}
    (hdeep : ancestors ≠ []) (cb : Tables → FileSystem → Except GenError Generated) :
    ∀ (fuel : Nat) (t : Tables) (fs : FileSystem),
      createBindSuperClass cfg C S ancestors cb fuel t fs = .error .outOfFuel := by
  intro fuel
  induction fuel with
  | zero => intro t fs; rfl
  | succ fuel ih =>
      intro t fs
      rw [createBindSuperClass]
      simp only [if_pos hdeep, ih]
      rfl

/-- What a completed `createBindInclude` did. -/
theorem createBindInclude_ok {fuel : Nat} {cfg : Config} {C : LocalClass} {t : Tables}
    {fs : FileSystem} {r : Generated} (h : createBindInclude fuel cfg C t fs = .ok r) :
    r.tables = registration cfg C t ∧
    ∃ fs₁, genContent cfg C.toClassDecl (registration cfg C t) fs = .ok (r.unit_, fs₁) ∧
      ((C.supers = [] ∧ r.fs = fs₁) ∨
        ∃ S, C.supers = [S] ∧
          appendSuperBlock cfg C.toClassDecl S.name.text
            (registerInherited cfg C.toClassDecl S [] (registerFields cfg C.toClassDecl t)).signatures
            (registerInherited cfg C.toClassDecl S []
              (registerFields cfg C.toClassDecl t)).constructorParamSize fs₁ = .ok r.fs) := by
  have hcallback : ∀ {t' : Tables} {r' : Generated},
      contentCallback cfg C.toClassDecl t' fs = .ok r' →
        r'.tables = t' ∧ genContent cfg C.toClassDecl t' fs = .ok (r'.unit_, r'.fs) := by
    intro t' r' h
    rw [contentCallback] at h
    obtain ⟨⟨u, fs₁⟩, hgen, h⟩ := bind_eq_ok.mp h
    rw [Except.ok.injEq] at h
    subst h
    exact ⟨rfl, hgen⟩
  rw [createBindInclude] at h
  cases hs : C.supers with
  | nil =>
      rw [hs] at h
      obtain ⟨ht, hgen⟩ := hcallback h
      simp only [registration, hs]
      exact ⟨ht, r.fs, hgen, Or.inl ⟨trivial, rfl⟩⟩
  | cons S ancestors =>
      rw [hs] at h
      cases ancestors with
      | cons A as =>
          simp only at h
          rw [createBindSuperClass_deep (by simp)] at h
          cases h
      | nil =>
          cases fuel with
          | zero =>
              simp only [createBindSuperClass] at h
              cases h
          | succ fuel =>
              simp only [createBindSuperClass] at h
              obtain ⟨r₀, hr₀, h⟩ := bind_eq_ok.mp h
              obtain ⟨fs', hfs', h⟩ := bind_eq_ok.mp h
              obtain ⟨ht, hgen⟩ := hcallback hr₀
              rw [Except.ok.injEq] at h
              subst h
              simp only [registration, hs]
              exact ⟨ht, r₀.fs, hgen, Or.inr ⟨S, rfl, hfs'⟩⟩

/-! ### One class -/

/-- What a completed `createPath` did. -/
theorem createPath_ok {cfg : Config} {C : ClassDecl} {g p : Gen}
    (h : createPath cfg C g = .ok p) :
    p.modules = g.modules ++ [modulePath cfg C] ∧
    p.packSigs = p.modules.foldl addPackSig g.packSigs ∧
    p.bindings = some (genBindings cfg p.modules p.packSigs) ∧
    p.tables = Tables.empty ∧ p.units = g.units ∧
    ∀ path, p.fs.getContent (resolve cfg.cwd (path ++ ".wren")) =
      g.fs.getContent (resolve cfg.cwd (path ++ ".wren")) := by
  rw [createPath] at h
  obtain ⟨fs₁, hxml, h⟩ := bind_eq_ok.mp h
  obtain ⟨fs₂, hheader, h⟩ := bind_eq_ok.mp h
  obtain ⟨fs₃, hcpp, h⟩ := bind_eq_ok.mp h
  rw [Except.ok.injEq] at h
  subst h
  refine ⟨rfl, rfl, rfl, rfl, rfl, fun path => ?_⟩
  have hsplit : ∀ name ext : Text, cfg.bindingsDir ++ (name ++ ext)
      = (cfg.bindingsDir ++ name) ++ ext := fun _ _ => (List.append_assoc _ _ _).symm
  rw [show ("/wren_bindings.xml" : Text) = "/wren_bindings" ++ ".xml" by decide, hsplit] at hxml
  rw [show ("/wren_bindings.h" : Text) = "/wren_bindings" ++ ".h" by decide, hsplit] at hheader
  rw [show ("/wren_bindings.cpp" : Text) = "/wren_bindings" ++ ".cpp" by decide, hsplit] at hcpp
  have hdirs : ∀ (ms : List Text) (fs : FileSystem) (l : Location),
      (ms.foldl (makeModuleDir cfg) fs).getContent l = fs.getContent l := by
    intro ms
    induction ms with
    | nil => intro fs l; rfl
    | cons m ms ih => intro fs l; rw [List.foldl_cons, ih]; rfl
  have hwren := extension_wren
  rw [getContent_saveContent_of_extension extension_cpp hwren (by decide) hcpp,
    getContent_saveContent_of_extension extension_h hwren (by decide) hheader,
    getContent_saveContent_of_extension extension_xml hwren (by decide) hxml,
    FileSystem.getContent_createDirectory, hdirs]

/-- What a completed run of the macro did. -/
theorem bind_ok {fuel : Nat} {cfg : Config} {g g' : Gen} {C : LocalClass}
    (h : bind fuel cfg g C = .ok g') :
    ∃ p r, createPath cfg C.toClassDecl g = .ok p ∧
      createBindInclude fuel cfg C Tables.empty p.fs = .ok r ∧
      g' = { p with tables := r.tables, fs := r.fs, units := g.units ++ [r.unit_] } := by
  rw [bind] at h
  obtain ⟨p, hp, h⟩ := bind_eq_ok.mp h
  obtain ⟨r, hr, h⟩ := bind_eq_ok.mp h
  obtain ⟨-, -, -, htables, hunits, -⟩ := createPath_ok hp
  rw [htables] at hr
  rw [hunits, Except.ok.injEq] at h
  exact ⟨p, r, hp, hr, h.symm⟩

/-- The file of a unit. -/
def unitFile (cfg : Config) (C : ClassDecl) (ext : Text) : Text :=
  bindCPath cfg C ++ "/" ++ C.name.text ++ ext

/-- A run appends one unit, made from the tables that registration fills from nothing, and
its two files are there afterwards. -/
theorem bind_unit {fuel : Nat} {cfg : Config} {g g' : Gen} {C : LocalClass}
    (h : bind fuel cfg g C = .ok g') :
    ∃ u n, g'.units = g.units ++ [u] ∧
      genUnit cfg.order C.moduleName C.name.text (registration cfg C Tables.empty)
        = .ok (u.cpp, u.header, n) ∧
      u.cppPath = unitFile cfg C.toClassDecl ".cpp" ∧
      u.headerPath = unitFile cfg C.toClassDecl ".h" ∧
      g'.fs.getContent (resolve cfg.cwd (unitFile cfg C.toClassDecl ".cpp")) = some u.cpp.text ∧
      g'.fs.getContent (resolve cfg.cwd (unitFile cfg C.toClassDecl ".h"))
        = some u.header.text := by
  obtain ⟨p, r, -, hr, rfl⟩ := bind_ok h
  obtain ⟨-, fs₁, hgen, hend⟩ := createBindInclude_ok hr
  obtain ⟨n, signatures, fs₂, fs₃, hunit, hcppPath, hheaderPath, hcpp, hheader, -, hextern⟩ :=
    genContent_ok hgen
  rw [className_eq] at hunit hcppPath hheaderPath
  refine ⟨r.unit_, n, rfl, hunit, hcppPath, hheaderPath, ?_⟩
  -- the Wren module is the only file written after the two of the unit
  have hkeep : ∀ ext : Text, Extension ext → ext.getLast? ≠ some 'n' → ∀ path : Text,
      r.fs.getContent (resolve cfg.cwd (path ++ ext))
        = fs₃.getContent (resolve cfg.cwd (path ++ ext)) := by
    intro ext hext hn path
    have hne : ∀ path', resolve cfg.cwd (path ++ ext) ≠ resolve cfg.cwd (externFile cfg path') :=
      fun path' => resolve_ne_of_extension hext extension_wren hn _ _ _
    have hmid : fs₁.getContent (resolve cfg.cwd (path ++ ext))
        = fs₃.getContent (resolve cfg.cwd (path ++ ext)) := by
      rw [genWrenExterns_ok hextern, if_neg (hne _)]
    rcases hend with ⟨-, hfs⟩ | ⟨S, -, happend⟩
    · rw [hfs, hmid]
    · obtain ⟨buf, -, hget⟩ := appendSuperBlock_ok happend
      rw [hget, if_neg (hne _), hmid]
  rw [hcppPath] at hcpp
  rw [hheaderPath] at hheader
  constructor
  · rw [unitFile, hkeep ".cpp" extension_cpp (by decide),
      getContent_saveContent_of_extension extension_h extension_cpp (by decide) hheader,
      saveContent_ok hcpp, if_pos rfl]
  · rw [unitFile, hkeep ".h" extension_h (by decide), saveContent_ok hheader, if_pos rfl]

/-! ### Includes -/

@[simp] theorem bindCModules_pushNewFunc (t : Tables) (C : ClassDecl) (func : Text) :
    (t.pushNewFunc C func).bindCModules = t.bindCModules := by
  rw [Tables.pushNewFunc]
  split <;> rfl

@[simp] theorem bindCModules_setConstructor (t : Tables) (C : ClassDecl) (func : Text)
    (params : List Text) (cFuncName signature : Text) :
    (t.setConstructor C func params cFuncName signature).bindCModules
      = t.bindCModules.insert func C.moduleName := by
  simp only [Tables.setConstructor]
  split <;> rfl

/-- All modules noted for the includes are the one of the class. -/
theorem registration_modules {cfg : Config} {C : LocalClass} {k v : Text}
    (h : (registration cfg C Tables.empty).bindCModules.lookup k = some v) :
    v = C.moduleName := by
  have hinsert : ∀ {m : TextMap Text} {k' : Text}, (∀ k v, m.lookup k = some v → v = C.moduleName) →
      ∀ k v, (m.insert k' C.moduleName).lookup k = some v → v = C.moduleName := by
    intro m k' hm k v hk
    by_cases hkk : k = k'
    · subst hkk
      rw [AList.lookup_insert, Option.some.injEq] at hk
      exact hk.symm
    · rw [AList.lookup_insert_ne hkk] at hk
      exact hm k v hk
  refine registration_induction (f := ownEntries C.toClassDecl)
    (g := inheritedEntries C.toClassDecl)
    (P := fun _ t => ∀ k v, t.bindCModules.lookup k = some v → v = C.moduleName) ?_ ?_ ?_ k v h
  · intro _ t f _ ht
    rw [registerField]
    cases f.kind with
    | fProp => exact ht
    | fVar =>
        simp only [registerVar]
        split
        · exact ht
        · split
          · exact ht
          · exact ht
    | fFun n =>
        simp only
        cases hi : isInstanceAccess f.access with
        | true =>
            cases hn : isNew f.name.text with
            | true =>
                rw [registerFun_new _ _ n t hi hn, bindCModules_setConstructor]
                exact hinsert ht
            | false =>
                rw [registerFun_instance _ _ n t hi hn, bindCModules_pushNewFunc]
                exact ht
        | false =>
            cases hs : isExportedStatic f.access f.name.text with
            | true =>
                rw [registerFun_static _ _ n t hi hs, bindCModules_pushNewFunc]
                exact hinsert ht
            | false =>
                rw [registerFun_other cfg C.toClassDecl n t hi hs]
                split
                · exact hinsert ht
                · exact ht
  · intro _ name s f _ hs
    rw [registerInheritedField]
    split
    · cases f.kind <;> exact hs
    · exact hs
  · intro k v hk
    exact absurd hk (by simp [Tables.empty])

/-- The includes of a unit are its own module, when there are any. -/
theorem collectIncludes_registration (order : HashOrder) (cfg : Config) (C : LocalClass) :
    collectIncludes (order.values (registration cfg C Tables.empty).bindCModules)
      = if (registration cfg C Tables.empty).bindCModules.keys = [] then []
        else [C.moduleName] := by
  have hall : ∀ v ∈ order.values (registration cfg C Tables.empty).bindCModules,
      v = C.moduleName := by
    intro v hv
    obtain ⟨k, hk⟩ := (order.mem_values _).mp hv
    exact registration_modules hk
  have hempty : order.values (registration cfg C Tables.empty).bindCModules = [] ↔
      (registration cfg C Tables.empty).bindCModules.keys = [] := by
    rw [List.eq_nil_iff_forall_not_mem, List.eq_nil_iff_forall_not_mem]
    constructor
    · intro h k hk
      obtain ⟨v, hv⟩ := Option.isSome_iff_exists.mp (AList.lookup_isSome.mpr hk)
      exact h v ((order.mem_values _).mpr ⟨k, hv⟩)
    · intro h v hv
      obtain ⟨k, hk⟩ := (order.mem_values _).mp hv
      refine h k (AList.lookup_isSome.mp ?_)
      rw [hk]
      rfl
  have hconst : ∀ vs acc : List Text, (∀ v ∈ vs, v = C.moduleName) →
      (∀ v ∈ acc, v = C.moduleName) → acc ≠ [] →
      vs.foldl (fun includes inc => if inc ∈ includes then includes else includes ++ [inc]) acc
        = acc := by
    intro vs
    induction vs with
    | nil => intro acc _ _ _; rfl
    | cons v vs ih =>
        intro acc hv hacc hne
        obtain ⟨a, as, rfl⟩ := List.exists_cons_of_ne_nil hne
        have hmem : v ∈ a :: as := by
          rw [hv v (by simp), hacc a (by simp)]
          simp
        rw [List.foldl_cons, if_pos hmem]
        exact ih _ (fun w hw => hv w (by simp [hw])) hacc hne
  split
  · rename_i hkeys
    rw [hempty.mpr hkeys]
    rfl
  · rename_i hkeys
    obtain ⟨v, vs, hvs⟩ := List.exists_cons_of_ne_nil (fun h => hkeys (hempty.mp h))
    rw [hvs] at hall ⊢
    have hv := hall v (by simp)
    subst hv
    exact hconst vs [C.moduleName] (fun w hw => hall w (by simp [hw])) (by simp) (by simp)

/-- The order in which hash maps hand out their keys does not show in a unit. -/
theorem genUnit_order (order order' : HashOrder) (cfg : Config) (C : LocalClass)
    (moduleName className : Text) :
    genUnit order moduleName className (registration cfg C Tables.empty)
      = genUnit order' moduleName className (registration cfg C Tables.empty) := by
  rw [genUnit, genUnit, collectIncludes_registration, collectIncludes_registration]

theorem genFunction_ok {cModule func : Text} {t : Tables} {f : CFunction}
    (h : genFunction cModule t func = .ok f) : f.name = funcSig func := by
  rw [genFunction] at h
  simp only at h
  split at h
  · cases h
  · rw [Except.ok.injEq] at h
    rw [← h]
  · rw [Except.ok.injEq] at h
    rw [← h]

theorem genAllocator_ok {cModule func : Text} {t : Tables} {f : CFunction × Nat}
    (h : genAllocator cModule t func = .ok f) : f.1.name = funcSig func := by
  rw [genAllocator] at h
  simp only at h
  split at h
  · rw [Except.ok.injEq] at h
    rw [← h]
  · cases h

/-- What a unit that was made consists of. -/
theorem genUnit_ok {cfg : Config} {C : LocalClass} {cpp : CppUnit} {header : CppHeader} {n : Nat}
    (h : genUnit cfg.order C.moduleName C.name.text (registration cfg C Tables.empty)
      = .ok (cpp, header, n)) :
    let t := registration cfg C Tables.empty
    cpp.includes = [C.moduleName] ∧
    cpp.namespace_ = flatName C.moduleName ++ "_functions" ∧
    header.decs = t.foreignFuncsDec ∧
    cpp.functions.map CFunction.name = t.foreignFuncsDec.map funcSig ∧
    cpp.allocators.map CFunction.name = t.foreignConstructorDec.map funcSig ∧
    cpp.bindMethod = t.foreignFuncsDec.map fun func =>
      (interpolate (t.bindSignatureMap.lookup (funcSig func)), funcSig func) := by
  rw [genUnit, collectIncludes_registration] at h
  by_cases hkeys : (registration cfg C Tables.empty).bindCModules.keys = []
  · rw [if_pos hkeys] at h
    cases h
  · rw [if_neg hkeys] at h
    obtain ⟨functions, hfunctions, h⟩ := bind_eq_ok.mp h
    obtain ⟨allocators, hallocators, h⟩ := bind_eq_ok.mp h
    obtain ⟨targets, -, h⟩ := bind_eq_ok.mp h
    simp only [Except.ok.injEq, Prod.mk.injEq] at h
    obtain ⟨rfl, rfl, -⟩ := h
    refine ⟨rfl, rfl, rfl, ?_, ?_, rfl⟩
    · exact (map_eq_of_mapM (fun _ _ hf => (genFunction_ok hf).symm) hfunctions).symm
    · rw [List.map_map]
      exact (map_eq_of_mapM (fun _ _ hf => (genAllocator_ok hf).symm) hallocators).symm

theorem genUnit_guard {cfg : Config} {C : LocalClass} {cpp : CppUnit} {header : CppHeader}
    {n : Nat}
    (h : genUnit cfg.order C.moduleName C.name.text (registration cfg C Tables.empty)
      = .ok (cpp, header, n)) : header.guard = flatName C.moduleName := by
  rw [genUnit, collectIncludes_registration] at h
  by_cases hkeys : (registration cfg C Tables.empty).bindCModules.keys = []
  · rw [if_pos hkeys] at h
    cases h
  · rw [if_neg hkeys] at h
    obtain ⟨functions, -, h⟩ := bind_eq_ok.mp h
    obtain ⟨allocators, -, h⟩ := bind_eq_ok.mp h
    obtain ⟨targets, -, h⟩ := bind_eq_ok.mp h
    simp only [Except.ok.injEq, Prod.mk.injEq] at h
    rw [← h.2.1]

/-! ### Any history -/

/--
**The unit of a class does not depend on what was bound before it.**  Whatever ran
before, on whatever files, and in whatever order the hash maps hand out their
keys: the source and the header on disk are those of the unit made from the
tables that registration fills from nothing.
-/
theorem unit_history_independent (cfg : Config) (order₁ order₂ : HashOrder)
    (fuel₁ fuel₂ : Nat) (before₁ before₂ : List LocalClass) (C : LocalClass)
    (fs₁ fs₂ : FileSystem) {g₁ g₂ : Gen}
    (h₁ : bindAll fuel₁ { cfg with order := order₁ } (before₁ ++ [C]) (Gen.start fs₁) = .ok g₁)
    (h₂ : bindAll fuel₂ { cfg with order := order₂ } (before₂ ++ [C]) (Gen.start fs₂) = .ok g₂) :
    ∃ cpp header n,
      genUnit cfg.order C.moduleName C.name.text (registration cfg C Tables.empty)
        = .ok (cpp, header, n) ∧
      ∀ g, g = g₁ ∨ g = g₂ →
        g.fs.getContent (resolve cfg.cwd (unitFile cfg C.toClassDecl ".cpp")) = some cpp.text ∧
        g.fs.getContent (resolve cfg.cwd (unitFile cfg C.toClassDecl ".h")) = some header.text := by
  have hlast : ∀ (order : HashOrder) (fuel : Nat) (before : List LocalClass) (fs : FileSystem)
      (g : Gen), bindAll fuel { cfg with order } (before ++ [C]) (Gen.start fs) = .ok g →
      ∃ cpp header n,
        genUnit cfg.order C.moduleName C.name.text (registration cfg C Tables.empty)
          = .ok (cpp, header, n) ∧
        g.fs.getContent (resolve cfg.cwd (unitFile cfg C.toClassDecl ".cpp")) = some cpp.text ∧
        g.fs.getContent (resolve cfg.cwd (unitFile cfg C.toClassDecl ".h"))
          = some header.text := by
    intro order fuel before fs g h
    rw [bindAll, List.foldlM_append, bind_eq_ok] at h
    obtain ⟨mid, -, h⟩ := h
    simp only [List.foldlM_cons, List.foldlM_nil] at h
    obtain ⟨last, hlast, h⟩ := bind_eq_ok.mp h
    simp only [pure, Except.pure, Except.ok.injEq] at h
    subst h
    obtain ⟨u, n, -, hunit, -, -, hcpp, hheader⟩ := bind_unit hlast
    refine ⟨u.cpp, u.header, n, ?_, hcpp, hheader⟩
    rw [genUnit_order cfg.order order]
    exact hunit
  obtain ⟨cpp, header, n, hunit, hcpp₁, hheader₁⟩ := hlast order₁ fuel₁ before₁ fs₁ g₁ h₁
  obtain ⟨cpp', header', n', hunit', hcpp₂, hheader₂⟩ := hlast order₂ fuel₂ before₂ fs₂ g₂ h₂
  rw [hunit, Except.ok.injEq, Prod.mk.injEq, Prod.mk.injEq] at hunit'
  obtain ⟨rfl, rfl, rfl⟩ := hunit'
  refine ⟨cpp, header, n, hunit, ?_⟩
  rintro g (rfl | rfl)
  · exact ⟨hcpp₁, hheader₁⟩
  · exact ⟨hcpp₂, hheader₂⟩

/-! ### On the classes of the test -/

namespace Sample

def config : Config where
  cwd := "/test/"
  bindingsDir := "bindings"
  wrenlibpath := "/lib/wren"
  order := HashOrder.inserted
  cwd_absolute := by decide

/-- Before the first build there is nothing. -/
def noFiles : FileSystem := { dirs := [], files := [] }

def ident (text : Text) (wf : isIdent text = true := by decide) : Ident := ⟨text, wf⟩

def segment (text : Text) (wf : isIdent text = true := by decide)
    (lower : isLowerIdent text = true := by decide) : PackIdent := ⟨⟨text, wf⟩, lower⟩

def typeName (text : Text) (wf : isIdent text = true := by decide)
    (upper : isLowerIdent text = false := by decide) : TypeIdent := ⟨⟨text, wf⟩, upper⟩

def var (name : Ident) : Field := ⟨name, [.aPublic], .fVar⟩

def method (name : Ident) (args : Nat) : Field := ⟨name, [.aPublic], .fFun args⟩

def newMethod : Field := method (ident "new") 0

/-- The class of a module, directly below `WrenClass`. -/
def topClass (pack : List PackIdent) (name : TypeIdent) (fields : List Field)
    (nodup : (fields.map fun f => f.name.text).Nodup := by decide) : LocalClass where
  pack := pack
  moduleFile := name
  name := name
  fields := fields
  nodup := nodup
  supers := []
  distinct := List.nodup_singleton _

/-- One with nothing but a constructor. -/
def bareClass (pack : List PackIdent) (name : TypeIdent) : LocalClass :=
  topClass pack name [newMethod] (List.nodup_singleton _)

def myclass : PackIdent := segment "myclass"

/-- `myclass.subpack.Hello`. -/
def hello : LocalClass :=
  topClass [myclass, segment "subpack"] (typeName "Hello") [newMethod, method (ident "shout") 1]

/-- `myclass.MySuperClass`. -/
def mySuperClass : LocalClass :=
  topClass [myclass] (typeName "MySuperClass")
    [var (ident "superProp"), newMethod, method (ident "graphicsBeginFill") 2]

def addName : Ident := ident "add"

/-- `myclass.MyClass`, which extends the class above. -/
def myClass : LocalClass where
  toClassDecl := (topClass [myclass] (typeName "MyClass")
    [var (ident "prop"), newMethod, method addName 2, method (ident "callDyn") 1]).toClassDecl
  supers := [mySuperClass.toClassDecl]
  distinct := by decide

/-- `MyClass` gets the same unit as the first class of a build and after two others. -/
theorem unit_history_independent_myClass :
    ∃ g₁ g₂ cpp header n,
      bindAll 1 config ([] ++ [myClass]) (Gen.start noFiles) = .ok g₁ ∧
      bindAll 1 config ([hello, mySuperClass] ++ [myClass]) (Gen.start noFiles) = .ok g₂ ∧
      genUnit config.order myClass.moduleName myClass.name.text
        (registration config myClass Tables.empty) = .ok (cpp, header, n) ∧
      ∀ g, g = g₁ ∨ g = g₂ →
        g.fs.getContent (resolve config.cwd (unitFile config myClass.toClassDecl ".cpp"))
          = some cpp.text ∧
        g.fs.getContent (resolve config.cwd (unitFile config myClass.toClassDecl ".h"))
          = some header.text := by
  have hrun₁ : holds (fun _ => true) (bindAll 1 config ([] ++ [myClass]) (Gen.start noFiles)) :=
    by decide +kernel
  have hrun₂ : holds (fun _ => true)
      (bindAll 1 config ([hello, mySuperClass] ++ [myClass]) (Gen.start noFiles)) :=
    by decide +kernel
  obtain ⟨g₁, h₁, -⟩ := exists_of_holds hrun₁
  obtain ⟨g₂, h₂, -⟩ := exists_of_holds hrun₂
  obtain ⟨cpp, header, n, h⟩ := unit_history_independent config HashOrder.inserted
    HashOrder.inserted 1 1 [] [hello, mySuperClass] myClass noFiles noFiles h₁ h₂
  exact ⟨g₁, g₂, cpp, header, n, h₁, h₂, h⟩

end Sample

end Wrenegade
