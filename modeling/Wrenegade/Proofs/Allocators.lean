/-
The constructor of a class, in the four places its arity goes through.

The allocator of a class reads its arguments one after the other into a local, and
the local is called `value` every time.  `bindClass` installs the allocator unless
the name of the class has `static` in it.  The own extern block declares the
constructor with its arguments, but the block written while a subclass is built
takes the number from the ordinary fields of the class, where no constructor stands,
and always declares one without arguments.
-/
import Wrenegade.Proofs.Bodies

namespace Wrenegade

open Text Files Run

/-! ### What is asked for -/

/-- The slot a statement reads. -/
def Stmt.slotsRead : Stmt → List Nat
  | .argument _ slot => [slot]
  | .instance_ _ => [0]
  | .loadValue => [1]
  | _ => []

/-- The local a statement reads a slot into. -/
def Stmt.argumentNames : Stmt → List Text
  | .argument name _ => [name]
  | _ => []

/-- The slots the arguments of `__new` were read from; `origin` says it for every local. -/
def passedSlots (origin : Text → Option Nat) : List Stmt → List (Option Nat)
  | [] => []
  | .argument name slot :: rest => passedSlots (Function.update origin name (some slot)) rest
  | .dynamicArgument name :: rest =>
      passedSlots (Function.update origin name (origin "value")) rest
  | .newData params :: _ => params.map origin
  | _ :: rest => passedSlots origin rest

/-- The allocator reads slots 1 to `n` in order into distinct locals and passes them on in
that order. -/
structure ReadsArguments (f : CFunction) (n : Nat) : Prop where
  reads : f.body.flatMap Stmt.slotsRead = List.range' 1 n
  distinct : (f.body.flatMap Stmt.argumentNames).Nodup
  wellScoped : WellScoped [] f.body
  passes : passedSlots (fun _ => none) f.body = (List.range' 1 n).map some

/-- What a block starts with that declares a constructor with `n` parameters. -/
def constructHeader (className : Text) (n : Nat) : Text :=
  "foreign class " ++ className ++ " \x7b\n" ++ constructLine n

/-- A subclass of `S` that was built. -/
structure SubclassBuild (cfg : Config) (S : ClassDecl) where
  C : LocalClass
  supers : C.supers = [S]
  fuel : Nat
  before : FileSystem
  result : Generated
  run : createBindInclude fuel cfg C Tables.empty before = .ok result

/-- The block appended for the superclass: what follows the module read back. -/
def SubclassBuild.Appends {cfg : Config} {S : ClassDecl} (b : SubclassBuild cfg S)
    (block : Text) : Prop :=
  ∃ u fs₁ buf, genContent cfg b.C.toClassDecl (registration cfg b.C Tables.empty) b.before
      = .ok (u, fs₁) ∧
    readModule cfg (cutModule cfg (superModule b.C.toClassDecl)).1
      (cutModule cfg (superModule b.C.toClassDecl)).2 fs₁ = .ok buf ∧
    b.result.fs.getContent (resolve cfg.cwd (superWriteFile cfg b.C.toClassDecl))
      = some (buf ++ block)

/-- The class declares a public constructor with `n` arguments. -/
def ClassDecl.PublicConstructor (C : ClassDecl) (n : Nat) : Prop :=
  ∃ f ∈ C.fields, f.name.text = "new" ∧ f.kind = .fFun n ∧ .aPublic ∈ f.access

/-- The four places agree: the allocator, its line in `bindClass`, the own block in the files
`fs₁`, and the blocks written while subclasses were built. -/
structure ConstructorAgrees (cfg : Config) (S : LocalClass) (n : Nat) (u : GeneratedUnit)
    (fs₁ : FileSystem) (builds : List (SubclassBuild cfg S.toClassDecl)) : Prop where
  allocator : ∃ f, u.cpp.allocators = [f] ∧ ReadsArguments f n ∧ u.cpp.bindClass = [f.name]
  ownBlock : ∃ block, fs₁.getContent (resolve cfg.cwd (writerFile cfg S.toClassDecl)) = some block ∧
    constructHeader S.name.text n <+: block
  superBlocks : ∀ b ∈ builds, ∃ block, b.Appends block ∧ constructHeader S.name.text n <+: block

/-! ### The allocator -/

/-- All arguments are read into one local. -/
theorem argumentNames_allocator (cfg : Config) (C : ClassDecl) (n : Nat) :
    (allocator cfg C n).body.flatMap Stmt.argumentNames = List.replicate n ("value" : Text) := by
  have hparams : ∀ (ps : List Text) (k : Nat),
      ((ps.zipIdx k).flatMap fun a =>
        [Stmt.argument "value" (a.2 + 1), .dynamicArgument a.1]).flatMap Stmt.argumentNames
          = List.replicate ps.length ("value" : Text) := by
    intro ps
    induction ps with
    | nil => intro k; rfl
    | cons p ps ih =>
        intro k
        rw [List.zipIdx_cons, List.flatMap_cons, List.flatMap_append, ih (k + 1),
          List.length_cons, List.replicate_succ]
        rfl
  have h := hparams (params n) 0
  rw [length_params] at h
  show (([_] ++ _) ++ _ : List Stmt).flatMap Stmt.argumentNames = _
  rw [List.flatMap_append, List.flatMap_append, h]
  exact (List.append_nil _).trans (List.nil_append _)

/-- So the allocator compiles with one argument at most. -/
theorem wellScoped_allocator_iff (cfg : Config) (C : ClassDecl) (n : Nat) :
    WellScoped [] (allocator cfg C n).body ↔ n ≤ 1 := by
  constructor
  · intro h
    have hnodup := nodup_of_wellScoped List.nodup_nil h
    have hsub : ∀ body : List Stmt,
        (body.flatMap Stmt.argumentNames).Sublist (body.flatMap Stmt.declares) := by
      intro body
      induction body with
      | nil => exact List.Sublist.refl _
      | cons s body ih =>
          rw [List.flatMap_cons, List.flatMap_cons]
          refine List.Sublist.append ?_ ih
          cases s with
          | argument name slot => exact List.Sublist.refl _
          | _ => exact List.nil_sublist _
    have hnames := hnodup.sublist (hsub _)
    rw [argumentNames_allocator, List.nodup_replicate] at hnames
    exact hnames
  · intro hn
    have hcases : n = 0 ∨ n = 1 := by omega
    have hone : params 1 = [("arg0" : Text)] := by decide
    rcases hcases with rfl | rfl
    · simp [allocator, params, WellScoped, Stmt.uses, Stmt.declares]
    · simp [allocator, hone, WellScoped, Stmt.uses, Stmt.declares]

theorem readsArguments_allocator (cfg : Config) (C : ClassDecl) (n : Nat) :
    ReadsArguments (allocator cfg C n) n ↔ n ≤ 1 := by
  rw [← wellScoped_allocator_iff cfg C n]
  refine ⟨fun h => h.wellScoped, fun h => ?_⟩
  have hn := (wellScoped_allocator_iff cfg C n).mp h
  refine ⟨?_, ?_, h, ?_⟩
  · rcases (by omega : n = 0 ∨ n = 1) with rfl | rfl <;> rfl
  · rw [argumentNames_allocator]
    exact List.nodup_replicate.mpr hn
  · rcases (by omega : n = 0 ∨ n = 1) with rfl | rfl <;> rfl

/-! ### The blocks -/

/-- The block printed for the superclass declares a constructor without arguments: none of
the ordinary fields is the constructor. -/
theorem constructorParamSize_inherited (cfg : Config) (C S : ClassDecl)
    (ancestors : List ClassDecl) (t : Tables) :
    (registerInherited cfg C S ancestors t).constructorParamSize = 0 := by
  have hfold : ∀ (fs : List ClassField) (s : Inherited), (∀ f ∈ fs, f.name.text ≠ "new") →
      s.constructorParamSize = 0 →
      (fs.foldl (registerInheritedField cfg C S.name.text) s).constructorParamSize = 0 := by
    intro fs
    induction fs with
    | nil => intro s _ hs; exact hs
    | cons f fs ih =>
        intro s hfs hs
        rw [List.foldl_cons]
        refine ih _ (fun g hg => hfs g (by simp [hg])) ?_
        rw [registerInheritedField]
        split
        · cases f.kind with
          | fMethod n =>
              show (if f.name.text = ("new" : Text) then n else s.constructorParamSize) = 0
              rw [if_neg (hfs f (by simp)), hs]
          | fVar => exact hs
        · exact hs
  refine hfold _ _ (fun f hf => ?_) rfl
  obtain ⟨g, hg, rfl⟩ := List.mem_map.mp hf
  have h := (List.mem_filter.mp hg).2
  simp only [Bool.and_eq_true, decide_eq_true_eq] at h
  exact h.2

/-- The block of a class with a constructor starts with its declaration. -/
theorem constructHeader_prefix (className : Text) (sigs : List Text) (n : Nat) :
    constructHeader className n <+: externBlock className sigs true n := by
  refine ⟨sigs.flatMap (externLine className) ++ "\x7d\n", ?_⟩
  unfold constructHeader externBlock
  rw [if_pos rfl]
  simp only [List.append_assoc]

/-- Behind the opening parenthesis stand the arguments, and it is closed again. -/
theorem constructLine_append (n : Nat) (s : Text) :
    constructLine n ++ s
      = "\tconstruct new(" ++ (join (params n) ", " ++ ')' :: ("\x7b\x7d\n" ++ s)) := by
  unfold constructLine
  rw [List.append_assoc, List.append_assoc]
  rfl

theorem exists_join_params (n : Nat) : ∃ s, join (params (n + 1)) ", " = 'a' :: s := by
  rw [params_cons]
  cases (List.range n).map fun i => argName (i + 1) with
  | nil => exact ⟨_, rfl⟩
  | cons p ps => exact ⟨_, rfl⟩

/-- A block that declares a constructor without arguments declares no other. -/
theorem eq_zero_of_front {className : Text} {sigs : List Text} {n : Nat}
    (h : constructHeader className n <+: externBlock className sigs true 0) : n = 0 := by
  cases n with
  | zero => rfl
  | succ n =>
      exfalso
      obtain ⟨rest, h⟩ := h
      unfold constructHeader externBlock at h
      rw [if_pos rfl] at h
      simp only [List.append_assoc, List.append_cancel_left_eq, constructLine_append] at h
      obtain ⟨s, hs⟩ := exists_join_params n
      rw [hs] at h
      have hnil : join (params 0) ", " = [] := rfl
      rw [hnil, List.nil_append, List.cons_append] at h
      exact absurd (List.cons.inj h).1 (by decide)

/-! ### The four places -/

section Agreement

variable {cfg : Config} {S : LocalClass} {n : Nat} {u : GeneratedUnit} {fs fs₁ : FileSystem}

/-- The one field called `new` is what is bound as the constructor, if anything is. -/
theorem ClassDecl.PublicConstructor.constructors {C : ClassDecl} (h : C.PublicConstructor n) :
    C.constructors = [] ∨ C.constructors = [n] := by
  obtain ⟨f, hf, hname, hkind, -⟩ := h
  rcases constructors_cases C with hnil | ⟨m, hm⟩
  · exact Or.inl hnil
  · have hmem : m ∈ C.constructors := by
      rw [hm]
      exact List.mem_singleton_self m
    obtain ⟨g, hg, hmg⟩ := List.mem_flatMap.mp hmem
    obtain ⟨hgkind, -, hgname⟩ := mem_constructors.mp hmg
    have hfg : f = g := List.inj_on_of_nodup_map C.nodup hf hg (hname.trans hgname.symm)
    rw [hfg, hgkind] at hkind
    rw [hm, FieldType.fFun.inj hkind]
    exact Or.inr rfl

/-- `NULL` is no function of the unit. -/
theorem allocateTarget_eq_iff (cfg : Config) (C : ClassDecl) :
    allocateTarget cfg C = constructorName cfg C ↔ ¬ ("static" : Text) <:+: C.name.text := by
  unfold allocateTarget
  split
  · rename_i hstatic
    refine ⟨fun h => ?_, fun h => absurd hstatic h⟩
    have hlast := congrArg List.getLast? h
    have hnew : ("new" : Text).getLast? = some 'w' := by decide
    rw [constructorName, List.getLast?_append, hnew, Option.some_or] at hlast
    exact absurd hlast (by decide)
  · rename_i hstatic
    exact ⟨fun _ => hstatic, fun _ => rfl⟩

/-- The block written by the class's own run. -/
theorem ownBlock_genContent
    (h : genContent cfg S.toClassDecl (registration cfg S Tables.empty) fs = .ok (u, fs₁)) :
    ∃ sigs, fs₁.getContent (resolve cfg.cwd (writerFile cfg S.toClassDecl))
      = some (externBlock S.name.text sigs (decide (S.constructors ≠ []))
          (S.constructors.getLastD 0)) := by
  obtain ⟨m, sigs, fs₂, fs₃, hunit, -, -, -, -, -, hextern⟩ := genContent_ok h
  rw [className_eq] at hunit
  obtain ⟨-, -, hm⟩ := genUnit_constructor hunit
  rw [(genUnit_ok hunit).1, List.headD_cons] at hextern
  have hctor : ((registration cfg S Tables.empty).foreignConstructorDec ≠ []) ↔
      S.constructors ≠ [] := by
    rw [(registration_constructs cfg S).declared]
    split <;> simp [*]
  refine ⟨sigs, ?_⟩
  rw [genWrenExterns_ok hextern, writerFile, if_pos rfl, className_eq, hm, List.nil_append,
    decide_eq_decide.mpr hctor]

/-- The block appended while a subclass was built: always one without arguments. -/
theorem SubclassBuild.appends_iff (b : SubclassBuild cfg S.toClassDecl) :
    ∃ sigs, ∀ block, b.Appends block ↔ block = externBlock S.name.text sigs true 0 := by
  obtain ⟨-, fs₁, hgen, hend⟩ := createBindInclude_ok b.run
  rcases hend with ⟨hnil, -⟩ | ⟨S', hS', happend⟩
  · rw [b.supers] at hnil
    cases hnil
  · rw [b.supers, List.singleton_inj] at hS'
    subst hS'
    rw [constructorParamSize_inherited] at happend
    obtain ⟨buf, hbuf, hget⟩ := appendSuperBlock_ok happend
    have hfile := hget (resolve cfg.cwd (superWriteFile cfg b.C.toClassDecl))
    rw [superWriteFile, if_pos rfl] at hfile
    refine ⟨(registerInherited cfg b.C.toClassDecl S.toClassDecl []
      (registerFields cfg b.C.toClassDecl Tables.empty)).signatures, fun block => ⟨?_, ?_⟩⟩
    · rintro ⟨u', fs₁', buf', hgen', hbuf', hblock⟩
      rw [hgen, Except.ok.injEq, Prod.mk.injEq] at hgen'
      obtain ⟨-, rfl⟩ := hgen'
      rw [hbuf, Except.ok.injEq] at hbuf'
      subst hbuf'
      rw [superWriteFile, hfile, Option.some.injEq, List.append_cancel_left_eq] at hblock
      exact hblock.symm
    · rintro rfl
      exact ⟨_, fs₁, buf, hgen, hbuf, hfile⟩

/--
**When the four places agree.**  The allocator reads its arguments into distinct locals
and is installed, and every block declares the constructor with its arguments, if and
only if the constructor has no modifier but `public` and `override`, takes at most one
argument, the class has no `static` in its name, and no subclass was built unless the
constructor takes none.
-/
theorem constructorAgrees_iff (hpublic : S.PublicConstructor n)
    (hown : genContent cfg S.toClassDecl (registration cfg S Tables.empty) fs = .ok (u, fs₁))
    (builds : List (SubclassBuild cfg S.toClassDecl)) :
    ConstructorAgrees cfg S n u fs₁ builds ↔
      S.constructors = [n] ∧ n ≤ 1 ∧ ¬ ("static" : Text) <:+: S.name.text ∧
        (n = 0 ∨ builds = []) := by
  obtain ⟨m, -, -, -, hunit, -⟩ := genContent_ok hown
  rw [className_eq] at hunit
  obtain ⟨hallocators, hbindClass, -⟩ := genUnit_constructor hunit
  obtain ⟨sigs, hblock⟩ := ownBlock_genContent hown
  constructor
  · intro h
    obtain ⟨f, hf, hreads, hinstalled⟩ := h.allocator
    have hctor : S.constructors = [n] := by
      rcases hpublic.constructors with hnil | hn
      · rw [hnil] at hallocators
        rw [hallocators] at hf
        cases hf
      · exact hn
    rw [hctor, List.map_singleton] at hallocators hbindClass
    rw [hallocators, List.singleton_inj] at hf
    subst hf
    rw [hbindClass, List.singleton_inj] at hinstalled
    refine ⟨hctor, (readsArguments_allocator _ _ _).mp hreads,
      (allocateTarget_eq_iff _ _).mp hinstalled, ?_⟩
    cases builds with
    | nil => exact Or.inr rfl
    | cons b builds =>
        obtain ⟨block, happends, hfront⟩ := h.superBlocks b List.mem_cons_self
        obtain ⟨sigs', hblocks⟩ := b.appends_iff
        rw [(hblocks block).mp happends] at hfront
        exact Or.inl (eq_zero_of_front hfront)
  · rintro ⟨hctor, hn, hstatic, hbuilds⟩
    rw [hctor, List.map_singleton] at hallocators hbindClass
    refine ⟨⟨_, hallocators, (readsArguments_allocator _ _ _).mpr hn, ?_⟩, ?_, ?_⟩
    · rw [hbindClass, (allocateTarget_eq_iff _ _).mpr hstatic]
      rfl
    · refine ⟨_, hblock, ?_⟩
      rw [hctor]
      exact constructHeader_prefix _ _ _
    · intro b hb
      obtain ⟨sigs', hblocks⟩ := b.appends_iff
      refine ⟨_, (hblocks _).mpr rfl, ?_⟩
      rcases hbuilds with rfl | rfl
      · exact constructHeader_prefix _ _ _
      · cases hb

end Agreement

namespace Sample

/-- The directories the two classes of `myclass` are written to. -/
def moduleDirs : FileSystem :=
  (noFiles.createDirectory (resolve config.cwd (bindCPath config mySuperClass.toClassDecl)))
    |>.createDirectory (resolve config.cwd (bindCPath config myClass.toClassDecl))

/-- `MySuperClass` has a constructor without arguments, also after `MyClass` was built. -/
theorem constructorAgrees_mySuperClass :
    ∃ u fs₁, ∃ b : SubclassBuild config mySuperClass.toClassDecl, b.C = myClass ∧
      ConstructorAgrees config mySuperClass 0 u fs₁ [b] := by
  have hown : holds (fun _ => true) (genContent config mySuperClass.toClassDecl
    (registration config mySuperClass Tables.empty) moduleDirs) := by decide +kernel
  have hbuild : holds (fun _ => true)
    (createBindInclude 1 config myClass Tables.empty moduleDirs) := by decide +kernel
  obtain ⟨⟨u, fs₁⟩, hown, -⟩ := exists_of_holds hown
  obtain ⟨r, hrun, -⟩ := exists_of_holds hbuild
  refine ⟨u, fs₁, ⟨myClass, rfl, 1, moduleDirs, r, hrun⟩, rfl, ?_⟩
  refine (constructorAgrees_iff ⟨newMethod, ?_, ?_, rfl, ?_⟩ hown _).mpr ⟨?_, ?_, ?_, Or.inl rfl⟩
  · exact List.mem_cons_of_mem _ List.mem_cons_self
  · rfl
  · exact List.mem_singleton_self _
  · rfl
  · exact Nat.zero_le 1
  · decide

/-- `myclass.Vector`, whose constructor takes two arguments. -/
def vector : LocalClass :=
  topClass [myclass] (typeName "Vector") [method newMethod.name 2] (List.nodup_singleton _)

/-- Its allocator reads both arguments into one local. -/
theorem vector_not_constructorAgrees :
    vector.PublicConstructor 2 ∧
      ∃ fs u fs₁, genContent config vector.toClassDecl (registration config vector Tables.empty) fs
          = .ok (u, fs₁) ∧
        ∀ builds, ¬ ConstructorAgrees config vector 2 u fs₁ builds := by
  refine ⟨⟨method newMethod.name 2, List.mem_cons_self, rfl, rfl, List.mem_singleton_self _⟩, ?_⟩
  have hgen : holds (fun _ => true) (genContent config vector.toClassDecl
    (registration config vector Tables.empty)
    (noFiles.createDirectory (resolve config.cwd (bindCPath config vector.toClassDecl)))) := by
      decide +kernel
  obtain ⟨⟨u, fs₁⟩, hgen, -⟩ := exists_of_holds hgen
  refine ⟨_, u, fs₁, hgen, fun builds h => ?_⟩
  obtain ⟨m, -, -, -, hunit, -⟩ := genContent_ok hgen
  obtain ⟨hallocators, -⟩ := genUnit_constructor (C := vector) hunit
  obtain ⟨f, hf, hreads, -⟩ := h.allocator
  rw [hallocators] at hf
  have hf : allocator config vector.toClassDecl 2 = f := (List.cons.inj hf).1
  rw [← hf, readsArguments_allocator] at hreads
  exact absurd hreads (by decide)

end Sample

end Wrenegade
