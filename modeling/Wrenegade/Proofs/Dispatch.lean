/-
The two dispatchers.

`createPath` does not look at the class to find the branch it needs but decodes the
path text it has just stored: every `c/` is taken out, the slashes become
underscores, the class name is cut off the end, and for the module text the
underscores become slashes again.  On packages whose segments neither hold an
underscore nor end in `c` the decoding is the inverse of the encoding, and then
the dispatchers forward every bound class to the namespace of its unit and
anything else to nothing.
-/
import Wrenegade.Proofs.History

namespace Wrenegade

open Text Files HaxePath

/-! ### Looking up a branch -/

theorem dispatch_eq_some {table : DispatchTable} {module_ cls ns : Text}
    (hex : ∃ row ∈ table, row.1 = module_ ∧ ∃ e ∈ row.2, e.1 = cls)
    (hns : ∀ row ∈ table, row.1 = module_ → ∀ e ∈ row.2, e.1 = cls → e.2 = ns) :
    dispatch table module_ cls = some ns := by
  have hinner : ∀ row ∈ table, row.1 = module_ → ∀ x,
      (row.2.findSome? fun e => if cls = e.1 then some e.2 else none) = some x → x = ns := by
    intro row hrow hmod x hx
    obtain ⟨e, he, hsome⟩ := List.exists_of_findSome?_eq_some hx
    split at hsome
    · rename_i hcls
      rw [Option.some.injEq] at hsome
      rw [← hsome]
      exact hns row hrow hmod e he hcls.symm
    · cases hsome
  obtain ⟨x, hx⟩ : ∃ x, dispatch table module_ cls = some x := by
    obtain ⟨row, hrow, hmod, e, he, hcls⟩ := hex
    rw [← Option.isSome_iff_exists, dispatch, List.findSome?_isSome_iff]
    refine ⟨row, hrow, ?_⟩
    rw [if_pos hmod.symm, List.findSome?_isSome_iff]
    exact ⟨e, he, by rw [if_pos hcls.symm]; rfl⟩
  rw [hx]
  obtain ⟨row, hrow, hsome⟩ := List.exists_of_findSome?_eq_some hx
  split at hsome
  · rename_i hmod
    rw [hinner row hrow hmod.symm x hsome]
  · cases hsome

theorem dispatch_eq_none {table : DispatchTable} {module_ cls : Text}
    (h : ∀ row ∈ table, row.1 = module_ → ∀ e ∈ row.2, e.1 ≠ cls) :
    dispatch table module_ cls = none := by
  rw [dispatch, List.findSome?_eq_none_iff]
  intro row hrow
  split
  · rename_i hmod
    rw [List.findSome?_eq_none_iff]
    intro e he
    exact if_neg fun hcls => h row hrow hmod.symm e he hcls.symm
  · rfl

/-- The branches of the table made from the package table. -/
theorem mem_dispatchTable {order : HashOrder} {packSigs : TextMap (List Text)}
    {row : Text × List (Text × Text)} {e : Text × Text} :
    (row ∈ dispatchTable order packSigs ∧ e ∈ row.2) →
      ∃ sig cls, (∃ l, packSigs.lookup sig = some l ∧ cls ∈ l) ∧
        row.1 = packModule sig ∧ e = (cls, packNamespace sig cls) := by
  rintro ⟨hrow, he⟩
  obtain ⟨sig, -, rfl⟩ := List.mem_map.mp hrow
  obtain ⟨cls, hcls, rfl⟩ := List.mem_map.mp he
  cases hl : packSigs.lookup sig with
  | none => simp [hl] at hcls
  | some l => exact ⟨sig, cls, ⟨l, hl, by simpa [hl] using hcls⟩, rfl, rfl⟩

theorem mem_dispatchTable_of_lookup (order : HashOrder) {packSigs : TextMap (List Text)}
    {sig cls : Text} {l : List Text} (hl : packSigs.lookup sig = some l) (hcls : cls ∈ l) :
    ∃ row ∈ dispatchTable order packSigs, row.1 = packModule sig ∧
      (cls, packNamespace sig cls) ∈ row.2 := by
  have hkey : sig ∈ order.keys packSigs := by
    rw [order.mem_keys, ← AList.lookup_isSome, hl]
    rfl
  refine ⟨_, List.mem_map.mpr ⟨sig, hkey, rfl⟩, rfl, ?_⟩
  rw [hl]
  exact List.mem_map.mpr ⟨cls, hcls, rfl⟩

/-! ### Decoding -/

/-- A package the decoding gives back: not the root, no underscores, no segment ending in
`c`. -/
structure ClassDecl.Decodable (C : ClassDecl) : Prop where
  pack_ne_nil : C.pack ≠ []
  noUnderscore : ∀ p ∈ C.packTexts, '_' ∉ p
  noFinalC : ∀ p ∈ C.packTexts, p.getLast? ≠ some 'c'

section Class

variable {cfg : Config} {C : ClassDecl}

/-- Nothing in the file path of such a class looks like the C directory. -/
theorem replace_c_filePath (hC : ∀ p ∈ C.packTexts, p.getLast? ≠ some 'c') {b : Text} (new : Text) :
    replace C.filePath (b ++ "c/") new = C.filePath := by
  refine replace_of_not_infix (by simp) (fun hi => ?_) _
  exact not_infix_pair_join (by decide)
    (fun p hp => ⟨C.noSeparator C.moduleFile (by decide) (List.mem_append_left _ hp), hC p hp⟩)
    (C.moduleFile.not_mem (by decide)) ((List.suffix_append b _).isInfix.trans hi)

variable (cfg) in
theorem cpath_ends : ∃ b, cpath cfg = b ++ "c/" := by
  have hc : PlainName "c" := by constructor <;> decide
  obtain ⟨b, hb⟩ := join_ends cfg.bindingsDir hc
  exact ⟨b, by rw [cpath, hb, List.append_assoc]; rfl⟩

theorem modulePath_of_noFinalC (hC : ∀ p ∈ C.packTexts, p.getLast? ≠ some 'c') :
    modulePath cfg C = "c/" ++ C.filePath := by
  obtain ⟨b, hb⟩ := cpath_ends cfg
  rw [modulePath_eq, hb, replace_c_filePath hC]

variable (cfg) in
theorem moduleClass_of_noFinalC (hC : ∀ p ∈ C.packTexts, p.getLast? ≠ some 'c') :
    replace (modulePath cfg C) "c/" [] = C.filePath ∧
      moduleClass (modulePath cfg C) = C.moduleFile.text := by
  have hstrip : replace (modulePath cfg C) "c/" [] = C.filePath := by
    have hkeep := replace_c_filePath hC (b := []) []
    rw [List.nil_append] at hkeep
    rw [modulePath_of_noFinalC hC, replace_append_self (by simp), hkeep]
    exact List.nil_append _
  refine ⟨hstrip, ?_⟩
  have hsplit : split C.filePath "/" = C.packTexts ++ [C.moduleFile.text] :=
    split_join (by simp) fun p hp => C.noSeparator C.moduleFile (by decide) hp
  rw [moduleClass, hstrip, hsplit]
  simp

/-- The first character of a lower-case name without underscores starts no type name. -/
theorem not_prefix_segment {p n : Text} (hp : isLowerIdent p = true) (hu : '_' ∉ p)
    (hn0 : n ≠ []) (hn : isLowerIdent n = false) (s : Text) : ¬ n <+: p ++ s := by
  obtain ⟨d, ds, rfl⟩ := List.exists_cons_of_ne_nil hn0
  cases p with
  | nil => exact Bool.noConfusion hp
  | cons c cs =>
      intro hpre
      have hdc : d = c := (List.cons_prefix_cons.mp hpre).1
      have hne : c ≠ '_' := fun h => hu (by simp [h])
      rw [isLowerIdent, if_neg hne] at hp
      rw [hdc, isLowerIdent, if_neg hne, hp] at hn
      exact Bool.noConfusion hn

theorem moduleSig_of_decodable (hC : C.Decodable) :
    moduleSig (modulePath cfg C) = join C.packTexts "_" := by
  obtain ⟨hstrip, hclass⟩ := moduleClass_of_noFinalC cfg hC.noFinalC
  have hunder : replace C.filePath "/" "_" = join (C.packTexts ++ [C.moduleFile.text]) "_" :=
    replace_join (fun p hp => C.noSeparator C.moduleFile (by decide) hp) _
  rw [moduleSig, hclass, hstrip, hunder]
  exact replace_join_last ((C.packTexts_ne_nil_iff).mpr hC.pack_ne_nil) hC.noUnderscore
    fun p hp s => not_prefix_segment (C.lower_packTexts hp) (hC.noUnderscore p hp)
      C.moduleFile.ne_nil C.moduleFile.upper _

end Class

/-- A type path joined by underscores is read back when no segment holds one. -/
theorem join_typePath_inj (x y : TypeIdent) (ps qs : List Text)
    (hp : ∀ p ∈ ps, isLowerIdent p = true ∧ '_' ∉ p)
    (hq : ∀ q ∈ qs, isLowerIdent q = true ∧ '_' ∉ q)
    (h : join (ps ++ [x.text]) "_" = join (qs ++ [y.text]) "_") :
    ps ++ [x.text] = qs ++ [y.text] := by
  induction ps generalizing qs with
  | nil =>
      cases qs with
      | nil => simpa using h
      | cons q qs =>
          rw [List.nil_append, join_singleton, List.cons_append, join_cons (by simp),
            List.append_assoc] at h
          have hpre : x.text <+: q ++ ("_" ++ join (qs ++ [y.text]) "_") := by rw [h]
          obtain ⟨hlower, hunder⟩ := hq q (by simp)
          exact absurd hpre (not_prefix_segment hlower hunder x.ne_nil x.upper _)
  | cons p ps ih =>
      obtain ⟨hlower, hunder⟩ := hp p (by simp)
      cases qs with
      | nil =>
          rw [List.nil_append, join_singleton, List.cons_append, join_cons (by simp),
            List.append_assoc] at h
          have hpre : y.text <+: p ++ ("_" ++ join (ps ++ [x.text]) "_") := by rw [h]
          exact absurd hpre (not_prefix_segment hlower hunder y.ne_nil y.upper _)
      | cons q qs =>
          rw [List.cons_append, List.cons_append, join_cons (by simp), join_cons (by simp),
            List.append_assoc, List.append_assoc] at h
          obtain ⟨hpq, hrest⟩ := append_cons_inj hunder (hq q (by simp)).2 h
          rw [hpq, List.cons_append, List.cons_append, ih qs (fun r hr => hp r (by simp [hr]))
            (fun r hr => hq r (by simp [hr])) hrest]

/-! ### The dispatchers after a run -/

/-- What a Wren program imports to get at a class. -/
def importPath (C : ClassDecl) : Text := "foreign/" ++ join C.packTexts "/"

/-- The dispatcher knows the bound classes, each by its own namespace, and nothing else. -/
structure DispatchesExactly (cs : List LocalClass) (units : List GeneratedUnit)
    (table : DispatchTable) : Prop where
  forwards : List.Forall₂ (fun C u =>
    dispatch table (importPath C.toClassDecl) C.name.text = some u.cpp.namespace_) cs units
  apart : ∀ C ∈ cs, ∀ D ∈ cs, C.moduleName ≠ D.moduleName →
    (importPath C.toClassDecl, C.name.text) ≠ (importPath D.toClassDecl, D.name.text) ∧
      dispatch table (importPath C.toClassDecl) C.name.text
        ≠ dispatch table (importPath D.toClassDecl) D.name.text
  defined : ∀ row ∈ table, ∀ e ∈ row.2, ∃ u ∈ units, u.cpp.namespace_ = e.2
  nothingElse : ∀ module_ cls,
    (∀ C ∈ cs, ¬ (module_ = importPath C.toClassDecl ∧ cls = C.name.text)) →
      dispatch table module_ cls = none

section Decodable

variable {C D : ClassDecl}

theorem packModule_of_decodable (hC : C.Decodable) :
    packModule (join C.packTexts "_") = importPath C := by
  show "foreign/" ++ replace (join C.packTexts ['_']) ['_'] "/" = "foreign/" ++ join C.packTexts "/"
  rw [replace_join hC.noUnderscore]

theorem packNamespace_of_decodable (hC : C.Decodable) :
    packNamespace (join C.packTexts "_") C.name.text = flatName C.moduleName ++ "_functions" := by
  have hne : C.packTexts ≠ [] := (C.packTexts_ne_nil_iff).mpr hC.pack_ne_nil
  rw [packNamespace, C.flatName_moduleName, join_concat hne]

/-- The import path of a decodable class gives its package back. -/
theorem packTexts_of_importPath (hC : C.Decodable) (hD : D.Decodable)
    (h : importPath C = importPath D) : C.packTexts = D.packTexts := by
  have hsplit : ∀ E : ClassDecl, E.Decodable → split (join E.packTexts "/") "/" = E.packTexts :=
    fun E hE => split_join ((E.packTexts_ne_nil_iff).mpr hE.pack_ne_nil)
      fun p hp => E.noDot_packTexts hp (by decide)
  rw [← hsplit C hC, ← hsplit D hD, List.append_cancel_left h]

/-- So does the namespace, which starts with the package. -/
theorem flatName_inj (hC : C.Decodable) (hD : D.Decodable)
    (h : flatName C.moduleName = flatName D.moduleName) : C.moduleName = D.moduleName := by
  rw [C.flatName_moduleName, D.flatName_moduleName] at h
  have hseg : ∀ E : ClassDecl, E.Decodable → ∀ p ∈ E.packTexts, isLowerIdent p = true ∧ '_' ∉ p :=
    fun E hE p hp => ⟨E.lower_packTexts hp, hE.noUnderscore p hp⟩
  rw [ClassDecl.moduleName, ClassDecl.moduleName, join_typePath_inj C.name D.name _ _ (hseg C hC)
    (hseg D hD) h]

end Decodable

section Run

variable {cfg : Config} {cs : List LocalClass} {g : Gen}

/-- Every branch belongs to a class of the run. -/
theorem Recorded.class_of_branch (hg : Recorded cfg cs g)
    (hcs : ∀ C ∈ cs, C.IsMain ∧ C.Decodable) {row : Text × List (Text × Text)} {e : Text × Text}
    (hrow : row ∈ dispatchTable cfg.order g.packSigs) (he : e ∈ row.2) :
    ∃ C ∈ cs, row.1 = importPath C.toClassDecl ∧
      e = (C.name.text, flatName C.moduleName ++ "_functions") := by
  obtain ⟨sig, cls, hentry, hmod, rfl⟩ := mem_dispatchTable ⟨hrow, he⟩
  obtain ⟨m, hm, rfl, rfl⟩ := (hg.packSigs sig cls).mp hentry
  rw [hg.modules] at hm
  obtain ⟨C, hC, rfl⟩ := List.mem_map.mp hm
  obtain ⟨hmain, hdec⟩ := hcs C hC
  have hcls := (moduleClass_of_noFinalC cfg hdec.noFinalC).2
  rw [hmain] at hcls
  refine ⟨C, hC, ?_, ?_⟩
  · rw [hmod, moduleSig_of_decodable hdec, packModule_of_decodable hdec]
  · rw [hcls, moduleSig_of_decodable hdec, packNamespace_of_decodable hdec]

/-- Every class of the run has its branch. -/
theorem Recorded.branch_of_class (hg : Recorded cfg cs g)
    (hcs : ∀ C ∈ cs, C.IsMain ∧ C.Decodable) {C : LocalClass} (hC : C ∈ cs) :
    ∃ row ∈ dispatchTable cfg.order g.packSigs, row.1 = importPath C.toClassDecl ∧
      ∃ e ∈ row.2, e.1 = C.name.text := by
  obtain ⟨hmain, hdec⟩ := hcs C hC
  have hm : modulePath cfg C.toClassDecl ∈ g.modules := by
    rw [hg.modules]
    exact List.mem_map.mpr ⟨C, hC, rfl⟩
  obtain ⟨l, hl, hcls⟩ := (hg.packSigs _ _).mpr ⟨_, hm, rfl, rfl⟩
  obtain ⟨row, hrow, hmod, he⟩ := mem_dispatchTable_of_lookup cfg.order hl hcls
  refine ⟨row, hrow, ?_, _, he, ?_⟩
  · rw [hmod, moduleSig_of_decodable hdec, packModule_of_decodable hdec]
  · have hcls := (moduleClass_of_noFinalC cfg hdec.noFinalC).2
    rwa [hmain] at hcls

/-- A class is forwarded to its own namespace. -/
theorem Recorded.dispatch_class (hg : Recorded cfg cs g)
    (hcs : ∀ C ∈ cs, C.IsMain ∧ C.Decodable) {C : LocalClass} (hC : C ∈ cs) :
    dispatch (dispatchTable cfg.order g.packSigs) (importPath C.toClassDecl) C.name.text
      = some (flatName C.moduleName ++ "_functions") := by
  refine dispatch_eq_some (hg.branch_of_class hcs hC) fun row hrow hmod e he hcls => ?_
  obtain ⟨D, hD, hrowD, rfl⟩ := hg.class_of_branch hcs hrow he
  -- the same module and the same name: the branch is that of the class itself
  have hpack := packTexts_of_importPath (hcs D hD).2 (hcs C hC).2 (hrowD.symm.trans hmod)
  have hcls : D.name.text = C.name.text := hcls
  have hname : D.moduleName = C.moduleName := by
    rw [ClassDecl.moduleName, ClassDecl.moduleName, hpack, hcls]
  rw [hname]

/-- What is forwarded is a class. -/
theorem Recorded.class_of_dispatch (hg : Recorded cfg cs g)
    (hcs : ∀ C ∈ cs, C.IsMain ∧ C.Decodable) {module_ cls ns : Text}
    (h : dispatch (dispatchTable cfg.order g.packSigs) module_ cls = some ns) :
    ∃ C ∈ cs, module_ = importPath C.toClassDecl ∧ cls = C.name.text ∧
      ns = flatName C.moduleName ++ "_functions" := by
  by_contra hno
  rw [dispatch_eq_none fun row hrow hmod e he hcls => hno ?_] at h
  · cases h
  · obtain ⟨C, hC, hrowC, rfl⟩ := hg.class_of_branch hcs hrow he
    refine ⟨C, hC, hmod.symm.trans hrowC, hcls.symm, ?_⟩
    have hdispatch := hg.dispatch_class hcs hC
    have hmod : importPath C.toClassDecl = module_ := hrowC.symm.trans hmod
    have hcls : C.name.text = cls := hcls
    rw [hmod, hcls, h, Option.some.injEq] at hdispatch
    exact hdispatch

theorem Recorded.dispatchesExactly (hg : Recorded cfg cs g)
    (hcs : ∀ C ∈ cs, C.IsMain ∧ C.Decodable) :
    DispatchesExactly cs g.units (dispatchTable cfg.order g.packSigs) := by
  have hforward : ∀ C ∈ cs, dispatch (dispatchTable cfg.order g.packSigs)
      (importPath C.toClassDecl) C.name.text = some (flatName C.moduleName ++ "_functions") :=
    fun C hC => hg.dispatch_class hcs hC
  refine ⟨?_, ?_, ?_, ?_⟩
  · refine List.Forall₂.imp ?_ ((List.forall₂_and_left cs g.units).mpr ⟨hforward, hg.units⟩)
    rintro C u ⟨hC, hu⟩
    rw [hC, hu.namespace_]
  · intro C hC D hD hne
    refine ⟨fun heq => hne ?_, fun heq => hne ?_⟩
    · rw [Prod.mk.injEq] at heq
      rw [ClassDecl.moduleName, ClassDecl.moduleName,
        packTexts_of_importPath (hcs C hC).2 (hcs D hD).2 heq.1, heq.2]
    · rw [hforward C hC, hforward D hD, Option.some.injEq] at heq
      exact flatName_inj (hcs C hC).2 (hcs D hD).2 (List.append_cancel_right heq)
  · intro row hrow e he
    obtain ⟨C, hC, -, rfl⟩ := hg.class_of_branch hcs hrow he
    obtain ⟨u, hu, hunit⟩ := hg.unit_of_class hC
    exact ⟨u, hu, hunit.namespace_⟩
  · intro module_ cls hother
    cases hd : dispatch (dispatchTable cfg.order g.packSigs) module_ cls with
    | none => rfl
    | some ns =>
        obtain ⟨C, hC, hmod, hcls, -⟩ := hg.class_of_dispatch hcs hd
        exact absurd ⟨hmod, hcls⟩ (hother C hC)

/--
**Every run on decodable packages dispatches exactly.**  After any number of classes,
each the main type of its module and in a package that is not the root, holds no
underscore and has no segment ending in `c`, both dispatchers forward the import
path and the name of a bound class to the namespace of its unit, and nothing else
anywhere.
-/
theorem bindAll_dispatchesExactly {fuel : Nat} {fs : FileSystem}
    (h : bindAll fuel cfg cs (Gen.start fs) = .ok g) (hcs : ∀ C ∈ cs, C.IsMain ∧ C.Decodable) :
    ∀ b, g.bindings = some b →
      DispatchesExactly cs g.units b.bindClass ∧ DispatchesExactly cs g.units b.bindMethod := by
  intro b hb
  have hg := bindAll_recorded h
  rw [hg.bindings b hb]
  exact ⟨hg.dispatchesExactly hcs, hg.dispatchesExactly hcs⟩

end Run

namespace Sample

theorem bindAll_dispatchesExactly_tests :
    ∃ g b, bindAll 1 config [hello, mySuperClass, myClass] (Gen.start noFiles) = .ok g ∧
      g.bindings = some b ∧
      DispatchesExactly [hello, mySuperClass, myClass] g.units b.bindClass ∧
      DispatchesExactly [hello, mySuperClass, myClass] g.units b.bindMethod := by
  have hrun : Run.holds (fun g => g.bindings.isSome)
      (bindAll 1 config [hello, mySuperClass, myClass] (Gen.start noFiles)) := by decide +kernel
  obtain ⟨g, h, hb⟩ := Run.exists_of_holds hrun
  obtain ⟨b, hb⟩ := Option.isSome_iff_exists.mp hb
  refine ⟨g, b, h, hb, bindAll_dispatchesExactly h (fun C hC => ?_) b hb⟩
  simp only [List.mem_cons, List.not_mem_nil, or_false] at hC
  rcases hC with rfl | rfl | rfl <;>
    exact ⟨rfl, by decide, by decide, by decide⟩

/-- `music.Player`, in a package that ends in `c`. -/
def player : LocalClass :=
  topClass [segment "music"] (typeName "Player") [newMethod, method (ident "play") 1]

/-- Its path is decoded to the class `musiPlayer`, and nothing is forwarded to it. -/
theorem player_not_dispatchesExactly :
    ∃ g b, bindAll 1 config [player] (Gen.start noFiles) = .ok g ∧ g.bindings = some b ∧
      player.IsMain ∧ ¬ DispatchesExactly [player] g.units b.bindClass ∧
      ¬ DispatchesExactly [player] g.units b.bindMethod := by
  have hrun : Run.holds (fun g => match g.bindings with
      | some b =>
          dispatch b.bindClass (importPath player.toClassDecl) player.name.text = none &&
            dispatch b.bindMethod (importPath player.toClassDecl) player.name.text = none
      | none => false) (bindAll 1 config [player] (Gen.start noFiles)) := by decide +kernel
  obtain ⟨g, h, hg⟩ := Run.exists_of_holds hrun
  split at hg
  · rename_i b hb
    simp only [Bool.and_eq_true, decide_eq_true_eq] at hg
    have hnone : ∀ {table : DispatchTable}, dispatch table (importPath player.toClassDecl)
        player.name.text = none → ¬ DispatchesExactly [player] g.units table := by
      intro table hnone hd
      obtain ⟨u, -, hu⟩ := Run.exists_of_forall₂ hd.forwards (List.mem_singleton.mpr rfl)
      rw [hnone] at hu
      cases hu
    exact ⟨g, b, h, hb, rfl, hnone hg.1, hnone hg.2⟩
  · exact Bool.noConfusion hg

end Sample

end Wrenegade
