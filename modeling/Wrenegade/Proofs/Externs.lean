/-
The Wren modules after a run.

A class writes the module of its package anew, and a class with a bound superclass
then reads it back and appends the block of the superclass.  So a module holds what
the last class of the package wrote.  It declares exactly the bound classes of the
package as long as no class is written over: either the class is the first of its
package, or the only class before it is the superclass it writes again itself.
-/
import Wrenegade.Proofs.Declarations
import Wrenegade.Proofs.ModulePaths

namespace Wrenegade

open Text Files HaxePath Registry Run

/-! ### Reading the classes off a module -/

theorem declaredClasses_append (a s : Text) :
    declaredClasses (a ++ '\n' :: s) = declaredClasses a ++ declaredClasses s := by
  show (split (a ++ '\n' :: s) ['\n']).filterMap declaredClass = _
  rw [split_append_delim, List.filterMap_append]
  rfl

theorem declaredClasses_line {a : Text} (h : '\n' ∉ a) :
    declaredClasses a = (declaredClass a).toList := by
  show (split a ['\n']).filterMap declaredClass = _
  rw [split_of_not_mem h]
  cases hc : declaredClass a <;> simp [hc]

/-- A line that is set in declares no class. -/
theorem declaredClass_tab (s : Text) : declaredClass ('\t' :: s) = none := by
  refine if_neg fun h => ?_
  have hpre : 'f' :: ("oreign class " : Text) <+: '\t' :: s := h.1
  exact absurd (List.cons_prefix_cons.mp hpre).1 (by decide)

theorem declaredClass_foreign (x : Text) :
    declaredClass ("foreign class " ++ x ++ " \x7b") = some x := by
  have hif : ("foreign class " : Text) <+: "foreign class " ++ x ++ " \x7b" ∧
      (" \x7b" : Text) <:+ "foreign class " ++ x ++ " \x7b" :=
    ⟨by rw [List.append_assoc]; exact List.prefix_append _ _, List.suffix_append _ _⟩
  have hdrop : (("foreign class " ++ x ++ " \x7b" : Text).drop 14).dropLast.dropLast = x := by
    rw [List.append_assoc, List.drop_left' (by decide)]
    show (x ++ [' ', '\x7b']).dropLast.dropLast = x
    rw [show x ++ [' ', '\x7b'] = x ++ [' '] ++ ['\x7b'] by simp, List.dropLast_concat,
      List.dropLast_concat]
  exact (if_pos hif).trans (congrArg some hdrop)

/-! ### No line of a block is broken -/

/-- Numbering brings in no separator. -/
theorem not_mem_numberArgs {c : Char} (hc : isIdentChar c = false) {s : Text} (h : c ∉ s)
    (k : Nat) : c ∉ numberArgs k s := by
  have harg : c ∉ ("arg" : Text) := by
    intro hmem
    have hident := List.all_eq_true.mp (show ("arg" : Text).all isIdentChar = true by decide) c hmem
    rw [hc] at hident
    exact Bool.noConfusion hident
  fun_induction numberArgs k s with
  | case1 => exact h
  | case2 k cs ih =>
      have hrest := ih fun hmem => h (by simp [hmem])
      simp only [List.mem_append, not_or]
      exact ⟨⟨harg, not_mem_ofNat hc _⟩, hrest⟩
  | case3 k cs ih =>
      have hrest := ih fun hmem => h (by simp [hmem])
      have hcomma : c ∉ (",arg" : Text) := fun hmem =>
        (List.mem_cons.mp (show c ∈ ',' :: ("arg" : Text) from hmem)).elim
          (fun heq => h (by simp [heq])) harg
      simp only [List.mem_append, not_or]
      exact ⟨⟨hcomma, not_mem_ofNat hc _⟩, hrest⟩
  | case4 k d cs _ _ ih =>
      rw [List.mem_cons, not_or]
      exact ⟨fun heq => h (by simp [heq]), ih fun hmem => h (by simp [hmem])⟩

/-- A block declares its class and nothing else. -/
theorem declaredClasses_externBlock {x : Text} (hx : '\n' ∉ x) {sigs : List Text}
    (hsigs : ∀ s ∈ sigs, '\n' ∉ s) (ctor : Bool) (n : Nat) :
    declaredClasses (externBlock x sigs ctor n) = [x] := by
  have hskip : ∀ s t : Text, '\n' ∉ s →
      declaredClasses ('\t' :: s ++ '\n' :: t) = declaredClasses t := by
    intro s t hs
    rw [declaredClasses_append, declaredClasses_line (by simpa using hs), declaredClass_tab]
    rfl
  have hlines : ∀ t : Text, declaredClasses (sigs.flatMap (externLine x) ++ t)
      = declaredClasses t := by
    intro t
    induction sigs with
    | nil => rfl
    | cons g sigs ih =>
        have hg : '\n' ∉ ("foreign " ++ numberArgs 0 (replace g (x ++ ".") []) : Text) := by
          rw [List.mem_append, not_or]
          refine ⟨by decide, not_mem_numberArgs (by decide) (fun hc => ?_) 0⟩
          rcases mem_replace (by simp) hc with hc | hc
          · exact hsigs g (by simp) hc
          · simp at hc
        have hline : externLine x g
            = '\t' :: ("foreign " ++ numberArgs 0 (replace g (x ++ ".") [])) ++ '\n' :: [] := rfl
        rw [List.flatMap_cons, List.append_assoc, hline, List.append_assoc]
        exact (hskip _ _ hg).trans (ih fun s hs => hsigs s (by simp [hs]))
  have hctor : ∀ t : Text, declaredClasses ((if ctor then constructLine n else []) ++ t)
      = declaredClasses t := by
    intro t
    cases ctor with
    | false => rfl
    | true =>
        have hparams : '\n' ∉ join (params n) ", " := by
          intro hc
          rcases mem_join hc with hc | ⟨p, hp, hc⟩
          · revert hc; decide
          · obtain ⟨i, -, rfl⟩ := List.mem_map.mp hp
            rcases List.mem_append.mp hc with hc | hc
            · revert hc; decide
            · exact not_mem_ofNat (by decide) i hc
        have hbody : '\n' ∉ ("construct new(" ++ join (params n) ", " ++ ")\x7b\x7d" : Text) := by
          simp only [List.mem_append, not_or]
          exact ⟨⟨by decide, hparams⟩, by decide⟩
        have hline : constructLine n
            = '\t' :: ("construct new(" ++ join (params n) ", " ++ ")\x7b\x7d") ++ '\n' :: [] := by
          show "\tconstruct new(" ++ join (params n) ", " ++ ")\x7b\x7d\n" = _
          simp
        rw [if_pos rfl, hline, List.append_assoc]
        exact hskip _ _ hbody
  have hhead : '\n' ∉ ("foreign class " ++ x ++ " \x7b" : Text) := by
    simp only [List.mem_append, not_or]
    exact ⟨⟨by decide, hx⟩, by decide⟩
  have hblock : externBlock x sigs ctor n = ("foreign class " ++ x ++ " \x7b") ++
      '\n' :: ((if ctor then constructLine n else []) ++
        (sigs.flatMap (externLine x) ++ "\x7d\n")) := by
    show "foreign class " ++ x ++ " \x7b\n" ++ _ ++ _ ++ _ = _
    simp
  rw [hblock, declaredClasses_append, hctor, hlines, declaredClasses_line hhead,
    declaredClass_foreign]
  rfl

/-! ### No signature is broken either -/

theorem variableEntries_member {C : ClassDecl} {x : Ident} {e : SigEntry}
    (he : e ∈ variableEntries C x.text) :
    ∃ m : Member, e.sig = memberSignature C.name.text x.text m := by
  simp only [variableEntries, List.mem_cons, List.not_mem_nil, or_false] at he
  rcases he with rfl | rfl
  · exact ⟨.setter, rfl⟩
  · exact ⟨.getter, rfl⟩

/-- An entry carries the signature of its member. -/
theorem ownEntries_member {C : ClassDecl} {f : Field} {e : SigEntry} (he : e ∈ ownEntries C f) :
    ∃ m : Member, e.sig = memberSignature C.name.text f.name.text m := by
  rw [ownEntries] at he
  cases hk : f.kind with
  | fProp => simp [hk] at he
  | fVar =>
      simp only [hk] at he
      split at he
      · exact variableEntries_member he
      · simp at he
  | fFun n =>
      simp only [hk] at he
      split at he
      · rw [List.mem_singleton] at he
        exact ⟨.method false n, by rw [he]; rfl⟩
      · split at he
        · rw [List.mem_singleton] at he
          exact ⟨.method true n, by rw [he]; rfl⟩
        · simp at he

theorem inheritedEntries_member {C : ClassDecl} {f : ClassField} {e : SigEntry}
    (he : e ∈ inheritedEntries C f) :
    ∃ m : Member, e.sig = memberSignature C.name.text f.name.text m := by
  rw [inheritedEntries] at he
  split at he
  · cases hk : f.kind with
    | fMethod n =>
        simp only [hk, List.mem_singleton] at he
        exact ⟨.method false n, by rw [he]; rfl⟩
    | fVar =>
        simp only [hk] at he
        exact variableEntries_member he
  · simp at he

theorem exists_memberSignature {C : LocalClass} {e : SigEntry} (he : e ∈ C.entries) :
    ∃ (x : Ident) (m : Member), e.sig = memberSignature C.name.text x.text m := by
  rcases List.mem_append.mp he with he | he
  · obtain ⟨f, -, he⟩ := List.mem_flatMap.mp he
    exact ⟨f.name, ownEntries_member he⟩
  · obtain ⟨f, -, he⟩ := List.mem_flatMap.mp he
    exact ⟨f.name, inheritedEntries_member he⟩

theorem newline_not_mem_sig {C : LocalClass} {e : SigEntry} (he : e ∈ C.entries) :
    '\n' ∉ e.sig := by
  obtain ⟨x, m, hsig⟩ := exists_memberSignature he
  have h : '\n' ∉ m.mark ++ C.name.text ++ "." ++ x.text ++ m.tail := by
    simp only [List.mem_append, not_or]
    exact ⟨⟨⟨⟨m.not_mem_mark (by decide), C.name.not_mem (by decide)⟩, by decide⟩,
      x.not_mem (by decide)⟩, m.not_mem_tail (by decide)⟩
  rw [hsig, memberSignature_eq C.name.toIdent x m]
  exact h

/-- The signatures of the block of the superclass: those of the inherited entries, renamed. -/
theorem registerInherited_signatures (cfg : Config) (C S : ClassDecl) (ancestors : List ClassDecl)
    (t : Tables) :
    (registerInherited cfg C S ancestors t).signatures
      = ((S.typedFields ancestors).flatMap (inheritedEntries C)).map
          fun e => replace e.sig C.name.text S.name.text := by
  have key : ∀ (fs : List ClassField) (s : Inherited),
      (fs.foldl (registerInheritedField cfg C S.name.text) s).signatures
        = s.signatures ++ (fs.flatMap (inheritedEntries C)).map
            fun e => replace e.sig C.name.text S.name.text := by
    intro fs
    induction fs with
    | nil => intro s; simp
    | cons f fs ih =>
        intro s
        have hone : (registerInheritedField cfg C S.name.text s f).signatures
            = s.signatures ++ (inheritedEntries C f).map
                fun e => replace e.sig C.name.text S.name.text := by
          rw [registerInheritedField, inheritedEntries, className_eq]
          split
          · cases f.kind <;> rfl
          · simp
        rw [List.foldl_cons, ih, hone, List.flatMap_cons, List.map_append, List.append_assoc]
  exact (key _ _).trans (List.nil_append _)

/-! ### Where the modules are -/

theorem moduleName_inj {C D : ClassDecl} :
    C.moduleName = D.moduleName ↔ C.packTexts = D.packTexts ∧ C.name.text = D.name.text := by
  constructor
  · intro h
    have hsplit := C.split_moduleName
    rw [h, D.split_moduleName] at hsplit
    obtain ⟨hpack, hname⟩ := List.append_inj' hsplit rfl
    exact ⟨hpack.symm, (List.singleton_inj.mp hname).symm⟩
  · rintro ⟨hpack, hname⟩
    rw [ClassDecl.moduleName, ClassDecl.moduleName, hpack, hname]

theorem packTexts_inj {p q : List PackIdent} :
    (p.map fun x => x.text) = q.map (fun x => x.text) ↔ p = q := by
  refine (List.map_injective_iff.mpr fun x y h => ?_).eq_iff
  obtain ⟨⟨x, _⟩, _⟩ := x
  obtain ⟨⟨y, _⟩, _⟩ := y
  simp only at h
  subst h
  rfl

/-- The file of the module of a package, where the loader looks for it. -/
def moduleLocation (cfg : Config) (p : List PackIdent) : Location :=
  resolve cfg.cwd (loaderFile cfg (p.map fun x => x.text))

/-- The loader never opens one file for two packages. -/
theorem moduleLocation_inj {cfg : Config} {p q : List PackIdent}
    (h : moduleLocation cfg p = moduleLocation cfg q) : p = q := by
  have hends : ∀ r : List PackIdent, ∃ f : Text, moduleLocation cfg r
      = resolve cfg.cwd (wrenDir cfg) ++ (r.map fun x => x.text).dropLast ++ [f ++ ".wren"] ∧
        f = (r.map fun x => x.text).getLastD [] ∧ (f = [] → r = []) := by
    intro r
    rcases List.eq_nil_or_concat (r.map fun x => x.text) with hnil | ⟨ps, l, hr⟩
    · refine ⟨[], ?_, by rw [hnil]; rfl, fun _ => List.map_eq_nil_iff.mp hnil⟩
      rw [moduleLocation, hnil, resolve_loaderFile_root]
      simp
    · rw [List.concat_eq_append] at hr
      have hplain : ∀ x ∈ ps ++ [l], PlainName x := by
        intro x hx
        rw [← hr] at hx
        obtain ⟨y, -, rfl⟩ := List.mem_map.mp hx
        exact y.plainName
      refine ⟨l, ?_, by rw [hr]; simp, fun hl => absurd hl (hplain l (by simp)).ne_nil⟩
      rw [moduleLocation, hr, resolve_loaderFile cfg hplain]
      simp
  obtain ⟨f, hp, hf, hfnil⟩ := hends p
  obtain ⟨g, hq, hg, hgnil⟩ := hends q
  rw [hp, hq] at h
  obtain ⟨hdir, hfile⟩ := List.append_inj' h rfl
  have hfg : f = g := List.append_cancel_right (List.singleton_inj.mp hfile)
  have hdrop := List.append_cancel_left hdir
  by_cases hnil : f = []
  · rw [hfnil hnil, hgnil (hfg ▸ hnil)]
  · have hlast : ∀ r : List PackIdent, r ≠ [] → (r.map fun x => x.text)
        = (r.map fun x => x.text).dropLast ++ [(r.map fun x => x.text).getLastD []] := by
      intro r hr
      have hne : (r.map fun x => x.text) ≠ [] := by simpa using hr
      rw [List.getLastD_eq_getLast?, List.getLast?_eq_some_getLast hne, Option.getD_some,
        List.dropLast_append_getLast hne]
    have hp0 : p ≠ [] := by
      rintro rfl
      exact hnil hf
    have hq0 : q ≠ [] := by
      rintro rfl
      exact hnil (hfg.trans hg)
    rw [← packTexts_inj, hlast p hp0, hlast q hq0, hdrop, ← hf, ← hg, hfg]

/-! ### What one class does to the modules -/

/-- The member lines the run of a class prints for the class itself. -/
def ownLines (cfg : Config) (C : LocalClass) : List Text :=
  let t := registration cfg C Tables.empty
  (t.foreignFuncsDec.filterMap fun func => t.bindSignatureMap.lookup (funcSig func)).map
    (externLine C.name.text)

/-- The member lines it prints for the superclass. -/
def superLines (cfg : Config) (C : LocalClass) : List Text :=
  match C.supers with
  | [] => []
  | S :: ancestors =>
      (registerInherited cfg C.toClassDecl S ancestors
        (registerFields cfg C.toClassDecl Tables.empty)).signatures.map (externLine S.name.text)

theorem filterMap_eq_of_map {α β : Type} {f : α → Option β} {l : List α} {r : List β}
    (h : l.map f = r.map some) : l.filterMap f = r := by
  have hid : (l.map f).filterMap id = l.filterMap f := List.filterMap_map
  rw [← hid, h, List.filterMap_map]
  exact List.filterMap_some

/-- The signatures of a block are of one line. -/
theorem newline_not_mem_signatures {cfg : Config} {C : LocalClass} {signatures : List Text}
    (h : (registration cfg C Tables.empty).foreignFuncsDec.map (fun func =>
      (registration cfg C Tables.empty).bindSignatureMap.lookup (funcSig func))
        = signatures.map some) : ∀ s ∈ signatures, '\n' ∉ s := by
  intro s hs
  have hmem : some s ∈ signatures.map some := List.mem_map_of_mem hs
  rw [signatures_registry cfg C h] at hmem
  obtain ⟨k, -, hk⟩ := List.mem_map.mp hmem
  obtain ⟨e, he, -, rfl⟩ := entry_of_sigs hk
  exact newline_not_mem_sig he

theorem newline_not_mem_inherited {cfg : Config} {C : LocalClass} {S : ClassDecl}
    (hs : C.supers = [S]) (t : Tables) :
    ∀ s ∈ (registerInherited cfg C.toClassDecl S [] t).signatures, '\n' ∉ s := by
  intro s hmem hc
  rw [registerInherited_signatures] at hmem
  obtain ⟨e, he, rfl⟩ := List.mem_map.mp hmem
  have hfields : C.inheritedFields = S.typedFields [] := by
    simp [LocalClass.inheritedFields, hs]
  have he : e ∈ C.entries := by
    rw [LocalClass.entries, hfields]
    exact List.mem_append_right _ he
  rcases mem_replace C.name.ne_nil hc with hc | hc
  · exact newline_not_mem_sig he hc
  · exact S.name.not_mem (by decide) hc

/-- A run of the macro writes the block of the class, and then perhaps one more. -/
theorem bind_modules {fuel : Nat} {cfg : Config} {g g' : Gen} {C : LocalClass}
    (h : bind fuel cfg g C = .ok g') :
    ∃ fs sigs ctor n, (∀ s ∈ sigs, '\n' ∉ s) ∧
      sigs.map (externLine C.name.text) = ownLines cfg C ∧
      (∀ p, fs.getContent (moduleLocation cfg p) =
        if moduleLocation cfg p = resolve cfg.cwd (writerFile cfg C.toClassDecl) then
          some (externBlock C.name.text sigs ctor n)
        else g.fs.getContent (moduleLocation cfg p)) ∧
      fs.getContent (resolve cfg.cwd (writerFile cfg C.toClassDecl))
        = some (externBlock C.name.text sigs ctor n) ∧
      fs.isDirectory (resolve cfg.cwd (writerFile cfg C.toClassDecl)).dropLast = true ∧
      ((C.supers = [] ∧ g'.fs = fs) ∨
        ∃ S superSigs m, C.supers = [S] ∧ (∀ s ∈ superSigs, '\n' ∉ s) ∧
          superSigs.map (externLine S.name.text) = superLines cfg C ∧
          appendSuperBlock cfg C.toClassDecl S.name.text superSigs m fs = .ok g'.fs) := by
  obtain ⟨p, r, hp, hr, rfl⟩ := bind_ok h
  obtain ⟨-, -, -, -, -, hkeep⟩ := createPath_ok hp
  obtain ⟨-, fs, hgen, hend⟩ := createBindInclude_ok hr
  obtain ⟨n, sigs, fs₁, fs₂, hunit, hcppPath, hheaderPath, hcpp, hheader, hsigs, hextern⟩ :=
    genContent_ok hgen
  rw [hcppPath] at hcpp
  rw [hheaderPath] at hheader
  rw [className_eq] at hunit
  have hincludes : r.unit_.cpp.includes = [C.moduleName] := (genUnit_ok hunit).1
  rw [hincludes, List.headD_cons] at hextern
  obtain ⟨ctor, hctor⟩ : ∃ ctor,
      decide ((registration cfg C Tables.empty).foreignConstructorDec ≠ []) = ctor := ⟨_, rfl⟩
  rw [hctor] at hextern
  have hwrite : ∀ l, fs.getContent l =
      if l = resolve cfg.cwd (writerFile cfg C.toClassDecl) then
        some (externBlock C.name.text sigs ctor n)
      else fs₂.getContent l := by
    intro l
    have h := genWrenExterns_ok hextern l
    rw [List.nil_append] at h
    rw [writerFile, ← className_eq C.toClassDecl]
    exact h
  have hlines : sigs.map (externLine C.name.text) = ownLines cfg C :=
    congrArg (List.map _) (filterMap_eq_of_map hsigs).symm
  refine ⟨fs, sigs, ctor, n, newline_not_mem_signatures hsigs, hlines, fun q => ?_, ?_,
    genWrenExterns_dir hextern, ?_⟩
  · -- the two files of the unit are no Wren modules
    have hunits : fs₂.getContent (moduleLocation cfg q) = g.fs.getContent (moduleLocation cfg q) := by
      rw [moduleLocation, loaderFile,
        getContent_saveContent_of_extension extension_h extension_wren (by decide) hheader,
        getContent_saveContent_of_extension extension_cpp extension_wren (by decide) hcpp, hkeep]
    rw [hwrite, hunits]
  · rw [hwrite, if_pos rfl]
  · rcases hend with ⟨hs, hfs⟩ | ⟨S, hs, happend⟩
    · exact Or.inl ⟨hs, hfs⟩
    · exact Or.inr ⟨S, _, _, hs, newline_not_mem_inherited hs _, by rw [superLines, hs], happend⟩

/-! ### Along a run -/

/-- The module of every package with a bound class declares the bound classes of the
package, each once; the other modules are what they were. -/
structure DeclaresBound (cfg : Config) (start : FileSystem) (cs : List LocalClass)
    (fs : FileSystem) : Prop where
  bound : ∀ p, (∃ C ∈ cs, C.pack = p) → ∃ content,
    fs.getContent (moduleLocation cfg p) = some content ∧
      (declaredClasses content).Nodup ∧
      ∀ x, x ∈ declaredClasses content ↔ ∃ C ∈ cs, C.pack = p ∧ C.name.text = x
  others : ∀ p, (∀ C ∈ cs, C.pack ≠ p) →
    fs.getContent (moduleLocation cfg p) = start.getContent (moduleLocation cfg p)

/-- The class can be written over the module of its package: its package is not the root
and holds no underscores, no class is there already but the superclass, and the superclass
is there, in a package of a single segment. -/
structure Overwrites (done : List LocalClass) (C : LocalClass) : Prop where
  pack_ne_nil : C.pack ≠ []
  noUnderscore : ∀ p ∈ C.packTexts, '_' ∉ p
  alone : ∀ D ∈ done, D.pack = C.pack →
    D.moduleName = C.moduleName ∨ ∃ S ∈ C.supers, D.moduleName = S.moduleName
  super : ∀ S ∈ C.supers, S.pack = C.pack ∧ C.pack.length = 1 ∧
    ∃ D ∈ done, D.moduleName = S.moduleName

/-- The block of a superclass in the same package joins that of the class. -/
theorem appendSuperBlock_same {cfg : Config} {C S : ClassDecl} {sigs : List Text} {n : Nat}
    {fs fs' : FileSystem} {own : Text} (hC : C.SimplePackage) (hsigs : ∀ s ∈ sigs, '\n' ∉ s)
    (hown : fs.getContent (resolve cfg.cwd (writerFile cfg C)) = some own)
    (hdir : fs.isDirectory (resolve cfg.cwd (writerFile cfg C)).dropLast = true)
    (h : appendSuperBlock cfg C S.name.text sigs n fs = .ok fs') :
    ∃ content, declaredClasses content = declaredClasses own ++ [S.name.text] ∧
      ∀ l, fs'.getContent l =
        if l = resolve cfg.cwd (writerFile cfg C) then some content else fs.getContent l := by
  have hpaths := (pathsAgree_iff cfg C).mpr hC
  have hreadAt := hpaths.superRead.trans hpaths.writer.symm
  have hwriteAt := hpaths.superWrite.trans hpaths.writer.symm
  obtain ⟨q, hpack, hq⟩ := hC
  have hroot : C.pack ≠ [] := by
    rw [← C.packTexts_ne_nil_iff, hpack]
    simp
  have hcut : cutModule cfg (superModule C) = (wrenDir cfg, q) := by
    rw [superModule_eq, if_neg hroot, hpack, join_singleton, cutModule, if_neg hq]
  obtain ⟨buf, hread, hget⟩ := appendSuperBlock_ok h
  rw [superReadFile, externFile, hcut] at hreadAt
  rw [superWriteFile] at hwriteAt
  rw [hwriteAt] at hget
  -- the directory is there, so the module is read back
  have hthere : fs.exists_ (resolve cfg.cwd (wrenDir cfg)) = true := by
    have hslash : '/' ∉ q := C.noDot_packTexts (by simp [hpack]) (by decide)
    rw [← hreadAt, resolve_wrenFile (wrenDir_ne_nil cfg) hslash, List.dropLast_concat] at hdir
    rw [FileSystem.exists_, hdir]
    rfl
  have hbuf : buf = "\n" ++ own ++ "\n" ++ "\n" := by
    rw [hcut, readModule, if_pos hthere, getContent, hreadAt, hown] at hread
    simp only [Except.ok.injEq] at hread
    exact hread.symm
  refine ⟨buf ++ externBlock S.name.text sigs true n, ?_, hget⟩
  have hclasses : declaredClasses (buf ++ externBlock S.name.text sigs true n)
      = declaredClasses [] ++ (declaredClasses own ++
          (declaredClasses [] ++ declaredClasses (externBlock S.name.text sigs true n))) := by
    rw [← declaredClasses_append, ← declaredClasses_append, ← declaredClasses_append, hbuf]
    refine congrArg declaredClasses ?_
    show "\n" ++ own ++ "\n" ++ "\n" ++ externBlock S.name.text sigs true n
      = '\n' :: (own ++ ("\n" ++ ("\n" ++ externBlock S.name.text sigs true n)))
    simp only [List.append_assoc]
    rfl
  rw [hclasses, declaredClasses_externBlock (S.name.not_mem (by decide)) hsigs]
  rfl

/-- The module of the class declares the class and its superclass, and no other module
changes. -/
theorem Overwrites.content {fuel : Nat} {cfg : Config} {done : List LocalClass} {C : LocalClass}
    {g g' : Gen} (hC : Overwrites done C) (h : bind fuel cfg g C = .ok g') :
    ∃ content, declaredClasses content = C.name.text :: C.supers.map (fun S => S.name.text) ∧
      ∀ p, g'.fs.getContent (moduleLocation cfg p) =
        if p = C.pack then some content else g.fs.getContent (moduleLocation cfg p) := by
  obtain ⟨fs, sigs, ctor, n, hsigs, -, hget, hown, hdir, hend⟩ := bind_modules h
  have hwriter : resolve cfg.cwd (writerFile cfg C.toClassDecl) = moduleLocation cfg C.pack :=
    writerFile_of_noUnderscore cfg C.toClassDecl hC.pack_ne_nil hC.noUnderscore
  have hclasses := declaredClasses_externBlock (C.name.not_mem (c := '\n') (by decide)) hsigs ctor n
  have hsame : ∀ p, moduleLocation cfg p = resolve cfg.cwd (writerFile cfg C.toClassDecl) ↔
      p = C.pack := by
    intro p
    rw [hwriter]
    exact ⟨moduleLocation_inj, fun h => by rw [h]⟩
  rcases hend with ⟨hs, hfs⟩ | ⟨S, superSigs, m, hs, hsuper, -, happend⟩
  · refine ⟨_, by rw [hclasses, hs]; rfl, fun p => ?_⟩
    rw [hfs, hget]
    exact if_congr (hsame p) rfl rfl
  · obtain ⟨-, hone, -⟩ := hC.super S (by simp [hs])
    obtain ⟨q, hq⟩ := List.length_eq_one_iff.mp hone
    have hsimple : C.SimplePackage := by
      refine ⟨q.text, by simp [ClassDecl.packTexts, hq], hC.noUnderscore _ ?_⟩
      simp [ClassDecl.packTexts, hq]
    obtain ⟨content, hcontent, hget'⟩ := appendSuperBlock_same hsimple hsuper hown hdir happend
    refine ⟨content, by rw [hcontent, hclasses, hs]; rfl, fun p => ?_⟩
    rw [hget', hget]
    by_cases hp : p = C.pack
    · rw [if_pos ((hsame p).mpr hp), if_pos hp]
    · rw [if_neg (fun h => hp ((hsame p).mp h)), if_neg (fun h => hp ((hsame p).mp h)), if_neg hp]

/-- In one package classes that are not the same have different names. -/
theorem Overwrites.nodup_names {done : List LocalClass} {C : LocalClass} (hC : Overwrites done C) :
    (C.name.text :: C.supers.map (fun S => S.name.text)).Nodup := by
  have hdistinct := C.distinct
  have hin : ∀ A ∈ C.toClassDecl :: C.supers, A.pack = C.pack := by
    intro A hA
    rcases List.mem_cons.mp hA with rfl | hA
    · rfl
    · exact (hC.super A hA).1
  rw [← List.map_cons (f := fun S : ClassDecl => S.name.text)]
  rw [List.Nodup, List.pairwise_map] at hdistinct ⊢
  refine hdistinct.imp_of_mem fun {A B} hA hB hne hname => hne (moduleName_inj.mpr ⟨?_, hname⟩)
  rw [ClassDecl.packTexts, ClassDecl.packTexts, hin A hA, hin B hB]

/-- The names in the module are those of the bound classes of the package. -/
theorem Overwrites.mem_names {done : List LocalClass} {C : LocalClass} (hC : Overwrites done C)
    (x : Text) :
    x ∈ C.name.text :: C.supers.map (fun S => S.name.text) ↔
      ∃ D ∈ done ++ [C], D.pack = C.pack ∧ D.name.text = x := by
  rw [List.mem_cons, List.mem_map]
  constructor
  · rintro (rfl | ⟨S, hS, rfl⟩)
    · exact ⟨C, by simp, rfl, rfl⟩
    · obtain ⟨hSpack, -, D, hD, hname⟩ := hC.super S hS
      obtain ⟨hDpack, hDname⟩ := moduleName_inj.mp hname
      exact ⟨D, by simp [hD], by rw [packTexts_inj.mp hDpack, hSpack], hDname⟩
  · rintro ⟨D, hD, hDpack, rfl⟩
    rcases List.mem_append.mp hD with hD | hD
    · rcases hC.alone D hD hDpack with hname | ⟨S, hS, hname⟩
      · exact Or.inl (moduleName_inj.mp hname).2
      · exact Or.inr ⟨S, hS, (moduleName_inj.mp hname).2.symm⟩
    · rw [List.mem_singleton.mp hD]
      exact Or.inl rfl

/-- A class that may be written over its module leaves all modules in order. -/
theorem DeclaresBound.bind {fuel : Nat} {cfg : Config} {start : FileSystem}
    {done : List LocalClass} {C : LocalClass} {g g' : Gen}
    (hg : DeclaresBound cfg start done g.fs) (hC : Overwrites done C)
    (h : bind fuel cfg g C = .ok g') : DeclaresBound cfg start (done ++ [C]) g'.fs := by
  obtain ⟨content, hcontent, hother⟩ := hC.content h
  have hmem : ∀ {D : LocalClass}, D ∈ done ++ [C] → D.pack ≠ C.pack → D ∈ done := by
    intro D hD hpack
    rcases List.mem_append.mp hD with hD | hD
    · exact hD
    · rw [List.mem_singleton.mp hD] at hpack
      exact absurd rfl hpack
  constructor
  · intro p hp
    by_cases hpack : p = C.pack
    · subst hpack
      refine ⟨content, by rw [hother, if_pos rfl], ?_, fun x => ?_⟩
      · rw [hcontent]
        exact hC.nodup_names
      · rw [hcontent]
        exact hC.mem_names x
    · obtain ⟨D, hD, rfl⟩ := hp
      obtain ⟨old, hold, hnodup, hnames⟩ := hg.bound D.pack ⟨D, hmem hD hpack, rfl⟩
      refine ⟨old, by rw [hother, if_neg hpack, hold], hnodup, fun x => ?_⟩
      rw [hnames]
      constructor
      · rintro ⟨E, hE, hx⟩
        exact ⟨E, by simp [hE], hx⟩
      · rintro ⟨E, hE, hEp, hx⟩
        exact ⟨E, hmem hE (by rw [hEp]; exact hpack), hEp, hx⟩
  · intro p hp
    have hpack : p ≠ C.pack := fun h => hp C (by simp) h.symm
    rw [hother, if_neg hpack]
    exact hg.others p fun D hD => hp D (by simp [hD])

/--
**Every run that writes over no class declares the bound classes.**  After any number of
classes, each written over nothing but its own superclass, the Wren module of every
package declares exactly the bound classes of the package, each once.
-/
theorem bindAll_declaresBound {fuel : Nat} {cfg : Config} {cs : List LocalClass}
    {fs : FileSystem} {g : Gen} (h : bindAll fuel cfg cs (Gen.start fs) = .ok g)
    (hcs : StepsMeet Overwrites cs) : DeclaresBound cfg fs cs g.fs := by
  refine @run_invariant _ _ _ _ _ (fun done g => DeclaresBound cfg fs done g.fs) Overwrites
    ⟨fun p hp => ?_, fun p _ => rfl⟩ ?_ cs g hcs h
  · obtain ⟨C, hC, -⟩ := hp
    simp at hC
  · intro done C s s' hs hC hstep
    exact hs.bind hC hstep

namespace Sample

theorem bindAll_declaresBound_tests :
    ∃ g, bindAll 1 config [hello, mySuperClass, myClass] (Gen.start noFiles) = .ok g ∧
      DeclaresBound config noFiles [hello, mySuperClass, myClass] g.fs := by
  have hrun : holds (fun _ => true)
      (bindAll 1 config [hello, mySuperClass, myClass] (Gen.start noFiles)) := by decide +kernel
  obtain ⟨g, h, -⟩ := exists_of_holds hrun
  refine ⟨g, h, bindAll_declaresBound h ?_⟩
  have hhello : Overwrites [] hello :=
    ⟨by decide, by decide, by simp, fun S hS => absurd hS List.not_mem_nil⟩
  have hsuper : Overwrites [hello] mySuperClass :=
    ⟨by decide, by decide, by decide, fun S hS => absurd hS List.not_mem_nil⟩
  have hclass : Overwrites [hello, mySuperClass] myClass :=
    ⟨by decide, by decide, by decide, by decide⟩
  exact (stepsMeet_concat (a := myClass)).mpr
    ⟨(stepsMeet_concat (a := mySuperClass)).mpr
      ⟨(stepsMeet_concat (a := hello)).mpr ⟨stepsMeet_nil _, hhello⟩, hsuper⟩, hclass⟩

/-- A second class of the package that extends nothing bound. -/
def myHelper : LocalClass := bareClass [myclass] (typeName "MyHelper")

/-- It is written over the class before it. -/
theorem myHelper_not_declaresBound :
    ∃ g, bindAll 1 config [mySuperClass, myHelper] (Gen.start noFiles) = .ok g ∧
      ¬ DeclaresBound config noFiles [mySuperClass, myHelper] g.fs := by
  have hrun : holds (fun g =>
      (g.fs.getContent (moduleLocation config mySuperClass.pack)).map declaredClasses
        = some ([("MyHelper" : Text)]))
        (bindAll 1 config [mySuperClass, myHelper] (Gen.start noFiles)) := by
    decide +kernel
  obtain ⟨g, h, hlost⟩ := exists_of_holds hrun
  refine ⟨g, h, fun hd => ?_⟩
  obtain ⟨content, hcontent, -, hmem⟩ := hd.bound mySuperClass.pack ⟨mySuperClass, by simp, rfl⟩
  have hsuper := (hmem mySuperClass.name.text).mpr ⟨mySuperClass, by simp, rfl, rfl⟩
  rw [hcontent, decide_eq_true_eq, Option.map_some, Option.some.injEq] at hlost
  rw [hlost] at hsuper
  revert hsuper
  decide

end Sample

end Wrenegade
