/-
The build manifest.

`wren_bindings.xml` lists one C++ file for every module path, and `wren_bindings.cpp`
includes one header.  Both names are put together from the path text, the first one
under the hard-coded directory `bindings`; the files themselves are written under
the configured directory and named after the class.  Where the paths of the files
lead is what counts, so manifest and files are compared as locations.
-/
import Wrenegade.Proofs.Dispatch

namespace Wrenegade

open Text Files HaxePath

/-! ### The locations of a class -/

/-- The manifest lists exactly the units, each once, and the headers are theirs. -/
structure ManifestMatches (cfg : Config) (b : Bindings) (units : List GeneratedUnit) : Prop where
  listed : ∀ l, l ∈ b.cppFiles.map (resolve cfg.cwd) ↔
    l ∈ units.map fun u => resolve cfg.cwd u.cppPath
  once : (b.cppFiles.map (resolve cfg.cwd)).Nodup
  included : ∀ l, (l ∈ b.headers.map fun h => resolve cfg.cwd (cfg.bindingsDir ++ "/" ++ h)) ↔
    l ∈ units.map fun u => resolve cfg.cwd u.headerPath

/-- The configured directory is the one the manifest names, and joining a path to it does
not lead elsewhere. -/
structure Config.Standard (cfg : Config) : Prop where
  hardCoded : resolve cfg.cwd (cpath cfg) = resolve cfg.cwd "bindings/c"
  joined : resolve cfg.cwd (cfg.bindingsDir ++ "/c") = resolve cfg.cwd (cpath cfg)

/-- The C directory does not come up again in the path of the class: neither as a whole, nor
its end in front of the class name. -/
structure ClassDecl.OneCDirectory (cfg : Config) (C : ClassDecl) : Prop where
  noCpath : ¬ cpath cfg <:+: C.filePath
  noFinalC : ∀ p, C.packTexts.getLast? = some p → p.getLast? ≠ some 'c'

section Class

variable {cfg : Config} {C : ClassDecl}

theorem ClassDecl.plain_path (C : ClassDecl) :
    ∀ p ∈ C.packTexts ++ [C.moduleFile.text], PlainName p := by
  intro p hp
  rcases List.mem_append.mp hp with h | h
  · exact C.plain_packTexts h
  · rw [List.mem_singleton.mp h]
    exact C.moduleFile.plainName

theorem modulePath_of_oneCDirectory (hC : C.OneCDirectory cfg) :
    modulePath cfg C = "c/" ++ C.filePath := by
  rw [modulePath_eq, replace_of_not_infix (cpath_ne_nil cfg) hC.noCpath]

theorem moduleClass_of_oneCDirectory (hC : C.OneCDirectory cfg) :
    moduleClass (modulePath cfg C) = C.moduleFile.text := by
  have hfile : '/' ∉ C.moduleFile.text := C.moduleFile.not_mem (by decide)
  have hkeep : replace C.moduleFile.text "c/" [] = C.moduleFile.text :=
    replace_of_not_mem (x := '/') (by decide) hfile []
  rw [moduleClass, modulePath_of_oneCDirectory hC, replace_append_self (by simp), List.nil_append,
    ClassDecl.filePath]
  rcases List.eq_nil_or_concat C.packTexts with hnil | ⟨ps, p, hps⟩
  · rw [hnil, List.nil_append, join_singleton, hkeep,
      show ("/" : Text) = ['/'] from rfl, split_of_not_mem hfile]
    rfl
  · -- the last segment does not end in `c`, so its slash is kept
    have hlast : (join C.packTexts "/").getLast? ≠ some 'c' := by
      have hp := hC.noFinalC p (by simp [hps])
      have hne : p ≠ [] := (C.plain_packTexts (by simp [hps])).ne_nil
      rw [hps, List.concat_eq_append]
      by_cases h0 : ps = []
      · simpa [h0] using hp
      · rwa [join_concat h0, List.getLast?_append_of_ne_nil _ hne]
    have hcut := replace_pair_append (x := 'c') (y := '/') (by decide) hlast C.moduleFile.text []
    have hjoin : join (C.packTexts ++ [C.moduleFile.text]) "/"
        = join C.packTexts "/" ++ '/' :: C.moduleFile.text := by
      rw [join_concat (by simp [hps])]
      simp
    rw [hjoin, show ("c/" : Text) = ['c', '/'] from rfl, hcut,
      show replace C.moduleFile.text ['c', '/'] [] = C.moduleFile.text from hkeep,
      show ("/" : Text) = ['/'] from rfl, split_append_delim, split_of_not_mem hfile]
    simp

/-- A file named after a type, next to where a path leads. -/
theorem resolve_typeFile {a ext : Text} (ha : a ≠ []) (hext : Extension ext) (x : TypeIdent)
    (cwd : Text) : resolve cwd (a ++ '/' :: (x.text ++ ext)) = resolve cwd a ++ [x.text ++ ext] := by
  have hdots : ∀ q : Text, q.getLast? = some '.' → x.text ++ ext ≠ q := by
    rintro q hq rfl
    rw [hext.getLast?_append] at hq
    exact hext.ends hq
  refine resolve_append_plain ha (by simp [hext.ne_nil]) (hdots "." (by decide))
    (hdots ".." (by decide)) ?_ cwd
  rw [List.mem_append, not_or]
  exact ⟨x.not_mem (by decide), hext.noSlash⟩

/-- The path of the module of a class, followed from a directory. -/
theorem resolve_filePath {a : Text} (ha : a ≠ []) (cwd : Text) :
    resolve cwd (a ++ '/' :: C.filePath) = resolve cwd a ++ (C.packTexts ++ [C.moduleFile.text]) :=
  resolve_join ha C.plain_path (by simp) cwd

/-- Where the unit of a class is written. -/
theorem resolve_unitFile {ext : Text} (hext : Extension ext) :
    resolve cfg.cwd (unitFile cfg C ext)
      = resolve cfg.cwd (cpath cfg) ++ (C.packTexts ++ [C.moduleFile.text])
        ++ [C.name.text ++ ext] := by
  obtain ⟨b, hb⟩ := cpath_ends cfg
  have hdir : cpath cfg = (b ++ "c") ++ "/" := by
    rw [hb, List.append_assoc]
    rfl
  have hfile : unitFile cfg C ext
      = ((b ++ "c") ++ '/' :: C.filePath) ++ '/' :: (C.name.text ++ ext) := by
    rw [unitFile, bindCPath_eq, hdir]
    simp
  rw [hfile, resolve_typeFile (by simp) hext, resolve_filePath (by simp), hdir,
    resolve_slash (by simp)]

/-- Where the manifest looks for it. -/
theorem resolve_cppFile (hmain : C.IsMain) (hC : C.OneCDirectory cfg) :
    resolve cfg.cwd (cppFile cfg (modulePath cfg C))
      = resolve cfg.cwd "bindings/c" ++ (C.packTexts ++ [C.moduleFile.text])
        ++ [C.name.text ++ ".cpp"] := by
  have hdir : ("bindings/" : Text) ++ modulePath cfg C = "bindings/c" ++ '/' :: C.filePath := by
    rw [modulePath_of_oneCDirectory hC]
    rfl
  have habs : absolutePath cfg.cwd ("bindings/c" ++ '/' :: C.filePath) ≠ [] := by
    rw [absolutePath]
    split <;> simp
  have hfile : cppFile cfg (modulePath cfg C)
      = absolutePath cfg.cwd ("bindings/c" ++ '/' :: C.filePath)
        ++ '/' :: (C.name.text ++ ".cpp") := by
    rw [cppFile, hdir, moduleClass_of_oneCDirectory hC, hmain]
    simp
  rw [hfile, resolve_typeFile habs extension_cpp, resolve_absolutePath cfg.cwd_absolute,
    resolve_filePath (by decide)]

/-- Where the included header is. -/
theorem resolve_include (hmain : C.IsMain) (hC : C.OneCDirectory cfg) :
    resolve cfg.cwd (cfg.bindingsDir ++ "/" ++ headerPath (modulePath cfg C))
      = resolve cfg.cwd (cfg.bindingsDir ++ "/c") ++ (C.packTexts ++ [C.moduleFile.text])
        ++ [C.name.text ++ ".h"] := by
  have hfile : cfg.bindingsDir ++ "/" ++ headerPath (modulePath cfg C)
      = ((cfg.bindingsDir ++ "/c") ++ '/' :: C.filePath) ++ '/' :: (C.name.text ++ ".h") := by
    rw [headerPath, moduleClass_of_oneCDirectory hC, modulePath_of_oneCDirectory hC, hmain]
    simp
  rw [hfile, resolve_typeFile (by simp) extension_h, resolve_filePath (by simp)]

end Class

/-! ### The manifest after a run -/

/-- Two lists related one by one show the same values. -/
private theorem mem_map_of_forall₂ {α β γ : Type} {R : α → β → Prop} {f : α → γ} {k : β → γ}
    {as : List α} {bs : List β} (h : List.Forall₂ R as bs)
    (hfk : ∀ a ∈ as, ∀ b, R a b → f a = k b) : as.map f = bs.map k := by
  induction h with
  | nil => rfl
  | cons hab _ ih =>
      rw [List.map_cons, List.map_cons, hfk _ (by simp) _ hab,
        ih fun a ha => hfk a (by simp [ha])]

/--
**The manifest matches in every run under the standard directory** whose classes are
bound once each, are the main types of their modules, and have no second C
directory in their paths.
-/
theorem bindAll_manifestMatches {fuel : Nat} {cfg : Config} {cs : List LocalClass}
    {fs : FileSystem} {g : Gen} (h : bindAll fuel cfg cs (Gen.start fs) = .ok g)
    (hcfg : cfg.Standard) (hcs : ∀ C ∈ cs, C.IsMain ∧ C.OneCDirectory cfg)
    (honce : (cs.map fun C => C.moduleName).Nodup) :
    ∀ b, g.bindings = some b → ManifestMatches cfg b g.units := by
  intro b hb
  have hg := bindAll_recorded h
  have hbind := hg.bindings b hb
  have hfiles : b.cppFiles.map (resolve cfg.cwd)
      = cs.map fun C => resolve cfg.cwd (unitFile cfg C.toClassDecl ".cpp") := by
    rw [hbind, genBindings, hg.modules, List.map_map, List.map_map]
    refine List.map_congr_left fun C hC => ?_
    obtain ⟨hmain, hone⟩ := hcs C hC
    show resolve cfg.cwd (cppFile cfg (modulePath cfg C.toClassDecl)) = _
    rw [resolve_cppFile hmain hone, resolve_unitFile extension_cpp, hcfg.hardCoded]
  have hheaders : (b.headers.map fun h => resolve cfg.cwd (cfg.bindingsDir ++ "/" ++ h))
      = cs.map fun C => resolve cfg.cwd (unitFile cfg C.toClassDecl ".h") := by
    rw [hbind, genBindings, hg.modules, List.map_map, List.map_map]
    refine List.map_congr_left fun C hC => ?_
    obtain ⟨hmain, hone⟩ := hcs C hC
    show resolve cfg.cwd (cfg.bindingsDir ++ "/" ++ headerPath (modulePath cfg C.toClassDecl)) = _
    rw [resolve_include hmain hone, resolve_unitFile extension_h, hcfg.joined]
  have hcpp : (cs.map fun C => resolve cfg.cwd (unitFile cfg C.toClassDecl ".cpp"))
      = g.units.map fun u => resolve cfg.cwd u.cppPath :=
    mem_map_of_forall₂ hg.units fun C _ u hu => by rw [hu.cppPath]
  have hh : (cs.map fun C => resolve cfg.cwd (unitFile cfg C.toClassDecl ".h"))
      = g.units.map fun u => resolve cfg.cwd u.headerPath :=
    mem_map_of_forall₂ hg.units fun C _ u hu => by rw [hu.headerPath]
  refine ⟨fun l => by rw [hfiles, hcpp], ?_, fun l => by rw [hheaders, hh]⟩
  rw [hfiles]
  rw [List.Nodup, List.pairwise_map] at honce ⊢
  refine honce.imp fun hne heq => hne ?_
  rw [resolve_unitFile extension_cpp, resolve_unitFile extension_cpp] at heq
  obtain ⟨hdir, hname⟩ := List.append_inj' heq rfl
  obtain ⟨hpack, -⟩ := List.append_inj' (List.append_cancel_left hdir) rfl
  rw [ClassDecl.moduleName, ClassDecl.moduleName, hpack,
    List.append_cancel_right (List.singleton_inj.mp hname)]

namespace Sample

theorem config_standard : config.Standard where
  hardCoded := by decide
  joined := by decide

theorem bindAll_manifestMatches_tests :
    ∃ g b, bindAll 1 config [hello, mySuperClass, myClass] (Gen.start noFiles) = .ok g ∧
      g.bindings = some b ∧ ManifestMatches config b g.units := by
  have hrun : Run.holds (fun g => g.bindings.isSome)
      (bindAll 1 config [hello, mySuperClass, myClass] (Gen.start noFiles)) := by decide +kernel
  obtain ⟨g, h, hb⟩ := Run.exists_of_holds hrun
  obtain ⟨b, hb⟩ := Option.isSome_iff_exists.mp hb
  refine ⟨g, b, h, hb, bindAll_manifestMatches h config_standard (fun C hC => ?_) (by decide) b hb⟩
  simp only [List.mem_cons, List.not_mem_nil, or_false] at hC
  rcases hC with rfl | rfl | rfl <;>
    exact ⟨rfl, by decide, by decide⟩

/-- The same project with its bindings configured to go somewhere else. -/
def genConfig : Config := { config with bindingsDir := "gen" }

/-- The units go to `gen/c`, the manifest lists files in `bindings/c`. -/
theorem genConfig_not_manifestMatches :
    ∃ g b, bindAll 1 genConfig [hello] (Gen.start noFiles) = .ok g ∧ g.bindings = some b ∧
      ¬ ManifestMatches genConfig b g.units := by
  have hrun : Run.holds (fun g => match g.bindings with
      | some b => (b.cppFiles.map (resolve genConfig.cwd)).any fun l =>
          l ∉ g.units.map fun u => resolve genConfig.cwd u.cppPath
      | none => false) (bindAll 1 genConfig [hello] (Gen.start noFiles)) := by decide +kernel
  obtain ⟨g, h, hg⟩ := Run.exists_of_holds hrun
  split at hg
  · rename_i b hb
    refine ⟨g, b, h, hb, fun hm => ?_⟩
    obtain ⟨l, hl, hnot⟩ := List.any_eq_true.mp hg
    exact of_decide_eq_true hnot ((hm.listed l).mp hl)
  · exact Bool.noConfusion hg

end Sample

end Wrenegade
