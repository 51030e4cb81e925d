/-
Where the Wren module of a package is, four times over.

Content generation writes it, the superclass path reads it back and writes it
again, and the module loader of the VM opens it, each with a path text of its own
making.  The writers turn dots into underscores and cut the text at the
underscores, the superclass path cuts the dotted text, and the loader has slashes
from the start.  The texts are compared by where they lead.
-/
import Wrenegade.Proofs.Units

namespace Wrenegade

open Text Files HaxePath

/-! ### The four paths -/

/-- Written by `genContent` for a class. -/
def writerFile (cfg : Config) (C : ClassDecl) : Text :=
  externFile cfg (externModule C.moduleName (className C))

/-- Read back by `createBindSuperClass`. -/
def superReadFile (cfg : Config) (C : ClassDecl) : Text := externFile cfg (superModule C)

/-- Written by `createBindSuperClass`, which passes on the last piece of the module text. -/
def superWriteFile (cfg : Config) (C : ClassDecl) : Text :=
  externFile cfg (cutModule cfg (superModule C)).2

/-- Opened by `loadModuleFn` for the import of the package: `BIND_PATH`, then what follows
`foreign`, then the extension. -/
def loaderFile (cfg : Config) (pack : List Text) : Text :=
  wrenDir cfg ++ "/" ++ join pack "/" ++ ".wren"

/-- All four lead to one file. -/
structure PathsAgree (cfg : Config) (C : ClassDecl) : Prop where
  writer : resolve cfg.cwd (writerFile cfg C) = resolve cfg.cwd (loaderFile cfg C.packTexts)
  superRead : resolve cfg.cwd (superReadFile cfg C) = resolve cfg.cwd (loaderFile cfg C.packTexts)
  superWrite :
    resolve cfg.cwd (superWriteFile cfg C) = resolve cfg.cwd (loaderFile cfg C.packTexts)

/-! ### Where they lead -/

theorem wrenDir_ne_nil (cfg : Config) : wrenDir cfg ≠ [] := by simp [wrenDir]

/-- A Wren file in a directory. -/
theorem resolve_wrenFile {dir file : Text} (hdir : dir ≠ []) (hfile : '/' ∉ file) (cwd : Text) :
    resolve cwd (wrenFile dir file) = resolve cwd dir ++ [file ++ ".wren"] := by
  have hdots : ∀ q : Text, q.getLast? = some '.' → file ++ ".wren" ≠ q := by
    rintro q hq rfl
    rw [extension_wren.getLast?_append] at hq
    exact extension_wren.ends hq
  have hpath : wrenFile dir file = dir ++ '/' :: (file ++ ".wren") := by simp [wrenFile]
  rw [hpath]
  refine resolve_append_plain hdir (by simp) (hdots "." (by decide)) (hdots ".." (by decide)) ?_ cwd
  rw [List.mem_append, not_or]
  exact ⟨hfile, extension_wren.noSlash⟩

/-- Components without dots are appended, except for the empty ones. -/
theorem foldl_follow_noDots {ds : List Text} (h : ∀ d ∈ ds, '.' ∉ d) (loc : Location) :
    ds.foldl follow loc = loc ++ ds.filter (· ≠ []) := by
  induction ds generalizing loc with
  | nil => simp
  | cons d ds ih =>
      have hd := h d (by simp)
      have hrest := ih (fun e he => h e (by simp [he]))
      by_cases hnil : d = []
      · subst hnil
        rw [List.foldl_cons, hrest, List.filter_cons_of_neg (by simp)]
        simp [follow]
      · have h1 : d ≠ "." := by
          rintro rfl
          exact hd (by decide)
        have h2 : d ≠ ".." := by
          rintro rfl
          exact hd (by decide)
        rw [List.foldl_cons, follow_plain hnil h1 h2, hrest,
          List.filter_cons_of_pos (by simpa using hnil)]
        simp

/-- The file of a module text: its last piece, under the pieces before it. -/
theorem resolve_externFile (cfg : Config) {m : Text} (hslash : '/' ∉ m) {ds : List Text} {f : Text}
    (hm : split m "_" = ds ++ [f]) :
    resolve cfg.cwd (externFile cfg m)
      = ds.foldl follow (resolve cfg.cwd (wrenDir cfg)) ++ [f ++ ".wren"] := by
  have hpieces : ∀ p ∈ ds ++ [f], '/' ∉ p := by
    intro p hp hmem
    rw [← hm] at hp
    exact hslash ((mem_piece hp).2 _ hmem)
  by_cases hu : '_' ∈ m
  · have hds : ds ≠ [] := by
      rintro rfl
      have hjoin := join_split (d := ['_']) (by simp) m
      rw [show split m ['_'] = [f] from hm, join_singleton] at hjoin
      refine (mem_piece (x := '_') (s := m) (p := f) ?_).1 (by rw [hjoin]; exact hu)
      rw [show split m ['_'] = [f] from hm]
      simp
    have hcut : cutModule cfg m = (wrenDir cfg ++ "/" ++ join ds "/", f) := by
      rw [cutModule, if_pos hu, hm]
      simp
    have hdir : wrenDir cfg ++ "/" ++ join ds "/" = wrenDir cfg ++ '/' :: join ds "/" := by simp
    have hsplit : split (join ds "/") "/" = ds := split_join hds fun d hd => hpieces d (by simp [hd])
    rw [externFile, hcut, resolve_wrenFile (by simp) (hpieces f (by simp)), hdir,
      resolve_append (wrenDir_ne_nil cfg), hsplit]
  · have hself : split m "_" = [m] := split_of_not_mem hu
    rw [hself] at hm
    obtain ⟨rfl, hf⟩ : ds = [] ∧ [m] = [f] := by
      cases ds with
      | nil => exact ⟨rfl, hm⟩
      | cons d ds => simp at hm
    rw [List.singleton_inj] at hf
    rw [externFile, cutModule, if_neg hu, resolve_wrenFile (wrenDir_ne_nil cfg) hslash, hf]
    rfl

/-- The file the loader opens for a package that is not the root. -/
theorem resolve_loaderFile (cfg : Config) {ps : List Text} {p : Text}
    (hps : ∀ q ∈ ps ++ [p], PlainName q) :
    resolve cfg.cwd (loaderFile cfg (ps ++ [p]))
      = resolve cfg.cwd (wrenDir cfg) ++ ps ++ [p ++ ".wren"] := by
  have hp := hps p (by simp)
  by_cases h0 : ps = []
  · subst h0
    have hfile : loaderFile cfg ([] ++ [p]) = wrenFile (wrenDir cfg) p := by
      simp [loaderFile, wrenFile]
    rw [hfile, resolve_wrenFile (wrenDir_ne_nil cfg) hp.noSlash, List.append_nil]
  · have hfile : loaderFile cfg (ps ++ [p]) = wrenFile (wrenDir cfg ++ '/' :: join ps "/") p := by
      rw [loaderFile, join_concat h0]
      simp [wrenFile]
    rw [hfile, resolve_wrenFile (by simp) hp.noSlash,
      resolve_join (wrenDir_ne_nil cfg) (fun q hq => hps q (by simp [hq])) h0]

/-- For the root package it opens a file without a name. -/
theorem resolve_loaderFile_root (cfg : Config) :
    resolve cfg.cwd (loaderFile cfg []) = resolve cfg.cwd (wrenDir cfg) ++ [(".wren" : Text)] := by
  have hfile : loaderFile cfg [] = wrenFile (wrenDir cfg) [] := by simp [loaderFile, wrenFile]
  rw [hfile, resolve_wrenFile (wrenDir_ne_nil cfg) (by simp)]
  rfl

/-! ### When they agree -/

/-- A package of a single segment without underscores. -/
def ClassDecl.SimplePackage (C : ClassDecl) : Prop := ∃ p, C.packTexts = [p] ∧ '_' ∉ p

/-- A name of underscores only counts as lower-case. -/
theorem isLowerIdent_underscores {s : Text} (hne : s ≠ []) (h : ∀ c ∈ s, c = '_') :
    isLowerIdent s = true := by
  induction s with
  | nil => exact absurd rfl hne
  | cons c cs ih =>
      rw [isLowerIdent, if_pos (h c (by simp))]
      by_cases hcs : cs = []
      · simp [hcs]
      · simp [ih hcs fun d hd => h d (by simp [hd])]

section Class

variable (cfg : Config) (C : ClassDecl)

/-- The file of a module text of which no piece holds a dot. -/
theorem exists_resolve_externFile {m : Text} (hslash : '/' ∉ m) (hdot : '.' ∉ m) :
    ∃ (ds : List Text) (f : Text), split m "_" = ds ++ [f] ∧
      resolve cfg.cwd (externFile cfg m)
        = resolve cfg.cwd (wrenDir cfg) ++ ds.filter (· ≠ []) ++ [f ++ ".wren"] := by
  rcases List.eq_nil_or_concat (split m "_") with hnil | ⟨ds, f, hm⟩
  · exact absurd hnil (split_ne_nil (by simp) m)
  · rw [List.concat_eq_append] at hm
    refine ⟨ds, f, hm, ?_⟩
    rw [resolve_externFile cfg hslash hm, foldl_follow_noDots]
    intro d hd hmem
    have hd : d ∈ split m "_" := by
      rw [hm]
      simp [hd]
    exact hdot ((mem_piece hd).2 _ hmem)

theorem externModule_noSeparator {c : Char} (hc : isIdentChar c = false) :
    c ∉ externModule C.moduleName (className C) := by
  rw [externModule_eq]
  split
  · exact C.name.not_mem hc
  · intro h
    rcases mem_join h with h | ⟨p, hp, h⟩
    · rw [List.mem_singleton.mp h] at hc
      exact absurd hc (by decide)
    · exact C.noDot_packTexts hp hc h

/-- The module of a root class is never where the loader looks. -/
theorem writerFile_root (h : C.pack = []) :
    resolve cfg.cwd (writerFile cfg C) ≠ resolve cfg.cwd (loaderFile cfg C.packTexts) := by
  intro heq
  have hpack : C.packTexts = [] := by simp [ClassDecl.packTexts, h]
  have hmodule : externModule C.moduleName (className C) = C.name.text := by
    rw [externModule_eq, if_pos h]
  obtain ⟨ds, f, hm, hres⟩ := exists_resolve_externFile cfg
    (externModule_noSeparator C (c := '/') (by decide))
    (externModule_noSeparator C (c := '.') (by decide))
  rw [writerFile, hres, hpack, resolve_loaderFile_root, List.append_assoc] at heq
  have htail : ds.filter (· ≠ []) ++ [f ++ ".wren"] = [] ++ [(".wren" : Text)] :=
    List.append_cancel_left heq
  obtain ⟨hds, hf⟩ := List.append_inj' htail rfl
  have hfnil : f = [] := by simpa using List.singleton_inj.mp hf
  -- all pieces are empty, so the class name is made of underscores
  have hall : ∀ c ∈ C.name.text, c = '_' := by
    intro c hc
    have hjoin := join_split (d := ['_']) (by simp) (externModule C.moduleName (className C))
    rw [show split (externModule C.moduleName (className C)) ['_'] = ds ++ [f] from hm,
      hmodule] at hjoin
    rw [← hjoin] at hc
    rcases mem_join hc with hc | ⟨p, hp, hc⟩
    · simpa using hc
    · rcases List.mem_append.mp hp with hp | hp
      · have hpnil : p = [] := by
          by_contra hne
          have : p ∈ ds.filter (· ≠ []) := List.mem_filter.mpr ⟨hp, by simpa using hne⟩
          rw [hds] at this
          simp at this
        simp [hpnil] at hc
      · rw [List.mem_singleton.mp hp, hfnil] at hc
        simp at hc
  have hlower := isLowerIdent_underscores C.name.ne_nil hall
  rw [C.name.upper] at hlower
  exact Bool.noConfusion hlower

/-- Writer and loader agree on a package only if no segment holds an underscore. -/
theorem noUnderscore_of_writerFile (h : C.pack ≠ [])
    (heq : resolve cfg.cwd (writerFile cfg C) = resolve cfg.cwd (loaderFile cfg C.packTexts)) :
    ∀ p ∈ C.packTexts, '_' ∉ p := by
  rcases List.eq_nil_or_concat C.packTexts with hnil | ⟨ps, p, hpack⟩
  · exact absurd hnil ((C.packTexts_ne_nil_iff).mpr h)
  · rw [List.concat_eq_append] at hpack
    have hplain : ∀ q ∈ ps ++ [p], PlainName q := by
      rw [← hpack]
      exact fun q hq => C.plain_packTexts hq
    obtain ⟨ds, f, hm, hres⟩ := exists_resolve_externFile cfg
      (externModule_noSeparator C (c := '/') (by decide))
      (externModule_noSeparator C (c := '.') (by decide))
    rw [writerFile, hres, hpack, resolve_loaderFile cfg hplain] at heq
    obtain ⟨hdir, hf⟩ := List.append_inj' heq rfl
    have hf : f = p := List.append_cancel_right (List.singleton_inj.mp hf)
    have hds : ds.filter (· ≠ []) = ps := List.append_cancel_left hdir
    intro q hq
    refine (mem_piece (x := '_') (s := externModule C.moduleName (className C)) ?_).1
    rw [show split (externModule C.moduleName (className C)) ['_'] = ds ++ [f] from hm, hf]
    rw [hpack, List.mem_append] at hq
    rcases hq with hq | hq
    · rw [← hds] at hq
      exact List.mem_append_left _ (List.mem_filter.mp hq).1
    · exact List.mem_append_right _ hq

/-- Without underscores the writers follow the segments like the loader. -/
theorem writerFile_of_noUnderscore (h : C.pack ≠ []) (hu : ∀ p ∈ C.packTexts, '_' ∉ p) :
    resolve cfg.cwd (writerFile cfg C) = resolve cfg.cwd (loaderFile cfg C.packTexts) := by
  have hne := (C.packTexts_ne_nil_iff).mpr h
  rcases List.eq_nil_or_concat C.packTexts with hnil | ⟨ps, p, hpack⟩
  · exact absurd hnil hne
  · rw [List.concat_eq_append] at hpack
    have hplain : ∀ q ∈ ps ++ [p], PlainName q := by
      rw [← hpack]
      exact fun q hq => C.plain_packTexts hq
    have hsplit : split (externModule C.moduleName (className C)) "_" = ps ++ [p] := by
      rw [externModule_eq, if_neg h, ← hpack]
      exact split_join hne hu
    have hnames : ∀ d ∈ ps, '.' ∉ d := fun d hd =>
      C.noDot_packTexts (by simp [hpack, hd]) (by decide)
    rw [writerFile, resolve_externFile cfg (externModule_noSeparator C (by decide)) hsplit,
      foldl_follow_noDots hnames, hpack, resolve_loaderFile cfg hplain,
      List.filter_eq_self.mpr fun d hd => by
        simpa using (hplain d (by simp [hd])).ne_nil]

/-- **The four paths agree exactly for the packages of one plain segment.** -/
theorem pathsAgree_iff : PathsAgree cfg C ↔ C.SimplePackage := by
  constructor
  · intro h
    have hroot : C.pack ≠ [] := fun hnil => writerFile_root cfg C hnil h.writer
    have hu := noUnderscore_of_writerFile cfg C hroot h.writer
    rcases List.eq_nil_or_concat C.packTexts with hnil | ⟨ps, p, hpack⟩
    · exact absurd hnil ((C.packTexts_ne_nil_iff).mpr hroot)
    · rw [List.concat_eq_append] at hpack
      have hplain : ∀ q ∈ ps ++ [p], PlainName q := by
        rw [← hpack]
        exact fun q hq => C.plain_packTexts hq
      -- the dotted text has no underscore either, so it is one component
      have hnot : ∀ c, c = '_' ∨ c = '/' → c ∉ superModule C := by
        intro c hc hmem
        rw [superModule_eq, if_neg hroot] at hmem
        rcases mem_join hmem with hdot | ⟨q, hq, hmem⟩
        · rw [List.mem_singleton.mp hdot] at hc
          exact absurd hc (by decide)
        · rcases hc with rfl | rfl
          · exact hu q hq hmem
          · exact C.noDot_packTexts hq (by decide) hmem
      have hself : split (superModule C) "_" = [] ++ [superModule C] :=
        split_of_not_mem (hnot '_' (Or.inl rfl))
      have hread := h.superRead
      rw [superReadFile, resolve_externFile cfg (hnot '/' (Or.inr rfl)) hself, hpack,
        resolve_loaderFile cfg hplain] at hread
      obtain ⟨hdir, -⟩ := List.append_inj' hread rfl
      have hps : ps = [] := by simpa using hdir
      exact ⟨p, by rw [hpack, hps]; rfl, hu p (by simp [hpack])⟩
  · rintro ⟨p, hpack, hp⟩
    have hroot : C.pack ≠ [] := by
      rw [← C.packTexts_ne_nil_iff, hpack]
      simp
    have hmodule : superModule C = p := by rw [superModule_eq, if_neg hroot, hpack, join_singleton]
    have hextern : externModule C.moduleName (className C) = p := by
      rw [externModule_eq, if_neg hroot, hpack, join_singleton]
    have hcut : (cutModule cfg p).2 = p := by rw [cutModule, if_neg hp]
    have hwriter := writerFile_of_noUnderscore cfg C hroot (by simpa [hpack] using hp)
    have hread : superReadFile cfg C = writerFile cfg C := by
      rw [superReadFile, writerFile, hmodule, hextern]
    have hwrite : superWriteFile cfg C = writerFile cfg C := by
      rw [superWriteFile, writerFile, hmodule, hextern, hcut]
    exact ⟨hwriter, by rw [hread, hwriter], by rw [hwrite, hwriter]⟩

end Class

/--
**One file for every package, exactly for the simple packages.**  Of two packages the
four paths agree for each and different packages have different files if and only
if both are a single segment without underscores.
-/
theorem modulePaths_iff (cfg : Config) (C D : ClassDecl) :
    (PathsAgree cfg C ∧ PathsAgree cfg D ∧
        (C.packTexts ≠ D.packTexts →
          resolve cfg.cwd (writerFile cfg C) ≠ resolve cfg.cwd (writerFile cfg D))) ↔
      C.SimplePackage ∧ D.SimplePackage := by
  rw [pathsAgree_iff, pathsAgree_iff]
  refine ⟨fun h => ⟨h.1, h.2.1⟩, fun ⟨hC, hD⟩ => ⟨hC, hD, fun hne heq => hne ?_⟩⟩
  have hCagree := (pathsAgree_iff cfg C).mpr hC
  have hDagree := (pathsAgree_iff cfg D).mpr hD
  obtain ⟨p, hp, -⟩ := hC
  obtain ⟨q, hq, -⟩ := hD
  have hplain : ∀ (E : ClassDecl) (r : Text), E.packTexts = [r] → ∀ x ∈ [] ++ [r], PlainName x := by
    intro E r hr x hx
    exact E.plain_packTexts (by simpa [hr] using hx)
  rw [hCagree.writer, hDagree.writer, hp, hq, ← List.nil_append [p], ← List.nil_append [q],
    resolve_loaderFile cfg (hplain C p hp), resolve_loaderFile cfg (hplain D q hq)] at heq
  have hlast := (List.append_inj' heq rfl).2
  rw [hp, hq, List.append_cancel_right (List.singleton_inj.mp hlast)]

namespace Sample

/-- `my_game.Board`. -/
def board : LocalClass := bareClass [segment "my_game"] (typeName "Board")

/-- `my.game.Board`. -/
def boardBelow : LocalClass := bareClass [segment "my", segment "game"] board.name

/-- The module of `my_game` is not where the loader looks, and it is written over that of
`my.game`. -/
theorem board_not_pathsAgree :
    ¬ PathsAgree config board.toClassDecl ∧
      board.packTexts ≠ boardBelow.packTexts ∧
      resolve config.cwd (writerFile config board.toClassDecl)
        = resolve config.cwd (writerFile config boardBelow.toClassDecl) := by
  refine ⟨fun h => ?_, by decide, by decide⟩
  have hne : resolve config.cwd (writerFile config board.toClassDecl)
      ≠ resolve config.cwd (loaderFile config board.packTexts) := by decide
  exact hne h.writer

end Sample

end Wrenegade
