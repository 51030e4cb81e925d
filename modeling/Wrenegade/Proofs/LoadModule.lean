/-
Which imports get the content of their file.

The buffer of a file is terminated by one more character written to the stream.  Nothing
more is written to a stream that has failed, and it has failed when the file yielded no
characters: the buffer of an empty file is empty, and not terminated.

The name is looked up among the bindings for the word `foreign` anywhere in it, and whether
there is such a file is asked by opening it.  The right file is taken for every name that
begins with `foreign/`, as long as files can be opened and nothing but files can; and for
every other name as long as nothing stands under the name without that word.
-/
import Wrenegade.Model.LoadModule
import Wrenegade.Proofs.Decoding

namespace Wrenegade

open Text

variable (fs : FileState) (bindingsDir mod : CString)

/-! ### What is asked for -/

/-- The content of a file; a directory has none. -/
def FileEntry.content : FileEntry → Option Text
  | .file content _ => some content
  | .directory _ => none

def fileContent (path : Text) : Option Text := (fs (c_str path)).bind FileEntry.content

/-- The file of a generated binding. -/
def foreignFile : Text :=
  BIND_PATH bindingsDir ++ mod.text.drop ("foreign" : Text).length ++ ".wren"

/-- The file a name stands for. -/
def resolvedFile : Text :=
  if ("foreign/" : Text) <+: mod.text ∧ (fileContent fs (foreignFile bindingsDir mod)).isSome then
    foreignFile bindingsDir mod
  else mod.text ++ ".wren"

/-- The file is the one the name stands for; there is no buffer exactly if there is no such
file, and the buffer reads as the content of the file. -/
structure LoadsModule : Prop where
  path : loadPath fs bindingsDir mod = resolvedFile fs bindingsDir mod
  null : loadModuleFn fs bindingsDir mod = none ↔
    fileContent fs (resolvedFile fs bindingsDir mod) = none
  content : ∀ content, fileContent fs (resolvedFile fs bindingsDir mod) = some content →
    '\x00' ∉ content →
    ∃ buffer, loadModuleFn fs bindingsDir mod = some buffer ∧ readCString buffer = some content

/-! ### The path -/

/-- The file that is looked for among the bindings. -/
def strippedFile : Text :=
  BIND_PATH bindingsDir ++ (replaceString mod.text "foreign" "").2 ++ ".wren"

theorem replaceString_without {str from_ : Text} (h : ¬ from_ <:+: str) (to_ : Text) :
    replaceString str from_ to_ = (false, str) := by
  rw [replaceString, find_eq_none_iff.mpr h]

theorem replaceString_infix {str from_ : Text} (h : from_ <:+: str) :
    ∃ before after, str = before ++ (from_ ++ after) ∧
      ∀ to_, replaceString str from_ to_ = (true, before ++ to_ ++ after) := by
  cases hfind : find str from_ with
  | none => exact absurd h (find_eq_none_iff.mp hfind)
  | some pos =>
      refine ⟨_, _, split_at_find hfind, fun to_ => ?_⟩
      rw [replaceString, hfind]

theorem replaceString_front {str from_ : Text} (h : from_ <+: str) :
    replaceString str from_ "" = (true, str.drop from_.length) := by
  rw [replaceString, find_front h]
  show (true, [] ++ [] ++ str.drop (0 + from_.length)) = _
  rw [List.nil_append, List.nil_append, Nat.zero_add]

theorem c_str_text {text : Text} (h : '\x00' ∉ text) : (c_str text).text = text :=
  cString_eq_iff.mpr h

/-- The path that is taken. -/
theorem loadPath_eq :
    loadPath fs bindingsDir mod =
      if ("foreign" : Text) <:+: mod.text ∧
          bindings_exist fs (strippedFile bindingsDir mod) = true then
        strippedFile bindingsDir mod
      else mod.text ++ ".wren" := by
  by_cases hin : ("foreign" : Text) <:+: mod.text
  · obtain ⟨before, after, hsplit, hreplace⟩ := replaceString_infix hin
    have hnul := mod.noNul
    rw [hsplit, List.mem_append, List.mem_append, not_or, not_or] at hnul
    have hbase : '\x00' ∉ BIND_PATH bindingsDir ++ (before ++ ("" : Text) ++ after) := by
      refine List.not_mem_append (List.not_mem_append bindingsDir.noNul (by decide)) ?_
      exact List.not_mem_append (List.not_mem_append hnul.1 (by decide)) hnul.2.2
    unfold loadPath strippedFile
    rw [hreplace]
    simp only [Bool.true_and]
    by_cases hopens : bindings_exist fs
        (BIND_PATH bindingsDir ++ (before ++ ("" : Text) ++ after) ++ (".wren" : Text)) = true
    · rw [if_pos hopens, if_pos ⟨hin, hopens⟩, c_str_text hbase]
    · rw [if_neg hopens, if_neg fun h => hopens h.2]
  · unfold loadPath
    rw [replaceString_without hin, if_neg fun h => hin h.1]
    rfl

/-- `foreign/` at the front. -/
theorem strippedFile_front (h : ("foreign/" : Text) <+: mod.text) :
    ("foreign" : Text) <:+: mod.text ∧ strippedFile bindingsDir mod = foreignFile bindingsDir mod := by
  have hfront : ("foreign" : Text) <+: mod.text := List.IsPrefix.trans ⟨['/'], rfl⟩ h
  refine ⟨hfront.isInfix, ?_⟩
  rw [strippedFile, foreignFile, replaceString_front hfront]

/-- The two files that can be taken are not the same: one name has a slash more. -/
theorem strippedFile_ne (hin : ("foreign" : Text) <:+: mod.text) :
    strippedFile bindingsDir mod ≠ mod.text ++ ".wren" := by
  obtain ⟨before, after, hsplit, hreplace⟩ := replaceString_infix hin
  intro heq
  have hword : ("foreign" : Text).count '/' = 0 := rfl
  have hsub : ("/wren" : Text).count '/' = 1 := rfl
  have hcount := congrArg (List.count '/') heq
  rw [strippedFile, hreplace, hsplit, BIND_PATH] at hcount
  simp only [List.count_append, hword, hsub] at hcount
  omega

/-- What the lookup has to find: for a name that begins with `foreign/`, the file of the
binding can be opened and nothing else under its path; for any other name there is nothing to
be opened. -/
def Resolves : Prop :=
  if ("foreign/" : Text) <+: mod.text then
    (bindings_exist fs (foreignFile bindingsDir mod) = true ↔
      (fileContent fs (foreignFile bindingsDir mod)).isSome)
  else ("foreign" : Text) <:+: mod.text →
    bindings_exist fs (strippedFile bindingsDir mod) = false

theorem loadPath_eq_iff :
    loadPath fs bindingsDir mod = resolvedFile fs bindingsDir mod ↔
      Resolves fs bindingsDir mod := by
  rw [loadPath_eq]
  unfold Resolves
  by_cases hfront : ("foreign/" : Text) <+: mod.text
  · obtain ⟨hin, hsame⟩ := strippedFile_front bindingsDir mod hfront
    have hne := strippedFile_ne bindingsDir mod hin
    unfold resolvedFile
    rw [hsame] at hne ⊢
    rw [if_pos hfront]
    by_cases hopens : bindings_exist fs (foreignFile bindingsDir mod) = true
    · by_cases hfile : (fileContent fs (foreignFile bindingsDir mod)).isSome
      · rw [if_pos ⟨hin, hopens⟩, if_pos ⟨hfront, hfile⟩]
        exact iff_of_true rfl (iff_of_true hopens hfile)
      · rw [if_pos ⟨hin, hopens⟩, if_neg fun h => hfile h.2]
        exact iff_of_false hne fun h => hfile (h.mp hopens)
    · by_cases hfile : (fileContent fs (foreignFile bindingsDir mod)).isSome
      · rw [if_neg fun h => hopens h.2, if_pos ⟨hfront, hfile⟩]
        exact iff_of_false hne.symm fun h => hopens (h.mpr hfile)
      · rw [if_neg fun h => hopens h.2, if_neg fun h => hfile h.2]
        exact iff_of_true rfl (iff_of_false hopens hfile)
  · have hname : resolvedFile fs bindingsDir mod = mod.text ++ ".wren" :=
      if_neg fun h => hfront h.1
    rw [hname, if_neg hfront]
    by_cases hopens : ("foreign" : Text) <:+: mod.text ∧
        bindings_exist fs (strippedFile bindingsDir mod) = true
    · rw [if_pos hopens]
      refine iff_of_false (strippedFile_ne bindingsDir mod hopens.1) fun h => ?_
      rw [h hopens.1] at hopens
      exact Bool.noConfusion hopens.2
    · rw [if_neg hopens]
      refine iff_of_true rfl fun hin => ?_
      exact Bool.eq_false_of_not_eq_true fun h => hopens ⟨hin, h⟩

/-! ### The content -/

/-- What can be loaded: a file that is opened and has characters.  If the content is not text
anyway, any buffer will do. -/
def FileEntry.Loads : FileEntry → Prop
  | .file content opens => '\x00' ∈ content ∨ (opens = true ∧ content ≠ [])
  | .directory _ => False

theorem fileToString_eq (path : Text) :
    fileToString fs path =
      match fs (c_str path) with
      | none => .error "file not found!"
      | some e => .ok (if e.characters = [] then [] else e.characters ++ ['\x00']) := by
  unfold fileToString fileExists
  cases fs (c_str path) with
  | none => rfl
  | some e =>
      by_cases hnil : e.characters = []
      · simp [StringStream.empty, StringStream.insertBuf, StringStream.insertChar, hnil]
      · simp [StringStream.empty, StringStream.insertBuf, StringStream.insertChar, hnil]

theorem loadModuleFn_eq :
    loadModuleFn fs bindingsDir mod =
      (fs (c_str (loadPath fs bindingsDir mod))).map fun e =>
        if e.characters = [] then [] else e.characters ++ ['\x00'] := by
  rw [loadModuleFn, fileToString_eq]
  cases fs (c_str (loadPath fs bindingsDir mod)) with
  | none => rfl
  | some e => rfl

/-- Terminated, and read back up to there. -/
theorem readCString_terminated {content : Text} (h : '\x00' ∉ content) :
    readCString (content ++ ['\x00']) = some content := by
  rw [readCString, if_pos (by simp), cString, List.takeWhile_append_of_pos]
  · simp
  · intro c hc
    simpa using fun heq : c = '\x00' => h (heq ▸ hc)

theorem readCString_nil : readCString [] = none := rfl

/-- **Whether a file is loaded right.** -/
theorem loads_iff {e : FileEntry} {path : Text} (hentry : fs (c_str path) = some e)
    (hpath : loadPath fs bindingsDir mod = path) :
    ((loadModuleFn fs bindingsDir mod = none ↔ fileContent fs path = none) ∧
      ∀ content, fileContent fs path = some content → '\x00' ∉ content →
        ∃ buffer, loadModuleFn fs bindingsDir mod = some buffer ∧
          readCString buffer = some content) ↔ e.Loads := by
  rw [loadModuleFn_eq, hpath, fileContent, hentry, Option.map_some, Option.bind_some]
  cases e with
  | directory opens =>
      refine iff_of_false (fun h => ?_) id
      cases h.1.mpr rfl
  | file content opens =>
      have hnull : ∀ buffer : Text,
          (some buffer = none ↔ (FileEntry.file content opens).content = none) :=
        fun _ => ⟨nofun, nofun⟩
      constructor
      · rintro ⟨-, h⟩
        by_cases hnul : '\x00' ∈ content
        · exact Or.inl hnul
        · obtain ⟨buffer, hbuffer, hread⟩ := h content rfl hnul
          rw [Option.some.injEq] at hbuffer
          by_cases hnil : (FileEntry.file content opens).characters = []
          · rw [← hbuffer, if_pos hnil, readCString_nil] at hread
            cases hread
          · cases opens with
            | true => exact Or.inr ⟨rfl, hnil⟩
            | false => exact absurd rfl hnil
      · intro h
        refine ⟨hnull _, fun content' hcontent hnul => ?_⟩
        obtain rfl : content = content' := Option.some.inj hcontent
        obtain ⟨rfl, hne⟩ := h.resolve_left hnul
        refine ⟨_, rfl, ?_⟩
        rw [FileEntry.characters, if_neg hne]
        exact readCString_terminated hnul

/--
**Which imports are right.**  For every file system, directory of bindings and name, the file
the name stands for is the one that is loaded, with its content, if and only if the lookup
among the bindings is right, and what the name stands for, if there is something, is a file
that can be opened and is not empty, or has a NUL in it.
-/
theorem loadsModule_iff :
    LoadsModule fs bindingsDir mod ↔
      Resolves fs bindingsDir mod ∧
        ∀ e, fs (c_str (resolvedFile fs bindingsDir mod)) = some e → e.Loads := by
  rw [← loadPath_eq_iff]
  constructor
  · rintro ⟨hpath, hnull, hcontent⟩
    exact ⟨hpath, fun e he => (loads_iff fs bindingsDir mod he hpath).mp ⟨hnull, hcontent⟩⟩
  · rintro ⟨hpath, hloads⟩
    cases hentry : fs (c_str (resolvedFile fs bindingsDir mod)) with
    | none =>
        have hnone : fileContent fs (resolvedFile fs bindingsDir mod) = none := by
          rw [fileContent, hentry]
          rfl
        refine ⟨hpath, iff_of_true ?_ hnone, fun content h => ?_⟩
        · rw [loadModuleFn_eq, hpath, hentry]
          rfl
        · rw [hnone] at h
          cases h
    | some e =>
        obtain ⟨hnull, hcontent⟩ := (loads_iff fs bindingsDir mod hentry hpath).mpr (hloads e hentry)
        exact ⟨hpath, hnull, hcontent⟩

/-! ### Imports -/

section Import

variable {fs} {bindingsDir} {name : Text} (optional : Text → Option Text)

/-- The compiler gets the content of the file. -/
theorem LoadsModule.compiles (h : LoadsModule fs bindingsDir (c_str name)) {content : Text}
    (hfile : fileContent fs (resolvedFile fs bindingsDir (c_str name)) = some content)
    (hnul : '\x00' ∉ content) :
    importModule fs bindingsDir optional name = .compiles content := by
  obtain ⟨buffer, hbuffer, hread⟩ := h.content content hfile hnul
  rw [importModule, hbuffer]
  simp only [hread]
  rfl

/-- Without a file it is left to the sources built into the VM. -/
theorem LoadsModule.missing (h : LoadsModule fs bindingsDir (c_str name))
    (hfile : fileContent fs (resolvedFile fs bindingsDir (c_str name)) = none) :
    importModule fs bindingsDir optional name =
      (optional (cString name)).elim (.error ("Could not load module '" ++ name ++ "'."))
        .compiles := by
  rw [importModule, h.null.mpr hfile]
  simp only
  cases optional (cString name) with
  | none => rfl
  | some source => rfl

end Import

namespace Sample

def bindings : CString := c_str "bindings"

/-- One file. -/
def oneFile (path content : Text) : FileState := fun p =>
  if p.text = path then some (.file content true) else none

/-- The buffer of an empty module has no end, and the bindings have a file for a name that does
not begin with `foreign/`. -/
theorem empty_not_loadsModule :
    ¬ LoadsModule (oneFile "empty.wren" "") bindings (c_str "empty") ∧
      ¬ LoadsModule (oneFile "bindings/wrener.wren" "1") bindings (c_str "foreigner") := by
  constructor
  · intro h
    obtain ⟨buffer, hbuffer, hread⟩ := h.content [] (by decide) (by decide)
    have hnil : loadModuleFn (oneFile "empty.wren" "") bindings (c_str "empty") = some [] := by decide
    rw [hnil, Option.some.injEq] at hbuffer
    rw [← hbuffer] at hread
    cases hread
  · intro h
    have hpath := h.path
    revert hpath
    decide

end Sample

end Wrenegade
