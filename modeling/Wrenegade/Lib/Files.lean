/-
A file system seen through path texts.

A path text is resolved against the working directory to a location, the list of
components from the root.  Empty components and `.` say nothing, `..` goes up.
Two texts name the same file exactly when they resolve to the same location; the
texts themselves may well differ (`a//b`, `a/./b`).

The system stores directories and file contents by location.  Writing needs the
directory to be there, reading needs the file, and these are the only failures.
-/
import Wrenegade.Lib.Path

namespace Files

open Text HaxePath

/-- The components from the root to a file or directory. -/
abbrev Location := List Text

/-- Follow one component of a path. -/
def follow (loc : Location) (component : Text) : Location :=
  if component = [] ∨ component = "." then loc
  else if component = ".." then loc.dropLast
  else loc ++ [component]

/-- The path, made absolute with the working directory. -/
def absolutePath (cwd path : Text) : Text :=
  if path.head? = some '/' then path
  else (if cwd.getLast? = some '/' then cwd else cwd ++ "/") ++ path

/-- Where a path text leads. -/
def resolve (cwd path : Text) : Location :=
  (split (absolutePath cwd path) "/").foldl follow []

structure FileSystem where
  dirs : List Location
  files : List (Location × Text)

namespace FileSystem

/-- A directory that was created is there, and so are the directories it is in. -/
def isDirectory (fs : FileSystem) (loc : Location) : Bool :=
  loc = [] || fs.dirs.any fun d => loc.isPrefixOf d

def getContent (fs : FileSystem) (loc : Location) : Option Text := fs.files.lookup loc

def exists_ (fs : FileSystem) (loc : Location) : Bool :=
  fs.isDirectory loc || (fs.getContent loc).isSome

def createDirectory (fs : FileSystem) (loc : Location) : FileSystem :=
  { fs with dirs := loc :: fs.dirs }

/-- Write a file; this fails when its directory is not there. -/
def saveContent (fs : FileSystem) (loc : Location) (content : Text) : Option FileSystem :=
  if fs.isDirectory loc.dropLast then some { fs with files := (loc, content) :: fs.files }
  else none

/-! ### Reading after writing -/

@[simp] theorem getContent_createDirectory (fs : FileSystem) (d loc : Location) :
    (fs.createDirectory d).getContent loc = fs.getContent loc := rfl

theorem getContent_saveContent {fs fs' : FileSystem} {loc : Location} {content : Text}
    (h : fs.saveContent loc content = some fs') (l : Location) :
    fs'.getContent l = if l = loc then some content else fs.getContent l := by
  rw [saveContent] at h
  split at h
  · rw [Option.some.injEq] at h
    subst h
    rw [getContent, List.lookup_cons]
    by_cases hl : l = loc
    · simp [hl]
    · have hbeq : (l == loc) = false := by simpa using hl
      rw [hbeq, if_neg hl]
      rfl
  · simp at h

/-- A file was written into a directory. -/
theorem isDirectory_saveContent {fs fs' : FileSystem} {loc : Location} {content : Text}
    (h : fs.saveContent loc content = some fs') : fs'.isDirectory loc.dropLast = true := by
  rw [saveContent] at h
  split at h
  · rename_i hdir
    rw [Option.some.injEq] at h
    subst h
    exact hdir
  · simp at h

theorem dirs_saveContent {fs fs' : FileSystem} {loc : Location} {content : Text}
    (h : fs.saveContent loc content = some fs') : fs'.dirs = fs.dirs := by
  rw [saveContent] at h
  split at h
  · rw [Option.some.injEq] at h
    subst h
    rfl
  · simp at h

end FileSystem

/-! ### Resolving a path component by component -/

theorem follow_plain {p : Text} (h0 : p ≠ []) (h1 : p ≠ ".") (h2 : p ≠ "..") (loc : Location) :
    follow loc p = loc ++ [p] := by
  rw [follow, if_neg (fun h => h.elim h0 h1), if_neg h2]

/-- What is appended to a path is followed from where the path leads. -/
theorem resolve_append {a : Text} (ha : a ≠ []) (cwd b : Text) :
    resolve cwd (a ++ '/' :: b) = (split b "/").foldl follow (resolve cwd a) := by
  have habs : absolutePath cwd (a ++ '/' :: b) = absolutePath cwd a ++ '/' :: b := by
    obtain ⟨x, xs, rfl⟩ := List.exists_cons_of_ne_nil ha
    by_cases hx : x = '/' <;> simp [absolutePath, hx]
  rw [resolve, habs, show ("/" : Text) = ['/'] from rfl, split_append_delim,
    List.foldl_append]
  rfl

/-- Making a path absolute does not change where it leads. -/
theorem resolve_absolutePath {cwd : Text} (hcwd : cwd.head? = some '/') (path : Text) :
    resolve cwd (absolutePath cwd path) = resolve cwd path := by
  have habs : (absolutePath cwd path).head? = some '/' := by
    rw [absolutePath]
    split
    · assumption
    · split <;> simp [hcwd]
  rw [resolve, resolve, absolutePath, if_pos habs]

/-- A plain name appended to a path is the last component of where it leads. -/
theorem resolve_append_plain {a p : Text} (ha : a ≠ []) (h0 : p ≠ []) (h1 : p ≠ ".")
    (h2 : p ≠ "..") (h3 : '/' ∉ p) (cwd : Text) :
    resolve cwd (a ++ '/' :: p) = resolve cwd a ++ [p] := by
  rw [resolve_append ha, show ("/" : Text) = ['/'] from rfl, split_of_not_mem h3]
  exact follow_plain h0 h1 h2 _

/-- Plain names appended to a path are the last components of where it leads. -/
theorem resolve_join {a : Text} (ha : a ≠ []) {ps : List Text} (hps : ∀ p ∈ ps, PlainName p)
    (hne : ps ≠ []) (cwd : Text) :
    resolve cwd (a ++ '/' :: Text.join ps "/") = resolve cwd a ++ ps := by
  have hsplit : split (Text.join ps "/") "/" = ps := split_join hne fun p hp => (hps p hp).noSlash
  have key : ∀ (qs : List Text) (loc : Location), (∀ q ∈ qs, PlainName q) →
      qs.foldl follow loc = loc ++ qs := by
    intro qs
    induction qs with
    | nil => intro loc _; simp
    | cons q qs ih =>
        intro loc hq
        have hplain := hq q (by simp)
        rw [List.foldl_cons, follow_plain hplain.ne_nil hplain.ne_dot hplain.ne_dotdot,
          ih _ fun r hr => hq r (by simp [hr])]
        simp
  rw [resolve_append ha, hsplit, key ps _ hps]

/-- A slash at the end does not change where a path leads. -/
theorem resolve_slash {a : Text} (ha : a ≠ []) (cwd : Text) :
    resolve cwd (a ++ "/") = resolve cwd a := by
  show resolve cwd (a ++ '/' :: []) = _
  rw [resolve_append ha, split_nil (by simp)]
  simp [follow]

/-! ### File name extensions -/

/-- An extension, the dot included; it does not end in a dot. -/
structure Extension (ext : Text) : Prop where
  noSlash : '/' ∉ ext
  ne_nil : ext ≠ []
  ends : ext.getLast? ≠ some '.'

/-- The end of an extension is the end of the name. -/
theorem Extension.getLast?_append {ext : Text} (hext : Extension ext) (p : Text) :
    (p ++ ext).getLast? = ext.getLast? := List.getLast?_append_of_ne_nil _ hext.ne_nil

/-- A path with an extension leads to a file with that extension. -/
theorem resolve_extension {ext : Text} (hext : Extension ext) (cwd path : Text) :
    ∃ loc p, resolve cwd (path ++ ext) = loc ++ [p ++ ext] := by
  obtain ⟨a, ha⟩ : ∃ a, absolutePath cwd (path ++ ext) = a ++ ext := by
    rw [absolutePath]
    split
    · exact ⟨path, rfl⟩
    · exact ⟨_, (List.append_assoc _ _ _).symm⟩
  obtain ⟨ps, p, hp⟩ := split_append_last hext.noSlash a
  have hdots : ∀ q : Text, q.getLast? = some '.' → p ++ ext ≠ q := by
    rintro q hq rfl
    rw [hext.getLast?_append] at hq
    exact hext.ends hq
  refine ⟨ps.foldl follow [], p, ?_⟩
  rw [resolve, ha, show ("/" : Text) = ['/'] from rfl, hp, List.foldl_append]
  exact follow_plain (by simp [hext.ne_nil]) (hdots "." (by decide)) (hdots ".." (by decide)) _

/-- Files with different extensions are different files. -/
theorem resolve_ne_of_extension {ext ext' : Text} (hext : Extension ext) (hext' : Extension ext')
    (h : ext.getLast? ≠ ext'.getLast?) (cwd path path' : Text) :
    resolve cwd (path ++ ext) ≠ resolve cwd (path' ++ ext') := by
  intro heq
  obtain ⟨loc, p, hp⟩ := resolve_extension hext cwd path
  obtain ⟨loc', p', hp'⟩ := resolve_extension hext' cwd path'
  rw [hp, hp'] at heq
  have hcomp : p ++ ext = p' ++ ext' := by simpa using congrArg List.getLast? heq
  apply h
  rw [← hext.getLast?_append p, hcomp, hext'.getLast?_append p']

end Files
