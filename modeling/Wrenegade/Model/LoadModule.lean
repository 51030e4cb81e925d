/-
How an import finds the source of its module.

A script imports a module by name, and the VM asks the host for the source.  The host
looks for a file: first among the generated bindings, if the word `foreign` stands in the
name, and else under the name itself.  What it hands back is a buffer, which the compiler
reads as a C string.

A file system is what the process can see of it: for a path, what is there and whether it
can be opened.  The two questions are asked by different calls, and a directory may well
be opened and then not read.
-/
import Wrenegade.Model.WrenApi

namespace Wrenegade

open Text

/-! ### C strings and files -/

/-- What a pointer to characters stands for. -/
structure CString where
  text : Text
  noNul : '\x00' ∉ text
deriving DecidableEq

theorem not_mem_cString (text : Text) : '\x00' ∉ cString text := by
  intro h
  have hne := List.mem_takeWhile_imp h
  simp at hne

def c_str (text : Text) : CString := ⟨cString text, not_mem_cString text⟩

inductive FileEntry
  | file (content : Text) (opens : Bool)
  | directory (opens : Bool)

/-- Whether it can be opened for reading. -/
def FileEntry.opens : FileEntry → Bool
  | .file _ opens => opens
  | .directory opens => opens

/-- What a stream gets out of it. -/
def FileEntry.characters : FileEntry → Text
  | .file content true => content
  | _ => []

/-- What the paths lead to. -/
abbrev FileState := CString → Option FileEntry

/-! ### Streams -/

/-- A `std::stringstream`; once it has failed it takes no more characters. -/
structure StringStream where
  str : Text
  failbit : Bool

namespace StringStream

def empty : StringStream := { str := [], failbit := false }

/-- `<< rdbuf()`; a buffer that yields no characters sets the fail bit. -/
def insertBuf (s : StringStream) (characters : Text) : StringStream :=
  if s.failbit then s
  else if characters = [] then { s with failbit := true }
  else { s with str := s.str ++ characters }

def insertChar (s : StringStream) (c : Char) : StringStream :=
  if s.failbit then s else { s with str := s.str ++ [c] }

end StringStream

/-! ### `loadModuleFn` -/

section Load

variable (fs : FileState)

def fileExists (file : Text) : Bool := (fs (c_str file)).isSome

def fileToString (file : Text) : Except Text Text :=
  if fileExists fs file then
    -- without a file the stream has no characters
    let fin := (fs (c_str file)).elim [] FileEntry.characters
    .ok ((StringStream.empty.insertBuf fin).insertChar '\x00').str
  else .error "file not found!"

/-- Whether there was something to replace, and the text after. -/
def replaceString (str from_ to_ : Text) : Bool × Text :=
  match find str from_ with
  | none => (false, str)
  | some start_pos =>
      (true, str.take start_pos ++ to_ ++ str.drop (start_pos + from_.length))

def bindings_exist (name : Text) : Bool := (fs (c_str name)).elim false FileEntry.opens

def BIND_PATH (bindingsDir : CString) : Text := bindingsDir.text ++ "/wren"

/-- The path that is read. -/
def loadPath (bindingsDir mod : CString) : Text :=
  let str := replaceString mod.text "foreign" ""
  let base := BIND_PATH bindingsDir ++ str.2
  let mod := if str.1 && bindings_exist fs (base ++ ".wren") then c_str base else mod
  mod.text ++ ".wren"

/-- The buffer holds the characters of the source and no more; `none` is `NULL`. -/
def loadModuleFn (bindingsDir mod : CString) : Option Text :=
  match fileToString fs (loadPath fs bindingsDir mod) with
  | .ok source => some source
  | .error _ => none

end Load

/-! ### The VM -/

/-- A buffer read up to its terminator; without one the read goes on behind it. -/
def readCString (buffer : Text) : Option Text :=
  if '\x00' ∈ buffer then some (cString buffer) else none

/-- What becomes of an import. -/
inductive Imported
  | compiles (source : Text)
  /-- The compiler reads behind the buffer. -/
  | overrun
  | error (message : Text)
deriving DecidableEq

/-- The import of a module that is not loaded yet; `optional` are the sources built into the
VM. -/
def importModule (fs : FileState) (bindingsDir : CString) (optional : Text → Option Text)
    (name : Text) : Imported :=
  match loadModuleFn fs bindingsDir (c_str name) with
  | some source => (readCString source).elim .overrun .compiles
  | none =>
      match optional (cString name) with
      | some source => .compiles source
      | none => .error ("Could not load module '" ++ name ++ "'.")

end Wrenegade
