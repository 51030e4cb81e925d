/-
The files all classes share: `createPath`.

Every call appends the module path of the class to the list of all module paths
and rebuilds the binding files from the whole list.  Package and class are not
taken from the class but decoded from the path text, by a chain of replacements;
the result goes into `pack_sigs`, which the two dispatchers are made of.  At its
end `createPath` calls `reset`.
-/
import Wrenegade.Model.GenContent

namespace Wrenegade

open Text Files

/-! ### Decoding a module path -/

def moduleClass (module_ : Text) : Text := (split (replace module_ "c/" []) "/").getLastD []

def moduleSig (module_ : Text) : Text :=
  replace (replace (replace module_ "c/" []) "/" "_") ("_" ++ moduleClass module_) []

/-- Enter a module path into `pack_sigs`. -/
def addPackSig (packSigs : TextMap (List Text)) (module_ : Text) : TextMap (List Text) :=
  let cls := moduleClass module_
  let sig := moduleSig module_
  match packSigs.lookup sig with
  | some mod => packSigs.insert sig (if cls ∈ mod then mod else mod ++ [cls])
  | none => packSigs.insert sig [cls]

/-! ### The dispatchers -/

/-- For each module text the class names compared and the namespace behind each. -/
abbrev DispatchTable := List (Text × List (Text × Text))

def packModule (pack : Text) : Text := "foreign/" ++ replace pack "_" "/"

def packNamespace (pack cls : Text) : Text := pack ++ "_" ++ cls ++ "_functions"

/-- The nested loops over `pack_sigs`. -/
def dispatchTable (order : HashOrder) (packSigs : TextMap (List Text)) : DispatchTable :=
  (order.keys packSigs).map fun pack =>
    (packModule pack,
      ((packSigs.lookup pack).getD []).map fun cls => (cls, packNamespace pack cls))

/-- What the generated chain of `strcmp` does: the first class that matches inside a
module that matches decides, and a module without it falls through to the next. -/
def dispatch (table : DispatchTable) (module_ className : Text) : Option Text :=
  table.findSome? fun row =>
    if module_ = row.1 then
      row.2.findSome? fun entry => if className = entry.1 then some entry.2 else none
    else none

/-! ### The binding files -/

/-- What `createPath` puts into `wren_bindings.cpp` and `wren_bindings.xml`. -/
structure Bindings where
  /-- The headers included, relative to the bindings directory. -/
  headers : List Text
  bindClass : DispatchTable
  bindMethod : DispatchTable
  /-- The per-class files listed for the compiler. -/
  cppFiles : List Text

def headerPath (module_ : Text) : Text := module_ ++ "/" ++ moduleClass module_ ++ ".h"

def cppFile (cfg : Config) (module_ : Text) : Text :=
  absolutePath cfg.cwd ("bindings/" ++ module_) ++ "/" ++ moduleClass module_ ++ ".cpp"

def genBindings (cfg : Config) (modules : List Text) (packSigs : TextMap (List Text)) :
    Bindings where
  headers := modules.map headerPath
  bindClass := dispatchTable cfg.order packSigs
  bindMethod := dispatchTable cfg.order packSigs
  cppFiles := modules.map (cppFile cfg)

def includeHeader (header : Text) : Text := "#include \"" ++ header ++ "\"\n"

def classBranch (action : Text → Text) (entry : Text × Text) : Text :=
  "\n\t\t\t\n\t\tif (strcmp(className, \"" ++ entry.1 ++ "\") == 0)\x7b\n\t\t\t" ++
    action entry.2 ++ "\n\t\t\x7d\n"

def moduleBranch (action : Text → Text) (row : Text × List (Text × Text)) : Text :=
  "\tif (strcmp(module, \"" ++ row.1 ++ "\") == 0)\x7b" ++
    row.2.flatMap (classBranch action) ++ "\t\x7d\n"

def callBindClass (ns : Text) : Text := "::" ++ ns ++ "::bindClass(methods); return;"

def callBindMethod (ns : Text) : Text := "return ::" ++ ns ++ "::bindMethod(signature);"

def bindMethodBranch (row : Text × List (Text × Text)) : Text :=
  "\n" ++ moduleBranch callBindMethod row

def Bindings.cppText (b : Bindings) : Text :=
  b.headers.flatMap includeHeader ++
  "#include \"wren_bindings.h\"\nnamespace wrenegade \x7b\n" ++
  "void bindClass(const char* module, const char* className, " ++
  "WrenForeignClassMethods* methods) \x7b\n" ++
  b.bindClass.flatMap (moduleBranch callBindClass) ++ "\n\x7d\n" ++
  "WrenForeignMethodFn bindMethod(const char* module, const char *className, " ++
  "const char* signature) \x7b\n" ++
  b.bindMethod.flatMap bindMethodBranch ++ "\n\treturn NULL;\n\x7d\n\x7d"

def bindingsHeaderText (cfg : Config) : Text :=
  "#ifndef _WREN_BINDINGS_\n#define _WREN_BINDINGS_\n\nextern \"C\"\n\x7b\n" ++
  "#include <wren.h>\n\x7d\nnamespace wrenegade \x7bstatic const char* BIND_PATH = \"" ++
  wrenDir cfg ++ "\";\n\nvoid bindClass(const char* module, const char* className, " ++
  "WrenForeignClassMethods* methods);\n" ++
  "WrenForeignMethodFn bindMethod(const char* module, const char *className, " ++
  "const char* signature);\x7d\n#endif"

def fileLine (file : Text) : Text := "\t\t<file name=\"" ++ file ++ "\" />\n"

def Bindings.xmlText (cfg : Config) (b : Bindings) : Text :=
  "<xml>\n\t<set name=\"WREN\" value=\"" ++ absolutePath cfg.cwd cfg.wrenlibpath ++
  "\" />\n\t<set name=\"WREN_BINDINGS\" value=\"" ++ absolutePath cfg.cwd cfg.bindingsDir ++
  "\" />\n\t<files id=\x27haxe\x27>\n\t\t<precompiledheader name=\"wren_bindings\" dir=\"" ++
  absolutePath cfg.cwd cfg.bindingsDir ++
  "\" />\n\t\t<precompiledheader name=\"wren\" dir=\"" ++
  absolutePath cfg.cwd (cfg.wrenlibpath ++ "/src/include") ++ "\" />\n" ++
  b.cppFiles.flatMap fileLine ++
  fileLine (absolutePath cfg.cwd "bindings" ++ "/wren_bindings.cpp") ++ "\t</files>\n</xml>"

/-! ### The state of the generator -/

structure Gen where
  modules : List Text
  packSigs : TextMap (List Text)
  tables : Tables
  fs : FileSystem
  /-- What the binding files hold. -/
  bindings : Option Bindings
  /-- The units written so far, oldest first. -/
  units : List GeneratedUnit

/-- Before the first class, on the files that are there. -/
def Gen.start (fs : FileSystem) : Gen where
  modules := []
  packSigs := ∅
  tables := Tables.empty
  fs := fs
  bindings := none
  units := []

/-- The path text `createPath` appends to `modules`. -/
def modulePath (cfg : Config) (C : ClassDecl) : Text :=
  replace (bindCPath cfg C) (cpath cfg) "c/"

/-- The directory created for a module path. -/
def makeModuleDir (cfg : Config) (fs : FileSystem) (module_ : Text) : FileSystem :=
  fs.createDirectory (resolve cfg.cwd (cfg.bindingsDir ++ "/" ++ module_))

/-- `createPath`, with the `reset` at its end. -/
def createPath (cfg : Config) (C : ClassDecl) (g : Gen) : Except GenError Gen := do
  let modules := g.modules ++ [modulePath cfg C]
  let packSigs := modules.foldl addPackSig g.packSigs
  let bindings := genBindings cfg modules packSigs
  let fs := (modules.foldl (makeModuleDir cfg) g.fs).createDirectory
    (resolve cfg.cwd (cpath cfg))
  let fs ← saveContent cfg (cfg.bindingsDir ++ "/wren_bindings.xml") (bindings.xmlText cfg) fs
  let fs ← saveContent cfg (cfg.bindingsDir ++ "/wren_bindings.h") (bindingsHeaderText cfg) fs
  let fs ← saveContent cfg (cfg.bindingsDir ++ "/wren_bindings.cpp") bindings.cppText fs
  .ok { g with modules, packSigs, fs, bindings := some bindings, tables := Tables.empty }

end Wrenegade
