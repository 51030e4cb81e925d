/-
The static tables of the generator, and the paths it derives from the configuration.

The generator keeps ten tables in static variables.  Registration fills them,
`genContent` reads them, `reset` replaces them by empty ones.  What survives
`reset` is the list of module paths and the package table the dispatcher is made
from, and the files on disk.

Next to the statics the state carries two things the source does not store: what
`createPath` put into the binding files last, and the units `genContent` has
written so far.  They are records of output that went to the file system in the
same step.
-/
import Wrenegade.Model.Haxe
import Wrenegade.Lib.Files

namespace Wrenegade

open Text Files

/-- `.wrenconfig`, the directory the compiler runs in, and the order in which its
hash maps hand out keys. -/
structure Config where
  cwd : Text
  bindingsDir : Text
  wrenlibpath : Text
  order : HashOrder
  cwd_absolute : cwd.head? = some '/'

/-- Why a run of the macro ends early. -/
inductive GenError
  /-- A field access on `null`. -/
  | nullAccess
  /-- A file, or the directory to put it in, is not there. -/
  | noSuchFile (path : Text)
  /-- The recursion along the superclass went on past the fuel. -/
  | outOfFuel
deriving DecidableEq

/-! ### Paths -/

def cpath (cfg : Config) : Text := HaxePath.join [cfg.bindingsDir, "c"] ++ "/"

def bindCPath (cfg : Config) (C : ClassDecl) : Text :=
  HaxePath.join [cfg.bindingsDir, "c", join (split C.localModule ".") "/"]

/-- `bindCPath.replace(cpath, "")`, the module path in front of every generated name. -/
def bindPart (cfg : Config) (C : ClassDecl) : Text := replace (bindCPath cfg C) (cpath cfg) []

/-- The class name `init` takes from the end of the dotted name. -/
def className (C : ClassDecl) : Text := (split C.moduleName ".").getLastD []

/-! ### Tables -/

structure Tables where
  bindClassSignatureMap : TextMap Text
  bindSignatureMap : TextMap Text
  /-- The arguments of a method; `none` is the `null` stored for a variable. -/
  bindMethodMap : TextMap (Option (List Text))
  bindCMethodMap : TextMap Text
  bindCClassMap : TextMap Text
  bindCClassArgsMap : TextMap (List Text)
  foreignFuncsDec : List Text
  foreignConstructorDec : List Text
  bindCModules : TextMap Text
  packageMap : TextMap Text

/-- What `reset` leaves. -/
def Tables.empty : Tables where
  bindClassSignatureMap := ∅
  bindSignatureMap := ∅
  bindMethodMap := ∅
  bindCMethodMap := ∅
  bindCClassMap := ∅
  bindCClassArgsMap := ∅
  foreignFuncsDec := []
  foreignConstructorDec := []
  bindCModules := ∅
  packageMap := ∅

/-- The declaration of a foreign function. -/
def foreignFunc (funcName : Text) : Text := "static void " ++ funcName ++ "(WrenVM *vm);"

/-- The function name read back from its declaration. -/
def funcSig (func : Text) : Text :=
  replace (replace func "static void " []) "(WrenVM *vm);" []

end Wrenegade
