/-
The Wren side of the bindings: `genWrenExterns` and the file it writes.

An extern block is one `foreign class` with one line for each signature.  The line
is the signature with the class name taken off the front and every underscore
turned into a numbered argument.  The file is found from the module text by
cutting it at the underscores: the last piece names the file, the others the
directory.
-/
import Wrenegade.Model.BindInclude

namespace Wrenegade

open Text Files

/-- `r.map` with `r = ~/_|,_/g`: every match is rewritten, `count` numbering them. -/
def numberArgs : Nat → Text → Text
  | _, [] => []
  | count, '_' :: cs => "arg" ++ ofNat (count + 1) ++ numberArgs (count + 1) cs
  | count, ',' :: '_' :: cs => ",arg" ++ ofNat (count + 1) ++ numberArgs (count + 1) cs
  | count, c :: cs => c :: numberArgs count cs

/-- The declaration of one member. -/
def externLine (className sig : Text) : Text :=
  "\tforeign " ++ numberArgs 0 (replace sig (className ++ ".") []) ++ "\n"

/-- `construct new(arg0, …)`. -/
def constructLine (n : Nat) : Text :=
  "\tconstruct new(" ++ join (params n) ", " ++ ")\x7b\x7d\n"

def externBlock (className : Text) (signatures : List Text) (hasConstructor : Bool)
    (constructorParamsSize : Nat) : Text :=
  "foreign class " ++ className ++ " \x7b\n" ++
    (if hasConstructor then constructLine constructorParamsSize else []) ++
    signatures.flatMap (externLine className) ++ "\x7d\n"

/-! ### Where the block goes -/

def wrenDir (cfg : Config) : Text := cfg.bindingsDir ++ "/wren"

/-- The directory and the file name cut out of a module text. -/
def cutModule (cfg : Config) (module_ : Text) : Text × Text :=
  if '_' ∈ module_ then
    let spl := split module_ "_"
    (wrenDir cfg ++ "/" ++ join spl.dropLast "/", spl.getLastD [])
  else (wrenDir cfg, module_)

def wrenFile (dir file : Text) : Text := dir ++ "/" ++ file ++ ".wren"

/-- `sys.io.File.saveContent`. -/
def saveContent (cfg : Config) (path content : Text) (fs : FileSystem) :
    Except GenError FileSystem :=
  match fs.saveContent (resolve cfg.cwd path) content with
  | some fs' => .ok fs'
  | none => .error (.noSuchFile path)

/-- `sys.io.File.getContent`. -/
def getContent (cfg : Config) (path : Text) (fs : FileSystem) : Except GenError Text :=
  match fs.getContent (resolve cfg.cwd path) with
  | some content => .ok content
  | none => .error (.noSuchFile path)

/-- Append the block of a class to `buf` and write the file of the module. -/
def genWrenExterns (cfg : Config) (buf className module_ : Text) (signatures : List Text)
    (hasConstructor : Bool) (constructorParamsSize : Nat) (fs : FileSystem) :
    Except GenError FileSystem :=
  let (wrenPath, file) := cutModule cfg module_
  let fs := if fs.exists_ (resolve cfg.cwd wrenPath) then fs
    else fs.createDirectory (resolve cfg.cwd wrenPath)
  saveContent cfg (wrenFile wrenPath file)
    (buf ++ externBlock className signatures hasConstructor constructorParamsSize) fs

end Wrenegade
