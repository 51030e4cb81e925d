/-
The C++ unit of a class: `genContent` and `runInclude`.

A unit is kept as a record of what it declares and defines, with the statements of
each function body as the generator chose them; `text` prints the record as the
source prints it.  The entries `genContent` looks up may be missing.  Where the
source then prints `null` into the code, so does the printer here; where it would
access a field of `null`, the run ends with `nullAccess`.
-/
import Wrenegade.Model.Externs

namespace Wrenegade

open Text Files

/-! ### Statements -/

/-- The statements `genContent` writes into function bodies. -/
inductive Stmt
  | argument (name : Text) (slot : Nat)
  | instance_ (cModule : Text)
  | call (code : Text)
  | readMember (method : Text)
  | typeofVal
  | saveVal
  | valuePointer
  | loadValue
  | assignValue (target : Text)
  | newForeign (cls : Text)
  | dynamicArgument (name : Text)
  | object (cModule : Text)
  | newData (params : List Text)
  | copyData (cls : Text)
deriving DecidableEq

/-- Classes, packages and members go by their names in Haxe here, whatever hxcpp calls them in
C++: a name that is reserved there is another one (`cppName`). -/
def Stmt.text : Stmt → Text
  | .argument name slot => "auto " ++ name ++ getFrom slot
  | .instance_ m => "::" ++ m ++ " inst = (::" ++ m ++ ")wrenegade::helper::getFromSlot(vm, 0);"
  | .call code => code ++ ";"
  | .readMember method => "auto val = inst->" ++ method ++ ";"
  | .typeofVal => "::ValueType type = ::Type_obj::_hx_typeof(val);"
  | .saveVal => "wrenegade::helper::saveToSlot(vm, 0, val, type);"
  | .valuePointer => "::Dynamic* value = (::Dynamic*)wrenGetSlotForeign(vm, 1);"
  | .loadValue => "*value = wrenegade::helper::getFromSlot(vm, 1);"
  | .assignValue target => target ++ " = *value;"
  | .newForeign c => "::" ++ c ++ "* constructor = (" ++ c ++
      "*)wrenSetSlotNewForeign(vm, 0, 0, sizeof(::" ++ c ++ "));"
  | .dynamicArgument name => "::Dynamic " ++ name ++ " = (::Dynamic) value;"
  | .object m => "::" ++ m ++ "_obj obj;"
  | .newData params => "auto data = obj.__new(" ++ join params ", " ++ ");"
  | .copyData c => "std::memcpy(constructor, &data, sizeof(::" ++ c ++ "));"
where
  getFrom (slot : Nat) : Text := " = wrenegade::helper::getFromSlot(vm, " ++ ofNat slot ++ ");"

/-- A function of the unit: its declaration, the name read back from it, its body. -/
structure CFunction where
  dec : Text
  name : Text
  body : List Stmt
deriving DecidableEq

def CFunction.bodyText (f : CFunction) : Text := f.body.flatMap fun s => "\t" ++ s.text ++ "\n"

/-- A foreign method. -/
def CFunction.methodText (f : CFunction) : Text :=
  "\n" ++ replace f.dec ";" [] ++ "\x7b\n\t\n" ++ f.bodyText ++ "\x7d\n"

/-- An allocator. -/
def CFunction.allocatorText (f : CFunction) : Text :=
  replace f.dec ";" [] ++ "\x7b\n" ++ f.bodyText ++ "\x7d\n"

/-! ### Bodies -/

/-- A text put into the code; a missing one prints as `null`. -/
def interpolate (o : Option Text) : Text := o.getD "null"

/-- What stands behind the arrow of a table entry, if it has one. -/
def afterArrow (entry : Text) : Option Text := (split entry "->")[1]?

/-- The call of a method, through the receiver when its entry has an arrow. -/
def callStmts (cModule : Text) (entry : Option Text) : List Stmt :=
  match entry with
  | none => [.call []]
  | some code =>
      match afterArrow code with
      | none => [.call code]
      | some method => [.instance_ cModule, .call ("inst->" ++ method)]

def getterStmts (cModule : Text) (entry : Option Text) : List Stmt :=
  (match entry.bind afterArrow with
    | none => [.assignValue (interpolate entry)]
    | some method => [.instance_ cModule, .readMember method]) ++ [.typeofVal, .saveVal]

def setterStmts (cModule : Text) (entry : Option Text) : List Stmt :=
  [.valuePointer, .loadValue] ++
    (match entry.bind afterArrow with
      | none => [.assignValue (interpolate entry)]
      | some method => [.instance_ cModule, .assignValue ("inst->" ++ method)])

/-- The body of the function declared by `func`. -/
def genFunction (cModule : Text) (t : Tables) (func : Text) : Except GenError CFunction :=
  let sig := funcSig func
  let entry := t.bindCMethodMap.lookup sig
  match t.bindMethodMap.lookup sig with
  | some none => .error .nullAccess
  | some (some (p :: ps)) =>
      .ok { dec := func, name := sig
            body := ((p :: ps).zipIdx.map fun a => Stmt.argument a.1 (a.2 + 1)) ++
              callStmts cModule entry }
  | _ =>
      let propType := (split sig "_").getLastD []
      .ok { dec := func, name := sig
            body :=
              if propType = "get" then
                getterStmts cModule (t.bindCMethodMap.lookup (replace sig "_get" []))
              else if propType = "set" then
                setterStmts cModule (t.bindCMethodMap.lookup (replace sig "_set" []))
              else callStmts cModule entry }

/-- The allocator declared by `func`, with the number of arguments it reads. -/
def genAllocator (cModule : Text) (t : Tables) (func : Text) :
    Except GenError (CFunction × Nat) :=
  let sig := funcSig func
  match t.bindCClassArgsMap.lookup sig, t.bindCModules.lookup sig with
  | some params, some module_ =>
      let cls := replace module_ "." "::"
      .ok ({ dec := func, name := sig
             body := [.newForeign cls] ++
               (params.zipIdx.flatMap fun a =>
                 [Stmt.argument "value" (a.2 + 1), .dynamicArgument a.1]) ++
               [.object cModule, .newData params, .copyData cls] }, params.length)
  | _, _ => .error .nullAccess

/-- The right-hand side of `methods->allocate`. -/
def genAllocate (t : Tables) (func : Text) : Except GenError Text :=
  let sig := funcSig func
  match t.bindClassSignatureMap.lookup sig with
  | some funct => .ok (if ("static" : Text) <:+: funct then "NULL" else sig)
  | none => .error .nullAccess

/-! ### The unit -/

structure CppUnit where
  className : Text
  includes : List Text
  namespace_ : Text
  functions : List CFunction
  allocators : List CFunction
  /-- The signature compared and the function returned, line by line. -/
  bindMethod : List (Text × Text)
  /-- The values assigned to `methods->allocate`. -/
  bindClass : List Text
deriving DecidableEq

structure CppHeader where
  guard : Text
  decs : List Text
deriving DecidableEq

/-- The loop over the values of `bindCModules`: each one once. -/
def collectIncludes (values : List Text) : List Text :=
  values.foldl (fun includes inc => if inc ∈ includes then includes else includes ++ [inc]) []

/-- The C name made of a dotted module name. -/
def flatName (module_ : Text) : Text := replace (replace module_ "." "_") "static " []

/-- The unit of a class, as a function of the tables. -/
def genUnit (order : HashOrder) (moduleName className : Text) (t : Tables) :
    Except GenError (CppUnit × CppHeader × Nat) := do
  let cModule := replace moduleName "." "::"
  let includes := collectIncludes (order.values t.bindCModules)
  match includes with
  | [] => .error .nullAccess
  | main :: _ =>
      let functions ← t.foreignFuncsDec.mapM (genFunction cModule t)
      let allocators ← t.foreignConstructorDec.mapM (genAllocator cModule t)
      let bindClass ← t.foreignConstructorDec.mapM (genAllocate t)
      let cpp :=
        { className, includes
          namespace_ := flatName main ++ "_functions"
          functions
          allocators := allocators.map Prod.fst
          bindMethod := t.foreignFuncsDec.map fun func =>
            (interpolate (t.bindSignatureMap.lookup (funcSig func)), funcSig func)
          bindClass }
      .ok (cpp, { guard := flatName main, decs := t.foreignFuncsDec },
        (allocators.getLast?.map Prod.snd).getD 0)

/-! ### Printing -/

def includeLine (inc : Text) : Text :=
  "#include <" ++ replace (replace inc "." "/") "static " [] ++ ".h>\n"

def compareLine (b : Text × Text) : Text :=
  "\tif (strcmp(signature, \"" ++ b.1 ++ "\") == 0) return " ++ b.2 ++ ";\n"

def allocateLine (target : Text) : Text :=
  "\tmethods->allocate = " ++ target ++ "; \n \treturn;\n"

def CppUnit.text (u : CppUnit) : Text :=
  "#include \"" ++ u.className ++ ".h\"\n\n#include <wrenegade_helper.h>\n\n" ++
  "#ifndef INCLUDED_type\n#include <Type.h>\n#endif\n\n\n" ++
  u.includes.flatMap includeLine ++
  "\nnamespace " ++ u.namespace_ ++ " \x7b\n" ++
  u.functions.flatMap CFunction.methodText ++
  u.allocators.flatMap CFunction.allocatorText ++
  "\n\nWrenForeignMethodFn bindMethod(const char* signature) \x7b\n" ++
  u.bindMethod.flatMap compareLine ++
  "\treturn NULL;\n\x7d\n\nvoid bindClass(WrenForeignClassMethods* methods) \x7b\n" ++
  u.bindClass.flatMap allocateLine ++
  "\x7d\n\x7d\n"

def declarationLine (dec : Text) : Text := dec ++ "\n"

def CppHeader.text (h : CppHeader) : Text :=
  "#ifndef _bindings_" ++ h.guard ++ "_h\n#define _bindings_" ++ h.guard ++ "_h\n" ++
  "#include <hxcpp.h>\n#ifndef INCLUDED_haxe_Log\n#include <haxe/Log.h>\n#endif\n" ++
  "extern \"C\"\n\x7b\n#include <wren.h>\n\x7d\n\nnamespace " ++ h.guard ++
  "_functions  \x7b\n" ++ h.decs.flatMap declarationLine ++
  "\nWrenForeignMethodFn bindMethod(const char* signature);\n" ++
  "void bindClass(WrenForeignClassMethods* methods);\n\x7d\n\n#endif"

/-! ### Writing -/

/-- A unit with the paths it is written to. -/
structure GeneratedUnit where
  cppPath : Text
  cpp : CppUnit
  headerPath : Text
  header : CppHeader
deriving DecidableEq

/-- The text `genWrenExterns` gets as the module of a class. -/
def externModule (main className : Text) : Text :=
  replace (replace (replace main ("." ++ className) []) "." "_") "static " []

/-- Write the unit of `C` and its extern block. -/
def genContent (cfg : Config) (C : ClassDecl) (t : Tables) (fs : FileSystem) :
    Except GenError (GeneratedUnit × FileSystem) := do
  let (cpp, header, constructorParamSize) ← genUnit cfg.order C.moduleName (className C) t
  let cppPath := bindCPath cfg C ++ "/" ++ className C ++ ".cpp"
  let headerPath := bindCPath cfg C ++ "/" ++ className C ++ ".h"
  let fs ← saveContent cfg cppPath cpp.text fs
  let fs ← saveContent cfg headerPath header.text fs
  let signatures ← t.foreignFuncsDec.mapM fun func =>
    match t.bindSignatureMap.lookup (funcSig func) with
    | some sig => .ok sig
    | none => .error .nullAccess
  let fs ← genWrenExterns cfg [] (className C)
    (externModule (cpp.includes.headD []) (className C)) signatures
    (decide (t.foreignConstructorDec ≠ [])) constructorParamSize fs
  .ok ({ cppPath, cpp, headerPath, header }, fs)

end Wrenegade
