/-
Registration: `createBindInclude` and the table half of `createBindSuperClass`.

Both walk a list of fields and fill the tables, keyed by the name of the C
function a member is bound to.  The own fields are told apart by matching the
list of access modifiers literally, the inherited ones by `isPublic` and by the
kind they have after typing.
-/
import Wrenegade.Model.Tables

namespace Wrenegade

open Text

/-! ### Names and signatures -/

/-- The text a loop over the arguments leaves: the items with `sep` between them. -/
def argLoop (item : Nat → Text) (sep : Text) (n : Nat) : Text :=
  (List.range n).flatMap fun i => item i ++ if i ≠ n - 1 then sep else []

def argName (i : Nat) : Text := "arg" ++ ofNat i

/-- The argument names, `arg0`, `arg1` and so on. -/
def params (n : Nat) : List Text := (List.range n).map argName

/-- The C function a member is bound to. -/
def funcName (cfg : Config) (C : ClassDecl) (name : Text) : Text :=
  toLower (join (split (bindPart cfg C) "/") "_" ++ "_" ++ name)

/-- The class object the C++ code of a member starts with. -/
def cObject (cfg : Config) (C : ClassDecl) : Text :=
  "::" ++ join (split (bindPart cfg C) "/") "::" ++ "_obj" ++ "::"

/-- `cFuncName` of a method, `receiver` being what stands before its name. -/
def cCall (cfg : Config) (C : ClassDecl) (receiver name : Text) (n : Nat) : Text :=
  cObject cfg C ++ receiver ++ name ++ "(" ++ argLoop argName ", " n ++ ")"

def methodSignature (className name : Text) (n : Nat) : Text :=
  className ++ "." ++ name ++ "(" ++ argLoop (fun _ => "_") "," n ++ ")"

def setterSignature (className name : Text) : Text :=
  className ++ "." ++ name ++ "=(" ++ "_)"

def getterSignature (className name : Text) : Text :=
  replace (setterSignature className name) "=(_)" []

/-! ### Filling the tables -/

/-- `foreignFuncsDec.push`, with the package of the function. -/
def Tables.pushFunc (t : Tables) (C : ClassDecl) (func : Text) : Tables :=
  { t with
    foreignFuncsDec := t.foreignFuncsDec ++ [func]
    packageMap := t.packageMap.insert func (replace C.moduleName (className C) []) }

/-- The same, unless the function is declared already. -/
def Tables.pushNewFunc (t : Tables) (C : ClassDecl) (func : Text) : Tables :=
  if func ∈ t.foreignFuncsDec then t else t.pushFunc C func

/-- The entries of a method in the three tables all methods have. -/
def Tables.setMethod (t : Tables) (func : Text) (params : List Text)
    (cFuncName signature : Text) : Tables :=
  { t with
    bindMethodMap := t.bindMethodMap.insert func (some params)
    bindCMethodMap := t.bindCMethodMap.insert func cFuncName
    bindSignatureMap := t.bindSignatureMap.insert func signature }

/-- The entries of a variable: its `null` arguments, and a setter and a getter. -/
def Tables.setVariable (t : Tables) (C : ClassDecl) (func cFuncName name : Text) : Tables :=
  let t := { t with
    bindMethodMap := t.bindMethodMap.insert func none
    bindCMethodMap := t.bindCMethodMap.insert func cFuncName
    bindSignatureMap :=
      (t.bindSignatureMap.insert (func ++ "_set") (setterSignature (className C) name)).insert
        (func ++ "_get") (getterSignature (className C) name) }
  (t.pushFunc C (foreignFunc (func ++ "_set"))).pushFunc C (foreignFunc (func ++ "_get"))

/-- The entries of the constructor. -/
def Tables.setConstructor (t : Tables) (C : ClassDecl) (func : Text) (params : List Text)
    (cFuncName signature : Text) : Tables :=
  let t := { t with
    bindClassSignatureMap := t.bindClassSignatureMap.insert func
      (replace ((split signature "(").headD []) ".new" [])
    bindCClassMap := t.bindCClassMap.insert func cFuncName
    bindCClassArgsMap := t.bindCClassArgsMap.insert func params
    bindSignatureMap := t.bindSignatureMap.insert func signature
    bindCModules := t.bindCModules.insert func C.moduleName }
  if foreignFunc func ∈ t.foreignConstructorDec then t
  else { t with
    foreignConstructorDec := t.foreignConstructorDec ++ [foreignFunc func]
    packageMap := t.packageMap.insert (foreignFunc func)
      (replace C.moduleName (className C) []) }

/-! ### Own fields -/

/-- `case [APublic] | [AOverride, APublic]`. -/
def isInstanceAccess : List Access → Bool
  | [.aPublic] | [.aOverride, .aPublic] => true
  | _ => false

/-- `case [AOverride, AStatic, APublic] | [AStatic, APublic] | [APublic, AStatic]`. -/
def isStaticAccess : List Access → Bool
  | [.aOverride, .aStatic, .aPublic] | [.aStatic, .aPublic] | [.aPublic, .aStatic] => true
  | _ => false

/-- What a signature starts with. -/
def staticMark (access : List Access) : Text := if isStaticAccess access then "static " else []

def isNew (name : Text) : Bool := trim name = "new"

/-- A function among the build fields. -/
def registerFun (cfg : Config) (C : ClassDecl) (access : List Access) (name : Text) (n : Nat)
    (t : Tables) : Tables :=
  let signature := staticMark access ++ methodSignature (className C) name n
  let receiver : Text :=
    if isInstanceAccess access && !isNew name then "getInstance()->" else []
  let cFuncName := cCall cfg C receiver (if isNew name then "__" ++ name else name) n
  let func := funcName cfg C name
  if isInstanceAccess access then
    if isNew name then t.setConstructor C func (params n) cFuncName signature
    else (t.setMethod func (params n) cFuncName signature).pushNewFunc C (foreignFunc func)
  else if isStaticAccess access then
    if isNew name || trim name = ("main" : Text) then t
    else if trim name ≠ ("getInstance" : Text) then
      let t := t.setMethod func (params n) cFuncName signature
      { t with bindCModules := t.bindCModules.insert func C.moduleName }.pushNewFunc C
        (foreignFunc func)
    else
      { t with
        bindCClassArgsMap := t.bindCClassArgsMap.insert func (params n)
        bindCModules := t.bindCModules.insert func C.moduleName }
  else t

/-- A variable among the build fields. -/
def registerVar (cfg : Config) (C : ClassDecl) (access : List Access) (name : Text)
    (t : Tables) : Tables :=
  if name = ("instance" : Text) then t
  else if access = [.aPublic] then
    let receiver : Text := if isNew name then [] else "getInstance()->"
    t.setVariable C (funcName cfg C name) (cObject cfg C ++ receiver ++ name) name
  else t

/-- One turn of the loop of `createBindInclude`. -/
def registerField (cfg : Config) (C : ClassDecl) (t : Tables) (field : Field) : Tables :=
  match field.kind with
  | .fFun n => registerFun cfg C field.access field.name.text n t
  | .fVar => registerVar cfg C field.access field.name.text t
  | .fProp => t

/-- The loop of `createBindInclude`. -/
def registerFields (cfg : Config) (C : ClassDecl) (t : Tables) : Tables :=
  C.fields.foldl (registerField cfg C) t

/-! ### Inherited fields -/

/-- What the loop of `createBindSuperClass` carries along. -/
structure Inherited where
  tables : Tables
  signatures : List Text
  constructorParamSize : Nat

/-- One turn of the loop of `createBindSuperClass`. -/
def registerInheritedField (cfg : Config) (C : ClassDecl) (superClassName : Text)
    (s : Inherited) (field : ClassField) : Inherited :=
  if field.isPublic then
    let name := field.name.text
    let func := funcName cfg C name
    match field.kind with
    | .fMethod n =>
        let signature := methodSignature (className C) name n
        { tables := (s.tables.setMethod func (params n)
            (cCall cfg C "getInstance()->" name n) signature).pushFunc C (foreignFunc func)
          signatures := s.signatures ++ [replace signature (className C) superClassName]
          constructorParamSize := if name = ("new" : Text) then n else s.constructorParamSize }
    | .fVar =>
        { tables := s.tables.setVariable C func (cObject cfg C ++ "getInstance()->" ++ name) name
          signatures := s.signatures ++
            [replace (setterSignature (className C) name) (className C) superClassName,
             replace (getterSignature (className C) name) (className C) superClassName]
          constructorParamSize := s.constructorParamSize }
  else s

/-- The loop of `createBindSuperClass` over the fields of the superclass `S` of `C`. -/
def registerInherited (cfg : Config) (C S : ClassDecl) (ancestors : List ClassDecl)
    (t : Tables) : Inherited :=
  (S.typedFields ancestors).foldl (registerInheritedField cfg C S.name.text)
    { tables := t, signatures := [], constructorParamSize := 0 }

end Wrenegade
