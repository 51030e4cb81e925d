/-
The macro itself: `bind`, and the superclass path.

`createBindSuperClass` registers the members of the superclass, goes on to the
class above it when that is bound too, runs the content generation it was given
as a callback, and then appends the block of the superclass to the Wren module.
The recursive call passes the same class reference on, so it is here driven by a
fuel: a run that needs more than any fuel is a run that does not end.
-/
import Wrenegade.Model.CreatePath

namespace Wrenegade

open Text Files

/-- `moduleName.replace("."+className, "")`. -/
def superModule (C : ClassDecl) : Text := replace C.moduleName ("." ++ className C) []

/-- The Wren module read back, framed as the buffer frames it. -/
def readModule (cfg : Config) (wrenPath file : Text) (fs : FileSystem) : Except GenError Text :=
  if fs.exists_ (resolve cfg.cwd wrenPath) then
    match getContent cfg (wrenFile wrenPath file) fs with
    | .ok content => .ok ("\n" ++ content ++ "\n" ++ "\n")
    | .error e => .error e
  else .ok []

/-- The block of the superclass appended to the module of the class. -/
def appendSuperBlock (cfg : Config) (C : ClassDecl) (superClassName : Text)
    (signatures : List Text) (constructorParamSize : Nat) (fs : FileSystem) :
    Except GenError FileSystem := do
  let (wrenPath, file) := cutModule cfg (superModule C)
  let buf ← readModule cfg wrenPath file fs
  genWrenExterns cfg buf superClassName file signatures true constructorParamSize fs

/-- What registration and content generation leave: the tables, the unit, the files. -/
structure Generated where
  tables : Tables
  unit_ : GeneratedUnit
  fs : FileSystem

/-- `genContent` with its arguments bound, as the superclass path gets it. -/
def contentCallback (cfg : Config) (C : ClassDecl) (t : Tables) (fs : FileSystem) :
    Except GenError Generated := do
  let (unit_, fs) ← genContent cfg C t fs
  .ok { tables := t, unit_, fs }

/-- `createBindSuperClass` for a class whose superclass `S` is bound; `ancestors` are
the bound classes above `S`, and `cb` is the content generation. -/
def createBindSuperClass (cfg : Config) (C S : ClassDecl) (ancestors : List ClassDecl)
    (cb : Tables → FileSystem → Except GenError Generated) :
    Nat → Tables → FileSystem → Except GenError Generated
  | 0, _, _ => .error .outOfFuel
  | fuel + 1, t, fs => do
      let inherited := registerInherited cfg C S ancestors t
      let r ←
        if ancestors ≠ [] then createBindSuperClass cfg C S ancestors cb fuel inherited.tables fs
        else cb inherited.tables fs
      let fs ← appendSuperBlock cfg C S.name.text inherited.signatures
        inherited.constructorParamSize r.fs
      .ok { r with fs }

/-- `createBindInclude`. -/
def createBindInclude (fuel : Nat) (cfg : Config) (C : LocalClass) (t : Tables)
    (fs : FileSystem) : Except GenError Generated :=
  let t := registerFields cfg C.toClassDecl t
  match C.supers with
  | [] => contentCallback cfg C.toClassDecl t fs
  | S :: ancestors =>
      createBindSuperClass cfg C.toClassDecl S ancestors (contentCallback cfg C.toClassDecl)
        fuel t fs

/-- `bind`, run on one class. -/
def bind (fuel : Nat) (cfg : Config) (g : Gen) (C : LocalClass) : Except GenError Gen := do
  let g ← createPath cfg C.toClassDecl g
  let r ← createBindInclude fuel cfg C g.tables g.fs
  .ok { g with tables := r.tables, fs := r.fs, units := g.units ++ [r.unit_] }

/-- The macro run on one class after the other. -/
def bindAll (fuel : Nat) (cfg : Config) (cs : List LocalClass) (g : Gen) : Except GenError Gen :=
  cs.foldlM (bind fuel cfg) g

end Wrenegade
