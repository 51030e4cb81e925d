/-
Binding a foreign class: the callback of the host and what the VM does around it.

The callback fills a structure on its stack: it clears one field and hands the
structure to the generated dispatcher, which hands it on to `bindClass` of a unit.
What was in memory before is part of the input, since nothing on the way has to
write the other field.
-/
import Wrenegade.Model.CreatePath

namespace Wrenegade

open Text

/-- A function pointer: `NULL`, a function of a namespace, or what happened to be in
memory. -/
inductive FnPointer
  | null
  | fn (namespace_ name : Text)
  | stale (bits : Nat)
deriving DecidableEq

structure WrenForeignClassMethods where
  allocate : FnPointer
  finalize : FnPointer
deriving DecidableEq

/-- The expression on the right of `methods->allocate =`. -/
def pointer (namespace_ target : Text) : FnPointer :=
  if target = ("NULL" : Text) then .null else .fn namespace_ target

/-- `bindClass` of a unit: the first line assigns and returns. -/
def CppUnit.runBindClass (u : CppUnit) (methods : WrenForeignClassMethods) :
    WrenForeignClassMethods :=
  match u.bindClass with
  | [] => methods
  | target :: _ => { methods with allocate := pointer u.namespace_ target }

/-- The generated code a host is compiled with.  A namespace defined twice, or called and
not defined, does not get through the compiler. -/
structure HostProgram where
  table : DispatchTable
  units : List CppUnit
  once : (units.map CppUnit.namespace_).Nodup
  defined : ∀ row ∈ table, ∀ e ∈ row.2, ∃ u ∈ units, u.namespace_ = e.2

/-- `wrenegade::bindClass`. -/
def HostProgram.bindClass (p : HostProgram) (module_ className : Text)
    (methods : WrenForeignClassMethods) : WrenForeignClassMethods :=
  match dispatch p.table module_ className with
  | none => methods
  | some ns =>
      match p.units.find? fun u => u.namespace_ = ns with
      | some u => u.runBindClass methods
      | none => methods

/-- `bindForeignClass` of the host; `memory` is where `holder` comes to lie. -/
def HostProgram.bindForeignClass (p : HostProgram) (memory : WrenForeignClassMethods)
    (module_ className : Text) : WrenForeignClassMethods :=
  p.bindClass module_ className { memory with finalize := .null }

/-- `wrenRandomBindForeignClass`. -/
def wrenRandomBindForeignClass : WrenForeignClassMethods where
  allocate := .fn [] "randomAllocate"
  finalize := .null

/-- `bindForeignClass` of the VM, up to the methods it binds. -/
def foreignClassMethods (p : HostProgram) (memory : WrenForeignClassMethods)
    (module_ className : Text) : WrenForeignClassMethods :=
  let methods := p.bindForeignClass memory module_ className
  if methods.allocate = .null ∧ methods.finalize = .null then
    if module_ = ("random" : Text) then wrenRandomBindForeignClass else methods
  else methods

end Wrenegade
