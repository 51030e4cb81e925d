/-
The list of handles.

The handles of a VM are in a doubly linked list, the newest first, so that one can be released
without a search.  The collector walks the list and takes the values as roots.

A new handle is where the allocator puts it, which may be where a released one was.  To touch a
handle that is not allocated is undefined.
-/
import Mathlib.Logic.Function.Basic
import Wrenegade.Model.Primitive

namespace Wrenegade

namespace HandleList

open WrenVM (Result access)

variable {α : Type}

abbrev Address := Nat

structure WrenHandle (α : Type) where
  value : α
  prev : Option Address
  next : Option Address
deriving DecidableEq

structure VM (α : Type) where
  memory : Address → Option (WrenHandle α)
  handles : Option Address

/-- `handle->prev = ...` or `handle->next = ...`, unless `handle` is `NULL`. -/
def VM.change (vm : VM α) (f : WrenHandle α → WrenHandle α) : Option Address → Result (VM α)
  | none => pure vm
  | some a => do
      let handle ← access (vm.memory a)
      pure { vm with memory := Function.update vm.memory a (some (f handle)) }

def wrenMakeHandle (vm : VM α) (a : Address) (value : α) : Result (VM α) := do
  let vm ← vm.change (fun first => { first with prev := some a }) vm.handles
  pure {
    memory := Function.update vm.memory a (some ⟨value, none, vm.handles⟩)
    handles := some a }

def wrenReleaseHandle (vm : VM α) (a : Address) : Result (VM α) := do
  let handle ← access (vm.memory a)
  let vm := if vm.handles = some a then { vm with handles := handle.next } else vm
  let vm ← vm.change (fun prev => { prev with next := handle.next }) handle.prev
  let handle ← access (vm.memory a)
  let vm ← vm.change (fun next => { next with prev := handle.prev }) handle.next
  pure { vm with memory := Function.update vm.memory a none }

/-- The values that the collector grays, with as much fuel as there are handles. -/
def VM.roots (vm : VM α) : Nat → Option Address → Result (List α)
  | 0, _ => throw .undefined
  | _ + 1, none => pure []
  | fuel + 1, some a => do
      let handle ← access (vm.memory a)
      let values ← vm.roots fuel handle.next
      pure (handle.value :: values)

inductive Op (α : Type)
  | make (a : Address) (value : α)
  | release (a : Address)
deriving DecidableEq

def VM.exec (vm : VM α) : Op α → Result (VM α)
  | .make a value => wrenMakeHandle vm a value
  | .release a => wrenReleaseHandle vm a

def VM.run (vm : VM α) (ops : List (Op α)) : Result (VM α) := ops.foldlM VM.exec vm

/-- After `wrenNewVM`. -/
def VM.start (α : Type) : VM α := ⟨fun _ => none, none⟩

/-! ### The handles that are held -/

/-- The allocator gives out what is free, and the host releases what it holds. -/
def hold (held : List (Address × α)) : Op α → Option (List (Address × α))
  | .make a value => if a ∈ held.map Prod.fst then none else some ((a, value) :: held)
  | .release a =>
      if a ∈ held.map Prod.fst then some (held.filter fun h => h.1 ≠ a) else none

def holdAll (held : List (Address × α)) (ops : List (Op α)) : Option (List (Address × α)) :=
  ops.foldlM hold held

end HandleList

end Wrenegade
