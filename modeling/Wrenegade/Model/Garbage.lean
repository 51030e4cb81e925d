/-
The garbage collector of Wren.

All objects are in one linked list, the newest first.  A collection marks what can be reached
from the roots, with a stack of gray objects, and counts the memory of what it marks; then it
walks the list, unlinks and frees the objects that were not marked, and takes the marks back.

An object is its header and what points to other objects from its fields, with what the
collector reads of the others.  An open upvalue points into the stack of a fiber, which is freed
with the fiber.  To touch an object that is not allocated is undefined.  The roots are the values that handles hold and what the
compilers use, listed from the first handle and from the innermost compiler.
-/
import Mathlib.Logic.Function.Basic
import Wrenegade.Model.Primitive

namespace Wrenegade

namespace Memory

open WrenVM (Value Result access)

abbrev Address := Nat

/-- What a symbol of a class is bound to. -/
inductive Method
  | primitive
  | foreign
  | block (closure : Option Address)
  | none
deriving DecidableEq

structure SymbolTable where
  data : List (Option Address)
  capacity : Nat
deriving DecidableEq

/-- What an upvalue points to: what it holds itself, or a slot of the stack of a fiber. -/
inductive Target
  | own
  | slot (fiber : Address) (index : Nat)
deriving DecidableEq

inductive Data
  | class_ (superclass : Option Address) (numFields : Nat) (methods : List Method)
      (methodCapacity : Nat) (name : Option Address)
  | closure (fn : Option Address) (upvalues : List (Option Address))
  | fiber (frames : List (Option Address)) (frameCapacity : Nat) (stack : List Value)
      (stackCapacity : Nat) (openUpvalues caller : Option Address) (error : Value)
  | fn (constants : List Value) (constantCapacity codeCapacity numUpvalues : Nat)
      (module_ : Option Address)
  | foreign
  | instance_ (fields : List Value)
  | list (elements : List Value) (capacity : Nat)
  /-- An undefined key is `none`. -/
  | map (entries : List (Option Value × Value))
  | module_ (moduleVariables : List Value) (variableNames : SymbolTable) (name : Option Address)
  | range
  | string (length : Nat)
  | upvalue (value : Target) (closed : Value) (next : Option Address)
deriving DecidableEq

structure Obj where
  data : Data
  isDark : Bool
  classObj : Option Address
  next : Option Address
deriving DecidableEq

/-! What is read of an object of a kind, and of no other. -/

def Obj.upvalueNext (obj : Obj) : Option (Option Address) :=
  match obj.data with
  | .upvalue _ _ next => some next
  | _ => none

def Obj.numUpvalues (obj : Obj) : Option Nat :=
  match obj.data with
  | .fn _ _ _ numUpvalues _ => some numUpvalues
  | _ => none

def Obj.numFields (obj : Obj) : Option Nat :=
  match obj.data with
  | .class_ _ numFields _ _ _ => some numFields
  | _ => none

def Obj.stackCapacity (obj : Obj) : Option Nat :=
  match obj.data with
  | .fiber _ _ _ stackCapacity _ _ _ => some stackCapacity
  | _ => none

def Obj.methods (obj : Obj) : Option (List Method) :=
  match obj.data with
  | .class_ _ _ methods _ _ => some methods
  | _ => none

/-- The objects of a compiler. -/
structure Compiler where
  fn : Option Address
  constants : Option Address
  /-- The fields of the class it is in, if it is in one. -/
  fields : Option SymbolTable
  /-- The name of that class. -/
  className : Option Address

/-- What is compiled: the values of two tokens, the module, and the compilers from the innermost
one. -/
structure Compiling where
  current : Value
  previous : Value
  module_ : Option Address
  compilers : List Compiler

/-- `sizeof`. -/
structure Sizes where
  class_ : Nat
  closure : Nat
  fiber : Nat
  fn : Nat
  instance_ : Nat
  list : Nat
  map : Nat
  module_ : Nat
  range : Nat
  string : Nat
  upvalue : Nat
  method : Nat
  pointer : Nat
  callFrame : Nat
  value : Nat
  byte : Nat
  int : Nat
  mapEntry : Nat

structure VM where
  heap : Address → Option Obj
  first : Option Address
  /-- From the top of the stack. -/
  gray : List Address
  grayCapacity : Nat
  bytesAllocated : BitVec 64
  nextGC : BitVec 64
  modules : Option Address
  tempRoots : List (Option Address)
  fiber : Option Address
  handles : List Value
  compiling : Option Compiling
  methodNames : SymbolTable
  /-- The symbol of `<finalize>`. -/
  finalize : Nat
  heapGrowthPercent : BitVec 64
  minHeapSize : BitVec 64
  /-- The objects whose finalizers were called. -/
  finalized : List Address

def VM.setObj (vm : VM) (a : Address) (obj : Option Obj) : VM :=
  { vm with heap := Function.update vm.heap a obj }

/-- The newest object is the first one. -/
def initObj (vm : VM) (a : Address) (data : Data) (classObj : Option Address) : VM :=
  { vm.setObj a (some ⟨data, false, classObj, vm.first⟩) with first := some a }

/-! ### Marking -/

/-- Darken an object and add it to the gray list, which grows when it is full. -/
def pushGray (vm : VM) (a : Address) (obj : Obj) : Result VM :=
  let capacity := if vm.grayCapacity ≤ vm.gray.length then vm.gray.length * 2
    else vm.grayCapacity
  if vm.gray.length < capacity then
    pure { vm with
      heap := Function.update vm.heap a (some { obj with isDark := true })
      gray := a :: vm.gray
      grayCapacity := capacity }
  -- a write behind the stack
  else throw .undefined

def wrenGrayObj (vm : VM) : Option Address → Result VM
  | none => pure vm
  | some a => do
      let obj ← access (vm.heap a)
      -- stop if the object is already darkened, so that no cycle holds the collector
      if obj.isDark then pure vm else pushGray vm a obj

def wrenGrayValue (vm : VM) : Value → Result VM
  | .obj a => wrenGrayObj vm (some a)
  | _ => pure vm

def wrenGrayBuffer (vm : VM) (values : List Value) : Result VM := values.foldlM wrenGrayValue vm

def VM.count (vm : VM) (bytes : Nat) : VM :=
  { vm with bytesAllocated := vm.bytesAllocated + BitVec.ofNat 64 bytes }

variable (size : Sizes)

def wrenBlackenSymbolTable (vm : VM) (table : SymbolTable) : Result VM := do
  let vm ← table.data.foldlM wrenGrayObj vm
  pure (vm.count (table.capacity * size.pointer))

def grayMethod (vm : VM) : Method → Result VM
  | .block closure => wrenGrayObj vm closure
  | _ => pure vm

/-- The open upvalues of a fiber, along their list. -/
def grayOpenUpvalues : Nat → VM → Option Address → Result VM
  | 0, _, _ => throw .undefined
  | _ + 1, vm, none => pure vm
  | fuel + 1, vm, some a => do
      let vm ← wrenGrayObj vm (some a)
      let next ← access ((vm.heap a).bind Obj.upvalueNext)
      grayOpenUpvalues fuel vm next

def grayEntry (vm : VM) : Option Value × Value → Result VM
  | (none, _) => pure vm
  | (some key, value) => do
      let vm ← wrenGrayValue vm key
      wrenGrayValue vm value

def blackenClass (vm : VM) (classObj superclass : Option Address) (methods : List Method)
    (methodCapacity : Nat) (name : Option Address) : Result VM := do
  -- the metaclass
  let vm ← wrenGrayObj vm classObj
  let vm ← wrenGrayObj vm superclass
  let vm ← methods.foldlM grayMethod vm
  let vm ← wrenGrayObj vm name
  pure (vm.count (size.class_ + methodCapacity * size.method))

def blackenClosure (vm : VM) (fn : Option Address) (upvalues : List (Option Address)) :
    Result VM := do
  let vm ← wrenGrayObj vm fn
  let n ← access ((fn.bind vm.heap).bind Obj.numUpvalues)
  if upvalues.length < n then throw .undefined
  else
    let vm ← (upvalues.take n).foldlM wrenGrayObj vm
    pure (vm.count (size.closure + size.pointer * n))

def blackenFiber (fuel : Nat) (vm : VM) (frames : List (Option Address)) (frameCapacity : Nat)
    (stack : List Value) (stackCapacity : Nat) (openUpvalues caller : Option Address)
    (error : Value) : Result VM := do
  let vm ← frames.foldlM wrenGrayObj vm
  let vm ← wrenGrayBuffer vm stack
  let vm ← grayOpenUpvalues fuel vm openUpvalues
  let vm ← wrenGrayObj vm caller
  let vm ← wrenGrayValue vm error
  pure (vm.count (size.fiber + frameCapacity * size.callFrame + stackCapacity * size.value))

def blackenInstance (vm : VM) (classObj : Option Address) (fields : List Value) : Result VM := do
  let vm ← wrenGrayObj vm classObj
  let n ← access ((classObj.bind vm.heap).bind Obj.numFields)
  if fields.length < n then throw .undefined
  else
    let vm ← wrenGrayBuffer vm (fields.take n)
    pure (vm.count (size.instance_ + size.value * n))

def blackenModule (vm : VM) (moduleVariables : List Value) (variableNames : SymbolTable)
    (name : Option Address) : Result VM := do
  let vm ← wrenGrayBuffer vm moduleVariables
  let vm ← wrenBlackenSymbolTable size vm variableNames
  let vm ← wrenGrayObj vm name
  pure (vm.count size.module_)

def blackenObject (fuel : Nat) (vm : VM) (obj : Obj) : Result VM :=
  match obj.data with
  | .class_ superclass _ methods methodCapacity name =>
      blackenClass size vm obj.classObj superclass methods methodCapacity name
  | .closure fn upvalues => blackenClosure size vm fn upvalues
  | .fiber frames frameCapacity stack stackCapacity openUpvalues caller error =>
      blackenFiber size fuel vm frames frameCapacity stack stackCapacity openUpvalues caller error
  | .fn constants constantCapacity codeCapacity _ _ => do
      let vm ← wrenGrayBuffer vm constants
      pure (vm.count (size.fn + size.byte * codeCapacity + size.value * constantCapacity
        + size.int * codeCapacity))
  -- neither its class nor its size
  | .foreign => pure vm
  | .instance_ fields => blackenInstance size vm obj.classObj fields
  | .list elements capacity => do
      let vm ← wrenGrayBuffer vm elements
      pure (vm.count (size.list + size.value * capacity))
  | .map entries => do
      let vm ← entries.foldlM grayEntry vm
      pure (vm.count (size.map + size.mapEntry * entries.length))
  | .module_ moduleVariables variableNames name =>
      blackenModule size vm moduleVariables variableNames name
  | .range => pure (vm.count size.range)
  | .string length => pure (vm.count (size.string + length + 1))
  -- what it holds in case it is closed
  | .upvalue _ closed _ => do
      let vm ← wrenGrayValue vm closed
      pure (vm.count size.upvalue)

/-- An object is taken from the stack once, so the number of the objects is enough fuel. -/
def wrenBlackenObjects (limit : Nat) : Nat → VM → Result VM
  | 0, _ => throw .undefined
  | fuel + 1, vm =>
      match vm.gray with
      | [] => pure vm
      | a :: gray => do
          let obj ← access (vm.heap a)
          let vm ← blackenObject size limit { vm with gray := gray } obj
          wrenBlackenObjects limit fuel vm

def markCompiler (vm : VM) (compiler : Compiler) : Result VM := do
  let vm ← wrenGrayObj vm compiler.fn
  let vm ← wrenGrayObj vm compiler.constants
  match compiler.fields with
  | some fields => wrenBlackenSymbolTable size vm fields
  | none => pure vm

/-- What the compilers use, if there are any. -/
def wrenMarkCompiler (vm : VM) : Option Compiling → Result VM
  | none => pure vm
  | some compiling => do
      let vm ← wrenGrayValue vm compiling.current
      let vm ← wrenGrayValue vm compiling.previous
      compiling.compilers.foldlM (markCompiler size) vm

def markRoots (vm : VM) : Result VM := do
  let vm ← wrenGrayObj vm vm.modules
  let vm ← vm.tempRoots.foldlM wrenGrayObj vm
  let vm ← wrenGrayObj vm vm.fiber
  let vm ← vm.handles.foldlM wrenGrayValue vm
  let vm ← wrenMarkCompiler size vm vm.compiling
  wrenBlackenSymbolTable size vm vm.methodNames

/-! ### Sweeping -/

def callFinalizer (vm : VM) (a : Address) : Option Method → Result VM
  | none => pure vm
  | some .none => pure vm
  | some .foreign => pure { vm with finalized := vm.finalized ++ [a] }
  | some _ => throw (.assertion "Finalizer should be foreign.")

/-- The symbol `<finalize>` is always defined. -/
def wrenFinalizeForeign (vm : VM) (a : Address) (classObj : Option Address) : Result VM := do
  let methods ← access ((classObj.bind vm.heap).bind Obj.methods)
  callFinalizer vm a methods[vm.finalize]?

def finalizeObj (vm : VM) (a : Address) (obj : Obj) : Result VM :=
  match obj.data with
  | .foreign => wrenFinalizeForeign vm a obj.classObj
  | _ => pure vm

def wrenFreeObj (vm : VM) (a : Address) (obj : Obj) : Result VM := do
  let vm ← finalizeObj vm a obj
  pure (vm.setObj a none)

/-- The pointer that the loop is at: the `next` of an object, or the first one. -/
def VM.readSlot (vm : VM) : Option Address → Result (Option Address)
  | none => pure vm.first
  | some a => do
      let obj ← access (vm.heap a)
      pure obj.next

def VM.writeSlot (vm : VM) (target : Option Address) : Option Address → Result VM
  | none => pure { vm with first := target }
  | some a => do
      let obj ← access (vm.heap a)
      pure (vm.setObj a (some { obj with next := target }))

def sweep : Nat → VM → Option Address → Result VM
  | 0, _, _ => throw .undefined
  | fuel + 1, vm, slot => do
      match ← vm.readSlot slot with
      | none => pure vm
      | some a => do
          let obj ← access (vm.heap a)
          if ¬ obj.isDark then do
            let vm ← vm.writeSlot obj.next slot
            let vm ← wrenFreeObj vm a obj
            sweep fuel vm slot
          else sweep fuel (vm.setObj a (some { obj with isDark := false })) (some a)

/-- The next collection. -/
def VM.setNextGC (vm : VM) : VM :=
  let nextGC := vm.bytesAllocated + vm.bytesAllocated * vm.heapGrowthPercent / 100
  { vm with nextGC := if nextGC < vm.minHeapSize then vm.minHeapSize else nextGC }

def wrenCollectGarbage (fuel : Nat) (vm : VM) : Result VM := do
  let vm ← markRoots size { vm with bytesAllocated := 0 }
  let vm ← wrenBlackenObjects size fuel fuel vm
  let vm ← sweep fuel vm none
  pure vm.setNextGC

end Memory

end Wrenegade
