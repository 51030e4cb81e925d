/-
The lists of Wren.

A list is a growable buffer of values: a block of memory, and how many of its cells are in
use.  It grows to powers of two and is cut in half when half of it is enough.  Every access
to the block is checked here, as C does not.
-/
import Wrenegade.Lib.Cells
import Wrenegade.Model.Primitive

namespace Wrenegade

namespace WrenVM

open Double

/-! ### Buffers -/

def wrenPowerOf2Ceil (n : BitVec 32) : BitVec 32 :=
  let n := n - 1
  let n := n ||| n.sshiftRight 1
  let n := n ||| n.sshiftRight 2
  let n := n ||| n.sshiftRight 4
  let n := n ||| n.sshiftRight 8
  let n := n ||| n.sshiftRight 16
  n + 1

structure ValueBuffer where
  data : Cells Value
  count : Nat
deriving DecidableEq

namespace ValueBuffer

def capacity (buffer : ValueBuffer) : Nat := buffer.data.length

def get (buffer : ValueBuffer) (i : Nat) : Result Value := access (buffer.data.get i)

def put (buffer : ValueBuffer) (i : Nat) (value : Value) : Result ValueBuffer := do
  return { buffer with data := ← access (buffer.data.put i value) }

end ValueBuffer

def wrenValueBufferClear : ValueBuffer := ⟨[], 0⟩

/-- `buffer->data[buffer->count++] = data`, some times. -/
def fillLoop (value : Value) : Nat → ValueBuffer → Result ValueBuffer
  | 0, buffer => pure buffer
  | n + 1, buffer => do
      let buffer ← buffer.put buffer.count value
      fillLoop value n { buffer with count := buffer.count + 1 }

def wrenValueBufferFill (buffer : ValueBuffer) (value : Value) (count : Nat) :
    Result ValueBuffer :=
  let data :=
    if buffer.capacity < buffer.count + count then
      buffer.data.resize (wrenPowerOf2Ceil (BitVec.ofNat 32 (buffer.count + count))).toNat
    else buffer.data
  fillLoop value count { buffer with data }

def wrenValueBufferWrite (buffer : ValueBuffer) (value : Value) : Result ValueBuffer :=
  wrenValueBufferFill buffer value 1

/-! ### Lists -/

/-- The elements of a new list are not set yet. -/
def wrenNewList (numElements : Nat) : ValueBuffer := ⟨List.replicate numElements none, numElements⟩

def wrenListInsert (list : ValueBuffer) (value : Value) (index : Nat) : Result ValueBuffer := do
  let list ← wrenValueBufferWrite list .null
  let data ← access (list.data.shiftDown index (list.count - 1))
  let data ← access (data.put index value)
  return { list with data }

def wrenListRemoveAt (list : ValueBuffer) (index : Nat) : Result (Value × ValueBuffer) := do
  let removed ← list.get index
  let data ← access (Cells.shiftUp (list.count - 1 - index) index list.data)
  let data := if list.capacity / 2 ≥ list.count then data.resize (list.capacity / 2) else data
  return (removed, ⟨data, list.count - 1⟩)

/-- The elements of a slice, in a list of their own. -/
def copySlice (list : ValueBuffer) (slice : Slice) : Result ValueBuffer :=
  (List.range slice.length).foldlM
    (fun result i => do
      let value ← list.get (slice.index i)
      result.put i value)
    (wrenNewList slice.length)

/-! ### The primitives -/

inductive ListCall
  | add (value : Value)
  | addCore (value : Value)
  | clear
  | count
  | insert (index value : Value)
  | iterate (iterator : Value)
  | iteratorValue (iterator : Value)
  | removeAt (index : Value)
  | subscript (index : Value)
  | subscriptSetter (index value : Value)
deriving DecidableEq

/-- What a primitive answers: a value, the list itself or a new one. -/
inductive ListAnswer (ℓ : Type)
  | value (v : Value)
  | list
  | newList (elements : ℓ)
deriving DecidableEq

section Primitives

variable (heap : Heap)

def list_insert (list : ValueBuffer) (index value : Value) :
    Result (ListAnswer ValueBuffer × ValueBuffer) := do
  -- one more, to insert at the very end
  let index ← validateIndex index (list.count + 1) "Index"
  return (.value value, ← wrenListInsert list value index)

def list_iterate (list : ValueBuffer) (iterator : Value) : Result Value := do
  match iterator with
  | .null => return if list.count = 0 then .bool false else .num (ofNat 0)
  | _ =>
      let index ← validateInt iterator "Iterator"
      if index.lt (.finite 0) ∨ ¬ index.lt (.finite (list.count - 1)) then return .bool false
      return .num (ofNat (index.toNat + 1))

def list_iteratorValue (list : ValueBuffer) (iterator : Value) : Result Value := do
  list.get (← validateIndex iterator list.count "Iterator")

def list_removeAt (list : ValueBuffer) (index : Value) :
    Result (ListAnswer ValueBuffer × ValueBuffer) := do
  let index ← validateIndex index list.count "Index"
  let (removed, list) ← wrenListRemoveAt list index
  return (.value removed, list)

def list_subscript (list : ValueBuffer) (arg : Value) : Result (ListAnswer ValueBuffer) :=
  match arg with
  | .num _ => do return .value (← list.get (← validateIndex arg list.count "Subscript"))
  | .obj address =>
      match heap address with
      | .range range => do return .newList (← copySlice list (← calculateRange range list.count))
      | _ => throw (.error "Subscript must be a number or a range.")
  | _ => throw (.error "Subscript must be a number or a range.")

def list_subscriptSetter (list : ValueBuffer) (index value : Value) :
    Result (ListAnswer ValueBuffer × ValueBuffer) := do
  let index ← validateIndex index list.count "Subscript"
  return (.value value, ← list.put index value)

def ListCall.perform (list : ValueBuffer) :
    ListCall → Result (ListAnswer ValueBuffer × ValueBuffer)
  | .add value => do return (.value value, ← wrenValueBufferWrite list value)
  | .addCore value => do return (.list, ← wrenValueBufferWrite list value)
  | .clear => return (.value .null, wrenValueBufferClear)
  | .count => return (.value (.num (ofNat list.count)), list)
  | .insert index value => list_insert list index value
  | .iterate iterator => do return (.value (← list_iterate list iterator), list)
  | .iteratorValue iterator => do return (.value (← list_iteratorValue list iterator), list)
  | .removeAt index => list_removeAt list index
  | .subscript arg => do return (← list_subscript heap list arg, list)
  | .subscriptSetter index value => list_subscriptSetter list index value

/-- The calls one after the other.  An error leaves the list as it is. -/
def runList (list : ValueBuffer) :
    List ListCall → Result (List (Except Text (ListAnswer ValueBuffer)) × ValueBuffer)
  | [] => return ([], list)
  | call :: calls =>
      match call.perform heap list with
      | .ok (answer, list) => do
          let (answers, list) ← runList list calls
          return (.ok answer :: answers, list)
      | .error (.error message) => do
          let (answers, list) ← runList list calls
          return (.error message :: answers, list)
      | .error failure => throw failure

end Primitives

/-- `for (element in list)`. -/
def iterateList (list : ValueBuffer) : Result (List Value) :=
  forLoop (list_iterate list) (list_iteratorValue list) (list.count + 1) .null

end WrenVM

end Wrenegade
