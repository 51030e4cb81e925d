/-
What the primitives of the core library check of their arguments.

A value is a number, a singleton or the address of an object.  An address stands for one
object for as long as the program runs, so that the objects are a function of it; of the
mutable ones nothing is kept here.  The numbers are doubles, and an index is one that is
whole and within bounds once a negative one is counted from the end.

A violated assertion of the VM is told from an error that the fiber gets.
-/
import Wrenegade.Lib.Double
import Wrenegade.Lib.Text

namespace Wrenegade

namespace WrenVM

open Double

abbrev Byte := UInt8

structure ObjRange where
  from_ : Bits
  to_ : Bits
  isInclusive : Bool
deriving DecidableEq

inductive Value
  | null
  | bool (b : Bool)
  | num (x : Bits)
  | obj (address : Nat)
deriving DecidableEq

/-- What the VM reads of an object that never changes. -/
inductive Obj
  | class_ (name : List Byte)
  | fn (arity codeCount : Nat)
  | range (range : ObjRange)
  | string (value : List Byte)
  | other
deriving DecidableEq

abbrev Heap := Nat → Obj

/-- Why a primitive does not return. -/
inductive Failure
  | assertion (message : Text)
  | error (message : Text)
  /-- C does not define what happens. -/
  | undefined
deriving DecidableEq

abbrev Result (α : Type) := Except Failure α

/-- A memory access that may be wrong. -/
def access {α : Type} : Option α → Result α
  | some a => pure a
  | none => throw .undefined

/-! ### Numbers -/

def validateIntValue (value : Datum) (argName : Text) : Result Unit :=
  if value.isInteger then pure ()
  else throw (.error (argName ++ " must be an integer."))

def validateNum (arg : Value) (argName : Text) : Result Datum :=
  match arg with
  | .num x => pure (decode x)
  | _ => throw (.error (argName ++ " must be a number."))

def validateInt (arg : Value) (argName : Text) : Result Datum := do
  let value ← validateNum arg argName
  validateIntValue value argName
  pure value

/-- Numbers that a sum would round are out of bounds anyway. -/
def validateIndexValue (count : Nat) (value : Datum) (argName : Text) : Result Nat := do
  validateIntValue value argName
  let value := if value.lt (.finite 0) then value.add count else value
  if ¬ value.lt (.finite 0) ∧ value.lt (.finite count) then pure value.toNat
  else throw (.error (argName ++ " out of bounds."))

def validateIndex (arg : Value) (count : Nat) (argName : Text) : Result Nat := do
  let value ← validateNum arg argName
  validateIndexValue count value argName

/-! ### Ranges -/

/-- Where a range begins in a sequence, how many elements it has and which way it goes. -/
structure Slice where
  start : Nat
  length : Nat
  step : Int
deriving DecidableEq

/-- `start + i * step` as an unsigned number. -/
def Slice.index (slice : Slice) (i : Nat) : Nat :=
  ((slice.start + i * slice.step : Int) % 2 ^ 32).toNat

/-- The middle part of `calculateRange`: the last index, unless the range is empty. -/
def calculateRangeEnd (range : ObjRange) (length start : Nat) : Result (Option Nat) := do
  let value := decode range.to_
  validateIntValue value "Range end"
  let value := if value.lt (.finite 0) then value.add length else value
  if ¬ range.isInclusive ∧ value = .finite start then return none
  let value := if range.isInclusive then value
    else value.add (if value.lt (.finite start) then 1 else -1)
  if value.lt (.finite 0) ∨ ¬ value.lt (.finite length) then
    throw (.error "Range end out of bounds.")
  else return some value.toNat

def calculateRange (range : ObjRange) (length : Nat) : Result Slice := do
  if decode range.from_ = .finite length ∧
      decode range.to_ = .finite (if range.isInclusive then -1 else length) then
    return ⟨0, 0, 0⟩
  let start ← validateIndexValue length (decode range.from_) "Range start"
  match ← calculateRangeEnd range length start with
  | none => return ⟨start, 0, 0⟩
  | some last =>
      -- `abs((int)(from - to)) + 1`
      let distance := (BitVec.ofNat 32 start - BitVec.ofNat 32 last).toInt.natAbs
      return ⟨start, distance + 1, if start < last then 1 else -1⟩

/-! ### Loops -/

/-- `for (element in sequence)`: what the body is given, until the iterator is `false`. -/
def forLoop {α : Type} (iterate : Value → Result Value) (iteratorValue : Value → Result α) :
    Nat → Value → Result (List α)
  | 0, _ => return []
  | fuel + 1, iterator => do
      match ← iterate iterator with
      | .bool false => return []
      | next => do
          let element ← iteratorValue next
          return element :: (← forLoop iterate iteratorValue fuel next)

end WrenVM

end Wrenegade
