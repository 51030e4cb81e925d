/-
The host side of a VM: `wren.VM` and `wren.Value`, and the handles they hold.

A handle keeps a Wren value alive for the host.  The VM links all of its handles in
a list, and `wrenFreeVM` requires the list to be empty.  The host makes a handle
for every variable it looks up, and one for every new signature a `Value` is called
with.

What the interpreter does is not modelled.  An operation carries what it brings
about: the variables the main module has, the result of a call and the slots after
it.  An error ends the operation but not the run; the host may catch it.
-/
import Wrenegade.Lib.HashMap
import Wrenegade.Model.Helper

namespace Wrenegade

open Text Operation

/-- `WrenInterpretResult`. -/
inductive WrenInterpretResult
  | WREN_RESULT_SUCCESS
  | WREN_RESULT_COMPILE_ERROR
  | WREN_RESULT_RUNTIME_ERROR
deriving DecidableEq

/-- The error text of a result, if it is one. -/
def Helper.interpretResultToErr : WrenInterpretResult → Option Text
  | .WREN_RESULT_SUCCESS => none
  | .WREN_RESULT_COMPILE_ERROR => some "compilation error"
  | .WREN_RESULT_RUNTIME_ERROR => some "runtime error"

/-! ### State -/

/-- A `wren.Value`: its handle, and the call handles it has made, by signature. -/
structure HostValue where
  value : Nat
  methods : TextMap Nat

/-- The handles of a VM and who holds them.  Next to `vm->handles` and the values, the
acquisitions and releases so far are recorded, and for every call handle the value and the
signature it was made for. -/
structure Handles (ν ω : Type) where
  handles : List (Nat × WrenValue ν ω)
  /-- The address of the next handle. -/
  next : Nat
  values : List HostValue
  acquired : List Nat
  released : List Nat
  callHandles : List (Nat × Text × Nat)

structure HostState (ν ω : Type) extends Handles ν ω where
  slots : Slots ν ω

abbrev Host (ν ω α : Type) := Op SlotError (HostState ν ω) α

/-- After `Wren.newVM`. -/
def HostState.start (ν ω : Type) : HostState ν ω where
  handles := []
  next := 0
  values := []
  acquired := []
  released := []
  callHandles := []
  slots := []

variable {ν ω α : Type}

/-- An operation on the slots. -/
def onSlots (x : Api ν ω α) : Host ν ω α := ExceptT.mk fun s =>
  let (r, slots) := x.apply s.slots
  (r, { s with slots })

/-! ### The C API -/

def wrenMakeHandle (value : WrenValue ν ω) : Host ν ω Nat := do
  let s ← get
  set { s with
    handles := (s.next, value) :: s.handles
    next := s.next + 1
    acquired := s.acquired ++ [s.next] }
  pure s.next

def wrenReleaseHandle (handle : Nat) : Host ν ω Unit :=
  modify fun s => { s with
    handles := s.handles.filter fun h => h.1 ≠ handle
    released := s.released ++ [handle] }

/-- Slots that are new hold no value of interest. -/
def wrenEnsureSlots (numSlots : Nat) : Host ν ω Unit :=
  onSlots (modify fun slots => slots ++ List.replicate (numSlots - slots.length) .null)

def wrenGetSlotHandle (slot : Int) : Host ν ω Nat := do
  let value ← onSlots (apiStack slot)
  wrenMakeHandle value

def wrenSetSlotHandle (slot : Int) (handle : Nat) : Host ν ω Unit := do
  let s ← get
  match s.handles.lookup handle with
  | some value => onSlots (setSlot slot value)
  | none => throw (.assertion "Handle cannot be NULL.")

/-- The handle of a closure that calls a method. -/
def wrenMakeCallHandle (signature : Text) : Host ν ω Nat :=
  if cString signature = [] then throw (.assertion "Signature cannot be empty.")
  else wrenMakeHandle .unknown

/-- The variables of the main module, if that is there. -/
abbrev MainModule (ν ω : Type) := Option (Text → Option (WrenValue ν ω))

def wrenGetVariable (main : MainModule ν ω) (name : Text) (slot : Int) : Host ν ω Unit :=
  match main with
  | none => throw (.assertion "Could not find module.")
  | some lookup =>
      match lookup name with
      | none => throw (.assertion "Could not find variable.")
      | some value => onSlots (setSlot slot value)

/-- The assertion at the end of `wrenFreeVM`. -/
def wrenFreeVM : Host ν ω Unit := do
  let s ← get
  match s.handles with
  | [] => pure ()
  | _ => throw (.assertion "All handles have not been released.")

/-! ### `wren.Value` -/

namespace Value

/-- A value with its handle. -/
def new (value : Nat) : Host ν ω Unit :=
  modify fun s => { s with values := s.values ++ [{ value, methods := ∅ }] }

/-- `methods.set`. -/
def setMethod (v : Nat) (signature : Text) (handle : Nat) : Host ν ω Unit :=
  modify fun s => { s with
    values := s.values.modify v fun o =>
      { o with methods := o.methods.insert signature handle }
    callHandles := s.callHandles ++ [(v, signature, handle)] }

/-- The call handle of a signature, made at its first use. -/
def method (v : Nat) (this : HostValue) (signature : Text) : Host ν ω Nat :=
  match this.methods.lookup signature with
  | some f => pure f
  | none => do
      let f ← wrenMakeCallHandle signature
      setMethod v signature f
      pure f

/-- What `wrenCall` brings about: its result and the slots after it, or a violated
assertion. -/
abbrev CallOutcome (ν ω : Type) := Option (WrenInterpretResult × Slots ν ω)

def wrenCall (method : Nat) (outcome : CallOutcome ν ω) : Host ν ω WrenInterpretResult := do
  let s ← get
  match s.handles.lookup method, outcome with
  | none, _ => throw (.assertion "Method cannot be NULL.")
  | some _, none => throw (.assertion "Stack must have enough arguments for method.")
  | some _, some (result, slots) => do
      onSlots (set slots)
      pure result

/-- The call of a method of the value `v`; `typeof` is `Type.typeof`. -/
def call (hx : Conversions ν ω) (typeof : Dynamic ν ω → ValueType) (fuel : Nat) (v : Nat)
    (signature : Text) (params : List (Dynamic ν ω)) (outcome : CallOutcome ν ω) :
    Host ν ω (Dynamic ν ω) := do
  let s ← get
  match s.values[v]? with
  | none => throw (.thrown "Null Object Reference")
  | some this =>
      let f ← method v this signature
      wrenEnsureSlots (params.length + 1)
      wrenSetSlotHandle 0 this.value
      params.zipIdx.forM fun p =>
        onSlots (Helper.saveToSlot hx (p.2 + 1) p.1 (typeof p.1))
      let result ← wrenCall f outcome
      match Helper.interpretResultToErr result with
      | some _ => pure .null
      | none => onSlots (Helper.getFromSlot fuel 0)

end Value

/-! ### `wren.VM` -/

namespace VM

def interpret (result : WrenInterpretResult) (slots : Slots ν ω) : Host ν ω (Option Text) := do
  onSlots (set slots)
  pure (Helper.interpretResultToErr result)

/-- A handle is never null, so the test that follows in the source never holds. -/
def variable_ (main : MainModule ν ω) (name : Text) : Host ν ω Unit := do
  wrenEnsureSlots 1
  wrenGetVariable main name 0
  let handle ← wrenGetSlotHandle 0
  Value.new handle

/-- No handle is released by a collection. -/
def GC : Host ν ω Unit := pure ()

def stop : Host ν ω Unit := wrenFreeVM

end VM

/-! ### Runs -/

/-- What a host does with a VM between creating and stopping it. -/
inductive HostOp (ν ω : Type)
  | interpret (result : WrenInterpretResult) (slots : Slots ν ω)
  | variable_ (main : MainModule ν ω) (name : Text)
  | call (v : Nat) (signature : Text) (params : List (Dynamic ν ω))
      (outcome : Value.CallOutcome ν ω)
  | GC

section Run

variable (hx : Conversions ν ω) (typeof : Dynamic ν ω → ValueType) (fuel : Nat)

def HostOp.perform : HostOp ν ω → Host ν ω Unit
  | .interpret result slots => discard (VM.interpret result slots)
  | .variable_ main name => VM.variable_ main name
  | .call v signature params outcome =>
      discard (Value.call hx typeof fuel v signature params outcome)
  | .GC => VM.GC

/-- The state an operation leaves, returned or not. -/
def hostStep (s : HostState ν ω) (op : HostOp ν ω) : HostState ν ω :=
  ((op.perform hx typeof fuel).apply s).2

def hostRun (ops : List (HostOp ν ω)) : HostState ν ω :=
  ops.foldl (hostStep hx typeof fuel) (HostState.start ν ω)

end Run

end Wrenegade
