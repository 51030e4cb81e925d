/-
What a generated body does when it runs.

A body works on the slots of the API and on its locals, and what it does on the
host's side is kept as a list of events: a member called, a field assigned, an object
constructed.  What the host answers is a parameter, as are the conversions of its
runtime.  Only a body in which every local is declared once and before it is used
compiles, so only such a body has runs.
-/
import Wrenegade.Model.Helper
import Wrenegade.Model.Scope

namespace Wrenegade

open Text Operation

variable {ν ω α : Type}

/-- What a body makes the host do. -/
inductive Event (ν ω : Type)
  | invoked (receiver : Option (Dynamic ν ω)) (code : Text) (args : List (Dynamic ν ω))
  | assigned (receiver : Option (Dynamic ν ω)) (target : Text) (value : Dynamic ν ω)
  | constructed (args : List (Dynamic ν ω))

/-- The host around a body. -/
structure HostRuntime (ν ω : Type) where
  hx : Conversions ν ω
  rt : Runtime ν ω
  /-- A field of an object. -/
  member : Dynamic ν ω → Text → Dynamic ν ω
  /-- The object the next constructor call makes. -/
  created : Dynamic ν ω

structure Machine (ν ω : Type) where
  slots : Slots ν ω
  locals : Text → Option (Dynamic ν ω)
  /-- The local `type`. -/
  type : ValueType
  events : List (Event ν ω)

/-- When a foreign function is entered. -/
def Machine.enter (slots : Slots ν ω) : Machine ν ω where
  slots := slots
  locals := fun _ => none
  type := .TUnknown
  events := []

abbrev Exec (ν ω α : Type) := Op SlotError (Machine ν ω) α

/-- A call of the API. -/
def callApi (x : Api ν ω α) : Exec ν ω α := do
  let m ← get
  set { m with slots := (x.apply m.slots).2 }
  match (x.apply m.slots).1 with
  | .ok a => pure a
  | .error e => throw e

def declare (name : Text) (value : Dynamic ν ω) : Exec ν ω Unit :=
  modify fun m => { m with locals := Function.update m.locals name (some value) }

/-- The value of a local; one that is not there has no place in a body that compiles. -/
def readLocal (name : Text) : Exec ν ω (Dynamic ν ω) := do
  match (← get).locals name with
  | some value => pure value
  | none => throw (.thrown ("undeclared: " ++ name))

def emit (event : Event ν ω) : Exec ν ω Unit :=
  modify fun m => { m with events := m.events ++ [event] }

/-- What a piece of code is called on. -/
def readReceiver (code : Text) : Exec ν ω (Option (Dynamic ν ω)) :=
  match receiverName code with
  | [] => pure none
  | name :: _ => some <$> readLocal name

/-- One statement; the fuel is that of the reads.  The names in it are taken to be those of C++, as
they are unless hxcpp has renamed the member or the class (`cppName`). -/
def Stmt.exec (host : HostRuntime ν ω) (fuel : Nat) : Stmt → Exec ν ω Unit
  | .argument name slot => do
      let value ← callApi (CppHelper.getFromSlot fuel slot)
      declare name value
  | .instance_ _ => do
      let inst ← callApi (CppHelper.getFromSlot fuel 0)
      declare "inst" inst
  | .call code => do
      let receiver ← readReceiver code
      let args ← (callArguments code).mapM readLocal
      emit (.invoked receiver code args)
  | .readMember method => do
      let inst ← readLocal "inst"
      declare "val" (host.member inst method)
  | .typeofVal => do
      let val ← readLocal "val"
      modify fun m => { m with type := host.rt.typeof val }
  | .saveVal => do
      let val ← readLocal "val"
      let type := (← get).type
      callApi (CppHelper.saveToSlot host.hx 0 val type)
  | .valuePointer => do
      let value ← callApi (wrenGetSlotForeign 1)
      declare "value" value
  | .loadValue => do
      let value ← callApi (CppHelper.getFromSlot fuel 1)
      -- the pointer leads into the object in slot 1
      modify fun m => { m with slots := m.slots.set 1 (.foreign value) }
      declare "value" value
  | .assignValue target => do
      let receiver ← readReceiver target
      let value ← readLocal "value"
      emit (.assigned receiver target value)
  | .newForeign _ => callApi (wrenSetSlotNewForeign 0 0 host.created)
  | .dynamicArgument name => do
      let value ← readLocal "value"
      declare name value
  | .object _ => pure ()
  | .newData params => do
      let args ← params.mapM readLocal
      emit (.constructed args)
  -- fills the new object, wherever it is by now
  | .copyData _ => pure ()

def runStmts (host : HostRuntime ν ω) (fuel : Nat) : List Stmt → Exec ν ω Unit
  | [] => pure ()
  | s :: rest => do
      s.exec host fuel
      runStmts host fuel rest

/-- The function compiles, and entered on these slots it ends like this. -/
def CFunction.RunsTo (host : HostRuntime ν ω) (f : CFunction) (slots : Slots ν ω)
    (r : Except SlotError Unit × Machine ν ω) : Prop :=
  WellScoped [] f.body ∧
    Settles (fun fuel => runStmts host fuel f.body) (Machine.enter slots) r

end Wrenegade
