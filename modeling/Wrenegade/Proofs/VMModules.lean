/-
Which lookups of a variable find it.

`VM.variable` asks the API for the variable and tests the handle afterwards, but a handle is
never null: a module that is not loaded and a variable that is not there have already
violated the assertions of the API by then.  Nor is a variable that was only used in a
source a variable of the module; the lookup gives the number of a line for it.  What is
left is the pointer to the API stack, which an interpretation that ends well does not clear.
-/
import Wrenegade.Model.VMModules
import Wrenegade.Proofs.CallStack
import Wrenegade.Proofs.LoadModule

namespace Wrenegade

open Text Operation

namespace ModuleVM

variable {ν ω α : Type}

/-! ### What is asked for -/

/-- The name of the main module. -/
def main : Option CString := some (c_str "main")

/-- A definition of the variable was compiled. -/
def ObjModule.Defines (m : ObjModule ν ω) (name : Text) : Prop :=
  ∃ v ∈ m.vars, v.name.text = name ∧ v.defined = true

/-- The module is loaded and defines the name. -/
def DefinesIn (modules : Modules ν ω) (module : Option CString) (name : Text) : Prop :=
  ∃ m, getModule modules module = some m ∧ m.Defines name

def Defines (s : VMState ν ω) (name : Text) : Prop := DefinesIn s.modules main name

/-- The lookup stays within what the API asserts, leaves the modules, and returns null if the
main module is not loaded or does not define the name, and else a value whose handle holds
the value of the variable. -/
structure LooksUp (s : VMState ν ω) (name : Text)
    (r : Except VMError (Option Nat) × VMState ν ω) : Prop where
  asserted : ∀ e, r.1 ≠ .error e
  modules : r.2.modules = s.modules
  null : ¬ Defines s name → r.1 = .ok none
  value : ∀ m v, getModule s.modules main = some m → v ∈ m.vars → v.name.text = name →
    v.defined = true →
    ∃ i o, r.1 = .ok (some i) ∧ r.2.values[i]? = some o ∧
      r.2.handles.lookup o.value = some (.value v.value)

/-! ### Variables by name -/

theorem CString.ext {a b : CString} (h : a.text = b.text) : a = b := by
  cases a
  cases b
  cases h
  rfl

theorem c_str_of_text (s : CString) : c_str s.text = s := CString.ext (c_str_text s.noNul)

/-- A variable is found by its name. -/
theorem lookup_of_mem {m : ObjModule ν ω} {v : Variable ν ω} (hv : v ∈ m.vars) :
    ((wrenSymbolTableFind m v.name).bind fun symbol => m.vars[symbol]?) = some v := by
  cases hfind : wrenSymbolTableFind m v.name with
  | none =>
      rw [wrenSymbolTableFind_eq_none_iff] at hfind
      exact absurd (List.mem_map_of_mem hv) hfind
  | some symbol =>
      obtain ⟨hlt, hname, -⟩ := List.findIdx?_eq_some_iff_getElem.mp hfind
      obtain ⟨j, hj, rfl⟩ := List.getElem_of_mem hv
      rw [Option.bind_some, List.getElem?_eq_getElem hlt]
      -- no two variables have the same name
      have hindex : symbol = j := by
        refine (List.getElem?_inj (by simpa using hlt) m.nodup).mp ?_
        rw [List.getElem?_map, List.getElem?_map, List.getElem?_eq_getElem hlt,
          List.getElem?_eq_getElem hj]
        exact congrArg some (by simpa using hname)
      subst hindex
      rfl

/-! ### A lookup -/

section Apply

variable {s : VMState ν ω}

theorem apply_calls (x : Calls ν ω α) (s : VMState ν ω) :
    (calls x).apply s
      = ((x.apply s.toCallState).1.mapError .raised,
          { s with toCallState := (x.apply s.toCallState).2 }) := rfl

/-- What returns in the calls returns in the VM. -/
theorem apply_calls_ok {x : Calls ν ω α} {a : α} {t : CallState ν ω}
    (h : x.apply s.toCallState = (.ok a, t)) :
    (calls x).apply s = (.ok a, { s with toCallState := t }) := by
  rw [apply_calls, h]
  rfl

theorem apply_attached (h : s.detached = false) (x : Calls ν ω α) :
    (attached x).apply s = (calls x).apply s := by
  rw [attached, apply_bind_ok (apply_get s), h]
  rfl

theorem apply_attached_detached (h : s.detached = true) (x : Calls ν ω α) :
    (attached x).apply s = (.error .undefined, s) := by
  rw [attached, apply_bind_ok (apply_get s), h]
  rfl

/-- The handle of a slot. -/
theorem apply_getSlotHandle (t : CallState ν ω) {f : Fiber ν ω} (hf : 0 < f.stackTop)
    (w : WrenValue ν ω) :
    (CallVM.wrenGetSlotHandle 0).apply { t with fiber := some (CallVM.put f 0 w) }
      = (.ok t.next, { t with
          toCallHandles := CallVM.acquire t.toCallHandles (.value w)
          fiber := some (CallVM.put f 0 w) }) := by
  have hslot : (CallVM.put f 0 w).slots[0]? = some w := by
    have hget := @CallVM.getElem?_slots ν ω (CallVM.put f 0 w) 0 hf
    rw [hget]
    have hw : (CallVM.put f 0 w).stack 0 = w := by
      simp [CallVM.put]
    rw [hw]
  have hread : (CallVM.onSlots (apiStack 0)).apply { t with fiber := some (CallVM.put f 0 w) }
      = (.ok w, { t with fiber := some (CallVM.put f 0 w) }) := by
    have hslots := @apply_apiStack_of_get ν ω _ 0 w hslot
    rw [CallVM.apply_onSlots]
    rw [Int.natCast_zero] at hslots
    rw [hslots, CallVM.store_slots]
  rw [CallVM.wrenGetSlotHandle, apply_bind_ok hread]
  rfl

/-- **A variable that is there** is looked up. -/
theorem apply_variable (hs : s.detached = false) {m : ObjModule ν ω}
    (hm : getModule s.modules main = some m) {v : Variable ν ω} (hv : v ∈ m.vars)
    (memory : Nat → WrenValue ν ω) :
    ∃ f, (variable_ v.name.text memory).apply s = (.ok (some s.values.length), { s with
      handles := (s.next, .value v.value) :: s.handles
      next := s.next + 1
      values := s.values ++ [{ value := s.next, methods := ∅ }]
      fiber := f }) := by
  obtain ⟨f, hensure, -, htop⟩ := CallVM.apply_ensureSlots memory 1 s.toCallState
  have hget : (wrenGetVariable "main" v.name.text 0).apply
      { s with toCallState := { s.toCallState with fiber := some f } }
        = (.ok (), { s with toCallState := { s.toCallState with
            fiber := some (CallVM.put f 0 v.value) } }) := by
    have hset := CallVM.apply_onSlots_setSlot (show 0 < f.stackTop by omega) v.value s.toCallState
    have hm' : getModule s.modules (some (c_str "main")) = some m := hm
    rw [wrenGetVariable, apply_bind_ok (apply_get _)]
    simp only [hm', c_str_of_text, lookup_of_mem hv]
    exact apply_calls_ok hset
  refine ⟨some (CallVM.put f 0 v.value), ?_⟩
  rw [variable_, apply_bind_ok ((apply_attached hs _).trans (apply_calls_ok hensure)),
    apply_bind_ok hget, apply_bind_ok (apply_get _),
    apply_bind_ok (apply_calls_ok (apply_getSlotHandle s.toCallState (by omega) v.value))]
  rfl

/-- A sequence does not return what its last part never does. -/
theorem bind_ne_ok {β : Type} {x : VMOp ν ω α} {f : α → VMOp ν ω β} {b : β}
    (h : ∀ a t, ((f a).apply t).1 ≠ .ok b) (s : VMState ν ω) :
    ((x >>= f).apply s).1 ≠ .ok b := by
  rw [apply_bind]
  rcases x.apply s with ⟨r, t⟩
  cases r with
  | ok a => exact h a t
  | error e => exact nofun

/-- **A lookup that returns gives a value.** -/
theorem variable_ne_null (name : Text) (memory : Nat → WrenValue ν ω) (s : VMState ν ω) :
    ((variable_ name memory).apply s).1 ≠ .ok none := by
  refine bind_ne_ok (fun _ => bind_ne_ok fun _ => bind_ne_ok fun _ => bind_ne_ok fun _ =>
    bind_ne_ok fun _ t => ?_) s
  rw [apply_pure]
  exact nofun

/-- One state of a run. -/
theorem looksUp_apply_iff (s : VMState ν ω) (name : Text) (memory : Nat → WrenValue ν ω) :
    LooksUp s name ((variable_ name memory).apply s) ↔ Defines s name ∧ s.detached = false := by
  constructor
  · intro h
    refine ⟨?_, ?_⟩
    · by_contra hdefines
      exact variable_ne_null name memory s (h.null hdefines)
    · refine Bool.eq_false_of_not_eq_true fun hdetached => ?_
      have hensure := apply_attached_detached hdetached (CallVM.wrenEnsureSlots memory 1)
      refine h.asserted .undefined ?_
      rw [variable_, apply_bind_error hensure]
  · rintro ⟨⟨m, hm, v, hv, rfl, hdefined⟩, hattached⟩
    obtain ⟨f, happ⟩ := apply_variable hattached hm hv memory
    rw [happ]
    refine ⟨nofun, rfl, fun hno => absurd ⟨m, hm, v, hv, rfl, hdefined⟩ hno,
      fun m' v' hm' hv' hname _ => ?_⟩
    -- the module and the variable are the ones that were found
    rw [hm, Option.some.injEq] at hm'
    subst hm'
    obtain rfl : v' = v := by
      have hfound := lookup_of_mem hv'
      rw [CString.ext hname, lookup_of_mem hv, Option.some.injEq] at hfound
      exact hfound.symm
    refine ⟨_, { value := s.next, methods := ∅ }, rfl, ?_, List.lookup_cons_self⟩
    simp only [List.getElem?_concat_length]

end Apply

/--
**When a lookup is right.**  After any sequence of interpretations, lookups and calls, a lookup
of a name returns what it should, within what the API asserts, if and only if the main module
is loaded and defines the name, and the fiber of the VM is the one the API has the stack of,
if it has one.
-/
theorem looksUp_iff (hx : Conversions ν ω) (typeof : Dynamic ν ω → ValueType) (fuel : Nat)
    (core : ObjModule ν ω) (actions : List (Action ν ω)) (name : Text)
    (memory : Nat → WrenValue ν ω) :
    LooksUp (vmRun hx typeof fuel core actions) name
        ((variable_ name memory).apply (vmRun hx typeof fuel core actions)) ↔
      Defines (vmRun hx typeof fuel core actions) name ∧
        (vmRun hx typeof fuel core actions).detached = false :=
  looksUp_apply_iff _ name memory

/-! ### Definitions stay -/

section Stay

variable {m : ObjModule ν ω} {name : Text}

theorem defines_add (h : m.Defines name) (v : Variable ν ω)
    (hnew : wrenSymbolTableFind m v.name = none) : (m.add v hnew).Defines name := by
  obtain ⟨w, hw, hname⟩ := h
  exact ⟨w, List.mem_append_left _ hw, hname⟩

theorem defines_modify (h : m.Defines name) (symbol : Nat) {f : Variable ν ω → Variable ν ω}
    (hf : ∀ v, (f v).name = v.name) (hdefined : ∀ v, v.defined = true → (f v).defined = true) :
    (m.modify symbol f hf).Defines name := by
  obtain ⟨w, hw, hname, hw'⟩ := h
  obtain ⟨i, hi⟩ := List.mem_iff_getElem?.mp hw
  have hget : (m.modify symbol f hf).vars[i]? = some (if symbol = i then f w else w) := by
    rw [ObjModule.modify, List.getElem?_modify, hi]
    rfl
  refine ⟨_, List.mem_of_getElem? hget, ?_⟩
  by_cases hsymbol : symbol = i
  · rw [if_pos hsymbol, hf]
    exact ⟨hname, hdefined w hw'⟩
  · rw [if_neg hsymbol]
    exact ⟨hname, hw'⟩

theorem defines_declareVariable (h : m.Defines name) (x : CString) (line : ν)
    (hnew : wrenSymbolTableFind m x = none) : (wrenDeclareVariable m x line hnew).1.Defines name := by
  unfold wrenDeclareVariable
  split
  · exact h
  · exact defines_add h _ hnew

theorem defines_defineVariable (h : m.Defines name) (x : CString) (value : WrenValue ν ω) :
    (wrenDefineVariable m x value).1.Defines name := by
  unfold wrenDefineVariable
  split
  · exact h
  · split
    · next hnew => exact defines_add h _ hnew
    · next symbol _ =>
        split
        · exact defines_modify (f := fun v => { v with value, defined := true }) h symbol
            (fun _ => rfl) fun _ _ => rfl
        · exact h

theorem defines_mention (h : m.Defines name) (mention : Mention ν) :
    (mention.compile m).Defines name := by
  cases mention with
  | use x line =>
      rw [Mention.compile]
      split
      · next hnew => exact defines_declareVariable h x line hnew
      · exact h
  | definition x => exact defines_defineVariable h x .null

theorem defines_compile (h : m.Defines name) (source : Source ν) :
    (wrenCompile m source).Defines name := by
  unfold wrenCompile
  induction source.mentions generalizing m with
  | nil => exact h
  | cons mention mentions ih => exact ih (defines_mention h mention)

end Stay

section Modules

variable {modules : Modules ν ω} {module : Option CString} {name : Text}

/-- A module that is replaced by one with its definitions. -/
theorem definesIn_insert (h : DefinesIn modules module name) {x : Option CString}
    {m' : ObjModule ν ω} (hm' : ∀ m, getModule modules x = some m → m.Defines name → m'.Defines name) :
    DefinesIn (modules.insert x m') module name := by
  obtain ⟨m, hm, hdefines⟩ := h
  by_cases hx : module = x
  · subst hx
    exact ⟨m', AList.lookup_insert modules, hm' m hm hdefines⟩
  · exact ⟨m, (AList.lookup_insert_ne hx).trans hm, hdefines⟩

theorem definesIn_compileInModule (h : DefinesIn modules module name) (x : Option CString)
    (source : Source ν) : DefinesIn (compileInModule modules x source) module name := by
  refine definesIn_insert h fun m hm hdefines => ?_
  rw [hm]
  exact defines_compile hdefines source

theorem definesIn_perform (h : DefinesIn modules module name) (effect : Effect ν ω) :
    DefinesIn (effect.perform modules) module name := by
  cases effect with
  | compile x source => exact definesIn_compileInModule h x source
  | store x symbol value =>
      rw [Effect.perform]
      cases hx : getModule modules x with
      | none => exact h
      | some m =>
          refine definesIn_insert h fun m' hm' hdefines => ?_
          rw [hx, Option.some.injEq] at hm'
          subst hm'
          exact defines_modify hdefines _ _ fun _ hv => hv

theorem definesIn_effects (effects : List (Effect ν ω)) (h : DefinesIn modules module name) :
    DefinesIn (effects.foldl Effect.perform modules) module name := by
  induction effects generalizing modules with
  | nil => exact h
  | cons effect effects ih => exact ih (definesIn_perform h effect)

end Modules

/-! ### Along a run -/

/-- What a lookup looks at, next to the calls. -/
def view (s : VMState ν ω) : Modules ν ω × Bool := (s.modules, s.detached)

theorem leaves_calls (x : Calls ν ω α) : Leaves view (calls x) := fun _ _ hs => ⟨hs, fun _ _ => id⟩

theorem leaves_attached (x : Calls ν ω α) : Leaves view (attached x) := by
  refine Leaves.get.bind fun s => ?_
  split
  · exact Leaves.throw _
  · exact leaves_calls x

theorem leaves_getVariable (module name : Text) (slot : Int) :
    Leaves view (wrenGetVariable (ν := ν) (ω := ω) module name slot) := by
  refine Leaves.get.bind fun s => ?_
  split
  · exact Leaves.throw _
  · split
    · exact Leaves.throw _
    · exact leaves_calls _

theorem leaves_variable (name : Text) (memory : Nat → WrenValue ν ω) :
    Leaves view (variable_ name memory) :=
  (leaves_attached _).bind fun _ => (leaves_getVariable _ _ _).bind fun _ =>
    Leaves.get.bind fun _ => (leaves_calls _).bind fun _ => (leaves_calls _).bind fun _ =>
      Leaves.pure _

/-- What a run of the interpreter leaves: the pointer to the API stack stays if no foreign
method and no error cleared it. -/
theorem state_runInterpreter (execution : Execution ν ω) (s : VMState ν ω) :
    ((runInterpreter execution).apply s).2 = { s with
      modules := execution.effects.foldl Effect.perform s.modules
      fiber := if execution.ending ≠ .aborted ∧ execution.callsForeign = false then s.fiber
        else none
      detached := (execution.ending ≠ .aborted ∧ execution.callsForeign = false) ∧
        s.fiber.isSome } := by
  -- the last part only tells the result
  have hrest : ∀ (t : VMState ν ω), ((if execution.callsForeign ∧ s.fiber.isSome then
        throw (.raised (.assertion "Cannot already be in foreign call."))
      else if execution.ending = .aborted then pure .WREN_RESULT_RUNTIME_ERROR
      else pure .WREN_RESULT_SUCCESS : VMOp ν ω WrenInterpretResult).apply t).2 = t := by
    intro t
    split
    · rfl
    · split
      · rfl
      · rfl
  rw [runInterpreter, apply_bind_ok (apply_get s)]
  simp only []
  rw [apply_bind_ok (apply_set _ _), hrest]

/-! ### The calls under the VM -/

/-- The variables of the main module, as a lookup sees them. -/
def mainModule (modules : Modules ν ω) : MainModule ν ω :=
  (getModule modules main).map fun m name =>
    ((wrenSymbolTableFind m (c_str name)).bind fun symbol => m.vars[symbol]?).map Variable.value

theorem apply_getVariable (s : VMState ν ω) (name : Text) (slot : Int) :
    (wrenGetVariable "main" name slot).apply s
      = (calls (CallVM.wrenGetVariable (mainModule s.modules) name slot)).apply s := by
  rw [wrenGetVariable, apply_bind_ok (apply_get s)]
  cases hm : getModule s.modules (some (c_str "main")) with
  | none =>
      have hmain : mainModule s.modules = none := by
        rw [mainModule, main, hm]
        rfl
      rw [hmain]
      rfl
  | some m =>
      have hmain : mainModule s.modules = some fun name =>
          ((wrenSymbolTableFind m (c_str name)).bind fun symbol => m.vars[symbol]?).map
            Variable.value := by
        rw [mainModule, main, hm]
        rfl
      rw [hmain]
      cases hv : (wrenSymbolTableFind m (c_str name)).bind fun symbol => m.vars[symbol]? with
      | none =>
          simp only [CallVM.wrenGetVariable, hv, Option.map_none]
          rfl
      | some v => simp only [CallVM.wrenGetVariable, hv, Option.map_some]

/-- A sequence of calls, one after the other. -/
theorem calls_bind {β : Type} (x : Calls ν ω α) (f : α → Calls ν ω β) (s : VMState ν ω) :
    (calls x >>= fun a => calls (f a)).apply s = (calls (x >>= f)).apply s := by
  rw [apply_bind, apply_calls, apply_calls, apply_bind]
  rcases x.apply s.toCallState with ⟨r, t⟩
  cases r with
  | ok a => rfl
  | error e => rfl

/-- **A lookup does to the calls what it does without modules**, with the variables the main
module has by then. -/
theorem calls_variable {s : VMState ν ω} (hs : s.detached = false) (name : Text)
    (memory : Nat → WrenValue ν ω) :
    ((variable_ name memory).apply s).2 =
      ((calls (CallVM.variable_ (mainModule s.modules) name memory)).apply s).2 := by
  obtain ⟨f, hensure, -, -⟩ := CallVM.apply_ensureSlots memory 1 s.toCallState
  have hensure' := apply_calls_ok hensure
  rw [variable_, apply_bind_ok ((apply_attached hs _).trans hensure'), CallVM.variable_,
    ← calls_bind, apply_bind_ok hensure', ← calls_bind]
  refine state_bind_congr (apply_getVariable _ name 0) fun _ t => ?_
  rw [apply_bind_ok (apply_get t), ← calls_bind]
  exact state_bind_congr rfl fun handle t => state_bind_pure (calls (CallVM.Value.new handle)) _ t

section Step

variable {hx : Conversions ν ω} {typeof : Dynamic ν ω → ValueType} {fuel : Nat}
  {s : VMState ν ω} {name : Text}

/-- A source is run to its end or until it is suspended, and nothing clears the pointer to the API
stack. -/
def Detaches (s : VMState ν ω) : Action ν ω → Prop
  | .interpret _ source execution =>
      source.compiles = true ∧ execution.ending ≠ .aborted ∧ execution.callsForeign = false ∧
        s.fiber.isSome = true
  | _ => False

/-- What an interpretation leaves. -/
theorem state_interpret (module : Option Text) (source : Source ν) (execution : Execution ν ω)
    (hs : Defines s name) :
    Defines ((interpret module source execution).apply s).2 name ∧
      (s.detached = false → ¬ Detaches s (.interpret module source execution) →
        ((interpret module source execution).apply s).2.detached = false) := by
  have hcompiled := definesIn_compileInModule hs (module.map c_str) source
  rw [interpret, state_bind_pure, wrenInterpret, apply_bind_ok (apply_modify _ _)]
  by_cases hcompiles : source.compiles = true
  · rw [if_pos hcompiles, state_runInterpreter]
    refine ⟨definesIn_effects execution.effects hcompiled, fun _ hno => ?_⟩
    exact decide_eq_false fun h => hno ⟨hcompiles, h.1.1, h.1.2, h.2⟩
  · rw [if_neg hcompiles]
    exact ⟨hcompiled, fun h _ => h⟩

section Call

variable {v : Nat} {signature : Text} {params : List (Dynamic ν ω)} {memory : Nat → WrenValue ν ω}
  {responds : WrenValue ν ω → Text → Bool} {outcome : CallVM.CallOutcome ν ω}

theorem apply_call {r : Except VMError (Dynamic ν ω) × VMState ν ω}
    (h : (attached (CallVM.Value.call hx typeof fuel v signature params memory responds
      outcome)).apply s = r) (effects : List (Effect ν ω)) :
    (call hx typeof fuel v signature params memory responds outcome effects).apply s =
      if r.2.invoked.length = s.invoked.length then r
      else (r.1, { r.2 with modules := effects.foldl Effect.perform r.2.modules }) := by
  subst h
  rfl

/-- What a call leaves. -/
theorem state_call (hs : Defines s name) (effects : List (Effect ν ω)) :
    Defines ((call hx typeof fuel v signature params memory responds outcome effects).apply s).2
        name ∧
      ((call hx typeof fuel v signature params memory responds outcome effects).apply s).2.detached
        = s.detached := by
  have hview := Leaves.apply (leaves_attached (CallVM.Value.call hx typeof fuel v signature params
    memory responds outcome)) s
  rw [apply_call rfl]
  generalize (attached (CallVM.Value.call hx typeof fuel v signature params memory responds
    outcome)).apply s = r at hview
  obtain ⟨hmodules, hdetached⟩ := Prod.mk.inj hview
  have hdefines : DefinesIn r.2.modules main name := by
    rw [hmodules]
    exact hs
  split
  · exact ⟨hdefines, hdetached⟩
  · exact ⟨definesIn_effects effects hdefines, hdetached⟩

end Call

/-- **Nothing undefines a name**, and only an interpretation takes the fiber away. -/
theorem state_vmStep (a : Action ν ω) (hs : Defines s name) :
    Defines (vmStep hx typeof fuel s a) name ∧
      (s.detached = false → ¬ Detaches s a → (vmStep hx typeof fuel s a).detached = false) := by
  rw [vmStep]
  cases a with
  | interpret module source execution =>
      rw [Action.perform, state_discard]
      exact state_interpret module source execution hs
  | variable_ x memory =>
      rw [Action.perform, state_discard]
      obtain ⟨hmodules, hdetached⟩ := Prod.mk.inj (Leaves.apply (leaves_variable x memory) s)
      refine ⟨?_, fun h _ => hdetached.trans h⟩
      rw [Defines, hmodules]
      exact hs
  | call v signature params memory responds outcome effects =>
      rw [Action.perform, state_discard]
      obtain ⟨hdefines, hdetached⟩ := @state_call ν ω hx typeof fuel s name v signature params
        memory responds outcome hs effects
      exact ⟨hdefines, fun h _ => hdetached.trans h⟩

/-- An interpretation leaves the handles. -/
theorem handles_interpret (module : Option Text) (source : Source ν)
    (execution : Execution ν ω) (s : VMState ν ω) :
    ((interpret module source execution).apply s).2.toCallHandles = s.toCallHandles := by
  rw [interpret, state_bind_pure, wrenInterpret, apply_bind_ok (apply_modify _ _)]
  split
  · rw [state_runInterpreter]
  · rfl

theorem valid_attached {x : Calls ν ω α} (hs : CallVM.Valid s.toCallHandles)
    (hx : CallVM.Valid (x.apply s.toCallState).2.toCallHandles) :
    CallVM.Valid ((attached x).apply s).2.toCallHandles := by
  cases hdetached : s.detached with
  | false =>
      rw [apply_attached hdetached]
      exact hx
  | true =>
      rw [apply_attached_detached hdetached]
      exact hs

/-- **Every action keeps the handles right.** -/
theorem valid_vmStep (a : Action ν ω) (hs : CallVM.Valid s.toCallHandles) :
    CallVM.Valid (vmStep hx typeof fuel s a).toCallHandles := by
  rw [vmStep]
  cases a with
  | interpret module source execution =>
      rw [Action.perform, state_discard, handles_interpret]
      exact hs
  | variable_ x memory =>
      rw [Action.perform, state_discard]
      cases hdetached : s.detached with
      | false =>
          rw [calls_variable hdetached]
          exact CallVM.valid_variable hs (mainModule s.modules) x memory
      | true =>
          have hensure := apply_attached_detached hdetached (CallVM.wrenEnsureSlots memory 1)
          rw [variable_, apply_bind_error hensure]
          exact hs
  | call v signature params memory responds outcome effects =>
      rw [Action.perform, state_discard, apply_call rfl]
      have hvalid := valid_attached hs
        (@CallVM.valid_call ν ω hx typeof fuel s.toCallState hs v signature params memory responds
          outcome)
      split
      · exact hvalid
      · exact hvalid

theorem valid_vmRun (core : ObjModule ν ω) (actions : List (Action ν ω)) :
    CallVM.Valid (vmRun hx typeof fuel core actions).toCallHandles := by
  rw [vmRun]
  induction actions using List.reverseRecOn with
  | nil => exact CallVM.valid_start
  | append_singleton actions a ih =>
      rw [List.foldl_append]
      exact valid_vmStep a ih

/--
**Once a name is defined it can be looked up**, from then on in every run in which no
interpretation takes the fiber away.
-/
theorem looksUp_run (hs : Defines s name) (hattached : s.detached = false)
    (actions : List (Action ν ω))
    (hactions : ∀ done a rest, actions = done ++ a :: rest →
      ¬ Detaches (done.foldl (vmStep hx typeof fuel) s) a)
    (memory : Nat → WrenValue ν ω) :
    LooksUp (actions.foldl (vmStep hx typeof fuel) s) name
      ((variable_ name memory).apply (actions.foldl (vmStep hx typeof fuel) s)) := by
  rw [looksUp_apply_iff]
  induction actions using List.reverseRecOn with
  | nil => exact ⟨hs, hattached⟩
  | append_singleton actions a ih =>
      rw [List.foldl_append, List.foldl_cons, List.foldl_nil]
      obtain ⟨hdefines, hstay⟩ := ih fun done b rest heq =>
        hactions done b (rest ++ [a]) (by rw [heq, List.append_assoc, List.cons_append])
      obtain ⟨hdefines', hstay'⟩ := @state_vmStep ν ω hx typeof fuel _ name a hdefines
      exact ⟨hdefines', hstay' hstay (hactions actions a [] rfl)⟩

end Step

end ModuleVM

namespace Sample

open ModuleVM

/-- A VM without core classes, in which `main` has been interpreted with one class in it. -/
def interpretGame : List (ModuleVM.Action Nat Unit) :=
  [.interpret (some "main") { mentions := [.definition (c_str "Game")], compiles := true }
    { effects := [], callsForeign := false, ending := .finished }]

/-- Nothing was interpreted yet, and the main module does not have the variable. -/
theorem missing_not_looksUp :
    ¬ LooksUp (vmRun hx runtime.typeof 0 wrenNewModule []) "Game"
        ((ModuleVM.variable_ "Game" memory).apply (vmRun hx runtime.typeof 0 wrenNewModule [])) ∧
      ¬ LooksUp (vmRun hx runtime.typeof 0 wrenNewModule interpretGame) "Player"
        ((ModuleVM.variable_ "Player" memory).apply
          (vmRun hx runtime.typeof 0 wrenNewModule interpretGame)) := by
  constructor
  · intro h
    exact h.asserted (.raised (.assertion "Could not find module.")) rfl
  · intro h
    exact h.asserted (.raised (.assertion "Could not find variable.")) rfl

end Sample

end Wrenegade
