/-
What a call from the host passes to Wren.

The handles and the map of a value are right in every run: a value is held by the
handle of a Wren value, and a signature leads to the stub made for it.  The parameters
are not.  The slots a call needs are not cleared, an instance of a class and an array
leave theirs as it was, and nothing compares the number of parameters with that of the
signature; the assertion meant for it looks at the arity of the stub, which is never
set.
-/
import Wrenegade.Model.CallStack
import Wrenegade.Proofs.RoundTrip

namespace Wrenegade

open Text Operation

namespace CallVM

variable {ν ω α β : Type}

/-! ### Signatures -/

/-- The underscores of a parameter list. -/
def underscores (n : Nat) : Text := join (List.replicate n ("_" : Text)) ","

theorem count_underscores (n : Nat) : (underscores n).count '_' = n := by
  induction n with
  | zero => rfl
  | succ n ih =>
      cases n with
      | zero => rfl
      | succ n =>
          have hjoin : underscores (n + 1 + 1) = "_" ++ ("," ++ underscores (n + 1)) := rfl
          have hone : ("_" : Text).count '_' = 1 := rfl
          have hnone : ("," : Text).count '_' = 0 := rfl
          rw [hjoin, List.count_append, List.count_append, ih, hone, hnone]
          omega

theorem not_mem_underscores {c : Char} (hline : c ≠ '_') (hcomma : c ≠ ',') (n : Nat) :
    c ∉ underscores n := by
  intro h
  rcases mem_join h with h | ⟨p, hp, h⟩
  · exact hcomma (List.mem_singleton.mp h)
  · rw [List.eq_of_mem_replicate hp] at h
    exact hline (List.mem_singleton.mp h)

/-- Between the parentheses at the end every underscore counts. -/
theorem countParams_parens {front : Text} (hfront : front ≠ []) (hhead : front.head? ≠ some '[')
    (n : Nat) : countParams (front ++ signatureParameterList n '(' ')') = n := by
  obtain ⟨c, rest, rfl⟩ := List.exists_cons_of_ne_nil hfront
  have htail : (c :: rest ++ signatureParameterList n '(' ')').tail.reverse
      = (')' :: (underscores n).reverse) ++ '(' :: rest.reverse := by
    simp [signatureParameterList, underscores]
  have htake : (')' :: (underscores n).reverse ++ '(' :: rest.reverse).takeWhile
      (fun x => decide (x ≠ '(')) = ')' :: (underscores n).reverse := by
    rw [List.takeWhile_append_of_pos]
    · simp
    · intro x hx
      rcases List.mem_cons.mp hx with rfl | hx
      · rfl
      · refine decide_eq_true fun hparen => ?_
        rw [hparen, List.mem_reverse] at hx
        exact not_mem_underscores (by decide) (by decide) n hx
  have hlast : (c :: rest ++ signatureParameterList n '(' ')').getLast? = some ')' := by
    rw [signatureParameterList, ← List.append_assoc, List.getLast?_concat]
  have hfirst : ¬ (c :: rest ++ signatureParameterList n '(' ')').head? = some '[' := hhead
  rw [countParams, if_pos hlast, if_neg hfirst, htail, htake, List.count_cons_of_ne (by decide),
    List.count_reverse, count_underscores, Nat.add_zero]

/-- A text that ends otherwise has no parenthesis to count back to. -/
theorem countParams_brackets (n : Nat) (rest : Text) :
    countParams (signatureParameterList n '[' ']' ++ rest) =
      n + if (']' :: rest).getLast? = some ')' then
        ((underscores n ++ ']' :: rest).reverse.takeWhile (· ≠ '(')).count '_' else 0 := by
  have htake : (signatureParameterList n '[' ']' ++ rest).takeWhile (fun x => decide (x ≠ ']'))
      = '[' :: underscores n := by
    have hsplit : signatureParameterList n '[' ']' ++ rest
        = ('[' :: underscores n) ++ ']' :: rest := by
      simp [signatureParameterList, underscores]
    rw [hsplit, List.takeWhile_append_of_pos]
    · simp
    · intro x hx
      rcases List.mem_cons.mp hx with rfl | hx
      · rfl
      · refine decide_eq_true fun hbracket => ?_
        rw [hbracket] at hx
        exact not_mem_underscores (by decide) (by decide) n hx
  have hlast : (signatureParameterList n '[' ']' ++ rest).getLast? = (']' :: rest).getLast? := by
    rw [signatureParameterList, List.append_assoc]
    exact List.getLast?_append_cons _ _ _
  have htail : (signatureParameterList n '[' ']' ++ rest).tail
      = underscores n ++ ']' :: rest := by
    simp [signatureParameterList, underscores]
  have hfirst : (signatureParameterList n '[' ']' ++ rest).head? = some '[' := rfl
  rw [countParams, hlast, if_pos hfirst, htake, htail, List.count_cons_of_ne (by decide),
    count_underscores, Nat.add_comm]

theorem IsMethodName.head_ne {name : Text} (h : IsMethodName name) : name.head? ≠ some '[' := by
  intro hhead
  have hmem : '[' ∈ name := List.mem_of_mem_head? hhead
  exact h.plain _ hmem (by decide)

/-- **The parameters counted are those of the signature.** -/
theorem countParams_toText (s : Signature) : countParams s.toText = s.arity := by
  obtain ⟨name, type, arity, fits, -⟩ := s
  unfold Signature.toText
  cases type with
  | SIG_METHOD => exact countParams_parens fits.ne_nil fits.head_ne arity
  | SIG_GETTER =>
      obtain ⟨hname, rfl⟩ := fits
      have hlast : ¬ name.getLast? = some ')' := fun h =>
        hname.plain _ (List.mem_of_getLast? h) (by decide)
      show countParams name = 0
      rw [countParams, if_neg hlast, if_neg hname.head_ne]
  | SIG_SETTER =>
      obtain ⟨hname, rfl⟩ := fits
      refine countParams_parens (by simp) ?_ 1
      rw [List.head?_append_of_ne_nil _ hname.ne_nil]
      exact hname.head_ne
  | SIG_SUBSCRIPT =>
      obtain ⟨rfl, -⟩ := fits
      have h := countParams_brackets arity []
      rw [List.append_nil] at h
      exact h.trans rfl
  | SIG_SUBSCRIPT_SETTER =>
      obtain ⟨rfl, harity⟩ := fits
      -- the value that is assigned counts too
      have hvalue : ((underscores (arity - 1) ++ ']' :: ("=" ++ signatureParameterList 1 '(' ')')
          ).reverse.takeWhile (fun x => decide (x ≠ '('))).count '_' = 1 := by
        rw [List.reverse_append]
        rfl
      have h := countParams_brackets (arity - 1) ("=" ++ signatureParameterList 1 '(' ')')
      have hlast : (']' :: ("=" ++ signatureParameterList 1 '(' ')')).getLast? = some ')' := rfl
      rw [if_pos hlast, hvalue] at h
      have harity' : arity - 1 + 1 = arity := by omega
      show countParams (([] : Text) ++ signatureParameterList (arity - 1) '[' ']' ++ "=" ++
        signatureParameterList 1 '(' ')') = arity
      rw [List.nil_append, List.append_assoc, h, harity']
  | SIG_INITIALIZER =>
      refine countParams_parens (by simp) ?_ arity
      simp

theorem Signature.toText_ne_nil (s : Signature) : s.toText ≠ [] := by
  obtain ⟨name, type, arity, fits, -⟩ := s
  unfold Signature.toText
  cases type with
  | SIG_GETTER => exact fits.1.ne_nil
  | _ => simp [signatureParameterList]

theorem Signature.cString_toText (s : Signature) : cString s.toText = s.toText := by
  rw [cString_eq_iff]
  have hlist : ∀ (n : Nat) (l r : Char), l ≠ '\x00' → r ≠ '\x00' →
      '\x00' ∉ signatureParameterList n l r := by
    intro n l r hl hr h
    rcases List.mem_append.mp h with h | h
    · rcases List.mem_append.mp h with h | h
      · exact hl (List.mem_singleton.mp h).symm
      · exact not_mem_underscores (by decide) (by decide) n h
    · exact hr (List.mem_singleton.mp h).symm
  have hname : ∀ {name : Text}, IsMethodName name → '\x00' ∉ name :=
    fun h hmem => h.plain _ hmem (by decide)
  have hequals : '\x00' ∉ ("=" : Text) := by decide
  obtain ⟨name, type, arity, fits, -⟩ := s
  unfold Signature.toText
  cases type with
  | SIG_METHOD =>
      exact List.not_mem_append (hname fits) (hlist _ _ _ (by decide) (by decide))
  | SIG_GETTER => exact hname fits.1
  | SIG_SETTER =>
      exact List.not_mem_append (List.not_mem_append (hname fits.1) hequals)
        (hlist _ _ _ (by decide) (by decide))
  | SIG_SUBSCRIPT =>
      obtain ⟨rfl, -⟩ := fits
      exact hlist _ _ _ (by decide) (by decide)
  | SIG_SUBSCRIPT_SETTER =>
      obtain ⟨rfl, -⟩ := fits
      exact List.not_mem_append (List.not_mem_append (hlist _ _ _ (by decide) (by decide)) hequals)
        (hlist _ _ _ (by decide) (by decide))
  | SIG_INITIALIZER =>
      exact List.not_mem_append (List.not_mem_append (by decide) (hname fits))
        (hlist _ _ _ (by decide) (by decide))

/-! ### Handles -/

/-- The stub made for a text. -/
def stub (signature : Text) : ObjFn :=
  wrenNewFunction (cString signature) (countParams (cString signature))
    (countParams (cString signature) + 1)

/-- What every run keeps: addresses are used once, a value is held by the handle of a Wren
value, and its map leads from a signature to the stub made for it. -/
structure Valid (h : CallHandles ν ω) : Prop where
  used : ∀ a ∈ h.handles, a.1 < h.next
  held : ∀ o ∈ h.values, ∃ w, h.handles.lookup o.value = some (.value w)
  methods : ∀ o ∈ h.values, ∀ signature f, o.methods.lookup signature = some f →
    h.handles.lookup f = some (.closure (stub signature))

theorem valid_start : Valid (CallState.start ν ω).toCallHandles where
  used := fun _ h => nomatch h
  held := fun _ h => nomatch h
  methods := fun _ h => nomatch h

/-- The handles with a new one. -/
def acquire (h : CallHandles ν ω) (handle : WrenHandle ν ω) : CallHandles ν ω :=
  { h with handles := (h.next, handle) :: h.handles, next := h.next + 1 }

section Valid

variable {h : CallHandles ν ω}

theorem lookup_acquire_new (handle : WrenHandle ν ω) :
    (acquire h handle).handles.lookup h.next = some handle := by
  rw [acquire, List.lookup_cons_self]

/-- An old address leads where it led. -/
theorem Valid.lookup_acquire (hv : Valid h) {a : Nat} {w : WrenHandle ν ω}
    (ha : h.handles.lookup a = some w) (handle : WrenHandle ν ω) :
    (acquire h handle).handles.lookup a = some w := by
  have hmem : (a, w) ∈ h.handles := by
    obtain ⟨before, after, hsplit, -⟩ := List.lookup_eq_some_iff.mp ha
    rw [hsplit]
    exact List.mem_append_right _ List.mem_cons_self
  have hne : a ≠ h.next := Nat.ne_of_lt (hv.used _ hmem)
  have hbeq : (a == h.next) = false := beq_false_of_ne hne
  rw [acquire, List.lookup_cons, hbeq]
  exact ha

theorem Valid.acquire (hv : Valid h) (handle : WrenHandle ν ω) :
    Valid (CallVM.acquire h handle) where
  used := by
    intro a ha
    rcases List.mem_cons.mp ha with rfl | ha
    · exact Nat.lt_succ_self _
    · exact Nat.lt_succ_of_lt (hv.used a ha)
  held := by
    intro o ho
    obtain ⟨w, hw⟩ := hv.held o ho
    exact ⟨w, hv.lookup_acquire hw handle⟩
  methods := fun o ho signature f hf => hv.lookup_acquire (hv.methods o ho signature f hf) handle

/-- A value with the handle of a Wren value. -/
theorem Valid.addValue (hv : Valid h) {a : Nat} {w : WrenValue ν ω}
    (ha : h.handles.lookup a = some (.value w)) :
    Valid { h with values := h.values ++ [{ value := a, methods := ∅ }] } where
  used := hv.used
  held := by
    intro o ho
    rcases List.mem_append.mp ho with ho | ho
    · exact hv.held o ho
    · rw [List.mem_singleton.mp ho]
      exact ⟨w, ha⟩
  methods := by
    intro o ho signature f hf
    rcases List.mem_append.mp ho with ho | ho
    · exact hv.methods o ho signature f hf
    · rw [List.mem_singleton.mp ho, AList.lookup_empty] at hf
      cases hf

/-- A signature that leads to its stub. -/
theorem Valid.setMethod (hv : Valid h) {a : Nat} {signature : Text}
    (ha : h.handles.lookup a = some (.closure (stub signature))) (v : Nat) :
    Valid { h with values := h.values.modify v fun o =>
      { o with methods := o.methods.insert signature a } } := by
  have hmem : ∀ o ∈ h.values.modify v fun o => { o with methods := o.methods.insert signature a },
      o ∈ h.values ∨ ∃ o' ∈ h.values, o = { o' with methods := o'.methods.insert signature a } := by
    intro o ho
    obtain ⟨i, hi⟩ := List.mem_iff_getElem?.mp ho
    rw [List.getElem?_modify] at hi
    obtain ⟨o', ho', rfl⟩ := Option.map_eq_some_iff.mp hi
    have ho' := List.mem_of_getElem? ho'
    split
    · exact Or.inr ⟨o', ho', rfl⟩
    · exact Or.inl ho'
  refine ⟨hv.used, fun o ho => ?_, fun o ho sig f hf => ?_⟩
  · rcases hmem o ho with ho | ⟨o', ho', rfl⟩
    · exact hv.held o ho
    · exact hv.held o' ho'
  · rcases hmem o ho with ho | ⟨o', ho', rfl⟩
    · exact hv.methods o ho sig f hf
    · by_cases hsig : sig = signature
      · subst hsig
        rw [AList.lookup_insert, Option.some.injEq] at hf
        rw [← hf]
        exact ha
      · rw [AList.lookup_insert_ne hsig] at hf
        exact hv.methods o' ho' sig f hf

end Valid

/-! ### What does not touch the handles -/

/-- The operation leaves the handles alone. -/
abbrev Quiet (x : Calls ν ω α) : Prop := Leaves CallState.toCallHandles x

theorem quiet_onSlots (x : Api ν ω α) : Quiet (onSlots x) :=
  fun _ _ hs => ⟨hs, fun _ _ => id⟩

/-- What leaves the handles leaves them right. -/
theorem Quiet.valid {x : Calls ν ω α} (hx : Quiet x) {s : CallState ν ω}
    (hs : Valid s.toCallHandles) : Valid (x.apply s).2.toCallHandles := by
  rw [Leaves.apply hx]
  exact hs

theorem quiet_ensureSlots (memory : Nat → WrenValue ν ω) (n : Nat) :
    Quiet (wrenEnsureSlots memory n) := Leaves.set fun _ => rfl

theorem quiet_trace (err : Text) : Quiet (Value.trace (ν := ν) (ω := ω) err) :=
  Leaves.set fun _ => rfl

theorem quiet_setSlotHandle (slot : Int) (handle : Nat) :
    Quiet (wrenSetSlotHandle (ν := ν) (ω := ω) slot handle) :=
  Leaves.get.bind fun s => by
    cases s.handles.lookup handle with
    | none => exact Leaves.throw _
    | some w => cases w <;> exact quiet_onSlots _

theorem quiet_getVariable (main : MainModule ν ω) (name : Text) (slot : Int) :
    Quiet (wrenGetVariable main name slot) := by
  unfold wrenGetVariable
  split
  · exact Leaves.throw _
  · split
    · exact Leaves.throw _
    · exact quiet_onSlots _

section Interpreter

variable {responds : WrenValue ν ω → Text → Bool} {fn : ObjFn} {handle : Nat} {fiber : Fiber ν ω}

/-- A method the receiver does not have is not invoked. -/
theorem apply_runInterpreter_unknown
    (h : responds (fn.invocation handle fiber).receiver fn.symbol = false)
    (outcome : CallOutcome ν ω) (s : CallState ν ω) :
    (runInterpreter responds fn handle fiber outcome).apply s
      = (.ok .WREN_RESULT_RUNTIME_ERROR, { s with fiber := none }) := by
  have hif : responds (fn.invocation handle fiber).receiver (fn.invocation handle fiber).symbol
      = false := h
  rw [runInterpreter, apply_bind_ok (apply_get s)]
  simp only [hif, Bool.false_eq_true, if_false]
  rfl

theorem apply_runInterpreter
    (h : responds (fn.invocation handle fiber).receiver fn.symbol = true)
    (outcome : CallOutcome ν ω) (s : CallState ν ω) :
    ∃ result after, (runInterpreter responds fn handle fiber outcome).apply s
      = (.ok result, { s with
          fiber := after, invoked := s.invoked ++ [fn.invocation handle fiber] }) := by
  have hif : responds (fn.invocation handle fiber).receiver (fn.invocation handle fiber).symbol
      = true := h
  rw [runInterpreter, apply_bind_ok (apply_get s)]
  simp only [hif, if_true]
  cases outcome with
  | returned after => exact ⟨_, _, rfl⟩
  | aborted => exact ⟨_, _, rfl⟩

theorem quiet_wrenCall (method : Nat) (outcome : CallOutcome ν ω) :
    Quiet (wrenCall responds method outcome) := by
  intro h s hs
  rw [wrenCall, apply_bind_ok (apply_get s)]
  cases s.handles.lookup method with
  | none => exact ⟨hs, fun _ _ => id⟩
  | some w =>
      cases w with
      | value w => exact ⟨hs, fun _ _ => id⟩
      | closure fn =>
          cases s.fiber with
          | none => exact ⟨hs, fun _ _ => id⟩
          | some fiber =>
              simp only
              split
              · exact ⟨hs, fun _ _ => id⟩
              · cases hresponds : responds
                  (fn.invocation method { fiber with stackTop := fn.maxSlots }).receiver fn.symbol with
                | true =>
                    obtain ⟨result, after, happ⟩ := apply_runInterpreter hresponds outcome s
                    rw [happ]
                    exact ⟨hs, fun _ _ => id⟩
                | false =>
                    rw [apply_runInterpreter_unknown hresponds outcome s]
                    exact ⟨hs, fun _ _ => id⟩

end Interpreter

/-! ### Along a run -/

section Run

variable {hx : Conversions ν ω} {typeof : Dynamic ν ω → ValueType} {fuel : Nat}

/-- After `method` found or made the call handle `f`. -/
structure Found (s : CallState ν ω) (v : Nat) (this : HostValue) (signature : Text) (f : Nat)
    (h : CallHandles ν ω) : Prop where
  valid : Valid h
  stub : h.handles.lookup f = some (.closure (CallVM.stub signature))
  kept : ∀ a w, s.handles.lookup a = some w → h.handles.lookup a = some w
  cached : ∃ this', h.values[v]? = some this' ∧ this'.value = this.value ∧
    this'.methods.lookup signature = some f

/-- The call handle of a signature is the one the value has, or a new one. -/
theorem apply_method {s : CallState ν ω} (hs : Valid s.toCallHandles) {v : Nat} {this : HostValue}
    (hthis : s.values[v]? = some this) (signature : Text) :
    (cString signature = [] ∧
      ∃ e, (Value.method v this signature).apply s = (.error e, s)) ∨
      ∃ f h, (Value.method v this signature).apply s = (.ok f, { s with toCallHandles := h }) ∧
        Found s v this signature f h := by
  unfold Value.method
  cases hl : this.methods.lookup signature with
  | some f =>
      have hf := hs.methods this (List.mem_of_getElem? hthis) signature f hl
      exact Or.inr ⟨f, s.toCallHandles, rfl, hs, hf, fun _ _ h => h, this, hthis, rfl, hl⟩
  | none =>
      unfold wrenMakeCallHandle
      by_cases hnil : cString signature = []
      · rw [if_pos hnil]
        exact Or.inl ⟨hnil, _, rfl⟩
      · rw [if_neg hnil]
        have hnew := lookup_acquire_new (h := s.toCallHandles) (.closure (stub signature))
        have hvalue : (s.values.modify v fun o =>
            { o with methods := o.methods.insert signature s.next })[v]?
              = some { this with methods := this.methods.insert signature s.next } := by
          rw [List.getElem?_modify, hthis]
          simp
        exact Or.inr ⟨s.next, _, rfl, (hs.acquire _).setMethod hnew v, hnew,
          fun a w ha => hs.lookup_acquire ha _, _, hvalue, rfl, AList.lookup_insert _⟩

/-- What follows leaves the handles. -/
theorem quiet_callRest (params : List (Dynamic ν ω)) (memory : Nat → WrenValue ν ω)
    (responds : WrenValue ν ω → Text → Bool) (outcome : CallOutcome ν ω) (value f : Nat) :
    Quiet (do
      wrenEnsureSlots memory (params.length + 1)
      wrenSetSlotHandle 0 value
      Value.saveParams hx typeof params
      let result ← wrenCall responds f outcome
      match Helper.interpretResultToErr result with
      | some err => do
          Value.trace err
          pure .null
      | none => onSlots (Helper.getFromSlot fuel 0) : Calls ν ω (Dynamic ν ω)) := by
  refine (quiet_ensureSlots _ _).bind fun _ => (quiet_setSlotHandle 0 _).bind fun _ => ?_
  refine (Leaves.forM _ fun p => quiet_onSlots _).bind fun _ => ?_
  refine (quiet_wrenCall f outcome).bind fun result => ?_
  cases Helper.interpretResultToErr result with
  | some err => exact (quiet_trace err).bind fun _ => Leaves.pure _
  | none => exact quiet_onSlots _

theorem valid_call {s : CallState ν ω} (hs : Valid s.toCallHandles) (v : Nat) (signature : Text)
    (params : List (Dynamic ν ω)) (memory : Nat → WrenValue ν ω)
    (responds : WrenValue ν ω → Text → Bool) (outcome : CallOutcome ν ω) :
    Valid ((Value.call hx typeof fuel v signature params memory responds outcome).apply s
      ).2.toCallHandles := by
  rw [Value.call, apply_bind_ok (apply_get s)]
  cases hthis : s.values[v]? with
  | none => exact hs
  | some this =>
      rcases apply_method hs hthis signature with ⟨-, e, happ⟩ | ⟨f, h, happ, hfound⟩
      · simp only
        rw [apply_bind_error happ]
        exact hs
      · simp only
        rw [apply_bind_ok happ]
        exact Quiet.valid (quiet_callRest params memory responds outcome this.value f) hfound.valid

/-- A looked-up value is held by its handle. -/
theorem valid_variable {s : CallState ν ω} (hs : Valid s.toCallHandles) (main : MainModule ν ω)
    (name : Text) (memory : Nat → WrenValue ν ω) :
    Valid ((variable_ main name memory).apply s).2.toCallHandles := by
  have hquiet : ∀ {α : Type} {x : Calls ν ω α}, Quiet x →
      Keeps (fun s : CallState ν ω => Valid s.toCallHandles) (fun _ => False) x :=
    fun hx s hs => ⟨hx.valid hs, fun _ _ => id⟩
  have hnew : ∀ value : WrenValue ν ω,
      Keeps (fun s : CallState ν ω => Valid s.toCallHandles) (fun _ => False) (do
        let handle ← wrenMakeHandle (.value value)
        Value.new handle) := fun value t ht =>
    ⟨(ht.acquire _).addValue (lookup_acquire_new _), fun _ _ => id⟩
  have hkeeps : Keeps (fun s : CallState ν ω => Valid s.toCallHandles) (fun _ => False)
      (variable_ main name memory) := by
    refine (hquiet (quiet_ensureSlots memory 1)).bind fun _ =>
      (hquiet (quiet_getVariable main name 0)).bind fun _ => ?_
    rw [wrenGetSlotHandle, bind_assoc]
    exact (hquiet (quiet_onSlots _)).bind hnew
  exact (hkeeps s hs).1

/-- **Every operation keeps the handles right.** -/
theorem valid_step {s : CallState ν ω} (hs : Valid s.toCallHandles) (op : CallOp ν ω) :
    Valid (callStep hx typeof fuel s op).toCallHandles := by
  rw [callStep]
  cases op with
  | variable_ main name memory => exact valid_variable hs main name memory
  | call v signature params memory responds outcome =>
      rw [CallOp.perform, state_discard]
      exact valid_call hs v signature params memory responds outcome

theorem valid_run (ops : List (CallOp ν ω)) :
    Valid (callRun hx typeof fuel ops).toCallHandles := by
  suffices h : ∀ (ops : List (CallOp ν ω)) (s : CallState ν ω), Valid s.toCallHandles →
      Valid (ops.foldl (callStep hx typeof fuel) s).toCallHandles from
    h ops _ valid_start
  intro ops
  induction ops with
  | nil => exact fun _ hs => hs
  | cons op ops ih => exact fun s hs => ih _ (valid_step hs op)

end Run

/-! ### The slots of a call -/

theorem length_slots (f : Fiber ν ω) : f.slots.length = f.stackTop := by
  rw [Fiber.slots, List.length_map, List.length_range]

theorem getElem?_slots {f : Fiber ν ω} {i : Nat} (hi : i < f.stackTop) :
    f.slots[i]? = some (f.stack i) := by
  rw [Fiber.slots, List.getElem?_map, List.getElem?_range hi]
  rfl

/-- The stack with one slot written. -/
def put (f : Fiber ν ω) (slot : Nat) (w : WrenValue ν ω) : Fiber ν ω :=
  { f with stack := Function.update f.stack slot w }

theorem store_slots (f : Fiber ν ω) : f.store f.slots = f := by
  unfold Fiber.store
  congr 1
  funext i
  by_cases hi : i < f.stackTop
  · rw [getElem?_slots hi]
    rfl
  · rw [List.getElem?_eq_none (by rw [length_slots]; omega)]
    rfl

theorem store_set {f : Fiber ν ω} {slot : Nat} (hslot : slot < f.stackTop) (w : WrenValue ν ω) :
    f.store (f.slots.set slot w) = put f slot w := by
  unfold Fiber.store put
  congr 1
  funext i
  by_cases hi : i = slot
  · subst hi
    rw [List.getElem?_set_self (by rw [length_slots]; exact hslot), Function.update_self]
    rfl
  · rw [List.getElem?_set_ne (Ne.symm hi), Function.update_of_ne hi]
    by_cases hlt : i < f.stackTop
    · rw [getElem?_slots hlt]
      rfl
    · rw [List.getElem?_eq_none (by rw [length_slots]; omega)]
      rfl

theorem put_self (f : Fiber ν ω) (slot : Nat) : put f slot (f.stack slot) = f := by
  rw [put, Function.update_eq_self]

theorem apply_onSlots (x : Api ν ω α) (s : CallState ν ω) (f : Fiber ν ω) :
    (onSlots x).apply { s with fiber := some f }
      = ((x.apply f.slots).1, { s with fiber := some (f.store (x.apply f.slots).2) }) := rfl

theorem apply_onSlots_setSlot {f : Fiber ν ω} {slot : Nat} (hslot : slot < f.stackTop)
    (w : WrenValue ν ω) (s : CallState ν ω) :
    (onSlots (setSlot (slot : Int) w)).apply { s with fiber := some f }
      = (.ok (), { s with fiber := some (put f slot w) }) := by
  rw [apply_onSlots, apply_setSlot (by rw [length_slots]; exact hslot), store_set hslot]

section Save

variable {hx : Conversions ν ω} {rt : Runtime ν ω}

/-- What a slot holds after a save that returns. -/
def afterSave : Saving ν ω → WrenValue ν ω → WrenValue ν ω
  | .stores w, _ => w
  | _, old => old

/-- One parameter. -/
theorem apply_save (hlaw : hx.Lawful) {f : Fiber ν ω} {slot : Nat} (hslot : slot < f.stackTop)
    (p : Dynamic ν ω) (s : CallState ν ω) :
    (rt.saving p = .throws ∧
      ∃ e, (onSlots (Helper.saveToSlot hx (slot : Int) p (rt.typeof p))).apply
        { s with fiber := some f } = (.error e, { s with fiber := some f })) ∨
    (rt.saving p ≠ .throws ∧
      (onSlots (Helper.saveToSlot hx (slot : Int) p (rt.typeof p))).apply
        { s with fiber := some f }
          = (.ok (), { s with fiber := some (put f slot (afterSave (rt.saving p) (f.stack slot))) })) := by
  have hsave := @saveToSlot_saving ν ω hx hlaw rt f.slots slot (by rw [length_slots]; exact hslot) p
  rw [apply_onSlots]
  cases hsaving : rt.saving p with
  | stores w =>
      rw [hsaving] at hsave
      refine Or.inr ⟨by simp, ?_⟩
      rw [hsave, store_set hslot]
      rfl
  | keeps =>
      rw [hsaving] at hsave
      refine Or.inr ⟨by simp, ?_⟩
      rw [hsave, store_slots, afterSave, put_self]
      exact nofun
  | throws =>
      rw [hsaving] at hsave
      obtain ⟨m, hsave⟩ := hsave
      refine Or.inl ⟨rfl, .thrown m, ?_⟩
      rw [hsave, store_slots]

/-- What the parameters leave of a stack when all are saved. -/
structure Saved (rt : Runtime ν ω) (params : List (Dynamic ν ω)) (k : Nat)
    (f g : Fiber ν ω) : Prop where
  stackTop : g.stackTop = f.stackTop
  other : ∀ j, j ≤ k ∨ k + params.length < j → g.stack j = f.stack j
  saved : ∀ i p, params[i]? = some p →
    g.stack (k + i + 1) = afterSave (rt.saving p) (f.stack (k + i + 1))

/-- **The parameters, one after the other**: one that is refused ends the call, and otherwise
every one is saved to its own slot. -/
theorem apply_saveParams (hlaw : hx.Lawful) (params : List (Dynamic ν ω)) :
    ∀ (k : Nat) (f : Fiber ν ω) (s : CallState ν ω), k + params.length < f.stackTop →
      ((∃ p ∈ params, rt.saving p = .throws) ∧
        ∃ e g, ((params.zipIdx k).forM fun p =>
            onSlots (Helper.saveToSlot hx (p.2 + 1) p.1 (rt.typeof p.1))).apply
          { s with fiber := some f } = (.error e, { s with fiber := some g })) ∨
      ((∀ p ∈ params, rt.saving p ≠ .throws) ∧
        ∃ g, ((params.zipIdx k).forM fun p =>
            onSlots (Helper.saveToSlot hx (p.2 + 1) p.1 (rt.typeof p.1))).apply
          { s with fiber := some f } = (.ok (), { s with fiber := some g }) ∧
          Saved rt params k f g) := by
  induction params with
  | nil =>
      intro k f s _
      refine Or.inr ⟨fun p hp => (by cases hp), f, rfl, rfl, fun _ _ => rfl, fun i p hp => ?_⟩
      cases hp
  | cons p ps ih =>
      intro k f s hlength
      rw [List.length_cons] at hlength
      have hslot : k + 1 < f.stackTop := by omega
      rw [List.zipIdx_cons]
      rcases @apply_save ν ω hx rt hlaw f (k + 1) hslot p s with ⟨hthrows, e, happ⟩ | ⟨hthrows, happ⟩
      · refine Or.inl ⟨⟨p, List.mem_cons_self, hthrows⟩, e, f, ?_⟩
        exact apply_bind_error happ
      · have hrest := ih (k + 1) (put f (k + 1) (afterSave (rt.saving p) (f.stack (k + 1)))) s
          (by show k + 1 + ps.length < f.stackTop; omega)
        rcases hrest with ⟨⟨q, hq, hqthrows⟩, e, g, hrest⟩ | ⟨hnone, g, hrest, hsaved⟩
        · refine Or.inl ⟨⟨q, List.mem_cons_of_mem _ hq, hqthrows⟩, e, g, ?_⟩
          exact (apply_bind_ok happ).trans hrest
        · refine Or.inr ⟨fun q hq => ?_, g, (apply_bind_ok happ).trans hrest, hsaved.stackTop,
            fun j hj => ?_, fun i q hq => ?_⟩
          · rcases List.mem_cons.mp hq with rfl | hq
            · exact hthrows
            · exact hnone q hq
          · rw [List.length_cons] at hj
            rw [hsaved.other j (by omega)]
            exact Function.update_of_ne (by omega) _ _
          · cases i with
            | zero =>
                obtain rfl : p = q := Option.some.inj hq
                rw [hsaved.other (k + 0 + 1) (by omega)]
                exact Function.update_self _ _ _
            | succ i =>
                have hindex : k + (i + 1) + 1 = k + 1 + i + 1 := by omega
                rw [hindex, hsaved.saved i q hq]
                exact congrArg (afterSave (rt.saving q)) (Function.update_of_ne (by omega) _ _)

end Save

/-! ### The whole call -/

/-- The memory under the slots of the next call. -/
def stale (s : CallState ν ω) (memory : Nat → WrenValue ν ω) : Nat → WrenValue ν ω :=
  (s.fiber.getD (wrenNewFiber memory)).stack

/-- What stands in the slots of `k` arguments when all parameters are saved. -/
def passed (rt : Runtime ν ω) (params : List (Dynamic ν ω)) (old : Nat → WrenValue ν ω)
    (k : Nat) : List (WrenValue ν ω) :=
  (List.range k).map fun i =>
    match params[i]? with
    | some p => afterSave (rt.saving p) (old (i + 1))
    | none => old (i + 1)

section Whole

variable {hx : Conversions ν ω} {rt : Runtime ν ω} {fuel : Nat}

theorem apply_ensureSlots (memory : Nat → WrenValue ν ω) (n : Nat) (s : CallState ν ω) :
    ∃ f : Fiber ν ω, (wrenEnsureSlots memory n).apply s = (.ok (), { s with fiber := some f }) ∧
      f.stack = stale s memory ∧ n ≤ f.stackTop := by
  by_cases hn : n ≤ (s.fiber.getD (wrenNewFiber memory)).stackTop
  · refine ⟨s.fiber.getD (wrenNewFiber memory), ?_, rfl, hn⟩
    show (Except.ok (), { s with fiber := some (if _ then _ else _) }) = _
    rw [if_pos hn]
  · refine ⟨{ s.fiber.getD (wrenNewFiber memory) with stackTop := n }, ?_, rfl, Nat.le_refl n⟩
    show (Except.ok (), { s with fiber := some (if _ then _ else _) }) = _
    rw [if_neg hn]

theorem apply_setSlotHandle {s : CallState ν ω} {handle : Nat} {w : WrenValue ν ω}
    (hw : s.handles.lookup handle = some (.value w)) {f : Fiber ν ω} (hf : 0 < f.stackTop) :
    (wrenSetSlotHandle 0 handle).apply { s with fiber := some f }
      = (.ok (), { s with fiber := some (put f 0 w) }) := by
  rw [wrenSetSlotHandle, apply_bind_ok (apply_get _)]
  simp only [hw]
  exact @apply_onSlots_setSlot ν ω f 0 hf w s

/-- The stub takes its arguments from the first slots, and nothing asks for more of them. -/
theorem invocation_stub (signature : Text) (handle : Nat) (f : Fiber ν ω) :
    (stub signature).invocation handle { f with stackTop := (stub signature).maxSlots }
      = { handle, symbol := cString signature, receiver := f.stack 0
          args := (List.range' 1 (countParams (cString signature))).map f.stack } := by
  have hone : ∀ k : Nat, k + 1 - k = 1 := by omega
  unfold ObjFn.invocation stub wrenNewFunction
  simp only [Nat.sub_self, hone]

theorem args_saved {params : List (Dynamic ν ω)} {f g : Fiber ν ω} {w : WrenValue ν ω}
    (hsaved : Saved rt params 0 (put f 0 w) g) (k : Nat) :
    (List.range' 1 k).map g.stack = passed rt params f.stack k := by
  have hbelow : ∀ i, (put f 0 w).stack (i + 1) = f.stack (i + 1) := fun i =>
    Function.update_of_ne (Nat.succ_ne_zero i) w f.stack
  rw [passed, List.range'_eq_map_range, List.map_map]
  refine List.map_congr_left fun i _ => ?_
  rw [Function.comp_apply]
  cases hp : params[i]? with
  | some p =>
      have hslot := hsaved.saved i p hp
      rw [Nat.zero_add, hbelow] at hslot
      rw [Nat.add_comm]
      exact hslot
  | none =>
      have hi := List.getElem?_eq_none_iff.mp hp
      rw [Nat.add_comm, hsaved.other (i + 1) (by omega), hbelow]

/-- **What a call can do**: a parameter is refused, the receiver has no such method, or the
method is invoked with what stands in the slots. -/
inductive CallEffect (rt : Runtime ν ω) (s : CallState ν ω) (v : Nat) (this : HostValue)
    (w : WrenValue ν ω) (signature : Text) (params : List (Dynamic ν ω))
    (memory : Nat → WrenValue ν ω) (responds : WrenValue ν ω → Text → Bool) :
    Except SlotError (Dynamic ν ω) × CallState ν ω → Prop
  | refused (hthrows : ∃ p ∈ params, rt.saving p = .throws) {e : SlotError} {t : CallState ν ω}
      (hinvoked : t.invoked = s.invoked) :
      CallEffect rt s v this w signature params memory responds (.error e, t)
  | unknown (hnone : ∀ p ∈ params, rt.saving p ≠ .throws)
      (hresponds : responds w (cString signature) = false) {err : Text} {t : CallState ν ω}
      (hinvoked : t.invoked = s.invoked) (htraced : t.traced = s.traced ++ [err]) :
      CallEffect rt s v this w signature params memory responds (.ok .null, t)
  | invoked (hnone : ∀ p ∈ params, rt.saving p ≠ .throws)
      (hresponds : responds w (cString signature) = true) {f : Nat}
      {r : Except SlotError (Dynamic ν ω)} {t : CallState ν ω}
      (hfound : Found s v this signature f t.toCallHandles)
      (hinvoked : t.invoked = s.invoked ++ [{
        handle := f, symbol := cString signature, receiver := w
        args := passed rt params (stale s memory) (countParams (cString signature)) }]) :
      CallEffect rt s v this w signature params memory responds (r, t)

theorem callEffect (hlaw : hx.Lawful) {s : CallState ν ω} (hs : Valid s.toCallHandles) {v : Nat}
    {this : HostValue} (hthis : s.values[v]? = some this) {w : WrenValue ν ω}
    (hw : s.handles.lookup this.value = some (.value w)) {signature : Text}
    (hne : cString signature ≠ []) (params : List (Dynamic ν ω)) (memory : Nat → WrenValue ν ω)
    (responds : WrenValue ν ω → Text → Bool) (outcome : CallOutcome ν ω) :
    CallEffect rt s v this w signature params memory responds
      ((Value.call hx rt.typeof fuel v signature params memory responds outcome).apply s) := by
  rw [Value.call, apply_bind_ok (apply_get s)]
  simp only [hthis]
  rcases apply_method hs hthis signature with ⟨hnil, -⟩ | ⟨f, h, hmethod, hfound⟩
  · exact absurd hnil hne
  obtain ⟨f₀, hensure, hstack, htop⟩ := apply_ensureSlots memory (params.length + 1)
    { s with toCallHandles := h }
  have hset := apply_setSlotHandle (s := { s with toCallHandles := h }) (hfound.kept _ _ hw)
    (f := f₀) (by omega)
  rw [apply_bind_ok hmethod, apply_bind_ok hensure, apply_bind_ok hset, Value.saveParams]
  rcases @apply_saveParams ν ω hx rt hlaw params 0 (put f₀ 0 w) { s with toCallHandles := h }
    (by show 0 + params.length < f₀.stackTop; omega) with
    ⟨hthrows, e, g, hsave⟩ | ⟨hnone, g, hsave, hsaved⟩
  · rw [apply_bind_error hsave]
    exact .refused hthrows rfl
  · have hreceiver : g.stack 0 = w := by
      rw [hsaved.other 0 (by omega)]
      exact Function.update_self 0 w f₀.stack
    have hargs := args_saved hsaved (countParams (cString signature))
    rw [hstack] at hargs
    have hinvocation := invocation_stub signature f g
    rw [hreceiver, hargs] at hinvocation
    have hcall : (wrenCall responds f outcome).apply
        { s with toCallHandles := h, fiber := some g }
          = (runInterpreter responds (stub signature) f
              { g with stackTop := (stub signature).maxSlots } outcome).apply
            { s with toCallHandles := h, fiber := some g } := by
      rw [wrenCall, apply_bind_ok (apply_get _)]
      simp only [hfound.stub]
      -- the arity of a stub is zero
      rfl
    rw [apply_bind_ok hsave]
    cases hresponds : responds w (cString signature) with
    | false =>
        have hrun := @apply_runInterpreter_unknown ν ω responds (stub signature) f _
          (by rw [hinvocation]; exact hresponds) outcome
          { s with toCallHandles := h, fiber := some g }
        rw [apply_bind_ok (hcall.trans hrun)]
        exact .unknown hnone hresponds rfl rfl
    | true =>
        obtain ⟨result, after, hrun⟩ := @apply_runInterpreter ν ω responds (stub signature) f _
          (by rw [hinvocation]; exact hresponds) outcome
          { s with toCallHandles := h, fiber := some g }
        rw [hinvocation] at hrun
        rw [apply_bind_ok (hcall.trans hrun)]
        cases Helper.interpretResultToErr result with
        | some err => exact .invoked hnone hresponds hfound rfl
        | none => exact .invoked hnone hresponds hfound rfl

end Whole

/-! ### Exact calls -/

/-- The Wren value is the given one. -/
def Equals (d : Dynamic ν ω) (w : WrenValue ν ω) : Prop := w.Plain ∧ w.toDynamic = d

/-- The objects a save throws on: all but the instances of a class. -/
def Refused (rt : Runtime ν ω) : Dynamic ν ω → Prop
  | .object o => ∀ c, rt.kind o ≠ .instance_ c
  | _ => False

/-- The parameter gets into a slot that held `old`: a string without NUL and any other scalar
does, and what is passed over is there only if it was there before. -/
def Arrives (rt : Runtime ν ω) (old : WrenValue ν ω) : Dynamic ν ω → Prop
  | .array elements => Equals (.array elements) old
  | .object o => (∃ c, rt.kind o = .instance_ c) ∧ Equals (.object o) old
  | .string text => '\x00' ∉ text
  | _ => True

theorem refused_iff (rt : Runtime ν ω) (p : Dynamic ν ω) : Refused rt p ↔ rt.saving p = .throws := by
  cases p with
  | object o =>
      rw [saving_object]
      cases hkind : rt.kind o with
      | instance_ c => exact ⟨fun h => absurd hkind (h c), nofun⟩
      | _ => exact ⟨fun _ => rfl, fun _ c => by rw [hkind]; exact nofun⟩
  | _ => exact ⟨False.elim, nofun⟩

theorem equals_afterSave_iff {rt : Runtime ν ω} {p : Dynamic ν ω} (hp : ¬ Refused rt p)
    (old : WrenValue ν ω) : Equals p (afterSave (rt.saving p) old) ↔ Arrives rt old p := by
  cases p with
  | null => exact ⟨fun _ => trivial, fun _ => ⟨.null, rfl⟩⟩
  | bool b => exact ⟨fun _ => trivial, fun _ => ⟨.bool b, rfl⟩⟩
  | num x => exact ⟨fun _ => trivial, fun _ => ⟨.num x, rfl⟩⟩
  | string text =>
      rw [Arrives, ← cString_eq_iff]
      constructor
      · rintro ⟨-, h⟩
        exact Dynamic.string.inj h
      · intro h
        exact ⟨.string _, congrArg Dynamic.string h⟩
  | array elements => rfl
  | object o =>
      cases hkind : rt.kind o with
      | instance_ c =>
          rw [saving_object, hkind]
          exact ⟨fun h => ⟨⟨c, hkind⟩, h⟩, fun h => h.2⟩
      | _ => exact absurd (fun c => by rw [hkind]; exact nofun) hp

theorem forall₂_passed_iff {rt : Runtime ν ω} {params : List (Dynamic ν ω)}
    (hparams : ∀ p ∈ params, ¬ Refused rt p) (old : Nat → WrenValue ν ω) (k : Nat) :
    List.Forall₂ Equals params (passed rt params old k) ↔
      params.length = k ∧ ∀ i p, params[i]? = some p → Arrives rt (old (i + 1)) p := by
  have hlength : (passed rt params old k).length = k := by
    rw [passed, List.length_map, List.length_range]
  have hget : ∀ i (hi : i < params.length) (hk : i < (passed rt params old k).length),
      (passed rt params old k)[i] = afterSave (rt.saving params[i]) (old (i + 1)) := by
    intro i hi hk
    simp only [passed, List.getElem_map, List.getElem_range, List.getElem?_eq_getElem hi]
  rw [List.forall₂_iff_get]
  constructor
  · rintro ⟨hk, h⟩
    rw [hlength] at hk
    refine ⟨hk, fun i p hp => ?_⟩
    obtain ⟨hi, rfl⟩ := List.getElem?_eq_some_iff.mp hp
    have hi' : i < (passed rt params old k).length := by omega
    have heq := h i hi hi'
    rw [List.get_eq_getElem, List.get_eq_getElem, hget i hi hi'] at heq
    exact (equals_afterSave_iff (hparams _ (List.getElem_mem hi)) _).mp heq
  · rintro ⟨hk, h⟩
    refine ⟨hk.trans hlength.symm, fun i hi hi' => ?_⟩
    rw [List.get_eq_getElem, List.get_eq_getElem, hget i hi hi']
    exact (equals_afterSave_iff (hparams _ (List.getElem_mem hi)) _).mpr
      (h i _ (List.getElem?_eq_getElem hi))

/-- The interpreter was started on the method of this signature, for the receiver the value
holds and the given parameters, by the handle that was made for the signature. -/
structure Exact (s : CallState ν ω) (v : Nat) (this : HostValue) (sig : Signature)
    (params : List (Dynamic ν ω)) (t : CallState ν ω) (i : Invocation ν ω) : Prop where
  symbol : i.symbol = sig.toText
  receiver : s.handles.lookup this.value = some (.value i.receiver)
  arity : i.args.length = sig.arity
  args : List.Forall₂ Equals params i.args
  made : t.handles.lookup i.handle = some (.closure (stub sig.toText))
  cached : ∃ this', t.values[v]? = some this' ∧ this'.methods.lookup sig.toText = some i.handle

/-- Either one method is invoked, and exactly, or none is and the caller is told: by an error,
or by a trace and the value `null`. -/
def CallsExactly (s : CallState ν ω) (v : Nat) (this : HostValue) (sig : Signature)
    (params : List (Dynamic ν ω)) (r : Except SlotError (Dynamic ν ω) × CallState ν ω) : Prop :=
  (∃ i, r.2.invoked = s.invoked ++ [i] ∧ Exact s v this sig params r.2 i) ∨
    (r.2.invoked = s.invoked ∧
      ((∃ e, r.1 = .error e) ∨ ∃ err, r.1 = .ok .null ∧ r.2.traced = s.traced ++ [err]))

/-- The receiver does not have the method, some parameter is refused, or all the parameters of
the signature arrive. -/
def Passes (rt : Runtime ν ω) (s : CallState ν ω) (this : HostValue) (sig : Signature)
    (params : List (Dynamic ν ω)) (memory : Nat → WrenValue ν ω)
    (responds : WrenValue ν ω → Text → Bool) : Prop :=
  (∃ w, s.handles.lookup this.value = some (.value w) ∧ responds w sig.toText = false) ∨
    (∃ p ∈ params, Refused rt p) ∨
    (params.length = sig.arity ∧
      ∀ i p, params[i]? = some p → Arrives rt (stale s memory (i + 1)) p)

/-- One step of a run. -/
theorem callsExactly_of_valid {hx : Conversions ν ω} (hlaw : hx.Lawful) (rt : Runtime ν ω)
    (fuel : Nat) {s : CallState ν ω} (hs : Valid s.toCallHandles) {v : Nat} {this : HostValue}
    (hthis : s.values[v]? = some this) (sig : Signature) (params : List (Dynamic ν ω))
    (memory : Nat → WrenValue ν ω) (responds : WrenValue ν ω → Text → Bool)
    (outcome : CallOutcome ν ω) :
    CallsExactly s v this sig params
        ((Value.call hx rt.typeof fuel v sig.toText params memory responds outcome).apply s) ↔
      Passes rt s this sig params memory responds := by
  obtain ⟨w, hw⟩ := hs.held this (List.mem_of_getElem? hthis)
  have hne : cString sig.toText ≠ [] := by
    rw [sig.cString_toText]
    exact sig.toText_ne_nil
  have hnothing : ∀ i : Invocation ν ω, s.invoked ≠ s.invoked ++ [i] := by
    intro i h
    simpa using congrArg List.length h
  have heffect := @callEffect ν ω hx rt fuel hlaw s hs v this hthis w hw sig.toText hne params memory
    responds outcome
  generalize (Value.call hx rt.typeof fuel v sig.toText params memory responds outcome).apply s = r
    at heffect
  cases heffect with
  | refused hthrows hinvoked =>
      obtain ⟨p, hp, hthrows⟩ := hthrows
      exact iff_of_true (Or.inr ⟨hinvoked, Or.inl ⟨_, rfl⟩⟩)
        (Or.inr (Or.inl ⟨p, hp, (refused_iff rt p).mpr hthrows⟩))
  | unknown hnone hresponds hinvoked htraced =>
      rw [sig.cString_toText] at hresponds
      exact iff_of_true (Or.inr ⟨hinvoked, Or.inr ⟨_, rfl, htraced⟩⟩) (Or.inl ⟨w, hw, hresponds⟩)
  | @invoked hnone hresponds f r t hfound hinvoked =>
      rw [sig.cString_toText] at hresponds hinvoked
      rw [countParams_toText] at hinvoked
      have hparams : ∀ p ∈ params, ¬ Refused rt p := fun p hp h =>
        hnone p hp ((refused_iff rt p).mp h)
      have hargs := forall₂_passed_iff hparams (stale s memory) sig.arity
      constructor
      · rintro (⟨i, hi, hexact⟩ | ⟨hi, -⟩)
        · -- the only invocation is the one of the call
          rw [hinvoked] at hi
          obtain rfl := List.singleton_inj.mp (List.append_cancel_left hi)
          exact Or.inr (Or.inr (hargs.mp hexact.args))
        · rw [hinvoked] at hi
          exact absurd hi.symm (hnothing _)
      · rintro (⟨w', hw', hno⟩ | ⟨p, hp, hrefused⟩ | harrive)
        · rw [hw, Option.some.injEq, WrenHandle.value.injEq] at hw'
          rw [← hw', hresponds] at hno
          cases hno
        · exact absurd hrefused (hparams p hp)
        · obtain ⟨this', hthis', -, hcached⟩ := hfound.cached
          refine Or.inl ⟨_, hinvoked, rfl, hw, ?_, hargs.mpr harrive, hfound.stub, this', hthis',
            hcached⟩
          rw [← (hargs.mpr harrive).length_eq, harrive.1]

/--
**When a call is exact.**  After any run of lookups and calls, a call of any signature with
any parameters either invokes exactly the method asked for, or nothing and tells, if and
only if: the receiver does not have the method; or some parameter is an object that is no
instance of a class; or there are as many parameters as the signature says and each is a
scalar, a string without NUL among them, or an array or an instance that the slot it is
meant for happens to hold already.
-/
theorem callsExactly_iff {hx : Conversions ν ω} (hlaw : hx.Lawful) (rt : Runtime ν ω)
    (fuel : Nat) (ops : List (CallOp ν ω)) (s : CallState ν ω)
    (hs : s = callRun hx rt.typeof fuel ops) {v : Nat} {this : HostValue}
    (hthis : s.values[v]? = some this) (sig : Signature) (params : List (Dynamic ν ω))
    (memory : Nat → WrenValue ν ω) (responds : WrenValue ν ω → Text → Bool)
    (outcome : CallOutcome ν ω) :
    CallsExactly s v this sig params
        ((Value.call hx rt.typeof fuel v sig.toText params memory responds outcome).apply s) ↔
      Passes rt s this sig params memory responds := by
  have hvalid : Valid s.toCallHandles := by
    rw [hs]
    exact valid_run ops
  exact callsExactly_of_valid hlaw rt fuel hvalid hthis sig params memory responds outcome

end CallVM

namespace Sample

open CallVM

theorem isMethodName_add : IsMethodName "add" where
  ne_nil := nofun
  plain := by simp

/-- `add(_,_)`. -/
def addition : CallVM.Signature :=
  { name := "add", type := .SIG_METHOD, arity := 2, fits := isMethodName_add
    max := Nat.le_add_left 2 14 }

/-- Nothing is in the memory of a new stack. -/
def memory : Nat → WrenValue Nat Unit := fun _ => .null

/-- `vm.variable("Calculator")`. -/
def lookupCalculator : List (CallOp Nat Unit) :=
  [.variable_ (some fun name => if name = "Calculator" then some .unknown else none) "Calculator"
    memory]

/-- `calculator.call("add(_,_)", params)`. -/
def add (params : List (Dynamic Nat Unit)) :
    Except SlotError (Dynamic Nat Unit) × CallState Nat Unit :=
  (CallVM.Value.call hx runtime.typeof 0 0 addition.toText params memory (fun _ _ => true)
    (.returned (some { stack := memory, stackTop := 1 }))).apply
      (callRun hx runtime.typeof 0 lookupCalculator)

theorem callsExactly_calculator :
    CallsExactly (callRun hx runtime.typeof 0 lookupCalculator) 0 { value := 0, methods := ∅ }
      addition [.num 1, .string "b"] (add [.num 1, .string "b"]) := by
  refine (callsExactly_iff hx_lawful runtime 0 lookupCalculator _ rfl rfl addition _ memory _
    _).mpr (Or.inr (Or.inr ⟨rfl, fun i p hp => ?_⟩))
  match i with
  | 0 =>
      obtain rfl := Option.some.inj hp
      trivial
  | 1 =>
      obtain rfl := Option.some.inj hp
      exact (by decide : '\x00' ∉ ("b" : Text))
  | i + 2 => cases hp

/-- A missing argument, and an array, which is passed over: both times the method is invoked
with what the slot held. -/
theorem calculator_not_callsExactly :
    ¬ CallsExactly (callRun hx runtime.typeof 0 lookupCalculator) 0 { value := 0, methods := ∅ }
        addition [.num 1] (add [.num 1]) ∧
      ¬ CallsExactly (callRun hx runtime.typeof 0 lookupCalculator) 0 { value := 0, methods := ∅ }
        addition [.num 1, .array []] (add [.num 1, .array []]) := by
  have hvalid := @valid_run Nat Unit hx runtime.typeof 0 lookupCalculator
  constructor
  · rw [add, callsExactly_of_valid hx_lawful runtime 0 hvalid rfl]
    rintro (⟨w, -, hno⟩ | ⟨p, hp, hrefused⟩ | ⟨hlength, -⟩)
    · cases hno
    · rw [List.mem_singleton.mp hp] at hrefused
      exact hrefused
    · cases hlength
  · rw [add, callsExactly_of_valid hx_lawful runtime 0 hvalid rfl]
    rintro (⟨w, -, hno⟩ | ⟨p, hp, hrefused⟩ | ⟨-, harrive⟩)
    · cases hno
    · rcases List.mem_cons.mp hp with rfl | hp
      · exact hrefused
      · rw [List.mem_singleton.mp hp] at hrefused
        exact hrefused
    · have harray := harrive 1 (.array []) rfl
      cases harray.2

end Sample

end Wrenegade
