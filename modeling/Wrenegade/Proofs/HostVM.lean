/-
The handles of a VM over whole runs.

A lookup that finds its variable makes a handle, a call with a signature that is
new to its value makes another, and nothing else touches the handles; above all,
nothing releases one.  So a run ends with no handle outstanding exactly if no
lookup of it finds anything: without a value there is nothing to call either.

That a value never has two call handles for one signature is an invariant of every
run, kept by the map the value looks its signatures up in.
-/
import Wrenegade.Model.HostVM

namespace Wrenegade

open Text Operation

variable {ν ω α β : Type}

/-! ### What leaves the handles alone -/

/-- The operation does nothing to the handles. -/
def Quiet (x : Host ν ω α) : Prop :=
  ∀ l, Keeps (fun s : HostState ν ω => s.toHandles = l) (fun _ => False) x

theorem Quiet.apply {x : Host ν ω α} (h : Quiet x) (s : HostState ν ω) :
    (x.apply s).2.toHandles = s.toHandles := Leaves.apply h s

theorem quiet_pure (a : α) : Quiet (pure a : Host ν ω α) := Leaves.pure a

theorem quiet_throw (e : SlotError) : Quiet (throw e : Host ν ω α) := Leaves.throw e

theorem Quiet.bind {x : Host ν ω α} {f : α → Host ν ω β} (hx : Quiet x)
    (hf : ∀ a, Quiet (f a)) : Quiet (x >>= f) := Leaves.bind hx hf

theorem quiet_get : Quiet (get : Host ν ω (HostState ν ω)) := Leaves.get

theorem quiet_onSlots (x : Api ν ω α) : Quiet (onSlots x) :=
  fun _ _ hs => ⟨hs, fun _ _ => id⟩

theorem quiet_ensureSlots (n : Nat) : Quiet (wrenEnsureSlots (ν := ν) (ω := ω) n) :=
  quiet_onSlots _

theorem quiet_setSlotHandle (slot : Int) (handle : Nat) :
    Quiet (wrenSetSlotHandle (ν := ν) (ω := ω) slot handle) :=
  quiet_get.bind fun s => by
    cases s.handles.lookup handle with
    | some value => exact quiet_onSlots _
    | none => exact quiet_throw _

theorem quiet_getVariable (main : MainModule ν ω) (name : Text) (slot : Int) :
    Quiet (wrenGetVariable main name slot) := by
  unfold wrenGetVariable
  split
  · exact quiet_throw _
  · split
    · exact quiet_throw _
    · exact quiet_onSlots _

theorem quiet_wrenCall (method : Nat) (outcome : Value.CallOutcome ν ω) :
    Quiet (Value.wrenCall method outcome) :=
  quiet_get.bind fun s => by
    cases s.handles.lookup method with
    | none => exact quiet_throw _
    | some value =>
        cases outcome with
        | none => exact quiet_throw _
        | some r => exact (quiet_onSlots _).bind fun _ => quiet_pure _

theorem quiet_forM (l : List α) {f : α → Host ν ω Unit} (hf : ∀ a, Quiet (f a)) :
    Quiet (l.forM f) := Leaves.forM l hf

/-! ### What makes a handle -/

/-- The handles after a new one was made. -/
def Handles.acquire (h : Handles ν ω) (value : WrenValue ν ω) : Handles ν ω :=
  { h with
    handles := (h.next, value) :: h.handles
    next := h.next + 1
    acquired := h.acquired ++ [h.next] }

/-- A lookup finds its variable. -/
def HostOp.finds : HostOp ν ω → Bool
  | .variable_ (some lookup) name => (lookup name).isSome
  | _ => false

section Step

variable (hx : Conversions ν ω) (typeof : Dynamic ν ω → ValueType) (fuel : Nat)

/-- **What an operation can do to the handles.** -/
inductive HandleStep (h : Handles ν ω) : HostOp ν ω → Handles ν ω → Prop
  | quiet {op : HostOp ν ω} (hop : op.finds = false) : HandleStep h op h
  /-- A lookup: a handle, and a value that holds it. -/
  | lookup {op : HostOp ν ω} (hop : op.finds = true) (value : WrenValue ν ω) :
      HandleStep h op
        { h.acquire value with values := h.values ++ [{ value := h.next, methods := ∅ }] }
  /-- A call with a signature that is new to the value: a handle, and its entry. -/
  | method {op : HostOp ν ω} (hop : op.finds = false) (value : WrenValue ν ω) (v : Nat)
      (this : HostValue) (signature : Text) (hthis : h.values[v]? = some this)
      (hnew : this.methods.lookup signature = none) :
      HandleStep h op
        { h.acquire value with
          values := h.values.modify v fun o =>
            { o with methods := o.methods.insert signature h.next }
          callHandles := h.callHandles ++ [(v, signature, h.next)] }

theorem HandleStep.of_quiet {x : Host ν ω α} (hquiet : Quiet x) {h : Handles ν ω}
    {op : HostOp ν ω} {s : HostState ν ω} (hstep : HandleStep h op s.toHandles) :
    HandleStep h op (x.apply s).2.toHandles := by
  rw [hquiet.apply]
  exact hstep

theorem handleStep_variable (main : MainModule ν ω) (name : Text) (s : HostState ν ω) :
    HandleStep s.toHandles (.variable_ main name)
      ((VM.variable_ main name).apply s).2.toHandles := by
  have hthrow : ∀ e, wrenGetVariable main name 0 = throw e →
      ((VM.variable_ main name).apply s).2.toHandles = s.toHandles := by
    intro e he
    rw [VM.variable_, he]
    exact Quiet.apply ((quiet_ensureSlots 1).bind fun _ => quiet_throw e) s
  cases main with
  | none =>
      rw [hthrow _ rfl]
      exact .quiet rfl
  | some lookup =>
      cases hl : lookup name with
      | none =>
          have hget : wrenGetVariable (some lookup) name 0
              = throw (.assertion "Could not find variable.") := by
            unfold wrenGetVariable
            simp only [hl]
          rw [hthrow _ hget]
          exact .quiet (by simp [HostOp.finds, hl])
      | some value =>
          have hget : wrenGetVariable (some lookup) name 0 = onSlots (setSlot 0 value) := by
            unfold wrenGetVariable
            simp only [hl]
          rw [VM.variable_, hget]
          obtain ⟨h, slots⟩ := s
          -- there is a slot to put the variable into
          cases slots with
          | nil => exact .lookup (by simp [HostOp.finds, hl]) value
          | cons a t => exact .lookup (by simp [HostOp.finds, hl]) value

/-- After its first half a call does nothing to the handles. -/
theorem quiet_callRest (params : List (Dynamic ν ω)) (outcome : Value.CallOutcome ν ω)
    (value f : Nat) : Quiet (do
      wrenEnsureSlots (params.length + 1)
      wrenSetSlotHandle 0 value
      params.zipIdx.forM fun p =>
        onSlots (Helper.saveToSlot hx (p.2 + 1) p.1 (typeof p.1))
      let result ← Value.wrenCall f outcome
      match Helper.interpretResultToErr result with
      | some _ => pure .null
      | none => onSlots (Helper.getFromSlot fuel 0) : Host ν ω (Dynamic ν ω)) := by
  refine (quiet_ensureSlots _).bind fun _ => (quiet_setSlotHandle 0 _).bind fun _ => ?_
  refine (quiet_forM _ fun p => quiet_onSlots _).bind fun _ => ?_
  refine (quiet_wrenCall f outcome).bind fun result => ?_
  cases Helper.interpretResultToErr result with
  | some err => exact quiet_pure _
  | none => exact quiet_onSlots _

section

variable {this : HostValue} {signature : Text}

/-- A signature that was called before has its handle in the map. -/
theorem apply_method_cached {f : Nat} (hl : this.methods.lookup signature = some f) (v : Nat)
    (s : HostState ν ω) : (Value.method v this signature).apply s = (.ok f, s) := by
  unfold Value.method
  rw [hl]
  rfl

theorem method_new (hl : this.methods.lookup signature = none) (v : Nat) :
    Value.method v this signature = (do
      let f ← wrenMakeCallHandle signature
      Value.setMethod v signature f
      pure f : Host ν ω Nat) := by
  unfold Value.method
  rw [hl]

theorem apply_method_empty (hl : this.methods.lookup signature = none)
    (hnil : cString signature = []) (v : Nat) (s : HostState ν ω) :
    (Value.method v this signature).apply s
      = (.error (.assertion "Signature cannot be empty."), s) := by
  rw [method_new hl, wrenMakeCallHandle, if_pos hnil]
  rfl

/-- Any other gets one, and its entry. -/
theorem apply_method_new (hl : this.methods.lookup signature = none)
    (hnil : cString signature ≠ []) (v : Nat) (s : HostState ν ω) :
    (Value.method v this signature).apply s = (.ok s.next,
      { s.toHandles.acquire .unknown with
        values := s.values.modify v fun o =>
          { o with methods := o.methods.insert signature s.next }
        callHandles := s.callHandles ++ [(v, signature, s.next)]
        slots := s.slots }) := by
  rw [method_new hl, wrenMakeCallHandle, if_neg hnil]
  rfl

end

theorem handleStep_call (v : Nat) (signature : Text) (params : List (Dynamic ν ω))
    (outcome : Value.CallOutcome ν ω) (s : HostState ν ω) :
    HandleStep s.toHandles (.call v signature params outcome)
      ((Value.call hx typeof fuel v signature params outcome).apply s).2.toHandles := by
  rw [Value.call, apply_bind_ok (apply_get s)]
  cases hv : s.values[v]? with
  | none => exact .quiet rfl
  | some this =>
      simp only
      cases hl : this.methods.lookup signature with
      | some f =>
          rw [apply_bind_ok (apply_method_cached hl v s)]
          exact HandleStep.of_quiet
            (quiet_callRest hx typeof fuel params outcome this.value f) (.quiet rfl)
      | none =>
          by_cases hnil : cString signature = []
          · rw [apply_bind_error (apply_method_empty hl hnil v s)]
            exact .quiet rfl
          · rw [apply_bind_ok (apply_method_new hl hnil v s)]
            exact HandleStep.of_quiet
              (quiet_callRest hx typeof fuel params outcome this.value s.next)
              (.method rfl .unknown v this signature hv hl)

theorem handleStep (op : HostOp ν ω) (s : HostState ν ω) :
    HandleStep s.toHandles op (hostStep hx typeof fuel s op).toHandles := by
  rw [hostStep]
  cases op with
  | interpret result slots =>
      rw [HostOp.perform, state_discard]
      exact .quiet rfl
  | variable_ main name => exact handleStep_variable main name s
  | call v signature params outcome =>
      rw [HostOp.perform, state_discard]
      exact handleStep_call hx typeof fuel v signature params outcome s
  | GC => exact .quiet rfl

end Step

/-! ### Along a run -/

/-- The call handles made for a value and a signature. -/
def Handles.madeFor (h : Handles ν ω) (v : Nat) (signature : Text) : List (Nat × Text × Nat) :=
  h.callHandles.filter fun c => c.1 = v ∧ c.2.1 = signature

theorem madeFor_append {h h' : Handles ν ω} {v handle : Nat} {signature : Text}
    (hc : h'.callHandles = h.callHandles ++ [(v, signature, handle)]) (w : Nat) (sig : Text) :
    h'.madeFor w sig = h.madeFor w sig ++
      (if v = w ∧ signature = sig then [(v, signature, handle)] else []) := by
  rw [Handles.madeFor, hc, List.filter_append, List.filter_singleton]
  simp [Handles.madeFor]

/-- The value has a call handle for the signature in its map. -/
def Handles.Cached (h : Handles ν ω) (v : Nat) (signature : Text) : Prop :=
  ∃ this, h.values[v]? = some this ∧ (this.methods.lookup signature).isSome = true

/-- What is known of the handles after a run. -/
structure Tracked (ops : List (HostOp ν ω)) (h : Handles ν ω) : Prop where
  released : h.released = []
  acquired : h.handles.map Prod.fst = h.acquired.reverse
  addresses : h.acquired = List.range h.next
  /-- The first handle comes with the first value. -/
  values : h.acquired = [] ↔ h.values = []
  found : h.values = [] ↔ ∀ op ∈ ops, op.finds = false
  callHandles : ∀ v signature, h.madeFor v signature = [] ∨
    ((h.madeFor v signature).length = 1 ∧ h.Cached v signature)

theorem tracked_start : Tracked [] (HostState.start ν ω).toHandles where
  released := rfl
  acquired := rfl
  addresses := rfl
  values := by simp [HostState.start]
  found := by simp [HostState.start]
  callHandles := fun _ _ => Or.inl rfl

/-- A value that is added, or an entry that is, keeps what is cached. -/
theorem Handles.Cached.mono {h h' : Handles ν ω} {v : Nat} {signature : Text}
    (hc : h.Cached v signature)
    (hmono : ∀ this, h.values[v]? = some this → ∃ that, h'.values[v]? = some that ∧
      ((this.methods.lookup signature).isSome = true →
        (that.methods.lookup signature).isSome = true)) : h'.Cached v signature := by
  obtain ⟨this, hthis, hmethod⟩ := hc
  obtain ⟨that, hthat, hkeep⟩ := hmono this hthis
  exact ⟨that, hthat, hkeep hmethod⟩

/-- Every operation keeps track. -/
theorem Tracked.step {ops : List (HostOp ν ω)} {h h' : Handles ν ω} {op : HostOp ν ω}
    (ht : Tracked ops h) (hstep : HandleStep h op h') : Tracked (ops ++ [op]) h' := by
  have hfound : (∀ a ∈ ops ++ [op], a.finds = false) ↔
      (∀ a ∈ ops, a.finds = false) ∧ op.finds = false := by
    simp [or_imp, forall_and]
  cases hstep with
  | quiet hop =>
      refine ⟨ht.released, ht.acquired, ht.addresses, ht.values, ?_, ht.callHandles⟩
      rw [hfound, ht.found]
      exact ⟨fun h => ⟨h, hop⟩, And.left⟩
  | lookup hop value =>
      refine ⟨ht.released, ?_, ?_, ?_, ?_, fun v signature => ?_⟩
      · simp [Handles.acquire, ht.acquired]
      · simp [Handles.acquire, ht.addresses, List.range_succ]
      · simp [Handles.acquire]
      · rw [hfound, hop]
        simp
      · refine (ht.callHandles v signature).imp_right fun ⟨hone, hc⟩ => ⟨hone, hc.mono ?_⟩
        intro this hthis
        exact ⟨this, List.getElem?_append_left (List.getElem?_eq_some_iff.mp hthis).1 ▸ hthis, id⟩
  | method hop value v this signature hthis hnew =>
      have hv : v < h.values.length := (List.getElem?_eq_some_iff.mp hthis).1
      refine ⟨ht.released, ?_, ?_, ?_, ?_, fun w sig => ?_⟩
      · simp [Handles.acquire, ht.acquired]
      · simp [Handles.acquire, ht.addresses, List.range_succ]
      · have hne : h.values ≠ [] := by
          rintro hnil
          rw [hnil] at hv
          simp at hv
        simp [Handles.acquire, hne]
      · rw [hfound, ← ht.found]
        simp [hop]
      · rw [madeFor_append (h := h) rfl]
        have hmodify : ∀ this', h.values[w]? = some this' →
            (h.values.modify v fun o =>
              { o with methods := o.methods.insert signature h.next })[w]?
              = some (if v = w then
                  { this' with methods := this'.methods.insert signature h.next } else this') := by
          intro this' hthis'
          rw [List.getElem?_modify, hthis']
          rfl
        by_cases hsame : v = w ∧ signature = sig
        · obtain ⟨rfl, rfl⟩ := hsame
          rw [if_pos ⟨rfl, rfl⟩]
          rcases ht.callHandles v signature with hnil | ⟨-, this', hthis', hcached⟩
          · refine Or.inr ⟨by rw [hnil]; rfl, _, hmodify this hthis, ?_⟩
            simp
          · rw [hthis, Option.some.injEq] at hthis'
            rw [← hthis', hnew] at hcached
            exact Bool.noConfusion hcached
        · rw [if_neg hsame, List.append_nil]
          refine (ht.callHandles w sig).imp_right fun ⟨hone, hc⟩ => ⟨hone, hc.mono ?_⟩
          intro this' hthis'
          refine ⟨_, hmodify this' hthis', fun hcached => ?_⟩
          split
          · rename_i hvw
            have hsig : sig ≠ signature := fun hs => hsame ⟨hvw, hs.symm⟩
            rw [AList.lookup_insert_ne hsig]
            exact hcached
          · exact hcached

section Run

variable (hx : Conversions ν ω) (typeof : Dynamic ν ω → ValueType) (fuel : Nat)

/-- **Every run keeps track.** -/
theorem tracked_hostRun (ops : List (HostOp ν ω)) :
    Tracked ops (hostRun hx typeof fuel ops).toHandles := by
  induction ops using List.reverseRecOn with
  | nil => exact tracked_start
  | append_singleton ops op ih =>
      rw [hostRun, List.foldl_append]
      exact ih.step (handleStep hx typeof fuel op _)

/-- When the VM is stopped every handle acquired has been released once, and stopping
succeeds. -/
structure Balanced (s : HostState ν ω) : Prop where
  released : ∀ handle ∈ s.acquired, s.released.count handle = 1
  stops : (VM.stop.apply s).1 = .ok ()

/-- The call handles of a value and a signature that are among the handles of the VM. -/
def Handles.liveFor (h : Handles ν ω) (v : Nat) (signature : Text) : List (Nat × Text × Nat) :=
  (h.madeFor v signature).filter fun c => c.2.2 ∈ h.handles.map Prod.fst

/-- The life of the handles over a run that ends with stopping the VM. -/
structure Lifecycle (ops : List (HostOp ν ω)) : Prop where
  balanced : Balanced (hostRun hx typeof fuel ops)
  single : ∀ before, before <+: ops → ∀ v signature,
    ((hostRun hx typeof fuel before).liveFor v signature).length ≤ 1

/-- A value never has two call handles for one signature. -/
theorem liveFor_le_one (ops : List (HostOp ν ω)) (v : Nat) (signature : Text) :
    ((hostRun hx typeof fuel ops).liveFor v signature).length ≤ 1 := by
  refine (List.length_filter_le _ _).trans ?_
  rcases (tracked_hostRun hx typeof fuel ops).callHandles v signature with hnil | ⟨hone, -⟩
  · rw [hnil]
    exact Nat.zero_le 1
  · exact hone.le

theorem balanced_iff {ops : List (HostOp ν ω)} {s : HostState ν ω} (ht : Tracked ops s.toHandles) :
    Balanced s ↔ s.acquired = [] := by
  constructor
  · intro hb
    by_contra hne
    obtain ⟨handle, hmem⟩ := List.exists_mem_of_ne_nil _ hne
    have hcount := hb.released handle hmem
    rw [ht.released] at hcount
    simp at hcount
  · intro hnil
    have hhandles : s.handles = [] := by
      have hmap := ht.acquired
      rw [hnil] at hmap
      simpa using hmap
    refine ⟨fun handle hmem => ?_, ?_⟩
    · rw [hnil] at hmem
      simp at hmem
    · rw [VM.stop, wrenFreeVM, apply_bind_ok (apply_get s), hhandles]
      rfl

/--
**The handles of a run are in order exactly if no lookup of it finds its variable.**
Whatever the run does besides, whatever calls return or raise: a handle that was made is
outstanding when the VM is stopped.  That there is one call handle for a value and a
signature holds in any case.
-/
theorem lifecycle_iff (ops : List (HostOp ν ω)) :
    Lifecycle hx typeof fuel ops ↔ ∀ op ∈ ops, op.finds = false := by
  have ht := tracked_hostRun hx typeof fuel ops
  have hbalanced := (balanced_iff ht).trans (ht.values.trans ht.found)
  exact ⟨fun h => hbalanced.mp h.balanced,
    fun h => ⟨hbalanced.mpr h, fun before _ => liveFor_le_one hx typeof fuel before⟩⟩

/-! ### What is missing -/

theorem apply_releaseAll (l : List Nat) (s : HostState ν ω) :
    ((l.forM (wrenReleaseHandle (ν := ν) (ω := ω))).apply s).2
      = { s with
          handles := s.handles.filter fun h => h.1 ∉ l
          released := s.released ++ l } := by
  induction l generalizing s with
  | nil =>
      show s = _
      simp
  | cons a l ih =>
      have hone : (wrenReleaseHandle (ν := ν) (ω := ω) a).apply s = (.ok (), { s with
          handles := s.handles.filter fun h => h.1 ≠ a
          released := s.released ++ [a] }) := rfl
      have hcons : (a :: l).forM (wrenReleaseHandle (ν := ν) (ω := ω))
          = wrenReleaseHandle a >>= fun _ => l.forM wrenReleaseHandle := rfl
      rw [hcons, apply_bind_ok hone, ih]
      simp [List.filter_filter, Bool.and_comm]

/-- **Releasing every handle once, before the VM is stopped, is all that is missing.** -/
theorem balanced_releaseAll (ops : List (HostOp ν ω)) :
    Balanced (((hostRun hx typeof fuel ops).acquired.forM wrenReleaseHandle).apply
      (hostRun hx typeof fuel ops)).2 := by
  have ht := tracked_hostRun hx typeof fuel ops
  rw [apply_releaseAll]
  constructor
  · intro handle hmem
    have hnodup : (hostRun hx typeof fuel ops).acquired.Nodup := by
      rw [ht.addresses]
      exact List.nodup_range
    show ((hostRun hx typeof fuel ops).released ++ _).count handle = 1
    rw [ht.released, List.nil_append]
    exact List.count_eq_one_of_mem hnodup hmem
  · have hnone : (hostRun hx typeof fuel ops).handles.filter
        (fun h => h.1 ∉ (hostRun hx typeof fuel ops).acquired) = [] := by
      rw [List.filter_eq_nil_iff]
      intro h hh
      have hmem : h.1 ∈ (hostRun hx typeof fuel ops).acquired.reverse := by
        rw [← ht.acquired]
        exact List.mem_map_of_mem hh
      simpa using hmem
    rw [hnone]
    rfl

end Run

namespace Sample

def conversions : Conversions Nat Unit where
  toFloat := fun _ => 0
  toBool := fun _ => false
  toCString := fun _ => none
  string := fun _ => []

/-- One lookup is enough. -/
theorem lookup_not_lifecycle :
    ¬ Lifecycle conversions (fun _ => .TUnknown) 0
      [.variable_ (some fun _ => some .unknown) "MyClass"] := by
  intro h
  have hnil := (balanced_iff (tracked_hostRun conversions (fun _ => .TUnknown) 0 _)).mp h.balanced
  revert hnil
  decide

end Sample

end Wrenegade
