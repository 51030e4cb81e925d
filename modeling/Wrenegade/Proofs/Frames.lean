/-
Which slots a call finds as it was entered.

A read of a list brings its elements to slot 0, and slot 0 holds the receiver of a
method and the new object of an allocator.  What stands there after a read is the
innermost first element of the element brought last, so the slots are as they were
exactly where this happens to be what stood there before, or no list has elements.

Where every read leaves the slots, a method body calls its member on the receiver it
was entered with and an allocator returns its object.
-/
import Wrenegade.Proofs.Allocators
import Wrenegade.Proofs.Execution
import Wrenegade.Proofs.RoundTrip

namespace Wrenegade

open Text Operation Run

variable {ν ω : Type}

/-! ### What a list leaves in slot 0 -/

/-- The first element of the first element and so on. -/
def WrenValue.innermost : WrenValue ν ω → WrenValue ν ω
  | .list (e :: _) => e.innermost
  | v => v

/-- Nothing without access in it, and no list of two or more: what can be read in slot 0. -/
def WrenValue.readable : WrenValue ν ω → Bool
  | .unknown => false
  | .list [] => true
  | .list [e] => e.readable
  | .list (_ :: _ :: _) => false
  | _ => true

/-- The element brought to slot 0 last: the first one that cannot be read, or the last. -/
def lastBrought : List (WrenValue ν ω) → Option (WrenValue ν ω)
  | [] => none
  | e :: es => if e.readable then (lastBrought es).or (some e) else some e

/-- No list has to be read through slot 0, or it leaves there what stood there. -/
def Undisturbed (zero : WrenValue ν ω) (args : List (WrenValue ν ω)) : Prop :=
  zero.innermost = zero ∧
    ∀ elements, .list elements ∈ args → ∀ e, lastBrought elements = some e → e.innermost = zero

theorem readZero_innermost (v : WrenValue ν ω) : (readZero v).2 = v.innermost := by
  induction v using readZero.induct with
  | case8 e ih => exact ih
  | case9 e e' es ih => exact ih
  | _ => rfl

theorem readZero_readable (v : WrenValue ν ω) : (readZero v).1.isSome = v.readable := by
  induction v using readZero.induct with
  | case8 e ih =>
      rw [readZero, Option.isSome_map, ih]
      rfl
  | _ => rfl

/-- What is left is that of the element brought last. -/
theorem readElements_left (elements : List (WrenValue ν ω)) : ∀ zero : WrenValue ν ω,
    (readElements elements zero).2 = ((lastBrought elements).map WrenValue.innermost).getD zero := by
  induction elements with
  | nil => intro zero; rfl
  | cons e es ih =>
      intro zero
      have hreadable := readZero_readable e
      unfold readElements lastBrought
      cases hread : (readZero e).1 with
      | none =>
          rw [hread] at hreadable
          rw [← hreadable]
          exact readZero_innermost e
      | some d =>
          rw [hread] at hreadable
          rw [← hreadable]
          show (readElements es (readZero e).2).2 = _
          rw [ih, readZero_innermost, Option.isSome_some, if_pos rfl]
          cases lastBrought es <;> rfl

/-- **The reads keep the slots exactly when nothing disturbs slot 0.** -/
theorem readsKeep_iff (zero : WrenValue ν ω) (args : List (WrenValue ν ω)) :
    ReadsKeep (zero :: args) ↔ Undisturbed zero args := by
  constructor
  · intro h
    refine ⟨?_, fun elements hmem e he => ?_⟩
    · have hzero := h 0
      rw [readSlot_zero, List.cons.injEq, readZero_innermost] at hzero
      exact hzero.1
    · obtain ⟨slot, hslot⟩ := List.mem_iff_getElem?.mp hmem
      have hread := h (slot + 1)
      rw [readSlot_list hslot, List.cons.injEq, readElements_left, he] at hread
      exact hread.1
  · rintro ⟨hzero, hargs⟩ slot
    cases slot with
    | zero => rw [readSlot_zero, readZero_innermost, hzero]
    | succ slot =>
        cases hslot : args[slot]? with
        | none =>
            have hslot' : (zero :: args)[slot + 1]? = none := hslot
            rw [readSlot_none hslot']
        | some v =>
            by_cases hlist : ∃ elements, v = .list elements
            · obtain ⟨elements, rfl⟩ := hlist
              rw [readSlot_list hslot, readElements_left]
              cases he : lastBrought elements with
              | none => rfl
              | some e =>
                  have hleft := hargs elements (List.mem_of_getElem? hslot) e he
                  rw [Option.map_some, Option.getD_some, hleft]
            · have hslot' : (zero :: args)[slot + 1]? = some v := hslot
              rw [readSlot_scalar hslot' fun elements h => hlist ⟨elements, h⟩]

/-- The same, of the reads of the helper. -/
theorem reads_keep_iff (zero : WrenValue ν ω) (args : List (WrenValue ν ω)) :
    (∀ slot o, Reads CppHelper.getFromSlot (zero :: args) slot o → o.2 = zero :: args) ↔
      Undisturbed zero args := by
  rw [← readsKeep_iff]
  constructor
  · intro h slot
    exact h slot _ (reads_readSlot _ slot).2
  · intro h slot o ho
    rw [ho.unique (reads_readSlot _ slot).2]
    exact h slot

/-! ### What is asked for -/

/-- Entered on these slots, a method reads them without changing any, and calls `x` on what
stood in slot 0 with what stood in the others, or nothing where one cannot be read. -/
structure MethodFramed (host : HostRuntime ν ω) (f : CFunction) (x : Text) (n : Nat)
    (slots : Slots ν ω) : Prop where
  reads : ∀ slot o, Reads CppHelper.getFromSlot slots slot o → o.2 = slots
  calls : ∃ r, f.RunsTo host slots r ∧
    r.2.events = match decodings slots 1 n, (readSlot slots 0).1 with
      | some args, some receiver => [.invoked (some receiver) ("inst->" ++ memberCall x n) args]
      | _, _ => []

/-- Entered on a class and arguments, an allocator compiles, reads the arguments next to the
new object without changing any slot, and returns with that object in slot 0. -/
structure AllocatorFramed (host : HostRuntime ν ω) (f : CFunction) (args : List (WrenValue ν ω)) :
    Prop where
  reads : ∀ slot o, Reads CppHelper.getFromSlot (.foreign host.created :: args) slot o →
    o.2 = .foreign host.created :: args
  returns : ∃ r, f.RunsTo host (.unknown :: args) r ∧
    r.2.slots.head? = some (.foreign host.created)

/-! ### Methods -/

section Runs

variable {host : HostRuntime ν ω} {C : ClassDecl} {x : Ident} {n : Nat}

theorem apply_readReceiver_inst {m : Machine ν ω} {receiver : Dynamic ν ω}
    (hinst : m.locals "inst" = some receiver) (rest : Text) :
    (readReceiver ("inst->" ++ rest)).apply m = (.ok (some receiver), m) := by
  rw [readReceiver, receiverName_inst]
  show Op.apply (some <$> readLocal "inst") m = _
  rw [map_eq_pure_bind, apply_bind_ok (apply_readLocal hinst)]
  rfl

/-- A call on the receiver, once receiver and arguments are in their locals. -/
theorem apply_call {m : Machine ν ω} {receiver : Dynamic ν ω} {args : List (Dynamic ν ω)}
    (hinst : m.locals "inst" = some receiver)
    (hargs : List.Forall₂ (fun p d => m.locals p = some d) (params n) args) (fuel : Nat) :
    (runStmts host fuel [.call ("inst->" ++ memberCall x.text n)]).apply m
      = (.ok (), { m with events :=
          m.events ++ [.invoked (some receiver) ("inst->" ++ memberCall x.text n) args] }) := by
  have hcall : ((Stmt.call ("inst->" ++ memberCall x.text n)).exec host fuel).apply m
      = (.ok (), { m with events :=
          m.events ++ [.invoked (some receiver) ("inst->" ++ memberCall x.text n) args] }) := by
    unfold Stmt.exec
    rw [apply_bind_ok (apply_readReceiver_inst hinst _), callArguments_memberCall,
      apply_bind_ok (apply_mapM_readLocal hargs)]
    rfl
  rw [runStmts, apply_bind_ok hcall]
  rfl

/-- **A method body** on slots that no read changes. -/
theorem method_runs {slots : Slots ν ω} (hkeep : ReadsKeep slots) {f : CFunction}
    (hf : f.body = methodBody C x.text n) :
    ∃ r, f.RunsTo host slots r ∧
      r.2.events = match decodings slots 1 n, (readSlot slots 0).1 with
        | some args, some receiver =>
            [.invoked (some receiver) ("inst->" ++ memberCall x.text n) args]
        | _, _ => [] := by
  have hscoped : WellScoped [] f.body := by
    rw [hf]
    exact wellScoped_methodBody C x n
  have hlength : (params n).length = n := length_params n
  unfold CFunction.RunsTo
  rw [hf, methodBody, callBody, readArguments]
  rw [hf, methodBody, callBody, readArguments] at hscoped
  cases hargs : decodings slots 1 n with
  | none =>
      obtain ⟨e, m', hsettles, hevents⟩ := @settles_arguments_none ν ω host slots hkeep
        [.instance_ (cppClass C), .call ("inst->" ++ memberCall x.text n)] (params n) 0
        (Machine.enter slots) rfl (by rw [hlength]; exact hargs)
      exact ⟨_, ⟨hscoped, hsettles⟩, hevents⟩
  | some args =>
      have hlocals := @bindLocals_forall₂ ν ω _ (Machine.enter slots).locals _ (params_nodup n)
        (hlength.trans (length_decodings hargs).symm)
      have hrun := fun r => @settles_arguments ν ω host slots hkeep
        [.instance_ (cppClass C), .call ("inst->" ++ memberCall x.text n)] r (params n) 0
        (Machine.enter slots) _ rfl (by rw [hlength]; exact hargs)
      cases hreceiver : (readSlot slots 0).1 with
      | none =>
          obtain ⟨e, hread⟩ := settles_read_none (m := { Machine.enter slots with
            locals := bindLocals (Machine.enter slots).locals (params n) args }) hreceiver "inst"
          exact ⟨_, ⟨hscoped, hrun _ hread.bind_error⟩, rfl⟩
      | some receiver =>
          have hread := settles_read (m := { Machine.enter slots with
            locals := bindLocals (Machine.enter slots).locals (params n) args }) hreceiver "inst"
          have hinst : Function.update (bindLocals (Machine.enter slots).locals (params n) args)
              ("inst" : Text) (some receiver) "inst" = some receiver := Function.update_self _ _ _
          have hlocals' := forall₂_update (v := some receiver) hlocals (inst_not_mem_params n)
          have hcall := fun fuel => @apply_call ν ω host x n
            { Machine.enter slots with
              slots := (readSlot slots 0).2
              locals := Function.update
                (bindLocals (Machine.enter slots).locals (params n) args) "inst" (some receiver) }
            receiver args hinst hlocals' fuel
          exact ⟨_, ⟨hscoped, hrun _ (hread.bind_ok ⟨0, fun fuel _ => hcall fuel⟩)⟩, rfl⟩

/-! ### Allocators -/

/-- Without a read there is nothing the fuel is for. -/
theorem runStmts_of_quiet {stmts : List Stmt} (h : ∀ s ∈ stmts, s.quiet) (fuel : Nat) :
    runStmts host fuel stmts = runStmts host 0 stmts := by
  induction stmts with
  | nil => rfl
  | cons s rest ih =>
      have hs : s.exec host fuel = s.exec host 0 := by
        cases s with
        | argument | instance_ | saveVal | valuePointer | loadValue | newForeign =>
            cases h _ List.mem_cons_self
        | _ => rfl
      rw [runStmts, runStmts, hs, ih fun s hs => h s (List.mem_cons_of_mem _ hs)]

theorem settles_of_quiet {stmts : List Stmt} (h : ∀ s ∈ stmts, s.quiet) (m : Machine ν ω) :
    ∃ r, Settles (fun fuel => runStmts host fuel stmts) m r ∧ r.2.slots = m.slots := by
  have hkeeps : Keeps (fun m' : Machine ν ω => m'.slots = m.slots) (fun _ => False)
      (runStmts host 0 stmts) := by
    refine keeps_runStmts fun s hs => s.keeps 0 (fun _ _ _ hm => hm) ?_ fun _ _ _ hm => hm
    intro hloud
    rw [h s hs] at hloud
    cases hloud
  exact ⟨(runStmts host 0 stmts).apply m,
    ⟨0, fun fuel _ => congrArg (fun x => x.apply m) (runStmts_of_quiet h fuel)⟩,
    (hkeeps m rfl).1⟩

/-- **An allocator** with one argument at most, on slots that no read changes. -/
theorem allocator_runs {cfg : Config} {args : List (WrenValue ν ω)} (hn : n ≤ 1)
    (hkeep : ReadsKeep (.foreign host.created :: args)) :
    ∃ r, (allocator cfg C n).RunsTo host (.unknown :: args) r ∧
      r.2.slots = .foreign host.created :: args := by
  have hscoped := (wellScoped_allocator_iff cfg C n).mpr hn
  have hnew : ∀ (rest : List Stmt) (r : Except SlotError Unit × Machine ν ω),
      Settles (fun fuel => runStmts host fuel rest)
        (Machine.enter (.foreign host.created :: args)) r →
      Settles (fun fuel => runStmts host fuel (.newForeign (replace C.moduleName "." "::") :: rest))
        (Machine.enter (.unknown :: args)) r := by
    intro rest r hrest
    have hcall : Settles (fun fuel => (Stmt.newForeign (replace C.moduleName "." "::")).exec host fuel)
        (Machine.enter (.unknown :: args))
        (.ok (), Machine.enter (.foreign host.created :: args)) := ⟨0, fun _ _ => rfl⟩
    exact hcall.bind_ok hrest
  rcases (by omega : n = 0 ∨ n = 1) with rfl | rfl
  · obtain ⟨r, hsettles, hslots⟩ := @settles_of_quiet ν ω host
      [.object (replace C.moduleName "." "::"), .newData (params 0),
        .copyData (replace C.moduleName "." "::")] (by simp [Stmt.quiet])
      (Machine.enter (.foreign host.created :: args))
    exact ⟨r, ⟨hscoped, hnew _ _ hsettles⟩, hslots⟩
  · have hread1 := hkeep 1
    cases hd : (readSlot (.foreign host.created :: args) 1).1 with
    | none =>
        obtain ⟨e, hread⟩ := settles_read_none
          (m := Machine.enter (.foreign host.created :: args)) hd "value"
        exact ⟨_, ⟨hscoped, hnew _ _ hread.bind_error⟩, hread1⟩
    | some d =>
        have hread := settles_read (m := Machine.enter (.foreign host.created :: args)) hd "value"
        obtain ⟨r, hsettles, hslots⟩ := @settles_of_quiet ν ω host
          [.dynamicArgument "arg0", .object (replace C.moduleName "." "::"),
            .newData (params 1), .copyData (replace C.moduleName "." "::")] (by simp [Stmt.quiet])
          { Machine.enter (.foreign host.created :: args) with
            slots := (readSlot (.foreign host.created :: args) 1).2
            locals := Function.update (Machine.enter (.foreign host.created :: args)).locals
              ("value" : Text) (some d) }
        exact ⟨r, ⟨hscoped, hnew _ _ (hread.bind_ok hsettles)⟩, hslots.trans hread1⟩

end Runs

/-! ### Every function of a unit -/

/--
**Where the slots are left.**  The reads leave the slots, a method that decodes its
arguments makes its call on the receiver it was entered with, and an allocator returns
its new object, if and only if no list disturbs slot 0 and an allocator takes one
argument at most.
-/
theorem frames_iff {cfg : Config} {C : LocalClass} {cpp : CppUnit} {header : CppHeader} {k : Nat}
    (hunit : genUnit cfg.order C.moduleName C.name.text (registration cfg C Tables.empty)
      = .ok (cpp, header, k)) (host : HostRuntime ν ω) :
    (∀ (zero : WrenValue ν ω) (args : Slots ν ω),
      (∀ slot o, Reads CppHelper.getFromSlot (zero :: args) slot o → o.2 = zero :: args) ↔
        Undisturbed zero args) ∧
      (∀ f ∈ cpp.functions, (∃ name slot, .argument name slot ∈ f.body) →
        (∃ cls, .instance_ cls ∈ f.body) →
        ∃ m ∈ C.members, ∃ n, m.access = .instanceMethod n ∧
          f.body = methodBody C.toClassDecl m.name.text n) ∧
      (∀ f ∈ cpp.functions, ∀ (x : Ident) (n : Nat), f.body = methodBody C.toClassDecl x.text n →
        ∀ (receiver : WrenValue ν ω) (args : Slots ν ω), args.length = n →
          (MethodFramed host f x.text n (receiver :: args) ↔ Undisturbed receiver args)) ∧
      ∀ f ∈ cpp.allocators, ∃ n, C.constructors = [n] ∧ ∀ args : Slots ν ω, args.length = n →
        (AllocatorFramed host f args ↔ n ≤ 1 ∧ Undisturbed (.foreign host.created) args) := by
  refine ⟨reads_keep_iff, ?_, ?_, ?_⟩
  · rintro f hf ⟨name, slot, harg⟩ ⟨cls, hinst⟩
    obtain ⟨e, -, -, -, hbody, hargs⟩ := exists_entry_of_mem hunit hf
    rw [hbody] at harg hinst ⊢
    exact method_of_mem hargs harg hinst
  · intro f hf x n hbody receiver args _
    rw [← reads_keep_iff]
    constructor
    · exact fun h => h.reads
    · intro h
      exact ⟨h, method_runs ((readsKeep_iff receiver args).mpr ((reads_keep_iff _ _).mp h)) hbody⟩
  · intro f hf
    obtain ⟨hallocators, -, -⟩ := genUnit_constructor hunit
    rw [hallocators] at hf
    obtain ⟨n, hn, rfl⟩ := List.mem_map.mp hf
    refine ⟨n, ?_, fun args _ => ?_⟩
    · rcases constructors_cases C.toClassDecl with hnil | ⟨m, hm⟩
      · rw [hnil] at hn
        cases hn
      · rw [hm, List.mem_singleton] at hn
        rw [hm, hn]
    rw [← reads_keep_iff]
    constructor
    · rintro ⟨hreads, r, ⟨hscoped, -⟩, -⟩
      exact ⟨(wellScoped_allocator_iff _ _ _).mp hscoped, hreads⟩
    · rintro ⟨hn, hreads⟩
      obtain ⟨r, hruns, hslots⟩ := @allocator_runs ν ω host C.toClassDecl n cfg args hn
        ((readsKeep_iff _ args).mpr ((reads_keep_iff _ _).mp hreads))
      exact ⟨hreads, r, hruns, by rw [hslots]; rfl⟩

namespace Sample

def host : HostRuntime Nat Unit where
  hx := hx
  rt := runtime
  member := fun _ _ => .null
  created := .object ()

/-- The functions of `MyClass`, entered on its object and on arguments without lists. -/
theorem frames_myClass :
    ∃ cpp header k, genUnit config.order myClass.moduleName myClass.name.text
        (registration config myClass Tables.empty) = .ok (cpp, header, k) ∧
      ∀ f ∈ cpp.functions, f.body = methodBody myClass.toClassDecl addName.text 2 →
        MethodFramed host f addName.text 2 [.foreign (.object ()), .num 5, .num 40] := by
  have hunit : holds (fun _ => true) (genUnit config.order myClass.moduleName myClass.name.text
    (registration config myClass Tables.empty)) := by decide +kernel
  obtain ⟨⟨cpp, header, k⟩, hunit, -⟩ := exists_of_holds hunit
  refine ⟨cpp, header, k, hunit, fun f hf hbody => ?_⟩
  refine ((frames_iff hunit host).2.2.1 f hf addName 2 hbody _ _ rfl).mpr ⟨rfl, ?_⟩
  rintro elements hmem e he
  simp at hmem

/-- `callDyn` on a list of one number: the number stands in slot 0 when the receiver is read,
so the member is called on it. -/
theorem callDyn_not_framed :
    ∃ cpp header k, genUnit config.order myClass.moduleName myClass.name.text
        (registration config myClass Tables.empty) = .ok (cpp, header, k) ∧
      ∃ f ∈ cpp.functions, f.body = methodBody myClass.toClassDecl "callDyn" 1 ∧
        (∃ r, f.RunsTo host [.foreign (.object ()), .list [.num 1]] r ∧
          r.2.slots = [.num 1, .list [.num 1]] ∧
          r.2.events = [.invoked (some (.num 1)) ("inst->" ++ memberCall "callDyn" 1)
            [.array [.num 1]]]) ∧
        ¬ MethodFramed host f "callDyn" 1 [.foreign (.object ()), .list [.num 1]] := by
  have hunit : holds (fun r => r.1.functions.any fun f =>
      f.body = methodBody myClass.toClassDecl "callDyn" 1)
    (genUnit config.order myClass.moduleName myClass.name.text
      (registration config myClass Tables.empty)) := by decide +kernel
  obtain ⟨⟨cpp, header, k⟩, hunit, hfunctions⟩ := exists_of_holds hunit
  obtain ⟨f, hf, hbody⟩ := List.any_eq_true.mp hfunctions
  have hbody : f.body = methodBody myClass.toClassDecl "callDyn" 1 := of_decide_eq_true hbody
  have harg := @settles_read Nat Unit (Machine.enter [.foreign (.object ()), .list [.num 1]])
    1 (.array [.num 1]) rfl "arg0"
  have hinst := @settles_read Nat Unit
    { Machine.enter [.foreign (.object ()), .list [.num 1]] with
      slots := [.num 1, .list [.num 1]]
      locals := Function.update (fun _ => none) ("arg0" : Text) (some (.array [.num 1])) }
    0 (.num 1) rfl "inst"
  have hcall := fun fuel => @apply_call Nat Unit host (ident "callDyn") 1
    { Machine.enter [.foreign (.object ()), .list [.num 1]] with
      slots := [.num 1, .list [.num 1]]
      locals := Function.update (Function.update (fun _ => none) ("arg0" : Text)
        (some (.array [.num 1]))) ("inst" : Text) (some (.num 1)) }
    (.num 1) [.array [.num 1]] rfl (List.Forall₂.cons rfl List.Forall₂.nil) fuel
  refine ⟨cpp, header, k, hunit, f, hf, hbody, ?_, fun h => ?_⟩
  · unfold CFunction.RunsTo
    rw [hbody]
    exact ⟨_, ⟨wellScoped_methodBody _ (ident "callDyn") 1,
      harg.bind_ok (hinst.bind_ok ⟨0, fun fuel _ => hcall fuel⟩)⟩, rfl, rfl⟩
  · have hread := h.reads 1 _ (reads_readSlot _ 1).2
    cases hread

end Sample

end Wrenegade
