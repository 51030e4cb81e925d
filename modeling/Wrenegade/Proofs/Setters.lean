/-
What a setter does to the value a script assigns.

A setter asks the API for the foreign object in slot 1 before it decodes that slot by
its type.  The API has one only where an object of a foreign class was assigned; for a
number or a text the first call is outside what the API asks for.

Whatever a run assigns stands in the body that ran, so a function that is no setter of
its variable stores nothing there either.
-/
import Wrenegade.Proofs.Frames

namespace Wrenegade

open Text Operation Run

variable {ν ω : Type}

/-! ### What is asked for -/

/-- Called on the object `o` with the value `v`, a run of the setter of `x` stays within what
the API asks for, leaves `v` in its slot and stores its decoding in the field of `o`. -/
structure SetterSafe (host : HostRuntime ν ω) (f : CFunction) (x : Text) (o : Dynamic ν ω)
    (v : WrenValue ν ω) (r : Except SlotError Unit × Machine ν ω) : Prop where
  runs : f.RunsTo host [.foreign o, v] r
  within : ∀ message, r.1 ≠ .error (.assertion message)
  unmodified : r.2.slots[1]? = some v
  stores : ∃ d slots, Reads CppHelper.getFromSlot [.foreign o, v] 1 (some d, slots) ∧
    r.2.events = [.assigned (some o) ("inst->" ++ x) d]

/-- The unit defines the setter of `x`, and what it defines is safe. -/
def SetsSafely (cfg : Config) (C : ClassDecl) (cpp : CppUnit) (host : HostRuntime ν ω) (x : Text)
    (o : Dynamic ν ω) (v : WrenValue ν ω) : Prop :=
  (∃ f ∈ cpp.functions, f.name = funcBase cfg C ++ (toLower x ++ "_set")) ∧
    ∀ f ∈ cpp.functions, f.name = funcBase cfg C ++ (toLower x ++ "_set") →
      ∃ r, SetterSafe host f x o v r

/-! ### Bodies that assign the field -/

section Written

variable {cfg : Config} {C : LocalClass} {x : Ident}

/-- A method assigns nothing. -/
theorem assignValue_not_mem_call {key : Text} {m : BoundMember} {n : Nat}
    (hm : C.lastMember key = some m) (hargs : m.args = some (params (n + 1))) (target : Text) :
    .assignValue target ∉ writtenBody cfg C key := by
  rw [writtenBody_call hm hargs fun h => absurd h (Nat.succ_ne_zero n), callStmts_entry]
  intro h
  rcases List.mem_append.mp h with h | h
  · obtain ⟨a, -, ha⟩ := List.mem_map.mp h
    cases ha
  · cases hreached : m.reachedBy <;> rw [hreached] at h <;> simp at h

/-- A body that compiles and assigns the field is the setter of the variable. -/
theorem eq_setterBody (hvar : (C.lastMember (toLower x.text ++ "_set")).map BoundMember.args
      ≠ some none)
    (hscoped : WellScoped [] (writtenBody cfg C (toLower x.text ++ "_set")))
    (hassign : .assignValue ("inst->" ++ x.text) ∈ writtenBody cfg C (toLower x.text ++ "_set")) :
    writtenBody cfg C (toLower x.text ++ "_set") = setterBody C.toClassDecl x.text := by
  have hargs : ∀ m', C.lastMember (toLower x.text ++ "_set") = some m' → m'.args = some [] := by
    intro m' hm'
    rw [hm', Option.map_some, ne_eq, Option.some.injEq] at hvar
    obtain ⟨k, hk, -⟩ := access_of_args hvar
    cases k with
    | zero => exact hk
    | succ k => exact absurd hassign (assignValue_not_mem_call hm' hk _)
  rw [writtenBody_set hargs] at hscoped hassign ⊢
  rw [setterBody, setterStmts_iff, and_iff_right rfl]
  unfold setterStmts at hscoped hassign
  cases hentry : Option.bind (Option.map (BoundMember.entry cfg C.toClassDecl)
      (memberAt cfg C.toClassDecl C.members
        (replace (funcBase cfg C.toClassDecl ++ toLower x.text) "_set" []))) afterArrow with
  | none =>
      -- without an arrow the receiver is not declared
      exfalso
      rw [hentry] at hscoped hassign
      generalize interpolate _ = target at hscoped hassign
      have htarget : ("inst->" : Text) ++ x.text = target := by simpa using hassign
      subst htarget
      have huses : ("inst" : Text) ∈ (Stmt.assignValue ("inst->" ++ x.text)).uses := by
        rw [Stmt.uses, receiverName_inst]
        simp
      exact absurd (hscoped.2.2.2.2.1 _ huses) (by decide)
  | some method =>
      rw [hentry] at hassign
      have htarget : ("inst->" : Text) ++ x.text = "inst->" ++ method := by simpa using hassign
      exact congrArg some (List.append_cancel_left htarget).symm

end Written

/-! ### Runs -/

section Runs

variable {host : HostRuntime ν ω} {C : ClassDecl} {x : Ident} {o : Dynamic ν ω} {f : CFunction}

/-- Of anything but a foreign object there is no pointer. -/
theorem settles_valuePointer {v : WrenValue ν ω} (hv : ∀ data, v ≠ .foreign data)
    (rest : List Stmt) :
    ∃ m, Settles (fun fuel => runStmts host fuel (.valuePointer :: rest))
      (Machine.enter [.foreign o, v]) (.error (.assertion "Slot must hold a foreign instance."), m) := by
  have hcall : Settles (fun fuel => Stmt.valuePointer.exec host fuel)
      (Machine.enter [.foreign o, v])
      (.error (.assertion "Slot must hold a foreign instance."), Machine.enter [.foreign o, v]) := by
    refine ⟨0, fun fuel _ => ?_⟩
    cases v with
    | foreign data => exact absurd rfl (hv data)
    | _ => rfl
  exact ⟨_, hcall.bind_error⟩

/-- An assignment to a field of the receiver. -/
theorem apply_assign {m : Machine ν ω} {receiver d : Dynamic ν ω}
    (hinst : m.locals "inst" = some receiver) (hvalue : m.locals "value" = some d) (fuel : Nat) :
    (runStmts host fuel [.assignValue ("inst->" ++ x.text)]).apply m
      = (.ok (), { m with events :=
          m.events ++ [.assigned (some receiver) ("inst->" ++ x.text) d] }) := by
  have hassign : ((Stmt.assignValue ("inst->" ++ x.text)).exec host fuel).apply m
      = (.ok (), { m with events :=
          m.events ++ [.assigned (some receiver) ("inst->" ++ x.text) d] }) := by
    unfold Stmt.exec
    rw [apply_bind_ok (apply_readReceiver_inst hinst _), apply_bind_ok (apply_readLocal hvalue)]
    rfl
  rw [runStmts, apply_bind_ok hassign]
  rfl

/-- **The setter body** on a foreign object. -/
theorem setter_runs (hf : f.body = setterBody C x.text) (data : Dynamic ν ω) :
    ∃ r, SetterSafe host f x.text o (.foreign data) r := by
  have hread : ∀ slot : Nat, (h : slot < 2) → Settles (fun fuel => CppHelper.getFromSlot fuel slot)
      ([.foreign o, .foreign data] : Slots ν ω)
      (.ok (if slot = 0 then o else data), [.foreign o, .foreign data]) := by
    refine fun slot hslot => ⟨1, fun fuel hfuel => ?_⟩
    obtain ⟨k, rfl⟩ := Nat.exists_eq_add_of_le' hfuel
    rcases (by omega : slot = 0 ∨ slot = 1) with rfl | rfl <;> rfl
  have hpointer : Settles (fun fuel => Stmt.valuePointer.exec host fuel)
      (Machine.enter [.foreign o, .foreign data])
      (.ok (), { Machine.enter [.foreign o, .foreign data] with
        locals := Function.update (fun _ => none) ("value" : Text) (some data) }) :=
    ⟨0, fun _ _ => rfl⟩
  have hload : Settles (fun fuel => Stmt.loadValue.exec host fuel)
      { Machine.enter [.foreign o, .foreign data] with
        locals := Function.update (fun _ => none) ("value" : Text) (some data) } _ :=
    (settles_callApi (hread 1 (by omega))).bind_ok (settles_const _ _)
  have hinst : Settles (fun fuel => (Stmt.instance_ (cppClass C)).exec host fuel)
      { Machine.enter [.foreign o, .foreign data] with
        locals := Function.update (Function.update (fun _ => none) ("value" : Text) (some data))
          ("value" : Text) (some data) } _ :=
    (settles_callApi (hread 0 (by omega))).bind_ok (settles_const _ _)
  have hassign : Settles (fun fuel => runStmts host fuel [.assignValue ("inst->" ++ x.text)])
      { Machine.enter [.foreign o, .foreign data] with
        locals := Function.update (Function.update (Function.update (fun _ => none)
          ("value" : Text) (some data)) ("value" : Text) (some data)) ("inst" : Text) (some o) } _ :=
    ⟨0, fun fuel _ => apply_assign rfl rfl fuel⟩
  have hruns : ∃ m, f.RunsTo host [.foreign o, .foreign data] (.ok (), m) ∧
      m.slots = [.foreign o, .foreign data] ∧
      m.events = [.assigned (some o) ("inst->" ++ x.text) data] := by
    unfold CFunction.RunsTo
    rw [hf]
    exact ⟨_, ⟨wellScoped_setterBody C x.text,
      hpointer.bind_ok (hload.bind_ok (hinst.bind_ok hassign))⟩, rfl, rfl⟩
  obtain ⟨m, hruns, hslots, hevents⟩ := hruns
  refine ⟨_, hruns, fun message h => (by cases h), ?_, data, _,
    ⟨_, hread 1 (by omega), .returned _⟩, hevents⟩
  rw [hslots]
  rfl

end Runs

/-! ### When a setter is safe -/

/--
**When a setter is safe.**  The setter of an exported variable stays within what the API
asks for, leaves the assigned value and stores its decoding, if and only if the value is
a foreign object and the generator found the variable: no method with arguments has the
key of the setter, the variable is the last member with its lower-cased name and not
called `new`, and no `_set` stands in the C name in front of it.
-/
theorem setsSafely_iff {cfg : Config} {C : LocalClass} {cpp : CppUnit} {header : CppHeader}
    {k : Nat} {x : Ident}
    (hunit : genUnit cfg.order C.moduleName C.name.text (registration cfg C Tables.empty)
      = .ok (cpp, header, k))
    (hx : (⟨x, .variable_⟩ : BoundMember) ∈ C.members) (host : HostRuntime ν ω)
    (o : Dynamic ν ω) (v : WrenValue ν ω) :
    SetsSafely cfg C.toClassDecl cpp host x.text o v ↔
      (∃ data, v = .foreign data) ∧
        (∀ m', C.lastMember (toLower x.text ++ "_set") = some m' → m'.args = some []) ∧
        C.lastMember (toLower x.text) = some ⟨x, .variable_⟩ ∧ x.text ≠ "new" ∧
        ¬ ("_set" : Text) <:+: funcBase cfg C.toClassDecl ++ toLower x.text := by
  obtain ⟨e, he, hpub, hkey⟩ := exists_entry hx (k := toLower x.text ++ "_set") List.mem_cons_self
  obtain ⟨hexists, hbodies, hvar⟩ := mem_functions hunit he hpub
  simp only [hkey] at hexists hbodies hvar
  rw [← writtenBody_setter_iff hvar]
  constructor
  · rintro ⟨-, hsafe⟩
    obtain ⟨f, hf, hname⟩ := hexists
    obtain ⟨r, hsafe⟩ := hsafe f hf hname
    have hbody := hbodies f hf hname
    have hwritten : writtenBody cfg C (toLower x.text ++ "_set")
        = setterBody C.toClassDecl x.text := by
      obtain ⟨d, slots, -, hevents⟩ := hsafe.stores
      have hscoped := hsafe.runs.1
      have hassign := assigned_mem hsafe.runs (by rw [hevents]; exact List.mem_singleton_self _)
      rw [hbody] at hscoped hassign
      exact eq_setterBody hvar hscoped hassign
    refine ⟨?_, hwritten⟩
    by_contra hforeign
    obtain ⟨m, hsettles⟩ := @settles_valuePointer ν ω host o _
      (fun data h => hforeign ⟨data, h⟩)
      [.loadValue, .instance_ (cppClass C.toClassDecl), .assignValue ("inst->" ++ x.text)]
    have hruns := hsafe.runs.2
    rw [hbody, hwritten] at hruns
    exact hsafe.within _ (congrArg Prod.fst (settles_unique hruns hsettles))
  · rintro ⟨⟨data, rfl⟩, hwritten⟩
    refine ⟨hexists, fun f hf hname => setter_runs (C := C.toClassDecl) ?_ data⟩
    rw [hbodies f hf hname, hwritten]

namespace Sample

/-- `prop` of `MyClass`, set to an object of the class. -/
theorem setsSafely_myClass :
    ∃ cpp header k, genUnit config.order myClass.moduleName myClass.name.text
        (registration config myClass Tables.empty) = .ok (cpp, header, k) ∧
      SetsSafely config myClass.toClassDecl cpp host "prop" (.object ()) (.foreign (.object ())) := by
  have hunit : holds (fun _ => true) (genUnit config.order myClass.moduleName myClass.name.text
    (registration config myClass Tables.empty)) := by decide +kernel
  obtain ⟨⟨cpp, header, k⟩, hunit, -⟩ := exists_of_holds hunit
  refine ⟨cpp, header, k, hunit, (setsSafely_iff (x := ident "prop") hunit (by decide) host _ _).mpr
    ⟨⟨_, rfl⟩, fun m' hm' => ?_, by decide, by decide, by decide⟩⟩
  have hnone : myClass.lastMember (toLower (ident "prop").text ++ "_set") = none := by decide
  rw [hnone] at hm'
  cases hm'

/-- Set to a text, the setter asks for the foreign object in a slot that holds the text. -/
theorem prop_not_setsSafely :
    ∃ cpp header k, genUnit config.order myClass.moduleName myClass.name.text
        (registration config myClass Tables.empty) = .ok (cpp, header, k) ∧
      (⟨ident "prop", .variable_⟩ : BoundMember) ∈ myClass.members ∧
      ∃ f ∈ cpp.functions, f.name = "myclass_myclass_prop_set" ∧
        (∃ m, f.RunsTo host [.foreign (.object ()), .string "hello world"]
          (.error (.assertion "Slot must hold a foreign instance."), m)) ∧
        ¬ SetsSafely config myClass.toClassDecl cpp host "prop" (.object ())
          (.string "hello world") := by
  have hunit : holds (fun r => r.1.functions.any fun f => f.name = "myclass_myclass_prop_set" ∧
      f.body = setterBody myClass.toClassDecl "prop")
    (genUnit config.order myClass.moduleName myClass.name.text
      (registration config myClass Tables.empty)) := by decide +kernel
  obtain ⟨⟨cpp, header, k⟩, hunit, hfunctions⟩ := exists_of_holds hunit
  obtain ⟨f, hf, hbody⟩ := List.any_eq_true.mp hfunctions
  obtain ⟨hname, hbody⟩ := of_decide_eq_true hbody
  obtain ⟨m, hsettles⟩ := @settles_valuePointer Nat Unit host (.object ())
    (.string "hello world") (fun data h => (by cases h))
    [.loadValue, .instance_ (cppClass myClass.toClassDecl), .assignValue ("inst->" ++ "prop")]
  have hruns : f.RunsTo host [.foreign (.object ()), .string "hello world"]
      (.error (.assertion "Slot must hold a foreign instance."), m) := by
    unfold CFunction.RunsTo
    rw [hbody]
    exact ⟨wellScoped_setterBody _ _, hsettles⟩
  refine ⟨cpp, header, k, hunit, by decide, f, hf, hname, ⟨m, hruns⟩, fun h => ?_⟩
  have hkey : f.name = funcBase config myClass.toClassDecl ++ (toLower "prop" ++ "_set") := by
    rw [hname]
    decide
  obtain ⟨r, hsafe⟩ := h.2 f hf hkey
  exact hsafe.within _ (congrArg Prod.fst (settles_unique hsafe.runs.2 hruns.2))

end Sample

end Wrenegade
