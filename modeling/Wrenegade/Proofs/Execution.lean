/-
Rules about the runs of bodies.

A statement that reads a slot settles as the read does, a body settles statement by
statement, and the statements in between only look at locals.  Reading the arguments
is one rule: where no read changes the slots, the locals hold what the reads return,
or the run ends with the first one that returns nothing.
-/
import Wrenegade.Model.Execution
import Wrenegade.Proofs.Reading

namespace Wrenegade

open Text Operation

variable {ν ω α : Type} {host : HostRuntime ν ω} {m : Machine ν ω}

/-! ### One call -/

theorem apply_callApi (x : Api ν ω α) (m : Machine ν ω) :
    (callApi x).apply m = ((x.apply m.slots).1, { m with slots := (x.apply m.slots).2 }) := by
  unfold callApi
  rw [apply_bind_ok (apply_get m), apply_bind_ok (apply_set m _)]
  cases (x.apply m.slots).1 with
  | ok a => rfl
  | error e => rfl

theorem settles_callApi {x : Nat → Api ν ω α} {r : Except SlotError α} {slots : Slots ν ω}
    (h : Settles x m.slots (r, slots)) :
    Settles (fun fuel => callApi (x fuel)) m (r, { m with slots := slots }) := by
  obtain ⟨n, hn⟩ := h
  refine ⟨n, fun fuel hlt => ?_⟩
  rw [apply_callApi, hn fuel hlt]

/-- A slot read into a local. -/
theorem settles_read {slot : Nat} {d : Dynamic ν ω} (h : (readSlot m.slots slot).1 = some d)
    (name : Text) :
    Settles (fun fuel => do
        let value ← callApi (CppHelper.getFromSlot fuel (slot : Int))
        declare name value) m
      (.ok (), { m with slots := (readSlot m.slots slot).2
                        locals := Function.update m.locals name (some d) }) := by
  obtain ⟨r, hsettles, hgives⟩ := (reads_readSlot m.slots slot).2
  rw [h] at hgives
  cases hgives
  exact (settles_callApi hsettles).bind_ok (settles_const _ _)

theorem settles_read_none {slot : Nat} (h : (readSlot m.slots slot).1 = none) (name : Text) :
    ∃ e, Settles (fun fuel => do
        let value ← callApi (CppHelper.getFromSlot fuel (slot : Int))
        declare name value) m
      (.error e, { m with slots := (readSlot m.slots slot).2 }) := by
  obtain ⟨r, hsettles, hgives⟩ := (reads_readSlot m.slots slot).2
  rw [h] at hgives
  cases hgives with
  | raised => exact ⟨_, (settles_callApi hsettles).bind_error⟩

/-! ### Locals -/

theorem apply_readLocal {name : Text} {d : Dynamic ν ω} (h : m.locals name = some d) :
    (readLocal name).apply m = (.ok d, m) := by
  unfold readLocal
  rw [apply_bind_ok (apply_get m)]
  simp only [h]
  rfl

theorem apply_readLocal_none {name : Text} (h : m.locals name = none) :
    (readLocal name).apply m = (.error (.thrown ("undeclared: " ++ name)), m) := by
  unfold readLocal
  rw [apply_bind_ok (apply_get m)]
  simp only [h]
  rfl

theorem apply_mapM_readLocal {names : List Text} {ds : List (Dynamic ν ω)}
    (h : List.Forall₂ (fun p d => m.locals p = some d) names ds) :
    (names.mapM readLocal).apply m = (.ok ds, m) := by
  induction h with
  | nil => rfl
  | cons hd _ ih =>
      rw [List.mapM_cons, apply_bind_ok (apply_readLocal hd), apply_bind_ok ih]
      rfl

/-- Many locals declared one after the other. -/
def bindLocals (locals : Text → Option (Dynamic ν ω)) :
    List Text → List (Dynamic ν ω) → Text → Option (Dynamic ν ω)
  | p :: ps, d :: ds => bindLocals (Function.update locals p (some d)) ps ds
  | _, _ => locals

theorem bindLocals_of_not_mem {name : Text} {ps : List Text} :
    ∀ {locals : Text → Option (Dynamic ν ω)} {ds : List (Dynamic ν ω)}, name ∉ ps →
      bindLocals locals ps ds name = locals name := by
  induction ps with
  | nil => intro locals ds _; cases ds <;> rfl
  | cons p ps ih =>
      intro locals ds hname
      rw [List.mem_cons, not_or] at hname
      cases ds with
      | nil => rfl
      | cons d ds =>
          rw [bindLocals, ih hname.2]
          exact Function.update_of_ne hname.1 _ _

theorem bindLocals_forall₂ {ps : List Text} :
    ∀ {locals : Text → Option (Dynamic ν ω)} {ds : List (Dynamic ν ω)}, ps.Nodup →
      ps.length = ds.length →
      List.Forall₂ (fun p d => bindLocals locals ps ds p = some d) ps ds := by
  induction ps with
  | nil =>
      intro locals ds _ hlength
      rw [List.length_eq_zero_iff.mp hlength.symm]
      exact List.Forall₂.nil
  | cons p ps ih =>
      intro locals ds hnodup hlength
      cases ds with
      | nil => cases hlength
      | cons d ds =>
          rw [List.nodup_cons] at hnodup
          refine List.Forall₂.cons ?_ (ih hnodup.2 (Nat.succ.inj hlength))
          rw [bindLocals, bindLocals_of_not_mem hnodup.1]
          exact Function.update_self _ _ _

/-- Another local declared later changes nothing. -/
theorem forall₂_update {name : Text} {v : Option (Dynamic ν ω)}
    {locals : Text → Option (Dynamic ν ω)} {ps : List Text} {ds : List (Dynamic ν ω)}
    (h : List.Forall₂ (fun p d => locals p = some d) ps ds) (hname : name ∉ ps) :
    List.Forall₂ (fun p d => Function.update locals name v p = some d) ps ds := by
  induction h with
  | nil => exact List.Forall₂.nil
  | cons hd _ ih =>
      rw [List.mem_cons, not_or] at hname
      refine List.Forall₂.cons ?_ (ih hname.2)
      rw [Function.update_of_ne (Ne.symm hname.1)]
      exact hd

/-! ### What statements keep -/

/-- The statements that only look at locals. -/
def Stmt.quiet : Stmt → Bool
  | .call _ | .readMember _ | .typeofVal | .assignValue _ => true
  | .dynamicArgument _ | .object _ | .newData _ | .copyData _ => true
  | _ => false

variable {P : Machine ν ω → Prop}

theorem keeps_callApi (hslots : ∀ m slots, P m → P { m with slots := slots }) (x : Api ν ω α) :
    Keeps P (fun _ => False) (callApi x) := by
  intro m hm
  rw [apply_callApi]
  exact ⟨hslots m _ hm, fun _ _ => id⟩

/-- Looking at a local changes nothing. -/
theorem keeps_readLocal (name : Text) : Keeps P (fun _ => False) (readLocal name) := by
  intro m hm
  refine ⟨?_, fun _ _ => id⟩
  cases hname : m.locals name with
  | some d =>
      rw [apply_readLocal hname]
      exact hm
  | none =>
      rw [apply_readLocal_none hname]
      exact hm

theorem keeps_readReceiver (code : Text) : Keeps P (fun _ => False) (readReceiver code) := by
  unfold readReceiver
  cases receiverName code with
  | nil => exact Keeps.pure none
  | cons name rest => exact (keeps_readLocal name).bind fun _ => Keeps.pure _

/-- What a statement keeps: all that stands by what is allowed to it. -/
theorem Stmt.keeps (s : Stmt) (fuel : Nat)
    (hlocals : ∀ m locals type, P m → P { m with locals := locals, type := type })
    (hslots : s.quiet = false → ∀ m slots, P m → P { m with slots := slots })
    (hevents : ∀ m event, (∀ r t v, event = .assigned r t v → s = .assignValue t) → P m →
      P { m with events := m.events ++ [event] }) :
    Keeps P (fun _ => False) (s.exec host fuel) := by
  have hdeclare : ∀ name value, Keeps P (fun _ => False) (declare (ν := ν) (ω := ω) name value) :=
    fun name value m hm => ⟨hlocals m _ m.type hm, fun _ _ => id⟩
  have hemit : ∀ event : Event ν ω, (∀ r t v, event = .assigned r t v → s = .assignValue t) →
      Keeps P (fun _ => False) (emit event) :=
    fun event he m hm => ⟨hevents m event he hm, fun _ _ => id⟩
  have hmapM := Keeps.mapM (keeps_readLocal (P := P))
  cases s with
  | argument name slot => exact (keeps_callApi (hslots rfl) _).bind fun _ => hdeclare _ _
  | instance_ cls => exact (keeps_callApi (hslots rfl) _).bind fun _ => hdeclare _ _
  | call code =>
      refine (keeps_readReceiver code).bind fun _ => (hmapM _).bind fun _ => hemit _ ?_
      intro r t v h
      cases h
  | readMember method => exact (keeps_readLocal _).bind fun _ => hdeclare _ _
  | typeofVal =>
      exact (keeps_readLocal _).bind fun _ => fun m hm =>
        ⟨hlocals m m.locals _ hm, fun _ _ => id⟩
  | saveVal =>
      refine (keeps_readLocal _).bind fun _ => Keeps.bind ?_ fun m => keeps_callApi (hslots rfl) _
      exact fun m hm => ⟨hm, fun _ _ => id⟩
  | valuePointer => exact (keeps_callApi (hslots rfl) _).bind fun _ => hdeclare _ _
  | loadValue =>
      refine (keeps_callApi (hslots rfl) _).bind fun _ => Keeps.bind ?_ fun _ => hdeclare _ _
      exact fun m hm => ⟨hslots rfl m _ hm, fun _ _ => id⟩
  | assignValue target =>
      exact (keeps_readReceiver target).bind fun _ => (keeps_readLocal _).bind fun _ =>
        hemit _ fun r t v h => by
          cases h
          rfl
  | newForeign cls => exact keeps_callApi (hslots rfl) _
  | dynamicArgument name => exact (keeps_readLocal _).bind fun _ => hdeclare _ _
  | object cls => exact Keeps.pure ()
  | newData ps =>
      refine (hmapM ps).bind fun _ => hemit _ ?_
      intro r t v h
      cases h
  | copyData cls => exact Keeps.pure ()

theorem keeps_runStmts {fuel : Nat} {stmts : List Stmt}
    (h : ∀ s ∈ stmts, Keeps P (fun _ => False) (s.exec host fuel)) :
    Keeps P (fun _ => False) (runStmts host fuel stmts) := by
  induction stmts with
  | nil => exact Keeps.pure ()
  | cons s rest ih =>
      exact (h s List.mem_cons_self).bind fun _ => ih fun s hs => h s (List.mem_cons_of_mem _ hs)

/-- What was assigned in a run stands in the body. -/
theorem assigned_mem {f : CFunction} {slots : Slots ν ω} {r : Except SlotError Unit × Machine ν ω}
    (h : f.RunsTo host slots r) {receiver : Option (Dynamic ν ω)} {target : Text}
    {value : Dynamic ν ω} (hevent : .assigned receiver target value ∈ r.2.events) :
    .assignValue target ∈ f.body := by
  have hkeeps : ∀ fuel, Keeps (fun m : Machine ν ω => ∀ receiver target value,
      .assigned receiver target value ∈ m.events → .assignValue target ∈ f.body)
      (fun _ => False) (runStmts host fuel f.body) := by
    refine fun fuel => keeps_runStmts fun s hs => s.keeps fuel (fun _ _ _ hm => hm)
      (fun _ _ _ hm => hm) fun m event hassign hm receiver target value hmem => ?_
    rcases List.mem_append.mp hmem with hmem | hmem
    · exact hm receiver target value hmem
    · rw [← hassign receiver target value (List.mem_singleton.mp hmem).symm]
      exact hs
  refine h.2.keeps hkeeps (fun receiver target value hmem => ?_) receiver target value hevent
  cases hmem

/-! ### Reading the arguments -/

/-- What reads of some slots return, if they all return. -/
def decodings (slots : Slots ν ω) (first n : Nat) : Option (List (Dynamic ν ω)) :=
  (List.range' first n).mapM fun slot => (readSlot slots slot).1

theorem decodings_succ (slots : Slots ν ω) (first n : Nat) :
    decodings slots first (n + 1) = (readSlot slots first).1.bind fun d =>
      (decodings slots (first + 1) n).map (d :: ·) := by
  unfold decodings
  rw [List.range'_succ, List.mapM_cons]
  cases (readSlot slots first).1 with
  | none => rfl
  | some d =>
      show (List.mapM _ _ >>= fun ds => pure (d :: ds)) = Option.map _ _
      cases (List.range' (first + 1) n).mapM fun slot => (readSlot slots slot).1 <;> rfl

theorem length_decodings {slots : Slots ν ω} {first n : Nat} {ds : List (Dynamic ν ω)}
    (h : decodings slots first n = some ds) : ds.length = n := by
  induction n generalizing first ds with
  | zero =>
      rw [← Option.some.inj h]
      rfl
  | succ n ih =>
      rw [decodings_succ] at h
      obtain ⟨d, -, h⟩ := Option.bind_eq_some_iff.mp h
      obtain ⟨ds', hds', rfl⟩ := Option.map_eq_some_iff.mp h
      rw [List.length_cons, ih hds']

/-- No read changes the slots. -/
def ReadsKeep (slots : Slots ν ω) : Prop := ∀ slot, (readSlot slots slot).2 = slots

/-- **The arguments are read into their locals**, and the rest runs from there. -/
theorem settles_arguments {slots : Slots ν ω} (hkeep : ReadsKeep slots) (rest : List Stmt)
    {r : Except SlotError Unit × Machine ν ω} {ps : List Text} :
    ∀ {k : Nat} {m : Machine ν ω} {ds : List (Dynamic ν ω)}, m.slots = slots →
      decodings slots (k + 1) ps.length = some ds →
      Settles (fun fuel => runStmts host fuel rest)
        { m with locals := bindLocals m.locals ps ds } r →
      Settles (fun fuel => runStmts host fuel
        (((ps.zipIdx k).map fun a => Stmt.argument a.1 (a.2 + 1)) ++ rest)) m r := by
  induction ps with
  | nil =>
      intro k m ds _ hds hrest
      rw [← Option.some.inj hds] at hrest
      exact hrest
  | cons p ps ih =>
      intro k m ds hm hds hrest
      rw [List.length_cons, decodings_succ] at hds
      obtain ⟨d, hd, hds⟩ := Option.bind_eq_some_iff.mp hds
      obtain ⟨ds', hds', rfl⟩ := Option.map_eq_some_iff.mp hds
      rw [← hm] at hd
      have hread := settles_read (m := m) hd p
      rw [hm, hkeep (k + 1), ← hm] at hread
      exact hread.bind_ok (ih hm hds' hrest)

/-- Where an argument cannot be read nothing is done. -/
theorem settles_arguments_none {slots : Slots ν ω} (hkeep : ReadsKeep slots) (rest : List Stmt)
    {ps : List Text} :
    ∀ {k : Nat} {m : Machine ν ω}, m.slots = slots → decodings slots (k + 1) ps.length = none →
      ∃ e m', Settles (fun fuel => runStmts host fuel
          (((ps.zipIdx k).map fun a => Stmt.argument a.1 (a.2 + 1)) ++ rest)) m (.error e, m') ∧
        m'.events = m.events := by
  induction ps with
  | nil => intro k m _ hds; cases hds
  | cons p ps ih =>
      intro k m hm hds
      rw [List.length_cons, decodings_succ] at hds
      cases hd : (readSlot m.slots (k + 1)).1 with
      | none =>
          obtain ⟨e, hread⟩ := settles_read_none hd p
          exact ⟨e, _, hread.bind_error, rfl⟩
      | some d =>
          rw [← hm, hd, Option.bind_some, Option.map_eq_none_iff, hm] at hds
          have hread := settles_read (m := m) hd p
          rw [hm, hkeep (k + 1), ← hm] at hread
          obtain ⟨e, m', hsettles, hevents⟩ :=
            ih (m := { m with slots := m.slots
                              locals := Function.update m.locals p (some d) }) hm hds
          exact ⟨e, m', hread.bind_ok hsettles, hevents⟩

end Wrenegade
