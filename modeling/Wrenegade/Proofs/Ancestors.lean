/-
The members of every ancestor, registered along the superclass chain.

`createBindSuperClass` registers the members of the superclass, runs the callback at
the end of the chain, and appends the block of the superclass.  The step up passes
the same class on, so above the first ancestor it never gets anywhere: a chain of two
does not end.  On a chain of one everything is reached, and then a member keeps its
entries unless a later one has the same key.
-/
import Wrenegade.Proofs.Members
import Wrenegade.Proofs.Units

namespace Wrenegade

open Text Files Registry Run

/-! ### What is asked for -/

/-- The tables hold a field of an ancestor: its arguments, what it is called by, its
functions and their signatures. -/
structure Registered (cfg : Config) (C : ClassDecl) (t : Tables) (f : ClassField) : Prop where
  args : ∀ m ∈ f.members, t.bindMethodMap.lookup (funcName cfg C m.name.text) = some m.args
  entry : ∀ m ∈ f.members,
    t.bindCMethodMap.lookup (funcName cfg C m.name.text) = some (m.entry cfg C)
  functions : ∀ e ∈ inheritedEntries C f, foreignFunc (funcBase cfg C ++ e.key) ∈ t.foreignFuncsDec
  signatures : ∀ e ∈ inheritedEntries C f,
    t.bindSignatureMap.lookup (funcBase cfg C ++ e.key) = some e.sig

/-- Every field of every ancestor is registered. -/
def RegistersAncestors (cfg : Config) (C : LocalClass) (t : Tables) : Prop :=
  ∀ below S above, C.supers = below ++ S :: above →
    ∀ f ∈ S.typedFields above, Registered cfg C.toClassDecl t f

/-- With enough fuel a run ends, and it is the callback followed by steps that do not know
it; on the tables the callback gets, `P` holds. -/
def RunsOnce
    (run : Nat → (Tables → FileSystem → Except GenError Generated) → Except GenError Generated)
    (P : Tables → Prop) : Prop :=
  ∃ (t : Tables) (fs : FileSystem) (finish : Generated → Except GenError Generated) (n : Nat),
    P t ∧ ∀ fuel > n, ∀ cb, run fuel cb = cb t fs >>= finish

/-- No two inherited members have one key, and no two of their functions have. -/
def LocalClass.DistinctInherited (C : LocalClass) : Prop :=
  ((C.inheritedFields.flatMap ClassField.members).map fun m => toLower m.name.text).Nodup ∧
    ((C.inheritedFields.flatMap (inheritedEntries C.toClassDecl)).map Entry.key).Nodup

/-! ### Members found again -/

/-- A field is bound as one member, of its own name. -/
theorem ClassField.name_of_mem_members {f : ClassField} {m : BoundMember} (h : m ∈ f.members) :
    f.members = [m] ∧ m.name = f.name ∧ ∀ n, m.access ≠ .staticMethod n := by
  unfold ClassField.members at h ⊢
  split at h
  · cases hk : f.kind <;>
      · rw [hk] at h
        rw [List.mem_singleton] at h
        subst h
        rw [if_pos ‹_›]
        exact ⟨rfl, rfl, fun n hn => by cases hn⟩
  · cases h

/-- Inherited members have different names. -/
theorem inheritedMembers_names (C : LocalClass) :
    (C.inheritedFields.flatMap ClassField.members).Pairwise
      fun a b => a.name.text ≠ b.name.text := by
  rw [List.pairwise_flatMap]
  refine ⟨fun f _ => ?_, (inheritedFields_names C).1.imp fun hne a ha b hb => ?_⟩
  · rcases hm : f.members with _ | ⟨m, ms⟩
    · exact List.Pairwise.nil
    · have hmem : m ∈ f.members := hm ▸ List.mem_cons_self
      rw [← hm, (ClassField.name_of_mem_members hmem).1]
      exact List.pairwise_singleton _ _
  · rw [(ClassField.name_of_mem_members ha).2.1, (ClassField.name_of_mem_members hb).2.1]
    exact hne

/-- With the same arguments, what a member is called by tells its name. -/
theorem name_of_entry (cfg : Config) (C : ClassDecl) {a b : BoundMember}
    (ha : ∀ n, a.access ≠ .staticMethod n) (hb : ∀ n, b.access ≠ .staticMethod n)
    (hna : a.name.text ≠ "new") (hnb : b.name.text ≠ "new") (hargs : a.args = b.args)
    (hentry : a.entry cfg C = b.entry cfg C) : a.name.text = b.name.text := by
  have hnew : ∀ x : Ident, x.text ≠ "new" → isNew x.text = false := fun x hx =>
    Bool.eq_false_iff.mpr fun h => hx ((isNew_iff x).mp h)
  unfold BoundMember.args at hargs
  unfold BoundMember.entry at hentry
  cases hac : a.access with
  | staticMethod n => exact absurd hac (ha n)
  | instanceMethod n =>
      cases hbc : b.access with
      | staticMethod m => exact absurd hbc (hb m)
      | variable_ =>
          rw [hac, hbc] at hargs
          cases hargs
      | instanceMethod m =>
          rw [hac, hbc] at hargs hentry
          have hlength := congrArg List.length (Option.some.inj hargs)
          rw [show ∀ k, (params k).length = k by simp [params],
            show ∀ k, (params k).length = k by simp [params]] at hlength
          subst hlength
          simp only [cCall, List.append_assoc, List.append_cancel_left_eq] at hentry
          exact List.append_cancel_right hentry
  | variable_ =>
      cases hbc : b.access with
      | staticMethod m => exact absurd hbc (hb m)
      | instanceMethod m =>
          rw [hac, hbc] at hargs
          cases hargs
      | variable_ =>
          rw [hac, hbc] at hentry
          simp only [hnew _ hna, hnew _ hnb, List.append_assoc,
            List.append_cancel_left_eq] at hentry
          exact hentry

/-- Where the inherited members have different keys, each is found under its own. -/
theorem lastMember_inherited {C : LocalClass} {m : BoundMember}
    (h : ((C.inheritedFields.flatMap ClassField.members).map fun m => toLower m.name.text).Nodup)
    (hm : m ∈ C.inheritedFields.flatMap ClassField.members) :
    C.lastMember (toLower m.name.text) = some m := by
  have hfind : (C.inheritedFields.flatMap ClassField.members).reverse.find?
      (fun a => toLower a.name.text = toLower m.name.text) = some m := by
    cases hfound : (C.inheritedFields.flatMap ClassField.members).reverse.find?
        (fun a => toLower a.name.text = toLower m.name.text) with
    | none =>
        have hno := List.find?_eq_none.mp hfound m (List.mem_reverse.mpr hm)
        simp at hno
    | some a =>
        have hkey : toLower a.name.text = toLower m.name.text := by
          simpa using List.find?_some hfound
        have ha : a ∈ C.inheritedFields.flatMap ClassField.members := by
          simpa using List.mem_of_find?_eq_some hfound
        rw [List.inj_on_of_nodup_map h ha hm hkey]
  unfold LocalClass.lastMember LocalClass.members
  rw [List.reverse_append, List.find?_append, hfind]
  rfl

/-! ### A chain of one -/

section One

variable {cfg : Config} {C : LocalClass}

theorem mem_inherited_entries {f : ClassField} (hf : f ∈ C.inheritedFields) {e : SigEntry}
    (he : e ∈ inheritedEntries C.toClassDecl f) :
    e ∈ C.inheritedFields.flatMap (inheritedEntries C.toClassDecl) :=
  List.mem_flatMap.mpr ⟨f, hf, he⟩

/-- An inherited function is declared. -/
theorem declares_inherited {f : ClassField} (hf : f ∈ C.inheritedFields) {e : SigEntry}
    (he : e ∈ inheritedEntries C.toClassDecl f) :
    foreignFunc (funcBase cfg C.toClassDecl ++ e.key)
      ∈ (registration cfg C Tables.empty).foreignFuncsDec := by
  rw [(registration_represents cfg C).funcs]
  refine List.mem_map.mpr ⟨e.key, mem_decls.mpr ⟨e, ?_, ?_, rfl⟩, rfl⟩
  · exact List.mem_append_right _ (mem_inherited_entries hf he)
  · simp [Entry.published, (named_inheritedEntries C.toClassDecl f e he).2]

/-- What the three tables say of an inherited field. -/
theorem registered_iff {f : ClassField} (hf : f ∈ C.inheritedFields) :
    Registered cfg C.toClassDecl (registration cfg C Tables.empty) f ↔
      (∀ m ∈ f.members, ∃ m', C.lastMember (toLower m.name.text) = some m' ∧
        m'.args = m.args ∧ m'.entry cfg C.toClassDecl = m.entry cfg C.toClassDecl) ∧
      ∀ e ∈ inheritedEntries C.toClassDecl f, (run C.entries).sigs e.key = some e.sig := by
  have hargs : ∀ m : BoundMember,
      (registration cfg C Tables.empty).bindMethodMap.lookup (funcName cfg C.toClassDecl m.name.text)
        = (C.lastMember (toLower m.name.text)).map BoundMember.args := fun m => by
    rw [(registration_accesses cfg C).args, funcName_eq, memberAt_key]
  have hentries : ∀ m : BoundMember,
      (registration cfg C Tables.empty).bindCMethodMap.lookup
          (funcName cfg C.toClassDecl m.name.text)
        = (C.lastMember (toLower m.name.text)).map (BoundMember.entry cfg C.toClassDecl) :=
    fun m => by rw [(registration_accesses cfg C).entries, funcName_eq, memberAt_key]
  constructor
  · intro h
    refine ⟨fun m hm => ?_, fun e he => ?_⟩
    · have ha := h.args m hm
      have he := h.entry m hm
      rw [hargs, Option.map_eq_some_iff] at ha
      rw [hentries, Option.map_eq_some_iff] at he
      obtain ⟨m', hm', ha⟩ := ha
      obtain ⟨m'', hm'', he⟩ := he
      rw [hm', Option.some.injEq] at hm''
      subst hm''
      exact ⟨m', hm', ha, he⟩
    · rw [← (registration_represents cfg C).signatures]
      exact h.signatures e he
  · rintro ⟨hmembers, hsigs⟩
    refine ⟨fun m hm => ?_, fun m hm => ?_, fun e he => declares_inherited hf he, fun e he => ?_⟩
    · obtain ⟨m', hm', ha, -⟩ := hmembers m hm
      rw [hargs, hm', Option.map_some, ha]
    · obtain ⟨m', hm', -, he⟩ := hmembers m hm
      rw [hentries, hm', Option.map_some, he]
    · rw [(registration_represents cfg C).signatures]
      exact hsigs e he

/-- **The members of the one ancestor are registered exactly when no two share a key.** -/
theorem registered_all_iff :
    (∀ f ∈ C.inheritedFields,
        Registered cfg C.toClassDecl (registration cfg C Tables.empty) f) ↔
      C.DistinctInherited := by
  constructor
  · intro h
    have hmember : ∀ m ∈ C.inheritedFields.flatMap ClassField.members,
        m.name.text ≠ "new" ∧ (∀ n, m.access ≠ .staticMethod n) ∧
          ∃ m', C.lastMember (toLower m.name.text) = some m' ∧
            m'.args = m.args ∧ m'.entry cfg C.toClassDecl = m.entry cfg C.toClassDecl := by
      intro m hm
      obtain ⟨f, hf, hm⟩ := List.mem_flatMap.mp hm
      obtain ⟨-, hname, hstatic⟩ := ClassField.name_of_mem_members hm
      refine ⟨?_, hstatic, ((registered_iff hf).mp (h f hf)).1 m hm⟩
      rw [hname]
      exact (inheritedFields_names C).2 f hf
    constructor
    · rw [List.Nodup, List.pairwise_map]
      refine (inheritedMembers_names C).imp_of_mem fun {a b} ha hb hne hkey => hne ?_
      obtain ⟨hna, hsa, m, hm, haargs, haentry⟩ := hmember a ha
      obtain ⟨hnb, hsb, m', hm', hbargs, hbentry⟩ := hmember b hb
      rw [← hkey, hm, Option.some.injEq] at hm'
      subst hm'
      exact name_of_entry cfg C.toClassDecl hsa hsb hna hnb (haargs.symm.trans hbargs)
        (haentry.symm.trans hbentry)
    · have hsigs : ∀ e ∈ C.inheritedFields.flatMap (inheritedEntries C.toClassDecl),
          (run C.entries).sigs e.key = some e.sig := by
        intro e he
        obtain ⟨f, hf, he⟩ := List.mem_flatMap.mp he
        exact ((registered_iff hf).mp (h f hf)).2 e he
      have hpairs : (C.inheritedFields.flatMap (inheritedEntries C.toClassDecl)).Pairwise
          fun a b => a.sig ≠ b.sig := by
        rw [List.pairwise_flatMap]
        refine ⟨fun f _ => inheritedEntries_pairwise _ f,
          (inheritedFields_names C).1.imp fun hne a ha b hb => ?_⟩
        exact sig_ne_of_name_ne (named_inheritedEntries _ _ a ha).1
          (named_inheritedEntries _ _ b hb).1 hne
      rw [List.Nodup, List.pairwise_map]
      refine hpairs.imp_of_mem fun {a b} ha hb hne hkey => hne ?_
      have hsig := hsigs a ha
      rw [hkey, hsigs b hb, Option.some.injEq] at hsig
      exact hsig.symm
  · rintro ⟨hmembers, hkeys⟩ f hf
    refine (registered_iff hf).mpr ⟨fun m hm => ?_, fun e he => ?_⟩
    · exact ⟨m, lastMember_inherited hmembers (List.mem_flatMap.mpr ⟨f, hf, hm⟩), rfl, rfl⟩
    · exact sigs_of_nodup_append hkeys (mem_inherited_entries hf he)

end One

/-! ### Every chain -/

/--
**When the superclass path reaches every ancestor.**  For a class with a chain of bound
superclasses of any length, the run on the tables of its own fields ends, runs the
callback once and has every member of every ancestor registered by then, if and only
if the chain has one superclass and no two members inherited from it share a key.
-/
theorem createBindSuperClass_iff (cfg : Config) (C : LocalClass) {S : ClassDecl}
    {above : List ClassDecl} (hchain : C.supers = S :: above) (fs : FileSystem) :
    RunsOnce (fun fuel cb => createBindSuperClass cfg C.toClassDecl S above cb fuel
        (registerFields cfg C.toClassDecl Tables.empty) fs) (RegistersAncestors cfg C) ↔
      above = [] ∧ C.DistinctInherited := by
  have hinherited : C.inheritedFields = S.typedFields above := by
    rw [LocalClass.inheritedFields, hchain]
  have htables : (registerInherited cfg C.toClassDecl S above
      (registerFields cfg C.toClassDecl Tables.empty)).tables = registration cfg C Tables.empty := by
    rw [registration, hchain]
  constructor
  · rintro ⟨t, fs', finish, n, hregisters, hrun⟩
    have habove : above = [] := by
      by_contra hdeep
      have hstuck := hrun (n + 1) (Nat.lt_succ_self n) fun _ _ => .error .nullAccess
      simp only [createBindSuperClass_deep hdeep] at hstuck
      cases hstuck
    subst habove
    refine ⟨rfl, (@registered_all_iff cfg _).mp ?_⟩
    -- a callback that tells tables apart gives away which ones it gets
    have ht : t = registration cfg C Tables.empty := by
      classical
      by_contra hne
      have hgiven := hrun (n + 1) (Nat.lt_succ_self n) fun t' _ =>
        if t' = registration cfg C Tables.empty then .error .nullAccess else .error .outOfFuel
      simp only [createBindSuperClass, htables, if_neg hne, if_pos] at hgiven
      cases hgiven
    rw [← ht, hinherited]
    exact hregisters [] S [] hchain
  · rintro ⟨rfl, hdistinct⟩
    refine ⟨registration cfg C Tables.empty, fs, fun r => do
      let fs ← appendSuperBlock cfg C.toClassDecl S.name.text
        (registerInherited cfg C.toClassDecl S []
          (registerFields cfg C.toClassDecl Tables.empty)).signatures
        (registerInherited cfg C.toClassDecl S []
          (registerFields cfg C.toClassDecl Tables.empty)).constructorParamSize r.fs
      .ok { r with fs }, 0, ?_, ?_⟩
    · intro below S' above' hsplit
      obtain ⟨rfl, rfl, rfl⟩ : below = [] ∧ S' = S ∧ above' = [] := by
        rw [hchain] at hsplit
        cases below with
        | nil =>
            obtain ⟨rfl, rfl⟩ := List.cons.inj hsplit
            exact ⟨rfl, rfl, rfl⟩
        | cons B bs => simp at hsplit
      rw [← hinherited]
      exact registered_all_iff.mpr hdistinct
    · intro fuel hfuel cb
      obtain ⟨fuel, rfl⟩ := Nat.exists_eq_succ_of_ne_zero (Nat.ne_of_gt hfuel)
      rw [← htables]
      rfl

namespace Sample

/-- `MyClass` reaches its one ancestor. -/
theorem createBindSuperClass_myClass :
    RunsOnce (fun fuel cb => createBindSuperClass config myClass.toClassDecl
        mySuperClass.toClassDecl [] cb fuel
        (registerFields config myClass.toClassDecl Tables.empty) noFiles)
      (RegistersAncestors config myClass) := by
  refine (createBindSuperClass_iff config myClass rfl noFiles).mpr ⟨rfl, ?_, ?_⟩
  · decide
  · decide

/-- `myclass.MyLowerClass`, two classes below `WrenClass`. -/
def myLowerClass : LocalClass where
  toClassDecl := (bareClass [myclass] (typeName "MyLowerClass")).toClassDecl
  supers := [myClass.toClassDecl, mySuperClass.toClassDecl]
  distinct := by decide

/-- It never gets to the callback, however long it runs. -/
theorem myLowerClass_not_runsOnce :
    (∀ fuel cb, createBindSuperClass config myLowerClass.toClassDecl myClass.toClassDecl
        [mySuperClass.toClassDecl] cb fuel
        (registerFields config myLowerClass.toClassDecl Tables.empty) noFiles
          = .error .outOfFuel) ∧
      ¬ RunsOnce (fun fuel cb => createBindSuperClass config myLowerClass.toClassDecl
          myClass.toClassDecl [mySuperClass.toClassDecl] cb fuel
          (registerFields config myLowerClass.toClassDecl Tables.empty) noFiles)
        (RegistersAncestors config myLowerClass) := by
  have hstuck : ∀ fuel cb, createBindSuperClass config myLowerClass.toClassDecl
      myClass.toClassDecl [mySuperClass.toClassDecl] cb fuel
      (registerFields config myLowerClass.toClassDecl Tables.empty) noFiles
        = .error .outOfFuel := fun fuel cb =>
    createBindSuperClass_deep (List.cons_ne_nil _ _) cb fuel _ _
  refine ⟨hstuck, ?_⟩
  rintro ⟨t, fs, finish, n, -, hrun⟩
  have hend := hrun (n + 1) (Nat.lt_succ_self n) fun _ _ => .error .nullAccess
  simp only [hstuck] at hend
  cases hend

end Sample

end Wrenegade
