/-
The block of a superclass, described twice.

The run of a class `S` prints the members it finds among the build fields of `S`,
by their modifiers.  The run of a class below `S` prints them again from the typed
fields, by `isPublic`, with its own name in front and then replaced by that of
`S`.  The two blocks have the same lines when three things hold: every member is
exported by the one exactly if it is inherited by the other, no exported member
loses its function to a later one, and the replacement touches no member name.
-/
import Wrenegade.Proofs.Externs

namespace Wrenegade

open Text Registry

/-! ### The members of the two views -/

/-- The run of the class itself exports the member. -/
def Field.isExported (f : Field) : Bool :=
  match f.kind with
  | .fFun _ =>
      (isInstanceAccess f.access && !isNew f.name.text) || isExportedStatic f.access f.name.text
  | .fVar => decide (f.name.text ≠ ("instance" : Text) ∧ f.access = [.aPublic])
  | .fProp => false

/-- The member of a class directly below `WrenClass` is a public instance member. -/
def Field.isInherited (f : Field) : Bool :=
  !f.access.contains .aStatic && decide (f.name.text ≠ ("new" : Text)) &&
    ClassDecl.isPublicField [] f

/-- What the typed view makes of a member. -/
def Field.typed (f : Field) : ClassField where
  name := f.name
  isPublic := ClassDecl.isPublicField [] f
  kind := match f.kind with
    | .fFun n => .fMethod n
    | .fVar => .fVar
    | .fProp => .fVar

/-- The two descriptions of `S` are those of one class, seen from a class `C` below it. -/
structure Mirrored (C S : ClassDecl) : Prop where
  same : ∀ f ∈ S.fields, f.isExported = f.isInherited
  unshadowed : (S.fields.flatMap (ownEntries S)).Pairwise fun a b =>
    a.published = true → a.key ≠ b.key
  kept : C.name.text = S.name.text ∨
    ∀ f ∈ S.fields, f.isInherited = true → ¬ C.name.text <:+: f.name.text

theorem mem_typedFields {S : ClassDecl} {P : ClassField → Prop} :
    (∃ f ∈ S.typedFields [], f.isPublic = true ∧ P f) ↔
      ∃ f ∈ S.fields, f.isInherited = true ∧ P f.typed := by
  constructor
  · rintro ⟨f, hf, hpub, hP⟩
    obtain ⟨g, hg, rfl⟩ := List.mem_map.mp hf
    obtain ⟨hg, hkeep⟩ := List.mem_filter.mp hg
    exact ⟨g, hg, by rw [Field.isInherited, hkeep]; exact hpub, hP⟩
  · rintro ⟨g, hg, hin, hP⟩
    rw [Field.isInherited, Bool.and_eq_true] at hin
    exact ⟨g.typed, List.mem_map.mpr ⟨g, List.mem_filter.mpr ⟨hg, hin.1⟩, rfl⟩, hin.2, hP⟩

theorem not_static_of_isStaticAccess {access : List Access} (h : isStaticAccess access = true) :
    access.contains .aStatic = true := by
  unfold isStaticAccess at h
  split at h
  · decide
  · decide
  · decide
  · cases h

theorem isExported_of_published {S : ClassDecl} {f : Field} {e : SigEntry}
    (he : e ∈ ownEntries S f) (hpub : e.published = true) : f.isExported = true := by
  rw [Field.isExported]
  rw [ownEntries] at he
  cases hk : f.kind with
  | fProp => simp [hk] at he
  | fVar =>
      simp only [hk] at he
      split at he
      · rename_i hexp
        exact decide_eq_true hexp
      · simp at he
  | fFun n =>
      simp only [hk] at he
      split at he
      · rename_i hi
        rw [List.mem_singleton] at he
        cases hn : isNew f.name.text with
        | true => simp [he, hn, methodEntry, Entry.published] at hpub
        | false => simp [hi]
      · split at he
        · rename_i hs
          simp [hs]
        · simp at he

/-- Of a member that both views have, every signature is published by the one and printed by the
other. -/
theorem ownEntries_of_inherited (S : ClassDecl) {f : Field} (hexp : f.isExported = true)
    (hin : f.isInherited = true) :
    (∀ e ∈ ownEntries S f, e.published = true) ∧
      (ownEntries S f).map Entry.sig = (inheritedEntries S f.typed).map Entry.sig := by
  rw [Field.isInherited, Bool.and_eq_true, Bool.and_eq_true] at hin
  obtain ⟨⟨hstatic, -⟩, hpub⟩ := hin
  have hinh : f.typed.isPublic = true := hpub
  rw [Field.isExported] at hexp
  rw [inheritedEntries, if_pos hinh]
  cases hk : f.kind with
  | fProp =>
      rw [hk] at hexp
      exact Bool.noConfusion hexp
  | fVar =>
      rw [hk] at hexp
      have hown : ownEntries S f = variableEntries S f.name.text := by
        rw [ownEntries, hk]
        exact if_pos (of_decide_eq_true hexp)
      rw [hown, Field.typed, hk]
      refine ⟨fun e he => ?_, rfl⟩
      simp [Entry.published, (named_variableEntries S f.name e he).2]
  | fFun n =>
      -- what is inherited is not static
      have hs : isExportedStatic f.access f.name.text = false := by
        refine Bool.eq_false_of_not_eq_true fun hs => ?_
        simp only [isExportedStatic, Bool.and_eq_true] at hs
        rw [not_static_of_isStaticAccess hs.1.1.1] at hstatic
        exact Bool.noConfusion hstatic
      simp only [hk, hs, Bool.or_false, Bool.and_eq_true, Bool.not_eq_true'] at hexp
      obtain ⟨hi, hn⟩ := hexp
      have hown : ownEntries S f
          = [methodEntry .once f.name.text (methodSignature S.name.text f.name.text n)] := by
        rw [ownEntries, hk]
        simp [hi, hn]
      rw [hown, Field.typed, hk]
      refine ⟨fun e he => ?_, rfl⟩
      rw [List.mem_singleton] at he
      rw [he]
      rfl

/-- Of a member that both views have or both leave out, they have the same signatures. -/
theorem ownEntries_of_same (S : ClassDecl) {f : Field} (h : f.isExported = f.isInherited)
    (sig : Text) :
    (∃ e ∈ ownEntries S f, e.published = true ∧ e.sig = sig) ↔
      f.isInherited = true ∧ ∃ e ∈ inheritedEntries S f.typed, e.sig = sig := by
  cases hin : f.isInherited with
  | true =>
      obtain ⟨hpub, hsigs⟩ := ownEntries_of_inherited S (h.trans hin) hin
      have hmem : sig ∈ (ownEntries S f).map Entry.sig ↔
          sig ∈ (inheritedEntries S f.typed).map Entry.sig := by
        rw [hsigs]
      rw [List.mem_map, List.mem_map] at hmem
      constructor
      · rintro ⟨e, he, -, hsig⟩
        exact ⟨rfl, hmem.mp ⟨e, he, hsig⟩⟩
      · rintro ⟨-, hex⟩
        obtain ⟨e, he, hsig⟩ := hmem.mpr hex
        exact ⟨e, he, hpub e he, hsig⟩
  | false =>
      refine iff_of_false ?_ fun hex => Bool.noConfusion hex.1
      rintro ⟨e, he, hpub, -⟩
      rw [hin, isExported_of_published he hpub] at h
      exact Bool.noConfusion h

/-! ### Renaming -/

/-- Some character of a type name stands in no signature but in names. -/
theorem exists_mem_name (c : TypeIdent) : ∃ x ∈ c.text, x ∉ ("(_,)=" : Text) := by
  by_contra hnone
  simp only [not_exists, not_and, not_not] at hnone
  have hall : ∀ x ∈ c.text, x = '_' := by
    intro x hx
    have hident := c.isIdentChar_of_mem hx
    have hmem := hnone x hx
    have hlit : ("(_,)=" : Text) = ['(', '_', ',', ')', '='] := by decide
    rw [hlit] at hmem
    simp only [List.mem_cons, List.not_mem_nil, or_false] at hmem
    rcases hmem with rfl | rfl | rfl | rfl | rfl
    · exact absurd hident (by decide)
    · rfl
    · exact absurd hident (by decide)
    · exact absurd hident (by decide)
    · exact absurd hident (by decide)
  have hlower := isLowerIdent_underscores c.ne_nil hall
  rw [c.upper] at hlower
  exact Bool.noConfusion hlower

/-- Renaming the class renames the member as well, and nothing else. -/
theorem replace_memberSignature (c s : TypeIdent) (x : Ident) {m : Member} (hm : m.mark = []) :
    replace (memberSignature c.text x.text m) c.text s.text
      = s.text ++ "." ++ replace x.text c.text s.text ++ m.tail := by
  have hdot : '.' ∉ c.text := c.not_mem (by decide)
  have htail : replace (x.text ++ m.tail) c.text s.text
      = replace x.text c.text s.text ++ m.tail := by
    obtain ⟨y, hy, hyt⟩ := exists_mem_name c
    have hkeep : ∀ t : Text, (∀ z ∈ t, z ∈ m.tail) → replace t c.text s.text = t := fun t ht =>
      replace_of_not_mem hy (fun hmem => m.not_mem_tail hyt (ht y hmem)) _
    cases htl : m.tail with
    | nil => rw [List.append_nil, List.append_nil]
    | cons d t =>
        have hd : d ∉ c.text := by
          intro hmem
          have hident := c.isIdentChar_of_mem hmem
          cases m with
          | method st n =>
              have hd : d = '(' := (List.cons.inj (htl : '(' :: _ = d :: t)).1.symm
              rw [hd] at hident
              exact absurd hident (by decide)
          | setter =>
              have hd : d = '=' := (List.cons.inj (htl : '=' :: _ = d :: t)).1.symm
              rw [hd] at hident
              exact absurd hident (by decide)
          | getter => cases htl
        rw [replace_append_cons c.ne_nil hd, hkeep t fun z hz => by rw [htl]; simp [hz]]
  have hsig : memberSignature c.text x.text m = c.text ++ '.' :: (x.text ++ m.tail) := by
    rw [memberSignature_eq c.toIdent x m, hm]
    simp
  rw [hsig, replace_append_self c.ne_nil,
    ← List.nil_append ('.' :: (x.text ++ m.tail)), replace_append_cons c.ne_nil hdot, htail,
    replace_nil c.ne_nil]
  simp

theorem replace_self {s a : Text} (ha : a ≠ []) : replace s a a = s := join_split ha s

/-- A member whose name is left alone has the signature it has in `S`. -/
theorem rename_memberSignature {c s : TypeIdent} {x : Ident} {m : Member} (hm : m.mark = [])
    (h : c.text = s.text ∨ ¬ c.text <:+: x.text) :
    replace (memberSignature c.text x.text m) c.text s.text = memberSignature s.text x.text m := by
  have hname : replace x.text c.text s.text = x.text := by
    rcases h with h | h
    · rw [h]
      exact replace_self s.ne_nil
    · exact replace_of_not_infix c.ne_nil h _
  rw [replace_memberSignature c s x hm, hname, memberSignature_eq s.toIdent x m, hm]
  rfl

theorem rename_inheritedEntries {C S : ClassDecl} {f : ClassField}
    (h : C.name.text = S.name.text ∨ ¬ C.name.text <:+: f.name.text) :
    (inheritedEntries C f).map (fun e => replace e.sig C.name.text S.name.text)
      = (inheritedEntries S f).map Entry.sig := by
  have hsig : ∀ m : Member, m.mark = [] →
      replace (memberSignature C.name.text f.name.text m) C.name.text S.name.text
        = memberSignature S.name.text f.name.text m := fun m hm =>
    rename_memberSignature hm h
  rw [inheritedEntries, inheritedEntries]
  split
  · cases f.kind with
    | fMethod n => exact congrArg (· :: []) (hsig (.method false n) rfl)
    | fVar =>
        exact congrArg₂ (fun a b => a :: b :: []) (hsig .setter rfl) (hsig .getter rfl)
  · rfl

/-! ### The lines of the two blocks -/

section Lines

variable {cfg : Config} {C S : LocalClass}

/-- The signatures printed for a class are those at the declared keys. -/
theorem mem_ownLines {line : Text} :
    line ∈ ownLines cfg S ↔ ∃ k ∈ (run S.entries).decls, ∃ sig,
      (run S.entries).sigs k = some sig ∧ externLine S.name.text sig = line := by
  obtain ⟨hfuncs, -, hsigs⟩ := registration_represents cfg S
  have hmap : (registration cfg S Tables.empty).foreignFuncsDec.map (fun func =>
      (registration cfg S Tables.empty).bindSignatureMap.lookup (funcSig func))
        = (run S.entries).decls.map fun k =>
            (registration cfg S Tables.empty).bindSignatureMap.lookup
              (funcBase cfg S.toClassDecl ++ k) := by
    rw [hfuncs]
    exact map_foreignFunc (fun name =>
      (registration cfg S Tables.empty).bindSignatureMap.lookup name) (entry_of_decl S)
  have hid : ∀ (l : List Text) (f : Text → Option Text),
      l.filterMap f = (l.map f).filterMap id := by
    intro l f
    rw [List.filterMap_map]
    rfl
  have hlines : ownLines cfg S = (((run S.entries).decls.map fun k =>
      (registration cfg S Tables.empty).bindSignatureMap.lookup
        (funcBase cfg S.toClassDecl ++ k)).filterMap id).map (externLine S.name.text) := by
    rw [← hmap, ← hid]
    rfl
  rw [hlines, List.mem_map]
  constructor
  · rintro ⟨sig, hsig, rfl⟩
    obtain ⟨o, ho, hid⟩ := List.mem_filterMap.mp hsig
    obtain ⟨k, hk, rfl⟩ := List.mem_map.mp ho
    exact ⟨k, hk, sig, (hsigs k).symm.trans hid, rfl⟩
  · rintro ⟨k, hk, sig, hsig, rfl⟩
    refine ⟨sig, List.mem_filterMap.mpr ⟨_, List.mem_map_of_mem hk, ?_⟩, rfl⟩
    exact (hsigs k).trans hsig

/-- When no exported member loses its function, all of them have their line. -/
theorem mem_ownLines_of_unshadowed
    (h : S.entries.Pairwise fun a b => a.published = true → a.key ≠ b.key) {line : Text} :
    line ∈ ownLines cfg S ↔ ∃ e ∈ S.entries, e.published = true ∧
      externLine S.name.text e.sig = line := by
  rw [mem_ownLines]
  constructor
  · rintro ⟨k, hk, sig, hsig, rfl⟩
    obtain ⟨e, he, hpub, rfl⟩ := mem_decls.mp hk
    rw [sigs_of_unshadowed h he hpub, Option.some.injEq] at hsig
    exact ⟨e, he, hpub, by rw [hsig]⟩
  · rintro ⟨e, he, hpub, rfl⟩
    exact ⟨e.key, mem_decls.mpr ⟨e, he, hpub, rfl⟩, e.sig, sigs_of_unshadowed h he hpub, rfl⟩

theorem mem_superLines (hC : C.supers = [S.toClassDecl])
    (hkept : C.name.text = S.name.text ∨
      ∀ f ∈ S.fields, f.isInherited = true → ¬ C.name.text <:+: f.name.text) {line : Text} :
    line ∈ superLines cfg C ↔ ∃ f ∈ S.fields, f.isInherited = true ∧
      ∃ e ∈ inheritedEntries S.toClassDecl f.typed, externLine S.name.text e.sig = line := by
  have hpublic : ∀ f : ClassField, (∃ e ∈ inheritedEntries C.toClassDecl f,
      externLine S.name.text (replace e.sig C.name.text S.name.text) = line) ↔
        f.isPublic = true ∧ ∃ sig ∈ (inheritedEntries C.toClassDecl f).map
          (fun e => replace e.sig C.name.text S.name.text), externLine S.name.text sig = line := by
    intro f
    constructor
    · rintro ⟨e, he, hline⟩
      refine ⟨?_, _, List.mem_map_of_mem he, hline⟩
      by_contra hpub
      rw [inheritedEntries, if_neg hpub] at he
      simp at he
    · rintro ⟨-, sig, hsig, hline⟩
      obtain ⟨e, he, rfl⟩ := List.mem_map.mp hsig
      exact ⟨e, he, hline⟩
  have hlines : line ∈ superLines cfg C ↔ ∃ f ∈ S.typedFields [], ∃ e ∈
      inheritedEntries C.toClassDecl f,
        externLine S.name.text (replace e.sig C.name.text S.name.text) = line := by
    rw [superLines, hC]
    simp only [registerInherited_signatures, List.map_map, List.mem_map, List.mem_flatMap,
      Function.comp_apply]
    constructor
    · rintro ⟨e, ⟨f, hf, he⟩, hline⟩
      exact ⟨f, hf, e, he, hline⟩
    · rintro ⟨f, hf, e, he, hline⟩
      exact ⟨e, ⟨f, hf, he⟩, hline⟩
  rw [hlines]
  simp only [hpublic]
  rw [mem_typedFields (P := fun f => ∃ sig ∈ (inheritedEntries C.toClassDecl f).map
    (fun e => replace e.sig C.name.text S.name.text), externLine S.name.text sig = line)]
  refine exists_congr fun f => and_congr_right fun hf => and_congr_right fun hin => ?_
  have hname : C.name.text = S.name.text ∨ ¬ C.name.text <:+: f.typed.name.text :=
    hkept.imp_right fun h => h f hf hin
  rw [rename_inheritedEntries hname]
  simp

end Lines

/-! ### When they agree -/

/-- The superclass block of `C` has the lines of the block of `S`, and each of them is bound
in the unit of `S`. -/
structure SuperBlockAgrees (cfg : Config) (C S : LocalClass) (u : CppUnit) : Prop where
  lines : ∀ line, line ∈ superLines cfg C ↔ line ∈ ownLines cfg S
  bound : ∀ line ∈ superLines cfg C, ∃ b ∈ u.bindMethod, externLine S.name.text b.1 = line

/--
**The two blocks of a superclass agree when its members are mirrored**: for every class
`S` directly below `WrenClass`, every class `C` below it, and every run of the macro on
`S`.
-/
theorem bind_superBlockAgrees {fuel : Nat} {cfg : Config} {g g' : Gen} {C S : LocalClass}
    (h : bind fuel cfg g S = .ok g') (hS : S.supers = []) (hC : C.supers = [S.toClassDecl])
    (hmirror : Mirrored C.toClassDecl S.toClassDecl) :
    ∃ u, g'.units = g.units ++ [u] ∧ SuperBlockAgrees cfg C S u.cpp := by
  obtain ⟨u, n, hunits, hunit, -⟩ := bind_unit h
  obtain ⟨-, -, -, hbind⟩ := genUnit_registry hunit
  have hentries : S.entries = S.fields.flatMap (ownEntries S.toClassDecl) := by
    simp [LocalClass.entries, LocalClass.inheritedFields, hS]
  have hlines : ∀ line, line ∈ superLines cfg C ↔ line ∈ ownLines cfg S := by
    intro line
    have hun := hmirror.unshadowed
    rw [← hentries] at hun
    rw [mem_superLines hC hmirror.kept, mem_ownLines_of_unshadowed hun, hentries]
    constructor
    · rintro ⟨f, hf, hin, e, he, rfl⟩
      obtain ⟨a, ha, hpub, hsig⟩ :=
        (ownEntries_of_same S.toClassDecl (hmirror.same f hf) e.sig).mpr ⟨hin, e, he, rfl⟩
      exact ⟨a, List.mem_flatMap.mpr ⟨f, hf, ha⟩, hpub, by rw [hsig]⟩
    · rintro ⟨a, ha, hpub, rfl⟩
      obtain ⟨f, hf, ha⟩ := List.mem_flatMap.mp ha
      obtain ⟨hin, e, he, hsig⟩ :=
        (ownEntries_of_same S.toClassDecl (hmirror.same f hf) a.sig).mp ⟨a, ha, hpub, rfl⟩
      exact ⟨f, hf, hin, e, he, by rw [hsig]⟩
  refine ⟨u, hunits, hlines, fun line hline => ?_⟩
  obtain ⟨k, hk, sig, hsig, rfl⟩ := mem_ownLines.mp ((hlines line).mp hline)
  refine ⟨(sig, funcBase cfg S.toClassDecl ++ k), ?_, rfl⟩
  rw [hbind]
  refine List.mem_map.mpr ⟨(some sig, k), ?_, rfl⟩
  exact List.mem_map.mpr ⟨k, hk, by rw [hsig]⟩

/-! ### Nothing less will do -/

/-- The line of a member without underscores names the member. -/
theorem name_of_externLine {c x y : Ident} {m m' : Member} (hx : '_' ∉ x.text) (hy : '_' ∉ y.text)
    (h : externLine c.text (memberSignature c.text x.text m)
      = externLine c.text (memberSignature c.text y.text m')) : x.text = y.text := by
  have hprint : ∀ (z : Ident) (k : Member), '_' ∉ z.text →
      externLine c.text (memberSignature c.text z.text k)
        = "\tforeign " ++ (k.mark ++ (z.text ++ (numberArgs 0 k.tail ++ "\n"))) := by
    intro z k hz
    have hmark : '_' ∉ k.mark ∧ ',' ∉ k.mark := by
      unfold Member.mark
      split <;> decide
    rw [externLine_member, numberArgs_append hmark.1 hmark.2,
      numberArgs_append hz (z.not_mem (by decide))]
    simp only [List.append_assoc]
  have hmarks : ∀ k : Member, k.mark = [] ∨ k.mark = "static " := by
    intro k
    unfold Member.mark
    split
    · exact Or.inr rfl
    · exact Or.inl rfl
  have hspace : ∀ (z : Ident) (k : Member), ' ' ∉ z.text ++ (numberArgs 0 k.tail ++ "\n") := by
    intro z k
    rw [List.mem_append, List.mem_append, not_or, not_or]
    exact ⟨z.not_mem (by decide),
      not_mem_numberArgs (by decide) (k.not_mem_tail (by decide)) 0, by decide⟩
  have hname : ∀ (z : Ident) (k : Member),
      (z.text ++ (numberArgs 0 k.tail ++ "\n")).takeWhile isIdentChar = z.text := by
    intro z k
    rw [List.takeWhile_append_of_pos fun d hd => z.isIdentChar_of_mem hd]
    have htail : (numberArgs 0 k.tail ++ ("\n" : Text)).takeWhile isIdentChar = [] := by
      cases k with
      | method st n => rfl
      | setter => rfl
      | getter => rfl
    rw [htail, List.append_nil]
  rw [hprint x m hx, hprint y m' hy] at h
  have h := List.append_cancel_left h
  -- only a static member has a space behind its mark
  have hrest : x.text ++ (numberArgs 0 m.tail ++ "\n") = y.text ++ (numberArgs 0 m'.tail ++ "\n") := by
    rcases hmarks m with hm | hm <;> rcases hmarks m' with hm' | hm' <;> rw [hm, hm'] at h
    · exact h
    · refine absurd ?_ (hspace x m)
      rw [List.nil_append] at h
      rw [h]
      exact List.mem_append_left _ (by decide)
    · refine absurd ?_ (hspace y m')
      rw [List.nil_append] at h
      rw [← h]
      exact List.mem_append_left _ (by decide)
    · exact List.append_cancel_left h
  rw [← hname x m, hrest, hname y m']

/-- The exported members are those with an entry that is declared. -/
theorem exists_published (S : ClassDecl) {f : Field} (h : f.isExported = true) :
    ∃ e ∈ ownEntries S f, e.published = true := by
  rw [Field.isExported] at h
  rw [ownEntries]
  cases hk : f.kind with
  | fProp =>
      rw [hk] at h
      exact Bool.noConfusion h
  | fVar =>
      rw [hk, decide_eq_true_eq] at h
      simp only [if_pos h]
      exact ⟨_, List.mem_cons_self, rfl⟩
  | fFun n =>
      simp only [hk, Bool.or_eq_true, Bool.and_eq_true, Bool.not_eq_true'] at h
      rcases h with ⟨hi, hn⟩ | hs
      · simp only [hi, hn, if_true]
        exact ⟨_, List.mem_cons_self, rfl⟩
      · have hi : isInstanceAccess f.access = false := by
          by_contra hi
          rw [isExportedStatic, isStaticAccess_of_instance (by simpa using hi)] at hs
          exact Bool.noConfusion hs
        simp only [hi, hs, if_true]
        exact ⟨_, List.mem_cons_self, rfl⟩

theorem exists_inherited (S : ClassDecl) {f : Field} (h : f.isInherited = true) :
    ∃ e, e ∈ inheritedEntries S f.typed := by
  rw [Field.isInherited, Bool.and_eq_true] at h
  have hpub : f.typed.isPublic = true := h.2
  rw [inheritedEntries, if_pos hpub]
  cases f.typed.kind with
  | fMethod n => exact ⟨_, List.mem_cons_self⟩
  | fVar => exact ⟨_, List.mem_cons_self⟩

/-- **Where no name is renamed, shadowed or holds an underscore, the blocks agree only if
every member is exported exactly if it is inherited.** -/
theorem same_of_lines {cfg : Config} {C S : LocalClass} (hS : S.supers = [])
    (hC : C.supers = [S.toClassDecl]) (hu : ∀ f ∈ S.fields, '_' ∉ f.name.text)
    (hkept : C.name.text = S.name.text ∨
      ∀ f ∈ S.fields, f.isInherited = true → ¬ C.name.text <:+: f.name.text)
    (hun : (S.fields.flatMap (ownEntries S.toClassDecl)).Pairwise fun a b =>
      a.published = true → a.key ≠ b.key)
    (h : ∀ line, line ∈ superLines cfg C ↔ line ∈ ownLines cfg S) :
    ∀ f ∈ S.fields, f.isExported = f.isInherited := by
  have hentries : S.entries = S.fields.flatMap (ownEntries S.toClassDecl) := by
    simp [LocalClass.entries, LocalClass.inheritedFields, hS]
  have hown : ∀ line, line ∈ ownLines cfg S ↔ ∃ f ∈ S.fields, ∃ e ∈ ownEntries S.toClassDecl f,
      e.published = true ∧ externLine S.name.text e.sig = line := by
    intro line
    rw [← hentries] at hun
    rw [mem_ownLines_of_unshadowed hun, hentries]
    simp only [List.mem_flatMap]
    constructor
    · rintro ⟨e, ⟨f, hf, he⟩, hline⟩
      exact ⟨f, hf, e, he, hline⟩
    · rintro ⟨f, hf, e, he, hline⟩
      exact ⟨e, ⟨f, hf, he⟩, hline⟩
  have hinj : ∀ f ∈ S.fields, ∀ g ∈ S.fields, f.name.text = g.name.text → f = g :=
    fun f hf g hg => List.inj_on_of_nodup_map S.nodup hf hg
  intro f hf
  rw [Bool.eq_iff_iff]
  constructor
  · intro hexp
    obtain ⟨e, he, hpub⟩ := exists_published S.toClassDecl hexp
    obtain ⟨g, hg, hin, e', he', hline⟩ := (mem_superLines hC hkept).mp
      ((h _).mpr ((hown _).mpr ⟨f, hf, e, he, hpub, rfl⟩))
    obtain ⟨m, hm⟩ := ownEntries_member he
    obtain ⟨m', hm'⟩ := inheritedEntries_member he'
    rw [hm, hm'] at hline
    rw [hinj f hf g hg (name_of_externLine (c := S.name.toIdent) (hu f hf) (hu g hg) hline.symm)]
    exact hin
  · intro hin
    obtain ⟨e, he⟩ := exists_inherited S.toClassDecl hin
    obtain ⟨g, hg, e', he', hpub, hline⟩ := (hown _).mp
      ((h _).mp ((mem_superLines hC hkept).mpr ⟨f, hf, hin, e, he, rfl⟩))
    obtain ⟨m, hm⟩ := inheritedEntries_member he
    obtain ⟨m', hm'⟩ := ownEntries_member he'
    rw [hm, hm'] at hline
    rw [hinj f hf g hg (name_of_externLine (c := S.name.toIdent) (hu f hf) (hu g hg) hline.symm)]
    exact isExported_of_published he' hpub

namespace Sample

theorem myClass_mirrored : Mirrored myClass.toClassDecl mySuperClass.toClassDecl :=
  ⟨by decide, by decide, Or.inr (by decide)⟩

theorem bind_superBlockAgrees_mySuperClass :
    ∃ g u, bind 1 config (Gen.start noFiles) mySuperClass = .ok g ∧ g.units = [u] ∧
      SuperBlockAgrees config myClass mySuperClass u.cpp := by
  have hrun : Run.holds (fun _ => true) (bind 1 config (Gen.start noFiles) mySuperClass) := by
    decide +kernel
  obtain ⟨g, h, -⟩ := Run.exists_of_holds hrun
  obtain ⟨u, hunits, hagrees⟩ := bind_superBlockAgrees h rfl rfl myClass_mirrored
  exact ⟨g, u, h, hunits, hagrees⟩

/-- A class with a static method, and a class below it. -/
def shape : LocalClass :=
  topClass counter.pack (typeName "Shape")
    [newMethod, ⟨ident "unit", [.aPublic, .aStatic], .fFun 1⟩]

def square : LocalClass :=
  { bareClass counter.pack (typeName "Square") with
    supers := [shape.toClassDecl]
    distinct := by decide }

/-- The static method is missing from the block printed for the class below. -/
theorem square_not_superBlockAgrees :
    ∃ g u, bind 1 config (Gen.start noFiles) shape = .ok g ∧ g.units = [u] ∧
      ¬ SuperBlockAgrees config square shape u.cpp := by
  have hrun : Run.holds (fun _ => true) (bind 1 config (Gen.start noFiles) shape) := by
    decide +kernel
  obtain ⟨g, h, -⟩ := Run.exists_of_holds hrun
  obtain ⟨u, n, hunits, -⟩ := bind_unit h
  refine ⟨g, u, h, hunits, fun hagrees => ?_⟩
  have hown : ("\tforeign static unit(arg1)\n" : Text) ∈ ownLines config shape := by decide +kernel
  have hsuper : ("\tforeign static unit(arg1)\n" : Text) ∉ superLines config square := by
    decide +kernel
  exact hsuper ((hagrees.lines _).mpr hown)

end Sample

end Wrenegade
