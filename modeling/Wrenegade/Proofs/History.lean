/-
What a whole run of the generator has accumulated.

The module list, the package table and the list of units grow with every class and
nothing is taken back.  `Recorded` is the invariant: the table holds a class for
every module path entered, the binding files are made of the lists as they stand,
and there is one unit for every class, in order.
-/
import Wrenegade.Proofs.Units

namespace Wrenegade

open Text Files Run

/-- The unit carries the paths and the namespace of the class. -/
structure UnitOf (cfg : Config) (C : LocalClass) (u : GeneratedUnit) : Prop where
  cppPath : u.cppPath = unitFile cfg C.toClassDecl ".cpp"
  headerPath : u.headerPath = unitFile cfg C.toClassDecl ".h"
  namespace_ : u.cpp.namespace_ = flatName C.moduleName ++ "_functions"

structure Recorded (cfg : Config) (cs : List LocalClass) (g : Gen) : Prop where
  modules : g.modules = cs.map fun C => modulePath cfg C.toClassDecl
  packSigs : ∀ sig cls, (∃ l, g.packSigs.lookup sig = some l ∧ cls ∈ l) ↔
    ∃ m ∈ g.modules, sig = moduleSig m ∧ cls = moduleClass m
  bindings : ∀ b, g.bindings = some b → b = genBindings cfg g.modules g.packSigs
  units : List.Forall₂ (UnitOf cfg) cs g.units

/-- One module path adds one class to the package table. -/
theorem mem_addPackSig (packSigs : TextMap (List Text)) (m sig cls : Text) :
    (∃ l, (addPackSig packSigs m).lookup sig = some l ∧ cls ∈ l) ↔
      (∃ l, packSigs.lookup sig = some l ∧ cls ∈ l) ∨ (sig = moduleSig m ∧ cls = moduleClass m) := by
  rw [addPackSig]
  cases hl : packSigs.lookup (moduleSig m) with
  | none =>
      by_cases hsig : sig = moduleSig m
      · subst hsig
        simp [hl]
      · simp [AList.lookup_insert_ne hsig, hsig]
  | some mod =>
      by_cases hsig : sig = moduleSig m
      · subst hsig
        by_cases hmem : moduleClass m ∈ mod
        · simp only [AList.lookup_insert, Option.some.injEq, exists_eq_left', hmem, if_true, hl,
            true_and, iff_self_or]
          rintro rfl
          exact hmem
        · simp [hl, hmem]
      · simp [AList.lookup_insert_ne hsig, hsig]

theorem mem_foldl_addPackSig (ms : List Text) (sig cls : Text) : ∀ packSigs : TextMap (List Text),
    (∃ l, (ms.foldl addPackSig packSigs).lookup sig = some l ∧ cls ∈ l) ↔
      (∃ l, packSigs.lookup sig = some l ∧ cls ∈ l) ∨
        ∃ m ∈ ms, sig = moduleSig m ∧ cls = moduleClass m := by
  induction ms with
  | nil => intro packSigs; simp
  | cons m ms ih =>
      intro packSigs
      rw [List.foldl_cons, ih, mem_addPackSig, or_assoc]
      simp

theorem recorded_start (cfg : Config) (fs : FileSystem) : Recorded cfg [] (Gen.start fs) where
  modules := rfl
  packSigs := by simp [Gen.start]
  bindings := by simp [Gen.start]
  units := List.Forall₂.nil

/-- A class bound adds its path, its entry and its unit. -/
theorem Recorded.bind {fuel : Nat} {cfg : Config} {done : List LocalClass} {C : LocalClass}
    {g g' : Gen} (hg : Recorded cfg done g) (h : bind fuel cfg g C = .ok g') :
    Recorded cfg (done ++ [C]) g' := by
  obtain ⟨u, n, hunits, hunit, hcpp, hheader, -⟩ := bind_unit h
  obtain ⟨p, r, hp, -, rfl⟩ := bind_ok h
  obtain ⟨hmodules, hpack, hbind, -, -, -⟩ := createPath_ok hp
  refine ⟨?_, ?_, ?_, ?_⟩
  · show p.modules = _
    rw [hmodules, hg.modules, List.map_append]
    rfl
  · intro sig cls
    show (∃ l, p.packSigs.lookup sig = some l ∧ cls ∈ l) ↔ ∃ m ∈ p.modules, _
    rw [hpack, mem_foldl_addPackSig, hg.packSigs]
    constructor
    · rintro (⟨m, hm, h⟩ | h)
      · exact ⟨m, by simp [hmodules, hm], h⟩
      · exact h
    · exact Or.inr
  · intro b hb
    have hb : p.bindings = some b := hb
    rw [hbind, Option.some.injEq] at hb
    exact hb.symm
  · rw [hunits]
    exact List.rel_append hg.units
      (List.Forall₂.cons ⟨hcpp, hheader, (genUnit_ok hunit).2.1⟩ List.Forall₂.nil)

/-- **Every run records its classes.** -/
theorem bindAll_recorded {fuel : Nat} {cfg : Config} {cs : List LocalClass} {fs : FileSystem}
    {g : Gen} (h : bindAll fuel cfg cs (Gen.start fs) = .ok g) : Recorded cfg cs g := by
  refine @run_invariant _ _ _ _ _ (Recorded cfg) (fun _ _ => True) (recorded_start cfg fs) ?_
    cs g (fun _ _ _ _ => trivial) h
  intro done C s s' hs _ hstep
  exact hs.bind hstep

section Recorded

variable {cfg : Config} {cs : List LocalClass} {g : Gen}

theorem Recorded.unit_of_class (hg : Recorded cfg cs g) {C : LocalClass} (hC : C ∈ cs) :
    ∃ u ∈ g.units, UnitOf cfg C u :=
  exists_of_forall₂ hg.units hC

theorem Recorded.class_of_unit (hg : Recorded cfg cs g) {u : GeneratedUnit} (hu : u ∈ g.units) :
    ∃ C ∈ cs, UnitOf cfg C u :=
  exists_of_forall₂ (R := flip (UnitOf cfg)) hg.units.flip hu

end Recorded

end Wrenegade
