/-
What a collection frees.

The walk over the list of all objects keeps the dark ones, in order and with their fields, and
frees the others.  The class of a foreign object is older than the object, so that it comes
later in the list and is still there when the object is finalized.
-/
import Wrenegade.Proofs.Marking

namespace Wrenegade

namespace Memory

open WrenVM (Value Result access)
open Tracing Linked

/-- The next object of all. -/
def nextObj (heap : Address → Option Obj) (a : Address) : Option (Option Address) :=
  (heap a).map Obj.next

def Obj.isForeign (obj : Obj) : Bool :=
  match obj.data with
  | .foreign => true
  | _ => false

def isDarkAt (vm : VM) (a : Address) : Bool := (vm.heap a).any Obj.isDark

/-- What a class is bound to at `<finalize>`. -/
def finalizerOf (vm : VM) (classObj : Option Address) : Option Method :=
  ((classObj.bind vm.heap).bind Obj.methods).bind fun methods => methods[vm.finalize]?

/-- The finalizer of an object is called when it is freed. -/
def hasFinalizer (vm : VM) (a : Address) : Bool :=
  (vm.heap a).any fun obj => obj.isForeign && decide (finalizerOf vm obj.classObj = some .foreign)

/-- The class can be asked for a finalizer. -/
def ClassOk (vm : VM) (c : Address) : Prop :=
  ((vm.heap c).bind Obj.methods).isSome = true ∧
    ∀ method, finalizerOf vm (some c) = some method → method = .none ∨ method = .foreign

/-- The classes of the foreign objects come later. -/
def ClassesLater (vm : VM) : List Address → Prop
  | [] => True
  | a :: rest => (∀ obj, vm.heap a = some obj → obj.isForeign = true →
      ∃ c ∈ rest, obj.classObj = some c ∧ ClassOk vm c) ∧ ClassesLater vm rest

/-! ### The walk -/

/-- What the walk does not touch. -/
def VM.fixed (vm : VM) : VM := { vm with heap := fun _ => none, first := none, finalized := [] }

/-- Part of the list was walked over. -/
structure Swept (vm₀ : VM) (done rest : List Address) (vm : VM) : Prop where
  fixed : vm.fixed = vm₀.fixed
  finalized : vm.finalized
    = vm₀.finalized ++ done.filter fun a => !isDarkAt vm₀ a && hasFinalizer vm₀ a
  distinct : (done ++ rest).Nodup
  linked : ∃ current, Segment (nextObj vm.heap) vm.first (done.filter (isDarkAt vm₀)) current ∧
    IsList (nextObj vm.heap) current rest
  ahead : ∀ a ∈ rest, vm.heap a = vm₀.heap a
  kept : ∀ a ∈ done, isDarkAt vm₀ a = true → ∃ obj next, vm₀.heap a = some obj ∧
    vm.heap a = some { obj with isDark := false, next := next }
  freed : ∀ a ∉ rest, (a ∈ done → isDarkAt vm₀ a = false) → vm.heap a = none

theorem nextObj_update (heap : Address → Option Obj) (a : Address) (obj : Option Obj) :
    nextObj (Function.update heap a obj) = Function.update (nextObj heap) a (obj.map Obj.next) := by
  funext b
  unfold nextObj
  by_cases hb : b = a
  · rw [hb, Function.update_self, Function.update_self]
  · rw [Function.update_of_ne hb, Function.update_of_ne hb]

section Step

variable {vm₀ vm : VM} {done rest : List Address} {a : Address} {obj : Obj}

theorem Swept.head (h : Swept vm₀ done (a :: rest) vm) (ha : vm₀.heap a = some obj) :
    Segment (nextObj vm.heap) vm.first (done.filter (isDarkAt vm₀)) (some a) ∧
      vm.heap a = some obj ∧ IsList (nextObj vm.heap) obj.next rest := by
  obtain ⟨current, hkept, hstart, next, hnext, hrest⟩ := h.linked
  have hget : vm.heap a = some obj := by rw [h.ahead a List.mem_cons_self, ha]
  rw [hstart] at hkept
  unfold nextObj at hnext
  rw [hget, Option.map_some, Option.some.injEq] at hnext
  rw [hnext]
  exact ⟨hkept, hget, hrest⟩

theorem Swept.not_mem (h : Swept vm₀ done (a :: rest) vm) : a ∉ done ∧ a ∉ rest := by
  have hnodup := h.distinct
  rw [List.nodup_append] at hnodup
  obtain ⟨-, hrest, hdisjoint⟩ := hnodup
  refine ⟨fun hmem => ?_, (List.nodup_cons.mp hrest).1⟩
  exact hdisjoint a hmem a List.mem_cons_self rfl

/-- The pointer that the loop is at leads to the rest. -/
theorem Swept.readSlot {rest : List Address} (h : Swept vm₀ done rest vm) :
    vm.readSlot (done.filter (isDarkAt vm₀)).getLast? = .ok rest.head? := by
  obtain ⟨current, hkept, hrest⟩ := h.linked
  have hhead : current = rest.head? := by
    cases rest with
    | nil => exact hrest
    | cons b rest => exact hrest.1
  subst hhead
  generalize done.filter (isDarkAt vm₀) = kept at hkept ⊢
  rcases List.eq_nil_or_concat kept with rfl | ⟨k, p, rfl⟩
  · exact congrArg Except.ok hkept
  · rw [List.concat_eq_append] at hkept ⊢
    obtain ⟨-, hnext⟩ := segment_concat.mp hkept
    obtain ⟨o, ho, hnext⟩ := Option.map_eq_some_iff.mp hnext
    rw [List.getLast?_concat]
    show (access (vm.heap p) >>= _) = _
    rw [ho, ← hnext]
    rfl

/-- **A dark object** stays, and is white again. -/
theorem Swept.keep (h : Swept vm₀ done (a :: rest) vm) (ha : vm₀.heap a = some obj)
    (hdark : obj.isDark = true) :
    Swept vm₀ (done ++ [a]) rest (vm.setObj a (some { obj with isDark := false })) := by
  obtain ⟨hkept, hget, hrest⟩ := h.head ha
  obtain ⟨hdone, hnot⟩ := h.not_mem
  have hdarkAt : isDarkAt vm₀ a = true := by
    unfold isDarkAt
    rw [ha]
    exact hdark
  have hother : ∀ b, b ≠ a → (vm.setObj a (some { obj with isDark := false })).heap b = vm.heap b :=
    fun b hb => Function.update_of_ne hb _ _
  refine ⟨h.fixed, ?_, ?_, ⟨obj.next, ?_, ?_⟩, ?_, ?_, ?_⟩
  · rw [List.filter_append, List.filter_singleton, hdarkAt, Bool.not_true, Bool.false_and,
      cond_false, List.append_nil]
    exact h.finalized
  · have hdistinct := h.distinct
    rwa [List.append_cons] at hdistinct
  · rw [List.filter_append, List.filter_singleton, hdarkAt]
    refine segment_concat.mpr ⟨?_, ?_⟩
    · refine hkept.congr fun b hb => ?_
      unfold nextObj
      rw [hother b fun heq => hdone (heq ▸ (List.mem_filter.mp hb).1)]
    · show (Function.update vm.heap a _ a).map Obj.next = _
      rw [Function.update_self]
      rfl
  · refine hrest.congr fun b hb => ?_
    unfold nextObj
    rw [hother b fun heq => hnot (heq ▸ hb)]
  · intro b hb
    rw [hother b fun heq => hnot (heq ▸ hb)]
    exact h.ahead b (List.mem_cons_of_mem a hb)
  · intro b hb hbdark
    by_cases hba : b = a
    · subst hba
      exact ⟨obj, obj.next, ha, Function.update_self _ _ _⟩
    · rw [hother b hba]
      refine h.kept b ?_ hbdark
      rcases List.mem_append.mp hb with hb | hb
      · exact hb
      · exact absurd (List.mem_singleton.mp hb) hba
  · intro b hb hfree
    by_cases hba : b = a
    · subst hba
      have hfalse := hfree (List.mem_append_right done (List.mem_singleton.mpr rfl))
      rw [hdarkAt] at hfalse
      cases hfalse
    · rw [hother b hba]
      refine h.freed b ?_ fun hmem => hfree (List.mem_append_left [a] hmem)
      intro hmem
      rcases List.mem_cons.mp hmem with hmem | hmem
      · exact hba hmem
      · exact hb hmem

/-- **To write the pointer** that the loop is at is to unlink the object behind it. -/
theorem Swept.unlink (h : Swept vm₀ done (a :: rest) vm) (ha : vm₀.heap a = some obj) :
    ∃ vm₁, vm.writeSlot obj.next (done.filter (isDarkAt vm₀)).getLast? = .ok vm₁ ∧
      vm₁.fixed = vm.fixed ∧ vm₁.finalized = vm.finalized ∧
      Segment (nextObj vm₁.heap) vm₁.first (done.filter (isDarkAt vm₀)) obj.next ∧
      (∀ b ∉ done.filter (isDarkAt vm₀), vm₁.heap b = vm.heap b) ∧
      (∀ b ∈ done.filter (isDarkAt vm₀), ∃ o next, vm.heap b = some o ∧
        vm₁.heap b = some { o with next := next }) := by
  obtain ⟨hkept, -, -⟩ := h.head ha
  have hall : ∀ b ∈ done.filter (isDarkAt vm₀), ∃ o, vm.heap b = some o := by
    intro b hb
    obtain ⟨hmem, hdark⟩ := List.mem_filter.mp hb
    obtain ⟨o, next, -, ho⟩ := h.kept b hmem hdark
    exact ⟨_, ho⟩
  have hnodup : (done.filter (isDarkAt vm₀)).Nodup :=
    ((List.nodup_append.mp h.distinct).1).filter _
  generalize done.filter (isDarkAt vm₀) = kept at hkept hall hnodup ⊢
  rcases List.eq_nil_or_concat kept with rfl | ⟨k, p, rfl⟩
  · refine ⟨{ vm with first := obj.next }, rfl, rfl, rfl, rfl, fun b _ => rfl, fun b hb => ?_⟩
    simp at hb
  · rw [List.concat_eq_append] at hkept hall hnodup ⊢
    obtain ⟨o, ho⟩ := hall p (by simp)
    refine ⟨vm.setObj p (some { o with next := obj.next }), ?_, rfl, rfl, ?_, ?_, ?_⟩
    · rw [List.getLast?_concat]
      show (access (vm.heap p) >>= _) = _
      rw [ho]
      rfl
    · have hredirect := hkept.redirect hnodup obj.next
      show Segment (nextObj (Function.update vm.heap p _)) vm.first (k ++ [p]) obj.next
      rw [nextObj_update]
      exact hredirect
    · intro b hb
      refine Function.update_of_ne (fun heq => hb ?_) _ _
      rw [heq]
      simp
    · intro b hb
      by_cases hbp : b = p
      · subst hbp
        exact ⟨o, obj.next, ho, Function.update_self _ _ _⟩
      · obtain ⟨o', ho'⟩ := hall b hb
        refine ⟨o', o'.next, ho', ?_⟩
        show Function.update vm.heap p _ b = _
        rw [Function.update_of_ne hbp, ho']

theorem finalizeObj_foreign (hforeign : obj.isForeign = true) :
    finalizeObj vm a obj = wrenFinalizeForeign vm a obj.classObj := by
  obtain ⟨data, isDark, classObj, next⟩ := obj
  cases data with
  | foreign => rfl
  | _ => cases hforeign

theorem finalizeObj_other (hforeign : ¬ obj.isForeign = true) :
    finalizeObj vm a obj = .ok vm := by
  obtain ⟨data, isDark, classObj, next⟩ := obj
  cases data with
  | foreign => exact absurd rfl hforeign
  | _ => rfl

/-- The finalizer of an object is called if its class, which is still there, has one. -/
theorem finalizeObj_eq {vm₁ : VM} (ha : vm₀.heap a = some obj) (hfinalize : vm₁.finalize = vm₀.finalize)
    (hclass : obj.isForeign = true → ∃ c, obj.classObj = some c ∧ ClassOk vm₀ c ∧
      vm₁.heap c = vm₀.heap c) :
    finalizeObj vm₁ a obj = .ok { vm₁ with
      finalized := vm₁.finalized ++ if hasFinalizer vm₀ a then [a] else [] } := by
  have hhas : hasFinalizer vm₀ a
      = (obj.isForeign && decide (finalizerOf vm₀ obj.classObj = some .foreign)) := by
    unfold hasFinalizer
    rw [ha]
    rfl
  by_cases hforeign : obj.isForeign = true
  · obtain ⟨c, hc, ⟨hmethods, hok⟩, hget⟩ := hclass hforeign
    obtain ⟨methods, hmethods⟩ := Option.isSome_iff_exists.mp hmethods
    have hfinalizer : finalizerOf vm₀ (some c) = methods[vm₀.finalize]? := by
      unfold finalizerOf
      rw [Option.bind_some, hmethods, Option.bind_some]
    rw [finalizeObj_foreign hforeign, hhas, hforeign, hc, Bool.true_and, hfinalizer]
    unfold wrenFinalizeForeign
    rw [Option.bind_some, hget, hmethods]
    show callFinalizer vm₁ a methods[vm₁.finalize]? = _
    rw [← hfinalize] at hfinalizer ⊢
    cases hmethod : methods[vm₁.finalize]? with
    | none => simp [callFinalizer, pure, Except.pure]
    | some method =>
        rcases hok method (by rw [hfinalizer, hmethod]) with rfl | rfl
        · simp [callFinalizer, pure, Except.pure]
        · simp [callFinalizer, pure, Except.pure]
  · rw [finalizeObj_other hforeign, hhas, Bool.eq_false_iff.mpr hforeign]
    simp

/-- **A white object** is unlinked, finalized and freed. -/
theorem Swept.free (h : Swept vm₀ done (a :: rest) vm) (ha : vm₀.heap a = some obj)
    (hwhite : obj.isDark = false)
    (hclass : obj.isForeign = true → ∃ c ∈ rest, obj.classObj = some c ∧ ClassOk vm₀ c) :
    ∃ vm₁ vm₂, vm.writeSlot obj.next (done.filter (isDarkAt vm₀)).getLast? = .ok vm₁ ∧
      wrenFreeObj vm₁ a obj = .ok vm₂ ∧ Swept vm₀ (done ++ [a]) rest vm₂ := by
  obtain ⟨-, hget, hrest⟩ := h.head ha
  obtain ⟨hdone, hnot⟩ := h.not_mem
  obtain ⟨vm₁, hwrite, hfixed, hfinalized, hsegment, hsame, hkept⟩ := h.unlink ha
  have hwhiteAt : isDarkAt vm₀ a = false := by
    unfold isDarkAt
    rw [ha]
    exact hwhite
  have hfilter : (done ++ [a]).filter (isDarkAt vm₀) = done.filter (isDarkAt vm₀) := by
    rw [List.filter_append, List.filter_singleton, hwhiteAt]
    exact List.append_nil _
  have hnotKept : ∀ b ∈ rest, b ∉ done.filter (isDarkAt vm₀) := by
    intro b hb hmem
    have hdisjoint := (List.nodup_append.mp h.distinct).2.2
    exact hdisjoint b (List.mem_filter.mp hmem).1 b (List.mem_cons_of_mem a hb) rfl
  rw [h.fixed] at hfixed
  have hfinalize : vm₁.finalize = vm₀.finalize := by
    have hsymbol := congrArg VM.finalize hfixed
    exact hsymbol
  have hfinalizeObj := @finalizeObj_eq vm₀ a obj vm₁ ha hfinalize fun hforeign => by
    obtain ⟨c, hc, hclassObj, hok⟩ := hclass hforeign
    refine ⟨c, hclassObj, hok, ?_⟩
    rw [hsame c (hnotKept c hc), h.ahead c (List.mem_cons_of_mem a hc)]
  have hfree : wrenFreeObj vm₁ a obj = .ok ({ vm₁ with
      finalized := vm₁.finalized ++ if hasFinalizer vm₀ a then [a] else [] }.setObj a none) := by
    unfold wrenFreeObj
    rw [hfinalizeObj]
    rfl
  refine ⟨vm₁, _, hwrite, hfree, ?_⟩
  have hother : ∀ b, b ≠ a → Function.update vm₁.heap a none b = vm₁.heap b :=
    fun b hb => Function.update_of_ne hb _ _
  refine ⟨hfixed, ?_, ?_, ⟨obj.next, ?_, ?_⟩, ?_, ?_, ?_⟩
  · have hlog : (done ++ [a]).filter (fun a => !isDarkAt vm₀ a && hasFinalizer vm₀ a)
        = (done.filter fun a => !isDarkAt vm₀ a && hasFinalizer vm₀ a)
          ++ if hasFinalizer vm₀ a then [a] else [] := by
      rw [List.filter_append, List.filter_singleton, hwhiteAt, Bool.not_false, Bool.true_and]
      cases hasFinalizer vm₀ a <;> rfl
    rw [hlog, ← List.append_assoc, ← h.finalized, ← hfinalized]
    rfl
  · have hdistinct := h.distinct
    rwa [List.append_cons] at hdistinct
  · rw [hfilter]
    refine hsegment.congr fun b hb => ?_
    show nextObj (Function.update vm₁.heap a none) b = _
    rw [nextObj_update, Function.update_of_ne]
    exact fun heq => hdone (heq ▸ (List.mem_filter.mp hb).1)
  · refine hrest.congr fun b hb => ?_
    show nextObj (Function.update vm₁.heap a none) b = _
    rw [nextObj_update, Function.update_of_ne (show b ≠ a from fun heq => hnot (heq ▸ hb))]
    unfold nextObj
    rw [hsame b (hnotKept b hb)]
  · intro b hb
    show Function.update vm₁.heap a none b = _
    rw [hother b fun heq => hnot (heq ▸ hb), hsame b (hnotKept b hb),
      h.ahead b (List.mem_cons_of_mem a hb)]
  · intro b hb hdark
    have hba : b ≠ a := by
      intro heq
      rw [heq, hwhiteAt] at hdark
      cases hdark
    have hbdone : b ∈ done := by
      rcases List.mem_append.mp hb with hb | hb
      · exact hb
      · exact absurd (List.mem_singleton.mp hb) hba
    obtain ⟨o, next, ho, hvm⟩ := h.kept b hbdone hdark
    obtain ⟨o', next', ho', hvm'⟩ := hkept b (List.mem_filter.mpr ⟨hbdone, hdark⟩)
    rw [hvm, Option.some.injEq] at ho'
    refine ⟨o, next', ho, ?_⟩
    show Function.update vm₁.heap a none b = _
    rw [hother b hba, hvm', ← ho']
  · intro b hb hfree
    show Function.update vm₁.heap a none b = _
    by_cases hba : b = a
    · rw [hba, Function.update_self]
    · have hnotDark : b ∉ done.filter (isDarkAt vm₀) := by
        intro hmem
        obtain ⟨hmem, hdark⟩ := List.mem_filter.mp hmem
        rw [hfree (List.mem_append_left [a] hmem)] at hdark
        cases hdark
      rw [hother b hba, hsame b hnotDark]
      refine h.freed b ?_ fun hmem => hfree (List.mem_append_left [a] hmem)
      intro hmem
      rcases List.mem_cons.mp hmem with hmem | hmem
      · exact hba hmem
      · exact hb hmem

end Step

/-- **The whole walk.** -/
theorem sweep_eq {vm₀ vm : VM} {done rest : List Address} {fuel : Nat} (h : Swept vm₀ done rest vm)
    (hall : ∀ a ∈ rest, (vm₀.heap a).isSome) (hlater : ClassesLater vm₀ rest)
    (hfuel : rest.length < fuel) :
    ∃ vm', sweep fuel vm (done.filter (isDarkAt vm₀)).getLast? = .ok vm' ∧
      Swept vm₀ (done ++ rest) [] vm' := by
  induction rest generalizing done vm fuel with
  | nil =>
      obtain ⟨fuel, rfl⟩ := Nat.exists_eq_succ_of_ne_zero (n := fuel) (by omega)
      refine ⟨vm, ?_, by rwa [List.append_nil]⟩
      unfold sweep
      rw [h.readSlot]
      rfl
  | cons a rest ih =>
      obtain ⟨fuel, rfl⟩ := Nat.exists_eq_succ_of_ne_zero (n := fuel) (by omega)
      rw [List.forall_mem_cons] at hall
      obtain ⟨obj, ha⟩ := Option.isSome_iff_exists.mp hall.1
      obtain ⟨-, hget, -⟩ := h.head ha
      rw [List.length_cons] at hfuel
      unfold sweep
      rw [h.readSlot]
      show ∃ vm', (access (vm.heap a) >>= fun obj => if ¬ obj.isDark = true then
        (vm.writeSlot obj.next (done.filter (isDarkAt vm₀)).getLast? >>= fun vm =>
          wrenFreeObj vm a obj >>= fun vm => sweep fuel vm (done.filter (isDarkAt vm₀)).getLast?)
        else sweep fuel (vm.setObj a (some { obj with isDark := false })) (some a)) = _ ∧ _
      rw [hget]
      show ∃ vm', (if ¬ obj.isDark = true then _ else _) = _ ∧ _
      have hdarkAt : isDarkAt vm₀ a = obj.isDark := by
        unfold isDarkAt
        rw [ha]
        rfl
      rw [List.append_cons]
      by_cases hdark : obj.isDark = true
      · have hslot : ((done ++ [a]).filter (isDarkAt vm₀)).getLast? = some a := by
          rw [List.filter_append, List.filter_singleton, hdarkAt, hdark, cond_true,
            List.getLast?_concat]
        rw [if_neg (not_not_intro hdark), ← hslot]
        exact ih (h.keep ha hdark) hall.2 hlater.2 (by omega)
      · have hslot : ((done ++ [a]).filter (isDarkAt vm₀)) = done.filter (isDarkAt vm₀) := by
          rw [List.filter_append, List.filter_singleton, hdarkAt, Bool.eq_false_iff.mpr hdark,
            cond_false, List.append_nil]
        obtain ⟨vm₁, vm₂, hwrite, hfree, hswept⟩ := h.free ha (Bool.eq_false_iff.mpr hdark)
          (hlater.1 obj ha)
        rw [if_pos hdark, hwrite]
        show ∃ vm', (wrenFreeObj vm₁ a obj >>= _) = _ ∧ _
        rw [hfree, ← hslot]
        exact ih hswept hall.2 hlater.2 (by omega)

end Memory

end Wrenegade
