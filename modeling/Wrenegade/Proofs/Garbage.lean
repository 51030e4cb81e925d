/-
What a collection does, and what it never does.

A collection frees the objects that cannot be reached and no others.  It leaves the reachable
ones as they are, counts their memory, and finalizes the foreign objects that it frees.

A program gets at more than the collector follows: at the class of an object, at the module of a
function, and through an open upvalue at a slot of the stack of a fiber.  Where all of this can
be reached otherwise, nothing is lost, and a program never meets a freed object, however its
steps and the collections alternate.  Where it cannot, the collection leaves a pointer to what it
freed.
-/
import Wrenegade.Proofs.Sweeping

namespace Wrenegade

namespace Memory

open WrenVM (Value Result access)
open Tracing Linked

/-- What the collector needs of the heap, with all objects listed from the newest. -/
structure Sound (vm : VM) (objs : List Address) : Prop where
  markable : Markable vm objs
  linked : IsList (nextObj vm.heap) vm.first objs
  white : ∀ a obj, vm.heap a = some obj → obj.isDark = false
  gray : vm.gray = []
  capacity : 0 < vm.grayCapacity
  classes : ClassesLater vm objs

/-- The next collection is due when the memory in use has grown by some percents. -/
def nextCollection (vm : VM) (bytes : BitVec 64) : BitVec 64 :=
  if bytes + bytes * vm.heapGrowthPercent / 100 < vm.minHeapSize then vm.minHeapSize
  else bytes + bytes * vm.heapGrowthPercent / 100

/-- What a collection does not touch: the roots and the configuration. -/
def VM.rest (vm : VM) : VM :=
  { vm with
    heap := fun _ => none
    first := none
    gray := []
    grayCapacity := 0
    bytesAllocated := 0
    nextGC := 0
    finalized := [] }

/-- What a collection comes to: the live objects stay, in their order. -/
structure Collected (size : Sizes) (vm : VM) (objs live : List Address) (vm' : VM) : Prop where
  order : ∃ p : Address → Bool, live = objs.filter p
  mem_live : ∀ a, a ∈ live ↔ Reachable vm a
  linked : IsList (nextObj vm'.heap) vm'.first live
  kept : ∀ a ∈ live, ∃ obj next, vm.heap a = some obj ∧ vm'.heap a = some { obj with next := next }
  freed : ∀ a ∉ live, vm'.heap a = none
  finalized : ∃ dead, vm'.finalized = vm.finalized ++ dead ∧ dead.Sublist objs ∧
    ∀ a, a ∈ dead ↔ a ∈ objs ∧ ¬ Reachable vm a ∧ hasFinalizer vm a = true
  bytes : vm'.bytesAllocated = BitVec.ofNat 64 (rootBytes size vm + bytesOf size vm.heap live)
  nextGC : vm'.nextGC = nextCollection vm vm'.bytesAllocated
  gray : vm'.gray = []
  capacity : 0 < vm'.grayCapacity
  rest : vm'.rest = vm.rest

theorem bytesOf_perm {size : Sizes} {heap : Address → Option Obj} {l m : List Address}
    (h : l.Perm m) : bytesOf size heap l = bytesOf size heap m := (h.map _).sum_eq

theorem Seen.hasFinalizer {vm₀ vm : VM} {s : Marks Address} {bytes : BitVec 64}
    (h : Seen vm₀ s bytes vm) (a : Address) : hasFinalizer vm a = hasFinalizer vm₀ a := by
  have hfinalizer : ∀ p, finalizerOf vm p = finalizerOf vm₀ p := by
    intro p
    have hmethods := h.readAt (f := Obj.methods) (fun _ _ => rfl) p
    obtain ⟨capacity, rfl, -⟩ := h
    unfold finalizerOf
    rw [hmethods]
    rfl
  unfold Memory.hasFinalizer
  obtain ⟨capacity, rfl, -⟩ := h
  show (paint s vm₀.heap a).any _ = _
  unfold paint
  cases vm₀.heap a with
  | none => rfl
  | some obj =>
      show (obj.isForeign && decide (finalizerOf _ obj.classObj = some .foreign)) = _
      rw [hfinalizer]
      rfl

theorem Seen.classesLater {vm₀ vm : VM} {s : Marks Address} {bytes : BitVec 64}
    (h : Seen vm₀ s bytes vm) {l : List Address} (hl : ClassesLater vm₀ l) :
    ClassesLater vm l := by
  have hok : ∀ c, ClassOk vm₀ c → ClassOk vm c := by
    intro c hc
    have hmethods := h.read (f := Obj.methods) (fun _ _ => rfl) c
    have hmethods' := h.readAt (f := Obj.methods) (fun _ _ => rfl) (some c)
    obtain ⟨capacity, rfl, -⟩ := h
    unfold ClassOk finalizerOf at hc ⊢
    rw [hmethods, hmethods']
    exact hc
  induction l with
  | nil => trivial
  | cons a l ih =>
      refine ⟨fun obj hobj hforeign => ?_, ih hl.2⟩
      obtain ⟨capacity, rfl, -⟩ := h
      obtain ⟨obj₀, hobj₀, rfl⟩ := Option.map_eq_some_iff.mp hobj
      obtain ⟨c, hc, hclassObj, hclassOk⟩ := hl.1 obj₀ hobj₀ hforeign
      exact ⟨c, hc, hclassObj, hok c hclassOk⟩

/-! ### Between marking and sweeping -/

section Seen

variable {vm₀ vm : VM} {s : Marks Address} {bytes : BitVec 64} (h : Seen vm₀ s bytes vm)
include h

theorem Seen.heap_eq : vm.heap = paint s vm₀.heap := by
  obtain ⟨capacity, rfl, -⟩ := h
  rfl

theorem Seen.first_eq : vm.first = vm₀.first := by
  obtain ⟨capacity, rfl, -⟩ := h
  rfl

theorem Seen.finalized_eq : vm.finalized = vm₀.finalized := by
  obtain ⟨capacity, rfl, -⟩ := h
  rfl

theorem Seen.bytes_eq : vm.bytesAllocated = bytes := by
  obtain ⟨capacity, rfl, -⟩ := h
  rfl

theorem Seen.gray_eq : vm.gray = s.gray := by
  obtain ⟨capacity, rfl, -⟩ := h
  rfl

theorem Seen.capacity_pos : 0 < vm.grayCapacity := by
  obtain ⟨capacity, rfl, -, hpos⟩ := h
  exact hpos

theorem Seen.rest_eq : vm.rest = vm₀.rest := by
  obtain ⟨capacity, rfl, -⟩ := h
  rfl

theorem Seen.nextObj_eq : nextObj vm.heap = nextObj vm₀.heap := by
  funext a
  have hread := h.read (f := fun obj => some obj.next) (fun _ _ => rfl) a
  unfold nextObj
  rwa [Option.map_eq_bind, Option.map_eq_bind]

/-- An object that is there is dark if it was seen. -/
theorem Seen.isDarkAt_iff {a : Address} (ha : (vm₀.heap a).isSome = true) :
    isDarkAt vm a = true ↔ s.Dark a := by
  obtain ⟨obj, hobj⟩ := Option.isSome_iff_exists.mp ha
  unfold isDarkAt
  rw [h.heap_eq, paint, hobj]
  simp

/-- The walk begins where the marking ends. -/
theorem Seen.swept {objs : List Address} (hsound : Sound vm₀ objs) : Swept vm [] objs vm := by
  refine ⟨rfl, (List.append_nil _).symm, hsound.linked.nodup, ⟨vm.first, rfl, ?_⟩, fun _ _ => rfl,
    fun a ha => by simp at ha, fun a ha _ => ?_⟩
  · rw [h.nextObj_eq, h.first_eq]
    exact hsound.linked
  · have hnone : vm₀.heap a = none := by
      rw [← Option.not_isSome_iff_eq_none]
      exact fun hsome => ha ((hsound.markable.allocated a).mp hsome)
    rw [h.heap_eq, paint, hnone]
    rfl

end Seen

/-! ### What is left -/

section Left

variable {vm vm₂ vm₃ : VM} {objs : List Address} {s : Marks Address} {bytes : BitVec 64}
  (hswept : Swept vm₂ objs [] vm₃) (hsound : Sound vm objs) (hseen : Seen vm s bytes vm₂)

include hswept

theorem Swept.linked_live :
    IsList (nextObj vm₃.heap) vm₃.first (objs.filter (isDarkAt vm₂)) := by
  obtain ⟨current, hsegment, hcurrent⟩ := hswept.linked
  rw [show current = none from hcurrent] at hsegment
  exact hsegment

theorem Swept.freed_dead :
    ∀ a ∉ objs.filter (isDarkAt vm₂), vm₃.heap a = none := by
  intro a ha
  refine hswept.freed a List.not_mem_nil fun hmem => ?_
  rw [List.mem_filter, not_and] at ha
  exact Bool.eq_false_iff.mpr (ha hmem)

/-- What the walk leaves alone it leaves as the marking did. -/
theorem Swept.fixed_eq {β : Type} (f : VM → β) (hf : ∀ vm : VM, f vm.fixed = f vm) : f vm₃ = f vm₂ := by
  rw [← hf vm₃, hswept.fixed, hf vm₂]

include hsound hseen

theorem Swept.kept_obj : ∀ a ∈ objs.filter (isDarkAt vm₂),
      ∃ obj next, vm.heap a = some obj ∧ vm₃.heap a = some { obj with next := next } := by
  intro a ha
  obtain ⟨hmem, hd⟩ := List.mem_filter.mp ha
  obtain ⟨obj, next, hobj, hvm₃⟩ := hswept.kept a hmem hd
  rw [hseen.heap_eq] at hobj
  obtain ⟨obj₀, hobj₀, rfl⟩ := Option.map_eq_some_iff.mp hobj
  have hwhite := hsound.white a obj₀ hobj₀
  refine ⟨obj₀, next, hobj₀, ?_⟩
  rw [hwhite]
  exact hvm₃

omit hswept in
/-- The dark objects are those that can be reached. -/
theorem Sound.mem_live (hreach : ∀ a, s.Dark a ↔ Reachable vm a) (a : Address) :
    a ∈ objs.filter (isDarkAt vm₂) ↔ Reachable vm a := by
  rw [List.mem_filter, ← hreach]
  constructor
  · rintro ⟨ha, hd⟩
    exact (hseen.isDarkAt_iff ((hsound.markable.allocated a).mpr ha)).mp hd
  · intro hd
    have ha := hsound.markable.reachable a ((hreach a).mp hd)
    exact ⟨ha, (hseen.isDarkAt_iff ((hsound.markable.allocated a).mpr ha)).mpr hd⟩

theorem Swept.finalized_dead (hreach : ∀ a, s.Dark a ↔ Reachable vm a) :
    ∃ dead, vm₃.finalized = vm.finalized ++ dead ∧ dead.Sublist objs ∧
      ∀ a, a ∈ dead ↔ a ∈ objs ∧ ¬ Reachable vm a ∧ hasFinalizer vm a = true := by
  refine ⟨objs.filter fun a => !isDarkAt vm₂ a && hasFinalizer vm₂ a, ?_, List.filter_sublist, ?_⟩
  · rw [← hseen.finalized_eq]
    exact hswept.finalized
  · intro a
    rw [List.mem_filter, Bool.and_eq_true, Bool.not_eq_true', hseen.hasFinalizer]
    refine and_congr_right fun ha => and_congr_left fun _ => ?_
    rw [← hreach, ← hseen.isDarkAt_iff ((hsound.markable.allocated a).mpr ha), Bool.not_eq_true]

end Left

/-- **A collection** frees what cannot be reached, and nothing else. -/
theorem wrenCollectGarbage_eq {size : Sizes} {vm : VM} {objs : List Address} (h : Sound vm objs)
    {fuel : Nat} (hfuel : objs.length < fuel) :
    ∃ vm' live, wrenCollectGarbage size fuel vm = .ok vm' ∧ Collected size vm objs live vm' := by
  obtain ⟨vm₁, vm₂, s, hmark, hblacken, hgray, hnodup, hblack, hseen⟩ :=
    @mark_eq size vm objs h.markable h.gray h.white h.capacity fuel hfuel
  have hreach : ∀ a, s.Dark a ↔ Reachable vm a := by
    intro a
    rw [← hblack]
    unfold Marks.Dark
    rw [hgray]
    simp
  obtain ⟨vm₃, hsweep, hswept⟩ := sweep_eq (hseen.swept h) (fun a ha => by
    rw [hseen.heap_eq, paint, Option.isSome_map]
    exact (h.markable.allocated a).mpr ha) (hseen.classesLater h.classes) hfuel
  rw [List.nil_append] at hswept
  refine ⟨vm₃.setNextGC, objs.filter (isDarkAt vm₂), ?_, ?_⟩
  · unfold wrenCollectGarbage
    rw [hmark]
    show (wrenBlackenObjects size fuel fuel vm₁ >>= fun vm => sweep fuel vm none >>= fun vm =>
      Except.ok vm.setNextGC) = _
    rw [hblacken]
    show (sweep fuel vm₂ none >>= _) = _
    rw [show sweep fuel vm₂ none = _ from hsweep]
    rfl
  have hlive := h.mem_live hseen hreach
  have hperm : s.black.Perm (objs.filter (isDarkAt vm₂)) :=
    (List.perm_ext_iff_of_nodup hnodup (h.linked.nodup.filter _)).mpr fun a => by
      rw [hblack, hlive]
  have hbytes : vm₃.bytesAllocated = BitVec.ofNat 64
      (rootBytes size vm + bytesOf size vm.heap (objs.filter (isDarkAt vm₂))) := by
    rw [hswept.fixed_eq VM.bytesAllocated fun _ => rfl, ← bytesOf_perm hperm, hseen.bytes_eq]
  have hrest : vm₃.rest = vm.rest := by
    rw [hswept.fixed_eq VM.rest fun _ => rfl, hseen.rest_eq]
  have hpercent := congrArg VM.heapGrowthPercent hrest
  have hmin := congrArg VM.minHeapSize hrest
  refine ⟨⟨_, rfl⟩, hlive, hswept.linked_live, hswept.kept_obj h hseen, hswept.freed_dead,
    hswept.finalized_dead h hseen hreach, hbytes, ?_, ?_, ?_, hrest⟩
  · show (if _ then vm₃.minHeapSize else _) = _
    unfold nextCollection
    rw [← show vm₃.minHeapSize = vm.minHeapSize from hmin,
      ← show vm₃.heapGrowthPercent = vm.heapGrowthPercent from hpercent]
    rfl
  · show vm₃.gray = []
    rw [hswept.fixed_eq VM.gray fun _ => rfl, hseen.gray_eq, hgray]
  · show 0 < vm₃.grayCapacity
    rw [hswept.fixed_eq VM.grayCapacity fun _ => rfl]
    exact hseen.capacity_pos

/-! ### The heap after a collection -/

/-- What an object is but for its place in the list and its mark. -/
def Obj.body (obj : Obj) : Data × Option Address := (obj.data, obj.classObj)

/-- What is read of an object is read of its body. -/
theorem read_body {γ : Type} {f : Obj → Option γ} (hf : ∀ o o', o.body = o'.body → f o = f o')
    {heap heap' : Address → Option Obj} {p : Option Address}
    (h : ∀ a ∈ p.toList, (heap' a).map Obj.body = (heap a).map Obj.body) :
    (p.bind heap').bind f = (p.bind heap).bind f := by
  cases p with
  | none => rfl
  | some a =>
      have ha := h a (by simp)
      rw [Option.bind_some, Option.bind_some]
      cases hobj' : heap' a with
      | none =>
          cases hobj : heap a with
          | none => rfl
          | some obj =>
              rw [hobj, hobj'] at ha
              cases ha
      | some obj' =>
          cases hobj : heap a with
          | none =>
              rw [hobj, hobj'] at ha
              cases ha
          | some obj =>
              rw [hobj, hobj', Option.map_some, Option.map_some, Option.some.injEq] at ha
              exact hf obj' obj ha

theorem body_numUpvalues {o o' : Obj} (h : o.body = o'.body) : o.numUpvalues = o'.numUpvalues := by
  unfold Obj.numUpvalues
  rw [show o.data = o'.data from congrArg Prod.fst h]

theorem body_numFields {o o' : Obj} (h : o.body = o'.body) : o.numFields = o'.numFields := by
  unfold Obj.numFields
  rw [show o.data = o'.data from congrArg Prod.fst h]

theorem body_upvalueNext {o o' : Obj} (h : o.body = o'.body) : o.upvalueNext = o'.upvalueNext := by
  unfold Obj.upvalueNext
  rw [show o.data = o'.data from congrArg Prod.fst h]

theorem body_methods {o o' : Obj} (h : o.body = o'.body) : o.methods = o'.methods := by
  unfold Obj.methods
  rw [show o.data = o'.data from congrArg Prod.fst h]

/-- **Where the bodies are the same**, the pointers are. -/
theorem pointers_congr {heap heap' : Address → Option Obj} {obj obj' : Obj}
    (hbody : obj'.body = obj.body) (hregular : Regular heap obj)
    (h : ∀ a ∈ pointers heap obj, (heap' a).map Obj.body = (heap a).map Obj.body) :
    pointers heap' obj' = pointers heap obj ∧ Regular heap' obj' := by
  obtain ⟨data, isDark, classObj, next⟩ := obj
  obtain ⟨data', isDark', classObj', next'⟩ := obj'
  obtain ⟨rfl, rfl⟩ := Prod.mk.inj hbody
  cases data' with
  | closure fn upvalues =>
      have hread := read_body (fun o o' => body_numUpvalues) (p := fn) fun a ha =>
        h a (List.mem_append_left _ ha)
      obtain ⟨n, hn, hle⟩ := hregular
      have hcount : upvalueCount heap' fn = upvalueCount heap fn := by
        unfold upvalueCount
        rw [hread]
      refine ⟨?_, n, by rw [hread, hn], hle⟩
      show fn.toList ++ (upvalues.take (upvalueCount heap' fn)).filterMap id = _
      rw [hcount]
      rfl
  | instance_ fields =>
      have hread := read_body (fun o o' => body_numFields) (p := classObj') fun a ha =>
        h a (List.mem_append_left _ ha)
      obtain ⟨n, hn, hle⟩ := hregular
      have hcount : fieldCount heap' classObj' = fieldCount heap classObj' := by
        unfold fieldCount
        rw [hread]
      refine ⟨?_, n, by rw [hread, hn], hle⟩
      show classObj'.toList ++ (fields.take (fieldCount heap' classObj')).filterMap addressOf = _
      rw [hcount]
      rfl
  | fiber frames frameCapacity stack stackCapacity openUpvalues caller error =>
      obtain ⟨l, hl⟩ := hregular
      have hl' : IsList (nextUpvalue heap') openUpvalues l := by
        refine hl.congr fun a ha => ?_
        have hmem : a ∈ pointers heap ⟨.fiber frames frameCapacity stack stackCapacity openUpvalues
            caller error, isDark, classObj', next⟩ := by
          show a ∈ frames.filterMap id ++ stack.filterMap addressOf ++ upvaluesFrom heap openUpvalues
            ++ caller.toList ++ (addressOf error).toList
          rw [upvaluesFrom_eq hl]
          simp [ha]
        exact read_body (fun o o' => body_upvalueNext) (p := some a) fun b hb => by
          rw [Option.toList_some, List.mem_singleton] at hb
          rw [hb]
          exact h a hmem
      refine ⟨?_, l, hl'⟩
      show frames.filterMap id ++ stack.filterMap addressOf ++ upvaluesFrom heap' openUpvalues
        ++ caller.toList ++ (addressOf error).toList = _
      rw [upvaluesFrom_eq hl', ← upvaluesFrom_eq hl]
      rfl
  | class_ superclass numFields methods methodCapacity name => exact ⟨rfl, trivial⟩
  | fn constants constantCapacity codeCapacity numUpvalues => exact ⟨rfl, trivial⟩
  | foreign => exact ⟨rfl, trivial⟩
  | list elements capacity => exact ⟨rfl, trivial⟩
  | map entries => exact ⟨rfl, trivial⟩
  | module_ moduleVariables variableNames name => exact ⟨rfl, trivial⟩
  | range => exact ⟨rfl, trivial⟩
  | string length => exact ⟨rfl, trivial⟩
  | upvalue closed next => exact ⟨rfl, trivial⟩

section Collected

variable {size : Sizes} {vm vm' : VM} {objs live : List Address}
  (h : Collected size vm objs live vm') (hsound : Sound vm objs)
include h

theorem Collected.body {a : Address} (ha : Reachable vm a) :
    (vm'.heap a).map Obj.body = (vm.heap a).map Obj.body := by
  obtain ⟨obj, next, hobj, hobj'⟩ := h.kept a ((h.mem_live a).mpr ha)
  rw [hobj, hobj']
  rfl

theorem Collected.roots : Memory.roots vm' = Memory.roots vm := by
  have hroots := congrArg Memory.roots h.rest
  exact hroots

theorem Collected.finalize : vm'.finalize = vm.finalize := by
  have hfinalize := congrArg VM.finalize h.rest
  exact hfinalize

include hsound

theorem Collected.edges {a : Address} (ha : Reachable vm a) :
    Memory.edges vm'.heap a = Memory.edges vm.heap a ∧
      ∀ obj, vm'.heap a = some obj → Regular vm'.heap obj := by
  obtain ⟨obj, next, hobj, hobj'⟩ := h.kept a ((h.mem_live a).mpr ha)
  have hedges : Memory.edges vm.heap a = pointers vm.heap obj := by
    unfold Memory.edges
    rw [hobj]
    rfl
  obtain ⟨hpointers, hregular⟩ := @pointers_congr vm.heap vm'.heap obj { obj with next := next } rfl
    (hsound.markable.regular a obj ha hobj) fun b hb => h.body (ha.step (by rwa [hedges]))
  refine ⟨?_, fun o ho => ?_⟩
  · rw [hedges, ← hpointers]
    unfold Memory.edges
    rw [hobj']
    rfl
  · rw [hobj', Option.some.injEq] at ho
    rw [← ho]
    exact hregular

/-- **What can be reached** is what could be reached. -/
theorem Collected.reachable (a : Address) : Reachable vm' a ↔ Reachable vm a := by
  constructor
  · intro ha
    refine Reach.mono (fun x hx => Reach.root ?_) (fun x hx y hy => ?_) ha
    · rwa [← h.roots]
    · refine hx.step ?_
      rwa [(h.edges hsound hx).1] at hy
  · intro ha
    induction ha with
    | root hx =>
        refine Reach.root ?_
        rwa [h.roots]
    | step hx hy ih =>
        refine ih.step ?_
        rwa [(h.edges hsound hx).1]

omit hsound in
theorem Collected.classOk {c : Address} (hc : Reachable vm c) : ClassOk vm' c ↔ ClassOk vm c := by
  have hread : ((some c).bind vm'.heap).bind Obj.methods = ((some c).bind vm.heap).bind Obj.methods :=
    read_body (fun o o' => body_methods) fun b hb => by
      rw [Option.toList_some, List.mem_singleton] at hb
      rw [hb]
      exact h.body hc
  unfold ClassOk finalizerOf
  rw [hread, h.finalize]
  exact and_congr_left fun _ => by rw [show (vm'.heap c).bind Obj.methods = _ from hread]; rfl

end Collected

/-- The class of every foreign object that can be reached can be reached, too. -/
def ClassesHeld (vm : VM) : Prop :=
  ∀ a obj, Reachable vm a → vm.heap a = some obj → obj.isForeign = true →
    ∃ c, obj.classObj = some c ∧ Reachable vm c

theorem ClassesLater.of_mem {vm : VM} {l : List Address} (h : ClassesLater vm l) {a : Address}
    (ha : a ∈ l) {obj : Obj} (hobj : vm.heap a = some obj) (hforeign : obj.isForeign = true) :
    ∃ c ∈ l, obj.classObj = some c ∧ ClassOk vm c := by
  induction l with
  | nil => simp at ha
  | cons b l ih =>
      rcases List.mem_cons.mp ha with rfl | ha
      · obtain ⟨c, hc, hrest⟩ := h.1 obj hobj hforeign
        exact ⟨c, List.mem_cons_of_mem a hc, hrest⟩
      · obtain ⟨c, hc, hrest⟩ := ih h.2 ha
        exact ⟨c, List.mem_cons_of_mem b hc, hrest⟩

/-- Classes that stay with their objects stay behind them. -/
theorem ClassesLater.filter {vm vm' : VM} {p : Address → Bool} {l : List Address}
    (h : ClassesLater vm l)
    (hstep : ∀ a ∈ l, p a = true → ∀ obj', vm'.heap a = some obj' → obj'.isForeign = true →
      ∃ obj, vm.heap a = some obj ∧ obj.isForeign = true ∧ obj.classObj = obj'.classObj ∧
        ∀ c, obj.classObj = some c → ClassOk vm c → p c = true ∧ ClassOk vm' c) :
    ClassesLater vm' (l.filter p) := by
  induction l with
  | nil => trivial
  | cons a l ih =>
      rw [List.forall_mem_cons] at hstep
      have hrest := ih h.2 hstep.2
      by_cases ha : p a = true
      · rw [List.filter_cons_of_pos ha]
        refine ⟨fun obj' hobj' hforeign' => ?_, hrest⟩
        obtain ⟨obj, hobj, hforeign, hclass, hheld⟩ := hstep.1 ha obj' hobj' hforeign'
        obtain ⟨c, hc, hclassObj, hok⟩ := h.1 obj hobj hforeign
        obtain ⟨hpc, hok'⟩ := hheld c hclassObj hok
        exact ⟨c, List.mem_filter.mpr ⟨hc, hpc⟩, by rw [← hclass, hclassObj], hok'⟩
      · rwa [List.filter_cons_of_neg ha]

/-- **After a collection the heap is as sound as before** if and only if no foreign object that
stays has lost its class. -/
theorem Collected.sound_iff {size : Sizes} {vm vm' : VM} {objs live : List Address}
    (h : Collected size vm objs live vm') (hsound : Sound vm objs) :
    Sound vm' live ↔ ClassesHeld vm := by
  constructor
  · intro hsound' a obj ha hobj hforeign
    obtain ⟨obj₀, next, hobj₀, hobj'⟩ := h.kept a ((h.mem_live a).mpr ha)
    rw [hobj, Option.some.injEq] at hobj₀
    subst hobj₀
    obtain ⟨c, hc, hclass, -⟩ := hsound'.classes.of_mem ((h.mem_live a).mpr ha) hobj' hforeign
    exact ⟨c, hclass, (h.mem_live c).mp hc⟩
  · intro hheld
    refine ⟨⟨fun a => ?_, fun a ha => ?_, fun a obj ha hobj => ?_⟩, h.linked, ?_, h.gray,
      h.capacity, ?_⟩
    · by_cases ha : a ∈ live
      · obtain ⟨obj, next, -, hobj'⟩ := h.kept a ha
        rw [hobj']
        exact ⟨fun _ => ha, fun _ => rfl⟩
      · rw [h.freed a ha]
        exact ⟨fun hsome => absurd hsome Bool.false_ne_true, fun hmem => absurd hmem ha⟩
    · exact (h.mem_live a).mpr ((h.reachable hsound a).mp ha)
    · exact (h.edges hsound ((h.reachable hsound a).mp ha)).2 obj hobj
    · intro a obj hobj
      by_cases ha : a ∈ live
      · obtain ⟨obj₀, next, hobj₀, hobj'⟩ := h.kept a ha
        rw [hobj', Option.some.injEq] at hobj
        rw [← hobj]
        exact hsound.white a obj₀ hobj₀
      · rw [h.freed a ha] at hobj
        cases hobj
    · obtain ⟨p, hp⟩ := h.order
      rw [hp]
      refine hsound.classes.filter fun a ha hpa obj' hobj' hforeign' => ?_
      have hlive : a ∈ live := by
        rw [hp]
        exact List.mem_filter.mpr ⟨ha, hpa⟩
      obtain ⟨obj, next, hobj, heq⟩ := h.kept a hlive
      rw [heq, Option.some.injEq] at hobj'
      subst hobj'
      refine ⟨obj, hobj, hforeign', rfl, fun c hc hok => ?_⟩
      obtain ⟨c', hc', hreach⟩ := hheld a obj ((h.mem_live a).mp hlive) hobj hforeign'
      rw [hc, Option.some.injEq] at hc'
      subst hc'
      have hmem := (h.mem_live c).mpr hreach
      rw [hp] at hmem
      exact ⟨(List.mem_filter.mp hmem).2, (h.classOk hreach).mpr hok⟩

/-! ### What a program gets at -/

/-- What a program gets at from an object and the collector does not follow: its class, the module
of a function, and the fiber that an open upvalue points into.  (The collector does follow the
classes of instances, and the metaclass of a class.) -/
def beyond (obj : Obj) : List Address :=
  obj.classObj.toList ++
    match obj.data with
    | .fn _ _ _ _ module_ => module_.toList
    | .upvalue (.slot fiber _) _ _ => [fiber]
    | _ => []

/-- What a compiler has and does not mark: its module, and the names of classes. -/
def beyondRoots (vm : VM) : List Address :=
  vm.compiling.elim [] fun compiling =>
    compiling.module_.toList ++ compiling.compilers.filterMap Compiler.className

/-- What a program can get at. -/
def Accessible (vm : VM) : Address → Prop :=
  Reach (roots vm ++ beyondRoots vm) fun a =>
    edges vm.heap a ++ (vm.heap a).elim [] beyond

/-- The slot that an open upvalue points to is there. -/
def SlotOk (heap : Address → Option Obj) (obj : Obj) : Prop :=
  match obj.data with
  | .upvalue (.slot fiber index) _ _ =>
      ∃ capacity, (heap fiber).bind Obj.stackCapacity = some capacity ∧ index < capacity
  | _ => True

/-- All that a program can get at is allocated, and is as the program and the collector need it. -/
structure Intact (vm : VM) (objs : List Address) : Prop extends Sound vm objs where
  accessible : ∀ a, Accessible vm a → a ∈ objs
  regular : ∀ a obj, Accessible vm a → vm.heap a = some obj → Regular vm.heap obj
  slots : ∀ a obj, Accessible vm a → vm.heap a = some obj → SlotOk vm.heap obj

/-- The collector reaches what a program gets at beyond the pointers that it follows. -/
structure Held (vm : VM) : Prop where
  roots : ∀ a ∈ beyondRoots vm, Reachable vm a
  objects : ∀ a obj, Reachable vm a → vm.heap a = some obj → ∀ b ∈ beyond obj, Reachable vm b

theorem accessible_of_reachable {vm : VM} {a : Address} (h : Reachable vm a) : Accessible vm a :=
  Reach.mono (fun _ hx => Reach.root (List.mem_append_left _ hx))
    (fun _ hx _ hy => hx.step (List.mem_append_left _ hy)) h

theorem Accessible.beyond {vm : VM} {a b : Address} {obj : Obj} (h : Accessible vm a)
    (hobj : vm.heap a = some obj) (hb : b ∈ Memory.beyond obj) : Accessible vm b := by
  refine Reach.step h (List.mem_append_right _ ?_)
  rw [hobj]
  exact hb

theorem Held.reachable {vm : VM} (h : Held vm) {a : Address} (ha : Accessible vm a) :
    Reachable vm a := by
  refine Reach.mono (fun x hx => ?_) (fun x hx y hy => ?_) ha
  · exact (List.mem_append.mp hx).elim Reach.root (h.roots x)
  · rcases List.mem_append.mp hy with hy | hy
    · exact hx.step hy
    · cases hobj : vm.heap x with
      | none =>
          rw [hobj] at hy
          exact absurd hy List.not_mem_nil
      | some obj =>
          rw [hobj] at hy
          exact h.objects x obj hx hobj y hy

/-- In a sound heap the foreign objects have classes, which are held with the rest. -/
theorem Held.classes {vm : VM} {objs : List Address} (h : Held vm) (hsound : Sound vm objs) :
    ClassesHeld vm := by
  intro a obj ha hobj hforeign
  obtain ⟨c, -, hclass, -⟩ := hsound.classes.of_mem (hsound.markable.reachable a ha) hobj hforeign
  refine ⟨c, hclass, h.objects a obj ha hobj c (List.mem_append_left _ ?_)⟩
  rw [hclass]
  exact List.mem_singleton_self c

theorem body_stackCapacity {o o' : Obj} (h : o.body = o'.body) :
    o.stackCapacity = o'.stackCapacity := by
  unfold Obj.stackCapacity
  rw [show o.data = o'.data from congrArg Prod.fst h]

/-- A slot stays where the fiber does. -/
theorem SlotOk.congr {heap heap' : Address → Option Obj} {obj : Obj} (h : SlotOk heap obj)
    (hbody : ∀ a ∈ Memory.beyond obj, (heap' a).map Obj.body = (heap a).map Obj.body) :
    SlotOk heap' obj := by
  obtain ⟨data, isDark, classObj, next⟩ := obj
  cases data with
  | upvalue value held nextOpen =>
      cases value with
      | own => exact trivial
      | slot fiber index =>
          obtain ⟨capacity, hcapacity, hindex⟩ := h
          have hread : ((some fiber).bind heap').bind Obj.stackCapacity
              = ((some fiber).bind heap).bind Obj.stackCapacity :=
            read_body (fun o o' => body_stackCapacity) fun b hb => by
              rw [Option.toList_some, List.mem_singleton] at hb
              rw [hb]
              exact hbody fiber (List.mem_append_right _ (List.mem_singleton_self fiber))
          exact ⟨capacity, hread.trans hcapacity, hindex⟩
  | _ => exact trivial

section Collected

variable {size : Sizes} {vm vm' : VM} {objs live : List Address}
  (h : Collected size vm objs live vm')
include h

theorem Collected.beyondRoots : Memory.beyondRoots vm' = Memory.beyondRoots vm := by
  have hroots := congrArg Memory.beyondRoots h.rest
  exact hroots

/-- What is lost is lost to the program. -/
theorem Collected.held (hintact : Intact vm objs) (hintact' : Intact vm' live) : Held vm := by
  have hreach := h.reachable hintact.toSound
  refine ⟨fun a ha => ?_, fun a obj ha hobj b hb => ?_⟩
  · refine (h.mem_live a).mp (hintact'.accessible a (Reach.root (List.mem_append_right _ ?_)))
    rwa [h.beyondRoots]
  · obtain ⟨obj₀, next, hobj₀, hobj'⟩ := h.kept a ((h.mem_live a).mpr ha)
    rw [hobj, Option.some.injEq] at hobj₀
    subst hobj₀
    have haccess := accessible_of_reachable ((hreach a).mpr ha)
    exact (h.mem_live b).mp (hintact'.accessible b (haccess.beyond hobj' hb))

/-- What is held stays held. -/
theorem Collected.held_of_held (hsound : Sound vm objs) (hheld : Held vm) : Held vm' := by
  have hreach := h.reachable hsound
  refine ⟨fun a ha => ?_, fun a obj' ha hobj' b hb => ?_⟩
  · rw [h.beyondRoots] at ha
    exact (hreach a).mpr (hheld.roots a ha)
  · have ha := (hreach a).mp ha
    obtain ⟨obj, next, hobj, heq⟩ := h.kept a ((h.mem_live a).mpr ha)
    rw [heq, Option.some.injEq] at hobj'
    subst hobj'
    exact (hreach b).mpr (hheld.objects a obj ha hobj b hb)

/-- **After a collection the heap is intact** if and only if all that the program gets at was
held. -/
theorem Collected.intact_iff (hintact : Intact vm objs) : Intact vm' live ↔ Held vm := by
  refine ⟨h.held hintact, fun hheld => ?_⟩
  have hsound' := (h.sound_iff hintact.toSound).mpr (hheld.classes hintact.toSound)
  have hreach : ∀ a, Accessible vm' a → Reachable vm a := fun a ha =>
    (h.reachable hintact.toSound a).mp ((h.held_of_held hintact.toSound hheld).reachable ha)
  refine ⟨hsound', fun a ha => (h.mem_live a).mpr (hreach a ha),
    fun a obj ha hobj => hsound'.markable.regular a obj
      ((h.reachable hintact.toSound a).mpr (hreach a ha)) hobj, fun a obj' ha hobj' => ?_⟩
  have ha := hreach a ha
  obtain ⟨obj, next, hobj, heq⟩ := h.kept a ((h.mem_live a).mpr ha)
  rw [heq, Option.some.injEq] at hobj'
  subst hobj'
  -- the link of an object is no matter of its slot
  have hslot : SlotOk vm.heap { obj with next := next } :=
    hintact.slots a obj (accessible_of_reachable ha) hobj
  exact SlotOk.congr hslot fun b hb => h.body (hheld.objects a obj ha hobj b hb)

end Collected

/-- **The program runs** for a while.  It keeps the list of all objects and the marks, and what
it can get at afterwards is what it could get at before, or the object it created last. -/
structure Runs (vm vm' : VM) : Prop where
  linked : nextObj vm'.heap = nextObj vm.heap
  first : vm'.first = vm.first
  white : ∀ a obj, vm'.heap a = some obj → obj.isDark = false
  gray : vm'.gray = []
  capacity : 0 < vm'.grayCapacity
  accessible : ∀ a, Accessible vm' a → Accessible vm a ∨ vm.first = some a
  regular : ∀ a obj, Accessible vm' a → vm'.heap a = some obj → Regular vm'.heap obj
  slots : ∀ a obj, Accessible vm' a → vm'.heap a = some obj → SlotOk vm'.heap obj
  foreign : ∀ a obj', vm'.heap a = some obj' → obj'.isForeign = true →
    ∃ obj, vm.heap a = some obj ∧ obj.isForeign = true ∧ obj.classObj = obj'.classObj
  classes : ∀ c, ClassOk vm c → ClassOk vm' c

/-- What happens to the heap: the program runs, an object is created where there is none, or
what cannot be reached is collected.  All that the program gets at has to be held by then. -/
inductive Step (size : Sizes) : VM → VM → Prop
  | run {vm vm' : VM} (h : Runs vm vm') : Step size vm vm'
  | create {vm : VM} (a : Address) (data : Data) (classObj : Option Address)
      (ha : vm.heap a = none)
      (hclass : data = .foreign → ∃ c, classObj = some c ∧ ClassOk vm c) :
      Step size vm (initObj vm a data classObj)
  | collect {vm vm' : VM} {fuel : Nat} (hheld : Held vm)
      (hfuel : ∀ objs, IsList (nextObj vm.heap) vm.first objs → objs.length < fuel)
      (h : wrenCollectGarbage size fuel vm = .ok vm') : Step size vm vm'

theorem isSome_nextObj (heap : Address → Option Obj) (a : Address) :
    (nextObj heap a).isSome = (heap a).isSome := Option.isSome_map

/-- Classes stay behind their objects when nothing is freed. -/
theorem ClassesLater.all {vm vm' : VM} {l : List Address} (h : ClassesLater vm l)
    (hforeign : ∀ a ∈ l, ∀ obj', vm'.heap a = some obj' → obj'.isForeign = true →
      ∃ obj, vm.heap a = some obj ∧ obj.isForeign = true ∧ obj.classObj = obj'.classObj)
    (hclasses : ∀ c, ClassOk vm c → ClassOk vm' c) : ClassesLater vm' l := by
  have hall : ClassesLater vm' (l.filter fun _ => true) :=
    h.filter fun a ha _ obj' hobj' hforeign' => by
      obtain ⟨obj, hobj, hforeign, hclass⟩ := hforeign a ha obj' hobj' hforeign'
      exact ⟨obj, hobj, hforeign, hclass, fun c _ hok => ⟨rfl, hclasses c hok⟩⟩
  rwa [List.filter_true] at hall

/-- What the program does keeps the heap intact. -/
theorem Runs.intact {vm vm' : VM} {objs : List Address} (h : Runs vm vm')
    (hintact : Intact vm objs) : Intact vm' objs := by
  have hallocated : ∀ a, (vm'.heap a).isSome = true ↔ a ∈ objs := by
    intro a
    rw [← isSome_nextObj, h.linked, isSome_nextObj]
    exact hintact.markable.allocated a
  have haccessible : ∀ a, Accessible vm' a → a ∈ objs := by
    intro a ha
    rcases h.accessible a ha with hbefore | hfirst
    · exact hintact.accessible a hbefore
    · have hlinked := hintact.linked
      rw [hfirst] at hlinked
      cases objs with
      | nil => cases hlinked
      | cons b objs =>
          rw [Option.some.inj hlinked.1]
          exact List.mem_cons_self
  have hlinked : IsList (nextObj vm'.heap) vm'.first objs := by
    rw [h.linked, h.first]
    exact hintact.linked
  exact {
    markable := ⟨hallocated, fun a ha => haccessible a (accessible_of_reachable ha),
      fun a obj ha => h.regular a obj (accessible_of_reachable ha)⟩
    linked := hlinked
    white := h.white
    gray := h.gray
    capacity := h.capacity
    classes := hintact.classes.all (fun a _ => h.foreign a) h.classes
    accessible := haccessible
    regular := h.regular
    slots := h.slots }

section Create

variable {vm : VM} {objs : List Address} (hintact : Intact vm objs) {a : Address}
  (ha : vm.heap a = none) (data : Data) (classObj : Option Address)

theorem initObj_other {b : Address} (hb : b ≠ a) :
    (initObj vm a data classObj).heap b = vm.heap b := Function.update_of_ne hb _ _

theorem initObj_new : (initObj vm a data classObj).heap a
    = some ⟨data, false, classObj, vm.first⟩ := Function.update_self _ _ _

include hintact ha

/-- A new object is none of those that are there. -/
theorem Intact.not_mem : a ∉ objs := by
  intro hmem
  have hsome := (hintact.markable.allocated a).mpr hmem
  rw [ha] at hsome
  cases hsome

theorem Intact.initObj_of_mem {b : Address} (hb : b ∈ objs) :
    (initObj vm a data classObj).heap b = vm.heap b :=
  initObj_other data classObj fun heq => hintact.not_mem ha (heq ▸ hb)

/-- What the program gets at does not depend on the new object. -/
theorem Intact.pointers_initObj {b : Address} (hb : Accessible vm b) {obj : Obj}
    (hobj : vm.heap b = some obj) :
    pointers (initObj vm a data classObj).heap obj = pointers vm.heap obj ∧
      Regular (initObj vm a data classObj).heap obj := by
  refine pointers_congr rfl (hintact.regular b obj hb hobj) fun x hx => ?_
  have hedge : x ∈ edges vm.heap b := by
    unfold edges
    rw [hobj]
    exact hx
  rw [hintact.initObj_of_mem ha data classObj
    (hintact.accessible x (hb.step (List.mem_append_left _ hedge)))]

theorem Intact.accessible_initObj {b : Address} (hb : Accessible (initObj vm a data classObj) b) :
    Accessible vm b := by
  refine Reach.mono (fun x hx => Reach.root hx) (fun x hx y hy => ?_) hb
  have hmem := hintact.accessible x hx
  obtain ⟨obj, hobj⟩ := Option.isSome_iff_exists.mp ((hintact.markable.allocated x).mpr hmem)
  refine hx.step ?_
  unfold edges at hy ⊢
  rw [hintact.initObj_of_mem ha data classObj hmem, hobj] at hy
  rw [hobj]
  show y ∈ pointers vm.heap obj ++ beyond obj
  rw [← (hintact.pointers_initObj ha data classObj hx hobj).1]
  exact hy

theorem Intact.classOk_initObj {c : Address} (hc : ClassOk vm c) :
    c ∈ objs ∧ ClassOk (initObj vm a data classObj) c := by
  have hmem : c ∈ objs := by
    obtain ⟨methods, hmethods⟩ := Option.isSome_iff_exists.mp hc.1
    obtain ⟨obj, hobj, -⟩ := Option.bind_eq_some_iff.mp hmethods
    exact (hintact.markable.allocated c).mp (by rw [hobj]; rfl)
  refine ⟨hmem, ?_⟩
  unfold ClassOk finalizerOf at hc ⊢
  rw [Option.bind_some] at hc ⊢
  rw [hintact.initObj_of_mem ha data classObj hmem]
  exact hc

/-- The new object is the first of the list. -/
theorem Intact.linked_initObj : IsList (nextObj (initObj vm a data classObj).heap)
    (initObj vm a data classObj).first (a :: objs) := by
  refine ⟨rfl, vm.first, ?_, hintact.linked.congr fun b hb => ?_⟩
  · unfold nextObj
    rw [initObj_new]
    rfl
  · unfold nextObj
    rw [hintact.initObj_of_mem ha data classObj hb]

theorem Intact.classesLater_initObj
    (hclass : data = .foreign → ∃ c, classObj = some c ∧ ClassOk vm c) :
    ClassesLater (initObj vm a data classObj) (a :: objs) := by
  refine ⟨fun obj hobj hforeign => ?_, hintact.classes.all (fun b hb obj' hobj' hforeign => ?_)
    fun c hc => (hintact.classOk_initObj ha data classObj hc).2⟩
  · rw [initObj_new, Option.some.injEq] at hobj
    subst hobj
    have hdata : data = .foreign := by
      unfold Obj.isForeign at hforeign
      cases data <;> simp_all
    obtain ⟨c, hc, hclassOk⟩ := hclass hdata
    obtain ⟨hmem, hok⟩ := hintact.classOk_initObj ha data classObj hclassOk
    exact ⟨c, hmem, hc, hok⟩
  · rw [hintact.initObj_of_mem ha data classObj hb] at hobj'
    exact ⟨obj', hobj', hforeign, rfl⟩

/-- **A new object** keeps the heap intact. -/
theorem Intact.initObj (hclass : data = .foreign → ∃ c, classObj = some c ∧ ClassOk vm c) :
    Intact (initObj vm a data classObj) (a :: objs) := by
  have haccessible : ∀ b, Accessible (Memory.initObj vm a data classObj) b → b ∈ objs :=
    fun b hb => hintact.accessible b (hintact.accessible_initObj ha data classObj hb)
  have hallocated : ∀ b, ((Memory.initObj vm a data classObj).heap b).isSome = true ↔
      b ∈ a :: objs := by
    intro b
    by_cases hb : b = a
    · rw [hb, initObj_new]
      exact ⟨fun _ => List.mem_cons_self, fun _ => rfl⟩
    · rw [initObj_other data classObj hb, List.mem_cons, hintact.markable.allocated b]
      exact ⟨Or.inr, fun h => h.resolve_left hb⟩
  have hregular : ∀ b obj, Accessible (Memory.initObj vm a data classObj) b →
      (Memory.initObj vm a data classObj).heap b = some obj →
        Regular (Memory.initObj vm a data classObj).heap obj := by
    intro b obj hb hobj
    rw [hintact.initObj_of_mem ha data classObj (haccessible b hb)] at hobj
    exact (hintact.pointers_initObj ha data classObj
      (hintact.accessible_initObj ha data classObj hb) hobj).2
  have hwhite : ∀ b obj, (Memory.initObj vm a data classObj).heap b = some obj →
      obj.isDark = false := by
    intro b obj hobj
    by_cases hb : b = a
    · rw [hb, initObj_new, Option.some.injEq] at hobj
      rw [← hobj]
    · rw [initObj_other data classObj hb] at hobj
      exact hintact.white b obj hobj
  have hslots : ∀ b obj, Accessible (Memory.initObj vm a data classObj) b →
      (Memory.initObj vm a data classObj).heap b = some obj →
        SlotOk (Memory.initObj vm a data classObj).heap obj := by
    intro b obj hb hobj
    rw [hintact.initObj_of_mem ha data classObj (haccessible b hb)] at hobj
    have hb := hintact.accessible_initObj ha data classObj hb
    refine SlotOk.congr (hintact.slots b obj hb hobj) fun x hx => ?_
    rw [hintact.initObj_of_mem ha data classObj (hintact.accessible x (hb.beyond hobj hx))]
  exact {
    markable := ⟨hallocated,
      fun b hb => List.mem_cons_of_mem a (haccessible b (accessible_of_reachable hb)),
      fun b obj hb => hregular b obj (accessible_of_reachable hb)⟩
    linked := hintact.linked_initObj ha data classObj
    white := hwhite
    gray := hintact.gray
    capacity := hintact.capacity
    classes := hintact.classesLater_initObj ha data classObj hclass
    accessible := fun b hb => List.mem_cons_of_mem a (haccessible b hb)
    regular := hregular
    slots := hslots }

end Create

/-- **Whatever happens keeps the heap intact.** -/
theorem Step.intact {size : Sizes} {vm vm' : VM} (h : Step size vm vm') {objs : List Address}
    (hintact : Intact vm objs) : ∃ objs', Intact vm' objs' := by
  cases h with
  | run h => exact ⟨objs, h.intact hintact⟩
  | create a data classObj ha hclass =>
      exact ⟨a :: objs, hintact.initObj ha data classObj hclass⟩
  | collect hheld hfuel h =>
      obtain ⟨vm₁, live, hrun, hcollected⟩ := @wrenCollectGarbage_eq size vm objs hintact.toSound _
        (hfuel objs hintact.linked)
      rw [h, Except.ok.injEq] at hrun
      subst hrun
      exact ⟨live, (hcollected.intact_iff hintact).mpr hheld⟩

/-- A class with a finalizer, an object of it, a list and the string that is in it. -/
def smallHeap : Address → Option Obj
  | 0 => some ⟨.class_ none 0 [.foreign] 1 none, false, none, none⟩
  | 1 => some ⟨.list [.obj 2] 1, false, none, some 0⟩
  | 2 => some ⟨.string 3, false, none, some 1⟩
  | 3 => some ⟨.foreign, false, some 0, some 2⟩
  | _ => none

/-- Only the list is held. -/
def smallVM : VM where
  heap := smallHeap
  first := some 3
  gray := []
  grayCapacity := 4
  bytesAllocated := 0
  nextGC := 0
  modules := some 1
  tempRoots := []
  fiber := none
  handles := []
  compiling := none
  methodNames := ⟨[], 0⟩
  finalize := 0
  heapGrowthPercent := 50
  minHeapSize := 1024
  finalized := []

theorem reachable_smallVM {a : Address} (h : Reachable smallVM a) : a = 1 ∨ a = 2 := by
  induction h with
  | root h => exact Or.inl (List.mem_singleton.mp h)
  | @step x y hx hy ih =>
      rcases ih with rfl | rfl
      · exact Or.inr (List.mem_singleton.mp hy)
      · exact absurd hy List.not_mem_nil

theorem sound_smallVM : Sound smallVM [3, 2, 1, 0] := by
  have hheap : ∀ a obj, smallVM.heap a = some obj → a < 4 := by
    intro a obj hobj
    by_contra hlt
    obtain ⟨b, rfl⟩ := Nat.exists_eq_add_of_le (Nat.le_of_not_lt hlt)
    rw [Nat.add_comm] at hobj
    cases hobj
  refine ⟨⟨fun a => ⟨fun hsome => ?_, fun ha => ?_⟩, fun a ha => ?_, fun a obj ha hobj => ?_⟩,
    ⟨rfl, _, rfl, rfl, _, rfl, rfl, _, rfl, rfl, _, rfl, rfl⟩, fun a obj hobj => ?_, rfl,
    by decide, ⟨?_, ?_, ?_, ?_, trivial⟩⟩
  · obtain ⟨obj, hobj⟩ := Option.isSome_iff_exists.mp hsome
    have hlt := hheap a obj hobj
    interval_cases a <;> simp
  · fin_cases ha <;> rfl
  · rcases reachable_smallVM ha with rfl | rfl <;> simp
  · rcases reachable_smallVM ha with rfl | rfl <;> cases hobj <;> trivial
  · have hlt := hheap a obj hobj
    interval_cases a <;> cases hobj <;> rfl
  · intro obj hobj hforeign
    cases hobj
    refine ⟨0, by decide, rfl, rfl, fun method hmethod => ?_⟩
    cases hmethod
    exact Or.inr rfl
  all_goals
    intro obj hobj hforeign
    cases hobj
    cases hforeign

def smallSizes : Sizes := ⟨128, 48, 144, 96, 24, 48, 40, 96, 48, 41, 56, 16, 8, 24, 8, 1, 4, 16⟩

theorem wrenCollectGarbage_small : ∃ vm' live,
    wrenCollectGarbage smallSizes 5 smallVM = .ok vm' ∧
      Collected smallSizes smallVM [3, 2, 1, 0] live vm' :=
  wrenCollectGarbage_eq sound_smallVM (by decide)

/-! ### A dropped fiber -/

/-- An upvalue that is still open, and the fiber whose stack it points into. -/
def droppedHeap : Address → Option Obj
  | 0 => some ⟨.upvalue (.slot 1 0) .null none, false, none, some 1⟩
  | 1 => some ⟨.fiber [] 1 [.null] 4 (some 0) none .null, false, none, none⟩
  | _ => none

/-- The program has the upvalue, and has dropped the fiber. -/
def droppedVM : VM := { smallVM with
  heap := droppedHeap
  first := some 0
  modules := none
  tempRoots := [some 0] }

theorem reachable_droppedVM {a : Address} (h : Reachable droppedVM a) : a = 0 := by
  induction h with
  | root h => exact List.mem_singleton.mp h
  | @step x y hx hy ih =>
      subst ih
      exact absurd hy List.not_mem_nil

theorem isList_dropped : IsList (nextUpvalue droppedVM.heap) (some 0) [0] := ⟨rfl, none, rfl, rfl⟩

theorem accessible_droppedVM {a : Address} (h : Accessible droppedVM a) : a = 0 ∨ a = 1 := by
  induction h with
  | root h => exact Or.inl (List.mem_singleton.mp h)
  | @step x y hx hy ih =>
      rcases ih with rfl | rfl
      · exact Or.inr (List.mem_singleton.mp hy)
      · have hedges : edges droppedVM.heap 1 = [0] := by
          show [] ++ [] ++ upvaluesFrom droppedVM.heap (some 0) ++ [] ++ [] = _
          rw [upvaluesFrom_eq isList_dropped]
          rfl
        rw [hedges] at hy
        exact Or.inl (List.mem_singleton.mp hy)

theorem intact_droppedVM : Intact droppedVM [0, 1] := by
  have hheap : ∀ a obj, droppedVM.heap a = some obj → a = 0 ∨ a = 1 := by
    intro a obj hobj
    cases a with
    | zero => exact Or.inl rfl
    | succ a =>
        cases a with
        | zero => exact Or.inr rfl
        | succ a => cases hobj
  have hregular : ∀ a obj, droppedVM.heap a = some obj → Regular droppedVM.heap obj := by
    intro a obj hobj
    rcases hheap a obj hobj with rfl | rfl <;> cases hobj
    · exact trivial
    · exact ⟨[0], isList_dropped⟩
  refine ⟨⟨⟨fun a => ⟨fun hsome => ?_, fun ha => ?_⟩, fun a ha => ?_, fun a obj _ => hregular a obj⟩,
    ⟨rfl, _, rfl, rfl, _, rfl, rfl⟩, fun a obj hobj => ?_, rfl, by decide, ⟨?_, ?_, trivial⟩⟩,
    fun a ha => ?_, fun a obj _ => hregular a obj, fun a obj _ hobj => ?_⟩
  · obtain ⟨obj, hobj⟩ := Option.isSome_iff_exists.mp hsome
    rcases hheap a obj hobj with rfl | rfl <;> simp
  · fin_cases ha <;> rfl
  · rw [reachable_droppedVM ha]
    simp
  · rcases hheap a obj hobj with rfl | rfl <;> cases hobj <;> rfl
  · intro obj hobj hforeign
    cases hobj
    cases hforeign
  · intro obj hobj hforeign
    cases hobj
    cases hforeign
  · rcases accessible_droppedVM ha with rfl | rfl <;> simp
  · rcases hheap a obj hobj with rfl | rfl <;> cases hobj
    · exact ⟨4, rfl, by decide⟩
    · exact trivial

/-- The fiber is not held, so the upvalue is left with a pointer into what was freed. -/
example : ¬ Held droppedVM := by
  intro h
  have hreach := h.objects 0 _ (Reach.root (List.mem_singleton_self 0)) rfl 1
    (List.mem_singleton_self 1)
  exact absurd (reachable_droppedVM hreach) (by decide)

end Memory

end Wrenegade
