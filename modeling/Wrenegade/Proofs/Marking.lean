/-
What a collection marks.

While objects are marked the heap is the one before, with dark what the search has seen.  Each
function of the collector sees a list of objects, in order, and counts some bytes; put
together, the turns of the loop are the turns of the search, so that what is dark in the end is
what can be reached, and the memory that is counted is the memory of these objects.
-/
import Wrenegade.Lib.Tracing
import Wrenegade.Lib.Linked
import Wrenegade.Model.Garbage

namespace Wrenegade

namespace Memory

open WrenVM (Value Result access)
open Tracing Linked

/-! ### Pointers -/

def addressOf : Value → Option Address
  | .obj a => some a
  | _ => none

def methodClosure : Method → Option Address
  | .block closure => closure
  | _ => none

/-- The next open upvalue. -/
def nextUpvalue (heap : Address → Option Obj) (a : Address) : Option (Option Address) :=
  (heap a).bind Obj.upvalueNext

/-- The open upvalues of a fiber, if they are a list. -/
noncomputable def upvaluesFrom (heap : Address → Option Obj) (start : Option Address) :
    List Address :=
  open Classical in if h : ∃ l, IsList (nextUpvalue heap) start l then h.choose else []

theorem upvaluesFrom_eq {heap : Address → Option Obj} {start : Option Address} {l : List Address}
    (h : IsList (nextUpvalue heap) start l) : upvaluesFrom heap start = l := by
  have hex : ∃ l, IsList (nextUpvalue heap) start l := ⟨l, h⟩
  unfold upvaluesFrom
  rw [dif_pos hex]
  exact hex.choose_spec.unique h

/-- How many upvalues the function of a closure has. -/
def upvalueCount (heap : Address → Option Obj) (fn : Option Address) : Nat :=
  ((fn.bind heap).bind Obj.numUpvalues).getD 0

/-- How many fields a class gives to its instances. -/
def fieldCount (heap : Address → Option Obj) (classObj : Option Address) : Nat :=
  ((classObj.bind heap).bind Obj.numFields).getD 0

def entryAddresses : Option Value × Value → List Address
  | (none, _) => []
  | (some key, value) => (addressOf key).toList ++ (addressOf value).toList

/-- What the collector follows from an object, in its order. -/
noncomputable def pointers (heap : Address → Option Obj) (obj : Obj) : List Address :=
  match obj.data with
  | .class_ superclass _ methods _ name =>
      obj.classObj.toList ++ superclass.toList ++ methods.filterMap methodClosure ++ name.toList
  | .closure fn upvalues => fn.toList ++ (upvalues.take (upvalueCount heap fn)).filterMap id
  | .fiber frames _ stack _ openUpvalues caller error =>
      frames.filterMap id ++ stack.filterMap addressOf ++ upvaluesFrom heap openUpvalues
        ++ caller.toList ++ (addressOf error).toList
  | .fn constants _ _ _ _ => constants.filterMap addressOf
  | .foreign => []
  | .instance_ fields =>
      obj.classObj.toList ++ (fields.take (fieldCount heap obj.classObj)).filterMap addressOf
  | .list elements _ => elements.filterMap addressOf
  | .map entries => entries.flatMap entryAddresses
  | .module_ moduleVariables variableNames name =>
      moduleVariables.filterMap addressOf ++ variableNames.data.filterMap id ++ name.toList
  | .range => []
  | .string _ => []
  | .upvalue _ closed _ => (addressOf closed).toList

noncomputable def edges (heap : Address → Option Obj) (a : Address) : List Address :=
  (heap a).elim [] (pointers heap)

def compilerRoots (compiler : Compiler) : List Address :=
  compiler.fn.toList ++ compiler.constants.toList
    ++ compiler.fields.elim [] fun fields => fields.data.filterMap id

def compilingRoots (compiling : Compiling) : List Address :=
  (addressOf compiling.current).toList ++ (addressOf compiling.previous).toList
    ++ compiling.compilers.flatMap compilerRoots

/-- The roots, in the order they are marked. -/
def roots (vm : VM) : List Address :=
  vm.modules.toList ++ vm.tempRoots.filterMap id ++ vm.fiber.toList
    ++ vm.handles.filterMap addressOf ++ vm.compiling.elim [] compilingRoots
    ++ vm.methodNames.data.filterMap id

/-- What the collector reaches. -/
def Reachable (vm : VM) : Address → Prop := Reach (roots vm) (edges vm.heap)

/-! ### Memory -/

variable (size : Sizes)

/-- What is counted for an object. -/
def objBytes (heap : Address → Option Obj) (obj : Obj) : Nat :=
  match obj.data with
  | .class_ _ _ _ methodCapacity _ => size.class_ + methodCapacity * size.method
  | .closure fn _ => size.closure + size.pointer * upvalueCount heap fn
  | .fiber _ frameCapacity _ stackCapacity _ _ _ =>
      size.fiber + frameCapacity * size.callFrame + stackCapacity * size.value
  | .fn _ constantCapacity codeCapacity _ _ =>
      size.fn + size.byte * codeCapacity + size.value * constantCapacity + size.int * codeCapacity
  | .foreign => 0
  | .instance_ _ => size.instance_ + size.value * fieldCount heap obj.classObj
  | .list _ capacity => size.list + size.value * capacity
  | .map entries => size.map + size.mapEntry * entries.length
  | .module_ _ variableNames _ => variableNames.capacity * size.pointer + size.module_
  | .range => size.range
  | .string length => size.string + length + 1
  | .upvalue _ _ _ => size.upvalue

def bytesAt (heap : Address → Option Obj) (a : Address) : Nat :=
  (heap a).elim 0 (objBytes size heap)

/-- What is counted for the roots: the tables of symbols. -/
def rootBytes (vm : VM) : Nat :=
  (vm.compiling.elim 0 fun compiling => (compiling.compilers.map fun compiler =>
    compiler.fields.elim 0 fun fields => fields.capacity * size.pointer).sum)
    + vm.methodNames.capacity * size.pointer

/-! ### Well-formed objects -/

/-- What the collector takes for granted of an object that it follows. -/
def Regular (heap : Address → Option Obj) (obj : Obj) : Prop :=
  match obj.data with
  | .closure fn upvalues => ∃ n, (fn.bind heap).bind Obj.numUpvalues = some n ∧ n ≤ upvalues.length
  | .instance_ fields => ∃ n, (obj.classObj.bind heap).bind Obj.numFields = some n ∧
      n ≤ fields.length
  | .fiber _ _ _ _ openUpvalues _ _ => ∃ l, IsList (nextUpvalue heap) openUpvalues l
  | _ => True

/-! ### The heap while it is marked -/

/-- The objects, with those dark that were seen. -/
def paint (s : Marks Address) (heap : Address → Option Obj) (a : Address) : Option Obj :=
  (heap a).map fun obj => { obj with isDark := decide (s.Dark a) }

/-- The machine in the middle of marking. -/
def VM.marked (vm : VM) (s : Marks Address) (capacity : Nat) (bytes : BitVec 64) : VM :=
  { vm with
    heap := paint s vm.heap
    gray := s.gray
    grayCapacity := capacity
    bytesAllocated := bytes }

/-- Some objects were seen, and some bytes counted, since the collection began. -/
def Seen (vm₀ : VM) (s : Marks Address) (bytes : BitVec 64) (vm : VM) : Prop :=
  ∃ capacity, vm = vm₀.marked s capacity bytes ∧ s.gray.length ≤ capacity ∧ 0 < capacity

variable {size} {vm₀ vm : VM} {s : Marks Address} {bytes : BitVec 64}

theorem paint_visit {heap : Address → Option Obj} {a : Address} {obj : Obj}
    (ha : heap a = some obj) :
    Function.update (paint s heap) a (some { obj with isDark := true }) = paint (s.visit a) heap := by
  funext b
  unfold paint
  by_cases hb : b = a
  · subst hb
    rw [Function.update_self, ha, Option.map_some, decide_eq_true (Marks.dark_visit.mpr (Or.inl rfl))]
  · rw [Function.update_of_ne hb]
    have hdark : decide (s.Dark b) = decide ((s.visit a).Dark b) := by
      rw [decide_eq_decide, Marks.dark_visit]
      constructor
      · exact Or.inr
      · rintro (heq | hdark)
        · exact absurd heq hb
        · exact hdark
    rw [hdark]

/-- An object that was not seen is pushed. -/
theorem pushGray_eq (h : Seen vm₀ s bytes vm) {a : Address} {obj : Obj}
    (ha : vm₀.heap a = some obj) (hdark : ¬ s.Dark a) :
    ∃ vm', pushGray vm a { obj with isDark := false } = .ok vm' ∧
      Seen vm₀ (s.visit a) bytes vm' := by
  obtain ⟨capacity, rfl, hroom, hpos⟩ := h
  have hlt : s.gray.length < if capacity ≤ s.gray.length then s.gray.length * 2 else capacity := by
    split <;> omega
  have hpush : pushGray (vm₀.marked s capacity bytes) a { obj with isDark := false }
      = .ok { vm₀.marked s capacity bytes with
          heap := Function.update (paint s vm₀.heap) a (some { obj with isDark := true })
          gray := a :: s.gray
          grayCapacity := if capacity ≤ s.gray.length then s.gray.length * 2 else capacity } :=
    if_pos hlt
  rw [paint_visit ha] at hpush
  refine ⟨_, hpush, _, ?_, ?_, Nat.zero_lt_of_lt hlt⟩
  · unfold VM.marked
    rw [Marks.visit_of_not_dark hdark]
  · rw [Marks.visit_of_not_dark hdark]
    exact hlt

/-- **To gray an object** is to see it. -/
theorem wrenGrayObj_eq (h : Seen vm₀ s bytes vm) {a : Address} {obj : Obj}
    (ha : vm₀.heap a = some obj) :
    ∃ vm', wrenGrayObj vm (some a) = .ok vm' ∧ Seen vm₀ (s.visit a) bytes vm' := by
  have hget : vm.heap a = some { obj with isDark := decide (s.Dark a) } := by
    obtain ⟨capacity, rfl, -⟩ := h
    show paint s vm₀.heap a = _
    rw [paint, ha]
    rfl
  have hgray : wrenGrayObj vm (some a) = if decide (s.Dark a) = true then Except.ok vm
      else pushGray vm a { obj with isDark := decide (s.Dark a) } := by
    unfold wrenGrayObj
    simp only [hget]
    rfl
  rw [hgray]
  by_cases hdark : s.Dark a
  · exact ⟨vm, if_pos (decide_eq_true hdark), by rwa [Marks.visit_of_dark hdark]⟩
  · rw [decide_eq_false hdark, if_neg Bool.false_ne_true]
    exact pushGray_eq h ha hdark

/-! ### What a function sees -/

/-- The function sees some objects, in order, and counts some bytes. -/
def Sees (vm₀ : VM) (f : VM → Result VM) (l : List Address) (n : Nat) : Prop :=
  ∀ s bytes vm, Seen vm₀ s bytes vm →
    ∃ vm', f vm = .ok vm' ∧ Seen vm₀ (s.visitAll l) (bytes + BitVec.ofNat 64 n) vm'

def Allocated (vm₀ : VM) (l : List Address) : Prop := ∀ a ∈ l, (vm₀.heap a).isSome

theorem sees_pure : Sees vm₀ pure [] 0 := by
  intro s bytes vm h
  exact ⟨vm, rfl, by simpa [Marks.visitAll] using h⟩

/-- **One after the other.** -/
theorem Sees.bind {f g : VM → Result VM} {l m : List Address} {n k : Nat}
    (hf : Sees vm₀ f l n) (hg : Sees vm₀ g m k) :
    Sees vm₀ (fun vm => f vm >>= g) (l ++ m) (n + k) := by
  intro s bytes vm h
  obtain ⟨vm₁, hf, h₁⟩ := hf s bytes vm h
  obtain ⟨vm₂, hg, h₂⟩ := hg _ _ vm₁ h₁
  refine ⟨vm₂, ?_, ?_⟩
  · show (f vm >>= g) = _
    rw [hf]
    exact hg
  · rwa [Marks.visitAll_append, BitVec.ofNat_add, ← BitVec.add_assoc]

/-- **A loop** over what the elements lead to. -/
theorem sees_foldlM {γ : Type} {f : VM → γ → Result VM} {p : γ → List Address} {c : γ → Nat}
    {xs : List γ} (h : ∀ x ∈ xs, Sees vm₀ (fun vm => f vm x) (p x) (c x)) :
    Sees vm₀ (fun vm => xs.foldlM f vm) (xs.flatMap p) (xs.map c).sum := by
  induction xs with
  | nil => exact sees_pure
  | cons x xs ih =>
      rw [List.forall_mem_cons] at h
      have hrest := h.1.bind (ih h.2)
      intro s bytes vm hseen
      obtain ⟨vm', hrun, hseen'⟩ := hrest s bytes vm hseen
      refine ⟨vm', ?_, ?_⟩
      · show (x :: xs).foldlM f vm = _
        rw [List.foldlM_cons]
        exact hrun
      · rwa [List.flatMap_cons, List.map_cons, List.sum_cons]

theorem sees_count (n : Nat) : Sees vm₀ (fun vm => pure (vm.count n)) [] n := by
  rintro s bytes vm ⟨capacity, rfl, hroom, hpos⟩
  exact ⟨_, rfl, capacity, rfl, hroom, hpos⟩

theorem sees_wrenGrayObj {p : Option Address} (hp : Allocated vm₀ p.toList) :
    Sees vm₀ (fun vm => wrenGrayObj vm p) p.toList 0 := by
  intro s bytes vm h
  cases p with
  | none => exact sees_pure s bytes vm h
  | some a =>
      obtain ⟨obj, hobj⟩ := Option.isSome_iff_exists.mp (hp a (by simp))
      obtain ⟨vm', hgray, hseen⟩ := wrenGrayObj_eq h hobj
      exact ⟨vm', hgray, by simpa [Marks.visitAll] using hseen⟩

theorem sees_wrenGrayValue {value : Value} (hvalue : Allocated vm₀ (addressOf value).toList) :
    Sees vm₀ (fun vm => wrenGrayValue vm value) (addressOf value).toList 0 := by
  cases value with
  | obj a => exact sees_wrenGrayObj hvalue
  | null => exact sees_pure
  | bool b => exact sees_pure
  | num x => exact sees_pure

theorem Sees.congr {f : VM → Result VM} {l m : List Address} {n k : Nat} (h : Sees vm₀ f l n)
    (hl : l = m) (hn : n = k) : Sees vm₀ f m k := hl ▸ hn ▸ h

theorem allocated_append {l m : List Address} :
    Allocated vm₀ (l ++ m) ↔ Allocated vm₀ l ∧ Allocated vm₀ m := List.forall_mem_append

/-- A loop over elements that lead to one object or to none. -/
theorem sees_filterMap {γ : Type} {f : VM → γ → Result VM} {p : γ → Option Address} {xs : List γ}
    (h : ∀ x, Allocated vm₀ (p x).toList → Sees vm₀ (fun vm => f vm x) (p x).toList 0)
    (hxs : Allocated vm₀ (xs.filterMap p)) :
    Sees vm₀ (fun vm => xs.foldlM f vm) (xs.filterMap p) 0 := by
  have hall : ∀ x ∈ xs, Sees vm₀ (fun vm => f vm x) (p x).toList 0 := by
    intro x hx
    refine h x fun a ha => hxs a ?_
    exact List.mem_filterMap.mpr ⟨x, hx, Option.mem_toList.mp ha⟩
  refine (sees_foldlM hall).congr ?_ (by simp)
  clear hxs hall
  induction xs with
  | nil => rfl
  | cons x xs ih =>
      rw [List.flatMap_cons, ih, List.filterMap_cons]
      cases p x <;> rfl

theorem sees_wrenGrayBuffer {values : List Value} (h : Allocated vm₀ (values.filterMap addressOf)) :
    Sees vm₀ (fun vm => wrenGrayBuffer vm values) (values.filterMap addressOf) 0 :=
  sees_filterMap (fun _ hvalue => sees_wrenGrayValue hvalue) h

theorem sees_objects {objs : List (Option Address)} (h : Allocated vm₀ (objs.filterMap id)) :
    Sees vm₀ (fun vm => objs.foldlM wrenGrayObj vm) (objs.filterMap id) 0 :=
  sees_filterMap (fun _ hobj => sees_wrenGrayObj hobj) h

theorem sees_methods {methods : List Method} (h : Allocated vm₀ (methods.filterMap methodClosure)) :
    Sees vm₀ (fun vm => methods.foldlM grayMethod vm) (methods.filterMap methodClosure) 0 := by
  refine sees_filterMap (fun method hmethod => ?_) h
  cases method with
  | block closure => exact sees_wrenGrayObj hmethod
  | primitive => exact sees_pure
  | foreign => exact sees_pure
  | none => exact sees_pure

theorem sees_entries {entries : List (Option Value × Value)}
    (h : Allocated vm₀ (entries.flatMap entryAddresses)) :
    Sees vm₀ (fun vm => entries.foldlM grayEntry vm) (entries.flatMap entryAddresses) 0 := by
  refine (sees_foldlM (p := entryAddresses) (c := fun _ => 0)
    fun entry hentry => ?_).congr rfl (by simp)
  have hall : Allocated vm₀ (entryAddresses entry) := by
    intro a ha
    exact h a (List.mem_flatMap.mpr ⟨entry, hentry, ha⟩)
  obtain ⟨key, value⟩ := entry
  cases key with
  | none => exact sees_pure
  | some key =>
      obtain ⟨hkey, hvalue⟩ := allocated_append.mp hall
      exact (sees_wrenGrayValue hkey).bind (sees_wrenGrayValue hvalue)

/-- A table of symbols is counted, too. -/
theorem sees_wrenBlackenSymbolTable (size : Sizes) {table : SymbolTable}
    (h : Allocated vm₀ (table.data.filterMap id)) :
    Sees vm₀ (fun vm => wrenBlackenSymbolTable size vm table) (table.data.filterMap id)
      (table.capacity * size.pointer) :=
  ((sees_objects h).bind (sees_count _)).congr (List.append_nil _) (Nat.zero_add _)

/-! ### What objects lead to -/

/-- Only the marks of the objects change. -/
theorem Seen.read (h : Seen vm₀ s bytes vm) {γ : Type} {f : Obj → Option γ}
    (hf : ∀ obj d, f { obj with isDark := d } = f obj) (a : Address) :
    (vm.heap a).bind f = (vm₀.heap a).bind f := by
  obtain ⟨capacity, rfl, -⟩ := h
  show (paint s vm₀.heap a).bind f = _
  unfold paint
  cases vm₀.heap a with
  | none => rfl
  | some obj => exact hf obj _

theorem Seen.readAt (h : Seen vm₀ s bytes vm) {γ : Type} {f : Obj → Option γ}
    (hf : ∀ obj d, f { obj with isDark := d } = f obj) (p : Option Address) :
    (p.bind vm.heap).bind f = (p.bind vm₀.heap).bind f := by
  cases p with
  | none => rfl
  | some a => exact h.read hf a

theorem sees_grayOpenUpvalues {fuel : Nat} {l : List Address} {start : Option Address}
    (hlist : IsList (nextUpvalue vm₀.heap) start l) (hl : Allocated vm₀ l)
    (hfuel : l.length < fuel) :
    Sees vm₀ (fun vm => grayOpenUpvalues fuel vm start) l 0 := by
  induction l generalizing start fuel with
  | nil =>
      obtain ⟨fuel, rfl⟩ := Nat.exists_eq_succ_of_ne_zero (n := fuel) (by omega)
      have hstart : start = none := hlist
      subst hstart
      exact sees_pure
  | cons a l ih =>
      obtain ⟨fuel, rfl⟩ := Nat.exists_eq_succ_of_ne_zero (n := fuel) (by omega)
      obtain ⟨rfl, rest, hnext, hrest⟩ := hlist
      rw [List.length_cons] at hfuel
      have hfirst : Sees vm₀ (fun vm => wrenGrayObj vm (some a)) [a] 0 :=
        sees_wrenGrayObj fun b hb => hl b (by
          rw [Option.toList_some, List.mem_singleton] at hb
          rw [hb]
          exact List.mem_cons_self)
      intro s bytes vm h
      obtain ⟨vm₁, hgray, h₁⟩ := hfirst s bytes vm h
      obtain ⟨vm₂, hrun, h₂⟩ := ih hrest (fun b hb => hl b (List.mem_cons_of_mem a hb))
        (show l.length < fuel by omega) _ _ vm₁ h₁
      refine ⟨vm₂, ?_, by simpa [Marks.visitAll] using h₂⟩
      show (wrenGrayObj vm (some a) >>= fun vm =>
        access ((vm.heap a).bind Obj.upvalueNext) >>= fun next => grayOpenUpvalues fuel vm next) = _
      rw [show wrenGrayObj vm (some a) = _ from hgray]
      show (access ((vm₁.heap a).bind Obj.upvalueNext) >>= _) = _
      rw [h₁.read (fun _ _ => rfl), show (vm₀.heap a).bind Obj.upvalueNext = _ from hnext]
      exact hrun

theorem sees_blackenClosure {fn : Option Address} {upvalues : List (Option Address)} {n : Nat}
    (hfn : (fn.bind vm₀.heap).bind Obj.numUpvalues = some n) (hn : n ≤ upvalues.length)
    (hall : Allocated vm₀ (fn.toList ++ (upvalues.take n).filterMap id)) :
    Sees vm₀ (fun vm => blackenClosure size vm fn upvalues)
      (fn.toList ++ (upvalues.take n).filterMap id) (size.closure + size.pointer * n) := by
  obtain ⟨hfirst, hrest⟩ := allocated_append.mp hall
  have hloop := (sees_objects hrest).bind (sees_count (size.closure + size.pointer * n))
  refine ((sees_wrenGrayObj hfirst).bind (g := fun vm => do
    let n ← access ((fn.bind vm.heap).bind Obj.numUpvalues)
    if upvalues.length < n then throw .undefined
    else
      let vm ← (upvalues.take n).foldlM wrenGrayObj vm
      pure (vm.count (size.closure + size.pointer * n))) (m := (upvalues.take n).filterMap id)
    (k := size.closure + size.pointer * n) ?_).congr rfl (Nat.zero_add _)
  intro s bytes vm h
  obtain ⟨vm', hrun, hseen⟩ := hloop s bytes vm h
  refine ⟨vm', ?_, by simpa using hseen⟩
  show (access _ >>= _) = _
  rw [h.readAt (fun _ _ => rfl), hfn]
  show (if upvalues.length < n then _ else _) = _
  rw [if_neg (by omega)]
  exact hrun

theorem sees_blackenInstance {classObj : Option Address} {fields : List Value} {n : Nat}
    (hclass : (classObj.bind vm₀.heap).bind Obj.numFields = some n) (hn : n ≤ fields.length)
    (hall : Allocated vm₀ (classObj.toList ++ (fields.take n).filterMap addressOf)) :
    Sees vm₀ (fun vm => blackenInstance size vm classObj fields)
      (classObj.toList ++ (fields.take n).filterMap addressOf)
      (size.instance_ + size.value * n) := by
  obtain ⟨hfirst, hrest⟩ := allocated_append.mp hall
  have hloop := (sees_wrenGrayBuffer hrest).bind (sees_count (size.instance_ + size.value * n))
  refine ((sees_wrenGrayObj hfirst).bind (g := fun vm => do
    let n ← access ((classObj.bind vm.heap).bind Obj.numFields)
    if fields.length < n then throw .undefined
    else
      let vm ← wrenGrayBuffer vm (fields.take n)
      pure (vm.count (size.instance_ + size.value * n)))
    (m := (fields.take n).filterMap addressOf)
    (k := size.instance_ + size.value * n) ?_).congr rfl (Nat.zero_add _)
  intro s bytes vm h
  obtain ⟨vm', hrun, hseen⟩ := hloop s bytes vm h
  refine ⟨vm', ?_, by simpa using hseen⟩
  show (access _ >>= _) = _
  rw [h.readAt (fun _ _ => rfl), hclass]
  show (if fields.length < n then _ else _) = _
  rw [if_neg (by omega)]
  exact hrun

/-- **To blacken an object** is to see what it points to, and to count it. -/
theorem sees_blackenObject {limit : Nat} {obj : Obj} (hregular : Regular vm₀.heap obj)
    (hall : Allocated vm₀ (pointers vm₀.heap obj))
    (hlimit : ∀ l, l.Nodup → Allocated vm₀ l → l.length < limit) (d : Bool) :
    Sees vm₀ (fun vm => blackenObject size limit vm { obj with isDark := d })
      (pointers vm₀.heap obj) (objBytes size vm₀.heap obj) := by
  obtain ⟨data, isDark, classObj, next⟩ := obj
  cases data with
  | class_ superclass numFields methods methodCapacity name =>
      obtain ⟨hrest, hname⟩ := allocated_append.mp hall
      obtain ⟨hrest, hmethods⟩ := allocated_append.mp hrest
      obtain ⟨hclass, hsuper⟩ := allocated_append.mp hrest
      have hrun := (sees_wrenGrayObj hclass).bind ((sees_wrenGrayObj hsuper).bind
        ((sees_methods hmethods).bind ((sees_wrenGrayObj hname).bind
          (sees_count (size.class_ + methodCapacity * size.method)))))
      exact hrun.congr (by simp [pointers]) (by simp [objBytes])
  | closure fn upvalues =>
      obtain ⟨n, hfn, hn⟩ := hregular
      have hcount : upvalueCount vm₀.heap fn = n := by rw [upvalueCount, hfn, Option.getD_some]
      have hpointers : pointers vm₀.heap ⟨.closure fn upvalues, isDark, classObj, next⟩
          = fn.toList ++ (upvalues.take n).filterMap id := by
        show fn.toList ++ (upvalues.take (upvalueCount vm₀.heap fn)).filterMap id = _
        rw [hcount]
      have hbytes : size.closure + size.pointer * n
          = size.closure + size.pointer * upvalueCount vm₀.heap fn := by rw [hcount]
      rw [hpointers] at hall ⊢
      exact (sees_blackenClosure hfn hn hall).congr rfl hbytes
  | fiber frames frameCapacity stack stackCapacity openUpvalues caller error =>
      obtain ⟨l, hl⟩ := hregular
      obtain ⟨hrest, herror⟩ := allocated_append.mp hall
      obtain ⟨hrest, hcaller⟩ := allocated_append.mp hrest
      obtain ⟨hrest, hopen⟩ := allocated_append.mp hrest
      obtain ⟨hframes, hstack⟩ := allocated_append.mp hrest
      rw [upvaluesFrom_eq hl] at hopen
      have hrun := (sees_objects hframes).bind ((sees_wrenGrayBuffer hstack).bind
        ((sees_grayOpenUpvalues hl hopen (hlimit l hl.nodup hopen)).bind
          ((sees_wrenGrayObj hcaller).bind ((sees_wrenGrayValue herror).bind
            (sees_count (size.fiber + frameCapacity * size.callFrame
              + stackCapacity * size.value))))))
      exact hrun.congr (by simp [pointers, upvaluesFrom_eq hl]) (by simp [objBytes])
  | fn constants constantCapacity codeCapacity numUpvalues module_ =>
      exact ((sees_wrenGrayBuffer hall).bind (sees_count _)).congr (by simp [pointers])
        (by simp [objBytes])
  | foreign => exact sees_pure
  | instance_ fields =>
      obtain ⟨n, hclass, hn⟩ := hregular
      have hcount : fieldCount vm₀.heap classObj = n := by rw [fieldCount, hclass, Option.getD_some]
      have hpointers : pointers vm₀.heap ⟨.instance_ fields, isDark, classObj, next⟩
          = classObj.toList ++ (fields.take n).filterMap addressOf := by
        show classObj.toList ++ (fields.take (fieldCount vm₀.heap classObj)).filterMap addressOf = _
        rw [hcount]
      have hbytes : size.instance_ + size.value * n
          = size.instance_ + size.value * fieldCount vm₀.heap classObj := by rw [hcount]
      rw [hpointers] at hall ⊢
      exact (sees_blackenInstance hclass hn hall).congr rfl hbytes
  | list elements capacity =>
      exact ((sees_wrenGrayBuffer hall).bind (sees_count _)).congr (by simp [pointers])
        (by simp [objBytes])
  | map entries =>
      exact ((sees_entries hall).bind (sees_count _)).congr (by simp [pointers])
        (by simp [objBytes])
  | module_ moduleVariables variableNames name =>
      obtain ⟨hrest, hname⟩ := allocated_append.mp hall
      obtain ⟨hvariables, hnames⟩ := allocated_append.mp hrest
      have hrun := (sees_wrenGrayBuffer hvariables).bind ((sees_wrenBlackenSymbolTable size hnames).bind
        ((sees_wrenGrayObj hname).bind (sees_count size.module_)))
      exact hrun.congr (by simp [pointers]) (by simp [objBytes])
  | range => exact sees_count size.range
  | string length => exact sees_count (size.string + length + 1)
  | upvalue value closed next =>
      exact ((sees_wrenGrayValue hall).bind (sees_count _)).congr (by simp [pointers])
        (by simp [objBytes])

/-! ### The roots -/

theorem sees_markCompiler (size : Sizes) {compiler : Compiler} (h : Allocated vm₀ (compilerRoots compiler)) :
    Sees vm₀ (fun vm => markCompiler size vm compiler) (compilerRoots compiler)
      (compiler.fields.elim 0 fun fields => fields.capacity * size.pointer) := by
  obtain ⟨fn, constants, fields⟩ := compiler
  obtain ⟨hrest, hfields⟩ := allocated_append.mp h
  obtain ⟨hfn, hconstants⟩ := allocated_append.mp hrest
  cases fields with
  | none =>
      have hrun := (sees_wrenGrayObj hfn).bind ((sees_wrenGrayObj hconstants).bind sees_pure)
      exact hrun.congr (by simp [compilerRoots]) rfl
  | some fields =>
      have hrun := (sees_wrenGrayObj hfn).bind ((sees_wrenGrayObj hconstants).bind
        (sees_wrenBlackenSymbolTable size hfields))
      exact hrun.congr (by simp [compilerRoots]) (by simp)

theorem sees_wrenMarkCompiler (size : Sizes) {compiling : Option Compiling}
    (h : Allocated vm₀ (compiling.elim [] compilingRoots)) :
    Sees vm₀ (fun vm => wrenMarkCompiler size vm compiling) (compiling.elim [] compilingRoots)
      (compiling.elim 0 fun compiling => (compiling.compilers.map fun compiler =>
        compiler.fields.elim 0 fun fields => fields.capacity * size.pointer).sum) := by
  cases compiling with
  | none => exact sees_pure
  | some compiling =>
      obtain ⟨hrest, hcompilers⟩ := allocated_append.mp h
      obtain ⟨hcurrent, hprevious⟩ := allocated_append.mp hrest
      have hloop := sees_foldlM (f := markCompiler size) fun compiler hcompiler =>
        sees_markCompiler size fun a ha =>
          hcompilers a (List.mem_flatMap.mpr ⟨compiler, hcompiler, ha⟩)
      have hrun := (sees_wrenGrayValue hcurrent).bind ((sees_wrenGrayValue hprevious).bind hloop)
      exact hrun.congr (by simp [compilingRoots]) (by simp)

/-- What a function does while objects are marked is what counts. -/
theorem Sees.of_eq {f g : VM → Result VM} {l : List Address} {n : Nat} (hg : Sees vm₀ g l n)
    (h : ∀ s capacity bytes, f (vm₀.marked s capacity bytes) = g (vm₀.marked s capacity bytes)) :
    Sees vm₀ f l n := by
  rintro s bytes vm ⟨capacity, rfl, hroom, hpos⟩
  rw [h]
  exact hg s bytes _ ⟨capacity, rfl, hroom, hpos⟩

/-- **To mark the roots** is to see them. -/
theorem sees_markRoots (h : Allocated vm₀ (roots vm₀)) :
    Sees vm₀ (markRoots size) (roots vm₀) (rootBytes size vm₀) := by
  obtain ⟨hrest, hnames⟩ := allocated_append.mp h
  obtain ⟨hrest, hcompiling⟩ := allocated_append.mp hrest
  obtain ⟨hrest, hhandles⟩ := allocated_append.mp hrest
  obtain ⟨hrest, hfiber⟩ := allocated_append.mp hrest
  obtain ⟨hmodules, htemp⟩ := allocated_append.mp hrest
  have hrun := ((sees_wrenGrayObj hmodules).of_eq (f := fun vm => wrenGrayObj vm vm.modules)
      fun _ _ _ => rfl).bind
    (((sees_objects htemp).of_eq (f := fun vm => vm.tempRoots.foldlM wrenGrayObj vm)
      fun _ _ _ => rfl).bind
    (((sees_wrenGrayObj hfiber).of_eq (f := fun vm => wrenGrayObj vm vm.fiber)
      fun _ _ _ => rfl).bind
    (((sees_wrenGrayBuffer hhandles).of_eq (f := fun vm => vm.handles.foldlM wrenGrayValue vm)
      fun _ _ _ => rfl).bind
    (((sees_wrenMarkCompiler size hcompiling).of_eq
      (f := fun vm => wrenMarkCompiler size vm vm.compiling) fun _ _ _ => rfl).bind
    ((sees_wrenBlackenSymbolTable size hnames).of_eq
      (f := fun vm => wrenBlackenSymbolTable size vm vm.methodNames) fun _ _ _ => rfl)))))
  exact hrun.congr (by simp only [roots, List.append_assoc]) (by simp [rootBytes])

/-! ### All objects -/

/-- What the marking takes for granted: what can be reached is allocated and well-formed. -/
structure Markable (vm : VM) (objs : List Address) : Prop where
  allocated : ∀ a, (vm.heap a).isSome = true ↔ a ∈ objs
  reachable : ∀ a, Reachable vm a → a ∈ objs
  regular : ∀ a obj, Reachable vm a → vm.heap a = some obj → Regular vm.heap obj

/-- What is counted for some objects. -/
def bytesOf (size : Sizes) (heap : Address → Option Obj) (l : List Address) : Nat :=
  (l.map (bytesAt size heap)).sum

theorem Markable.length_lt {objs l : List Address} (h : Markable vm₀ objs) {limit : Nat}
    (hlimit : objs.length < limit) (hnodup : l.Nodup) (hl : Allocated vm₀ l) :
    l.length < limit := by
  have hsub : l ⊆ objs := by
    intro a ha
    exact (h.allocated a).mp (hl a ha)
  have hle := (hnodup.subperm hsub).length_le
  omega

theorem Seen.pop (h : Seen vm₀ s bytes vm) {a : Address} {gray : List Address}
    (hgray : s.gray = a :: gray) :
    Seen vm₀ ⟨gray, a :: s.black⟩ bytes { vm with gray := gray } := by
  obtain ⟨capacity, rfl, hroom, hpos⟩ := h
  have hdark : ∀ b, (⟨gray, a :: s.black⟩ : Marks Address).Dark b ↔ s.Dark b := by
    intro b
    unfold Marks.Dark
    rw [hgray, List.mem_cons, List.mem_cons]
    tauto
  have hpaint : paint ⟨gray, a :: s.black⟩ vm₀.heap = paint s vm₀.heap := by
    funext b
    unfold paint
    rw [decide_eq_decide.mpr (hdark b)]
  rw [hgray, List.length_cons] at hroom
  refine ⟨capacity, ?_, by simp only; omega, hpos⟩
  unfold VM.marked
  rw [hpaint]

/-- **The loop is the search**: when it ends, nothing is gray, and what it took from the stack
was counted. -/
theorem wrenBlackenObjects_eq {objs : List Address} (h : Markable vm₀ objs) {limit fuel : Nat}
    (hlimit : objs.length < limit) {base : BitVec 64}
    (htraced : Traced (roots vm₀) (edges vm₀.heap) s)
    (hseen : Seen vm₀ s (base + BitVec.ofNat 64 (bytesOf size vm₀.heap s.black)) vm)
    (hfuel : objs.length < fuel + s.black.length) :
    ∃ vm' s', wrenBlackenObjects size limit fuel vm = .ok vm' ∧
      Traced (roots vm₀) (edges vm₀.heap) s' ∧ s'.gray = [] ∧
        Seen vm₀ s' (base + BitVec.ofNat 64 (bytesOf size vm₀.heap s'.black)) vm' := by
  induction fuel generalizing s vm with
  | zero =>
      have hle := htraced.length_black_le h.reachable
      omega
  | succ fuel ih =>
      have hvm : vm.gray = s.gray := by
        obtain ⟨capacity, rfl, -⟩ := hseen
        rfl
      unfold wrenBlackenObjects
      cases hgray : s.gray with
      | nil =>
          rw [hvm, hgray]
          exact ⟨vm, s, rfl, htraced, hgray, hseen⟩
      | cons a gray =>
          have hreach : Reachable vm₀ a := htraced.reached a (Or.inl (by
            rw [hgray]
            exact List.mem_cons_self))
          obtain ⟨obj, hobj⟩ := Option.isSome_iff_exists.mp
            ((h.allocated a).mpr (h.reachable a hreach))
          have hedges : edges vm₀.heap a = pointers vm₀.heap obj := by
            unfold edges
            rw [hobj]
            rfl
          have hall : Allocated vm₀ (pointers vm₀.heap obj) := by
            intro b hb
            rw [← hedges] at hb
            exact (h.allocated b).mpr (h.reachable b (hreach.step hb))
          obtain ⟨vm₁, hblacken, hseen₁⟩ := sees_blackenObject (h.regular a obj hreach hobj) hall
            (fun l hl => h.length_lt hlimit hl) (decide (s.Dark a)) _ _ _ (hseen.pop hgray)
          have hturn := htraced.turn hgray
          rw [hedges] at hturn
          have hbytes : base + BitVec.ofNat 64 (bytesOf size vm₀.heap s.black)
              + BitVec.ofNat 64 (objBytes size vm₀.heap obj)
              = base + BitVec.ofNat 64 (bytesOf size vm₀.heap (a :: s.black)) := by
            have hat : bytesAt size vm₀.heap a = objBytes size vm₀.heap obj := by
              unfold bytesAt
              rw [hobj]
              rfl
            rw [bytesOf, bytesOf, List.map_cons, List.sum_cons, hat, BitVec.ofNat_add,
              BitVec.add_assoc, BitVec.add_comm (BitVec.ofNat 64 (objBytes size vm₀.heap obj))]
          rw [hbytes] at hseen₁
          have hblack := @Marks.black_visitAll _ _ ⟨gray, a :: s.black⟩ (pointers vm₀.heap obj)
          obtain ⟨vm₂, s₂, hrun, htraced₂, hgray₂, hseen₂⟩ := ih hturn
            (by rw [hblack]; exact hseen₁)
            (by rw [hblack, List.length_cons]; omega)
          refine ⟨vm₂, s₂, ?_, htraced₂, hgray₂, hseen₂⟩
          rw [hvm, hgray]
          show (access (vm.heap a) >>= _) = _
          have hget : vm.heap a = some { obj with isDark := decide (s.Dark a) } := by
            obtain ⟨capacity, rfl, -⟩ := hseen
            show paint s vm₀.heap a = _
            rw [paint, hobj]
            rfl
          rw [hget]
          show (blackenObject size limit { vm with gray := gray } _ >>= _) = _
          rw [show blackenObject size limit { vm with gray := gray } _ = _ from hblacken]
          exact hrun

/-- **What is marked** when all the marking is done: what can be reached, and nothing is gray. -/
theorem mark_eq {objs : List Address} (h : Markable vm₀ objs) (hgray : vm₀.gray = [])
    (hwhite : ∀ a obj, vm₀.heap a = some obj → obj.isDark = false)
    (hcapacity : 0 < vm₀.grayCapacity) {fuel : Nat} (hfuel : objs.length < fuel) :
    ∃ vm₁ vm₂ s, markRoots size { vm₀ with bytesAllocated := 0 } = .ok vm₁ ∧
      wrenBlackenObjects size fuel fuel vm₁ = .ok vm₂ ∧ s.gray = [] ∧ s.black.Nodup ∧
        (∀ a, a ∈ s.black ↔ Reachable vm₀ a) ∧
          Seen vm₀ s (BitVec.ofNat 64 (rootBytes size vm₀ + bytesOf size vm₀.heap s.black)) vm₂ := by
  have hroots : Allocated vm₀ (roots vm₀) := by
    intro a ha
    exact (h.allocated a).mpr (h.reachable a (Reach.root ha))
  have hpaint : paint ⟨[], []⟩ vm₀.heap = vm₀.heap := by
    funext a
    unfold paint
    cases ha : vm₀.heap a with
    | none => rfl
    | some obj =>
        have hobj := hwhite a obj ha
        rw [Option.map_some, decide_eq_false (by simp [Marks.Dark]), ← hobj]
  have hstart : Seen vm₀ ⟨[], []⟩ 0 { vm₀ with bytesAllocated := 0 } := by
    refine ⟨vm₀.grayCapacity, ?_, Nat.zero_le _, hcapacity⟩
    unfold VM.marked
    rw [hpaint, ← hgray]
  obtain ⟨vm₁, hmark, hseen₁⟩ := @sees_markRoots size vm₀ hroots _ _ _ hstart
  have htraced := traced_roots (roots vm₀) (edges vm₀.heap)
  have hblack := @Marks.black_visitAll Address _ ⟨[], []⟩ (roots vm₀)
  have hseen₁' : Seen vm₀ ((⟨[], []⟩ : Marks Address).visitAll (roots vm₀))
      (BitVec.ofNat 64 (rootBytes size vm₀) + BitVec.ofNat 64 (bytesOf size vm₀.heap
        ((⟨[], []⟩ : Marks Address).visitAll (roots vm₀)).black)) vm₁ := by
    rw [hblack]
    simpa [bytesOf] using hseen₁
  obtain ⟨vm₂, s, hblacken, htraced', hgray', hseen₂⟩ :=
    wrenBlackenObjects_eq h hfuel htraced hseen₁' (Nat.lt_add_right _ hfuel)
  have hnodup := htraced'.distinct
  unfold Marks.Distinct at hnodup
  rw [hgray', List.nil_append] at hnodup
  refine ⟨vm₁, vm₂, s, hmark, hblacken, hgray', hnodup, htraced'.mem_black_iff hgray', ?_⟩
  rw [BitVec.ofNat_add]
  exact hseen₂

end Memory

end Wrenegade
