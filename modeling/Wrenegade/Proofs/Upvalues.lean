/-
Closures share the variables they capture.

An upvalue stands for one variable, and every captured variable has one upvalue.  While the
variable is on the stack, its upvalue is open and points to its slot; the open upvalues are
linked from the top slot down, which is why a walk finds the one for a slot and closing can
stop early.  When a variable leaves the stack, its upvalue holds its value.  So what compiled
code reads and writes, on the stack and through upvalues, is what it would read and write if
every variable was a cell of its own that is never freed.
-/
import Wrenegade.Lib.Linked
import Wrenegade.Model.Upvalues
import Wrenegade.Proofs.ObjList

namespace Wrenegade

namespace Lexical

open WrenVM (Value Result access wrenPowerOf2Ceil wrenPowerOf2Ceil_eq)
open Linked

def nextUpvalue (upvalues : List ObjUpvalue) (a : Address) : Option (Option Address) :=
  upvalues[a]?.map ObjUpvalue.next

/-- **The upvalues and their variables.**  The open ones come with their slots.  The closed ones
stand for variables that are not among the first ones on the stack. -/
structure Upvalues (base : Nat) (upvalues : List ObjUpvalue) (first : Option Address)
    (store : Nat → Value) (stack : List Nat) (last : Nat) (owner : Address → Nat)
    (opens : List (Address × Nat)) : Prop where
  linked : IsList (nextUpvalue upvalues) first (opens.map Prod.fst)
  sorted : opens.Pairwise fun p q => q.2 < p.2
  isOpen : ∀ p ∈ opens, ∃ upvalue, upvalues[p.1]? = some upvalue ∧
    upvalue.value = .stack (base + p.2) ∧ stack[p.2]? = some (owner p.1)
  isClosed : ∀ a upvalue, upvalues[a]? = some upvalue → a ∉ opens.map Prod.fst →
    upvalue.value = .closed ∧ upvalue.closed = store (owner a) ∧ owner a ∉ stack.take last
  owners : ∀ a < upvalues.length, ∀ b < upvalues.length, owner a = owner b → a = b

/-- **The fiber does with slots and upvalues** what the scopes say of variables. -/
structure Refines (fiber : Fiber) (s : Scopes) (owner : Address → Nat)
    (opens : List (Address × Nat)) : Prop where
  upvalues : Upvalues fiber.stack fiber.upvalues fiber.openUpvalues s.store s.stack
    s.stack.length owner opens
  cells : Cells.Holds fiber.cells (s.stack.map s.store)
  stackTop : fiber.stackTop = fiber.stack + s.stack.length
  frames : fiber.frames = s.frames.map fun frame => fiber.stack + frame.start
  room : ∀ frame ∈ s.frames, frame.limit ≤ fiber.cells.length
  distinct : s.stack.Nodup
  known : ∀ x ∈ s.stack, x < s.count
  captured : s.captured = fiber.captured.map owner
  names : ∀ a, a ∈ fiber.captured ↔ a < fiber.upvalues.length
  ownerKnown : ∀ a < fiber.upvalues.length, owner a < s.count

theorem isOpen_lt {base : Nat} {upvalues : List ObjUpvalue} {first : Option Address}
    {store : Nat → Value} {stack : List Nat} {last : Nat} {owner : Address → Nat}
    {opens : List (Address × Nat)} (h : Upvalues base upvalues first store stack last owner opens)
    {a : Address} (ha : a ∈ opens.map Prod.fst) : a < upvalues.length := by
  obtain ⟨p, hp, rfl⟩ := List.mem_map.mp ha
  obtain ⟨upvalue, hget, -⟩ := h.isOpen p hp
  exact (List.getElem?_eq_some_iff.mp hget).1

/-! ### Other stacks and stores -/

section Change

variable {base : Nat} {upvalues : List ObjUpvalue} {first : Option Address}
  {store store' : Nat → Value} {stack stack' : List Nat} {last last' : Nat}
  {owner : Address → Nat} {opens : List (Address × Nat)}

/-- What matters of the stack are the slots of the open upvalues and which variables it holds. -/
theorem Upvalues.change (h : Upvalues base upvalues first store stack last owner opens)
    (hslots : ∀ p ∈ opens, stack[p.2]? = some (owner p.1) → stack'[p.2]? = some (owner p.1))
    (hstore : ∀ a < upvalues.length, owner a ∉ stack.take last → store' (owner a) = store (owner a))
    (hstack : ∀ a < upvalues.length, owner a ∉ stack.take last → owner a ∉ stack'.take last') :
    Upvalues base upvalues first store' stack' last' owner opens := by
  refine ⟨h.linked, h.sorted, fun p hp => ?_, fun a upvalue hget ha => ?_, h.owners⟩
  · obtain ⟨upvalue, hget, hvalue, hslot⟩ := h.isOpen p hp
    exact ⟨upvalue, hget, hvalue, hslots p hp hslot⟩
  · obtain ⟨hvalue, hclosed, hnot⟩ := h.isClosed a upvalue hget ha
    have hlt := (List.getElem?_eq_some_iff.mp hget).1
    exact ⟨hvalue, by rw [hclosed, hstore a hlt hnot], hstack a hlt hnot⟩

end Change

/-! ### Slots -/

section Slots

variable {fiber : Fiber} {s : Scopes} {owner : Address → Nat} {opens : List (Address × Nat)}
  {i x : Nat}

theorem Refines.read (h : Refines fiber s owner opens) (hi : s.stack[i]? = some x) :
    fiber.read (fiber.stack + i) = .ok (s.store x) := by
  obtain ⟨hlt, hget⟩ := List.getElem?_eq_some_iff.mp hi
  have hcell := h.cells.get (i := i) (by rwa [List.length_map])
  unfold Fiber.read
  rw [if_pos (Nat.le_add_right _ _), Nat.add_sub_cancel_left, hcell, List.getElem_map, hget]
  rfl

theorem map_update {store : Nat → Value} {stack : List Nat} {x : Nat} (hx : x ∉ stack)
    (value : Value) : stack.map (Function.update store x value) = stack.map store :=
  List.map_congr_left fun y hy => Function.update_of_ne (show y ≠ x from fun heq => hx (heq ▸ hy))
    _ _

/-- To write to a slot is to set its variable. -/
theorem Refines.write (h : Refines fiber s owner opens) (hi : s.stack[i]? = some x)
    (value : Value) : ∃ fiber', fiber.write (fiber.stack + i) value = .ok fiber' ∧
      Refines fiber' { s with store := Function.update s.store x value } owner opens := by
  obtain ⟨hlt, hget⟩ := List.getElem?_eq_some_iff.mp hi
  obtain ⟨cells, hput, hlength, hholds⟩ := h.cells.put (i := i) (by rwa [List.length_map]) value
  refine ⟨{ fiber with cells := cells }, ?_, ?_⟩
  · unfold Fiber.write
    rw [if_pos (Nat.le_add_right _ _), Nat.add_sub_cancel_left, hput]
    rfl
  · have hset : (s.stack.map s.store).set i value
        = s.stack.map (Function.update s.store x value) := by
      refine List.ext_getElem (by simp) fun j hj hj' => ?_
      rw [List.length_map] at hj'
      rw [List.getElem_set, List.getElem_map, List.getElem_map]
      by_cases hij : i = j
      · subst hij
        rw [if_pos rfl, hget, Function.update_self]
      · have hne : s.stack[j] ≠ x := by
          intro heq
          exact hij (h.distinct.getElem_inj_iff.mp (hget.trans heq.symm))
        rw [if_neg hij, Function.update_of_ne hne]
    refine ⟨h.upvalues.change (fun _ _ hslot => hslot) (fun a _ hnot => ?_) (fun _ _ hnot => hnot),
      hset ▸ hholds, h.stackTop, h.frames, fun frame hframe => ?_, h.distinct, h.known, h.captured,
      h.names, h.ownerKnown⟩
    · rw [List.take_length] at hnot
      refine Function.update_of_ne (fun heq => hnot ?_) _ _
      rw [heq, ← hget]
      exact List.getElem_mem hlt
    · rw [show cells.length = fiber.cells.length from hlength]
      exact h.room frame hframe

/-- To push a value is to make a variable. -/
theorem Refines.push (h : Refines fiber s owner opens) (hroom : s.stack.length < fiber.cells.length)
    (value : Value) : ∃ fiber', fiber.push value = .ok fiber' ∧
      Refines fiber' (s.push value) owner opens := by
  obtain ⟨cells, hput, hlength, hholds⟩ := h.cells.push (by rwa [List.length_map]) value
  rw [List.length_map] at hput
  have hnew : s.count ∉ s.stack := fun hmem => Nat.lt_irrefl _ (h.known _ hmem)
  refine ⟨{ fiber with cells := cells, stackTop := fiber.stackTop + 1 }, ?_, ?_⟩
  · show (fiber.write fiber.stackTop value >>= _) = _
    unfold Fiber.write
    rw [h.stackTop, if_pos (Nat.le_add_right _ _), Nat.add_sub_cancel_left, hput]
    rfl
  · refine ⟨h.upvalues.change (fun p _ hslot => ?_) (fun a ha _ => ?_) (fun a ha hnot => ?_),
      ?_, ?_, h.frames, fun frame hframe => ?_, ?_, ?_, h.captured, h.names, fun a ha => ?_⟩
    · show (s.stack ++ [s.count])[p.2]? = _
      rwa [List.getElem?_append_left (List.getElem?_eq_some_iff.mp hslot).1]
    · exact Function.update_of_ne (Nat.ne_of_lt (h.ownerKnown a ha)) _ _
    · rw [List.take_length] at hnot ⊢
      show owner a ∉ s.stack ++ [s.count]
      rw [List.mem_append, List.mem_singleton, not_or]
      exact ⟨hnot, Nat.ne_of_lt (h.ownerKnown a ha)⟩
    · show Cells.Holds cells ((s.stack ++ [s.count]).map (Function.update s.store s.count value))
      rw [List.map_append, map_update hnew, List.map_singleton, Function.update_self]
      exact hholds
    · show fiber.stackTop + 1 = fiber.stack + (s.stack ++ [s.count]).length
      rw [h.stackTop, List.length_append, List.length_singleton, Nat.add_assoc]
    · rw [show cells.length = fiber.cells.length from hlength]
      exact h.room frame hframe
    · show (s.stack ++ [s.count]).Nodup
      rw [← List.concat_eq_append]
      exact h.distinct.concat hnew
    · intro x hx
      show x < s.count + 1
      rcases List.mem_append.mp hx with hx | hx
      · exact Nat.lt_succ_of_lt (h.known x hx)
      · rw [List.mem_singleton.mp hx]
        exact Nat.lt_succ_self _
    · exact Nat.lt_succ_of_lt (h.ownerKnown a ha)

/-- The stack can be cut where no open upvalue points above. -/
theorem Refines.cut (h : Refines fiber s owner opens) {last : Nat} (hlast : last ≤ s.stack.length)
    (hopens : ∀ p ∈ opens, p.2 < last) :
    Refines { fiber with stackTop := fiber.stack + last } { s with stack := s.stack.take last }
      owner opens := by
  refine ⟨h.upvalues.change (fun p hp hslot => ?_) (fun _ _ _ => rfl) (fun a _ hnot hmem => ?_), ?_,
    ?_, h.frames, h.room, h.distinct.sublist (List.take_sublist _ _),
    fun x hx => h.known x (List.mem_of_mem_take hx), h.captured, h.names, h.ownerKnown⟩
  · rwa [List.getElem?_take_of_lt (hopens p hp)]
  · rw [List.take_length] at hnot hmem
    exact hnot (List.mem_of_mem_take hmem)
  · show Cells.Holds fiber.cells ((s.stack.take last).map s.store)
    rw [List.map_take]
    exact h.cells.take last
  · show fiber.stack + last = fiber.stack + (s.stack.take last).length
    rw [List.length_take_of_le hlast]

end Slots

/-! ### Reading and writing through upvalues -/

section Through

variable {fiber : Fiber} {s : Scopes} {owner : Address → Nat} {opens : List (Address × Nat)}
  {k x : Nat}

/-- An upvalue is open at a slot of its variable, or it is closed. -/
theorem Refines.find (h : Refines fiber s owner opens) (hk : s.captured[k]? = some x) :
    ∃ a upvalue, fiber.captured[k]? = some a ∧ fiber.upvalues[a]? = some upvalue ∧ owner a = x ∧
      ((∃ i, upvalue.value = .stack (fiber.stack + i) ∧ s.stack[i]? = some x) ∨
        (upvalue.value = .closed ∧ upvalue.closed = s.store x ∧ x ∉ s.stack ∧
          a ∉ opens.map Prod.fst)) := by
  rw [h.captured, List.getElem?_map] at hk
  obtain ⟨a, ha, rfl⟩ := Option.map_eq_some_iff.mp hk
  have hlt := (h.names a).mp (List.mem_of_getElem? ha)
  obtain ⟨upvalue, hget⟩ : ∃ upvalue, fiber.upvalues[a]? = some upvalue :=
    ⟨_, List.getElem?_eq_getElem hlt⟩
  refine ⟨a, upvalue, ha, hget, rfl, ?_⟩
  by_cases hopen : a ∈ opens.map Prod.fst
  · obtain ⟨p, hp, rfl⟩ := List.mem_map.mp hopen
    obtain ⟨upvalue', hget', hvalue, hslot⟩ := h.upvalues.isOpen p hp
    rw [hget, Option.some.injEq] at hget'
    subst hget'
    exact Or.inl ⟨p.2, hvalue, hslot⟩
  · obtain ⟨hvalue, hclosed, hnot⟩ := h.upvalues.isClosed a upvalue hget hopen
    rw [List.take_length] at hnot
    exact Or.inr ⟨hvalue, hclosed, hnot, hopen⟩

theorem Refines.readUpvalue (h : Refines fiber s owner opens) (hk : s.captured[k]? = some x) :
    fiber.readUpvalue k = .ok (s.store x) := by
  obtain ⟨a, ⟨value, closed, next⟩, ha, hget, -, hcase⟩ := h.find hk
  unfold Fiber.readUpvalue
  rw [ha]
  show (access fiber.upvalues[a]? >>= _) = _
  rw [hget]
  rcases hcase with ⟨i, hvalue, hslot⟩ | ⟨hvalue, hclosed, -⟩
  · rw [show value = _ from hvalue]
    exact h.read hslot
  · rw [show value = _ from hvalue, ← hclosed]
    rfl

theorem getElem?_set_of_ne {upvalues : List ObjUpvalue} {a b : Address} (h : b ≠ a)
    (upvalue : ObjUpvalue) : (upvalues.set a upvalue)[b]? = upvalues[b]? :=
  List.getElem?_set_ne h.symm

/-- To change what an upvalue holds is not to change the list. -/
theorem nextUpvalue_set {upvalues : List ObjUpvalue} {a : Address} {upvalue upvalue' : ObjUpvalue}
    (hget : upvalues[a]? = some upvalue) (hnext : upvalue'.next = upvalue.next) :
    nextUpvalue (upvalues.set a upvalue') = nextUpvalue upvalues := by
  funext b
  unfold nextUpvalue
  by_cases hb : b = a
  · subst hb
    rw [List.getElem?_set_self (List.getElem?_eq_some_iff.mp hget).1, hget, Option.map_some,
      Option.map_some, hnext]
  · rw [getElem?_set_of_ne hb]

/-- To write through an upvalue is to set its variable. -/
theorem Refines.writeUpvalue (h : Refines fiber s owner opens) (hk : s.captured[k]? = some x)
    (value : Value) : ∃ fiber', fiber.writeUpvalue k value = .ok fiber' ∧
      Refines fiber' { s with store := Function.update s.store x value } owner opens := by
  obtain ⟨a, ⟨pointer, closed, next⟩, ha, hget, rfl, hcase⟩ := h.find hk
  rcases hcase with ⟨i, hvalue, hslot⟩ | ⟨hvalue, -, hnot, hclosedAt⟩
  · obtain rfl : pointer = .stack (fiber.stack + i) := hvalue
    obtain ⟨fiber', hwrite, hrefines⟩ := h.write hslot value
    refine ⟨fiber', ?_, hrefines⟩
    unfold Fiber.writeUpvalue
    rw [ha]
    show (access fiber.upvalues[a]? >>= _) = _
    rw [hget]
    exact hwrite
  · obtain rfl : pointer = .closed := hvalue
    refine ⟨{ fiber with upvalues := fiber.upvalues.set a ⟨.closed, value, next⟩ }, ?_, ?_⟩
    · unfold Fiber.writeUpvalue
      rw [ha]
      show (access fiber.upvalues[a]? >>= _) = _
      rw [hget]
      rfl
    have hlt := (List.getElem?_eq_some_iff.mp hget).1
    refine ⟨⟨?_, h.upvalues.sorted, fun p hp => ?_, fun b upvalue hb hopen => ?_, ?_⟩, ?_,
      h.stackTop, h.frames, h.room, h.distinct, h.known, h.captured, ?_, ?_⟩
    · show IsList (nextUpvalue (fiber.upvalues.set a _)) _ _
      rw [nextUpvalue_set hget (show (⟨.closed, value, next⟩ : ObjUpvalue).next = next from rfl)]
      exact h.upvalues.linked
    · have hne : p.1 ≠ a := fun heq => hclosedAt (heq ▸ List.mem_map_of_mem hp)
      show ∃ upvalue, (fiber.upvalues.set a _)[p.1]? = _ ∧ _
      rw [getElem?_set_of_ne hne]
      exact h.upvalues.isOpen p hp
    · by_cases hba : b = a
      · subst hba
        rw [show (fiber.upvalues.set b _)[b]? = _ from List.getElem?_set_self hlt,
          Option.some.injEq] at hb
        rw [← hb, List.take_length]
        refine ⟨rfl, ?_, hnot⟩
        exact (@Function.update_self _ _ _ (owner b) value s.store).symm
      · rw [show (fiber.upvalues.set a _)[b]? = _ from getElem?_set_of_ne hba _] at hb
        obtain ⟨hvalue', hclosed', hnot'⟩ := h.upvalues.isClosed b upvalue hb hopen
        have hblt := (List.getElem?_eq_some_iff.mp hb).1
        refine ⟨hvalue', ?_, hnot'⟩
        rw [hclosed']
        exact (Function.update_of_ne (fun heq => hba (h.upvalues.owners b hblt a hlt heq)) _ _).symm
    · show ∀ a' < (fiber.upvalues.set a _).length, ∀ b < (fiber.upvalues.set a _).length, _
      rw [List.length_set]
      exact h.upvalues.owners
    · show Cells.Holds fiber.cells (s.stack.map (Function.update s.store (owner a) value))
      rw [map_update hnot]
      exact h.cells
    · intro b
      show b ∈ fiber.captured ↔ b < (fiber.upvalues.set a _).length
      rw [List.length_set]
      exact h.names b
    · intro b hb
      refine h.ownerKnown b ?_
      rwa [show (fiber.upvalues.set a _).length = _ from List.length_set] at hb

end Through

/-! ### Closing -/

/-- One more upvalue is closed. -/
theorem Upvalues.close {base : Nat} {upvalues : List ObjUpvalue} {first : Option Address}
    {store : Nat → Value} {stack : List Nat} {last : Nat} {owner : Address → Nat} {a i : Nat}
    {opens : List (Address × Nat)} {upvalue : ObjUpvalue}
    (h : Upvalues base upvalues first store stack last owner ((a, i) :: opens))
    (hget : upvalues[a]? = some upvalue) (hslot : stack[i]? = some (owner a)) (hlast : last ≤ i)
    (hdistinct : stack.Nodup) :
    Upvalues base (upvalues.set a { upvalue with value := .closed, closed := store (owner a) })
      upvalue.next store stack last owner opens := by
  have hlt := (List.getElem?_eq_some_iff.mp hget).1
  have hnot : a ∉ opens.map Prod.fst := (List.nodup_cons.mp h.linked.nodup).1
  obtain ⟨-, rest, hnext, hrest⟩ := h.linked
  unfold nextUpvalue at hnext
  rw [hget, Option.map_some, Option.some.injEq] at hnext
  subst hnext
  refine ⟨?_, h.sorted.of_cons, fun p hp => ?_, fun b upvalue' hb hopen => ?_, ?_⟩
  · rw [nextUpvalue_set hget (show ObjUpvalue.next { upvalue with
      value := .closed, closed := store (owner a) } = upvalue.next from rfl)]
    exact hrest
  · have hne : p.1 ≠ a := fun heq => hnot (heq ▸ List.mem_map_of_mem hp)
    rw [getElem?_set_of_ne hne]
    exact h.isOpen p (List.mem_cons_of_mem _ hp)
  · by_cases hba : b = a
    · subst hba
      rw [List.getElem?_set_self hlt, Option.some.injEq] at hb
      rw [← hb]
      refine ⟨rfl, rfl, fun hmem => ?_⟩
      obtain ⟨j, hj⟩ := List.mem_iff_getElem?.mp hmem
      have hjlt : j < last := by
        have hjlength := (List.getElem?_eq_some_iff.mp hj).1
        rw [List.length_take] at hjlength
        omega
      rw [List.getElem?_take_of_lt hjlt] at hj
      have hij := (List.getElem?_inj (List.getElem?_eq_some_iff.mp hj).1 hdistinct).mp
        (hj.trans hslot.symm)
      omega
    · rw [getElem?_set_of_ne hba] at hb
      refine h.isClosed b upvalue' hb fun hmem => ?_
      rcases List.mem_cons.mp hmem with heq | hmem
      · exact hba heq
      · exact hopen hmem
  · rw [List.length_set]
    exact h.owners

/-- **Closing** stops at the first upvalue below, as all the others are below, too. -/
theorem closeUpvalues_eq {store : Nat → Value} {stack : List Nat} {last : Nat}
    {owner : Address → Nat} {opens : List (Address × Nat)} {fiber : Fiber} {fuel : Nat}
    (h : Upvalues fiber.stack fiber.upvalues fiber.openUpvalues store stack last owner opens)
    (hcells : Cells.Holds fiber.cells (stack.map store)) (hdistinct : stack.Nodup)
    (hfuel : opens.length < fuel) :
    ∃ upvalues first opens', Fiber.closeUpvalues (fiber.stack + last) fuel fiber
        = .ok { fiber with upvalues := upvalues, openUpvalues := first } ∧
      upvalues.length = fiber.upvalues.length ∧
      Upvalues fiber.stack upvalues first store stack last owner opens' ∧
      ∀ p ∈ opens', p.2 < last := by
  induction opens generalizing fiber fuel with
  | nil =>
      obtain ⟨fuel, rfl⟩ : ∃ n, fuel = n + 1 := ⟨fuel - 1, by omega⟩
      refine ⟨fiber.upvalues, fiber.openUpvalues, [], ?_, rfl, h, fun p hp => by simp at hp⟩
      unfold Fiber.closeUpvalues
      rw [show fiber.openUpvalues = none from h.linked]
      obtain ⟨_, _, _, _, first, _, _⟩ := fiber
      rw [show first = none from h.linked]
      rfl
  | cons p opens ih =>
      obtain ⟨a, i⟩ := p
      rw [List.length_cons] at hfuel
      obtain ⟨fuel, rfl⟩ : ∃ n, fuel = n + 1 := ⟨fuel - 1, by omega⟩
      obtain ⟨upvalue, hget, hvalue, hslot⟩ := h.isOpen (a, i) List.mem_cons_self
      have hfirst : fiber.openUpvalues = some a := h.linked.1
      have hpointer : fiber.pointer a = some (fiber.stack + i) := by
        unfold Fiber.pointer
        rw [show fiber.upvalues[a]? = _ from hget, Option.bind_some]
        unfold ObjUpvalue.pointer
        rw [hvalue]
      by_cases hlast : last ≤ i
      · have hread : fiber.read (fiber.stack + i) = .ok (store (owner a)) := by
          obtain ⟨hlt, hat⟩ := List.getElem?_eq_some_iff.mp hslot
          have hcell := hcells.get (i := i) (by rwa [List.length_map])
          unfold Fiber.read
          rw [if_pos (Nat.le_add_right _ _), Nat.add_sub_cancel_left, hcell, List.getElem_map, hat]
          rfl
        obtain ⟨upvalues, first, opens', hrun, hlength, hupvalues, hbelow⟩ :=
          @ih { fiber with
            upvalues := fiber.upvalues.set a
              { upvalue with value := .closed, closed := store (owner a) }
            openUpvalues := upvalue.next } fuel (h.close hget hslot hlast hdistinct) hcells
            (by omega)
        refine ⟨upvalues, first, opens', ?_, ?_, hupvalues, hbelow⟩
        · unfold Fiber.closeUpvalues
          rw [hfirst]
          show (access (fiber.pointer a) >>= _) = _
          rw [hpointer]
          show (if fiber.stack + last ≤ fiber.stack + i then _ else _) = _
          rw [if_pos (by omega), hread]
          show (access fiber.upvalues[a]? >>= _) = _
          rw [show fiber.upvalues[a]? = _ from hget]
          exact hrun
        · rw [hlength]
          exact List.length_set
      · refine ⟨fiber.upvalues, fiber.openUpvalues, (a, i) :: opens, ?_, rfl, h, fun p hp => ?_⟩
        · unfold Fiber.closeUpvalues
          rw [hfirst]
          show (access (fiber.pointer a) >>= _) = _
          rw [hpointer]
          show (if fiber.stack + last ≤ fiber.stack + i then _ else _) = _
          rw [if_neg (by omega), ← hfirst]
          rfl
        · rcases List.mem_cons.mp hp with rfl | hp
          · exact Nat.lt_of_not_le hlast
          · exact Nat.lt_trans ((List.pairwise_cons.mp h.sorted).1 p hp) (Nat.lt_of_not_le hlast)

/-! ### Capturing -/

section Capture

variable {fiber : Fiber} {store : Nat → Value} {stack : List Nat} {last : Nat}
  {owner : Address → Nat} {opens : List (Address × Nat)} {i : Nat}

theorem pointer_eq {base : Nat}
    (h : Upvalues base fiber.upvalues fiber.openUpvalues store stack last owner opens)
    {p : Address × Nat} (hp : p ∈ opens) : fiber.pointer p.1 = some (base + p.2) := by
  obtain ⟨upvalue, hget, hvalue, -⟩ := h.isOpen p hp
  unfold Fiber.pointer
  rw [hget, Option.bind_some]
  unfold ObjUpvalue.pointer
  rw [hvalue]

/-- The node before the rest of a list. -/
def before (opens : List (Address × Nat)) : Option Address := opens.getLast?.map Prod.fst

/-- **The walk** passes the slots above and stops at the first one that is not. -/
theorem walk_eq {pre post : List (Address × Nat)} {fuel : Nat} {current : Option Address}
    (h : Upvalues fiber.stack fiber.upvalues fiber.openUpvalues store stack last owner
      (pre ++ post))
    (hpre : ∀ p ∈ pre, i < p.2)
    (hcurrent : IsList (nextUpvalue fiber.upvalues) current (post.map Prod.fst))
    (hfuel : post.length < fuel) :
    ∃ above rest, pre ++ post = above ++ rest ∧ (∀ p ∈ above, i < p.2) ∧ (∀ p ∈ rest, p.2 ≤ i) ∧
      fiber.walk (fiber.stack + i) fuel (before pre) current
        = .ok (before above, rest.head?.map Prod.fst) := by
  induction post generalizing pre fuel current with
  | nil =>
      obtain ⟨fuel, rfl⟩ : ∃ n, fuel = n + 1 := ⟨fuel - 1, by omega⟩
      obtain rfl : current = none := hcurrent
      exact ⟨pre, [], rfl, hpre, fun p hp => by simp at hp, rfl⟩
  | cons p post ih =>
      rw [List.length_cons] at hfuel
      obtain ⟨fuel, rfl⟩ : ∃ n, fuel = n + 1 := ⟨fuel - 1, by omega⟩
      have hmem : p ∈ pre ++ p :: post := List.mem_append_right _ List.mem_cons_self
      obtain ⟨rfl, next, hnext, hrest⟩ := hcurrent
      obtain ⟨upvalue, hget, -⟩ := h.isOpen p hmem
      have hpointer := pointer_eq h hmem
      by_cases hlt : i < p.2
      · rw [List.append_cons] at h ⊢
        obtain ⟨above, rest, hsplit, habove, hbelow, hrun⟩ := @ih (pre ++ [p]) fuel next h
          (fun q hq => by
            rcases List.mem_append.mp hq with hq | hq
            · exact hpre q hq
            · rwa [List.mem_singleton.mp hq]) hrest (by omega)
        refine ⟨above, rest, hsplit, habove, hbelow, ?_⟩
        unfold Fiber.walk
        rw [hpointer]
        show (if fiber.stack + i < fiber.stack + p.2 then _ else _) = _
        rw [if_pos (by omega), hget]
        unfold nextUpvalue at hnext
        rw [hget, Option.map_some, Option.some.injEq] at hnext
        have hbefore : before (pre ++ [p]) = some p.1 := by
          unfold before
          rw [List.getLast?_concat]
          rfl
        rw [hbefore, ← hnext] at hrun
        exact hrun
      · refine ⟨pre, p :: post, rfl, hpre, fun q hq => ?_, ?_⟩
        · have hsorted := (List.pairwise_append.mp h.sorted).2.1
          rcases List.mem_cons.mp hq with rfl | hq
          · exact Nat.le_of_not_lt hlt
          · have hqp := (List.pairwise_cons.mp hsorted).1 q hq
            omega
        · unfold Fiber.walk
          rw [hpointer]
          show (if fiber.stack + i < fiber.stack + p.2 then _ else _) = _
          rw [if_neg (by omega)]
          rfl

/-- What the upvalues are after a new one was linked in. -/
structure Inserted (upvalues upvalues' : List ObjUpvalue) (value : ObjUpvalue)
    (prev : Option Address) : Prop where
  length : upvalues'.length = upvalues.length + 1
  created : upvalues'[upvalues.length]? = some value
  others : ∀ a < upvalues.length, ∀ upvalue, upvalues[a]? = some upvalue →
    upvalues'[a]? = some { upvalue with
      next := if prev = some a then some upvalues.length else upvalue.next }

theorem insertUpvalue_eq {slot : Nat} {prev next : Option Address}
    (hprev : ∀ a, prev = some a → a < fiber.upvalues.length) :
    ∃ upvalues', fiber.insertUpvalue slot prev next = .ok (fiber.upvalues.length,
        { fiber with
          upvalues := upvalues'
          openUpvalues := if prev = none then some fiber.upvalues.length
            else fiber.openUpvalues }) ∧
      Inserted fiber.upvalues upvalues' ⟨.stack slot, .null, next⟩ prev := by
  cases prev with
  | none =>
      refine ⟨fiber.upvalues ++ [⟨.stack slot, .null, next⟩], rfl, ?_, ?_,
        fun a ha upvalue hget => ?_⟩
      · rw [List.length_append, List.length_singleton]
      · rw [List.getElem?_concat_length]
      · rw [List.getElem?_append_left ha, hget, if_neg (by simp)]
  | some b =>
      have hb := hprev b rfl
      obtain ⟨upvalue, hget⟩ : ∃ upvalue, fiber.upvalues[b]? = some upvalue :=
        ⟨_, List.getElem?_eq_getElem hb⟩
      have hget' : (fiber.upvalues ++ [⟨.stack slot, .null, next⟩])[b]? = some upvalue := by
        rw [List.getElem?_append_left hb, hget]
      refine ⟨(fiber.upvalues ++ [(⟨.stack slot, .null, next⟩ : ObjUpvalue)]).set b
        { upvalue with next := some fiber.upvalues.length }, ?_, ?_, ?_, fun a ha u hu => ?_⟩
      · unfold Fiber.insertUpvalue
        show (access (fiber.upvalues ++ [_])[b]? >>= _) = _
        rw [hget']
        rfl
      · rw [List.length_set, List.length_append, List.length_singleton]
      · rw [getElem?_set_of_ne (Nat.ne_of_gt hb), List.getElem?_concat_length]
      · by_cases hab : a = b
        · subst hab
          rw [hget, Option.some.injEq] at hu
          subst hu
          rw [List.getElem?_set_self (List.getElem?_eq_some_iff.mp hget').1, if_pos rfl]
        · rw [getElem?_set_of_ne hab, List.getElem?_append_left ha, hu,
            if_neg (fun heq => hab (Option.some.inj heq).symm)]

theorem Inserted.next_of_ne {upvalues upvalues' : List ObjUpvalue} {value : ObjUpvalue}
    {prev : Option Address} (h : Inserted upvalues upvalues' value prev) {a : Address}
    (ha : a < upvalues.length) (hprev : prev ≠ some a) :
    nextUpvalue upvalues' a = nextUpvalue upvalues a := by
  have hget := List.getElem?_eq_getElem ha
  unfold nextUpvalue
  rw [h.others a ha _ hget, hget, if_neg hprev]

section Insert

variable {base : Nat} {upvalues upvalues' : List ObjUpvalue} {first : Option Address}
  {above rest : List (Address × Nat)} {x : Nat} {value : ObjUpvalue}

/-- No upvalue stood for the variable, as none was found for its slot. -/
theorem Upvalues.unowned
    (h : Upvalues base upvalues first store stack stack.length owner (above ++ rest))
    (habove : ∀ p ∈ above, i < p.2) (hrest : ∀ p ∈ rest, p.2 < i) (hslot : stack[i]? = some x)
    (hdistinct : stack.Nodup) : ∀ a < upvalues.length, owner a ≠ x := by
  intro a ha heq
  have hget := List.getElem?_eq_getElem ha
  by_cases hopen : a ∈ (above ++ rest).map Prod.fst
  · obtain ⟨p, hp, rfl⟩ := List.mem_map.mp hopen
    obtain ⟨-, -, -, hat⟩ := h.isOpen p hp
    rw [heq] at hat
    have hpi := (List.getElem?_inj (List.getElem?_eq_some_iff.mp hat).1 hdistinct).mp
      (hat.trans hslot.symm)
    rcases List.mem_append.mp hp with hp | hp
    · have := habove p hp
      omega
    · have := hrest p hp
      omega
  · obtain ⟨-, -, hnot⟩ := h.isClosed a _ hget hopen
    rw [List.take_length, heq] at hnot
    exact hnot (List.mem_of_getElem? hslot)

/-- The last upvalue above the slot is linked to the new one, or the list begins with it. -/
theorem Inserted.segment_above (hins : Inserted upvalues upvalues' value (before above))
    (hlt : ∀ p ∈ above, p.1 < upvalues.length) (hnodup : (above.map Prod.fst).Nodup)
    {middle : Option Address} (h : Segment (nextUpvalue upvalues) first (above.map Prod.fst) middle) :
    Segment (nextUpvalue upvalues') (if before above = none then some upvalues.length else first)
      (above.map Prod.fst) (some upvalues.length) := by
  rcases List.eq_nil_or_concat above with rfl | ⟨k, b, rfl⟩
  · rfl
  · rw [List.concat_eq_append] at *
    have hbefore : before (k ++ [b]) = some b.1 := by
      unfold before
      rw [List.getLast?_concat]
      rfl
    rw [hbefore] at hins ⊢
    rw [List.map_append, List.map_singleton] at h hnodup ⊢
    obtain ⟨hk, hb⟩ := segment_concat.mp h
    have hbnot : b.1 ∉ k.map Prod.fst := by
      intro hmem
      exact (List.nodup_append.mp hnodup).2.2 b.1 hmem b.1 (List.mem_singleton.mpr rfl) rfl
    have hblt : b.1 < upvalues.length := hlt b (by simp)
    rw [if_neg (by simp)]
    refine segment_concat.mpr ⟨hk.congr fun a ha => ?_, ?_⟩
    · obtain ⟨q, hq, rfl⟩ := List.mem_map.mp ha
      refine hins.next_of_ne (hlt q (by simp [hq])) fun heq => hbnot ?_
      rw [Option.some.inj heq]
      exact ha
    · unfold nextUpvalue
      rw [hins.others b.1 hblt _ (List.getElem?_eq_getElem hblt), if_pos rfl]
      rfl

theorem Inserted.linked
    (hins : Inserted upvalues upvalues' ⟨.stack (base + i), .null, rest.head?.map Prod.fst⟩
      (before above))
    (h : Upvalues base upvalues first store stack stack.length owner (above ++ rest)) :
    IsList (nextUpvalue upvalues') (if before above = none then some upvalues.length else first)
      ((above ++ (upvalues.length, i) :: rest).map Prod.fst) := by
  have hnodup := h.linked.nodup
  have hlt : ∀ p ∈ above ++ rest, p.1 < upvalues.length :=
    fun p hp => isOpen_lt h (List.mem_map_of_mem hp)
  have hlinked := h.linked
  rw [List.map_append] at hnodup hlinked
  obtain ⟨middle, hfirst, hmiddle⟩ := segment_append.mp hlinked
  have hhead : middle = rest.head?.map Prod.fst := by
    cases rest with
    | nil => exact hmiddle
    | cons p rest => exact hmiddle.1
  rw [List.map_append]
  refine segment_append.mpr ⟨some upvalues.length, ?_, rfl, rest.head?.map Prod.fst, ?_, ?_⟩
  · exact hins.segment_above (fun p hp => hlt p (List.mem_append_left _ hp))
      (List.nodup_append.mp hnodup).1 hfirst
  · show nextUpvalue upvalues' upvalues.length = _
    unfold nextUpvalue
    rw [hins.created]
    rfl
  · rw [← hhead]
    refine hmiddle.congr fun a ha => ?_
    obtain ⟨q, hq, rfl⟩ := List.mem_map.mp ha
    refine hins.next_of_ne (hlt q (List.mem_append_right _ hq)) fun heq => ?_
    obtain ⟨b, hb, hbq⟩ := Option.map_eq_some_iff.mp heq
    have hmem : q.1 ∈ above.map Prod.fst := by
      rw [← hbq]
      exact List.mem_map_of_mem (List.mem_of_getLast? hb)
    exact (List.nodup_append.mp hnodup).2.2 q.1 hmem q.1 ha rfl

theorem Upvalues.sorted_insert
    (h : Upvalues base upvalues first store stack stack.length owner (above ++ rest))
    (habove : ∀ p ∈ above, i < p.2) (hrest : ∀ p ∈ rest, p.2 < i) (a : Address) :
    (above ++ (a, i) :: rest).Pairwise fun p q => q.2 < p.2 := by
  obtain ⟨hsorted, hsorted', hcross⟩ := List.pairwise_append.mp h.sorted
  refine List.pairwise_append.mpr ⟨hsorted, List.pairwise_cons.mpr ⟨hrest, hsorted'⟩, ?_⟩
  intro p hp q hq
  rcases List.mem_cons.mp hq with rfl | hq
  · exact habove p hp
  · exact hcross p hp q hq

/-- The owners of the other upvalues stay. -/
theorem owner_update {a : Address} (ha : a < upvalues.length) :
    Function.update owner upvalues.length x a = owner a :=
  Function.update_of_ne (Nat.ne_of_lt ha) _ _

theorem Inserted.isOpen
    (hins : Inserted upvalues upvalues' ⟨.stack (base + i), .null, rest.head?.map Prod.fst⟩
      (before above))
    (h : Upvalues base upvalues first store stack stack.length owner (above ++ rest))
    (hslot : stack[i]? = some x) :
    ∀ p ∈ above ++ (upvalues.length, i) :: rest, ∃ upvalue, upvalues'[p.1]? = some upvalue ∧
      upvalue.value = .stack (base + p.2) ∧
      stack[p.2]? = some (Function.update owner upvalues.length x p.1) := by
  have hold : ∀ q ∈ above ++ rest, ∃ upvalue, upvalues'[q.1]? = some upvalue ∧
      upvalue.value = .stack (base + q.2) ∧
      stack[q.2]? = some (Function.update owner upvalues.length x q.1) := by
    intro q hq
    have hlt : q.1 < upvalues.length := isOpen_lt h (List.mem_map_of_mem hq)
    obtain ⟨upvalue, hget, hvalue, hat⟩ := h.isOpen q hq
    exact ⟨_, hins.others q.1 hlt upvalue hget, hvalue, by rw [owner_update hlt, hat]⟩
  intro p hp
  rcases List.mem_append.mp hp with hp | hp
  · exact hold p (List.mem_append_left _ hp)
  · rcases List.mem_cons.mp hp with rfl | hp
    · exact ⟨_, hins.created, rfl, by rw [hslot, Function.update_self]⟩
    · exact hold p (List.mem_append_right _ hp)

/-- An upvalue that is not open now is an old one, and was closed before. -/
theorem Inserted.isClosed (hins : Inserted upvalues upvalues' value (before above))
    (h : Upvalues base upvalues first store stack stack.length owner (above ++ rest))
    {a : Address} {upvalue : ObjUpvalue} (hget : upvalues'[a]? = some upvalue)
    (hopen : a ∉ (above ++ (upvalues.length, i) :: rest).map Prod.fst) :
    upvalue.value = .closed ∧
      upvalue.closed = store (Function.update owner upvalues.length x a) ∧
      Function.update owner upvalues.length x a ∉ stack.take stack.length := by
  have hne : a ≠ upvalues.length := by
    intro heq
    exact hopen (by simp [heq])
  have ha : a < upvalues.length := by
    have hlength := (List.getElem?_eq_some_iff.mp hget).1
    rw [hins.length] at hlength
    exact Nat.lt_of_le_of_ne (Nat.le_of_lt_succ hlength) hne
  have hnot : a ∉ (above ++ rest).map Prod.fst := by
    intro hmem
    refine hopen ?_
    rw [List.map_append, List.mem_append] at hmem ⊢
    exact hmem.imp_right fun hmem => List.mem_cons_of_mem _ hmem
  have hget' := List.getElem?_eq_getElem ha
  rw [hins.others a ha _ hget', Option.some.injEq] at hget
  obtain ⟨hvalue, hclosed, hmem⟩ := h.isClosed a _ hget' hnot
  rw [owner_update ha, ← hget]
  exact ⟨hvalue, hclosed, hmem⟩

theorem Inserted.owners (hins : Inserted upvalues upvalues' value (before above))
    (h : Upvalues base upvalues first store stack stack.length owner (above ++ rest))
    (hunowned : ∀ a < upvalues.length, owner a ≠ x) :
    ∀ a < upvalues'.length, ∀ b < upvalues'.length,
      Function.update owner upvalues.length x a = Function.update owner upvalues.length x b →
        a = b := by
  intro a ha b hb heq
  rw [hins.length] at ha hb
  by_cases han : a = upvalues.length
  · by_cases hbn : b = upvalues.length
    · rw [han, hbn]
    · have hb' : b < upvalues.length := by omega
      rw [han, Function.update_self, owner_update hb'] at heq
      exact absurd heq.symm (hunowned b hb')
  · have ha' : a < upvalues.length := by omega
    by_cases hbn : b = upvalues.length
    · rw [hbn, Function.update_self, owner_update ha'] at heq
      exact absurd heq (hunowned a ha')
    · have hb' : b < upvalues.length := by omega
      rw [owner_update ha', owner_update hb'] at heq
      exact h.owners a ha' b hb' heq

/-- **A new upvalue** goes in between the slots above and those below. -/
theorem Upvalues.insert
    (h : Upvalues base upvalues first store stack stack.length owner (above ++ rest))
    (habove : ∀ p ∈ above, i < p.2) (hrest : ∀ p ∈ rest, p.2 < i) (hslot : stack[i]? = some x)
    (hdistinct : stack.Nodup)
    (hins : Inserted upvalues upvalues' ⟨.stack (base + i), .null, rest.head?.map Prod.fst⟩
      (before above)) :
    Upvalues base upvalues' (if before above = none then some upvalues.length else first) store
      stack stack.length (Function.update owner upvalues.length x)
      (above ++ (upvalues.length, i) :: rest) where
  linked := hins.linked h
  sorted := h.sorted_insert habove hrest upvalues.length
  isOpen := hins.isOpen h hslot
  isClosed _ _ hget hopen := hins.isClosed h hget hopen
  owners := hins.owners h (h.unowned habove hrest hslot hdistinct)

end Insert

end Capture

theorem length_opens_le {base : Nat} {upvalues : List ObjUpvalue} {first : Option Address}
    {store : Nat → Value} {stack : List Nat} {last : Nat} {owner : Address → Nat}
    {opens : List (Address × Nat)}
    (h : Upvalues base upvalues first store stack last owner opens) :
    opens.length ≤ upvalues.length := by
  have hle := (List.subperm_of_subset h.linked.nodup fun a ha =>
    List.mem_range.mpr (isOpen_lt h ha)).length_le
  rwa [List.length_map, List.length_range] at hle

section Capturing

variable {fiber : Fiber} {s : Scopes} {owner : Address → Nat} {opens above rest : List (Address × Nat)}
  {i x : Nat}

/-- The upvalue of a slot that has one is taken again. -/
theorem Refines.capture_found {p : Address × Nat} {prev : Option Address}
    (h : Refines fiber s owner opens) (hmem : p ∈ opens) (hi : s.stack[p.2]? = some x)
    (hwalk : fiber.walk (fiber.stack + p.2) (fiber.upvalues.length + 1) none fiber.openUpvalues
      = .ok (prev, some p.1)) :
    fiber.captureUpvalue (fiber.stack + p.2) = .ok (p.1, fiber) ∧
      Refines { fiber with captured := fiber.captured ++ [p.1] }
        { s with captured := s.captured ++ [x] } owner opens := by
  have hpointer := pointer_eq h.upvalues hmem
  obtain ⟨-, -, -, hat⟩ := h.upvalues.isOpen p hmem
  have howner : owner p.1 = x := Option.some.inj (hat.symm.trans hi)
  refine ⟨?_, h.upvalues, h.cells, h.stackTop, h.frames, h.room, h.distinct, h.known, ?_,
    fun a => ?_, h.ownerKnown⟩
  · unfold Fiber.captureUpvalue
    rw [hwalk]
    show (if fiber.pointer p.1 = some (fiber.stack + p.2) then _ else _) = _
    rw [if_pos hpointer]
    rfl
  · show s.captured ++ [x] = (fiber.captured ++ [p.1]).map owner
    rw [List.map_append, ← h.captured, List.map_singleton, howner]
  · show a ∈ fiber.captured ++ [p.1] ↔ a < fiber.upvalues.length
    rw [List.mem_append, h.names, List.mem_singleton]
    refine or_iff_left_of_imp fun heq => ?_
    rw [heq]
    exact isOpen_lt h.upvalues (List.mem_map_of_mem hmem)

/-- For a slot without one, a new upvalue is linked in where the walk has stopped. -/
theorem Refines.captureUpvalue_eq (h : Refines fiber s owner (above ++ rest))
    (hrest : ∀ p ∈ rest, p.2 < i)
    (hwalk : fiber.walk (fiber.stack + i) (fiber.upvalues.length + 1) none fiber.openUpvalues
      = .ok (before above, rest.head?.map Prod.fst)) :
    fiber.captureUpvalue (fiber.stack + i)
      = fiber.insertUpvalue (fiber.stack + i) (before above) (rest.head?.map Prod.fst) := by
  unfold Fiber.captureUpvalue
  rw [hwalk]
  cases rest with
  | nil => rfl
  | cons p rest =>
      have hpointer := pointer_eq h.upvalues (List.mem_append_right above List.mem_cons_self)
      show (if fiber.pointer p.1 = some (fiber.stack + i) then _ else _) = _
      have hne : some (fiber.stack + p.2) ≠ some (fiber.stack + i) := by
        intro heq
        have hlt := hrest p List.mem_cons_self
        rw [Option.some.injEq] at heq
        omega
      rw [hpointer, if_neg hne]

theorem Refines.capture_new (h : Refines fiber s owner (above ++ rest))
    (habove : ∀ p ∈ above, i < p.2) (hrest : ∀ p ∈ rest, p.2 < i) (hi : s.stack[i]? = some x)
    (hwalk : fiber.walk (fiber.stack + i) (fiber.upvalues.length + 1) none fiber.openUpvalues
      = .ok (before above, rest.head?.map Prod.fst)) :
    ∃ fiber', fiber.captureUpvalue (fiber.stack + i) = .ok (fiber.upvalues.length, fiber') ∧
      Refines { fiber' with captured := fiber'.captured ++ [fiber.upvalues.length] }
        { s with captured := s.captured ++ [x] } (Function.update owner fiber.upvalues.length x)
        (above ++ (fiber.upvalues.length, i) :: rest) := by
  have hprev : ∀ a, before above = some a → a < fiber.upvalues.length := by
    intro a ha
    obtain ⟨p, hp, rfl⟩ := Option.map_eq_some_iff.mp ha
    exact isOpen_lt h.upvalues
      (List.mem_map_of_mem (List.mem_append_left _ (List.mem_of_getLast? hp)))
  obtain ⟨upvalues', hinsert, hins⟩ := @insertUpvalue_eq fiber (fiber.stack + i) (before above)
    (rest.head?.map Prod.fst) hprev
  refine ⟨_, (h.captureUpvalue_eq hrest hwalk).trans hinsert,
    h.upvalues.insert habove hrest hi h.distinct hins, h.cells, h.stackTop, h.frames, h.room,
    h.distinct, h.known, ?_, fun a => ?_, fun a ha => ?_⟩
  · show s.captured ++ [x] = (fiber.captured ++ [fiber.upvalues.length]).map _
    rw [List.map_append, List.map_singleton, Function.update_self, h.captured]
    refine congrArg (· ++ [x]) (List.map_congr_left fun a ha => ?_)
    exact (owner_update ((h.names a).mp ha)).symm
  · show a ∈ fiber.captured ++ [fiber.upvalues.length] ↔ a < upvalues'.length
    rw [List.mem_append, h.names, List.mem_singleton, hins.length, Nat.lt_succ_iff_lt_or_eq]
  · have ha' : a < upvalues'.length := ha
    rw [hins.length] at ha'
    by_cases hn : a = fiber.upvalues.length
    · rw [hn, Function.update_self]
      exact h.known x (List.mem_of_getElem? hi)
    · have hlt : a < fiber.upvalues.length := Nat.lt_of_le_of_ne (Nat.le_of_lt_succ ha') hn
      rw [owner_update hlt]
      exact h.ownerKnown a hlt

/-- **To capture** a slot is to capture its variable: with the upvalue that stands for it, or with
a new one. -/
theorem Refines.capture (h : Refines fiber s owner opens) (hi : s.stack[i]? = some x) :
    ∃ a fiber' owner' opens', fiber.captureUpvalue (fiber.stack + i) = .ok (a, fiber') ∧
      Refines { fiber' with captured := fiber'.captured ++ [a] }
        { s with captured := s.captured ++ [x] } owner' opens' := by
  obtain ⟨above, rest, hsplit, habove, hrest, hwalk⟩ :=
    @walk_eq fiber s.store s.stack s.stack.length owner i [] opens (fiber.upvalues.length + 1)
      fiber.openUpvalues h.upvalues (by simp) h.upvalues.linked
      (Nat.lt_succ_of_le (length_opens_le h.upvalues))
  rw [List.nil_append] at hsplit
  subst hsplit
  by_cases hfound : ∃ p, rest.head? = some p ∧ p.2 = i
  · obtain ⟨p, hp, rfl⟩ := hfound
    have hmem : p ∈ above ++ rest := List.mem_append_right _ (List.mem_of_head? hp)
    rw [hp] at hwalk
    obtain ⟨hcapture, hrefines⟩ := h.capture_found hmem hi hwalk
    exact ⟨p.1, fiber, owner, above ++ rest, hcapture, hrefines⟩
  · have hbelow : ∀ p ∈ rest, p.2 < i := by
      have hsorted := (List.pairwise_append.mp h.upvalues.sorted).2.1
      cases rest with
      | nil => simp
      | cons p rest =>
          have hp : p.2 < i :=
            Nat.lt_of_le_of_ne (hrest p List.mem_cons_self) fun heq => hfound ⟨p, rfl, heq⟩
          intro q hq
          rcases List.mem_cons.mp hq with rfl | hq
          · exact hp
          · exact Nat.lt_trans ((List.pairwise_cons.mp hsorted).1 q hq) hp
    obtain ⟨fiber', hcapture, hrefines⟩ := h.capture_new habove hbelow hi hwalk
    exact ⟨fiber.upvalues.length, fiber', _, _, hcapture, hrefines⟩

end Capturing

/-! ### Growing the stack -/

/-- **Moving** changes where the open upvalues point to, and nothing else. -/
theorem moveUpvalues_eq {old new : Nat} {l : List (Address × Nat)} {fiber : Fiber} {fuel : Nat}
    {current : Option Address}
    (hlinked : IsList (nextUpvalue fiber.upvalues) current (l.map Prod.fst))
    (hopen : ∀ p ∈ l, ∃ upvalue, fiber.upvalues[p.1]? = some upvalue ∧
      upvalue.value = .stack (old + p.2))
    (hfuel : l.length < fuel) :
    ∃ upvalues', Fiber.moveUpvalues old new fuel fiber current
        = .ok { fiber with upvalues := upvalues' } ∧
      upvalues'.length = fiber.upvalues.length ∧
      nextUpvalue upvalues' = nextUpvalue fiber.upvalues ∧
      (∀ a ∉ l.map Prod.fst, upvalues'[a]? = fiber.upvalues[a]?) ∧
      ∀ p ∈ l, ∃ upvalue, upvalues'[p.1]? = some upvalue ∧
        upvalue.value = .stack (new + p.2) := by
  induction l generalizing fiber fuel current with
  | nil =>
      obtain ⟨fuel, rfl⟩ : ∃ n, fuel = n + 1 := ⟨fuel - 1, by omega⟩
      obtain rfl : current = none := hlinked
      exact ⟨fiber.upvalues, rfl, rfl, rfl, fun _ _ => rfl, by simp⟩
  | cons p l ih =>
      rw [List.length_cons] at hfuel
      obtain ⟨fuel, rfl⟩ : ∃ n, fuel = n + 1 := ⟨fuel - 1, by omega⟩
      have hnot : p.1 ∉ l.map Prod.fst := (List.nodup_cons.mp hlinked.nodup).1
      obtain ⟨rfl, next, hnext, hrest⟩ := hlinked
      obtain ⟨upvalue, hget, hvalue⟩ := hopen p List.mem_cons_self
      have hlt := (List.getElem?_eq_some_iff.mp hget).1
      unfold nextUpvalue at hnext
      rw [hget, Option.map_some, Option.some.injEq] at hnext
      subst hnext
      have hsame := nextUpvalue_set hget
        (show ObjUpvalue.next { upvalue with value := .stack (new + p.2) } = upvalue.next from rfl)
      obtain ⟨upvalues', hrun, hlength, hnexts, hothers, hmoved⟩ :=
        @ih { fiber with
          upvalues := fiber.upvalues.set p.1 { upvalue with value := .stack (new + p.2) } }
          fuel upvalue.next (by rw [hsame]; exact hrest) (fun q hq => by
            have hne : q.1 ≠ p.1 := fun heq => hnot (heq ▸ List.mem_map_of_mem hq)
            show ∃ u, (fiber.upvalues.set p.1 _)[q.1]? = _ ∧ _
            rw [getElem?_set_of_ne hne]
            exact hopen q (List.mem_cons_of_mem _ hq)) (by omega)
      refine ⟨upvalues', ?_, ?_, hnexts.trans hsame, fun a ha => ?_, fun q hq => ?_⟩
      · have hpointer : fiber.pointer p.1 = some (old + p.2) := by
          unfold Fiber.pointer
          rw [hget, Option.bind_some]
          unfold ObjUpvalue.pointer
          rw [hvalue]
        unfold Fiber.moveUpvalues
        rw [hpointer, hget]
        show Fiber.moveUpvalues old new fuel { fiber with
          upvalues := fiber.upvalues.set p.1
            { upvalue with value := .stack (new + (old + p.2 - old)) } } upvalue.next = _
        rw [Nat.add_sub_cancel_left]
        exact hrun
      · rw [hlength]
        exact List.length_set
      · rw [List.map_cons, List.mem_cons, not_or] at ha
        rw [hothers a ha.2]
        exact getElem?_set_of_ne ha.1 _
      · rcases List.mem_cons.mp hq with rfl | hq
        · refine ⟨_, ?_, show ObjUpvalue.value { upvalue with value := .stack (new + q.2) } = _
            from rfl⟩
          rw [hothers q.1 hnot]
          exact List.getElem?_set_self hlt
        · exact hmoved q hq

/-- **The stack that has grown** means the same, wherever it is now. -/
theorem Refines.ensureStack {fiber : Fiber} {s : Scopes} {owner : Address → Nat}
    {opens : List (Address × Nat)} (h : Refines fiber s owner opens) {needed : Nat} (block : Nat)
    (hneeded : s.stack.length ≤ needed) (hmax : needed ≤ 2 ^ 30) :
    ∃ fiber', fiber.wrenEnsureStack needed block = .ok fiber' ∧ Refines fiber' s owner opens ∧
      needed ≤ fiber'.cells.length := by
  by_cases hroom : needed ≤ fiber.cells.length
  · exact ⟨fiber, if_pos hroom, h, hroom⟩
  have hof : (BitVec.ofNat 32 needed).toNat = needed := by
    rw [BitVec.toNat_ofNat]
    exact Nat.mod_eq_of_lt (by omega)
  have hceil := wrenPowerOf2Ceil_eq (n := BitVec.ofNat 32 needed) (by omega) (by omega)
  rw [hof] at hceil
  have hcapacity : needed ≤ 2 ^ Nat.clog 2 needed := Nat.le_pow_clog (by decide) needed
  obtain ⟨hholds, hlength⟩ := h.cells.resize (n := 2 ^ Nat.clog 2 needed)
    (by rw [List.length_map]; omega)
  have hlimits : ∀ frame ∈ s.frames, frame.limit ≤ 2 ^ Nat.clog 2 needed := by
    intro frame hframe
    have := h.room frame hframe
    omega
  unfold Fiber.wrenEnsureStack
  rw [if_neg hroom, hceil]
  by_cases hblock : block = fiber.stack
  · subst hblock
    refine ⟨{ fiber with cells := fiber.cells.resize (2 ^ Nat.clog 2 needed) }, if_pos rfl,
      ⟨h.upvalues, hholds, h.stackTop, h.frames, ?_, h.distinct, h.known, h.captured, h.names,
        h.ownerKnown⟩, ?_⟩
    · intro frame hframe
      rw [hlength]
      exact hlimits frame hframe
    · rw [hlength]
      exact hcapacity
  obtain ⟨upvalues', hrun, hlengths, hnexts, hothers, hmoved⟩ :=
    @moveUpvalues_eq fiber.stack block opens
      { fiber with
        stack := block
        cells := fiber.cells.resize (2 ^ Nat.clog 2 needed)
        frames := fiber.frames.map fun start => block + (start - fiber.stack) }
      (fiber.upvalues.length + 1) fiber.openUpvalues h.upvalues.linked
      (fun p hp => by
        obtain ⟨upvalue, hget, hvalue, -⟩ := h.upvalues.isOpen p hp
        exact ⟨upvalue, hget, hvalue⟩)
      (Nat.lt_succ_of_le (length_opens_le h.upvalues))
  refine ⟨{ fiber with
      stack := block
      cells := fiber.cells.resize (2 ^ Nat.clog 2 needed)
      stackTop := block + (fiber.stackTop - fiber.stack)
      frames := fiber.frames.map fun start => block + (start - fiber.stack)
      upvalues := upvalues' }, ?_, ⟨⟨?_, h.upvalues.sorted, fun p hp => ?_,
      fun a upvalue ha hopen => ?_, ?_⟩, hholds, ?_, ?_, ?_, h.distinct, h.known, h.captured, fun a => ?_, fun a ha => ?_⟩, ?_⟩
  · show (if block = fiber.stack then _ else _) = _
    rw [if_neg hblock]
    show (Fiber.moveUpvalues fiber.stack block (fiber.upvalues.length + 1) _ _ >>= _) = _
    rw [hrun]
    rfl
  · show IsList (nextUpvalue upvalues') _ _
    rw [hnexts]
    exact h.upvalues.linked
  · obtain ⟨upvalue, hget, hvalue⟩ := hmoved p hp
    obtain ⟨-, -, -, hat⟩ := h.upvalues.isOpen p hp
    exact ⟨upvalue, hget, hvalue, hat⟩
  · rw [hothers a hopen] at ha
    exact h.upvalues.isClosed a upvalue ha hopen
  · rw [hlengths]
    exact h.upvalues.owners
  · show block + (fiber.stackTop - fiber.stack) = _
    rw [h.stackTop, Nat.add_sub_cancel_left]
  · show fiber.frames.map _ = _
    rw [h.frames, List.map_map]
    refine List.map_congr_left fun frame _ => ?_
    show block + (fiber.stack + frame.start - fiber.stack) = _
    rw [Nat.add_sub_cancel_left]
  · intro frame hframe
    rw [hlength]
    exact hlimits frame hframe
  · rw [hlengths]
    exact h.names a
  · refine h.ownerKnown a ?_
    rwa [hlengths] at ha
  · rw [hlength]
    exact hcapacity

/-! ### The instructions -/

section Instructions

variable {fiber : Fiber} {s s' : Scopes} {owner : Address → Nat} {opens : List (Address × Nat)}
  {frame : Frame} {x : Nat}

theorem Refines.stackStart (h : Refines fiber s owner opens)
    (hframe : s.frames.head? = some frame) :
    fiber.stackStart = .ok (fiber.stack + frame.start) := by
  unfold Fiber.stackStart
  rw [h.frames, List.head?_map, hframe]
  rfl

theorem top_eq (htop : s.top frame = some x) :
    frame.start < s.stack.length ∧ s.stack.getLast? = some x ∧
      s.stack[s.stack.length - 1]? = some x := by
  unfold Scopes.top at htop
  by_cases hlt : frame.start < s.stack.length
  · rw [if_pos hlt] at htop
    refine ⟨hlt, htop, ?_⟩
    rwa [← List.getLast?_eq_getElem?]
  · rw [if_neg hlt] at htop
    cases htop

theorem Refines.peek (h : Refines fiber s owner opens) (htop : s.top frame = some x) :
    fiber.peek = .ok (s.store x) := by
  obtain ⟨hlt, -, hlast⟩ := top_eq htop
  unfold Fiber.peek
  rw [h.stackTop,
    show fiber.stack + s.stack.length - 1 = fiber.stack + (s.stack.length - 1) by omega]
  exact h.read hlast

theorem Refines.hasRoom (h : Refines fiber s owner opens) (hframe : s.frames.head? = some frame)
    (hroom : s.HasRoom frame) : s.stack.length < fiber.cells.length :=
  Nat.lt_of_lt_of_le hroom (h.room frame (List.mem_of_head? hframe))

/-- **Closing and cutting** the stack at a slot. -/
theorem Refines.closeAt (h : Refines fiber s owner opens) {last : Nat}
    (hlast : last ≤ s.stack.length) (stackTop : Nat) :
    ∃ fiber' opens', Fiber.closeUpvalues (fiber.stack + last) (fiber.upvalues.length + 1)
        { fiber with stackTop := stackTop } = .ok fiber' ∧ fiber'.stackTop = stackTop ∧
      fiber'.cells = fiber.cells ∧
      Refines { fiber' with stackTop := fiber.stack + last } { s with stack := s.stack.take last }
        owner opens' := by
  have hweak : Upvalues fiber.stack fiber.upvalues fiber.openUpvalues s.store s.stack last owner
      opens := by
    refine h.upvalues.change (fun _ _ hslot => hslot) (fun _ _ _ => rfl) fun a _ hnot hmem => ?_
    rw [List.take_length] at hnot
    exact hnot (List.mem_of_mem_take hmem)
  obtain ⟨upvalues, first, opens', hrun, hlength, hupvalues, hbelow⟩ :=
    @closeUpvalues_eq s.store s.stack last owner opens { fiber with stackTop := stackTop }
      (fiber.upvalues.length + 1) hweak h.cells h.distinct
      (Nat.lt_succ_of_le (length_opens_le h.upvalues))
  refine ⟨_, opens', hrun, rfl, rfl, ?_⟩
  refine ⟨hupvalues.change (fun p hp hslot => ?_) (fun _ _ _ => rfl) (fun a _ hnot => ?_),
    ?_, ?_, h.frames, h.room,
    h.distinct.sublist (List.take_sublist _ _), fun y hy => h.known y (List.mem_of_mem_take hy),
    h.captured, fun a => ?_, fun a ha => ?_⟩
  · rwa [List.getElem?_take_of_lt (hbelow p hp)]
  · rwa [List.take_length]
  · show Cells.Holds fiber.cells ((s.stack.take last).map s.store)
    rw [List.map_take]
    exact h.cells.take last
  · show fiber.stack + last = fiber.stack + (s.stack.take last).length
    rw [List.length_take_of_le hlast]
  · rw [h.names]
    show a < fiber.upvalues.length ↔ a < upvalues.length
    rw [hlength]
  · refine h.ownerKnown a ?_
    have ha' : a < upvalues.length := ha
    rwa [hlength] at ha'

/-- A variable that was not captured can be popped. -/
theorem Refines.pop (h : Refines fiber s owner opens) (htop : s.top frame = some x)
    (hx : x ∉ s.captured) :
    Refines fiber.drop { s with stack := s.stack.dropLast } owner opens := by
  obtain ⟨hlt, -, hlast⟩ := top_eq htop
  have hcut := @Refines.cut fiber s owner opens h (s.stack.length - 1) (by omega) fun p hp => ?_
  · rw [List.dropLast_eq_take]
    unfold Fiber.drop
    rwa [h.stackTop, show fiber.stack + s.stack.length - 1 = fiber.stack + (s.stack.length - 1) by
      omega]
  · obtain ⟨-, -, -, hat⟩ := h.upvalues.isOpen p hp
    have hplt := (List.getElem?_eq_some_iff.mp hat).1
    by_contra hge
    rw [show p.2 = s.stack.length - 1 by omega, hlast, Option.some.injEq] at hat
    refine hx ?_
    rw [h.captured, hat]
    exact List.mem_map_of_mem ((h.names p.1).mpr (isOpen_lt h.upvalues (List.mem_map_of_mem hp)))

theorem Refines.closeUpvalue (h : Refines fiber s owner opens) (htop : s.top frame = some x) :
    ∃ fiber' opens', fiber.exec .closeUpvalue = .ok fiber' ∧
      Refines fiber' { s with stack := s.stack.dropLast } owner opens' := by
  obtain ⟨hlt, -⟩ := top_eq htop
  obtain ⟨fiber', opens', hrun, hstackTop, -, hrefines⟩ :=
    @Refines.closeAt fiber s owner opens h (s.stack.length - 1) (by omega) fiber.stackTop
  have hsub : fiber.stackTop - 1 = fiber.stack + (s.stack.length - 1) := by
    rw [h.stackTop]
    omega
  refine ⟨fiber'.drop, opens', ?_, ?_⟩
  · show (Fiber.closeUpvalues (fiber.stackTop - 1) _ fiber >>= _) = _
    rw [hsub, hrun]
    rfl
  · unfold Fiber.drop
    rw [List.dropLast_eq_take, hstackTop, hsub]
    exact hrefines

theorem Refines.call (h : Refines fiber s owner opens) {numArgs maxSlots : Nat} (block : Nat)
    (hargs : numArgs ≤ s.stack.length) (hmax : s.stack.length + maxSlots ≤ 2 ^ 30) :
    ∃ fiber', fiber.wrenCallFunction numArgs maxSlots block = .ok fiber' ∧
      Refines fiber' { s with
        frames := ⟨s.stack.length - numArgs, s.stack.length - numArgs + maxSlots⟩ :: s.frames }
        owner opens := by
  obtain ⟨fiber', hrun, hrefines, hroom⟩ :=
    @Refines.ensureStack fiber s owner opens h (s.stack.length + maxSlots) block (by omega) hmax
  refine ⟨{ fiber' with frames := (fiber'.stackTop - numArgs) :: fiber'.frames }, ?_,
    hrefines.upvalues, hrefines.cells, hrefines.stackTop, ?_, fun frame hframe => ?_,
    hrefines.distinct, hrefines.known, hrefines.captured, hrefines.names, hrefines.ownerKnown⟩
  · unfold Fiber.wrenCallFunction
    rw [h.stackTop, Nat.add_sub_cancel_left]
    show (fiber.wrenEnsureStack (s.stack.length + maxSlots) block >>= _) = _
    rw [hrun]
    rfl
  · show (fiber'.stackTop - numArgs) :: fiber'.frames = _
    rw [hrefines.frames, hrefines.stackTop, List.map_cons,
      show fiber'.stack + s.stack.length - numArgs = fiber'.stack + (s.stack.length - numArgs) by
        omega]
  · rcases List.mem_cons.mp hframe with rfl | hframe
    · show s.stack.length - numArgs + maxSlots ≤ fiber'.cells.length
      omega
    · exact hrefines.room frame hframe

theorem write_push (fiber : Fiber) (start : Nat) (value : Value) :
    (fiber.write start value >>= fun fiber => pure (f := Result)
      { fiber with frames := fiber.frames.tail, stackTop := start + 1 })
      = Fiber.push { fiber with stackTop := start, frames := fiber.frames.tail } value := by
  unfold Fiber.push Fiber.write
  by_cases hle : fiber.stack ≤ start
  · show ((if fiber.stack ≤ start then _ else _) >>= _)
      = ((if fiber.stack ≤ start then _ else _) >>= _)
    rw [if_pos hle, if_pos hle]
    show ((access (fiber.cells.put (start - fiber.stack) value) >>= _) >>= _)
      = ((access (fiber.cells.put (start - fiber.stack) value) >>= _) >>= _)
    cases fiber.cells.put (start - fiber.stack) value with
    | none => rfl
    | some cells => rfl
  · show ((if fiber.stack ≤ start then _ else _) >>= _)
      = ((if fiber.stack ≤ start then _ else _) >>= _)
    rw [if_neg hle, if_neg hle]
    rfl

/-- **To return** is to close what the frame has on the stack, and to leave the result. -/
theorem Refines.return_ (h : Refines fiber s owner opens) (hframe : s.frames.head? = some frame)
    (htop : s.top frame = some x) :
    ∃ fiber' opens', fiber.execReturn = .ok fiber' ∧
      Refines fiber' (({ s with
        stack := s.stack.take frame.start
        frames := s.frames.tail } : Scopes).push (s.store x)) owner opens' := by
  obtain ⟨hlt, -⟩ := top_eq htop
  obtain ⟨closed, opens', hrun, -, hcells, hrefines⟩ :=
    @Refines.closeAt fiber s owner opens h frame.start (by omega) (fiber.stackTop - 1)
  have hleft : Refines
      { closed with stackTop := fiber.stack + frame.start, frames := closed.frames.tail }
      { s with stack := s.stack.take frame.start, frames := s.frames.tail } owner opens' := by
    refine ⟨hrefines.upvalues, hrefines.cells, hrefines.stackTop, ?_, fun f hf => ?_,
      hrefines.distinct, hrefines.known, hrefines.captured, hrefines.names, hrefines.ownerKnown⟩
    · show closed.frames.tail = s.frames.tail.map fun frame => closed.stack + frame.start
      rw [show closed.frames = _ from hrefines.frames, List.map_tail]
    · exact hrefines.room f (List.mem_of_mem_tail hf)
  have hroom : (s.stack.take frame.start).length < closed.cells.length := by
    have hle := h.cells.length_le
    rw [List.length_map] at hle
    rw [List.length_take_of_le (Nat.le_of_lt hlt), hcells]
    omega
  obtain ⟨fiber', hpush, hpushed⟩ := hleft.push hroom (s.store x)
  refine ⟨fiber', opens', ?_, hpushed⟩
  rw [← hpush, ← write_push]
  unfold Fiber.execReturn
  rw [h.stackStart hframe]
  show (fiber.peek >>= _) = _
  rw [h.peek htop]
  show (Fiber.closeUpvalues (fiber.stack + frame.start) (fiber.upvalues.length + 1)
    { fiber with stackTop := fiber.stackTop - 1 } >>= _) = _
  rw [hrun]
  rfl

/-- **What an instruction does to the fiber** is what it means for the variables. -/
theorem exec_eq {instruction : Instruction} (h : Refines fiber s owner opens)
    (hs : s.exec instruction = some s') :
    ∃ fiber' owner' opens', fiber.exec instruction = .ok fiber' ∧
      Refines fiber' s' owner' opens' := by
  obtain ⟨frame, hframe, hs⟩ := Option.bind_eq_some_iff.mp hs
  have hstart := h.stackStart hframe
  cases instruction with
  | push value =>
      obtain ⟨hroom, hs⟩ := Option.ite_none_right_eq_some.mp hs
      obtain rfl := Option.some.inj hs
      obtain ⟨fiber', hrun, hrefines⟩ := h.push (h.hasRoom hframe hroom) value
      exact ⟨fiber', owner, opens, hrun, hrefines⟩
  | pop =>
      obtain ⟨x, htop, hs⟩ := Option.bind_eq_some_iff.mp hs
      obtain ⟨hx, hs⟩ := Option.ite_none_left_eq_some.mp hs
      obtain rfl := Option.some.inj hs
      exact ⟨fiber.drop, owner, opens, rfl, h.pop htop hx⟩
  | loadLocal i =>
      obtain ⟨x, hlocal, hs⟩ := Option.bind_eq_some_iff.mp hs
      obtain ⟨hroom, hs⟩ := Option.ite_none_right_eq_some.mp hs
      obtain rfl := Option.some.inj hs
      obtain ⟨fiber', hrun, hrefines⟩ := h.push (h.hasRoom hframe hroom) (s.store x)
      refine ⟨fiber', owner, opens, ?_, hrefines⟩
      show (fiber.stackStart >>= _) = _
      rw [hstart]
      show (fiber.read (fiber.stack + frame.start + i) >>= _) = _
      rw [Nat.add_assoc, h.read hlocal]
      exact hrun
  | storeLocal i =>
      obtain ⟨x, hlocal, hs⟩ := Option.bind_eq_some_iff.mp hs
      obtain ⟨y, htop, hs⟩ := Option.bind_eq_some_iff.mp hs
      obtain rfl := Option.some.inj hs
      obtain ⟨fiber', hrun, hrefines⟩ := h.write hlocal (s.store y)
      refine ⟨fiber', owner, opens, ?_, hrefines⟩
      show (fiber.stackStart >>= _) = _
      rw [hstart]
      show (fiber.peek >>= _) = _
      rw [h.peek htop]
      show fiber.write (fiber.stack + frame.start + i) (s.store y) = _
      rw [Nat.add_assoc]
      exact hrun
  | loadUpvalue k =>
      obtain ⟨x, hk, hs⟩ := Option.bind_eq_some_iff.mp hs
      obtain ⟨hroom, hs⟩ := Option.ite_none_right_eq_some.mp hs
      obtain rfl := Option.some.inj hs
      obtain ⟨fiber', hrun, hrefines⟩ := h.push (h.hasRoom hframe hroom) (s.store x)
      refine ⟨fiber', owner, opens, ?_, hrefines⟩
      show (fiber.readUpvalue k >>= _) = _
      rw [h.readUpvalue hk]
      exact hrun
  | storeUpvalue k =>
      obtain ⟨x, hk, hs⟩ := Option.bind_eq_some_iff.mp hs
      obtain ⟨y, htop, hs⟩ := Option.bind_eq_some_iff.mp hs
      obtain rfl := Option.some.inj hs
      obtain ⟨fiber', hrun, hrefines⟩ := h.writeUpvalue hk (s.store y)
      refine ⟨fiber', owner, opens, ?_, hrefines⟩
      show (fiber.peek >>= _) = _
      rw [h.peek htop]
      exact hrun
  | capture i =>
      obtain ⟨x, hlocal, hs⟩ := Option.bind_eq_some_iff.mp hs
      obtain rfl := Option.some.inj hs
      obtain ⟨a, fiber', owner', opens', hrun, hrefines⟩ := h.capture hlocal
      refine ⟨_, owner', opens', ?_, hrefines⟩
      show (fiber.stackStart >>= _) = _
      rw [hstart]
      show (fiber.captureUpvalue (fiber.stack + frame.start + i) >>= _) = _
      rw [Nat.add_assoc, hrun]
      rfl
  | closeUpvalue =>
      obtain ⟨x, htop, hs⟩ := Option.bind_eq_some_iff.mp hs
      obtain rfl := Option.some.inj hs
      obtain ⟨fiber', opens', hrun, hrefines⟩ := h.closeUpvalue htop
      exact ⟨fiber', owner, opens', hrun, hrefines⟩
  | call numArgs maxSlots block =>
      obtain ⟨⟨hargs, hmax⟩, hs⟩ := Option.ite_none_right_eq_some.mp hs
      obtain rfl := Option.some.inj hs
      obtain ⟨fiber', hrun, hrefines⟩ :=
        @Refines.call fiber s owner opens h numArgs maxSlots block (by omega) hmax
      exact ⟨fiber', owner, opens, hrun, hrefines⟩
  | return_ =>
      obtain ⟨x, htop, hs⟩ := Option.bind_eq_some_iff.mp hs
      obtain rfl := Option.some.inj hs
      obtain ⟨fiber', opens', hrun, hrefines⟩ := h.return_ hframe htop
      exact ⟨fiber', owner, opens', hrun, hrefines⟩

/-! ### Runs -/

theorem runs_eq {instructions : List Instruction} (h : Refines fiber s owner opens)
    (hs : s.run instructions = some s') :
    ∃ fiber' owner' opens', fiber.run instructions = .ok fiber' ∧
      Refines fiber' s' owner' opens' := by
  induction instructions generalizing fiber s owner opens with
  | nil =>
      obtain rfl := Option.some.inj hs
      exact ⟨fiber, owner, opens, rfl, h⟩
  | cons instruction instructions ih =>
      unfold Scopes.run at hs
      rw [List.foldlM_cons] at hs
      obtain ⟨s₁, hexec, hs⟩ := Option.bind_eq_some_iff.mp hs
      obtain ⟨fiber₁, owner₁, opens₁, hrun₁, hrefines₁⟩ := exec_eq h hexec
      obtain ⟨fiber', owner', opens', hrun, hrefines⟩ := ih hrefines₁ hs
      refine ⟨fiber', owner', opens', ?_, hrefines⟩
      unfold Fiber.run
      rw [List.foldlM_cons, hrun₁]
      exact hrun

end Instructions

theorem refines_start (block capacity : Nat) :
    Refines (Fiber.start block capacity) (Scopes.start capacity) (fun _ => 0) [] := by
  refine ⟨⟨rfl, List.Pairwise.nil, by simp, fun a upvalue hget => ?_, fun a ha => ?_⟩,
    Cells.holds_nil _, rfl, rfl, fun frame hframe => ?_, List.nodup_nil, fun x hx => ?_, rfl,
    fun a => ?_, fun a ha => ?_⟩
  · cases hget
  · exact absurd ha (Nat.not_lt_zero a)
  · rw [List.mem_singleton.mp hframe]
    exact Nat.le_of_eq (List.length_replicate).symm
  · exact absurd hx List.not_mem_nil
  · exact ⟨fun ha => absurd ha List.not_mem_nil, fun ha => absurd ha (Nat.not_lt_zero a)⟩
  · exact absurd ha (Nat.not_lt_zero a)

/-- The part of the stack that is in use. -/
def Fiber.live (fiber : Fiber) : Cells Value := fiber.cells.take (fiber.stackTop - fiber.stack)

/-- What a program and the closures see of a fiber is what the variables hold. -/
structure Agrees (fiber : Fiber) (s : Scopes) : Prop where
  live : fiber.live = s.stack.map fun x => some (s.store x)
  through : ∀ k x, s.captured[k]? = some x → fiber.readUpvalue k = .ok (s.store x)
  /-- Closures share an upvalue if they captured the same variable, and only then. -/
  shared : ∀ j k : Nat, fiber.captured[j]? = fiber.captured[k]? ↔ s.captured[j]? = s.captured[k]?
  /-- The open upvalues are in the order of their slots, from the top of the stack. -/
  sorted : ∃ opens : List (Address × Nat),
    IsList (nextUpvalue fiber.upvalues) fiber.openUpvalues (opens.map Prod.fst) ∧
    opens.Pairwise (fun p q => q.2 < p.2) ∧
    ∀ p ∈ opens, fiber.pointer p.1 = some (fiber.stack + p.2) ∧ p.2 < s.stack.length

theorem Refines.agrees {fiber : Fiber} {s : Scopes} {owner : Address → Nat}
    {opens : List (Address × Nat)} (h : Refines fiber s owner opens) : Agrees fiber s := by
  refine ⟨?_, fun k x hk => h.readUpvalue hk, fun j k => ?_, opens, h.upvalues.linked,
    h.upvalues.sorted, fun p hp => ⟨pointer_eq h.upvalues hp, ?_⟩⟩
  · obtain ⟨rest, hrest⟩ := h.cells
    unfold Fiber.live
    rw [h.stackTop, Nat.add_sub_cancel_left, hrest, List.take_append_of_le_length (by simp),
      List.take_of_length_le (by simp), List.map_map]
    rfl
  · rw [h.captured, List.getElem?_map, List.getElem?_map]
    constructor
    · intro heq
      rw [heq]
    · intro heq
      cases hj : fiber.captured[j]? with
      | none =>
          rw [hj, Option.map_none] at heq
          exact (Option.map_eq_none_iff.mp heq.symm).symm
      | some a =>
          rw [hj, Option.map_some] at heq
          obtain ⟨b, hb, howner⟩ := Option.map_eq_some_iff.mp heq.symm
          have ha := (h.names a).mp (List.mem_of_getElem? hj)
          have hb' := (h.names b).mp (List.mem_of_getElem? hb)
          rw [hb, h.upvalues.owners a ha b hb' howner.symm]
  · obtain ⟨-, -, -, hat⟩ := h.upvalues.isOpen p hp
    exact (List.getElem?_eq_some_iff.mp hat).1

/-- **Closures share variables.**  Whatever compiled code does, however long the closures live
and wherever the stack moves, no memory is read that is not there, and all values are those of
variables that are never freed. -/
theorem run_eq {instructions : List Instruction} {block capacity : Nat} {s : Scopes}
    (h : (Scopes.start capacity).run instructions = some s) :
    ∃ fiber, (Fiber.start block capacity).run instructions = .ok fiber ∧ Agrees fiber s := by
  obtain ⟨fiber, owner, opens, hrun, hrefines⟩ := runs_eq (refines_start block capacity) h
  exact ⟨fiber, hrun, hrefines.agrees⟩

/-- A local is captured twice and set through its upvalue from a function, whose call moves the
stack and which returns after its own local was captured. -/
def sharing : List Instruction :=
  [.push .null, .capture 0, .push .null, .call 1 3 40, .capture 0, .push (.bool true),
    .storeUpvalue 0, .storeUpvalue 1, .return_, .capture 0, .closeUpvalue, .closeUpvalue]

theorem run_eq_sharing : ∃ s fiber, (Scopes.start 2).run sharing = some s ∧
    (Fiber.start 10 2).run sharing = .ok fiber ∧ Agrees fiber s := by
  obtain ⟨fiber, hrun, hagrees⟩ := @run_eq sharing 10 2 _ rfl
  exact ⟨_, fiber, rfl, hrun, hagrees⟩

end Lexical

end Wrenegade
