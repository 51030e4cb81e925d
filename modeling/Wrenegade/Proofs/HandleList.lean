/-
The list of handles is the list of the handles that are held.

What a handle holds is told by its place: its value, and the handles before and after it.  To
release a handle changes its two neighbours, and every other handle keeps its place between the
same two.
-/
import Wrenegade.Model.HandleList

namespace Wrenegade

namespace HandleList

open WrenVM (Result access)

variable {α : Type}

/-- **The memory of a list of handles.** -/
structure Represents (vm : VM α) (held : List (Address × α)) : Prop where
  distinct : (held.map Prod.fst).Nodup
  cell : ∀ p a value q, held = p ++ (a, value) :: q →
    vm.memory a = some ⟨value, p.getLast?.map Prod.fst, q.head?.map Prod.fst⟩
  free : ∀ a ∉ held.map Prod.fst, vm.memory a = none
  first : vm.handles = held.head?.map Prod.fst

/-- The memory after a change. -/
def changed (memory : Address → Option (WrenHandle α)) (f : WrenHandle α → WrenHandle α)
    (target : Option Address) (a : Address) : Option (WrenHandle α) :=
  if target = some a then (memory a).map f else memory a

theorem change_eq {vm : VM α} {f : WrenHandle α → WrenHandle α} {target : Option Address}
    (h : ∀ a, target = some a → (vm.memory a).isSome) :
    vm.change f target = .ok { vm with memory := changed vm.memory f target } := by
  cases target with
  | none =>
      have hsame : changed vm.memory f none = vm.memory := by
        funext a
        exact if_neg fun heq => by cases heq
      rw [hsame]
      rfl
  | some a =>
      obtain ⟨handle, hget⟩ := Option.isSome_iff_exists.mp (h a rfl)
      have hsame : changed vm.memory f (some a) = Function.update vm.memory a (some (f handle)) := by
        funext b
        unfold changed
        by_cases hb : b = a
        · subst hb
          rw [if_pos rfl, hget, Function.update_self]
          rfl
        · rw [if_neg fun heq => hb (Option.some.inj heq).symm, Function.update_of_ne hb]
      rw [hsame]
      show (access (vm.memory a) >>= _) = _
      rw [hget]
      rfl

section Held

variable {vm : VM α} {held p q : List (Address × α)} {a : Address} {value : α}

theorem Represents.isSome (h : Represents vm held) (ha : a ∈ held.map Prod.fst) :
    (vm.memory a).isSome := by
  obtain ⟨e, he, rfl⟩ := List.mem_map.mp ha
  obtain ⟨p, q, hsplit⟩ := List.append_of_mem he
  rw [h.cell p e.1 e.2 q hsplit]
  rfl

theorem mem_last {l : List (Address × α)} (h : l.getLast?.map Prod.fst = some a) :
    a ∈ l.map Prod.fst := by
  obtain ⟨e, he, rfl⟩ := Option.map_eq_some_iff.mp h
  exact List.mem_map_of_mem (List.mem_of_getLast? he)

theorem mem_head {l : List (Address × α)} (h : l.head?.map Prod.fst = some a) :
    a ∈ l.map Prod.fst := by
  obtain ⟨e, he, rfl⟩ := Option.map_eq_some_iff.mp h
  exact List.mem_map_of_mem (List.mem_of_head? he)

/-- **A new handle** is the first one. -/
theorem Represents.make (h : Represents vm held) (ha : a ∉ held.map Prod.fst) (value : α) :
    ∃ vm', wrenMakeHandle vm a value = .ok vm' ∧ Represents vm' ((a, value) :: held) := by
  have hchange := @change_eq _ vm (fun first => { first with prev := some a }) vm.handles
    fun b hb => h.isSome (mem_head (by rw [← h.first]; exact hb))
  refine ⟨_, by unfold wrenMakeHandle; rw [hchange]; rfl, List.nodup_cons.mpr ⟨ha, h.distinct⟩,
    fun p b w q hsplit => ?_, fun b hb => ?_, rfl⟩
  · show Function.update (changed vm.memory _ vm.handles) a _ b = _
    cases p with
    | nil =>
        obtain ⟨heq, rfl⟩ := List.cons.inj hsplit
        obtain ⟨rfl, rfl⟩ := Prod.mk.inj heq
        rw [Function.update_self, h.first]
        rfl
    | cons e p =>
        obtain ⟨rfl, hheld⟩ := List.cons.inj hsplit
        rw [List.append_eq] at hheld
        have hb : b ≠ a := by
          intro heq
          refine ha ?_
          rw [hheld, ← heq]
          simp
        rw [Function.update_of_ne hb]
        unfold changed
        rw [h.cell p b w q hheld, h.first, hheld]
        cases p with
        | nil =>
            simp
        | cons e p =>
            have hne : ¬ ((e :: p) ++ (b, w) :: q).head?.map Prod.fst = some b := by
              intro heq
              have hdistinct := h.distinct
              rw [hheld, List.map_append] at hdistinct
              refine (List.nodup_append.mp hdistinct).2.2 b ?_ b (by simp) rfl
              rw [← Option.some.inj heq]
              simp
            rw [if_neg hne]
            simp
  · rw [List.map_cons, List.mem_cons, not_or] at hb
    show Function.update (changed vm.memory _ vm.handles) a _ b = _
    rw [Function.update_of_ne hb.1]
    unfold changed
    rw [h.free b hb.2, Option.map_none, ite_self]

theorem filter_split (h : ((p ++ (a, value) :: q).map Prod.fst).Nodup) :
    (p ++ (a, value) :: q).filter (fun e => decide (e.1 ≠ a)) = p ++ q := by
  rw [List.map_append, List.map_cons] at h
  obtain ⟨-, hq, hdisjoint⟩ := List.nodup_append.mp h
  have hp : p.filter (fun e => decide (e.1 ≠ a)) = p := by
    refine List.filter_eq_self.mpr fun e he => ?_
    rw [decide_eq_true_eq]
    exact hdisjoint e.1 (List.mem_map_of_mem he) a List.mem_cons_self
  have hq' : q.filter (fun e => decide (e.1 ≠ a)) = q := by
    refine List.filter_eq_self.mpr fun e he => ?_
    rw [decide_eq_true_eq]
    intro heq
    exact (List.nodup_cons.mp hq).1 (List.mem_map.mpr ⟨e, he, heq⟩)
  rw [List.filter_append, hp, List.filter_cons_of_neg (by simp), hq']

end Held

section Release

variable {vm : VM α} {held p q p' q' : List (Address × α)} {a b : Address} {value w : α}

/-- The handle and its neighbours. -/
theorem Represents.apart (h : Represents vm held) (hsplit : held = p ++ (a, value) :: q) :
    a ∉ p.map Prod.fst ∧ a ∉ q.map Prod.fst ∧ (p.map Prod.fst).Nodup ∧ (q.map Prod.fst).Nodup ∧
      ∀ b ∈ p.map Prod.fst, b ∉ q.map Prod.fst := by
  have hdistinct := h.distinct
  rw [hsplit, List.map_append, List.map_cons] at hdistinct
  obtain ⟨hp, hq, hdisjoint⟩ := List.nodup_append.mp hdistinct
  obtain ⟨haq, hq⟩ := List.nodup_cons.mp hq
  exact ⟨fun hmem => hdisjoint a hmem a List.mem_cons_self rfl, haq, hp, hq,
    fun b hb hbq => hdisjoint b hb b (List.mem_cons_of_mem _ hbq) rfl⟩

/-- What the memory is when a handle was unlinked. -/
def unlinked (vm : VM α) (a : Address) (p q : List (Address × α)) :
    Address → Option (WrenHandle α) :=
  Function.update
    (changed
      (changed vm.memory (fun prev => { prev with next := q.head?.map Prod.fst })
        (p.getLast?.map Prod.fst))
      (fun next => { next with prev := p.getLast?.map Prod.fst }) (q.head?.map Prod.fst))
    a none

/-- A handle before the released one keeps its place. -/
theorem unlinked_before (h : Represents vm held) (hsplit : held = p ++ (a, value) :: q)
    (hp : p = p' ++ (b, w) :: q') :
    unlinked vm a p q b = some ⟨w, p'.getLast?.map Prod.fst, (q' ++ q).head?.map Prod.fst⟩ := by
  obtain ⟨hap, -, hnodup, -, hdisjoint⟩ := h.apart hsplit
  have hb : b ∈ p.map Prod.fst := by
    rw [hp]
    simp
  have hne : b ≠ a := fun heq => hap (heq ▸ hb)
  have hnext : ¬ q.head?.map Prod.fst = some b := fun heq => hdisjoint b hb (mem_head heq)
  have hcell := h.cell p' b w (q' ++ (a, value) :: q) (by rw [hsplit, hp]; simp)
  unfold unlinked
  rw [Function.update_of_ne hne]
  unfold changed
  rw [if_neg hnext, hcell]
  cases q' with
  | nil =>
      have hprev : p.getLast?.map Prod.fst = some b := by
        rw [hp, List.getLast?_concat]
        rfl
      rw [if_pos hprev]
      rfl
  | cons e q' =>
      have hprev : ¬ p.getLast?.map Prod.fst = some b := by
        intro heq
        rw [hp, List.map_append, List.map_cons] at hnodup
        refine (List.nodup_cons.mp (List.nodup_append.mp hnodup).2.1).1 (mem_last ?_)
        rw [← heq, hp, List.getLast?_append, List.getLast?_cons_cons]
        cases hlast : (e :: q').getLast? with
        | none => cases List.getLast?_eq_none_iff.mp hlast
        | some x => rfl
      rw [if_neg hprev]
      rfl

/-- A handle behind the released one keeps its place. -/
theorem unlinked_behind (h : Represents vm held) (hsplit : held = p ++ (a, value) :: q)
    (hq : q = p' ++ (b, w) :: q') :
    unlinked vm a p q b = some ⟨w, (p ++ p').getLast?.map Prod.fst, q'.head?.map Prod.fst⟩ := by
  obtain ⟨-, haq, -, hnodup, hdisjoint⟩ := h.apart hsplit
  have hb : b ∈ q.map Prod.fst := by
    rw [hq]
    simp
  have hne : b ≠ a := fun heq => haq (heq ▸ hb)
  have hprev : ¬ p.getLast?.map Prod.fst = some b := fun heq => hdisjoint b (mem_last heq) hb
  have hcell := h.cell (p ++ (a, value) :: p') b w q' (by rw [hsplit, hq]; simp)
  unfold unlinked
  rw [Function.update_of_ne hne]
  unfold changed
  rw [if_neg hprev, hcell]
  cases p' with
  | nil =>
      have hnext : q.head?.map Prod.fst = some b := by
        rw [hq]
        rfl
      rw [if_pos hnext, List.append_nil]
      rfl
  | cons e p' =>
      have hnext : ¬ q.head?.map Prod.fst = some b := by
        intro heq
        rw [hq, List.map_append, List.map_cons] at hnodup
        refine (List.nodup_append.mp hnodup).2.2 b ?_ b List.mem_cons_self rfl
        rw [hq] at heq
        exact List.mem_cons.mpr (Or.inl (Option.some.inj heq).symm)
      rw [if_neg hnext, List.getLast?_append, List.getLast?_append, List.getLast?_cons_cons]

/-- **To release** a handle is to take it out of the list. -/
theorem Represents.release (h : Represents vm held) (hsplit : held = p ++ (a, value) :: q) :
    ∃ vm', wrenReleaseHandle vm a = .ok vm' ∧ Represents vm' (p ++ q) := by
  obtain ⟨hap, haq, hnodupp, hnodupq, hdisjoint⟩ := h.apart hsplit
  have hcell := h.cell p a value q hsplit
  have hmemp : ∀ b ∈ p.map Prod.fst, b ∈ held.map Prod.fst := by
    intro b hb
    rw [hsplit, List.map_append]
    exact List.mem_append_left _ hb
  have hmemq : ∀ b ∈ q.map Prod.fst, b ∈ held.map Prod.fst := by
    intro b hb
    rw [hsplit, List.map_append]
    exact List.mem_append_right _ (List.mem_cons_of_mem _ hb)
  have hfirst : (if vm.handles = some a then { vm with handles := q.head?.map Prod.fst } else vm)
      = ⟨vm.memory, (p ++ q).head?.map Prod.fst⟩ := by
    have hhandles := h.first
    rw [hsplit] at hhandles
    cases p with
    | nil =>
        rw [if_pos (show vm.handles = some a from hhandles)]
        rfl
    | cons e p =>
        have hne : ¬ vm.handles = some a := by
          intro heq
          rw [hhandles] at heq
          exact hap (List.mem_cons.mpr (Or.inl (Option.some.inj heq).symm))
        rw [if_neg hne]
        obtain ⟨memory, handles⟩ := vm
        rw [show handles = some e.1 from hhandles]
        rfl
  have hprev := @change_eq _ ⟨vm.memory, (p ++ q).head?.map Prod.fst⟩
    (fun prev => { prev with next := q.head?.map Prod.fst }) (p.getLast?.map Prod.fst)
    fun b hb => h.isSome (hmemp b (mem_last hb))
  have hkeep : changed vm.memory (fun prev => { prev with next := q.head?.map Prod.fst })
      (p.getLast?.map Prod.fst) a
      = some ⟨value, p.getLast?.map Prod.fst, q.head?.map Prod.fst⟩ := by
    unfold changed
    rw [if_neg fun heq => hap (mem_last heq), hcell]
  have hnext := @change_eq _ ⟨changed vm.memory (fun prev => { prev with
      next := q.head?.map Prod.fst }) (p.getLast?.map Prod.fst), (p ++ q).head?.map Prod.fst⟩
    (fun next => { next with prev := p.getLast?.map Prod.fst }) (q.head?.map Prod.fst)
    fun b hb => by
      have hbq := mem_head hb
      show (changed vm.memory _ _ b).isSome
      unfold changed
      rw [if_neg fun heq => hdisjoint b (mem_last heq) hbq]
      exact h.isSome (hmemq b hbq)
  refine ⟨⟨unlinked vm a p q, (p ++ q).head?.map Prod.fst⟩, ?_, ?_, fun p' b w q' heq => ?_,
    fun b hb => ?_, rfl⟩
  · unfold wrenReleaseHandle
    rw [hcell]
    show (VM.change (if vm.handles = some a then { vm with handles := q.head?.map Prod.fst } else vm)
      (fun prev => { prev with next := q.head?.map Prod.fst }) (p.getLast?.map Prod.fst) >>= _) = _
    rw [hfirst, hprev]
    show (access (changed vm.memory _ _ a) >>= _) = _
    rw [hkeep]
    show (VM.change _ (fun next => { next with prev := p.getLast?.map Prod.fst })
      (q.head?.map Prod.fst) >>= _) = _
    rw [hnext]
    rfl
  · rw [List.map_append]
    exact List.nodup_append.mpr ⟨hnodupp, hnodupq, fun b hb c hc heq => hdisjoint b hb (heq ▸ hc)⟩
  · rcases List.append_eq_append_iff.mp heq with ⟨l, rfl, hl⟩ | ⟨l, hl, hrest⟩
    · exact unlinked_behind h hsplit hl
    · cases l with
      | nil =>
          rw [List.append_nil] at hl
          subst hl
          have hbehind := unlinked_behind h hsplit (show q = [] ++ (b, w) :: q' from hrest.symm)
          rwa [List.append_nil] at hbehind
      | cons e l =>
          obtain ⟨rfl, rfl⟩ := List.cons.inj hrest
          exact unlinked_before h hsplit hl
  · rw [List.map_append, List.mem_append, not_or] at hb
    show unlinked vm a p q b = none
    unfold unlinked
    by_cases hba : b = a
    · rw [hba, Function.update_self]
    · have hfree := h.free b (by rw [hsplit]; simpa [hba] using hb)
      rw [Function.update_of_ne hba]
      unfold changed
      rw [hfree]
      simp

end Release

/-! ### Runs -/

section Runs

variable {vm : VM α} {held held' : List (Address × α)}

theorem exec_eq (h : Represents vm held) {op : Op α} (hhold : hold held op = some held') :
    ∃ vm', vm.exec op = .ok vm' ∧ Represents vm' held' := by
  cases op with
  | make a value =>
      obtain ⟨ha, heq⟩ := Option.ite_none_left_eq_some.mp hhold
      obtain rfl := Option.some.inj heq
      exact h.make ha value
  | release a =>
      obtain ⟨ha, heq⟩ := Option.ite_none_right_eq_some.mp hhold
      obtain rfl := Option.some.inj heq
      obtain ⟨e, he, rfl⟩ := List.mem_map.mp ha
      obtain ⟨p, q, hsplit⟩ := List.append_of_mem he
      obtain ⟨vm', hrun, hrepresents⟩ := h.release (show held = p ++ (e.1, e.2) :: q from hsplit)
      have hdistinct := h.distinct
      rw [hsplit] at hdistinct
      refine ⟨vm', hrun, ?_⟩
      rw [hsplit, filter_split (show ((p ++ (e.1, e.2) :: q).map Prod.fst).Nodup from hdistinct)]
      exact hrepresents

theorem runs_eq (h : Represents vm held) {ops : List (Op α)}
    (hhold : holdAll held ops = some held') :
    ∃ vm', vm.run ops = .ok vm' ∧ Represents vm' held' := by
  induction ops generalizing vm held with
  | nil =>
      obtain rfl := Option.some.inj hhold
      exact ⟨vm, rfl, h⟩
  | cons op ops ih =>
      unfold holdAll at hhold
      rw [List.foldlM_cons] at hhold
      obtain ⟨held₁, hop, hhold⟩ := Option.bind_eq_some_iff.mp hhold
      obtain ⟨vm₁, hrun₁, hrepresents₁⟩ := exec_eq h hop
      obtain ⟨vm', hrun, hrepresents⟩ := ih hrepresents₁ hhold
      refine ⟨vm', ?_, hrepresents⟩
      unfold VM.run
      rw [List.foldlM_cons, hrun₁]
      exact hrun

/-- The collector takes the values of all handles from a place on. -/
theorem Represents.roots_from (h : Represents vm held) {p q : List (Address × α)} {fuel : Nat}
    (hsplit : held = p ++ q) (hfuel : q.length < fuel) :
    vm.roots fuel (q.head?.map Prod.fst) = .ok (q.map Prod.snd) := by
  induction q generalizing p fuel with
  | nil =>
      obtain ⟨fuel, rfl⟩ : ∃ n, fuel = n + 1 := ⟨fuel - 1, by omega⟩
      rfl
  | cons e q ih =>
      rw [List.length_cons] at hfuel
      obtain ⟨fuel, rfl⟩ : ∃ n, fuel = n + 1 := ⟨fuel - 1, by omega⟩
      have hrest := @ih (p ++ [e]) fuel (by rw [hsplit]; simp) (by omega)
      show (access (vm.memory e.1) >>= _) = _
      rw [h.cell p e.1 e.2 q hsplit]
      show (vm.roots fuel (q.head?.map Prod.fst) >>= _) = _
      rw [hrest]
      rfl

end Runs

theorem represents_start : Represents (VM.start α) [] :=
  ⟨List.nodup_nil, fun p a value q heq => absurd heq.symm (by simp), fun _ _ => rfl, rfl⟩

/-- **In every run** of handles that are made and released, the linked list is that of the handles
that are held: the collector finds just their values, and the list is empty when all are
released. -/
theorem run_handles_eq {ops : List (Op α)} {held : List (Address × α)}
    (h : holdAll [] ops = some held) :
    ∃ vm, (VM.start α).run ops = .ok vm ∧ Represents vm held ∧
      (∀ fuel, held.length < fuel → vm.roots fuel vm.handles = .ok (held.map Prod.snd)) ∧
      (vm.handles = none ↔ held = []) := by
  obtain ⟨vm, hrun, hrepresents⟩ := runs_eq represents_start h
  refine ⟨vm, hrun, hrepresents, fun fuel hfuel => ?_, ?_⟩
  · rw [hrepresents.first]
    exact hrepresents.roots_from (List.nil_append held).symm hfuel
  · rw [hrepresents.first, Option.map_eq_none_iff, List.head?_eq_none_iff]

/-- The handle in the middle is released, and its memory is used again. -/
def reusing : List (Op Nat) :=
  [.make 8 1, .make 16 2, .make 24 3, .release 16, .make 16 4, .release 8]

theorem run_handles_eq_reusing : ∃ vm, (VM.start Nat).run reusing = .ok vm ∧
    Represents vm [(16, 4), (24, 3)] ∧
    (∀ fuel, 2 < fuel → vm.roots fuel vm.handles = .ok [4, 3]) ∧
    (vm.handles = none ↔ [(16, 4), (24, 3)] = ([] : List (Address × Nat))) :=
  @run_handles_eq Nat reusing [(16, 4), (24, 3)] (by decide)

end HandleList

end Wrenegade
