/-
String-keyed maps whose iteration order nobody may rely on.

The map itself is Mathlib's `AList`.  What a hash map adds is that going over its
keys yields them in some order that depends on the implementation; `HashOrder` is
such an order, an arbitrary rearrangement of every list of keys.  A result that
is stated for every `HashOrder` does not depend on the order.
-/
import Wrenegade.Lib.Text

/-- A map from texts. -/
abbrev TextMap (β : Type) := AList fun _ : Text => β

/-- The order in which a hash map hands out its keys. -/
structure HashOrder where
  arrange : List Text → List Text
  perm : ∀ keys, (arrange keys).Perm keys

namespace HashOrder

/-- The order of the list itself. -/
def inserted : HashOrder := ⟨fun keys => keys, fun _ => List.Perm.refl _⟩

/-- The keys of a map, in hash order. -/
def keys {β : Type} (order : HashOrder) (m : TextMap β) : List Text := order.arrange m.keys

/-- The values of a map, in hash order. -/
def values {β : Type} (order : HashOrder) (m : TextMap β) : List β :=
  (order.keys m).filterMap fun k => m.lookup k

variable {β : Type} (order : HashOrder) (m : TextMap β)

theorem mem_keys {k : Text} : k ∈ order.keys m ↔ k ∈ m := (order.perm _).mem_iff

theorem mem_values {v : β} : v ∈ order.values m ↔ ∃ k, m.lookup k = some v := by
  simp only [values, List.mem_filterMap, mem_keys]
  refine ⟨fun ⟨k, _, h⟩ => ⟨k, h⟩, fun ⟨k, h⟩ => ⟨k, ?_, h⟩⟩
  rw [← AList.lookup_isSome, h]
  rfl

end HashOrder
