/-
Markers: what an abstract value may say.

A sort of abstract values has, beside the markers of its own, three that all
sorts share: `any` (every value of the sort), `uninitialized` (no value has
been given) and `error` (evaluation raised an exception).  The join of two
markers is decided by these three alone:

* `Marker.join` — `error` adds nothing, then `uninitialized` adds nothing,
  equal markers stay, and all else is `any`;
* `Marker.asOperand` — an uninitialised operand may be any value.

The join is commutative in every sort, and `error` is neutral.
-/

namespace SignAnalysis

/-- A sort of abstract values. -/
class Marker (α : Type) where
  any : α
  uninitialized : α
  error : α
  /-- The marker as reports and listings write it. -/
  text : α → String

namespace Marker

variable {α : Type} [DecidableEq α] [Marker α]

/-- The least marker that covers both. -/
def join (a b : α) : α :=
  if a = error then b
  else if b = error then a
  else if a = uninitialized then b
  else if b = uninitialized then a
  else if a = b then a
  else any

/-- What an operator sees of a marker: a value that was never given may be any. -/
def asOperand (a : α) : α :=
  if a = uninitialized then any else a

theorem join_comm (a b : α) : join a b = join b a := by
  unfold join
  by_cases ha : a = error <;> by_cases hb : b = error <;> simp [ha, hb]
  by_cases hau : a = uninitialized <;> by_cases hbu : b = uninitialized <;> simp [hau, hbu]
  by_cases hab : a = b
  · simp [hab]
  · simp [hab, Ne.symm hab]

@[simp] theorem error_join (a : α) : join error a = a := by
  simp [join]

@[simp] theorem join_error (a : α) : join a error = a := by
  rw [join_comm, error_join]

end Marker

end SignAnalysis
