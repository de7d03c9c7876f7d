/-
Computations that may fail.

A computation in several parts succeeds if each part does, with the results of the parts
before it:

* `bind_eq_ok`, `map_eq_ok` — take a success apart;
* `ok_bind` — puts one together;
* `bind_eq_error`, `map_eq_error` — say which part has failed.
-/

namespace SignAnalysis

variable {ε α β : Type}

theorem bind_eq_ok {a : Except ε α} {f : α → Except ε β} {b : β} (h : a >>= f = .ok b) :
    ∃ v, a = .ok v ∧ f v = .ok b := by
  cases a with
  | error e => cases h
  | ok v => exact ⟨v, rfl, h⟩

theorem map_eq_ok {a : Except ε α} {f : α → β} {b : β} (h : a.map f = .ok b) :
    ∃ v, a = .ok v ∧ f v = b := by
  cases a with
  | error e => cases h
  | ok v => exact ⟨v, rfl, Except.ok.inj h⟩

theorem bind_eq_error {a : Except ε α} {f : α → Except ε β} {e : ε} (h : a >>= f = .error e) :
    a = .error e ∨ ∃ v, a = .ok v ∧ f v = .error e := by
  cases a with
  | error e' =>
    cases h
    exact .inl rfl
  | ok v => exact .inr ⟨v, rfl, h⟩

theorem map_eq_error {a : Except ε α} {f : α → β} {e : ε} (h : a.map f = .error e) :
    a = .error e := by
  cases a with
  | error e' =>
    cases h
    rfl
  | ok v => cases h

theorem ok_bind (v : α) (f : α → Except ε β) : (Except.ok v >>= f) = f v := rfl

end SignAnalysis
