/-
Actions that follow a reader.

Wherever the cursor stands, what is left of the lexemes is a stream:

* `TokenStream.after` — the stream that is left at a position;
* `Cursor.Follows` — an action does what a reader does on that stream, without a fault;
* `Cursor.Tries` — an action finds out whether a reader can read that stream.

There is a rule for each way to put readers together, and for each way to move the cursor.
-/
import Mathlib.Data.Nat.Basic
import Mathlib.Order.Basic
import Mathlib.Tactic.ByContra
import SignAnalysis.Proofs.Cursor
import SignAnalysis.Proofs.Lookahead

namespace SignAnalysis

open Reading

/-! ### Positions of a stream -/

namespace TokenStream

/-- What is left at a position. -/
def after (s : TokenStream) (i : Nat) : TokenStream := ⟨s.lexemes.drop i, s.stop⟩

variable {s : TokenStream} {i : Nat} {t : Token}

@[simp] theorem after_zero (s : TokenStream) : s.after 0 = s := rfl

theorem rest_after (s : TokenStream) (i : Nat) : (s.after i).rest = s.after (i + 1) := by
  simp [after, rest]

theorem length_cells (s : TokenStream) : s.cells.length = s.lexemes.length + 1 := by
  simp [cells]

theorem lt_length_of_next? (h : (s.after i).next? = some t) : i < s.lexemes.length := by
  by_contra hle
  rw [after, List.drop_eq_nil_of_le (Nat.le_of_not_lt hle)] at h
  cases h

theorem getElem?_cells (hi : i ≤ s.lexemes.length) :
    s.cells[i]? = some ((s.after i).next?, (s.after i).position) := by
  rw [next?, TokenStream.position, after, List.head?_drop]
  rcases Nat.lt_or_eq_of_le hi with hlt | rfl
  · simp [cells, List.getElem?_append_left, hlt]
  · simp [cells]

theorem mem_tokens_of_after (h : t ∈ (s.after i).tokens) : t ∈ s.tokens := by
  rw [tokens, after, List.map_drop] at h
  exact List.mem_of_mem_drop h

theorem mem_tokens_of_next? (h : (s.after i).next? = some t) : t ∈ s.tokens := by
  obtain ⟨l, hl, rfl⟩ := Option.map_eq_some_iff.mp h
  exact mem_tokens_of_after (List.mem_map_of_mem (List.mem_of_head? hl))

end TokenStream

/-! ### Actions and readers -/

namespace Cursor

variable {α β : Type} {s : TokenStream} {n i j : Nat} {t : Token} {a : α} {x : Expectation}

theorem bind_of_ok {c : Action α} {d : α → Action β} (h : c.run s i = .ok (.ok a, j)) :
    (c >>= d).run s i = (d a).run s j := by
  simp only [bind, h]

theorem bind_of_error {c : Action α} {d : α → Action β} {e : SyntaxError}
    (h : c.run s i = .ok (.error e, j)) : (c >>= d).run s i = .ok (.error e, j) := by
  simp only [bind, h]

theorem lexeme_eq (hi : i ≤ s.lexemes.length) :
    lexeme.run s i = .ok (.ok ((s.after i).next?, (s.after i).position), i) := by
  simp only [lexeme, TokenStream.getElem?_cells hi]

theorem moveTo_eq (i : Nat) (hj : j ≤ s.lexemes.length) :
    (moveTo j).run s i = .ok (.ok (), j) := by
  have hlt : j < s.cells.length := by
    rw [s.length_cells]
    omega
  simp only [moveTo, if_pos hlt]

theorem peek_eq (hi : i ≤ s.lexemes.length) : peek.run s i = .ok (.ok (s.after i).next?, i) := by
  rw [peek, bind_of_ok (lexeme_eq hi)]
  rfl

theorem advance_eq (h : (s.after i).next? = some t) : advance.run s i = .ok (.ok (), i + 1) := by
  have hlt := TokenStream.lt_length_of_next? h
  rw [advance, bind_of_ok (peek_eq hlt.le), h]
  exact moveTo_eq i hlt

theorem next_eq_some (h : (s.after i).next? = some t) :
    next.run s i = .ok (.ok (some t), i + 1) := by
  have hlt := TokenStream.lt_length_of_next? h
  rw [next, bind_of_ok (peek_eq hlt.le), h]
  exact bind_of_ok (advance_eq h)

theorem next_eq_none (hi : i ≤ s.lexemes.length) (h : (s.after i).next? = none) :
    next.run s i = .ok (.ok none, i) := by
  rw [next, bind_of_ok (peek_eq hi), h]
  rfl

theorem eat_eq_true (h : (s.after i).next? = some t) : (eat t).run s i = .ok (.ok true, i + 1) := by
  have hlt := TokenStream.lt_length_of_next? h
  rw [eat, bind_of_ok (peek_eq hlt.le), if_pos h]
  exact bind_of_ok (advance_eq h)

theorem eat_eq_false (hi : i ≤ s.lexemes.length) (h : (s.after i).next? ≠ some t) :
    (eat t).run s i = .ok (.ok false, i) := by
  rw [eat, bind_of_ok (peek_eq hi), if_neg h]
  rfl

theorem stepBack_eq (hi : i ≤ s.lexemes.length) : stepBack.run s (i + 1) = .ok (.ok (), i) :=
  moveTo_eq (i + 1) hi

theorem fail_eq (hi : i ≤ s.lexemes.length) (t? : Option Token) :
    (fail x t? : Action α).run s i =
      .ok (.error ⟨(s.after i).position, .unexpectedToken x t?⟩, i) := by
  rw [fail, bind_of_ok (lexeme_eq hi)]
  rfl

/-- After `next`, a token is refused where it stands. -/
theorem next_refuse_eq (hi : i ≤ s.lexemes.length) :
    (next >>= refuse x : Action α).run s i = .ok (.error ((s.after i).unexpected x), i) := by
  cases h : (s.after i).next? with
  | none =>
    rw [bind_of_ok (next_eq_none hi h), refuse, fail_eq hi, TokenStream.unexpected, h]
  | some t =>
    rw [bind_of_ok (next_eq_some h), refuse, bind_of_ok (stepBack_eq hi), fail_eq hi,
      TokenStream.unexpected, h]

/-- From a position of `s` on, the action does what the reader does on the stream that is left
there.  It has no fault and stays within the text. -/
inductive Follows (s : TokenStream) (c : Action α) (f : Reader α) (n i : Nat) : Prop
  | fails {e : SyntaxError} {j : Nat} (hj : j ≤ s.lexemes.length)
      (hc : c.run s i = .ok (.error e, j)) (hf : f n (s.after i) = .error e)
  | returns {a : α} {j : Nat} (hij : i ≤ j) (hj : j ≤ s.lexemes.length)
      (hc : c.run s i = .ok (.ok a, j)) (hf : f n (s.after i) = .ok (a, s.after j))

namespace Follows

variable {c : Action α} {d : α → Action β} {f : Reader α} {g : α → Reader β}

theorem pure (a : α) (hi : i ≤ s.lexemes.length) : Follows s (pure a) (Reader.ret a) n i :=
  .returns le_rfl hi rfl rfl

theorem fail (hi : i ≤ s.lexemes.length) :
    Follows s (Cursor.fail x (s.after i).next? : Action α) (Reader.fail x) n i :=
  .fails hi (fail_eq hi _) rfl

theorem refuse (hi : i ≤ s.lexemes.length) :
    Follows s (next >>= Cursor.refuse x : Action α) (Reader.fail x) n i :=
  .fails hi (next_refuse_eq hi) rfl

/-- It is enough that the action and the reader go on, perhaps further along the text, as ones
that are known to agree. -/
theorem transfer {c' : Action α} {f' : Reader α} {n' i' : Nat} (h : Follows s c' f' n' i')
    (hi : i ≤ i') (hc : c.run s i = c'.run s i') (hf : f n (s.after i) = f' n' (s.after i')) :
    Follows s c f n i := by
  cases h with
  | fails hj hc' hf' => exact .fails hj (hc.trans hc') (hf.trans hf')
  | returns hij hj hc' hf' => exact .returns (hi.trans hij) hj (hc.trans hc') (hf.trans hf')

theorem of_eq {c' : Action α} (hc : c.run s i = c'.run s i) (h : Follows s c' f n i) :
    Follows s c f n i :=
  h.transfer le_rfl hc rfl

theorem later (h : Follows s c f n i) : Follows s c (f.later x) (n + 1) i :=
  h.transfer le_rfl rfl rfl

theorem peek {k : Option Token → Reader α} (h : Follows s c (k (s.after i).next?) n i) :
    Follows s c (Reader.peek k) n i :=
  h.transfer le_rfl rfl rfl

theorem skip {c' : Action α} (hc : c.run s i = c'.run s (i + 1)) (h : Follows s c' f n (i + 1)) :
    Follows s c f.skip n i := by
  refine h.transfer (Nat.le_succ i) hc ?_
  rw [Reader.skip, s.rest_after]

theorem bind (hc : Follows s c f n i)
    (hd : ∀ {a j}, i ≤ j → j ≤ s.lexemes.length → f n (s.after i) = .ok (a, s.after j) →
      Follows s (d a) (g a) n j) : Follows s (c >>= d) (f.bind g) n i := by
  cases hc with
  | fails hj hc hf =>
    refine .fails hj (bind_of_error hc) ?_
    rw [Reader.bind, hf]
    rfl
  | @returns a j hij hj hc hf =>
    refine (hd hij hj hf).transfer hij (bind_of_ok hc) ?_
    rw [Reader.bind, hf, ok_bind]

theorem expect (hi : i ≤ s.lexemes.length)
    (h : i < s.lexemes.length → Follows s c f n (i + 1)) :
    Follows s (do Cursor.expect t; c) (Reader.expect t f) n i := by
  by_cases ht : (s.after i).next? = some t
  · have hexpect : (Cursor.expect t).run s i = .ok (.ok (), i + 1) := bind_of_ok (eat_eq_true ht)
    have hlt := TokenStream.lt_length_of_next? ht
    refine (h hlt).transfer (Nat.le_succ i) (bind_of_ok hexpect) ?_
    rw [Reader.expect, TokenStream.expect_eq_ok_iff.mpr (.cons ht .nil), ok_bind, s.rest_after]
  · have hexpect : (Cursor.expect t).run s i =
        .ok (.error ((s.after i).unexpected (.token t)), i) := by
      rw [Cursor.expect, bind_of_ok (eat_eq_false hi ht)]
      exact (bind_of_ok (peek_eq hi)).trans (fail_eq hi _)
    refine .fails hi (bind_of_error hexpect) ?_
    rw [Reader.expect, TokenStream.expect_eq_error ht]
    rfl

/-- One turn of a loop over the operands of a chain: `c` stops at a token that does not carry the
chain on, and reads an operand behind one that does. -/
theorem chain {join? : Token → Option (α → α → α)} {item : Action α} {rest : α → Action α}
    (hi : i ≤ s.lexemes.length)
    (hstop : (s.after i).next?.bind join? = none → c.run s i = .ok (.ok a, i))
    (hturn : ∀ {k}, (s.after i).next?.bind join? = some k →
      c.run s i = (do let b ← item; rest (k a b) : Action α).run s (i + 1))
    (hitem : i < s.lexemes.length → Follows s item f n (i + 1))
    (hrest : ∀ {b j}, i < j → j ≤ s.lexemes.length →
      Follows s (rest b) (Reader.chain x join? f b) n j) :
    Follows s c (Reader.chain x join? f a) (n + 1) i := by
  rw [Reader.chain_eq]
  refine later (peek ?_)
  cases hnext : (s.after i).next?.bind join? with
  | none => exact .returns le_rfl hi (hstop hnext) rfl
  | some k =>
    obtain ⟨t, ht, -⟩ := Option.bind_eq_some_iff.mp hnext
    refine skip (hturn hnext) (bind (hitem (TokenStream.lt_length_of_next? ht)) ?_)
    intro b j hij hj _
    exact hrest hij hj

/-- A loop with one operator. -/
theorem chain_one {o : Token} {k : α → α → α} {join? : Token → Option (α → α → α)}
    {item : Action α} {rest : α → Action α}
    (hjoin : ∀ t, join? t = if t = o then some k else none) (hi : i ≤ s.lexemes.length)
    (hitem : i < s.lexemes.length → Follows s item f n (i + 1))
    (hrest : ∀ {b j}, i < j → j ≤ s.lexemes.length →
      Follows s (rest b) (Reader.chain x join? f b) n j) :
    Follows s (do if ← eat o then let b ← item; rest (k a b) else Pure.pure a)
      (Reader.chain x join? f a) (n + 1) i := by
  refine chain hi ?_ ?_ hitem hrest
  · intro hstop
    have ho : (s.after i).next? ≠ some o := fun h => by simp [h, hjoin] at hstop
    exact bind_of_ok (eat_eq_false hi ho)
  · intro k' hk'
    obtain ⟨t, ht, hk'⟩ := Option.bind_eq_some_iff.mp hk'
    rw [hjoin] at hk'
    split_ifs at hk' with ho
    subst ho
    cases hk'
    exact bind_of_ok (eat_eq_true ht)

/-- A loop with two operators, the first of which is tried first. -/
theorem chain_two {o o' : Token} {k k' : α → α → α} {join? : Token → Option (α → α → α)}
    {item : Action α} {rest : α → Action α}
    (hjoin : ∀ t, join? t = if t = o then some k else if t = o' then some k' else none)
    (hi : i ≤ s.lexemes.length) (hitem : i < s.lexemes.length → Follows s item f n (i + 1))
    (hrest : ∀ {b j}, i < j → j ≤ s.lexemes.length →
      Follows s (rest b) (Reader.chain x join? f b) n j) :
    Follows s (do
      if ← eat o then let b ← item; rest (k a b)
      else if ← eat o' then let b ← item; rest (k' a b)
      else Pure.pure a) (Reader.chain x join? f a) (n + 1) i := by
  refine chain hi ?_ ?_ hitem hrest
  · intro hstop
    have ho : (s.after i).next? ≠ some o := fun h => by simp [h, hjoin] at hstop
    have ho' : (s.after i).next? ≠ some o' := fun h => by
      have hne : o' ≠ o := fun heq => ho (heq ▸ h)
      simp [h, hjoin, hne] at hstop
    exact (bind_of_ok (eat_eq_false hi ho)).trans (bind_of_ok (eat_eq_false hi ho'))
  · intro l hl
    obtain ⟨t, ht, hl⟩ := Option.bind_eq_some_iff.mp hl
    rw [hjoin] at hl
    split_ifs at hl with ho ho'
    · subst ho
      cases hl
      exact bind_of_ok (eat_eq_true ht)
    · subst ho'
      cases hl
      have ho : (s.after i).next? ≠ some o := fun h => ho (Option.some.inj (ht.symm.trans h))
      exact (bind_of_ok (eat_eq_false hi ho)).trans (bind_of_ok (eat_eq_true ht))

theorem next_skip {k : Option Token → Action α} (ht : (s.after i).next? = some t)
    (h : Follows s (k (some t)) f n (i + 1)) : Follows s (next >>= k) f.skip n i :=
  skip (bind_of_ok (next_eq_some ht)) h

theorem next_refuse {k : Option Token → Action α} {t? : Option Token} (hi : i ≤ s.lexemes.length)
    (ht : (s.after i).next? = t?) (hk : k t? = Cursor.refuse x t?) :
    Follows s (next >>= k) (Reader.fail x) n i := by
  refine of_eq ?_ (refuse hi)
  cases t? with
  | none => rw [bind_of_ok (next_eq_none hi ht), bind_of_ok (next_eq_none hi ht), hk]
  | some t => rw [bind_of_ok (next_eq_some ht), bind_of_ok (next_eq_some ht), hk]

end Follows

/-- From a position of `s` on, the action finds out whether the reader can read what is left. -/
inductive Tries (s : TokenStream) (c : Action (Option α)) (f : Reader α) (n i : Nat) : Prop
  | misses {e : SyntaxError} {j : Nat} (hj : j ≤ s.lexemes.length)
      (hc : c.run s i = .ok (.ok none, j)) (hf : f n (s.after i) = .error e)
  | hits {a : α} {j : Nat} (hij : i ≤ j) (hj : j ≤ s.lexemes.length)
      (hc : c.run s i = .ok (.ok (some a), j)) (hf : f n (s.after i) = .ok (a, s.after j))

theorem Follows.attempt {c : Action α} {f : Reader α} (h : Follows s c f n i) :
    Tries s (attempt c) f n i := by
  cases h with
  | fails hj hc hf =>
    refine .misses hj ?_ hf
    simp only [Cursor.attempt, hc]
  | returns hij hj hc hf =>
    refine .hits hij hj ?_ hf
    simp only [Cursor.attempt, hc]

end Cursor

end SignAnalysis
