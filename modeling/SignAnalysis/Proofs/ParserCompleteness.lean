/-
The parser accepts exactly the grammar.

Whatever the grammar derives is read back as the tree of the derivation.  This is the
other half of `ParserSoundness`, and needs two things that soundness does not:

* enough fuel.  Eight units for a token pay for every call on the way down, which is why
  the bounds of the phrases differ by a few units;
* that a phrase ends where its derivation does.  A loop takes every operator it finds, so
  nothing is said about what it returns before the next token is known: the functions for
  chains are only shown to come back to their loop (`ReadsExpr`, `ReadsGuard`,
  `ReadsStmt`), and the loop stops in front of a token that does not continue it.

A parenthesis at a literal is tried as a guard first.  Where a sum is meant, that attempt
fails: by soundness it would have read a guard in parentheses, and that has a token which
the sum does not have (`literal_eq_comparison`).

* `Stmt.ofTokens_eq_ok_iff` — a stream is read as a program iff its tokens spell it;
* `Stmt.accepts_exactly_grammar` — the same, and no tokens spell two programs.
-/
import SignAnalysis.Proofs.ParserSoundness

namespace SignAnalysis

open Grammar TokenStream

namespace Reading

variable {fuel n : Nat} {s m r : TokenStream} {t : Token} {ts us : List Token}

/-! ### Where phrases end -/

/-- No operator of an expression comes next. -/
def EndsExpr (r : TokenStream) : Prop := sumOp? r = none ∧ productOp? r = none

/-- The tokens that continue an expression. -/
def continuesExpr : Token → Bool
  | .symbol .plus | .symbol .minus | .symbol .star | .symbol .slash => true
  | _ => false

theorem endsExpr_of_leaves (h : m.Leaves (t :: ts) r) (ht : continuesExpr t = false) :
    EndsExpr m := by
  obtain ⟨hnext, -⟩ := leaves_cons.mp h
  constructor
  · rw [Option.eq_none_iff_forall_ne_some]
    intro op hop
    obtain ⟨o, ho, hnext'⟩ := sumOp?_eq_some_iff.mp hop
    cases hnext.symm.trans hnext'
    cases ho <;> cases ht
  · rw [Option.eq_none_iff_forall_ne_some]
    intro op hop
    obtain ⟨o, ho, hnext'⟩ := productOp?_eq_some_iff.mp hop
    cases hnext.symm.trans hnext'
    cases ho <;> cases ht

theorem endsExpr_of_end (h : r.next? = none) : EndsExpr r := by
  constructor
  · rw [sumOp?, h]
  · rw [productOp?, h]

theorem eat?_eq_none {u : Token} (h : s.Leaves (t :: ts) r) (hne : t ≠ u) : s.eat? u = none := by
  obtain ⟨hnext, -⟩ := leaves_cons.mp h
  rw [eat?, hnext, if_neg]
  intro heq
  exact hne (Option.some_inj.mp heq)

theorem eat?_of_leaves (h : s.Leaves (t :: ts) r) :
    s.eat? t = some s.rest ∧ s.rest.Leaves ts r := by
  obtain ⟨hnext, h⟩ := leaves_cons.mp h
  exact ⟨eat?_eq_some_iff.mpr (.cons hnext .nil), h⟩

theorem expect_of_leaves (h : s.Leaves (t :: ts) r) :
    s.expect t = .ok s.rest ∧ s.rest.Leaves ts r := by
  obtain ⟨hnext, h⟩ := leaves_cons.mp h
  exact ⟨expect_eq_ok_iff.mpr (.cons hnext .nil), h⟩

/-! ### Loops that have come to their end -/

theorem sumRest_of_none {e : Expr} (hn : 0 < n) (hr : sumOp? r = none) :
    sumRest n e r = .ok (e, r) := by
  obtain ⟨n, rfl⟩ : ∃ m, n = m + 1 := ⟨n - 1, by omega⟩
  rw [sumRest, hr]

theorem productRest_of_none {e : Expr} (hn : 0 < n) (hr : productOp? r = none) :
    productRest n e r = .ok (e, r) := by
  obtain ⟨n, rfl⟩ : ∃ m, n = m + 1 := ⟨n - 1, by omega⟩
  rw [productRest, hr]

theorem guardRest_of_none {g : Guard} (hn : 0 < n) (hr : r.eat? (.symbol .and) = none) :
    guardRest n g r = .ok (g, r) := by
  obtain ⟨n, rfl⟩ : ∃ m, n = m + 1 := ⟨n - 1, by omega⟩
  rw [guardRest, hr]

theorem programRest_of_none {p : Stmt} (hn : 0 < n) (hr : r.eat? (.symbol .semicolon) = none) :
    programRest n p r = .ok (p, r) := by
  obtain ⟨n, rfl⟩ : ∃ m, n = m + 1 := ⟨n - 1, by omega⟩
  rw [programRest, hr]

/-! ### Expressions -/

/-- The functions for expressions read the tokens `ts` as `e`, with enough fuel.  A chain
may go on after its tokens, so that its loop is still to be run. -/
def ReadsExpr (e : Expr) (ts : List Token) : Expr.Phrase → Prop
  | .sum => ∀ ⦃s r : TokenStream⦄ (fuel : Nat), s.Leaves ts r → productOp? r = none →
      8 * ts.length ≤ fuel + 4 →
      ∃ n, sum fuel s = sumRest n e r ∧ fuel ≤ n + ts.length + 1
  | .product => ∀ ⦃s r : TokenStream⦄ (fuel : Nat), s.Leaves ts r → 8 * ts.length ≤ fuel + 5 →
      ∃ n, product fuel s = productRest n e r ∧ fuel ≤ n + ts.length + 1
  | .factor => ∀ ⦃s r : TokenStream⦄ (fuel : Nat), s.Leaves ts r → 8 * ts.length ≤ fuel + 7 →
      factor fuel s = .ok (e, r)

theorem ReadsExpr.product_eq_ok {e : Expr} (h : ReadsExpr e ts .product) (hts : 0 < ts.length)
    (hs : s.Leaves ts r) (hr : productOp? r = none) (hf : 8 * ts.length ≤ fuel + 5) :
    product fuel s = .ok (e, r) := by
  obtain ⟨n, heq, hn⟩ := h fuel hs hf
  rw [heq, productRest_of_none (by omega) hr]

theorem ReadsExpr.sum_eq_ok {e : Expr} (h : ReadsExpr e ts .sum) (hts : 0 < ts.length)
    (hs : s.Leaves ts r) (hr : EndsExpr r) (hf : 8 * ts.length ≤ fuel + 4) :
    sum fuel s = .ok (e, r) := by
  obtain ⟨n, heq, hn⟩ := h fuel hs hr.2 hf
  rw [heq, sumRest_of_none (by omega) hr.1]

theorem ReadsExpr.factor_minus {e : Expr} (h : ReadsExpr e ts .factor)
    (hs : s.Leaves (.symbol .minus :: ts) r) (hf : 8 * (ts.length + 1) ≤ fuel + 7) :
    factor fuel s = .ok (e.opposite, r) := by
  obtain ⟨hnext, hs⟩ := leaves_cons.mp hs
  obtain ⟨fuel, rfl⟩ : ∃ n, fuel = n + 1 := ⟨fuel - 1, by omega⟩
  have hfactor := h fuel hs (by omega)
  simp only [factor, hnext, hfactor, ok_bind]

end Reading

theorem Expr.opposite_of_ne {e : Expr} (he : ∀ n, e ≠ .num n) :
    e.opposite = .binary .sub (.num 0) e := by
  cases e with
  | num n => exact absurd rfl (he n)
  | var | binary => rfl

namespace Reading

variable {fuel : Nat} {s m r : TokenStream} {ts : List Token}

theorem readsExpr {e : Expr} {k : Expr.Phrase} (h : e.Spelled k ts) : ReadsExpr e ts k := by
  induction h with
  | @ofProduct e ts h ih =>
    intro s r fuel hs hr hf
    have hts := h.length_pos
    obtain ⟨fuel, rfl⟩ : ∃ n, fuel = n + 1 := ⟨fuel - 1, by omega⟩
    have hproduct : product fuel s = .ok (e, r) := ih.product_eq_ok hts hs hr (by omega)
    refine ⟨fuel, ?_, by omega⟩
    simp only [sum, hproduct, ok_bind]
  | @sum l f o op ts us hl ho hf ihl ihf =>
    intro s r fuel hs hr hfuel
    rw [List.length_append, List.length_cons] at hfuel ⊢
    obtain ⟨m, hm, hus⟩ := leaves_append.mp hs
    obtain ⟨hnext, hus⟩ := leaves_cons.mp hus
    have hop : sumOp? m = some op := sumOp?_eq_some_iff.mpr ⟨o, ho, hnext⟩
    have hprod : productOp? m = none := by
      cases ho <;> simp [productOp?, hnext]
    obtain ⟨n, heq, hn⟩ := ihl fuel hm hprod (by omega)
    -- the loop that the sum on the left has come to takes the operator
    obtain ⟨n, rfl⟩ : ∃ n', n = n' + 1 := ⟨n - 1, by omega⟩
    have hproduct : product n m.rest = .ok (f, r) :=
      ihf.product_eq_ok hf.length_pos hus hr (by omega)
    refine ⟨n, ?_, by omega⟩
    simp only [heq, sumRest, hop, hproduct, ok_bind]
  | @ofFactor e ts h ih =>
    intro s r fuel hs hf
    have hts := h.length_pos
    obtain ⟨fuel, rfl⟩ : ∃ n, fuel = n + 1 := ⟨fuel - 1, by omega⟩
    have hfactor := ih fuel hs (by omega)
    refine ⟨fuel, ?_, by omega⟩
    simp only [product, hfactor, ok_bind]
  | @product l f o op ts us hl ho hf ihl ihf =>
    intro s r fuel hs hfuel
    rw [List.length_append, List.length_cons] at hfuel ⊢
    obtain ⟨m, hm, hus⟩ := leaves_append.mp hs
    obtain ⟨hnext, hus⟩ := leaves_cons.mp hus
    have hop : productOp? m = some op := productOp?_eq_some_iff.mpr ⟨o, ho, hnext⟩
    obtain ⟨n, heq, hn⟩ := ihl fuel hm (by omega)
    obtain ⟨n, rfl⟩ : ∃ n', n = n' + 1 := ⟨n - 1, by omega⟩
    have hfactor := ihf n hus (by omega)
    refine ⟨n, ?_, by omega⟩
    simp only [heq, productRest, hop, hfactor, ok_bind]
  | number | name =>
    intro s r fuel hs hf
    obtain ⟨hnext, rfl⟩ := leaves_singleton.mp hs
    rw [List.length_singleton] at hf
    obtain ⟨fuel, rfl⟩ : ∃ n, fuel = n + 1 := ⟨fuel - 1, by omega⟩
    simp only [factor, hnext]
  | minusNumber _ ih =>
    intro s r fuel hs hf
    exact ih.factor_minus hs hf
  | minus _ he ih =>
    intro s r fuel hs hf
    rw [← Expr.opposite_of_ne he]
    exact ih.factor_minus hs hf
  | @parens e ts h ih =>
    intro s r fuel hs hf
    rw [List.length_cons, List.length_append, List.length_singleton] at hf
    obtain ⟨hnext, hs⟩ := leaves_cons.mp hs
    obtain ⟨m, hm, hclose⟩ := leaves_append.mp hs
    obtain ⟨fuel, rfl⟩ : ∃ n, fuel = n + 1 := ⟨fuel - 1, by omega⟩
    have hsum : sum fuel s.rest = .ok (e, m) :=
      ih.sum_eq_ok h.length_pos hm (endsExpr_of_leaves hclose rfl) (by omega)
    have hexpect := expect_eq_ok_iff.mpr hclose
    simp only [factor, hnext, hsum, hexpect, ok_bind]

theorem sum_of_spelled {e : Expr} (h : e.Spelled .sum ts) (hs : s.Leaves ts r) (hr : EndsExpr r)
    (hf : 8 * ts.length ≤ fuel + 4) : sum fuel s = .ok (e, r) :=
  (readsExpr h).sum_eq_ok h.length_pos hs hr hf

/-! ### Guards -/

/-- Where an expression comes next, no guard in parentheses can be read, and the literal is
a comparison. -/
theorem literal_eq_comparison {e : Expr} (h : e.Spelled .sum ts) (hs : s.Leaves ts r)
    (fuel : Nat) : literal (fuel + 1) s = comparison fuel s := by
  obtain ⟨t, us, rfl, ht⟩ := h.exists_head
  obtain ⟨hnext, hrest⟩ := leaves_cons.mp hs
  rw [literal, hnext]
  split
  · cases ‹some t = _›
    cases ht
  · cases ‹some t = _›
    cases ht
  · cases ‹some t = _›
    cases ht
  · cases ‹some t = _›
    split
    · rename_i p hp
      obtain ⟨g, m⟩ := p
      obtain ⟨vs, hvs, hg⟩ := (guardSound fuel).enclosedGuard hp
      -- the parenthesis encloses an expression, so the guard that was read is none
      have hexpr := h.opensGuard_enclosed r.tokens
      rw [← hrest.tokens_eq, hvs.tokens_eq, List.append_assoc, hg.opensGuard_append] at hexpr
      cases hexpr
    · rfl
  · rfl

/-- The functions for guards read the tokens `ts` as `g`. -/
def ReadsGuard (g : Guard) (ts : List Token) : Guard.Phrase → Prop
  | .guard => ∀ ⦃s r : TokenStream⦄ (fuel : Nat), s.Leaves ts r → EndsExpr r →
      8 * ts.length ≤ fuel + 2 →
      ∃ n, guard fuel s = guardRest n g r ∧ fuel ≤ n + ts.length + 1
  | .literal => ∀ ⦃s r : TokenStream⦄ (fuel : Nat), s.Leaves ts r → EndsExpr r →
      8 * ts.length ≤ fuel + 3 → literal fuel s = .ok (g, r)

theorem ReadsGuard.guard_eq_ok {g : Guard} {t : Token} {us : List Token}
    (h : ReadsGuard g ts .guard) (hts : 0 < ts.length) (hs : s.Leaves ts m)
    (hm : m.Leaves (t :: us) r) (ht : continuesExpr t = false) (hne : t ≠ .symbol .and)
    (hf : 8 * ts.length ≤ fuel + 2) : guard fuel s = .ok (g, m) := by
  obtain ⟨n, heq, hn⟩ := h fuel hs (endsExpr_of_leaves hm ht) hf
  rw [heq, guardRest_of_none (by omega) (eat?_eq_none hm hne)]

theorem readsGuard {g : Guard} {k : Guard.Phrase} (h : g.Spelled k ts) : ReadsGuard g ts k := by
  induction h with
  | @ofLiteral g ts h ih =>
    intro s r fuel hs hr hf
    have hts := h.length_pos
    obtain ⟨fuel, rfl⟩ : ∃ n, fuel = n + 1 := ⟨fuel - 1, by omega⟩
    have hliteral := ih fuel hs hr (by omega)
    refine ⟨fuel, ?_, by omega⟩
    simp only [guard, hliteral, ok_bind]
  | @and l f ts us hl hf ihl ihf =>
    intro s r fuel hs hr hfuel
    rw [List.length_append, List.length_cons] at hfuel ⊢
    obtain ⟨m, hm, hand⟩ := leaves_append.mp hs
    obtain ⟨n, heq, hn⟩ := ihl fuel hm (endsExpr_of_leaves hand rfl) (by omega)
    obtain ⟨n, rfl⟩ : ∃ n', n = n' + 1 := ⟨n - 1, by omega⟩
    obtain ⟨hand, hus⟩ := eat?_of_leaves hand
    have hliteral := ihf n hus hr (by omega)
    refine ⟨n, ?_, by omega⟩
    simp only [heq, guardRest, hand, hliteral, ok_bind]
  | yes | no =>
    intro s r fuel hs _ hf
    obtain ⟨hnext, rfl⟩ := leaves_singleton.mp hs
    rw [List.length_singleton] at hf
    obtain ⟨fuel, rfl⟩ : ∃ n, fuel = n + 1 := ⟨fuel - 1, by omega⟩
    simp only [literal, hnext]
  | not _ ih =>
    intro s r fuel hs hr hf
    rw [List.length_cons] at hf
    obtain ⟨hnext, hs⟩ := leaves_cons.mp hs
    obtain ⟨fuel, rfl⟩ : ∃ n, fuel = n + 1 := ⟨fuel - 1, by omega⟩
    have hliteral := ih fuel hs hr (by omega)
    simp only [literal, hnext, hliteral, ok_bind]
  | @parens g ts h ih =>
    intro s r fuel hs hr hf
    rw [List.length_cons, List.length_append, List.length_singleton] at hf
    obtain ⟨hnext, hs⟩ := leaves_cons.mp hs
    obtain ⟨m, hm, hclose⟩ := leaves_append.mp hs
    obtain ⟨fuel, rfl⟩ : ∃ n, fuel = n + 2 := ⟨fuel - 2, by omega⟩
    have hguard : guard fuel s.rest = .ok (g, m) :=
      ih.guard_eq_ok h.length_pos hm hclose rfl (by decide) (by omega)
    have hexpect := expect_eq_ok_iff.mpr hclose
    simp only [literal, hnext, enclosedGuard, hguard, hexpect, ok_bind]
  | @compare l f o op ts us hl ho hf =>
    intro s r fuel hs hr hfuel
    rw [List.length_append, List.length_cons] at hfuel
    obtain ⟨m, hm, hus⟩ := leaves_append.mp hs
    obtain ⟨fuel, rfl⟩ : ∃ n, fuel = n + 1 := ⟨fuel - 1, by omega⟩
    have hends : EndsExpr m := endsExpr_of_leaves hus (by cases ho <;> rfl)
    obtain ⟨hnext, hus⟩ := leaves_cons.mp hus
    have hop : compareOp? m = some op := compareOp?_eq_some_iff.mpr ⟨o, ho, hnext⟩
    have hleft : sum fuel s = .ok (l, m) := sum_of_spelled hl hm hends (by omega)
    have hright : sum fuel m.rest = .ok (f, r) := sum_of_spelled hf hus hr (by omega)
    rw [literal_eq_comparison hl hm]
    simp only [comparison, hleft, hop, hright, ok_bind]

/-- A guard is read up to a token that continues neither it nor its last expression. -/
theorem guard_of_spelled {g : Guard} {t : Token} {us : List Token} (h : g.Spelled .guard ts)
    (hs : s.Leaves ts m) (hm : m.Leaves (t :: us) r) (ht : continuesExpr t = false)
    (hne : t ≠ .symbol .and) (hf : 8 * ts.length ≤ fuel + 2) : guard fuel s = .ok (g, m) :=
  (readsGuard h).guard_eq_ok h.length_pos hs hm ht hne hf

/-! ### Statements -/

/-- The functions for statements read the tokens `ts` as `t`. -/
def ReadsStmt (t : Stmt) (ts : List Token) : Stmt.Phrase → Prop
  | .program => ∀ ⦃s r : TokenStream⦄ (fuel : Nat), s.Leaves ts r → EndsExpr r →
      8 * ts.length ≤ fuel →
      ∃ n, program fuel s = programRest n t r ∧ fuel ≤ n + ts.length + 1
  | .statement => ∀ ⦃s r : TokenStream⦄ (fuel : Nat), s.Leaves ts r → EndsExpr r →
      8 * ts.length ≤ fuel + 1 → statement fuel s = .ok (t, r)

theorem ReadsStmt.program_eq_ok {t : Stmt} (h : ReadsStmt t ts .program) (hts : 0 < ts.length)
    (hs : s.Leaves ts r) (hr : EndsExpr r) (hstop : r.eat? (.symbol .semicolon) = none)
    (hf : 8 * ts.length ≤ fuel) : program fuel s = .ok (t, r) := by
  obtain ⟨n, heq, hn⟩ := h fuel hs hr hf
  rw [heq, programRest_of_none (by omega) hstop]

theorem ReadsStmt.enclosedProgram_eq_ok {t : Stmt} {close : Symbol} (h : ReadsStmt t ts .program)
    (hts : 0 < ts.length) (hs : s.Leaves (ts ++ [.symbol close]) r)
    (hclose : close = .rparen ∨ close = .rbrace) (hf : 8 * ts.length < fuel) :
    enclosedProgram fuel close s = .ok (t, r) := by
  obtain ⟨m, hm, hend⟩ := leaves_append.mp hs
  obtain ⟨fuel, rfl⟩ : ∃ n, fuel = n + 1 := ⟨fuel - 1, by omega⟩
  have hends : EndsExpr m := endsExpr_of_leaves hend (by rcases hclose with rfl | rfl <;> rfl)
  have hstop : m.eat? (.symbol .semicolon) = none :=
    eat?_eq_none hend (by rcases hclose with rfl | rfl <;> decide)
  have hprogram : program fuel s = .ok (t, m) := h.program_eq_ok hts hm hends hstop (by omega)
  have hexpect := expect_eq_ok_iff.mpr hend
  simp only [enclosedProgram, hprogram, hexpect, ok_bind]

theorem readsStmt {t : Stmt} {k : Stmt.Phrase} (h : t.Spelled k ts) : ReadsStmt t ts k := by
  induction h with
  | @ofStatement t ts h ih =>
    intro s r fuel hs hr hf
    have hts := h.length_pos
    obtain ⟨fuel, rfl⟩ : ∃ n, fuel = n + 1 := ⟨fuel - 1, by omega⟩
    have hstatement := ih fuel hs hr (by omega)
    refine ⟨fuel, ?_, by omega⟩
    simp only [program, hstatement, ok_bind]
  | @seq l u ts us hl hu ihl ihu =>
    intro s r fuel hs hr hfuel
    rw [List.length_append, List.length_cons] at hfuel ⊢
    obtain ⟨m, hm, hsemi⟩ := leaves_append.mp hs
    obtain ⟨n, heq, hn⟩ := ihl fuel hm (endsExpr_of_leaves hsemi rfl) (by omega)
    obtain ⟨n, rfl⟩ : ∃ n', n = n' + 1 := ⟨n - 1, by omega⟩
    obtain ⟨hsemi, hus⟩ := eat?_of_leaves hsemi
    have hstatement := ihu n hus hr (by omega)
    refine ⟨n, ?_, by omega⟩
    simp only [heq, programRest, hsemi, hstatement, ok_bind]
  | @assign x e ts he =>
    intro s r fuel hs hr hf
    simp only [List.length_cons] at hf
    obtain ⟨hnext, hs⟩ := leaves_cons.mp hs
    obtain ⟨hassign, hs⟩ := expect_of_leaves hs
    obtain ⟨fuel, rfl⟩ : ∃ n, fuel = n + 1 := ⟨fuel - 1, by omega⟩
    have hsum : sum fuel s.rest.rest = .ok (e, r) := sum_of_spelled he hs hr (by omega)
    simp only [statement, hnext, hassign, hsum, ok_bind]
  | skip =>
    intro s r fuel hs _ hf
    obtain ⟨hnext, rfl⟩ := leaves_singleton.mp hs
    rw [List.length_singleton] at hf
    obtain ⟨fuel, rfl⟩ : ∃ n, fuel = n + 1 := ⟨fuel - 1, by omega⟩
    simp only [statement, hnext]
  | @cond g t u bs ts us hg ht hu iht ihu =>
    intro s r fuel hs hr hf
    simp only [List.length_cons, List.length_append] at hf
    obtain ⟨fuel, rfl⟩ : ∃ n, fuel = n + 1 := ⟨fuel - 1, by omega⟩
    obtain ⟨hnext, hs⟩ := leaves_cons.mp hs
    obtain ⟨m₁, hbs, hs⟩ := leaves_append.mp hs
    have hguard : guard fuel s.rest = .ok (g, m₁) :=
      guard_of_spelled hg hbs hs rfl (by decide) (by omega)
    obtain ⟨hthen, hs⟩ := expect_of_leaves hs
    obtain ⟨m₂, hts, hs⟩ := leaves_append.mp hs
    have hyes := iht fuel hts (endsExpr_of_leaves hs rfl) (by omega)
    obtain ⟨helse, hus⟩ := expect_of_leaves hs
    have hno := ihu fuel hus hr (by omega)
    simp only [statement, hnext, hguard, hthen, hyes, helse, hno, ok_bind]
  | @loop g t bs ts hg ht iht =>
    intro s r fuel hs hr hf
    simp only [List.length_cons, List.length_append] at hf
    obtain ⟨fuel, rfl⟩ : ∃ n, fuel = n + 1 := ⟨fuel - 1, by omega⟩
    obtain ⟨hnext, hs⟩ := leaves_cons.mp hs
    obtain ⟨m, hbs, hs⟩ := leaves_append.mp hs
    have hguard : guard fuel s.rest = .ok (g, m) :=
      guard_of_spelled hg hbs hs rfl (by decide) (by omega)
    obtain ⟨hdo, hts⟩ := expect_of_leaves hs
    have hbody := iht fuel hts hr (by omega)
    simp only [statement, hnext, hguard, hdo, hbody, ok_bind]
  | @attempt t u ts us ht hu iht ihu =>
    intro s r fuel hs hr hf
    simp only [List.length_cons, List.length_append] at hf
    obtain ⟨fuel, rfl⟩ : ∃ n, fuel = n + 1 := ⟨fuel - 1, by omega⟩
    obtain ⟨hnext, hs⟩ := leaves_cons.mp hs
    obtain ⟨m, hts, hs⟩ := leaves_append.mp hs
    have hbody := iht fuel hts (endsExpr_of_leaves hs rfl) (by omega)
    obtain ⟨hcatch, hus⟩ := expect_of_leaves hs
    have hhandler := ihu fuel hus hr (by omega)
    simp only [statement, hnext, hbody, hcatch, hhandler, ok_bind]
  | @parens t ts ht iht =>
    intro s r fuel hs hr hf
    simp only [List.length_cons, List.length_append, List.length_nil] at hf
    obtain ⟨hnext, hs⟩ := leaves_cons.mp hs
    obtain ⟨fuel, rfl⟩ : ∃ n, fuel = n + 1 := ⟨fuel - 1, by omega⟩
    simp only [statement, hnext]
    exact iht.enclosedProgram_eq_ok ht.length_pos hs (.inl rfl) (by omega)
  | @braces t ts ht iht =>
    intro s r fuel hs hr hf
    simp only [List.length_cons, List.length_append, List.length_nil] at hf
    obtain ⟨hnext, hs⟩ := leaves_cons.mp hs
    obtain ⟨fuel, rfl⟩ : ∃ n, fuel = n + 1 := ⟨fuel - 1, by omega⟩
    simp only [statement, hnext]
    exact iht.enclosedProgram_eq_ok ht.length_pos hs (.inr rfl) (by omega)

end Reading

/-! ### Whole programs -/

theorem TokenStream.next?_eq_none_iff {s : TokenStream} : s.next? = none ↔ s.tokens = [] := by
  obtain ⟨_ | ⟨l, lexemes⟩, stop⟩ := s
  · exact iff_of_true rfl rfl
  · exact iff_of_false nofun nofun

namespace Stmt

open Reading

theorem spelled_of_ofTokens {s : TokenStream} {t : Stmt} (h : ofTokens s = .ok t) :
    t.Spelled .program s.tokens := by
  rw [ofTokens] at h
  obtain ⟨⟨u, r⟩, hu, h⟩ := bind_eq_ok h
  dsimp only at h
  split at h
  · rename_i hend
    cases h
    obtain ⟨ts, hts, ht⟩ := (stmtSound _).program hu
    rwa [hts.tokens_eq, next?_eq_none_iff.mp hend, List.append_nil]
  · cases h

theorem ofTokens_of_spelled {s : TokenStream} {t : Stmt} (h : t.Spelled .program s.tokens) :
    ofTokens s = .ok t := by
  obtain ⟨r, hr, hnil⟩ := s.exists_leaves (List.append_nil s.tokens).symm
  have hend : r.next? = none := next?_eq_none_iff.mpr hnil
  have hstop : r.eat? (.symbol .semicolon) = none := by simp [eat?, hend]
  have hfuel : 8 * s.tokens.length ≤ fuel s := by
    rw [fuel, tokens, List.length_map]
    omega
  have hprogram : program (fuel s) s = .ok (t, r) :=
    (readsStmt h).program_eq_ok h.length_pos hr (endsExpr_of_end hend) hstop hfuel
  simp only [ofTokens, hprogram, hend, ok_bind]

/-- A stream is read as a program iff its tokens spell the program. -/
theorem ofTokens_eq_ok_iff {s : TokenStream} {t : Stmt} :
    ofTokens s = .ok t ↔ t.Spelled .program s.tokens :=
  ⟨spelled_of_ofTokens, ofTokens_of_spelled⟩

/-- No tokens spell two programs: a stream with these tokens, wherever they stand in a
text, is read as the one and as the other. -/
theorem Spelled.unique {ts : List Token} {t u : Stmt} (ht : t.Spelled .program ts)
    (hu : u.Spelled .program ts) : t = u := by
  let s : TokenStream := ⟨ts.map (⟨·, .start⟩), .start⟩
  have hs : s.tokens = ts := by simp [s, tokens, Function.comp_def]
  have hread : ofTokens s = .ok t := ofTokens_eq_ok_iff.mpr (hs ▸ ht)
  have hread' : ofTokens s = .ok u := ofTokens_eq_ok_iff.mpr (hs ▸ hu)
  exact Except.ok.inj (hread.symm.trans hread')

/-- **The parser accepts exactly the grammar**: reading a stream succeeds with a program
iff the tokens of the stream are derived from the grammar's start as the spelling of that
program, and no tokens are the spelling of two programs. -/
theorem accepts_exactly_grammar :
    (∀ (s : TokenStream) (t : Stmt), ofTokens s = .ok t ↔ t.Spelled .program s.tokens) ∧
      ∀ (ts : List Token) (t u : Stmt),
        t.Spelled .program ts → u.Spelled .program ts → t = u :=
  ⟨fun _ _ => ofTokens_eq_ok_iff, fun _ _ _ => Spelled.unique⟩

/-- `while (x + 1) <= 0 & (true) do x := - - 3`.  The first parenthesis opens a sum and the
second a guard, and the two minus signs are parts of one number. -/
def sumThenGuard : Stmt :=
  .loop (.and (.compare .le (.binary .add (.var "x") (.num 1)) (.num 0)) (.const true))
    (.assign "x" (.num 3))

def sumThenGuardTokens : TokenStream where
  lexemes := [.keyword .while_, .symbol .lparen, .name "x", .symbol .plus, .number 1,
    .symbol .rparen, .symbol .le, .number 0, .symbol .and, .symbol .lparen, .keyword .true_,
    .symbol .rparen, .keyword .do_, .name "x", .symbol .assign, .symbol .minus, .symbol .minus,
    .number 3].map (⟨·, .start⟩)
  stop := .start

theorem accepts_sumThenGuard :
    ofTokens sumThenGuardTokens = .ok sumThenGuard ∧
      sumThenGuard.Spelled .program sumThenGuardTokens.tokens ∧
      ∀ u : Stmt, u.Spelled .program sumThenGuardTokens.tokens → u = sumThenGuard := by
  have hread : ofTokens sumThenGuardTokens = .ok sumThenGuard := rfl
  have hspelled := (accepts_exactly_grammar.1 sumThenGuardTokens sumThenGuard).mp hread
  refine ⟨hread, hspelled, ?_⟩
  intro u hu
  exact accepts_exactly_grammar.2 _ u sumThenGuard hu hspelled

end Stmt

end SignAnalysis
