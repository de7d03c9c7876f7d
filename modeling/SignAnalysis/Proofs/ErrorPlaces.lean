/-
Where the parser reports an error.

* `Reading.exprLocates`, `Reading.guardLocates`, `Reading.stmtLocates` — with fuel for all that
  is left to read, a function of the parser that fails has taken the beginning of a phrase, and
  reports the next token.  No other tokens behind that one would have helped;
* `Reading.MisreadLiteral` — the exception.  When a guard in parentheses fails it is read again
  as a comparison, and the error of the comparison is reported (`openedLiteral_locates`).

The numbers that are added to the fuel are what a call needs beyond eight units for each token.
-/
import SignAnalysis.Proofs.Beginnings
import SignAnalysis.Proofs.Lookahead

namespace SignAnalysis

open Grammar

namespace TokenStream

/-- A stream of these tokens, all at one place. -/
def plain (ts : List Token) : TokenStream := ⟨ts.map (⟨·, .start⟩), .start⟩

@[simp] theorem tokens_plain (ts : List Token) : (plain ts).tokens = ts := by
  simp [plain, tokens, Function.comp_def]

theorem next?_of_tokens_eq {s : TokenStream} {t : Token} {ts : List Token}
    (h : s.tokens = t :: ts) : s.next? = some t := by
  obtain ⟨_ | ⟨l, lexemes⟩, stop⟩ := s
  · cases h
  · exact congrArg some (List.cons.inj h).1

end TokenStream

namespace Reading

open TokenStream

variable {n : Nat} {s m r : TokenStream} {ts us : List Token}

/-! ### Expressions -/

structure ExprLocates (n : Nat) : Prop where
  sum (s : TokenStream) (hfuel : 8 * s.lexemes.length + 3 ≤ n) :
    Reader.Locates sum n s (Expr.Begins .sum) Reader.Never
  product (s : TokenStream) (hfuel : 8 * s.lexemes.length + 2 ≤ n) :
    Reader.Locates product n s (Expr.Begins .product) Reader.Never
  factor (s : TokenStream) (hfuel : 8 * s.lexemes.length + 1 ≤ n) :
    Reader.Locates factor n s (Expr.Begins .factor) Reader.Never

theorem exprLocates (n : Nat) : ExprLocates n := by
  induction n using Nat.strongRecOn with
  | ind n ih =>
    cases n with
    | zero => constructor <;> exact fun _ hfuel => absurd hfuel (by omega)
    | succ n =>
      have ih (k : Nat) (hk : k ≤ n) : ExprLocates k := ih k (Nat.lt_succ_of_le hk)
      have hn := ih n le_rfl
      constructor
      · intro s hfuel
        rw [sum_eq]
        refine .operands (fun e ts => e.Spelled .sum ts) (by omega)
          (fun k => (exprSettles k).product) (exprSound _).product (fun k hk => (ih k hk).product)
          .ofProduct .ofProduct id ?_ ?_ (fun _ _ => id) (by omega) (by omega)
        · intro a b t c ts us ha hc hb
          obtain ⟨o, op, rfl, rfl, ho⟩ := exists_sumSign hc
          exact .sum ha ho hb
        · intro a t c ts us ha hc hus
          obtain ⟨o, op, rfl, rfl, ho⟩ := exists_sumSign hc
          exact .sum ha ho hus
      · intro s hfuel
        rw [product_eq]
        refine .operands (fun e ts => e.Spelled .product ts) (by omega)
          (fun k => (exprSettles k).factor) (exprSound _).factor (fun k hk => (ih k hk).factor)
          .ofFactor .ofFactor id ?_ ?_ (fun _ _ => id) (by omega) (by omega)
        · intro a b t c ts us ha hc hb
          obtain ⟨o, op, rfl, rfl, ho⟩ := exists_productSign hc
          exact .product ha ho hb
        · intro a t c ts us ha hc hus
          obtain ⟨o, op, rfl, rfl, ho⟩ := exists_productSign hc
          exact .product ha ho hus
      · intro s hfuel
        rw [factor_eq]
        refine .later (.peek fun t? ht => ?_)
        split
        · exact .skip ht (.ret _)
        · exact .skip ht (.ret _)
        · have hlength := length_rest ht
          exact .skip ht (.bind ((exprSettles n).factor _) (exprSound n).factor
            ((hn.factor _ (by omega)).mono .minus) fun _ _ => .ret _)
        · have hlength := length_rest ht
          refine .skip ht (.bind ((exprSettles n).sum _) (exprSound n).sum
            ((hn.sum _ (by omega)).mono .parens) ?_)
          intro e m ts _ he
          refine .expect ?_ fun _ => .ret _
          rw [List.append_nil]
          exact .parens he.begins
        · exact .fail (Expr.begins_nil .factor)

/-- What is refused at a token does not begin an expression together with it. -/
theorem not_begins_sum_of_refuses {t : Token} (h : Reader.Refuses sum ts (some t)) :
    ¬ Expr.Begins .sum (ts ++ [t]) := by
  rintro ⟨e, us, he, vs, rfl⟩
  rw [List.append_assoc] at he
  obtain ⟨m, hm, htokens⟩ := exists_leaves _ (tokens_plain (ts ++ ([t] ++ vs)))
  obtain ⟨r, hr, hnil⟩ := exists_leaves m (htokens.trans (List.append_nil _).symm)
  have hend : EndsExpr r := endsExpr_of_end (next?_eq_none_iff.mpr hnil)
  have hread := sum_of_spelled he (hm.append hr) hend (Nat.le_add_right _ 4)
  exact h hm (next?_of_tokens_eq htokens) hread

/-! ### Guards -/

theorem compareRest_locates {l : Expr} (hl : l.Spelled .sum ts)
    (hfuel : 8 * s.lexemes.length ≤ n) :
    Reader.Locates (compareRest l) n s (fun us => Guard.Begins .literal (ts ++ us))
      Reader.Never := by
  have hright {o : Symbol} {op : CompareOp} (ho : CompareSign o op)
      (ht : s.next? = some (.symbol o)) :
      Reader.Locates (Reader.skip (Reader.bind sum fun r => Reader.ret (Guard.compare op l r))) n s
        (fun us => Guard.Begins .literal (ts ++ us)) Reader.Never := by
    have hlength := length_rest ht
    exact .skip ht (.bind ((exprSettles n).sum _) (exprSound n).sum
      (((exprLocates n).sum _ (by omega)).mono (.compareRight hl ho))
      fun _ _ => .ret _)
  refine .peek fun t? ht => ?_
  split
  · exact hright .eq ht
  · exact hright .le ht
  · refine .fail ?_
    rw [List.append_nil]
    exact .compareLeft hl.begins

theorem comparison_locates (hfuel : 8 * s.lexemes.length + 3 ≤ n) :
    Reader.Locates comparison n s (Guard.Begins .literal) Reader.Never := by
  rw [comparison_eq]
  refine .bind ((exprSettles n).sum s) (exprSound n).sum
    (((exprLocates n).sum s hfuel).mono .compareLeft) ?_
  intro l m ts hts hl
  have hlength := hts.length_eq
  exact compareRest_locates hl (by omega)

/-- The exceptions for guards: behind a token that asks for a literal, these tokens are
misread. -/
def MisreadLiteral (ts : List Token) (t? : Option Token) : Prop :=
  ∀ q, awaitsLiteral q = true → Misread (q :: ts) t?

/-- A guard in parentheses that is refused as a comparison, within its left side, is misread
there. -/
theorem misread_of_refuses (hbegins : Expr.Begins .sum ts)
    (hrefuses : Reader.Refuses sum ts r.next?) {g : Guard} {bs : List Token}
    (hg : g.Spelled .guard bs) (hs : s.Leaves (.symbol .lparen :: bs) m) (hts : s.Leaves ts r) :
    MisreadLiteral ts r.next? := by
  obtain ⟨us, u, hopens, hus⟩ := hg.exists_opens
  have hfront : .symbol .lparen :: us ++ [u] <+: ts ++ r.tokens := by
    rw [← hts.tokens_eq, hs.tokens_eq]
    exact List.prefix_append_of_prefix (prefix_cons hus)
  rcases prefix_append_cases hfront with hu | ⟨vs, hvs, hrest⟩
  · -- expressions do not have the token
    have hmem := hbegins.inExpr u (hu.subset (List.mem_append_right _ (List.mem_singleton_self u)))
    exact absurd (hopens.inExpr_eq_false.symm.trans hmem) nofun
  obtain ⟨ws, hws⟩ := hrest
  cases vs with
  | nil =>
    rw [List.append_nil] at hvs
    have hnext : r.next? = some u := next?_of_tokens_eq hws.symm
    intro q hq
    exact ⟨[], q, us, u, congrArg (q :: ·) hvs.symm, hnext, hq, hopens⟩
  | cons t vs =>
    -- the guard looks like an expression for longer
    have hnext : r.next? = some t := next?_of_tokens_eq hws.symm
    have hlonger : Expr.Begins .sum (ts ++ t :: vs) := hvs ▸ hopens.parens.begins_sum
    rw [hnext] at hrefuses
    refine absurd ?_ (not_begins_sum_of_refuses hrefuses)
    exact hlonger.of_prefix (prefix_append_left ts (prefix_cons List.nil_prefix))

/-- In the left side of a comparison, the comparison and the guard fail at the same token, or the
guard is misread. -/
theorem openedLiteral_refuses_left (hnext : s.next? = some (.symbol .lparen)) (hts : s.Leaves ts r)
    (hbegins : Expr.Begins .sum ts) (hrefuses : Reader.Refuses sum ts r.next?) :
    Reader.Refuses openedLiteral ts r.next? ∨ MisreadLiteral ts r.next? := by
  by_cases hmisread : MisreadLiteral ts r.next?
  · exact .inr hmisread
  refine .inl ?_
  intro k s' r' p hs' hr h
  unfold openedLiteral at h
  split at h
  · rename_i hg
    obtain ⟨bs, hbs, hspelled⟩ := (guardSound k).enclosedGuard hg
    obtain ⟨m, hbs, -⟩ := leaves_append.mp hbs
    have hnext' := (hts.next?_eq hs' hr).trans hnext
    rw [← hr] at hrefuses hmisread
    exact hmisread (misread_of_refuses hbegins hrefuses hspelled (.cons hnext' hbs) hs')
  · rw [comparison_eq] at h
    exact hrefuses.bind_left _ hs' hr h

/-- Behind the left side of a comparison it is settled that there is no guard in parentheses. -/
theorem openedLiteral_refuses_right {l : Expr} (hnext : s.next? = some (.symbol .lparen))
    (hs : s.Leaves (ts ++ us) r) (hl : l.Spelled .sum ts)
    (hrefuses : Reader.Refuses comparison (ts ++ us) r.next?) :
    Reader.Refuses openedLiteral (ts ++ us) r.next? := by
  intro k s' r' p hs' hr h
  unfold openedLiteral at h
  split at h
  · rename_i hg
    obtain ⟨bs, hbs, hspelled⟩ := (guardSound k).enclosedGuard hg
    obtain ⟨m', hts', -⟩ := leaves_append.mp hs'
    have hnext' := (hs.next?_eq hs' hr).trans hnext
    exact enclosed_disjoint hnext' hspelled hbs hl hts'
  · exact hrefuses hs' hr h

theorem openedLiteral_locates (hnext : s.next? = some (.symbol .lparen))
    (hfuel : 8 * s.lexemes.length + 3 ≤ n) :
    Reader.Locates openedLiteral n s (Guard.Begins .literal) MisreadLiteral := by
  intro e herror
  unfold openedLiteral at herror
  split at herror
  · cases herror
  -- the error is that of the comparison, in its left side or behind it
  rw [comparison_eq] at herror
  rcases bind_eq_error herror with herror | ⟨⟨l, m⟩, hok, herror⟩
  · obtain ⟨ts, r, x, hts, he, hbegins, hrefuses⟩ :=
      ((exprLocates n).sum s hfuel).exists_refuses herror
    exact ⟨ts, r, x, hts, he, .compareLeft hbegins,
      openedLiteral_refuses_left hnext hts hbegins hrefuses⟩
  · obtain ⟨ts, hts, hl⟩ := (exprSound n).sum hok
    obtain ⟨ts', hts', hread⟩ := (exprSettles n).sum s hok
    obtain rfl := hts.unique hts'
    have hlength := hts.length_eq
    obtain ⟨us, r, x, hus, he, hbegins, hrefuses⟩ :=
      (compareRest_locates hl (by omega : 8 * m.lexemes.length ≤ n)).exists_refuses herror
    refine ⟨ts ++ us, r, x, hts.append hus, he, hbegins, .inl ?_⟩
    refine openedLiteral_refuses_right hnext (hts.append hus) hl ?_
    rw [comparison_eq]
    exact .bind_right hread hus hrefuses

structure GuardLocates (n : Nat) : Prop where
  guard (s : TokenStream) (hfuel : 8 * s.lexemes.length + 5 ≤ n) :
    Reader.Locates guard n s (Guard.Begins .guard) MisreadLiteral
  literal (s : TokenStream) (hfuel : 8 * s.lexemes.length + 4 ≤ n) :
    Reader.Locates literal n s (Guard.Begins .literal) MisreadLiteral

theorem guardLocates (n : Nat) : GuardLocates n := by
  induction n using Nat.strongRecOn with
  | ind n ih =>
    cases n with
    | zero => constructor <;> exact fun _ hfuel => absurd hfuel (by omega)
    | succ n =>
      have ih (k : Nat) (hk : k ≤ n) : GuardLocates k := ih k (Nat.lt_succ_of_le hk)
      constructor
      · intro s hfuel
        rw [guard_eq]
        refine .operands (fun g ts => g.Spelled .guard ts) (by omega)
          (fun k => (guardSettles k).literal) (guardSound _).literal (fun k hk => (ih k hk).literal)
          .ofLiteral .ofLiteral id ?_ ?_ ?_ (by omega) (by omega)
        · intro a b t c ts us ha hc hb
          obtain ⟨rfl, rfl⟩ := and_of_joinGuard? hc
          exact .and ha hb
        · intro a t c ts us ha hc hus
          obtain ⟨rfl, rfl⟩ := and_of_joinGuard? hc
          exact .and ha hus
        · intro t c us t? ts hc hus q _
          obtain ⟨rfl, rfl⟩ := and_of_joinGuard? hc
          exact (hus (.symbol .and) rfl).append (q :: ts)
      · intro s hfuel
        rw [literal_eq]
        refine .later (.peek fun t? ht => ?_)
        split
        · exact .skip ht (.ret _)
        · exact .skip ht (.ret _)
        · have hlength := length_rest ht
          refine .skip ht (.bind ((guardSettles n).literal _) (guardSound n).literal
            (((ih n le_rfl).literal _ (by omega)).imp (fun _ => .not) ?_) fun _ _ => .ret _)
          intro us t? hus q _
          exact (hus (.symbol .bang) rfl).cons q
        · exact openedLiteral_locates ht (by omega)
        · exact (comparison_locates (by omega)).of_never

/-! ### Statements -/

structure StmtLocates (n : Nat) : Prop where
  program (s : TokenStream) (hfuel : 8 * s.lexemes.length + 2 ≤ n) :
    Reader.Locates program n s (Stmt.Begins .program) Misread
  statement (s : TokenStream) (hfuel : 8 * s.lexemes.length + 1 ≤ n) :
    Reader.Locates statement n s (Stmt.Begins .statement) Misread
  enclosedProgram (close : Symbol) (s : TokenStream) (hfuel : 8 * s.lexemes.length + 3 ≤ n) :
    Reader.Locates (fun n => enclosedProgram n close) n s (Stmt.Begins .program) Misread

namespace StmtLocates

/-- A keyword and the statement behind it, as a part of another statement. -/
theorem expect_statement {α : Type} {t : Token} {g : Stmt → Reader α} {P : List Token → Prop}
    {X : List Token → Option Token → Prop} (hn : StmtLocates n) (hfuel : 8 * s.lexemes.length ≤ n)
    (hP : P []) (hstatement : ∀ {us}, Stmt.Begins .statement us → P (t :: us))
    (hX : ∀ {us t?}, Misread us t? → X (t :: us) t?)
    (hg : ∀ {u m us}, u.Spelled .statement us → m.lexemes.length ≤ s.lexemes.length →
      (g u).Locates n m (fun vs => P (t :: (us ++ vs))) fun vs => X (t :: (us ++ vs))) :
    Reader.Locates (Reader.expect t (Reader.bind Reading.statement g)) n s P X := by
  refine .expect hP fun ht => ?_
  have hlength := length_rest ht
  refine .bind ((stmtSettles n).statement _) (stmtSound n).statement
    ((hn.statement _ (by omega)).imp (fun _ => hstatement) fun _ _ => hX) ?_
  intro u m us hus hu
  have hlength' := hus.length_eq
  exact hg hu (by omega)

theorem statement_succ (hn : StmtLocates n) (hfuel : 8 * s.lexemes.length + 1 ≤ n + 1) :
    Reader.Locates Reading.statement (n + 1) s (Stmt.Begins .statement) Misread := by
  rw [statement_eq]
  refine .later (.peek fun t? ht => ?_)
  split
  · -- an assignment
    rename_i x
    have hlength := length_rest ht
    have hbegins := Stmt.Begins.assign x (Expr.begins_nil .sum)
    refine .skip ht (.expect (hbegins.of_prefix (prefix_cons List.nil_prefix)) fun ht' => ?_)
    have hlength' := length_rest ht'
    exact .bind ((exprSettles n).sum _) (exprSound n).sum
      (((exprLocates n).sum _ (by omega)).mono (.assign x)).of_never fun _ _ => .ret _
  · exact .skip ht (.ret _)
  · -- a conditional; its keyword is what asks for the literal that is misread in the guard
    have hlength := length_rest ht
    refine .skip ht (.bind ((guardSettles n).guard _) (guardSound n).guard
      (((guardLocates n).guard _ (by omega)).imp (fun _ => .condGuard) fun _ _ h => h _ rfl) ?_)
    intro g m bs hbs hg
    have hlength' := hbs.length_eq
    refine hn.expect_statement (by omega) (.condGuard ⟨g, bs, hg, by simp⟩) (.condThen hg)
      (fun h => ((h.cons _).append bs).cons _) ?_
    intro t m' ts ht hle
    exact hn.expect_statement (by omega) (.condThen hg ⟨t, ts, ht, by simp⟩) (.condElse hg ht)
      (fun h => ((((h.cons _).append ts).cons _).append bs).cons _) fun _ _ => .ret _
  · -- a loop
    have hlength := length_rest ht
    refine .skip ht (.bind ((guardSettles n).guard _) (guardSound n).guard
      (((guardLocates n).guard _ (by omega)).imp (fun _ => .loopGuard) fun _ _ h => h _ rfl) ?_)
    intro g m bs hbs hg
    have hlength' := hbs.length_eq
    exact hn.expect_statement (by omega) (.loopGuard ⟨g, bs, hg, by simp⟩) (.loopBody hg)
      (fun h => ((h.cons _).append bs).cons _) fun _ _ => .ret _
  · -- an attempt
    have hlength := length_rest ht
    refine .skip ht (.bind ((stmtSettles n).statement _) (stmtSound n).statement
      ((hn.statement _ (by omega)).imp (fun _ => .attemptBody) fun _ _ h => h.cons _) ?_)
    intro t m ts hts ht
    have hlength' := hts.length_eq
    exact hn.expect_statement (by omega) (.attemptBody ⟨t, ts, ht, by simp⟩) (.attemptHandler ht)
      (fun h => ((h.cons _).append ts).cons _) fun _ _ => .ret _
  · have hlength := length_rest ht
    exact .skip ht ((hn.enclosedProgram .rparen _ (by omega)).imp (fun _ => .parens)
      fun _ _ h => h.cons _)
  · have hlength := length_rest ht
    exact .skip ht ((hn.enclosedProgram .rbrace _ (by omega)).imp (fun _ => .braces)
      fun _ _ h => h.cons _)
  · exact .fail Stmt.begins_nil

end StmtLocates

theorem stmtLocates (n : Nat) : StmtLocates n := by
  induction n using Nat.strongRecOn with
  | ind n ih =>
    cases n with
    | zero => exact ⟨fun _ _ => by omega, fun _ _ => by omega, fun _ _ _ => by omega⟩
    | succ n =>
      have ih (k : Nat) (hk : k ≤ n) : StmtLocates k := ih k (Nat.lt_succ_of_le hk)
      have hn := ih n le_rfl
      constructor
      · intro s hfuel
        rw [program_eq]
        refine .operands (fun t ts => t.Spelled .program ts) (by omega)
          (fun k => (stmtSettles k).statement) (stmtSound _).statement
          (fun k hk => (ih k hk).statement) .ofStatement .ofStatement id ?_ ?_
          (fun ts _ h => (h.cons _).append ts) (by omega) (by omega)
        · intro a b t c ts us ha hc hb
          obtain ⟨rfl, rfl⟩ := seq_of_joinProgram? hc
          exact .seq ha hb
        · intro a t c ts us ha hc hus
          obtain ⟨rfl, rfl⟩ := seq_of_joinProgram? hc
          exact .seq ha hus
      · intro s hfuel
        exact hn.statement_succ hfuel
      · intro close s hfuel
        rw [enclosedProgram_eq]
        refine .later (.bind ((stmtSettles n).program s) (stmtSound n).program
          (hn.program s (by omega)) ?_)
        intro t m ts _ ht
        refine .expect ?_ fun _ => .ret _
        exact ⟨t, ts, ht, by simp⟩

end Reading

end SignAnalysis
