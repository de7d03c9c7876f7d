/-
The parser looks one token ahead.

* `Reading.sum_eq`, `Reading.guard_eq`, `Reading.statement_eq` and so on — how the functions of
  the parser are put together from simpler readers, up to a whole text (`Reading.ofTokens_eq`);
* `Reading.exprSettles`, `Reading.guardSettles`, `Reading.stmtSettles` — what they read is
  decided by the tokens they take and the next one.  The rules do not cover a literal that begins
  with a parenthesis, which is read again after a failure (`openedLiteral_settles`).
-/
import Mathlib.Tactic.SplitIfs
import SignAnalysis.Proofs.Readers

namespace SignAnalysis

open Grammar

namespace Reading

open TokenStream

/-! ### The parser, put together -/

/-- How an operator of a sum joins its operands. -/
def joinSum? (t : Token) : Option (Expr → Expr → Expr) :=
  if t = .symbol .plus then some (.binary .add)
  else if t = .symbol .minus then some (.binary .sub)
  else none

/-- How an operator of a product joins its operands. -/
def joinProduct? (t : Token) : Option (Expr → Expr → Expr) :=
  if t = .symbol .star then some (.binary .mul)
  else if t = .symbol .slash then some (.binary .div)
  else none

def joinGuard? (t : Token) : Option (Guard → Guard → Guard) :=
  if t = .symbol .and then some .and else none

def joinProgram? (t : Token) : Option (Stmt → Stmt → Stmt) :=
  if t = .symbol .semicolon then some .seq else none

theorem exists_sumSign {t : Token} {c : Expr → Expr → Expr} (h : joinSum? t = some c) :
    ∃ o op, t = .symbol o ∧ c = .binary op ∧ SumSign o op := by
  unfold joinSum? at h
  split_ifs at h with hplus hminus
  · exact ⟨_, _, hplus, (Option.some.inj h).symm, .plus⟩
  · exact ⟨_, _, hminus, (Option.some.inj h).symm, .minus⟩

theorem exists_productSign {t : Token} {c : Expr → Expr → Expr} (h : joinProduct? t = some c) :
    ∃ o op, t = .symbol o ∧ c = .binary op ∧ ProductSign o op := by
  unfold joinProduct? at h
  split_ifs at h with hstar hslash
  · exact ⟨_, _, hstar, (Option.some.inj h).symm, .star⟩
  · exact ⟨_, _, hslash, (Option.some.inj h).symm, .slash⟩

theorem and_of_joinGuard? {t : Token} {c : Guard → Guard → Guard} (h : joinGuard? t = some c) :
    t = .symbol .and ∧ c = .and := by
  unfold joinGuard? at h
  split_ifs at h with hand
  exact ⟨hand, (Option.some.inj h).symm⟩

theorem seq_of_joinProgram? {t : Token} {c : Stmt → Stmt → Stmt} (h : joinProgram? t = some c) :
    t = .symbol .semicolon ∧ c = .seq := by
  unfold joinProgram? at h
  split_ifs at h with hsemicolon
  exact ⟨hsemicolon, (Option.some.inj h).symm⟩

theorem sumRest_eq (n : Nat) (e : Expr) :
    sumRest n e = Reader.chain .expression joinSum? product e n := by
  induction n generalizing e with
  | zero => rfl
  | succ n ih =>
    funext s
    rw [sumRest, Reader.chain, sumOp?]
    simp only [ih]
    rcases s.next? with _ | (_ | o | _ | _)
    case some.symbol => cases o <;> rfl
    all_goals rfl

theorem productRest_eq (n : Nat) (e : Expr) :
    productRest n e = Reader.chain .expression joinProduct? factor e n := by
  induction n generalizing e with
  | zero => rfl
  | succ n ih =>
    funext s
    rw [productRest, Reader.chain, productOp?]
    simp only [ih]
    rcases s.next? with _ | (_ | o | _ | _)
    case some.symbol => cases o <;> rfl
    all_goals rfl

theorem guardRest_eq (n : Nat) (g : Guard) :
    guardRest n g = Reader.chain .expression joinGuard? literal g n := by
  induction n generalizing g with
  | zero => rfl
  | succ n ih =>
    funext s
    rw [guardRest, Reader.chain, eat?]
    simp only [ih]
    rcases s.next? with _ | (_ | o | _ | _)
    case some.symbol => cases o <;> rfl
    all_goals rfl

theorem programRest_eq (n : Nat) (t : Stmt) :
    programRest n t = Reader.chain .statement joinProgram? statement t n := by
  induction n generalizing t with
  | zero => rfl
  | succ n ih =>
    funext s
    rw [programRest, Reader.chain, eat?]
    simp only [ih]
    rcases s.next? with _ | (_ | o | _ | _)
    case some.symbol => cases o <;> rfl
    all_goals rfl

theorem sum_eq :
    sum = Reader.later .expression
      (Reader.bind product (Reader.chain .expression joinSum? product)) := by
  funext n s
  cases n with
  | zero => rfl
  | succ n => simp only [sum, sumRest_eq, Reader.later, Reader.bind]

theorem product_eq :
    product = Reader.later .expression
      (Reader.bind factor (Reader.chain .expression joinProduct? factor)) := by
  funext n s
  cases n with
  | zero => rfl
  | succ n => simp only [product, productRest_eq, Reader.later, Reader.bind]

theorem factor_eq :
    factor = Reader.later .expression (Reader.peek fun
      | some (.number k) => Reader.skip (Reader.ret (.num k))
      | some (.name x) => Reader.skip (Reader.ret (.var x))
      | some (.symbol .minus) => Reader.skip (Reader.bind factor fun e => Reader.ret e.opposite)
      | some (.symbol .lparen) =>
        Reader.skip (Reader.bind sum fun e => Reader.expect (.symbol .rparen) (Reader.ret e))
      | _ => Reader.fail .expression) := by
  funext n s
  cases n with
  | zero => rfl
  | succ n =>
    simp only [factor, Reader.later, Reader.peek]
    generalize s.next? = t?
    rcases t? with _ | (_ | o | _ | _)
    case some.symbol => cases o <;> rfl
    all_goals rfl

/-- What follows the left operand of a comparison. -/
def compareRest (l : Expr) : Reader Guard :=
  Reader.peek fun
    | some (.symbol .eq) => Reader.skip (Reader.bind sum fun r => Reader.ret (.compare .eq l r))
    | some (.symbol .le) => Reader.skip (Reader.bind sum fun r => Reader.ret (.compare .le l r))
    | _ => Reader.fail .comparison

theorem comparison_eq : comparison = Reader.bind sum compareRest := by
  funext n s
  simp only [comparison, Reader.bind, compareRest, Reader.peek, compareOp?]
  congr 1
  funext p
  generalize p.2.next? = t?
  rcases t? with _ | (_ | o | _ | _)
  case some.symbol => cases o <;> rfl
  all_goals rfl

theorem guard_eq :
    guard = Reader.later .expression
      (Reader.bind literal (Reader.chain .expression joinGuard? literal)) := by
  funext n s
  cases n with
  | zero => rfl
  | succ n => simp only [guard, guardRest_eq, Reader.later, Reader.bind]

theorem enclosedGuard_eq :
    enclosedGuard = Reader.later .expression
      (Reader.bind guard fun g => Reader.expect (.symbol .rparen) (Reader.ret g)) := by
  funext n s
  cases n <;> rfl

/-- A literal that begins with a parenthesis. -/
def openedLiteral : Reader Guard := fun n s =>
  match enclosedGuard n s.rest with
  | .ok r => .ok r
  | .error _ => comparison n s

theorem literal_eq :
    literal = Reader.later .expression (Reader.peek fun
      | some (.keyword .true_) => Reader.skip (Reader.ret (.const true))
      | some (.keyword .false_) => Reader.skip (Reader.ret (.const false))
      | some (.symbol .bang) => Reader.skip (Reader.bind literal fun g => Reader.ret (.not g))
      | some (.symbol .lparen) => openedLiteral
      | _ => comparison) := by
  funext n s
  cases n with
  | zero => rfl
  | succ n =>
    simp only [literal, Reader.later, Reader.peek]
    generalize s.next? = t?
    rcases t? with _ | (k | o | _ | _)
    case some.keyword => cases k <;> rfl
    case some.symbol => cases o <;> rfl
    all_goals rfl

theorem program_eq :
    program = Reader.later .statement
      (Reader.bind statement (Reader.chain .statement joinProgram? statement)) := by
  funext n s
  cases n with
  | zero => rfl
  | succ n => simp only [program, programRest_eq, Reader.later, Reader.bind]

theorem enclosedProgram_eq (close : Symbol) :
    (fun n => enclosedProgram n close) = Reader.later .statement
      (Reader.bind program fun t => Reader.expect (.symbol close) (Reader.ret t)) := by
  funext n s
  cases n <;> rfl

theorem statement_eq :
    statement = Reader.later .statement (Reader.peek fun
      | some (.name x) => Reader.skip (Reader.expect (.symbol .assign)
          (Reader.bind sum fun e => Reader.ret (.assign x e)))
      | some (.keyword .skip_) => Reader.skip (Reader.ret .skip)
      | some (.keyword .if_) => Reader.skip (Reader.bind guard fun g =>
          Reader.expect (.keyword .then_) (Reader.bind statement fun t =>
          Reader.expect (.keyword .else_) (Reader.bind statement fun u =>
          Reader.ret (.cond g t u))))
      | some (.keyword .while_) => Reader.skip (Reader.bind guard fun g =>
          Reader.expect (.keyword .do_) (Reader.bind statement fun t => Reader.ret (.loop g t)))
      | some (.keyword .try_) => Reader.skip (Reader.bind statement fun t =>
          Reader.expect (.keyword .catch_) (Reader.bind statement fun u =>
          Reader.ret (.attempt t u)))
      | some (.symbol .lparen) => Reader.skip fun n => enclosedProgram n .rparen
      | some (.symbol .lbrace) => Reader.skip fun n => enclosedProgram n .rbrace
      | _ => Reader.fail .statement) := by
  funext n s
  cases n with
  | zero => rfl
  | succ n =>
    simp only [statement, Reader.later, Reader.peek]
    generalize s.next? = t?
    rcases t? with _ | (k | o | _ | _)
    case some.keyword => cases k <;> rfl
    case some.symbol => cases o <;> rfl
    all_goals rfl

/-- A program up to the end of the text. -/
def wholeProgram : Reader Stmt :=
  Reader.bind program fun t => Reader.peek fun
    | none => Reader.ret t
    | some _ => Reader.fail .endOfProgram

theorem ofTokens_eq (s : TokenStream) :
    Stmt.ofTokens s = (wholeProgram (fuel s) s).map Prod.fst := by
  rw [Stmt.ofTokens, wholeProgram, Reader.bind]
  cases program (fuel s) s with
  | error e => rfl
  | ok p =>
    obtain ⟨t, r⟩ := p
    rw [ok_bind, ok_bind, Reader.peek]
    dsimp only
    cases r.next? <;> rfl

/-! ### Successes of the parser -/

structure ExprSettles (n : Nat) : Prop where
  sum (s : TokenStream) : Reader.Settles sum n s
  product (s : TokenStream) : Reader.Settles product n s
  factor (s : TokenStream) : Reader.Settles factor n s

theorem exprSettles (n : Nat) : ExprSettles n := by
  induction n using Nat.strongRecOn with
  | ind n ih =>
    cases n with
    | zero => constructor <;> exact fun _ => nofun
    | succ n =>
      have hn := ih n (Nat.lt_succ_self n)
      constructor
      · intro s
        rw [sum_eq]
        exact .later (.bind (hn.product s)
          (.chain fun k hk => (ih k (Nat.lt_succ_of_lt hk)).product))
      · intro s
        rw [product_eq]
        exact .later (.bind (hn.factor s)
          (.chain fun k hk => (ih k (Nat.lt_succ_of_lt hk)).factor))
      · intro s
        rw [factor_eq]
        refine .later (.peek fun t? ht => ?_)
        split
        · exact .skip ht (.ret ..)
        · exact .skip ht (.ret ..)
        · exact .skip ht (.bind (hn.factor _) fun _ _ => .ret ..)
        · exact .skip ht (.bind (hn.sum _) fun _ _ => .expect (.ret ..))
        · exact .fail ..

theorem compareRest_settles (n : Nat) (l : Expr) (s : TokenStream) :
    Reader.Settles (compareRest l) n s := by
  refine .peek fun t? ht => ?_
  split
  · exact .skip ht (.bind ((exprSettles n).sum _) fun _ _ => .ret ..)
  · exact .skip ht (.bind ((exprSettles n).sum _) fun _ _ => .ret ..)
  · exact .fail ..

theorem comparison_settles (n : Nat) (s : TokenStream) : Reader.Settles comparison n s := by
  rw [comparison_eq]
  exact .bind ((exprSettles n).sum s) (compareRest_settles n)

section Guards

variable {n : Nat} {s m r : TokenStream} {us vs : List Token}

theorem exists_sum_of_comparison {g : Guard} (h : comparison n s = .ok (g, m)) :
    ∃ l us vs, Expr.Spelled l .sum us ∧ s.Leaves (us ++ vs) m := by
  rw [comparison_eq] at h
  obtain ⟨⟨l, m'⟩, hl, h⟩ := bind_eq_ok h
  obtain ⟨us, hus, hspelled⟩ := (exprSound n).sum hl
  obtain ⟨vs, hvs, -⟩ := compareRest_settles n l m' h
  exact ⟨l, us, vs, hspelled, hus.append hvs⟩

/-- A guard and an expression in parentheses cannot begin at the same place: only in the
guard, a token that expressions do not have comes before the closing parenthesis. -/
theorem enclosed_disjoint {g : Guard} {l : Expr} (hnext : s.next? = some (.symbol .lparen))
    (hg : g.Spelled .guard vs) (hvs : s.rest.Leaves (vs ++ [.symbol .rparen]) m)
    (hl : l.Spelled .sum us) (hus : s.Leaves us r) : False := by
  obtain ⟨t, us, rfl, -⟩ := hl.exists_head
  obtain ⟨hnext', hrest⟩ := leaves_cons.mp hus
  cases hnext.symm.trans hnext'
  have hexpr := hl.opensGuard_enclosed r.tokens
  rw [← hrest.tokens_eq, hvs.tokens_eq, List.append_assoc, hg.opensGuard_append] at hexpr
  cases hexpr

theorem openedLiteral_settles (hguard : Reader.Settles enclosedGuard n s.rest)
    (hnext : s.next? = some (.symbol .lparen)) : Reader.Settles openedLiteral n s := by
  intro g m hok
  unfold openedLiteral at hok
  split at hok
  · rename_i hg
    cases hok
    obtain ⟨ts, hts, hread⟩ := hguard hg
    obtain ⟨bs, hbs, hspelled⟩ := (guardSound n).enclosedGuard hg
    obtain rfl := hts.unique hbs
    refine ⟨.symbol .lparen :: (bs ++ [.symbol .rparen]), .cons hnext hts, ?_⟩
    intro k s' r p hs' hr h
    obtain ⟨hnext', hs'⟩ := leaves_cons.mp hs'
    unfold openedLiteral at h
    split at h
    · cases h
      exact hread hs' hr ‹_›
    · obtain ⟨l, us, vs, hl, hus⟩ := exists_sum_of_comparison h
      obtain ⟨m', hus, -⟩ := leaves_append.mp hus
      exact (enclosed_disjoint hnext' hspelled hs' hl hus).elim
  · obtain ⟨ts, hts, hread⟩ := comparison_settles n s hok
    obtain ⟨l, us, vs, hl, hus⟩ := exists_sum_of_comparison hok
    obtain rfl := hts.unique hus
    refine ⟨us ++ vs, hts, ?_⟩
    intro k s' r p hs' hr h
    unfold openedLiteral at h
    split at h
    · rename_i hg
      obtain ⟨bs, hbs, hspelled⟩ := (guardSound k).enclosedGuard hg
      obtain ⟨m', hus', -⟩ := leaves_append.mp hs'
      have hnext' := (hts.next?_eq hs' hr).trans hnext
      exact (enclosed_disjoint hnext' hspelled hbs hl hus').elim
    · exact hread hs' hr h

end Guards

structure GuardSettles (n : Nat) : Prop where
  guard (s : TokenStream) : Reader.Settles guard n s
  literal (s : TokenStream) : Reader.Settles literal n s
  enclosedGuard (s : TokenStream) : Reader.Settles enclosedGuard n s

theorem guardSettles (n : Nat) : GuardSettles n := by
  induction n using Nat.strongRecOn with
  | ind n ih =>
    cases n with
    | zero => constructor <;> exact fun _ => nofun
    | succ n =>
      have hn := ih n (Nat.lt_succ_self n)
      constructor
      · intro s
        rw [guard_eq]
        exact .later (.bind (hn.literal s)
          (.chain fun k hk => (ih k (Nat.lt_succ_of_lt hk)).literal))
      · intro s
        rw [literal_eq]
        refine .later (.peek fun t? ht => ?_)
        split
        · exact .skip ht (.ret ..)
        · exact .skip ht (.ret ..)
        · exact .skip ht (.bind (hn.literal _) fun _ _ => .ret ..)
        · exact openedLiteral_settles (hn.enclosedGuard _) ht
        · exact comparison_settles n s
      · intro s
        rw [enclosedGuard_eq]
        exact .later (.bind (hn.guard s) fun _ _ => .expect (.ret ..))

structure StmtSettles (n : Nat) : Prop where
  program (s : TokenStream) : Reader.Settles program n s
  statement (s : TokenStream) : Reader.Settles statement n s
  enclosedProgram (close : Symbol) (s : TokenStream) :
    Reader.Settles (fun n => enclosedProgram n close) n s

theorem stmtSettles (n : Nat) : StmtSettles n := by
  induction n using Nat.strongRecOn with
  | ind n ih =>
    cases n with
    | zero => exact ⟨fun _ => nofun, fun _ => nofun, fun _ _ => nofun⟩
    | succ n =>
      have hn := ih n (Nat.lt_succ_self n)
      constructor
      · intro s
        rw [program_eq]
        exact .later (.bind (hn.statement s)
          (.chain fun k hk => (ih k (Nat.lt_succ_of_lt hk)).statement))
      · intro s
        rw [statement_eq]
        refine .later (.peek fun t? ht => ?_)
        split
        · exact .skip ht (.expect (.bind ((exprSettles n).sum _) fun _ _ => .ret ..))
        · exact .skip ht (.ret ..)
        · exact .skip ht (.bind ((guardSettles n).guard _) fun _ _ => .expect
            (.bind (hn.statement _) fun _ _ => .expect
              (.bind (hn.statement _) fun _ _ => .ret ..)))
        · exact .skip ht (.bind ((guardSettles n).guard _) fun _ _ => .expect
            (.bind (hn.statement _) fun _ _ => .ret ..))
        · exact .skip ht (.bind (hn.statement _) fun _ _ => .expect
            (.bind (hn.statement _) fun _ _ => .ret ..))
        · exact .skip ht (hn.enclosedProgram .rparen _)
        · exact .skip ht (hn.enclosedProgram .rbrace _)
        · exact .fail ..
      · intro close s
        rw [enclosedProgram_eq]
        exact .later (.bind (hn.program s) fun _ _ => .expect (.ret ..))

end Reading

end SignAnalysis
