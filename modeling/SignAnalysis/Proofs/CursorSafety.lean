/-
The cursor stays within the text.

From the first lexeme of a text on, the parser with the cursor does what the parser on streams
does.  So it has no faults:

* `Expr.Spelled.natAbs_le` — reading builds no numbers beyond those that are written, apart from
  their sign, so that an opposite is never out of range;
* `Cursor.exprFollows`, `Cursor.guardFollows`, `Cursor.stmtFollows` — with fuel for all that is
  left, the functions of the one parser follow those of the other;
* `Cursor.reads_without_fault` — the whole text is read without a fault.
-/
import SignAnalysis.Proofs.Following
import SignAnalysis.Proofs.Lexing

namespace SignAnalysis

open Reading

/-! ### Numbers -/

/-- The numbers of an expression. -/
def Expr.literals : Expr → List Int
  | num n => [n]
  | var _ => []
  | binary _ l r => l.literals ++ r.literals

/-- Apart from their sign, the numbers of an expression are not larger than those that spell it. -/
theorem Expr.Spelled.natAbs_le {e : Expr} {k : Expr.Phrase} {ts : List Token} {b : Nat}
    (h : e.Spelled k ts) (hts : ∀ n, .number n ∈ ts → n ≤ b) : ∀ n ∈ e.literals, n.natAbs ≤ b := by
  induction h with
  | ofProduct _ ih | ofFactor _ ih => exact ih hts
  | sum _ _ _ ihl ihr | product _ _ _ ihl ihr =>
    refine List.forall_mem_append.mpr ⟨ihl fun n hn => hts n ?_, ihr fun n hn => hts n ?_⟩
    · exact List.mem_append_left _ hn
    · exact List.mem_append_right _ (List.mem_cons_of_mem _ hn)
  | number => exact List.forall_mem_singleton.mpr (hts _ (List.mem_singleton_self _))
  | name => exact nofun
  | minusNumber _ ih =>
    have hn := ih (fun n hn => hts n (List.mem_cons_of_mem _ hn)) _ (List.mem_singleton_self _)
    exact List.forall_mem_singleton.mpr ((Int.natAbs_neg _).trans_le hn)
  | minus _ _ ih =>
    refine List.forall_mem_cons.mpr ⟨Nat.zero_le b, ?_⟩
    exact ih fun n hn => hts n (List.mem_cons_of_mem _ hn)
  | parens _ ih =>
    exact ih fun n hn => hts n (List.mem_cons_of_mem _ (List.mem_append_left _ hn))

/-- No number of the stream is larger than those that can be written. -/
def TokenStream.Moderate (s : TokenStream) : Prop :=
  ∀ n, .number n ∈ s.tokens → n ≤ Token.largestNumber

theorem TokenStream.moderate_of_ofText {text : String} {s : TokenStream}
    (h : ofText text = .ok s) : s.Moderate := by
  intro n hn
  obtain ⟨w, hw⟩ := exists_written h _ hn
  cases hw with
  | number _ hrange => exact hrange

theorem Reading.natAbs_le_of_factor {s r : TokenStream} {n i : Nat} {e : Expr} (hs : s.Moderate)
    (h : factor n (s.after i) = .ok (e, r)) : ∀ k ∈ e.literals, k.natAbs ≤ Token.largestNumber := by
  obtain ⟨ts, hts, hspelled⟩ := (exprSound n).factor h
  refine hspelled.natAbs_le fun m hm => hs m (TokenStream.mem_tokens_of_after (i := i) ?_)
  rw [hts.tokens_eq]
  exact List.mem_append_left _ hm

namespace Cursor

variable {s : TokenStream} {n i : Nat}

namespace Follows

theorem number {k : Int} (hk : k.natAbs ≤ Token.largestNumber) (hi : i ≤ s.lexemes.length) :
    Follows s (Cursor.number k) (Reader.ret (.num k)) n i := by
  have hrange : -9223372036854775808 ≤ k ∧ k ≤ 9223372036854775807 := by
    rw [Token.largestNumber] at hk
    omega
  rw [Cursor.number, if_pos hrange]
  exact pure _ hi

theorem opposite {e : Expr} (he : ∀ k ∈ e.literals, k.natAbs ≤ Token.largestNumber)
    (hi : i ≤ s.lexemes.length) : Follows s (Cursor.opposite e) (Reader.ret e.opposite) n i := by
  cases e with
  | num k =>
    have hk := he k (List.mem_singleton_self k)
    exact number ((Int.natAbs_neg k).trans_le hk) hi
  | var | binary => exact pure _ hi

end Follows

/-! ### Expressions -/

structure ExprFollows (s : TokenStream) (n : Nat) : Prop where
  sum {i : Nat} (hi : i ≤ s.lexemes.length) (hfuel : 8 * (s.lexemes.length - i) + 3 ≤ n) :
    Follows s (sum n) Reading.sum n i
  sumRest {i : Nat} (e : Expr) (hi : i ≤ s.lexemes.length)
    (hfuel : 8 * (s.lexemes.length - i) + 1 ≤ n) :
    Follows s (sumRest n e) (Reader.chain .expression joinSum? Reading.product e) n i
  product {i : Nat} (hi : i ≤ s.lexemes.length) (hfuel : 8 * (s.lexemes.length - i) + 2 ≤ n) :
    Follows s (product n) Reading.product n i
  productRest {i : Nat} (e : Expr) (hi : i ≤ s.lexemes.length)
    (hfuel : 8 * (s.lexemes.length - i) + 1 ≤ n) :
    Follows s (productRest n e) (Reader.chain .expression joinProduct? Reading.factor e) n i
  factor {i : Nat} (hi : i ≤ s.lexemes.length) (hfuel : 8 * (s.lexemes.length - i) + 1 ≤ n) :
    Follows s (factor n) Reading.factor n i

namespace ExprFollows

theorem factor_succ (ih : ExprFollows s n) (hs : s.Moderate) (hi : i ≤ s.lexemes.length)
    (hfuel : 8 * (s.lexemes.length - i) ≤ n) :
    Follows s (Cursor.factor (n + 1)) Reading.factor (n + 1) i := by
  rw [Cursor.factor, factor_eq]
  refine .later (.peek ?_)
  generalize ht : (s.after i).next? = t?
  rcases t? with _ | (k | o | m | x)
  case some.number =>
    have hm := hs m (TokenStream.mem_tokens_of_next? ht)
    exact .next_skip ht (.number hm (TokenStream.lt_length_of_next? ht))
  case some.name => exact .next_skip ht (.pure _ (TokenStream.lt_length_of_next? ht))
  case some.symbol =>
    cases o
    case minus =>
      have hlt := TokenStream.lt_length_of_next? ht
      refine .next_skip ht (.bind (ih.factor hlt (by omega)) ?_)
      intro e j _ hj he
      exact .opposite (natAbs_le_of_factor hs he) hj
    case lparen =>
      have hlt := TokenStream.lt_length_of_next? ht
      refine .next_skip ht (.bind (ih.sum hlt (by omega)) ?_)
      intro e j _ hj _
      exact .expect hj fun hlt => .pure e hlt
    all_goals exact .next_refuse hi ht rfl
  all_goals exact .next_refuse hi ht rfl

end ExprFollows

theorem exprFollows (hs : s.Moderate) (n : Nat) : ExprFollows s n := by
  induction n with
  | zero => constructor <;> intros <;> omega
  | succ n ih =>
    constructor
    · intro i hi hfuel
      rw [sum, sum_eq]
      exact .later (.bind (ih.product hi (by omega)) fun hij hj _ => ih.sumRest _ hj (by omega))
    · intro i e hi hfuel
      rw [sumRest]
      exact .chain_two (fun _ => rfl) hi (fun hlt => ih.product hlt (by omega))
        fun hij hj => ih.sumRest _ hj (by omega)
    · intro i hi hfuel
      rw [product, product_eq]
      exact .later (.bind (ih.factor hi (by omega)) fun hij hj _ => ih.productRest _ hj (by omega))
    · intro i e hi hfuel
      rw [productRest]
      exact .chain_two (fun _ => rfl) hi (fun hlt => ih.factor hlt (by omega))
        fun hij hj => ih.productRest _ hj (by omega)
    · intro i hi hfuel
      exact ih.factor_succ hs hi (by omega)

/-! ### Guards -/

theorem comparison_follows (hs : s.Moderate) (hi : i ≤ s.lexemes.length)
    (hfuel : 8 * (s.lexemes.length - i) + 3 ≤ n) :
    Follows s (comparison n) Reading.comparison n i := by
  rw [comparison_eq]
  refine .bind ((exprFollows hs n).sum hi hfuel) fun {l j} hij hj _ => .peek ?_
  split
  · rename_i ht
    have hlt := TokenStream.lt_length_of_next? ht
    exact .skip (bind_of_ok (eat_eq_true ht))
      (.bind ((exprFollows hs n).sum hlt (by omega)) fun _ hk _ => .pure _ hk)
  · rename_i ht
    have hlt := TokenStream.lt_length_of_next? ht
    have heq : (s.after j).next? ≠ some (.symbol .eq) := by simp [ht]
    exact .skip ((bind_of_ok (eat_eq_false hj heq)).trans (bind_of_ok (eat_eq_true ht)))
      (.bind ((exprFollows hs n).sum hlt (by omega)) fun _ hk _ => .pure _ hk)
  · rename_i heq hle
    exact .of_eq ((bind_of_ok (eat_eq_false hj heq)).trans
      ((bind_of_ok (eat_eq_false hj hle)).trans (bind_of_ok (peek_eq hj)))) (.fail hj)

theorem enclosedGuard_succ (h : Follows s (guard n) Reading.guard n i) :
    Tries s (enclosedGuard (n + 1)) Reading.enclosedGuard (n + 1) i := by
  rw [enclosedGuard]
  cases h.attempt with
  | @misses e j hj hc hf =>
    refine .misses (e := e) hj (bind_of_ok hc) ?_
    rw [Reading.enclosedGuard, hf]
    rfl
  | @hits g j hij hj hc hf =>
    have hreader : Reading.enclosedGuard (n + 1) (s.after i) =
        (s.after j).expect (.symbol .rparen) >>= fun r => .ok (g, r) := by
      rw [Reading.enclosedGuard, hf]
      rfl
    by_cases ht : (s.after j).next? = some (.symbol .rparen)
    · have hlt := TokenStream.lt_length_of_next? ht
      refine .hits (Nat.le_succ_of_le hij) hlt
        ((bind_of_ok hc).trans (bind_of_ok (eat_eq_true ht))) ?_
      rw [hreader, TokenStream.expect_eq_ok_iff.mpr (.cons ht .nil), ok_bind, s.rest_after]
    · refine .misses (e := (s.after j).unexpected (.token (.symbol .rparen))) hj
        ((bind_of_ok hc).trans (bind_of_ok (eat_eq_false hj ht))) ?_
      rw [hreader, TokenStream.expect_eq_error ht]
      rfl

/-- After a failure the cursor goes back to the parenthesis, from wherever it is. -/
theorem openedLiteral_follows (ht : (s.after i).next? = some (.symbol .lparen))
    (hguard : Tries s (enclosedGuard n) Reading.enclosedGuard n (i + 1))
    (hcomparison : Follows s (comparison n) Reading.comparison n i) :
    Follows s (do
      let start ← position
      advance
      orComparison n start (← enclosedGuard n)) openedLiteral n i := by
  have hopened : ∀ {g? j}, (enclosedGuard n).run s (i + 1) = .ok (.ok g?, j) →
      (do let start ← position; advance; orComparison n start (← enclosedGuard n) :
        Action Guard).run s i = (orComparison n i g?).run s j := by
    intro g? j hc
    exact (bind_of_ok rfl).trans ((bind_of_ok (advance_eq ht)).trans (bind_of_ok hc))
  cases hguard with
  | hits hij hj hc hf =>
    refine .returns (Nat.le_of_succ_le hij) hj (hopened hc) ?_
    rw [openedLiteral, s.rest_after, hf]
  | misses hj hc hf =>
    -- wherever the guard has failed, the comparison is read from `i` on
    have hreader : openedLiteral n (s.after i) = Reading.comparison n (s.after i) := by
      rw [openedLiteral, s.rest_after, hf]
    have hi := (TokenStream.lt_length_of_next? ht).le
    have hback := (hopened hc).trans (bind_of_ok (moveTo_eq _ hi))
    exact hcomparison.transfer le_rfl hback hreader

structure GuardFollows (s : TokenStream) (n : Nat) : Prop where
  guard {i : Nat} (hi : i ≤ s.lexemes.length) (hfuel : 8 * (s.lexemes.length - i) + 5 ≤ n) :
    Follows s (guard n) Reading.guard n i
  guardRest {i : Nat} (g : Guard) (hi : i ≤ s.lexemes.length)
    (hfuel : 8 * (s.lexemes.length - i) + 1 ≤ n) :
    Follows s (guardRest n g) (Reader.chain .expression joinGuard? Reading.literal g) n i
  literal {i : Nat} (hi : i ≤ s.lexemes.length) (hfuel : 8 * (s.lexemes.length - i) + 4 ≤ n) :
    Follows s (literal n) Reading.literal n i
  enclosedGuard {i : Nat} (hi : i ≤ s.lexemes.length) (hfuel : 8 * (s.lexemes.length - i) + 6 ≤ n) :
    Tries s (enclosedGuard n) Reading.enclosedGuard n i

theorem literal_run (hi : i ≤ s.lexemes.length)
    (htrue : (s.after i).next? ≠ some (.keyword .true_))
    (hfalse : (s.after i).next? ≠ some (.keyword .false_))
    (hbang : (s.after i).next? ≠ some (.symbol .bang)) :
    (literal (n + 1)).run s i =
      (if (s.after i).next? = some (.symbol .lparen) then do
        let start ← position
        advance
        orComparison n start (← enclosedGuard n)
      else comparison n).run s i := by
  rw [literal, bind_of_ok (eat_eq_false hi htrue)]
  exact (bind_of_ok (eat_eq_false hi hfalse)).trans
    ((bind_of_ok (eat_eq_false hi hbang)).trans (bind_of_ok (peek_eq hi)))

theorem literal_succ (hs : s.Moderate) (ih : GuardFollows s n) (hi : i ≤ s.lexemes.length)
    (hfuel : 8 * (s.lexemes.length - i) + 3 ≤ n) :
    Follows s (literal (n + 1)) Reading.literal (n + 1) i := by
  rw [literal_eq]
  refine .later (.peek ?_)
  have hcomparison := comparison_follows hs hi hfuel
  split
  · rename_i ht
    rw [literal]
    exact .skip (bind_of_ok (eat_eq_true ht)) (.pure _ (TokenStream.lt_length_of_next? ht))
  · rename_i ht
    have htrue : (s.after i).next? ≠ some (.keyword .true_) := by simp [ht]
    rw [literal]
    exact .skip ((bind_of_ok (eat_eq_false hi htrue)).trans (bind_of_ok (eat_eq_true ht)))
      (.pure _ (TokenStream.lt_length_of_next? ht))
  · rename_i ht
    have htrue : (s.after i).next? ≠ some (.keyword .true_) := by simp [ht]
    have hfalse : (s.after i).next? ≠ some (.keyword .false_) := by simp [ht]
    have hlt := TokenStream.lt_length_of_next? ht
    rw [literal]
    exact .skip ((bind_of_ok (eat_eq_false hi htrue)).trans
      ((bind_of_ok (eat_eq_false hi hfalse)).trans (bind_of_ok (eat_eq_true ht))))
      (.bind (ih.literal hlt (by omega)) fun _ hj _ => .pure _ hj)
  · rename_i ht
    have hlt := TokenStream.lt_length_of_next? ht
    refine .of_eq (literal_run hi (by simp [ht]) (by simp [ht]) (by simp [ht])) ?_
    rw [if_pos ht]
    exact openedLiteral_follows ht (ih.enclosedGuard hlt (by omega)) hcomparison
  · rename_i htrue hfalse hbang hlparen
    refine .of_eq (literal_run hi htrue hfalse hbang) ?_
    rw [if_neg hlparen]
    exact hcomparison

theorem guardFollows (hs : s.Moderate) (n : Nat) : GuardFollows s n := by
  induction n with
  | zero => constructor <;> intros <;> omega
  | succ n ih =>
    constructor
    · intro i hi hfuel
      rw [guard, guard_eq]
      exact .later (.bind (ih.literal hi (by omega)) fun hij hj _ => ih.guardRest _ hj (by omega))
    · intro i g hi hfuel
      rw [guardRest]
      exact .chain_one (fun _ => rfl) hi (fun hlt => ih.literal hlt (by omega))
        fun hij hj => ih.guardRest _ hj (by omega)
    · intro i hi hfuel
      exact literal_succ hs ih hi (by omega)
    · intro i hi hfuel
      exact enclosedGuard_succ (ih.guard hi (by omega))

/-! ### Statements -/

structure StmtFollows (s : TokenStream) (n : Nat) : Prop where
  program {i : Nat} (hi : i ≤ s.lexemes.length) (hfuel : 8 * (s.lexemes.length - i) + 2 ≤ n) :
    Follows s (program n) Reading.program n i
  programRest {i : Nat} (t : Stmt) (hi : i ≤ s.lexemes.length)
    (hfuel : 8 * (s.lexemes.length - i) + 1 ≤ n) :
    Follows s (programRest n t) (Reader.chain .statement joinProgram? Reading.statement t) n i
  statement {i : Nat} (hi : i ≤ s.lexemes.length) (hfuel : 8 * (s.lexemes.length - i) + 1 ≤ n) :
    Follows s (statement n) Reading.statement n i
  enclosedProgram {i : Nat} (close : Symbol) (hi : i ≤ s.lexemes.length)
    (hfuel : 8 * (s.lexemes.length - i) + 3 ≤ n) :
    Follows s (enclosedProgram n close) (fun n => Reading.enclosedProgram n close) n i

theorem statement_succ (hs : s.Moderate) (ih : StmtFollows s n) (hi : i ≤ s.lexemes.length)
    (hfuel : 8 * (s.lexemes.length - i) ≤ n) :
    Follows s (statement (n + 1)) Reading.statement (n + 1) i := by
  rw [statement, statement_eq]
  refine .later (.peek ?_)
  generalize ht : (s.after i).next? = t?
  rcases t? with _ | (k | o | m | x)
  case some.name =>
    have hlt := TokenStream.lt_length_of_next? ht
    refine .next_skip ht (.expect hlt fun hlt' => ?_)
    exact .bind ((exprFollows hs n).sum hlt' (by omega)) fun _ hj _ => .pure _ hj
  case some.keyword =>
    cases k
    case skip_ => exact .next_skip ht (.pure _ (TokenStream.lt_length_of_next? ht))
    case if_ =>
      have hlt := TokenStream.lt_length_of_next? ht
      refine .next_skip ht (.bind ((guardFollows hs n).guard hlt (by omega)) ?_)
      intro g j hij hj _
      refine .expect hj fun hlt' => .bind (ih.statement hlt' (by omega)) ?_
      intro t j' hij' hj' _
      exact .expect hj' fun hlt'' =>
        .bind (ih.statement hlt'' (by omega)) fun _ hj _ => .pure _ hj
    case while_ =>
      have hlt := TokenStream.lt_length_of_next? ht
      refine .next_skip ht (.bind ((guardFollows hs n).guard hlt (by omega)) ?_)
      intro g j hij hj _
      exact .expect hj fun hlt' => .bind (ih.statement hlt' (by omega)) fun _ hj _ => .pure _ hj
    case try_ =>
      have hlt := TokenStream.lt_length_of_next? ht
      refine .next_skip ht (.bind (ih.statement hlt (by omega)) ?_)
      intro t j hij hj _
      exact .expect hj fun hlt' => .bind (ih.statement hlt' (by omega)) fun _ hj _ => .pure _ hj
    all_goals exact .next_refuse hi ht rfl
  case some.symbol =>
    cases o
    case lparen =>
      have hlt := TokenStream.lt_length_of_next? ht
      exact .next_skip ht (ih.enclosedProgram .rparen hlt (by omega))
    case lbrace =>
      have hlt := TokenStream.lt_length_of_next? ht
      exact .next_skip ht (ih.enclosedProgram .rbrace hlt (by omega))
    all_goals exact .next_refuse hi ht rfl
  all_goals exact .next_refuse hi ht rfl

theorem stmtFollows (hs : s.Moderate) (n : Nat) : StmtFollows s n := by
  induction n with
  | zero => constructor <;> intros <;> omega
  | succ n ih =>
    constructor
    · intro i hi hfuel
      rw [program, program_eq]
      exact .later (.bind (ih.statement hi (by omega)) fun hij hj _ =>
        ih.programRest _ hj (by omega))
    · intro i t hi hfuel
      rw [programRest]
      exact .chain_one (fun _ => rfl) hi (fun hlt => ih.statement hlt (by omega))
        fun hij hj => ih.programRest _ hj (by omega)
    · intro i hi hfuel
      exact statement_succ hs ih hi (by omega)
    · intro i close hi hfuel
      rw [enclosedProgram, enclosedProgram_eq]
      refine .later (.bind (ih.program hi (by omega)) ?_)
      intro t j _ hj _
      exact .expect hj fun hlt => .pure t hlt

theorem wholeProgram_follows (hs : s.Moderate) (hfuel : 8 * s.lexemes.length + 2 ≤ n) :
    Follows s (wholeProgram n) Reading.wholeProgram n 0 := by
  refine .bind ((stmtFollows hs n).program (Nat.zero_le _) (by omega)) ?_
  intro t j _ hj _
  refine .peek (.of_eq (bind_of_ok (peek_eq hj)) ?_)
  cases hnext : (s.after j).next? with
  | none => exact .pure t hj
  | some u =>
    have hfail : Follows s (fail .endOfProgram (s.after j).next? : Action Stmt)
      (Reader.fail .endOfProgram) n j := .fail hj
    rwa [hnext] at hfail

/-- **Reading with a cursor has no faults.**  From the first lexeme of any text on, the cursor
gives the program or the error that is read from the stream, and ends at a lexeme.  So it never
stands outside the lexemes, passes the end of the text, goes back from the first lexeme, or makes a
number that is not a 64-bit integer.  For the latter, every number of an expression that is read as
a factor, anywhere in the text, has an opposite in range. -/
theorem reads_without_fault {text : String} (hs : TokenStream.ofText text = .ok s) :
    (∃ j < s.cells.length,
      (wholeProgram (Reading.fuel s)).run s 0 = .ok (Stmt.ofTokens s, j)) ∧
    ∀ {n i : Nat} {e : Expr} {r : TokenStream}, Reading.factor n (s.after i) = .ok (e, r) →
      ∀ k ∈ e.literals, -9223372036854775807 ≤ k ∧ k ≤ 9223372036854775807 := by
  have hmoderate := TokenStream.moderate_of_ofText hs
  constructor
  · have hfuel : 8 * s.lexemes.length + 2 ≤ Reading.fuel s := by
      rw [Reading.fuel]
      omega
    rw [ofTokens_eq, s.length_cells]
    cases wholeProgram_follows hmoderate hfuel with
    | @fails e j hj hc hf =>
      rw [s.after_zero] at hf
      exact ⟨j, Nat.lt_succ_of_le hj, by rw [hc, hf]; rfl⟩
    | @returns t j _ hj hc hf =>
      rw [s.after_zero] at hf
      exact ⟨j, Nat.lt_succ_of_le hj, by rw [hc, hf]; rfl⟩
  · intro n i e r he k hk
    have hle := natAbs_le_of_factor hmoderate he k hk
    rw [Token.largestNumber] at hle
    omega

/-- A guard that is read again from its first parenthesis on, with an opposite of an opposite. -/
def reread : String := "if (- -(-7) = x then skip else skip"

def rereadTokens : TokenStream where
  lexemes := [⟨.keyword .if_, ⟨1, 1⟩⟩, ⟨.symbol .lparen, ⟨1, 4⟩⟩, ⟨.symbol .minus, ⟨1, 5⟩⟩,
    ⟨.symbol .minus, ⟨1, 7⟩⟩, ⟨.symbol .lparen, ⟨1, 8⟩⟩, ⟨.symbol .minus, ⟨1, 9⟩⟩,
    ⟨.number 7, ⟨1, 10⟩⟩, ⟨.symbol .rparen, ⟨1, 11⟩⟩, ⟨.symbol .eq, ⟨1, 13⟩⟩, ⟨.name "x", ⟨1, 15⟩⟩,
    ⟨.keyword .then_, ⟨1, 17⟩⟩, ⟨.keyword .skip_, ⟨1, 22⟩⟩, ⟨.keyword .else_, ⟨1, 27⟩⟩,
    ⟨.keyword .skip_, ⟨1, 32⟩⟩]
  stop := ⟨1, 36⟩

theorem reread_without_fault :
    TokenStream.ofText reread = .ok rereadTokens ∧
      (∃ j < rereadTokens.cells.length,
        (wholeProgram (Reading.fuel rereadTokens)).run rereadTokens 0 =
          .ok (Stmt.ofTokens rereadTokens, j)) ∧
      Stmt.ofTokens rereadTokens =
        .error ⟨⟨1, 13⟩, .unexpectedToken (.token (.symbol .rparen)) (some (.symbol .eq))⟩ ∧
      Reading.factor 20 (rereadTokens.after 2) = .ok (.num (-7), rereadTokens.after 8) ∧
      ∀ k ∈ Expr.literals (.num (-7)), -9223372036854775807 ≤ k ∧ k ≤ 9223372036854775807 := by
  have hs : TokenStream.ofText reread = .ok rereadTokens := by decide +kernel
  have hfactor : Reading.factor 20 (rereadTokens.after 2) = .ok (.num (-7), rereadTokens.after 8) :=
    rfl
  exact ⟨hs, (reads_without_fault hs).1, rfl, hfactor, (reads_without_fault hs).2 hfactor⟩

end Cursor

end SignAnalysis
