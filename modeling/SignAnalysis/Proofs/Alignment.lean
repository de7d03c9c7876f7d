/-
What is read depends on the tokens alone.

The places of the lexemes only show in errors.  Two streams with the same tokens are read alike,
as the same program or with the same problem, and then the places of the two errors belong to
each other:

* `TokenStream.Aligned` — the same tokens, at places that a relation ties to each other, for
  instance those with the same index (`aligned_of_tokens_eq`);
* `Reading.Tallies` — results that are the same but for such places;
* `Reader.Aligns` — a reader takes aligned streams to results that tally.  There is a rule for
  each way to put readers together;
* `Stmt.ofTokens_aligned` — hence reading a whole program does.
-/
import Mathlib.Data.List.Forall2
import SignAnalysis.Proofs.Lexing
import SignAnalysis.Proofs.Lookahead

namespace SignAnalysis

variable {R : Position → Position → Prop}

/-! ### Aligned streams -/

namespace TokenStream

/-- The streams have the same tokens, and `R` ties the places of the one to those of the other. -/
structure Aligned (R : Position → Position → Prop) (s s' : TokenStream) : Prop where
  lexemes : s.lexemes.Forall₂ (fun l l' => l.token = l'.token ∧ R l.position l'.position) s'.lexemes
  stop : R s.stop s'.stop

variable {s s' : TokenStream}

theorem Aligned.length_eq (h : s.Aligned R s') : s.lexemes.length = s'.lexemes.length :=
  h.lexemes.length_eq

theorem Aligned.next?_eq (h : s.Aligned R s') : s.next? = s'.next? := by
  obtain ⟨ls, stop⟩ := s
  obtain ⟨ls', stop'⟩ := s'
  cases h.lexemes with
  | nil => rfl
  | cons hl _ => exact congrArg some hl.1

theorem Aligned.position (h : s.Aligned R s') : R s.position s'.position := by
  obtain ⟨ls, stop⟩ := s
  obtain ⟨ls', stop'⟩ := s'
  cases h.lexemes with
  | nil => exact h.stop
  | cons hl _ => exact hl.2

theorem Aligned.rest (h : s.Aligned R s') : s.rest.Aligned R s'.rest := by
  obtain ⟨ls, stop⟩ := s
  obtain ⟨ls', stop'⟩ := s'
  cases h.lexemes with
  | nil => exact h
  | cons _ hls => exact ⟨hls, h.stop⟩

/-- The places of two lexemes with the same index, or of the two ends. -/
def SamePlace (s s' : TokenStream) (p p' : Position) : Prop :=
  ∃ i : Nat, s.positions[i]? = some p ∧ s'.positions[i]? = some p'

theorem getElem?_positions {i : Nat} (hi : i < s.lexemes.length) :
    s.positions[i]? = some (s.lexemes.get ⟨i, hi⟩).position := by
  simp [positions, List.getElem?_append_left, hi]

theorem getElem?_positions_length (s : TokenStream) :
    s.positions[s.lexemes.length]? = some s.stop := by
  simp [positions]

theorem aligned_of_tokens_eq (h : s.tokens = s'.tokens) : s.Aligned (s.SamePlace s') s' := by
  have hlength : s.lexemes.length = s'.lexemes.length := by
    simpa [tokens] using congrArg List.length h
  constructor
  · refine List.forall₂_iff_get.mpr ⟨hlength, fun i hi hi' => ⟨?_, i, ?_, ?_⟩⟩
    · have htoken := congrArg (fun ts => ts[i]?) h
      simpa [tokens, hi, hi'] using htoken
    · exact getElem?_positions hi
    · exact getElem?_positions hi'
  · refine ⟨s.lexemes.length, s.getElem?_positions_length, ?_⟩
    rw [hlength, s'.getElem?_positions_length]

end TokenStream

namespace Reading

open TokenStream

/-! ### Results that tally -/

/-- The same is read and aligned streams are left, or the same problem is found, at places that `R`
ties to each other. -/
inductive Tallies (R : Position → Position → Prop) {α : Type} :
    Except SyntaxError (α × TokenStream) → Except SyntaxError (α × TokenStream) → Prop
  | ok (a : α) {s s' : TokenStream} (h : s.Aligned R s') : Tallies R (.ok (a, s)) (.ok (a, s'))
  | error (problem : SyntaxProblem) {p p' : Position} (h : R p p') :
      Tallies R (.error ⟨p, problem⟩) (.error ⟨p', problem⟩)

variable {α β : Type}

theorem tallies_unexpected {s s' : TokenStream} (h : s.Aligned R s') (x : Expectation) :
    Tallies R (.error (s.unexpected x) : Except SyntaxError (α × TokenStream))
      (.error (s'.unexpected x)) := by
  rw [unexpected, unexpected, h.next?_eq]
  exact .error _ h.position

theorem Tallies.bind {r r' : Except SyntaxError (α × TokenStream)}
    {f : α × TokenStream → Except SyntaxError (β × TokenStream)} (h : Tallies R r r')
    (hf : ∀ a ⦃s s'⦄, s.Aligned R s' → Tallies R (f (a, s)) (f (a, s'))) :
    Tallies R (r >>= f) (r' >>= f) := by
  cases h with
  | ok a h => exact hf a h
  | error problem h => exact .error problem h

namespace Reader

/-- With fuel `n`, the reader takes aligned streams to results that tally. -/
def Aligns (R : Position → Position → Prop) (f : Reader α) (n : Nat) : Prop :=
  ∀ ⦃s s' : TokenStream⦄, s.Aligned R s' → Tallies R (f n s) (f n s')

namespace Aligns

variable {f : Reader α} {g : α → Reader β} {n : Nat} {t : Token} {x : Expectation}

theorem ret (a : α) : (Reader.ret a).Aligns R n := fun _ _ h => .ok a h

theorem fail (x : Expectation) : (Reader.fail x : Reader α).Aligns R n :=
  fun _ _ h => tallies_unexpected h x

theorem later (h : ∀ k < n, f.Aligns R k) : (f.later x).Aligns R n := by
  cases n with
  | zero => exact fun _ _ hs => tallies_unexpected hs x
  | succ n => exact h n (Nat.lt_succ_self n)

theorem peek {f : Option Token → Reader α} (h : ∀ t?, (f t?).Aligns R n) :
    (Reader.peek f).Aligns R n := by
  intro s s' hs
  rw [Reader.peek, Reader.peek, hs.next?_eq]
  exact h _ hs

theorem skip (h : f.Aligns R n) : f.skip.Aligns R n := fun _ _ hs => h hs.rest

theorem expect (h : f.Aligns R n) : (f.expect t).Aligns R n := by
  intro s s' hs
  rw [Reader.expect, Reader.expect]
  by_cases ht : s.next? = some t
  · have ht' : s'.next? = some t := hs.next?_eq ▸ ht
    rw [expect_eq_ok_iff.mpr (.cons ht .nil), expect_eq_ok_iff.mpr (.cons ht' .nil)]
    exact h hs.rest
  · have ht' : s'.next? ≠ some t := hs.next?_eq ▸ ht
    rw [expect_eq_error ht, expect_eq_error ht']
    exact tallies_unexpected hs _

theorem bind (hf : f.Aligns R n) (hg : ∀ a, (g a).Aligns R n) : (f.bind g).Aligns R n :=
  fun _ _ hs => (hf hs).bind hg

theorem chain {join? : Token → Option (α → α → α)} (hitem : ∀ k < n, f.Aligns R k) (a : α) :
    (Reader.chain x join? f a).Aligns R n := by
  induction n using Nat.strongRecOn generalizing a with
  | ind n ih =>
    rw [chain_eq]
    refine later fun k hk => peek fun t? => ?_
    cases t?.bind join? with
    | none => exact ret a
    | some c =>
      refine skip (bind (hitem k hk) fun b => ?_)
      exact ih k hk (fun j hj => hitem j (hj.trans hk)) (c a b)

/-- The operands of a chain, from the first one on. -/
theorem operands {join? : Token → Option (α → α → α)} (hitem : ∀ k < n, f.Aligns R k) :
    ((f.bind (Reader.chain x join? f)).later x).Aligns R n :=
  later fun k hk => bind (hitem k hk) (chain fun j hj => hitem j (hj.trans hk))

end Aligns

end Reader

/-! ### The parser -/

structure ExprAligns (R : Position → Position → Prop) (n : Nat) : Prop where
  sum : Reader.Aligns R sum n
  product : Reader.Aligns R product n
  factor : Reader.Aligns R factor n

theorem exprAligns (R : Position → Position → Prop) (n : Nat) : ExprAligns R n := by
  induction n using Nat.strongRecOn with
  | ind n ih =>
    constructor
    · rw [sum_eq]
      exact .operands fun k hk => (ih k hk).product
    · rw [product_eq]
      exact .operands fun k hk => (ih k hk).factor
    · rw [factor_eq]
      refine .later fun k hk => .peek fun t? => ?_
      split
      · exact .skip (.ret _)
      · exact .skip (.ret _)
      · exact .skip (.bind (ih k hk).factor fun _ => .ret _)
      · exact .skip (.bind (ih k hk).sum fun _ => .expect (.ret _))
      · exact .fail _

theorem comparison_aligns (R : Position → Position → Prop) (n : Nat) :
    Reader.Aligns R comparison n := by
  have hsum := (exprAligns R n).sum
  rw [comparison_eq]
  refine .bind hsum fun l => .peek fun t? => ?_
  split
  · exact .skip (.bind hsum fun _ => .ret _)
  · exact .skip (.bind hsum fun _ => .ret _)
  · exact .fail _

/-- The second attempt at a parenthesis is made in both streams, or in neither. -/
theorem openedLiteral_aligns {n : Nat} (h : Reader.Aligns R enclosedGuard n) :
    Reader.Aligns R openedLiteral n := by
  intro s s' hs
  have hguard := h hs.rest
  unfold openedLiteral
  generalize enclosedGuard n s.rest = r, enclosedGuard n s'.rest = r' at hguard ⊢
  cases hguard with
  | ok g h => exact .ok g h
  | error => exact comparison_aligns R n hs

structure GuardAligns (R : Position → Position → Prop) (n : Nat) : Prop where
  guard : Reader.Aligns R guard n
  literal : Reader.Aligns R literal n
  enclosedGuard : Reader.Aligns R enclosedGuard n

theorem guardAligns (R : Position → Position → Prop) (n : Nat) : GuardAligns R n := by
  induction n using Nat.strongRecOn with
  | ind n ih =>
    constructor
    · rw [guard_eq]
      exact .operands fun k hk => (ih k hk).literal
    · rw [literal_eq]
      refine .later fun k hk => .peek fun t? => ?_
      split
      · exact .skip (.ret _)
      · exact .skip (.ret _)
      · exact .skip (.bind (ih k hk).literal fun _ => .ret _)
      · exact openedLiteral_aligns (ih k hk).enclosedGuard
      · exact comparison_aligns R k
    · rw [enclosedGuard_eq]
      exact .later fun k hk => .bind (ih k hk).guard fun _ => .expect (.ret _)

structure StmtAligns (R : Position → Position → Prop) (n : Nat) : Prop where
  program : Reader.Aligns R program n
  statement : Reader.Aligns R statement n
  enclosedProgram (close : Symbol) : Reader.Aligns R (fun n => enclosedProgram n close) n

theorem stmtAligns (R : Position → Position → Prop) (n : Nat) : StmtAligns R n := by
  induction n using Nat.strongRecOn with
  | ind n ih =>
    constructor
    · rw [program_eq]
      exact .operands fun k hk => (ih k hk).statement
    · rw [statement_eq]
      refine .later fun k hk => .peek fun t? => ?_
      have hguard := (guardAligns R k).guard
      have hstatement := (ih k hk).statement
      split
      · exact .skip (.expect (.bind (exprAligns R k).sum fun _ => .ret _))
      · exact .skip (.ret _)
      · exact .skip (.bind hguard fun _ => .expect (.bind hstatement fun _ => .expect
          (.bind hstatement fun _ => .ret _)))
      · exact .skip (.bind hguard fun _ => .expect (.bind hstatement fun _ => .ret _))
      · exact .skip (.bind hstatement fun _ => .expect (.bind hstatement fun _ => .ret _))
      · exact .skip ((ih k hk).enclosedProgram .rparen)
      · exact .skip ((ih k hk).enclosedProgram .rbrace)
      · exact .fail _
    · intro close
      rw [enclosedProgram_eq]
      exact .later fun k hk => .bind (ih k hk).program fun _ => .expect (.ret _)

theorem wholeProgram_aligns (R : Position → Position → Prop) (n : Nat) :
    Reader.Aligns R wholeProgram n := by
  refine .bind (stmtAligns R n).program fun t => .peek fun t? => ?_
  cases t? with
  | none => exact .ret t
  | some u => exact .fail _

end Reading

namespace Stmt

/-- Aligned streams are read as the same program, or with the same problem. -/
theorem ofTokens_aligned {s s' : TokenStream} (h : s.Aligned R s') :
    (∃ t, ofTokens s = .ok t ∧ ofTokens s' = .ok t) ∨
      ∃ problem p p', R p p' ∧ ofTokens s = .error ⟨p, problem⟩ ∧
        ofTokens s' = .error ⟨p', problem⟩ := by
  have hfuel : Reading.fuel s = Reading.fuel s' := by
    rw [Reading.fuel, Reading.fuel, h.length_eq]
  rw [Reading.ofTokens_eq, Reading.ofTokens_eq, hfuel]
  have htallies := Reading.wholeProgram_aligns R (Reading.fuel s') h
  generalize Reading.wholeProgram _ s = r, Reading.wholeProgram _ s' = r' at htallies ⊢
  cases htallies with
  | ok t => exact .inl ⟨t, rfl, rfl⟩
  | error problem hp => exact .inr ⟨problem, _, _, hp, rfl, rfl⟩

end Stmt

end SignAnalysis
