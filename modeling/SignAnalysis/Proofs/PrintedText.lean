/-
Printed expressions are read back.

The text of an expression spells its tokens, and these are a factor of the grammar whose
tree is the expression.  A number below zero is printed with a minus sign, which reading
makes part of the number again.  The text of a conjunction has no parentheses, so reading
groups its operands to the left, whatever their grouping was:

* `Guard.grouped` — the guard with all chains of conjunctions grouped to the left;
* `Guard.Regrouped` — two guards differ in how conjunctions are grouped and in nothing else;
* `Stmt.reads_back_text` — reading gives back an expression, and a guard as it is grouped.
-/
import SignAnalysis.Program.Printer
import SignAnalysis.Proofs.Evaluation
import SignAnalysis.Proofs.Lexing
import SignAnalysis.Proofs.ParserCompleteness

namespace SignAnalysis

/-! ### What can be written -/

/-- The variables are names, and the numbers are at most `Token.largestNumber` apart from
their sign: they are the signed 64-bit integers without the least one. -/
def Expr.writable : Expr → Bool
  | num n => n.natAbs ≤ Token.largestNumber
  | var x => Token.isName x
  | binary _ l r => l.writable && r.writable

def Guard.writable : Guard → Bool
  | const _ => true
  | compare _ l r => l.writable && r.writable
  | not g => g.writable
  | and l r => l.writable && r.writable

/-! ### The tokens of a printed text -/

/-- The sign of an operator. -/
def ArithOp.sign : ArithOp → Symbol
  | add => .plus
  | sub => .minus
  | mul => .star
  | div => .slash

def CompareOp.sign : CompareOp → Symbol
  | eq => .eq
  | le => .le

theorem ArithOp.symbol_eq (op : ArithOp) : op.symbol = op.sign.spelling := by
  cases op <;> rfl

theorem CompareOp.symbol_eq (op : CompareOp) : op.symbol = op.sign.spelling := by
  cases op <;> rfl

/-- The tokens of the text of an expression. -/
def Expr.written : Expr → List Token
  | num (.ofNat n) => [.number n]
  | num (.negSucc n) => [.symbol .minus, .number (n + 1)]
  | var x => [.name x]
  | binary op l r =>
    .symbol .lparen :: ((l.written ++ .symbol op.sign :: r.written) ++ [.symbol .rparen])

/-- The tokens of the text of a guard. -/
def Guard.written : Guard → List Token
  | const true => [.keyword .true_]
  | const false => [.keyword .false_]
  | compare op l r => l.written ++ .symbol op.sign :: r.written
  | not g => .symbol .bang :: .symbol .lparen :: (g.written ++ [.symbol .rparen])
  | and l r => l.written ++ .symbol .and :: r.written

namespace Spells

variable {cs : List Char} {ts : List Token}

theorem space (h : Spells cs ts) : Spells (" ".toList ++ cs) ts := .blank rfl h

theorem symbol (s : Symbol) (h : Spells cs ts) :
    Spells (s.spelling.toList ++ cs) (.symbol s :: ts) :=
  .token (.symbol s) (fun _ _ => rfl) h

/-- The text begins with nothing that belongs to a word or a number in front of it. -/
def Apart (cs : List Char) : Prop := ∀ c ∈ cs.head?, isNamePart c = false

theorem Apart.number (h : Apart cs) (n : Nat) : (Token.number n).EndsBefore cs := by
  intro c hc
  have hpart := h c hc
  simp only [isNamePart, Char.isAlphanum, Bool.or_eq_false_iff] at hpart
  exact hpart.1.2

theorem apart_space (cs : List Char) : Apart (" ".toList ++ cs) := by
  rintro c ⟨⟩
  rfl

theorem keyword (k : Keyword) (hcs : Apart cs) (h : Spells cs ts) :
    Spells (k.spelling.toList ++ cs) (.keyword k :: ts) :=
  .token (.keyword k) hcs h

theorem expr {e : Expr} (he : e.writable = true) (hcs : Apart cs) (h : Spells cs ts) :
    Spells (e.text.toList ++ cs) (e.written ++ ts) := by
  induction e generalizing cs ts with
  | num n =>
    have hn : n.natAbs ≤ Token.largestNumber := of_decide_eq_true he
    cases n with
    | ofNat n => exact .token (Token.written_number hn) (hcs.number n) h
    | negSucc n =>
      have hnumber := Spells.token (Token.written_number hn) (hcs.number (n + 1)) h
      have hminus := hnumber.symbol .minus
      rwa [← List.append_assoc, ← String.toList_append] at hminus
  | var x => exact .token (Token.written_name he) hcs h
  | binary op l r ihl ihr =>
    obtain ⟨hl, hr⟩ := Bool.and_eq_true_iff.mp he
    simp only [Expr.text, Expr.written, op.symbol_eq, String.toList_append, List.append_assoc,
      List.cons_append, List.nil_append]
    have hright := ihr hr (by rintro c ⟨⟩; rfl) (symbol .rparen h)
    exact symbol .lparen (ihl hl (apart_space _) (space (symbol op.sign (space hright))))

theorem guard {g : Guard} (hg : g.writable = true) (hcs : Apart cs) (h : Spells cs ts) :
    Spells (g.text.toList ++ cs) (g.written ++ ts) := by
  induction g generalizing cs ts with
  | const b =>
    cases b with
    | true => exact keyword .true_ hcs h
    | false => exact keyword .false_ hcs h
  | compare op l r =>
    obtain ⟨hl, hr⟩ := Bool.and_eq_true_iff.mp hg
    simp only [Guard.text, Guard.written, op.symbol_eq, String.toList_append, List.append_assoc,
      List.cons_append]
    exact expr hl (apart_space _) (space (symbol op.sign (space (expr hr hcs h))))
  | not g ih =>
    simp only [Guard.text, Guard.written, String.toList_append, List.append_assoc,
      List.cons_append, List.nil_append]
    exact symbol .bang (symbol .lparen (ih hg (by rintro c ⟨⟩; rfl) (symbol .rparen h)))
  | and l r ihl ihr =>
    obtain ⟨hl, hr⟩ := Bool.and_eq_true_iff.mp hg
    simp only [Guard.text, Guard.written, String.toList_append, List.append_assoc,
      List.cons_append]
    exact ihl hl (apart_space _) (space (symbol .and (space (ihr hr hcs h))))

end Spells

/-! ### Grouping to the left -/

namespace Guard

/-- The conjunction of `g` with the operands of a chain, one after the other. -/
def joined (g : Guard) : Guard → Guard
  | and l r => and (g.joined l) r
  | h => and g h

/-- The guard with the operands of every chain of conjunctions grouped to the left. -/
def grouped : Guard → Guard
  | and l r => l.grouped.joined r.grouped
  | not g => not g.grouped
  | g => g

def isAnd : Guard → Bool
  | and _ _ => true
  | _ => false

/-- No conjunction has a conjunction as its right operand. -/
def LeftGrouped : Guard → Prop
  | and l r => l.LeftGrouped ∧ r.LeftGrouped ∧ r.isAnd = false
  | not g => g.LeftGrouped
  | _ => True

/-- The guards differ in how conjunctions are grouped, and in nothing else. -/
inductive Regrouped : Guard → Guard → Prop
  | refl (g : Guard) : Regrouped g g
  | symm {g h : Guard} (hgh : Regrouped g h) : Regrouped h g
  | trans {g h k : Guard} (hgh : Regrouped g h) (hhk : Regrouped h k) : Regrouped g k
  | assoc (l m r : Guard) : Regrouped (and l (and m r)) (and (and l m) r)
  | and {l l' r r' : Guard} (hl : Regrouped l l') (hr : Regrouped r r') :
      Regrouped (and l r) (and l' r')
  | not {g h : Guard} (hgh : Regrouped g h) : Regrouped (not g) (not h)

theorem joined_of_isAnd {h : Guard} (hh : h.isAnd = false) (g : Guard) : g.joined h = and g h := by
  cases h with
  | and => cases hh
  | const | compare | not => rfl

theorem joined_joined (g h k : Guard) : g.joined (h.joined k) = (g.joined h).joined k := by
  induction k with
  | and l r ihl _ => exact congrArg (and · r) ihl
  | const | compare | not => rfl

theorem regrouped_joined (g h : Guard) : (and g h).Regrouped (g.joined h) := by
  induction h with
  | and l r ihl _ => exact (Regrouped.assoc g l r).trans (.and ihl (.refl r))
  | const | compare | not => exact .refl _

theorem regrouped_grouped (g : Guard) : g.Regrouped g.grouped := by
  induction g with
  | and l r ihl ihr => exact (Regrouped.and ihl ihr).trans (regrouped_joined _ _)
  | not g ih => exact .not ih
  | const | compare => exact .refl _

theorem LeftGrouped.joined {g h : Guard} (hg : g.LeftGrouped) (hh : h.LeftGrouped) :
    (g.joined h).LeftGrouped := by
  induction h with
  | and l r ihl _ => exact ⟨ihl hh.1, hh.2⟩
  | const | compare | not => exact ⟨hg, hh, rfl⟩

theorem leftGrouped_grouped (g : Guard) : g.grouped.LeftGrouped := by
  induction g with
  | and l r ihl ihr => exact ihl.joined ihr
  | not g ih => exact ih
  | const | compare => trivial

theorem LeftGrouped.grouped_eq {g : Guard} (hg : g.LeftGrouped) : g.grouped = g := by
  induction g with
  | and l r ihl ihr =>
    rw [grouped, ihl hg.1, ihr hg.2.1, joined_of_isAnd hg.2.2]
  | not g ih => exact congrArg not (ih hg)
  | const | compare => rfl

theorem Regrouped.grouped_eq {g h : Guard} (hgh : g.Regrouped h) : g.grouped = h.grouped := by
  induction hgh with
  | refl g => rfl
  | symm _ ih => exact ih.symm
  | trans _ _ ih ih' => exact ih.trans ih'
  | assoc l m r => exact joined_joined _ _ _
  | and _ _ ihl ihr => rw [grouped, grouped, ihl, ihr]
  | not _ ih => exact congrArg Guard.not ih

end Guard

theorem Truth.and_assoc (a b c : Truth) : (a.and b).and c = a.and (b.and c) := by
  cases a <;> cases b <;> cases c <;> rfl

/-- How conjunctions are grouped makes no difference to the outcomes. -/
theorem Guard.Regrouped.outcomes_eq {g h : Guard} (hgh : g.Regrouped h) (f : Var → Sign) :
    g.outcomes f = h.outcomes f := by
  induction hgh with
  | refl g => rfl
  | symm _ ih => exact ih.symm
  | trans _ _ ih ih' => exact ih.trans ih'
  | assoc l m r =>
    simp only [outcomes, List.flatMap_assoc, List.map_flatMap, List.flatMap_map, List.map_map,
      Function.comp_def, Truth.and_assoc]
  | and _ _ ihl ihr => rw [outcomes, outcomes, ihl, ihr]
  | not _ ih => rw [outcomes, outcomes, ih]

/-! ### Reading back -/

theorem Expr.spelled_written (e : Expr) : e.Spelled .factor e.written := by
  induction e with
  | num n =>
    cases n with
    | ofNat n => exact .number
    | negSucc n => exact .minusNumber (n := (n + 1 : Nat)) .number
  | var x => exact .name
  | binary op l r ihl ihr =>
    cases op with
    | add => exact .parens (.sum (.ofProduct (.ofFactor ihl)) .plus (.ofFactor ihr))
    | sub => exact .parens (.sum (.ofProduct (.ofFactor ihl)) .minus (.ofFactor ihr))
    | mul => exact .parens (.ofProduct (.product (.ofFactor ihl) .star ihr))
    | div => exact .parens (.ofProduct (.product (.ofFactor ihl) .slash ihr))

theorem Expr.spelled_sum (e : Expr) : e.Spelled .sum e.written :=
  .ofProduct (.ofFactor e.spelled_written)

namespace Guard

/-- The text of a guard spells it as it is grouped, and behind another guard and `&` it adds
its operands to that guard. -/
structure ReadsGrouped (g : Guard) : Prop where
  alone : g.grouped.Spelled .guard g.written
  behind {l : Guard} {ts : List Token} (hl : l.Spelled .guard ts) :
    (l.joined g.grouped).Spelled .guard (ts ++ .symbol .and :: g.written)

theorem ReadsGrouped.of_literal {g : Guard} (h : g.grouped.Spelled .literal g.written)
    (hand : g.grouped.isAnd = false) : g.ReadsGrouped where
  alone := .ofLiteral h
  behind hl := joined_of_isAnd hand _ ▸ .and hl h

theorem readsGrouped (g : Guard) : g.ReadsGrouped := by
  induction g with
  | const b =>
    cases b with
    | true => exact .of_literal .yes rfl
    | false => exact .of_literal .no rfl
  | compare op l r =>
    cases op with
    | eq => exact .of_literal (.compare l.spelled_sum .eq r.spelled_sum) rfl
    | le => exact .of_literal (.compare l.spelled_sum .le r.spelled_sum) rfl
  | not g ih => exact .of_literal (.not (.parens ih.alone)) rfl
  | and l r ihl ihr =>
    constructor
    · exact ihr.behind ihl.alone
    · intro p ts hp
      have hspelled := ihr.behind (ihl.behind hp)
      rw [← joined_joined] at hspelled
      rwa [List.append_assoc] at hspelled

end Guard

namespace Stmt

theorem ofText_of_spells {text : String} {ts : List Token} {t : Stmt} (h : Spells text.toList ts)
    (ht : t.Spelled .program ts) : ofText text = .ok t := by
  obtain ⟨s, hs, rfl⟩ := TokenStream.ofText_of_spells h
  rw [ofText, hs, ok_bind, ofTokens_eq_ok_iff]
  exact ht

theorem ofText_assign_text {e : Expr} (he : e.writable = true) :
    ofText ("x := " ++ e.text) = .ok (.assign "x" e) := by
  refine ofText_of_spells ?_ (.ofStatement (.assign (x := "x") e.spelled_sum))
  have hexpr : Spells (e.text.toList ++ []) (e.written ++ []) := .expr he nofun .nil
  rw [List.append_nil, List.append_nil] at hexpr
  rw [String.toList_append]
  show Spells ("x".toList ++ (" ".toList ++ (":=".toList ++ (" ".toList ++ e.text.toList)))) _
  exact .token (Token.written_name rfl) (Spells.apart_space _) (hexpr.space.symbol .assign).space

theorem ofText_cond_text {g : Guard} (hg : g.writable = true) :
    ofText ("if " ++ g.text ++ " then skip else skip") = .ok (.cond g.grouped .skip .skip) := by
  refine ofText_of_spells ?_ (.ofStatement (.cond g.readsGrouped.alone .skip .skip))
  have hskip : Spells "skip".toList [.keyword .skip_] := .keyword .skip_ nofun .nil
  have helse : Spells " else skip".toList [.keyword .else_, .keyword .skip_] :=
    (hskip.space.keyword .else_ (Spells.apart_space _)).space
  have hthen : Spells " then skip else skip".toList
      [.keyword .then_, .keyword .skip_, .keyword .else_, .keyword .skip_] :=
    ((helse.keyword .skip_ (Spells.apart_space _)).space.keyword .then_
      (Spells.apart_space _)).space
  rw [String.toList_append, String.toList_append, List.append_assoc]
  show Spells ("if".toList ++ (" ".toList ++ (g.text.toList ++ _))) _
  exact .keyword .if_ (Spells.apart_space _) (Spells.guard hg (Spells.apart_space _) hthen).space

/-- **Printed expressions are read back.**  Behind `x := `, the text of an expression whose
names and numbers can be written is read as that expression.  Between `if` and `then`, the
text of a guard is read as the guard with every chain of conjunctions grouped to the left.
That is the only left-grouped guard from which it differs in the grouping of conjunctions
alone, and its outcomes are the same in every store. -/
theorem reads_back_text :
    (∀ e : Expr, e.writable = true → ofText ("x := " ++ e.text) = .ok (.assign "x" e)) ∧
    ∀ g : Guard, g.writable = true →
      ofText ("if " ++ g.text ++ " then skip else skip") = .ok (.cond g.grouped .skip .skip) ∧
      (∀ h : Guard, h = g.grouped ↔ g.Regrouped h ∧ h.LeftGrouped) ∧
      ∀ σ : Store, g.grouped.outcomes σ.get = g.outcomes σ.get := by
  refine ⟨fun e he => ofText_assign_text he, fun g hg => ⟨ofText_cond_text hg, ?_, ?_⟩⟩
  · intro h
    constructor
    · rintro rfl
      exact ⟨g.regrouped_grouped, g.leftGrouped_grouped⟩
    · rintro ⟨hgh, hleft⟩
      rw [hgh.grouped_eq, hleft.grouped_eq]
  · intro σ
    exact (g.regrouped_grouped.outcomes_eq σ.get).symm

/-- A comparison that begins with a parenthesis, and two chains of conjunctions that are
grouped to the right, one of them in a negation. -/
def rightGrouped : Guard :=
  .and (.compare .le (.binary .sub (.var "x") (.num (-9223372036854775807))) (.num 0))
    (.and (.not (.and (.const true) (.and (.const false) (.compare .eq (.var "if_") (.num 1)))))
      (.const true))

theorem reads_back_rightGrouped :
    rightGrouped.writable = true ∧
      rightGrouped.text =
        "(x - -9223372036854775807) <= 0 & !(true & false & if_ = 1) & true" ∧
      ofText ("if " ++ rightGrouped.text ++ " then skip else skip") =
        .ok (.cond
          (.and
            (.and (.compare .le (.binary .sub (.var "x") (.num (-9223372036854775807))) (.num 0))
              (.not (.and (.and (.const true) (.const false))
                (.compare .eq (.var "if_") (.num 1)))))
            (.const true)) .skip .skip) ∧
      ofText ("x := " ++ Expr.text (.binary .sub (.num 0) (.binary .div (.var "y") (.num (-1))))) =
        .ok (.assign "x" (.binary .sub (.num 0) (.binary .div (.var "y") (.num (-1))))) :=
  ⟨by decide +kernel, by decide +kernel, (reads_back_text.2 rightGrouped (by decide +kernel)).1,
    reads_back_text.1 _ (by decide +kernel)⟩

end Stmt

end SignAnalysis
