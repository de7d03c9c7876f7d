/-
Beginnings of phrases.

Tokens that can still become a phrase of the grammar, if the right tokens follow:

* `Expr.Begins`, `Guard.Begins`, `Stmt.Begins` — the tokens are the beginning of a phrase;
* `Grammar.Opens` — the tokens of a guard up to the first one that expressions do not have
  (`Guard.Spelled.exists_opens`).  As far as there, the guard looks like the beginning of an
  expression (`Grammar.Opens.begins_sum`);
* `Grammar.Misread` — behind a token that asks for a literal, a parenthesis opens such a guard;
* `Stmt.Begins.misread` — then the token that expressions do not have may come next.
-/
import Mathlib.Data.List.Infix
import SignAnalysis.Proofs.Grammar

namespace SignAnalysis

open Grammar

/-- The tokens are the beginning of an expression, of this kind of phrase. -/
def Expr.Begins (k : Expr.Phrase) (ts : List Token) : Prop :=
  ∃ e us, Expr.Spelled e k us ∧ ts <+: us

def Guard.Begins (k : Guard.Phrase) (ts : List Token) : Prop :=
  ∃ g us, Guard.Spelled g k us ∧ ts <+: us

def Stmt.Begins (k : Stmt.Phrase) (ts : List Token) : Prop :=
  ∃ s us, Stmt.Spelled s k us ∧ ts <+: us

theorem prefix_cons {t : Token} {ts us : List Token} (h : ts <+: us) : t :: ts <+: t :: us :=
  (List.prefix_cons_inj t).mpr h

theorem prefix_append_left {ts us : List Token} (ws : List Token) (h : ts <+: us) :
    ws ++ ts <+: ws ++ us :=
  (List.prefix_append_right_inj ws).mpr h

/-! ### Expressions -/

namespace Expr

variable {l : Expr} {k : Expr.Phrase} {ts us : List Token} {o : Symbol} {op : ArithOp}

theorem Spelled.begins {e : Expr} (h : e.Spelled k ts) : Begins k ts := ⟨e, ts, h, List.prefix_rfl⟩

theorem begins_nil (k : Expr.Phrase) : Begins k [] := by
  have hzero : (num 0).Spelled .factor [.number 0] := .number
  cases k with
  | sum => exact ⟨_, _, .ofProduct (.ofFactor hzero), List.nil_prefix⟩
  | product => exact ⟨_, _, .ofFactor hzero, List.nil_prefix⟩
  | factor => exact ⟨_, _, hzero, List.nil_prefix⟩

namespace Begins

theorem of_prefix (h : Begins k us) (hts : ts <+: us) : Begins k ts := by
  obtain ⟨e, vs, he, hvs⟩ := h
  exact ⟨e, vs, he, hts.trans hvs⟩

theorem ofProduct (h : Begins .product ts) : Begins .sum ts := by
  obtain ⟨e, us, he, hus⟩ := h
  exact ⟨e, us, .ofProduct he, hus⟩

theorem ofFactor (h : Begins .factor ts) : Begins .product ts := by
  obtain ⟨e, us, he, hus⟩ := h
  exact ⟨e, us, .ofFactor he, hus⟩

theorem sum (hl : l.Spelled .sum ts) (ho : SumSign o op) (h : Begins .product us) :
    Begins .sum (ts ++ .symbol o :: us) := by
  obtain ⟨r, vs, hr, hvs⟩ := h
  exact ⟨_, _, .sum hl ho hr, prefix_append_left ts (prefix_cons hvs)⟩

theorem product (hl : l.Spelled .product ts) (ho : ProductSign o op) (h : Begins .factor us) :
    Begins .product (ts ++ .symbol o :: us) := by
  obtain ⟨r, vs, hr, hvs⟩ := h
  exact ⟨_, _, .product hl ho hr, prefix_append_left ts (prefix_cons hvs)⟩

theorem minus (h : Begins .factor ts) : Begins .factor (.symbol .minus :: ts) := by
  obtain ⟨e, us, he, hus⟩ := h
  by_cases hnum : ∃ n, e = .num n
  · obtain ⟨n, rfl⟩ := hnum
    exact ⟨_, _, .minusNumber he, prefix_cons hus⟩
  · exact ⟨_, _, .minus he (not_exists.mp hnum), prefix_cons hus⟩

theorem parens (h : Begins .sum ts) : Begins .factor (.symbol .lparen :: ts) := by
  obtain ⟨e, us, he, hus⟩ := h
  exact ⟨e, _, .parens he, prefix_cons (List.prefix_append_of_prefix hus)⟩

end Begins

end Expr

/-- The tokens that expressions are made of. -/
def Grammar.inExpr : Token → Bool
  | .number _ | .name _ => true
  | .symbol .plus | .symbol .minus | .symbol .star | .symbol .slash => true
  | .symbol .lparen | .symbol .rparen => true
  | _ => false

theorem Expr.Spelled.inExpr {e : Expr} {k : Expr.Phrase} {ts : List Token} (h : e.Spelled k ts) :
    ∀ t ∈ ts, inExpr t = true := by
  induction h with
  | ofProduct _ ih | ofFactor _ ih => exact ih
  | sum _ ho _ ihl ihr | product _ ho _ ihl ihr =>
    simp only [List.forall_mem_append, List.forall_mem_cons]
    exact ⟨ihl, by cases ho <;> rfl, ihr⟩
  | number | name => exact List.forall_mem_singleton.mpr rfl
  | minusNumber _ ih => exact List.forall_mem_cons.mpr ⟨rfl, ih⟩
  | minus _ _ ih => exact List.forall_mem_cons.mpr ⟨rfl, ih⟩
  | parens _ ih =>
    simp only [List.forall_mem_append, List.forall_mem_cons]
    exact ⟨rfl, ih, rfl, nofun⟩

theorem Expr.Begins.inExpr {k : Expr.Phrase} {ts : List Token} (h : Expr.Begins k ts) :
    ∀ t ∈ ts, inExpr t = true := by
  obtain ⟨e, us, he, hus⟩ := h
  exact fun t ht => he.inExpr t (hus.subset ht)

/-! ### Guards -/

namespace Guard

variable {l : Guard} {ts us : List Token} {o : Symbol} {op : CompareOp}

namespace Begins

theorem ofLiteral (h : Begins .literal ts) : Begins .guard ts := by
  obtain ⟨g, us, hg, hus⟩ := h
  exact ⟨g, us, .ofLiteral hg, hus⟩

theorem and (hl : l.Spelled .guard ts) (h : Begins .literal us) :
    Begins .guard (ts ++ .symbol .and :: us) := by
  obtain ⟨r, vs, hr, hvs⟩ := h
  exact ⟨_, _, .and hl hr, prefix_append_left ts (prefix_cons hvs)⟩

theorem not (h : Begins .literal ts) : Begins .literal (.symbol .bang :: ts) := by
  obtain ⟨g, us, hg, hus⟩ := h
  exact ⟨_, _, .not hg, prefix_cons hus⟩

theorem parens (h : Begins .guard ts) : Begins .literal (.symbol .lparen :: ts) := by
  obtain ⟨g, us, hg, hus⟩ := h
  exact ⟨g, _, .parens hg, prefix_cons (List.prefix_append_of_prefix hus)⟩

theorem compareRight {l : Expr} (hl : l.Spelled .sum ts) (ho : CompareSign o op)
    (h : Expr.Begins .sum us) : Begins .literal (ts ++ .symbol o :: us) := by
  obtain ⟨r, vs, hr, hvs⟩ := h
  exact ⟨_, _, .compare hl ho hr, prefix_append_left ts (prefix_cons hvs)⟩

theorem compareLeft (h : Expr.Begins .sum ts) : Begins .literal ts := by
  obtain ⟨l, us, hl, hus⟩ := h
  obtain ⟨g, vs, hg, hvs⟩ := compareRight hl .eq (Expr.begins_nil .sum)
  exact ⟨g, vs, hg, (List.prefix_append_of_prefix hus).trans hvs⟩

end Begins

theorem begins_nil : Begins .literal [] := .compareLeft (Expr.begins_nil .sum)

end Guard

/-! ### Statements -/

namespace Stmt

variable {k : Stmt.Phrase} {g : Guard} {s : Stmt} {bs ts us : List Token}

namespace Begins

theorem of_prefix (h : Begins k us) (hts : ts <+: us) : Begins k ts := by
  obtain ⟨t, vs, ht, hvs⟩ := h
  exact ⟨t, vs, ht, hts.trans hvs⟩

theorem ofStatement (h : Begins .statement ts) : Begins .program ts := by
  obtain ⟨t, us, ht, hus⟩ := h
  exact ⟨t, us, .ofStatement ht, hus⟩

theorem seq (hs : s.Spelled .program ts) (h : Begins .statement us) :
    Begins .program (ts ++ .symbol .semicolon :: us) := by
  obtain ⟨t, vs, ht, hvs⟩ := h
  exact ⟨_, _, .seq hs ht, prefix_append_left ts (prefix_cons hvs)⟩

theorem assign (x : String) (h : Expr.Begins .sum ts) :
    Begins .statement (.name x :: .symbol .assign :: ts) := by
  obtain ⟨e, us, he, hus⟩ := h
  exact ⟨_, _, .assign he, prefix_cons (prefix_cons hus)⟩

theorem condElse (hg : g.Spelled .guard bs) (hs : s.Spelled .statement ts)
    (h : Begins .statement us) :
    Begins .statement
      (.keyword .if_ :: (bs ++ .keyword .then_ :: (ts ++ .keyword .else_ :: us))) := by
  obtain ⟨t, vs, ht, hvs⟩ := h
  refine ⟨_, _, .cond hg hs ht, prefix_cons ?_⟩
  exact prefix_append_left bs (prefix_cons (prefix_append_left ts (prefix_cons hvs)))

theorem condThen (hg : g.Spelled .guard bs) (h : Begins .statement ts) :
    Begins .statement (.keyword .if_ :: (bs ++ .keyword .then_ :: ts)) := by
  obtain ⟨t, vs, ht, hvs⟩ := h
  refine ⟨_, _, .cond hg ht .skip, prefix_cons ?_⟩
  exact prefix_append_left bs (prefix_cons (List.prefix_append_of_prefix hvs))

theorem condGuard (h : Guard.Begins .guard bs) : Begins .statement (.keyword .if_ :: bs) := by
  obtain ⟨g, vs, hg, hvs⟩ := h
  exact ⟨_, _, .cond hg .skip .skip, prefix_cons (List.prefix_append_of_prefix hvs)⟩

theorem loopBody (hg : g.Spelled .guard bs) (h : Begins .statement ts) :
    Begins .statement (.keyword .while_ :: (bs ++ .keyword .do_ :: ts)) := by
  obtain ⟨t, vs, ht, hvs⟩ := h
  exact ⟨_, _, .loop hg ht, prefix_cons (prefix_append_left bs (prefix_cons hvs))⟩

theorem loopGuard (h : Guard.Begins .guard bs) : Begins .statement (.keyword .while_ :: bs) := by
  obtain ⟨g, vs, hg, hvs⟩ := h
  exact ⟨_, _, .loop hg .skip, prefix_cons (List.prefix_append_of_prefix hvs)⟩

theorem attemptHandler (hs : s.Spelled .statement ts) (h : Begins .statement us) :
    Begins .statement (.keyword .try_ :: (ts ++ .keyword .catch_ :: us)) := by
  obtain ⟨t, vs, ht, hvs⟩ := h
  exact ⟨_, _, .attempt hs ht, prefix_cons (prefix_append_left ts (prefix_cons hvs))⟩

theorem attemptBody (h : Begins .statement ts) : Begins .statement (.keyword .try_ :: ts) := by
  obtain ⟨t, vs, ht, hvs⟩ := h
  exact ⟨_, _, .attempt ht .skip, prefix_cons (List.prefix_append_of_prefix hvs)⟩

theorem parens (h : Begins .program ts) : Begins .statement (.symbol .lparen :: ts) := by
  obtain ⟨t, us, ht, hus⟩ := h
  exact ⟨t, _, .parens ht, prefix_cons (List.prefix_append_of_prefix hus)⟩

theorem braces (h : Begins .program ts) : Begins .statement (.symbol .lbrace :: ts) := by
  obtain ⟨t, us, ht, hus⟩ := h
  exact ⟨t, _, .braces ht, prefix_cons (List.prefix_append_of_prefix hus)⟩

end Begins

theorem begins_nil : Begins .statement [] := ⟨_, _, .skip, List.nil_prefix⟩

end Stmt

/-! ### Guards that look like expressions -/

namespace Grammar

/-- The tokens `ts` of a guard, up to the first token `t` that expressions do not have: some
parentheses are opened, and then comes a truth value or a negation, or an expression and a
comparison sign. -/
inductive Opens : List Token → Token → Prop
  | yes : Opens [] (.keyword .true_)
  | no : Opens [] (.keyword .false_)
  | not : Opens [] (.symbol .bang)
  | compare {e : Expr} {ts : List Token} {o : Symbol} {op : CompareOp} (he : e.Spelled .sum ts)
      (ho : CompareSign o op) : Opens ts (.symbol o)
  | parens {ts : List Token} {t : Token} (h : Opens ts t) : Opens (.symbol .lparen :: ts) t

/-- Behind these tokens there is always a literal. -/
def awaitsLiteral : Token → Bool
  | .keyword .if_ | .keyword .while_ | .symbol .and | .symbol .bang => true
  | _ => false

/-- The tokens `ts` end with a literal that begins with a parenthesis and goes on as a guard,
up to where the next token `t?` is the first one that expressions do not have. -/
def Misread (ts : List Token) (t? : Option Token) : Prop :=
  ∃ before q us t, ts = before ++ q :: .symbol .lparen :: us ∧ t? = some t ∧
    awaitsLiteral q = true ∧ Opens us t

variable {ts us : List Token} {t : Token} {t? : Option Token}

theorem Misread.append (h : Misread us t?) (ts : List Token) : Misread (ts ++ us) t? := by
  obtain ⟨before, q, vs, t, rfl, rfl, hq, hvs⟩ := h
  exact ⟨ts ++ before, q, vs, t, (List.append_assoc ..).symm, rfl, hq, hvs⟩

theorem Misread.cons (h : Misread us t?) (t : Token) : Misread (t :: us) t? := h.append [t]

namespace Opens

theorem inExpr_eq_false (h : Opens ts t) : inExpr t = false := by
  induction h with
  | yes | no | not => rfl
  | compare _ ho => cases ho <;> rfl
  | parens _ ih => exact ih

theorem begins_sum (h : Opens ts t) : Expr.Begins .sum ts := by
  induction h with
  | yes | no | not => exact Expr.begins_nil .sum
  | compare he _ => exact he.begins
  | parens _ ih => exact ih.parens.ofFactor.ofProduct

theorem begins_guard (h : Opens ts t) : Guard.Begins .guard (ts ++ [t]) := by
  induction h with
  | yes => exact ⟨_, _, .ofLiteral .yes, List.prefix_rfl⟩
  | no => exact ⟨_, _, .ofLiteral .no, List.prefix_rfl⟩
  | not => exact Guard.begins_nil.not.ofLiteral
  | compare he ho => exact (Guard.Begins.compareRight he ho (Expr.begins_nil .sum)).ofLiteral
  | parens _ ih => exact ih.parens.ofLiteral

end Opens

end Grammar

/-- Every guard has a first token that expressions do not have. -/
theorem Guard.Spelled.exists_opens {g : Guard} {k : Guard.Phrase} {ts : List Token}
    (h : g.Spelled k ts) : ∃ us t, Opens us t ∧ us ++ [t] <+: ts := by
  induction h with
  | ofLiteral _ ih => exact ih
  | and _ _ ihl _ =>
    obtain ⟨us, t, ho, hus⟩ := ihl
    exact ⟨us, t, ho, List.prefix_append_of_prefix hus⟩
  | yes => exact ⟨[], _, .yes, List.prefix_rfl⟩
  | no => exact ⟨[], _, .no, List.prefix_rfl⟩
  | not => exact ⟨[], _, .not, prefix_cons List.nil_prefix⟩
  | parens _ ih =>
    obtain ⟨us, t, ho, hus⟩ := ih
    exact ⟨_, t, .parens ho, prefix_cons (List.prefix_append_of_prefix hus)⟩
  | compare hl ho _ =>
    exact ⟨_, _, .compare hl ho, prefix_append_left _ (prefix_cons List.nil_prefix)⟩

/-! ### Other literals in the same place -/

namespace Grammar

variable {before ts us : List Token} {q t o : Token}

theorem inExpr_eq_false_of_awaitsLiteral (hq : awaitsLiteral q = true) : inExpr q = false := by
  rcases q with k | o | _ | _
  · cases k <;> rfl
  · cases o <;> first | rfl | cases hq
  · cases hq
  · cases hq

/-- A token in what is put together from two parts is in the first, or behind it. -/
theorem prefix_append_cases (h : before ++ [q] <+: ts ++ us) :
    before ++ [q] <+: ts ∨ ∃ before', before = ts ++ before' ∧ before' ++ [q] <+: us := by
  rcases List.prefix_or_prefix_of_prefix h (List.prefix_append ts us) with hts | hts
  · exact .inl hts
  · rcases List.prefix_concat_iff.mp hts with rfl | ⟨before', rfl⟩
    · exact .inl List.prefix_rfl
    · rw [List.append_assoc] at h
      exact .inr ⟨before', rfl, (List.prefix_append_right_inj ts).mp h⟩

theorem prefix_cons_cases (h : before ++ [q] <+: o :: us) :
    (before = [] ∧ q = o) ∨ ∃ before', before = o :: before' ∧ before' ++ [q] <+: us := by
  cases before with
  | nil => exact .inl ⟨rfl, (List.cons_prefix_cons.mp h).1⟩
  | cons t before' =>
    obtain ⟨rfl, hus⟩ := List.cons_prefix_cons.mp h
    exact .inr ⟨before', rfl, hus⟩

/-- A token that asks for a literal is not the token `o` in front. -/
theorem exists_of_prefix_cons (hq : awaitsLiteral q = true) (ho : awaitsLiteral o = false)
    (h : before ++ [q] <+: o :: us) : ∃ before', before = o :: before' ∧ before' ++ [q] <+: us := by
  rcases prefix_cons_cases h with ⟨-, rfl⟩ | hus
  · exact absurd (hq.symm.trans ho) nofun
  · exact hus

/-- A token that asks for a literal is not the separator `o`. -/
theorem prefix_separated_cases (hq : awaitsLiteral q = true) (ho : awaitsLiteral o = false)
    (h : before ++ [q] <+: ts ++ o :: us) :
    before ++ [q] <+: ts ∨ ∃ before', before = ts ++ o :: before' ∧ before' ++ [q] <+: us := by
  rcases prefix_append_cases h with hts | ⟨before', rfl, hous⟩
  · exact .inl hts
  · obtain ⟨before', rfl, hus⟩ := exists_of_prefix_cons hq ho hous
    exact .inr ⟨before', rfl, hus⟩

theorem not_prefix_nil (h : before ++ [q] <+: []) : False := by
  simp at h

end Grammar

/-- Behind a token of a guard that asks for a literal, any literal may begin. -/
theorem Guard.Spelled.begins_renewed {g : Guard} {k : Guard.Phrase} {before ls ws : List Token}
    {q : Token} (h : g.Spelled k ws) (hq : awaitsLiteral q = true) (hws : before ++ [q] <+: ws)
    (hls : Guard.Begins .literal ls) : Guard.Begins k (before ++ q :: ls) := by
  induction h generalizing before with
  | ofLiteral _ ih => exact (ih hws).ofLiteral
  | and hl _ ihl ihr =>
    rcases prefix_append_cases hws with hts | ⟨before', rfl, hous⟩
    · exact ihl hts
    · rw [List.append_assoc]
      rcases prefix_cons_cases hous with ⟨rfl, rfl⟩ | ⟨before', rfl, hus⟩
      · exact .and hl hls
      · exact .and hl (ihr hus)
  | yes | no =>
    obtain ⟨before', -, hnil⟩ := exists_of_prefix_cons hq rfl hws
    exact (not_prefix_nil hnil).elim
  | not _ ih =>
    rcases prefix_cons_cases hws with ⟨rfl, rfl⟩ | ⟨before', rfl, hts⟩
    · exact hls.not
    · exact (ih hts).not
  | parens _ ih =>
    obtain ⟨before', rfl, hclosed⟩ := exists_of_prefix_cons hq rfl hws
    rcases prefix_separated_cases hq rfl hclosed with hts | ⟨_, -, hnil⟩
    · exact (ih hts).parens
    · exact (not_prefix_nil hnil).elim
  | compare hl ho hr =>
    -- there is no such token in a comparison
    have hmem := hws.subset (List.mem_append_right before (List.mem_singleton_self q))
    have hnot := inExpr_eq_false_of_awaitsLiteral hq
    rcases List.mem_append.mp hmem with hmem | hmem
    · exact absurd (hnot.symm.trans (hl.inExpr q hmem)) nofun
    · rcases List.mem_cons.mp hmem with rfl | hmem
      · cases ho <;> cases hq
      · exact absurd (hnot.symm.trans (hr.inExpr q hmem)) nofun

/-- Behind a token of a program that asks for a literal, any literal may begin. -/
theorem Stmt.Spelled.begins_renewed {s : Stmt} {k : Stmt.Phrase} {before ls ws : List Token}
    {q : Token} (h : s.Spelled k ws) (hq : awaitsLiteral q = true) (hws : before ++ [q] <+: ws)
    (hls : Guard.Begins .literal ls) : Stmt.Begins k (before ++ q :: ls) := by
  induction h generalizing before with
  | ofStatement _ ih => exact (ih hws).ofStatement
  | seq hs _ ihs iht =>
    rcases prefix_separated_cases hq rfl hws with hts | ⟨before', rfl, hus⟩
    · exact ihs hts
    · rw [List.append_assoc]
      exact .seq hs (iht hus)
  | assign he =>
    obtain ⟨before', -, hassign⟩ := exists_of_prefix_cons hq rfl hws
    obtain ⟨before', -, hts⟩ := exists_of_prefix_cons hq rfl hassign
    have hmem := hts.subset (List.mem_append_right before' (List.mem_singleton_self q))
    exact absurd ((inExpr_eq_false_of_awaitsLiteral hq).symm.trans (he.inExpr q hmem)) nofun
  | skip =>
    obtain ⟨before', -, hnil⟩ := exists_of_prefix_cons hq rfl hws
    exact (not_prefix_nil hnil).elim
  | cond hg hs _ ihs iht =>
    rcases prefix_cons_cases hws with ⟨rfl, rfl⟩ | ⟨before', rfl, hrest⟩
    · exact .condGuard hls.ofLiteral
    rcases prefix_separated_cases hq rfl hrest with hbs | ⟨before', rfl, hthen⟩
    · exact .condGuard (hg.begins_renewed hq hbs hls)
    rcases prefix_separated_cases hq rfl hthen with hts | ⟨before', rfl, hus⟩
    · simpa using Begins.condThen hg (ihs hts)
    · simpa using Begins.condElse hg hs (iht hus)
  | loop hg _ ihs =>
    rcases prefix_cons_cases hws with ⟨rfl, rfl⟩ | ⟨before', rfl, hrest⟩
    · exact .loopGuard hls.ofLiteral
    rcases prefix_separated_cases hq rfl hrest with hbs | ⟨before', rfl, hts⟩
    · exact .loopGuard (hg.begins_renewed hq hbs hls)
    · simpa using Begins.loopBody hg (ihs hts)
  | attempt hs _ ihs ihh =>
    obtain ⟨before', rfl, hrest⟩ := exists_of_prefix_cons hq rfl hws
    rcases prefix_separated_cases hq rfl hrest with hts | ⟨before', rfl, hus⟩
    · exact .attemptBody (ihs hts)
    · simpa using Begins.attemptHandler hs (ihh hus)
  | parens _ ih =>
    obtain ⟨before', rfl, hclosed⟩ := exists_of_prefix_cons hq rfl hws
    rcases prefix_separated_cases hq rfl hclosed with hts | ⟨_, -, hnil⟩
    · exact (ih hts).parens
    · exact (not_prefix_nil hnil).elim
  | braces _ ih =>
    obtain ⟨before', rfl, hclosed⟩ := exists_of_prefix_cons hq rfl hws
    rcases prefix_separated_cases hq rfl hclosed with hts | ⟨_, -, hnil⟩
    · exact (ih hts).braces
    · exact (not_prefix_nil hnil).elim

/-- A misread token may come next after all. -/
theorem Stmt.Begins.misread {k : Stmt.Phrase} {ts : List Token} {t : Token}
    (h : Stmt.Begins k ts) (ht : Misread ts (some t)) : Stmt.Begins k (ts ++ [t]) := by
  obtain ⟨before, q, us, t, rfl, ⟨⟩, hq, hus⟩ := ht
  obtain ⟨s, ws, hs, hws⟩ := h
  have hq' : before ++ [q] <+: before ++ q :: .symbol .lparen :: us :=
    prefix_append_left before (prefix_cons List.nil_prefix)
  simpa using hs.begins_renewed hq (hq'.trans hws) hus.begins_guard.parens

end SignAnalysis
