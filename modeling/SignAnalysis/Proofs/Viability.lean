/-
What the reported token tells.

An error names one token of the text.  What stands in front of it could have gone on to be a
program.  With the token itself that is no longer so, with one exception: a guard in
parentheses that fails is read again as a comparison, and the error of the second reading is the
one to report.  It is at the first token that expressions do not have, although guards may have
it there.

* `Stmt.Accepted`, `Stmt.Viable` — the tokens are a program, or the first tokens of one;
* `Stmt.Begins.exists_text` — the first tokens of a program are those of some text that is read;
* `Stmt.error_names_token` — the error is at a token, and the tokens in front of it are viable;
* `Stmt.viable_through_error_iff` — they are viable with that token exactly if it is misread.
-/
import SignAnalysis.Proofs.ErrorPlaces
import SignAnalysis.Proofs.PrintedText

namespace SignAnalysis

open Grammar

/-! ### Texts for tokens -/

namespace Token

/-- The token, or another one of its kind if it cannot be written. -/
def mended : Token → Token
  | number n => number (min n largestNumber)
  | name x => if isName x = true then name x else name "x"
  | t => t

@[simp] theorem mended_keyword (k : Keyword) : (keyword k).mended = keyword k := rfl

@[simp] theorem mended_symbol (s : Symbol) : (symbol s).mended = symbol s := rfl

theorem exists_mended_name (x : String) : ∃ y, (name x).mended = name y := by
  rw [mended]
  split
  · exact ⟨x, rfl⟩
  · exact ⟨"x", rfl⟩

theorem exists_written_mended (t : Token) : ∃ w, t.mended.Written w := by
  cases t with
  | keyword k => exact ⟨_, .keyword k⟩
  | symbol s => exact ⟨_, .symbol s⟩
  | number n => exact ⟨_, written_number (Nat.min_le_right n _)⟩
  | name x =>
    rw [mended]
    split
    · exact ⟨_, written_name ‹_›⟩
    · exact ⟨_, written_name rfl⟩

theorem Written.mended_eq {t : Token} {w : List Char} (h : t.Written w) : t.mended = t := by
  cases h with
  | keyword | symbol => rfl
  | number _ hrange => rw [mended, Nat.min_eq_left hrange]
  | @name c w hc hw hkeyword =>
    have hname : isName (String.ofList (c :: w)) = true := by
      simp only [isName, String.toList_ofList, hc, List.all_eq_true.mpr hw, hkeyword,
        Option.isNone_none, Bool.and_self]
    rw [mended, if_pos hname]

end Token

theorem Expr.Spelled.exists_mended {e : Expr} {k : Expr.Phrase} {ts : List Token}
    (h : e.Spelled k ts) : ∃ e', Expr.Spelled e' k (ts.map Token.mended) := by
  induction h with
  | ofProduct _ ih =>
    obtain ⟨e', he'⟩ := ih
    exact ⟨e', .ofProduct he'⟩
  | ofFactor _ ih =>
    obtain ⟨e', he'⟩ := ih
    exact ⟨e', .ofFactor he'⟩
  | sum _ ho _ ihl ihr =>
    obtain ⟨l', hl'⟩ := ihl
    obtain ⟨r', hr'⟩ := ihr
    exact ⟨_, by simpa using Spelled.sum hl' ho hr'⟩
  | product _ ho _ ihl ihr =>
    obtain ⟨l', hl'⟩ := ihl
    obtain ⟨r', hr'⟩ := ihr
    exact ⟨_, by simpa using Spelled.product hl' ho hr'⟩
  | number => exact ⟨_, .number⟩
  | @name x =>
    obtain ⟨y, hy⟩ := Token.exists_mended_name x
    exact ⟨_, by simpa [hy] using Spelled.name⟩
  | minusNumber _ ih | minus _ _ ih =>
    obtain ⟨e', he'⟩ := ih
    exact ⟨_, he'.opposite⟩
  | parens _ ih =>
    obtain ⟨e', he'⟩ := ih
    exact ⟨_, by simpa using Spelled.parens he'⟩

theorem Guard.Spelled.exists_mended {g : Guard} {k : Guard.Phrase} {ts : List Token}
    (h : g.Spelled k ts) : ∃ g', Guard.Spelled g' k (ts.map Token.mended) := by
  induction h with
  | ofLiteral _ ih =>
    obtain ⟨g', hg'⟩ := ih
    exact ⟨g', .ofLiteral hg'⟩
  | and _ _ ihl ihr =>
    obtain ⟨l', hl'⟩ := ihl
    obtain ⟨r', hr'⟩ := ihr
    exact ⟨_, by simpa using Spelled.and hl' hr'⟩
  | yes => exact ⟨_, .yes⟩
  | no => exact ⟨_, .no⟩
  | not _ ih =>
    obtain ⟨g', hg'⟩ := ih
    exact ⟨_, .not hg'⟩
  | parens _ ih =>
    obtain ⟨g', hg'⟩ := ih
    exact ⟨_, by simpa using Spelled.parens hg'⟩
  | compare hl ho hr =>
    obtain ⟨l', hl'⟩ := hl.exists_mended
    obtain ⟨r', hr'⟩ := hr.exists_mended
    exact ⟨_, by simpa using Spelled.compare hl' ho hr'⟩

theorem Stmt.Spelled.exists_mended {s : Stmt} {k : Stmt.Phrase} {ts : List Token}
    (h : s.Spelled k ts) : ∃ s', Stmt.Spelled s' k (ts.map Token.mended) := by
  induction h with
  | ofStatement _ ih =>
    obtain ⟨s', hs'⟩ := ih
    exact ⟨s', .ofStatement hs'⟩
  | seq _ _ ihs iht =>
    obtain ⟨s', hs'⟩ := ihs
    obtain ⟨t', ht'⟩ := iht
    exact ⟨_, by simpa using Spelled.seq hs' ht'⟩
  | @assign x _ _ he =>
    obtain ⟨e', he'⟩ := he.exists_mended
    obtain ⟨y, hy⟩ := Token.exists_mended_name x
    exact ⟨_, by simpa [hy] using Spelled.assign he'⟩
  | skip => exact ⟨_, .skip⟩
  | cond hg _ _ ihs iht =>
    obtain ⟨g', hg'⟩ := hg.exists_mended
    obtain ⟨s', hs'⟩ := ihs
    obtain ⟨t', ht'⟩ := iht
    exact ⟨_, by simpa using Spelled.cond hg' hs' ht'⟩
  | loop hg _ ihs =>
    obtain ⟨g', hg'⟩ := hg.exists_mended
    obtain ⟨s', hs'⟩ := ihs
    exact ⟨_, by simpa using Spelled.loop hg' hs'⟩
  | attempt _ _ ihs ihh =>
    obtain ⟨s', hs'⟩ := ihs
    obtain ⟨h', hh'⟩ := ihh
    exact ⟨_, by simpa using Spelled.attempt hs' hh'⟩
  | parens _ ih =>
    obtain ⟨s', hs'⟩ := ih
    exact ⟨_, by simpa using Spelled.parens hs'⟩
  | braces _ ih =>
    obtain ⟨s', hs'⟩ := ih
    exact ⟨_, by simpa using Spelled.braces hs'⟩

/-- Tokens that can be written, and begin a program, begin some text that is read as one. -/
theorem Stmt.Begins.exists_text {ts : List Token} (h : Stmt.Begins .program ts)
    (hts : ∀ t ∈ ts, ∃ w, t.Written w) :
    ∃ text s t, TokenStream.ofText text = .ok s ∧ ts <+: s.tokens ∧ Stmt.ofText text = .ok t := by
  obtain ⟨t, _, ht, us, rfl⟩ := h
  obtain ⟨t', ht'⟩ := ht.exists_mended
  have hsame : ts.map Token.mended = ts := by
    refine (List.map_congr_left fun t ht => ?_).trans ts.map_id
    obtain ⟨w, hw⟩ := hts t ht
    exact hw.mended_eq
  rw [List.map_append, hsame] at ht'
  have hwritten : ∀ t ∈ ts ++ us.map Token.mended, ∃ w, t.Written w :=
    List.forall_mem_append.mpr ⟨hts, List.forall_mem_map.mpr fun t _ => t.exists_written_mended⟩
  obtain ⟨cs, hcs⟩ := exists_spells hwritten
  rw [← String.toList_ofList (l := cs)] at hcs
  obtain ⟨s, hs, htokens⟩ := TokenStream.ofText_of_spells hcs
  exact ⟨_, s, t', hs, ⟨_, htokens.symm⟩, ofText_of_spells hcs ht'⟩

/-! ### Places in a stream -/

namespace TokenStream

variable {s r : TokenStream} {ts : List Token}

theorem Leaves.getElem?_tokens (h : s.Leaves ts r) : s.tokens[ts.length]? = r.next? := by
  rw [h.tokens_eq, List.getElem?_append_right le_rfl, Nat.sub_self, ← List.head?_eq_getElem?]
  exact List.head?_map

theorem Leaves.getElem?_positions (h : s.Leaves ts r) :
    s.positions[ts.length]? = some r.position := by
  induction h with
  | @nil s =>
    obtain ⟨_ | ⟨l, lexemes⟩, stop⟩ := s
    · rfl
    · rfl
  | @cons s r t ts ht h ih =>
    obtain ⟨_ | ⟨l, lexemes⟩, stop⟩ := s
    · cases ht
    · exact ih

/-- In a text, no two lexemes stand at the same place. -/
theorem index_unique {text : String} {i j : Nat} {p : Position} (hs : ofText text = .ok s)
    (hi : s.positions[i]? = some p) (hj : s.positions[j]? = some p) : i = j := by
  have hnodup : s.positions.Nodup := (ofText_ascending hs).imp Position.Before.ne
  exact (List.getElem?_inj (List.getElem?_eq_some_iff.mp hi).1 hnodup).mp (hi.trans hj.symm)

end TokenStream

/-! ### Programs and their beginnings -/

namespace Reading

theorem wholeProgram_locates {n : Nat} {s : TokenStream} (hfuel : 8 * s.lexemes.length + 2 ≤ n) :
    Reader.Locates wholeProgram n s (Stmt.Begins .program) Misread := by
  refine .bind ((stmtSettles n).program s) (stmtSound n).program
    ((stmtLocates n).program s hfuel) ?_
  intro t m ts _ ht
  refine .peek fun t? _ => ?_
  cases t? with
  | none => exact .ret t
  | some u => exact .fail ⟨t, ts, ht, by simp⟩

end Reading

namespace Stmt

open Reading TokenStream

/-- Some stream of these tokens is read as a program. -/
def Accepted (ts : List Token) : Prop := ∃ s t, TokenStream.tokens s = ts ∧ ofTokens s = .ok t

/-- Some tokens behind these make them a program. -/
def Viable (ts : List Token) : Prop := ∃ us, Accepted (ts ++ us)

theorem accepted_iff {ts : List Token} : Accepted ts ↔ ∃ t, Stmt.Spelled t .program ts := by
  constructor
  · rintro ⟨s, t, rfl, ht⟩
    exact ⟨t, ofTokens_eq_ok_iff.mp ht⟩
  · rintro ⟨t, ht⟩
    refine ⟨.plain ts, t, tokens_plain ts, ofTokens_eq_ok_iff.mpr ?_⟩
    rwa [tokens_plain]

theorem viable_iff {ts : List Token} : Viable ts ↔ Stmt.Begins .program ts := by
  constructor
  · rintro ⟨us, h⟩
    obtain ⟨t, ht⟩ := accepted_iff.mp h
    exact ⟨t, _, ht, List.prefix_append ts us⟩
  · rintro ⟨t, _, ht, us, rfl⟩
    exact ⟨us, accepted_iff.mpr ⟨t, ht⟩⟩

/-- What is refused at a token is not viable together with it. -/
theorem not_viable_of_refuses {ts : List Token} {u : Token}
    (h : Reader.Refuses wholeProgram ts (some u)) : ¬ Viable (ts ++ [u]) := by
  rintro ⟨us, s, t, htokens, hok⟩
  rw [List.append_assoc] at htokens
  obtain ⟨r, hr, hrest⟩ := s.exists_leaves htokens
  rw [ofTokens_eq] at hok
  obtain ⟨p, hp, -⟩ := map_eq_ok hok
  exact h hr (next?_of_tokens_eq hrest) hp

/-- Where reading stops, as a place in the whole stream. -/
theorem exists_index_of_error {s : TokenStream} {e : SyntaxError} (h : ofTokens s = .error e) :
    ∃ i x, s.positions[i]? = some e.position ∧ e.problem = .unexpectedToken x s.tokens[i]? ∧
      Stmt.Begins .program (s.tokens.take i) ∧
      (Reader.Refuses wholeProgram (s.tokens.take i) s.tokens[i]? ∨
        Misread (s.tokens.take i) s.tokens[i]?) := by
  rw [ofTokens_eq] at h
  have hfuel : 8 * s.lexemes.length + 2 ≤ fuel s := by
    rw [fuel]
    omega
  obtain ⟨ts, r, x, hts, rfl, hbegins, hdecided⟩ := wholeProgram_locates hfuel (map_eq_error h)
  have htake : s.tokens.take ts.length = ts := by rw [hts.tokens_eq, List.take_left]
  refine ⟨ts.length, x, hts.getElem?_positions, ?_, ?_, ?_⟩
  · rw [hts.getElem?_tokens]
    rfl
  · rwa [htake]
  · rwa [htake, hts.getElem?_tokens]

theorem ofTokens_of_ofText {text : String} {s : TokenStream} {e : SyntaxError}
    (hs : TokenStream.ofText text = .ok s) (he : ofText text = .error e) :
    ofTokens s = .error e := by
  rwa [ofText, hs, ok_bind] at he

/-- **An error names a token behind a viable beginning.**  The line, the column and the token
of the message are those of one lexeme of the text, or of its end, and the tokens in front of
it are the first ones of another text that is read as a program. -/
theorem error_names_token {text : String} {s : TokenStream} {e : SyntaxError}
    (hs : TokenStream.ofText text = .ok s) (he : ofText text = .error e) :
    ∃ i p x, s.positions[i]? = some p ∧ e = ⟨p, .unexpectedToken x s.tokens[i]?⟩ ∧
      e.message = "Parse error at " ++ toString p.line ++ ":" ++ toString p.column ++ ": " ++
        ("expected " ++ x.text ++ ", found " ++
          (s.tokens[i]?.map Token.text).getD "end of input") ∧
      ∃ text' s' t, TokenStream.ofText text' = .ok s' ∧ s.tokens.take i <+: s'.tokens ∧
        ofText text' = .ok t := by
  obtain ⟨i, x, hi, hproblem, hbegins, -⟩ := exists_index_of_error (ofTokens_of_ofText hs he)
  obtain ⟨p, problem⟩ := e
  obtain rfl : problem = .unexpectedToken x s.tokens[i]? := hproblem
  refine ⟨i, p, x, hi, rfl, rfl, ?_⟩
  refine hbegins.exists_text fun t ht => ?_
  exact TokenStream.exists_written hs t (List.mem_of_mem_take ht)

/-- A guard in parentheses that are not closed. -/
def unclosed : String := "while (true do skip"

def unclosedTokens : TokenStream where
  lexemes := [⟨.keyword .while_, ⟨1, 1⟩⟩, ⟨.symbol .lparen, ⟨1, 7⟩⟩, ⟨.keyword .true_, ⟨1, 8⟩⟩,
    ⟨.keyword .do_, ⟨1, 13⟩⟩, ⟨.keyword .skip_, ⟨1, 16⟩⟩]
  stop := ⟨1, 20⟩

def unclosedError : SyntaxError := ⟨⟨1, 8⟩, .unexpectedToken .expression (some (.keyword .true_))⟩

theorem ofText_unclosed :
    TokenStream.ofText unclosed = .ok unclosedTokens ∧ ofText unclosed = .error unclosedError := by
  have htokens : TokenStream.ofText unclosed = .ok unclosedTokens := by decide +kernel
  refine ⟨htokens, ?_⟩
  rw [ofText, htokens]
  rfl

theorem error_names_unclosed :
    TokenStream.ofText unclosed = .ok unclosedTokens ∧ ofText unclosed = .error unclosedError ∧
    unclosedError.message =
      "Parse error at 1:8: expected an arithmetic expression, found `true`" ∧
    ∃ i p x, unclosedTokens.positions[i]? = some p ∧
      unclosedError = ⟨p, .unexpectedToken x unclosedTokens.tokens[i]?⟩ ∧
      unclosedError.message = "Parse error at " ++ toString p.line ++ ":" ++ toString p.column ++
        ": " ++ ("expected " ++ x.text ++ ", found " ++
          (unclosedTokens.tokens[i]?.map Token.text).getD "end of input") ∧
      ∃ text' s' t, TokenStream.ofText text' = .ok s' ∧
        unclosedTokens.tokens.take i <+: s'.tokens ∧ ofText text' = .ok t :=
  ⟨ofText_unclosed.1, ofText_unclosed.2, by decide +kernel,
    error_names_token ofText_unclosed.1 ofText_unclosed.2⟩

/-- **The reported token is unexpected, or misread.**  If reading a text fails at its lexeme `i`,
the tokens up to and with this one begin no program, whatever follows them, unless they are
misread: behind `if`, `while`, `&` or `!` and some parentheses, it is the first token of a guard
that expressions do not have.  Then, and only then, they do begin some program. -/
theorem viable_through_error_iff {text : String} {s : TokenStream} {e : SyntaxError} {i : Nat}
    (hs : TokenStream.ofText text = .ok s) (he : ofText text = .error e)
    (hi : s.positions[i]? = some e.position) :
    (s.tokens[i]? = none → ¬ Accepted s.tokens) ∧
      ∀ t, s.tokens[i]? = some t →
        (Viable (s.tokens.take (i + 1)) ↔ Misread (s.tokens.take i) (some t)) := by
  have herror := ofTokens_of_ofText hs he
  constructor
  · rintro - haccepted
    obtain ⟨t, ht⟩ := accepted_iff.mp haccepted
    rw [ofTokens_eq_ok_iff.mpr ht] at herror
    cases herror
  · intro t ht
    obtain ⟨j, x, hj, -, hbegins, hdecided⟩ := exists_index_of_error herror
    obtain rfl := TokenStream.index_unique hs hi hj
    rw [ht] at hdecided
    rw [List.take_add_one, ht, Option.toList_some]
    constructor
    · intro hviable
      exact hdecided.resolve_left fun hrefuses => not_viable_of_refuses hrefuses hviable
    · intro hmisread
      exact viable_iff.mpr (hbegins.misread hmisread)

theorem viable_through_unclosed :
    TokenStream.ofText unclosed = .ok unclosedTokens ∧ ofText unclosed = .error unclosedError ∧
      unclosedTokens.positions[2]? = some unclosedError.position ∧
      unclosedTokens.tokens[2]? = some (.keyword .true_) ∧
      Misread (unclosedTokens.tokens.take 2) (some (.keyword .true_)) ∧
      Viable (unclosedTokens.tokens.take 3) := by
  have hmisread : Misread (unclosedTokens.tokens.take 2) (some (.keyword .true_)) :=
    ⟨[], .keyword .while_, [], .keyword .true_, rfl, rfl, rfl, .yes⟩
  have hiff := (viable_through_error_iff ofText_unclosed.1 ofText_unclosed.2
    (i := 2) rfl).2 (.keyword .true_) rfl
  exact ⟨ofText_unclosed.1, ofText_unclosed.2, rfl, rfl, hmisread, hiff.mpr hmisread⟩

/-- Closing the parentheses behind the reported token gives a program. -/
theorem reported_token_not_unexpected :
    TokenStream.ofText unclosed = .ok unclosedTokens ∧ ofText unclosed = .error unclosedError ∧
      unclosedTokens.positions[2]? = some unclosedError.position ∧
      ofText "while (true) do skip" = .ok (.loop (.const true) .skip) ∧
      Viable (unclosedTokens.tokens.take 3) := by
  refine ⟨ofText_unclosed.1, ofText_unclosed.2, rfl, by decide +kernel, ?_⟩
  exact viable_iff.mpr ⟨_, _, .ofStatement (.loop (.ofLiteral (.parens (.ofLiteral .yes))) .skip),
    _, rfl⟩

end Stmt

end SignAnalysis
