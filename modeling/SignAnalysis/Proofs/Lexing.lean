/-
How texts spell tokens.

A token is written in one way, a number in several.  Read from the left, a text gives a
token as soon as what follows its characters does not carry it on:

* `Token.Written` — the characters that write a token;
* `Token.EndsBefore` — a text does not carry a token on;
* `Lexeme.scan_written` — a token that is written and not carried on is read;
* `TokenStream.ofText_of_spells` — a text that spells some tokens is read as these;
* `TokenStream.exists_written`, `exists_spells` — the tokens of a text can be written, and
  tokens that can be written are those of some text.

Positions go up along a text, so that no two lexemes stand at the same place
(`TokenStream.ofText_ascending`).
-/
import Mathlib.Data.List.Pairwise
import Mathlib.Data.List.TakeWhile
import SignAnalysis.Program.Lexeme
import SignAnalysis.Proofs.Except

namespace SignAnalysis

/-! ### Characters of tokens -/

namespace Token

/-- The characters `w` write the token. -/
inductive Written : Token → List Char → Prop
  | keyword (k : Keyword) : Written (.keyword k) k.spelling.toList
  | symbol (s : Symbol) : Written (.symbol s) s.spelling.toList
  | number {c : Char} {w : List Char} (hdigits : ∀ d ∈ c :: w, d.isDigit = true)
      (hrange : Nat.ofDigitChars 10 (c :: w) 0 ≤ largestNumber) :
      Written (.number (Nat.ofDigitChars 10 (c :: w) 0)) (c :: w)
  | name {c : Char} {w : List Char} (hc : isNameStart c = true) (hw : ∀ d ∈ w, isNamePart d = true)
      (hkeyword : Keyword.ofSpelling? (String.ofList (c :: w)) = none) :
      Written (.name (String.ofList (c :: w))) (c :: w)

/-- Directly behind the token, the character would still belong to it. -/
def goesOn : Token → Char → Bool
  | keyword _ | name _ => isNamePart
  | number _ => Char.isDigit
  | symbol _ => fun _ => false

/-- The text does not carry the token on. -/
def EndsBefore (t : Token) (cs : List Char) : Prop := ∀ c ∈ cs.head?, t.goesOn c = false

end Token

theorem Keyword.ofSpelling?_spelling (k : Keyword) : ofSpelling? k.spelling = some k := by
  cases k <;> rfl

theorem Keyword.exists_spelling (k : Keyword) :
    ∃ c w, k.spelling.toList = c :: w ∧ isNameStart c = true ∧ ∀ d ∈ w, isNamePart d = true := by
  cases k <;> exact ⟨_, _, rfl, rfl, List.all_eq_true.mp rfl⟩

theorem isDigit_eq_false_of_isNameStart {c : Char} (h : isNameStart c = true) :
    c.isDigit = false := by
  have hclass : (decide ('A'.val ≤ c.val ∧ c.val ≤ 'Z'.val) ||
      (decide ('a'.val ≤ c.val) && decide (c.val ≤ 'z'.val)) || decide (c = '_')) = true := h
  simp only [Bool.or_eq_true, Bool.and_eq_true, decide_eq_true_eq] at hclass
  rcases hclass with hletter | rfl
  · show (decide ('0'.val ≤ c.val) && decide (c.val ≤ '9'.val)) = false
    simp only [Bool.and_eq_false_iff, decide_eq_false_iff_not]
    grind
  · rfl

/-- Neither a digit nor the start of a name is layout. -/
theorem not_layout {c : Char} (h : c.isDigit = true ∨ isNameStart c = true) :
    isBlank c = false ∧ c ≠ '#' := by
  constructor
  · rw [Bool.eq_false_iff]
    intro hblank
    simp only [isBlank, Bool.or_eq_true, decide_eq_true_eq] at hblank
    rcases hblank with ((rfl | rfl) | rfl) | rfl <;> revert h <;> decide
  · rintro rfl
    revert h
    decide

/-! ### The piece at the front of a text -/

/-- What is taken from a text are the characters of one kind in front of another one. -/
theorem takeWhile_append_of_head {p : Char → Bool} {w cs : List Char} (hw : ∀ d ∈ w, p d = true)
    (hend : ∀ c ∈ cs.head?, p c = false) : (w ++ cs).takeWhile p = w := by
  rw [List.takeWhile_append_of_pos hw]
  cases cs with
  | nil => exact List.append_nil w
  | cons c cs =>
    rw [List.takeWhile_cons_of_neg (by simpa using hend c rfl), List.append_nil]

namespace Piece

variable {c : Char} {w cs : List Char} {t : Token}

theorem front_digits (hw : ∀ d ∈ c :: w, d.isDigit = true)
    (hend : ∀ d ∈ cs.head?, d.isDigit = false) :
    front c (w ++ cs) = (ofDigits (c :: w), w.length) := by
  have hc : c.isDigit = true := hw c (List.mem_cons_self ..)
  obtain ⟨hblank, hcomment⟩ := not_layout (.inl hc)
  have hmore : (w ++ cs).takeWhile Char.isDigit = w :=
    takeWhile_append_of_head (fun d hd => hw d (List.mem_cons_of_mem c hd)) hend
  simp [front, hblank, hcomment, hc, hmore]

theorem front_word (hc : isNameStart c = true) (hw : ∀ d ∈ w, isNamePart d = true)
    (hend : ∀ d ∈ cs.head?, isNamePart d = false) :
    front c (w ++ cs) = (token (.ofWord (String.ofList (c :: w))), w.length) := by
  obtain ⟨hblank, hcomment⟩ := not_layout (.inr hc)
  have hdigit := isDigit_eq_false_of_isNameStart hc
  have hmore : (w ++ cs).takeWhile isNamePart = w := takeWhile_append_of_head hw hend
  simp [front, hblank, hcomment, hdigit, hc, hmore]

theorem front_symbol (s : Symbol) (hs : s.spelling.toList = c :: w) :
    front c (w ++ cs) = (token (.symbol s), w.length) := by
  cases s <;> cases hs <;> rfl

/-- A token that is written, and not carried on by what follows, stands at the front. -/
theorem front_written (ht : t.Written (c :: w)) (hend : t.EndsBefore cs) :
    front c (w ++ cs) = (token t, w.length) := by
  generalize hcw : c :: w = cw at ht
  cases ht with
  | keyword k =>
    obtain ⟨c', w', hk, hc, hw⟩ := k.exists_spelling
    obtain ⟨rfl, rfl⟩ := List.cons.inj (hcw.trans hk)
    rw [front_word hc hw hend, ← hk, String.ofList_toList, Token.ofWord, k.ofSpelling?_spelling]
  | symbol s => exact front_symbol s hcw.symm
  | number hdigits hrange =>
    obtain ⟨rfl, rfl⟩ := List.cons.inj hcw
    rw [front_digits hdigits hend, ofDigits, if_pos hrange]
  | name hc hw hkeyword =>
    obtain ⟨rfl, rfl⟩ := List.cons.inj hcw
    rw [front_word hc hw hend, Token.ofWord, hkeyword]

end Piece

theorem Token.Written.exists_cons {t : Token} {w : List Char} (h : t.Written w) :
    ∃ c w', w = c :: w' := by
  cases h with
  | keyword k =>
    obtain ⟨c, w, hk, -⟩ := k.exists_spelling
    exact ⟨c, w, hk⟩
  | symbol s => cases s <;> exact ⟨_, _, rfl⟩
  | number | name => exact ⟨_, _, rfl⟩

/-! ### Reading on -/

namespace Lexeme

variable {p : Position} {w cs : List Char} {t : Token}

/-- The characters of a piece under way are passed over. -/
theorem scan_length_append (p : Position) (w cs : List Char) :
    scan w.length p (w ++ cs) = scan 0 (w.foldl Position.next p) cs := by
  induction w generalizing p with
  | nil => rfl
  | cons c w ih => exact ih (p.next c)

theorem scan_blank {c : Char} (hc : isBlank c = true) :
    scan 0 p (c :: cs) = scan 0 (p.next c) cs := by
  simp [scan, Piece.front, hc]

/-- A token that is written, and not carried on by what follows, is read. -/
theorem scan_written (ht : t.Written w) (hend : t.EndsBefore cs) :
    scan 0 p (w ++ cs) = (scan 0 (w.foldl Position.next p) cs).map (⟨t, p⟩ :: ·) := by
  obtain ⟨c, w, rfl⟩ := ht.exists_cons
  rw [List.cons_append, scan, Piece.front_written ht hend]
  exact congrArg (Except.map _) (scan_length_append (p.next c) w cs)

end Lexeme

/-- The text spells the tokens: it has them one after the other, each ended by what
follows it, and blanks anywhere between them. -/
inductive Spells : List Char → List Token → Prop
  | nil : Spells [] []
  | blank {c : Char} {cs : List Char} {ts : List Token} (hc : isBlank c = true) (h : Spells cs ts) :
      Spells (c :: cs) ts
  | token {t : Token} {w cs : List Char} {ts : List Token} (ht : t.Written w)
      (hend : t.EndsBefore cs) (h : Spells cs ts) : Spells (w ++ cs) (t :: ts)

theorem Spells.exists_scan {cs : List Char} {ts : List Token} (h : Spells cs ts) (p : Position) :
    ∃ ls, Lexeme.scan 0 p cs = .ok ls ∧ ls.map (·.token) = ts := by
  induction h generalizing p with
  | nil => exact ⟨[], rfl, rfl⟩
  | @blank c cs ts hc h ih =>
    rw [Lexeme.scan_blank hc]
    exact ih (p.next c)
  | @token t w cs ts ht hend h ih =>
    obtain ⟨ls, hls, rfl⟩ := ih (w.foldl Position.next p)
    rw [Lexeme.scan_written ht hend, hls]
    exact ⟨⟨t, p⟩ :: ls, rfl, rfl⟩

/-- A text that spells some tokens is read as these. -/
theorem TokenStream.ofText_of_spells {text : String} {ts : List Token}
    (h : Spells text.toList ts) : ∃ s, ofText text = .ok s ∧ s.tokens = ts := by
  obtain ⟨ls, hls, hts⟩ := h.exists_scan .start
  refine ⟨⟨ls, text.toList.foldl Position.next .start⟩, ?_, hts⟩
  rw [ofText, hls]
  rfl

/-! ### Which tokens can be written -/

/-- The word is read as a name. -/
def Token.isName (x : String) : Bool :=
  match x.toList with
  | [] => false
  | c :: w => isNameStart c && w.all isNamePart && (Keyword.ofSpelling? x).isNone

theorem Token.written_name {x : String} (hx : isName x = true) : (name x).Written x.toList := by
  unfold isName at hx
  split at hx
  · cases hx
  · rename_i c w hcw
    simp only [Bool.and_eq_true, List.all_eq_true, Option.isNone_iff_eq_none] at hx
    obtain ⟨⟨hc, hw⟩, hkeyword⟩ := hx
    have hlist : String.ofList (c :: w) = x := by rw [← hcw, String.ofList_toList]
    have hname := Written.name hc hw (hlist ▸ hkeyword)
    rwa [hlist, ← hcw] at hname

theorem Token.written_number {n : Nat} (hn : n ≤ largestNumber) :
    (number n).Written (toString n).toList := by
  rw [Nat.toString_eq_ofList_toDigits, String.toList_ofList]
  have hvalue : Nat.ofDigitChars 10 (Nat.toDigits 10 n) 0 = n := Nat.ofDigitChars_ten_toDigits
  have hdigits : ∀ d ∈ Nat.toDigits 10 n, d.isDigit = true := fun d hd =>
    Nat.isDigit_of_mem_toDigits (by decide) (by decide) hd
  obtain ⟨c, w, hcw⟩ := List.exists_cons_of_ne_nil (Nat.toDigits_ne_nil (n := n) (b := 10))
  rw [hcw] at hvalue hdigits ⊢
  have hnumber := Written.number hdigits (hvalue.symm ▸ hn)
  rwa [hvalue] at hnumber

namespace Piece

variable {c : Char} {rest : List Char} {t : Token} {k : Nat}

theorem written_of_ofDigits {w : List Char} (hw : ∀ d ∈ c :: w, d.isDigit = true)
    (h : ofDigits (c :: w) = token t) : t.Written (c :: w) := by
  simp only [ofDigits] at h
  split at h
  · cases h
    exact .number hw ‹_›
  · cases h

theorem exists_written_ofWord {w : List Char} (hc : isNameStart c = true)
    (hw : ∀ d ∈ w, isNamePart d = true) :
    ∃ w', (Token.ofWord (String.ofList (c :: w))).Written w' := by
  unfold Token.ofWord
  split
  · exact ⟨_, .keyword _⟩
  · exact ⟨_, .name hc hw ‹_›⟩

/-- A token at the front of a text is one that can be written. -/
theorem exists_written_of_front (h : front c rest = (token t, k)) : ∃ w, t.Written w := by
  unfold front at h
  split at h
  · cases h
  split at h
  · cases h
  split at h
  · rename_i hc
    obtain ⟨hdigits, -⟩ := Prod.mk.inj h
    refine ⟨_, written_of_ofDigits ?_ hdigits⟩
    exact List.forall_mem_cons.mpr ⟨hc, fun d hd => List.mem_takeWhile_imp hd⟩
  split at h
  · rename_i hc
    cases h
    exact exists_written_ofWord hc fun d hd => List.mem_takeWhile_imp hd
  · split at h
    · cases h
      exact ⟨_, .symbol _⟩
    · cases h

end Piece

theorem Lexeme.exists_written_of_scan {k : Nat} {p : Position} {cs : List Char} {ls : List Lexeme}
    (h : scan k p cs = .ok ls) : ∀ l ∈ ls, ∃ w, l.token.Written w := by
  induction cs generalizing k p ls with
  | nil =>
    cases h
    exact nofun
  | cons c cs ih =>
    cases k with
    | succ k => exact ih h
    | zero =>
      rw [scan] at h
      split at h
      · exact ih h
      · rename_i hfront
        obtain ⟨ls, hls, rfl⟩ := map_eq_ok h
        exact List.forall_mem_cons.mpr ⟨Piece.exists_written_of_front hfront, ih hls⟩
      · cases h

/-- What is read from a text can be written. -/
theorem TokenStream.exists_written {text : String} {s : TokenStream} (h : ofText text = .ok s) :
    ∀ t ∈ s.tokens, ∃ w, t.Written w := by
  obtain ⟨ls, hls, rfl⟩ := map_eq_ok h
  exact List.forall_mem_map.mpr (Lexeme.exists_written_of_scan hls)

theorem isBlank_not_goesOn {c : Char} (hc : isBlank c = true) (t : Token) : t.goesOn c = false := by
  simp only [isBlank, Bool.or_eq_true, decide_eq_true_eq] at hc
  rcases hc with ((rfl | rfl) | rfl) | rfl <;> cases t <;> rfl

/-- Some text spells the tokens, if each of them can be written. -/
theorem exists_spells {ts : List Token} (h : ∀ t ∈ ts, ∃ w, t.Written w) : ∃ cs, Spells cs ts := by
  induction ts with
  | nil => exact ⟨[], .nil⟩
  | cons t ts ih =>
    obtain ⟨⟨w, hw⟩, hts⟩ := List.forall_mem_cons.mp h
    obtain ⟨cs, hcs⟩ := ih hts
    refine ⟨w ++ ' ' :: cs, .token hw ?_ (.blank rfl hcs)⟩
    rintro c ⟨⟩
    exact isBlank_not_goesOn rfl t

/-! ### Positions -/

namespace Position

/-- The one place comes before the other in a text. -/
def Before (p q : Position) : Prop := p.line < q.line ∨ p.line = q.line ∧ p.column < q.column

theorem Before.trans {p q r : Position} (hpq : p.Before q) (hqr : q.Before r) : p.Before r := by
  simp only [Before] at *
  omega

theorem Before.ne {p q : Position} (h : p.Before q) : p ≠ q := by
  rintro rfl
  simp only [Before] at h
  omega

theorem before_next (p : Position) (c : Char) : p.Before (p.next c) := by
  rw [next]
  split
  · exact .inl (Nat.lt_succ_self _)
  · exact .inr ⟨rfl, Nat.lt_succ_self _⟩

end Position

/-- The places of the lexemes, and of the end of the text. -/
def TokenStream.positions (s : TokenStream) : List Position :=
  s.lexemes.map (·.position) ++ [s.stop]

/-- Positions go up from the one where reading begins. -/
theorem Lexeme.scan_ascending {k : Nat} {p : Position} {cs : List Char} {ls : List Lexeme}
    (h : scan k p cs = .ok ls) :
    (TokenStream.positions ⟨ls, cs.foldl Position.next p⟩).Pairwise Position.Before ∧
      ∀ q ∈ TokenStream.positions ⟨ls, cs.foldl Position.next p⟩, p = q ∨ p.Before q := by
  induction cs generalizing k p ls with
  | nil =>
    cases h
    exact ⟨List.pairwise_singleton .., fun q hq => .inl (List.mem_singleton.mp hq).symm⟩
  | cons c cs ih =>
    -- what is read behind the character lies behind `p`
    have hlater : ∀ {k : Nat} {ls : List Lexeme}, scan k (p.next c) cs = .ok ls →
        ∀ q ∈ TokenStream.positions ⟨ls, cs.foldl Position.next (p.next c)⟩, p.Before q := by
      intro k ls h q hq
      rcases (ih h).2 q hq with rfl | hq
      · exact p.before_next c
      · exact (p.before_next c).trans hq
    cases k with
    | succ k => exact ⟨(ih h).1, fun q hq => .inr (hlater h q hq)⟩
    | zero =>
      rw [scan] at h
      split at h
      · exact ⟨(ih h).1, fun q hq => .inr (hlater h q hq)⟩
      · obtain ⟨ls, hls, rfl⟩ := map_eq_ok h
        refine ⟨List.pairwise_cons.mpr ⟨hlater hls, (ih hls).1⟩, ?_⟩
        rintro q (_ | ⟨_, hq⟩)
        · exact .inl rfl
        · exact .inr (hlater hls q hq)
      · cases h

/-- Along a text, every lexeme stands behind the one before it. -/
theorem TokenStream.ofText_ascending {text : String} {s : TokenStream}
    (h : ofText text = .ok s) : s.positions.Pairwise Position.Before := by
  obtain ⟨ls, hls, rfl⟩ := map_eq_ok h
  exact (Lexeme.scan_ascending hls).1

end SignAnalysis
