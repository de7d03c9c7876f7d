/-
Layout does not matter.

The same tokens can be written down in many ways, with blanks and comments of all kinds between
them.  A way to do so is a `Layout`, which has the characters of the text piece by piece:

* `Filler` — what may stand between tokens, `Layout.Item` — a token and what stands in front of it;
* `Position.behind` — the place behind some characters, counted without regard to tokens;
* `Layout.ofText_text` — a text is read as the tokens of its layout, at the places counted so;
* `Layout.layout_does_not_matter` — hence texts with the same tokens are read as the same program,
  or with the same problem at the same token.
-/
import SignAnalysis.Proofs.Alignment

namespace SignAnalysis

/-! ### Places -/

namespace Position

/-- The place behind the characters: lines end at line feeds, and columns count the characters
since the last one. -/
def behind (cs : List Char) : Position :=
  ⟨1 + cs.count '\n', 1 + (cs.reverse.takeWhile (· ≠ '\n')).length⟩

theorem next_behind (cs : List Char) (c : Char) : (behind cs).next c = behind (cs ++ [c]) := by
  by_cases hc : c = '\n'
  · subst hc
    simp [next, behind, Nat.add_assoc]
  · simp [next, behind, hc, Nat.add_assoc]

theorem foldl_next_behind (cs ds : List Char) : ds.foldl next (behind cs) = behind (cs ++ ds) := by
  induction ds generalizing cs with
  | nil => rw [List.append_nil, List.foldl_nil]
  | cons d ds ih => rw [List.foldl_cons, next_behind, ih, List.append_assoc, List.singleton_append]

theorem behind_nil : behind [] = start := rfl

end Position

/-! ### Layouts -/

/-- What may stand between tokens: a blank, or a comment with the line feed that ends it. -/
inductive Filler where
  | blank (c : Char) (h : isBlank c = true)
  | comment (w : List Char) (h : '\n' ∉ w)

def Filler.chars : Filler → List Char
  | blank c _ => [c]
  | comment w _ => '#' :: w ++ ['\n']

def Filler.space : Filler := blank ' ' rfl

/-- A separator, of any number of fillers. -/
def Filler.separator (fs : List Filler) : List Char := fs.flatMap Filler.chars

/-- A token in a text, and the fillers in front of it. -/
structure Layout.Item where
  gap : List Filler
  token : Token
  word : List Char
  written : token.Written word

def Layout.Item.chars (e : Item) : List Char := Filler.separator e.gap ++ e.word

/-- A way to write some tokens down. -/
structure Layout where
  items : List Layout.Item
  /-- Something stands between any two tokens. -/
  apart : ∀ e ∈ items.tail, e.gap ≠ []
  /-- What follows the last token. -/
  closing : List Filler
  /-- A comment behind all that, up to the end of the text. -/
  lastComment : Option { w : List Char // '\n' ∉ w }

namespace Layout

def tokens (l : Layout) : List Token := l.items.map (·.token)

/-- The characters behind the last token. -/
def ending (l : Layout) : List Char :=
  Filler.separator l.closing ++ l.lastComment.elim [] fun w => '#' :: w.1

def chars (l : Layout) : List Char := l.items.flatMap Item.chars ++ l.ending

def text (l : Layout) : String := String.ofList l.chars

/-- What stands before the token with index `i`, or before the end of the text. -/
def before (l : Layout) (i : Nat) : List Char :=
  (l.items.take i).flatMap Item.chars ++
    l.items[i]?.elim l.ending fun e => Filler.separator e.gap

/-- Where the token with index `i` stands, or the end of the text. -/
def place (l : Layout) (i : Nat) : Position := .behind (l.before i)

end Layout

/-! ### Reading a layout -/

namespace Lexeme

theorem scan_comment (p : Position) {w : List Char} (hw : '\n' ∉ w) (cs : List Char)
    (hcs : ∀ c ∈ cs.head?, c = '\n') :
    scan 0 p ('#' :: (w ++ cs)) = scan 0 (('#' :: w).foldl Position.next p) cs := by
  have hall : ∀ d ∈ w, (decide (d ≠ '\n')) = true := by
    intro d hd
    exact decide_eq_true fun heq => hw (heq ▸ hd)
  have htake : (w ++ cs).takeWhile (· ≠ '\n') = w :=
    takeWhile_append_of_head hall fun c hc => by simp [hcs c hc]
  have hfront : Piece.front '#' (w ++ cs) = (.layout, w.length) := by
    rw [Piece.front, htake]
    rfl
  rw [scan, hfront]
  exact scan_length_append (p.next '#') w cs

theorem scan_filler (p : Position) (f : Filler) (cs : List Char) :
    scan 0 p (f.chars ++ cs) = scan 0 (f.chars.foldl Position.next p) cs := by
  cases f with
  | blank c h => exact scan_blank h
  | comment w h =>
    rw [Filler.chars, List.append_assoc, List.cons_append, scan_comment p h _ (by simp),
      List.foldl_append]
    exact scan_blank rfl

theorem scan_separator (p : Position) (fs : List Filler) (cs : List Char) :
    scan 0 p (Filler.separator fs ++ cs) =
      scan 0 ((Filler.separator fs).foldl Position.next p) cs := by
  induction fs generalizing p with
  | nil => rfl
  | cons f fs ih =>
    rw [Filler.separator, List.flatMap_cons, List.append_assoc, scan_filler, List.foldl_append]
    exact ih _

end Lexeme

theorem Token.endsBefore_filler (t : Token) (f : Filler) (cs : List Char) :
    t.EndsBefore (f.chars ++ cs) := by
  intro c hc
  cases f with
  | blank d h =>
    cases hc
    exact isBlank_not_goesOn h t
  | comment w h =>
    cases hc
    cases t <;> rfl

namespace Layout

theorem endsBefore_item {e : Item} (he : e.gap ≠ []) (t : Token) (cs : List Char) :
    t.EndsBefore (e.chars ++ cs) := by
  obtain ⟨f, fs, hgap⟩ := List.exists_cons_of_ne_nil he
  rw [Item.chars, hgap, Filler.separator, List.flatMap_cons, List.append_assoc, List.append_assoc]
  exact t.endsBefore_filler f _

theorem endsBefore_ending (l : Layout) (t : Token) : t.EndsBefore l.ending := by
  rw [ending]
  cases l.closing with
  | cons f fs =>
    rw [Filler.separator, List.flatMap_cons, List.append_assoc]
    exact t.endsBefore_filler f _
  | nil =>
    intro c hc
    cases hlast : l.lastComment with
    | none => simp [hlast, Filler.separator] at hc
    | some w =>
      obtain rfl : '#' = c := by simpa [hlast, Filler.separator] using hc
      cases t <;> rfl

theorem scan_ending (l : Layout) (p : Position) : Lexeme.scan 0 p l.ending = .ok [] := by
  rw [ending, Lexeme.scan_separator]
  cases l.lastComment with
  | none => rfl
  | some w =>
    have hcomment := Lexeme.scan_comment
      ((Filler.separator l.closing).foldl Position.next p) w.2 [] (by simp)
    rwa [List.append_nil] at hcomment

/-- The tokens of the items, at the places behind `front` and what stands before them. -/
def lexemesFrom (front : List Char) : List Item → List Lexeme
  | [] => []
  | e :: es =>
    ⟨e.token, .behind (front ++ Filler.separator e.gap)⟩ :: lexemesFrom (front ++ e.chars) es

theorem scan_items (l : Layout) (front : List Char) {es : List Item}
    (hes : ∀ e ∈ es.tail, e.gap ≠ []) :
    Lexeme.scan 0 (.behind front) (es.flatMap Item.chars ++ l.ending) =
      .ok (lexemesFrom front es) := by
  induction es generalizing front with
  | nil => exact l.scan_ending _
  | cons e es ih =>
    -- the next item begins with a filler, or what follows the last one ends its token
    have hend : e.token.EndsBefore (es.flatMap Item.chars ++ l.ending) := by
      cases es with
      | nil => exact l.endsBefore_ending e.token
      | cons e' es =>
        rw [List.flatMap_cons, List.append_assoc]
        exact endsBefore_item (hes e' (List.mem_cons_self ..)) e.token _
    have hrest := ih (front ++ e.chars) fun e' he' => hes e' (List.mem_of_mem_tail he')
    rw [Item.chars, ← List.append_assoc] at hrest
    rw [List.flatMap_cons, Item.chars, List.append_assoc, List.append_assoc,
      Lexeme.scan_separator, Position.foldl_next_behind, Lexeme.scan_written e.written hend,
      Position.foldl_next_behind, hrest, lexemesFrom, Item.chars, ← List.append_assoc]
    rfl

theorem getElem?_lexemesFrom (front : List Char) (es : List Item) (i : Nat) :
    (lexemesFrom front es)[i]? = es[i]?.map fun e =>
      ⟨e.token, .behind (front ++ (es.take i).flatMap Item.chars ++ Filler.separator e.gap)⟩ := by
  induction es generalizing front i with
  | nil => rfl
  | cons e es ih =>
    cases i with
    | zero => simp [lexemesFrom]
    | succ i => simp [lexemesFrom, ih]

/-- The tokens of a layout, at their places. -/
def stream (l : Layout) : TokenStream := ⟨lexemesFrom [] l.items, .behind l.chars⟩

/-- A text is read as the tokens of its layout. -/
theorem ofText_text (l : Layout) : TokenStream.ofText l.text = .ok l.stream := by
  have hscan := l.scan_items [] l.apart
  have hstop := Position.foldl_next_behind [] l.chars
  rw [Position.behind_nil] at hscan hstop
  rw [TokenStream.ofText, text, String.toList_ofList, hstop, chars, hscan]
  rfl

theorem tokens_stream (l : Layout) : l.stream.tokens = l.tokens := by
  refine List.ext_getElem? fun i => ?_
  simp [TokenStream.tokens, stream, getElem?_lexemesFrom, tokens, Function.comp_def]

theorem before_length (l : Layout) : l.before l.items.length = l.chars := by
  simp [before, chars]

theorem positions_stream (l : Layout) :
    l.stream.positions = (List.range (l.items.length + 1)).map l.place := by
  rw [TokenStream.positions, List.range_succ, List.map_append, List.map_singleton, place,
    before_length]
  refine congrArg (· ++ [Position.behind l.chars]) (List.ext_getElem? fun i => ?_)
  by_cases hi : i < l.items.length
  · simp [stream, getElem?_lexemesFrom, hi, place, before]
  · simp [stream, getElem?_lexemesFrom, hi]

theorem place_of_getElem? {l : Layout} {i : Nat} {p : Position}
    (h : l.stream.positions[i]? = some p) : i ≤ l.items.length ∧ l.place i = p := by
  rw [positions_stream] at h
  obtain ⟨hi, rfl⟩ := List.getElem?_eq_some_iff.mp h
  rw [List.length_map, List.length_range] at hi
  rw [List.getElem_map, List.getElem_range]
  exact ⟨Nat.le_of_lt_succ hi, rfl⟩

/-- **Layout does not matter.**  However some tokens are written down, with any mix of blanks and
comments between them, the text is read as exactly these tokens.  Each stands, as the end of the
text does, at the place that counting lines and characters before it gives, and these places go
up.  So two texts with the same tokens are read as the same program, or with the same problem
at the same token. -/
theorem layout_does_not_matter :
    (∀ l : Layout, ∃ s, TokenStream.ofText l.text = .ok s ∧ s.tokens = l.tokens ∧
      s.positions = (List.range (l.items.length + 1)).map l.place ∧
      s.positions.Pairwise Position.Before) ∧
    ∀ l l' : Layout, l.tokens = l'.tokens →
      (∃ t, Stmt.ofText l.text = .ok t ∧ Stmt.ofText l'.text = .ok t) ∨
        ∃ i ≤ l.items.length, ∃ problem, Stmt.ofText l.text = .error ⟨l.place i, problem⟩ ∧
          Stmt.ofText l'.text = .error ⟨l'.place i, problem⟩ := by
  constructor
  · intro l
    exact ⟨l.stream, l.ofText_text, l.tokens_stream, l.positions_stream,
      TokenStream.ofText_ascending l.ofText_text⟩
  · intro l l' h
    have htokens : l.stream.tokens = l'.stream.tokens := by
      rw [tokens_stream, tokens_stream, h]
    rw [Stmt.ofText, Stmt.ofText, ofText_text, ofText_text, ok_bind, ok_bind]
    rcases Stmt.ofTokens_aligned (TokenStream.aligned_of_tokens_eq htokens) with
      hok | ⟨problem, p, p', ⟨i, hp, hp'⟩, herror, herror'⟩
    · exact .inl hok
    · obtain ⟨hi, rfl⟩ := place_of_getElem? hp
      obtain ⟨-, rfl⟩ := place_of_getElem? hp'
      exact .inr ⟨i, hi, problem, herror, herror'⟩

/-- The tokens of `x := 7 ; while ( true do skip`, one space apart. -/
def onePerSpace : Layout where
  items :=
    [⟨[], _, _, .name (c := 'x') (w := []) rfl (by simp) rfl⟩,
     ⟨[.space], _, _, .symbol .assign⟩,
     ⟨[.space], _, _, .number (c := '7') (w := []) (by simp) (by decide)⟩,
     ⟨[.space], _, _, .symbol .semicolon⟩,
     ⟨[.space], _, _, .keyword .while_⟩,
     ⟨[.space], _, _, .symbol .lparen⟩,
     ⟨[.space], _, _, .keyword .true_⟩,
     ⟨[.space], _, _, .keyword .do_⟩,
     ⟨[.space], _, _, .keyword .skip_⟩]
  apart := by simp
  closing := []
  lastComment := none

/-- The same tokens on several lines, with comments that hold marks, tokens and letters
outside ASCII. -/
def commented : Layout where
  items :=
    [⟨[.comment "ä # x".toList (by decide)], _, _, .name (c := 'x') (w := []) rfl (by simp) rfl⟩,
     ⟨[.blank '\t' rfl], _, _, .symbol .assign⟩,
     ⟨[.blank '\r' rfl], _, _, .number (c := '0') (w := ['7']) (by simp) (by decide)⟩,
     ⟨[.comment "; →\r".toList (by decide), .space], _, _, .symbol .semicolon⟩,
     ⟨[.blank '\r' rfl, .blank '\n' rfl], _, _, .keyword .while_⟩,
     ⟨[.space], _, _, .symbol .lparen⟩,
     ⟨[.comment [] (by decide), .space, .space], _, _, .keyword .true_⟩,
     ⟨[.space], _, _, .keyword .do_⟩,
     ⟨[.space], _, _, .keyword .skip_⟩]
  apart := by simp
  closing := [.space]
  lastComment := some ⟨"end".toList, by decide⟩

theorem layout_does_not_matter_commented :
    commented.text = "#ä # x\nx\t:=\r07#; →\r\n ;\r\nwhile (#\n  true do skip #end" ∧
      onePerSpace.text = "x := 7 ; while ( true do skip" ∧
      (∃ s, TokenStream.ofText commented.text = .ok s ∧ s.tokens = onePerSpace.tokens ∧
        s.positions = [⟨2, 1⟩, ⟨2, 3⟩, ⟨2, 6⟩, ⟨3, 2⟩, ⟨4, 1⟩, ⟨4, 7⟩, ⟨5, 3⟩, ⟨5, 8⟩, ⟨5, 11⟩,
          ⟨5, 20⟩]) ∧
      ((∃ t, Stmt.ofText onePerSpace.text = .ok t ∧ Stmt.ofText commented.text = .ok t) ∨
        ∃ i ≤ 9, ∃ problem, Stmt.ofText onePerSpace.text = .error ⟨onePerSpace.place i, problem⟩ ∧
          Stmt.ofText commented.text = .error ⟨commented.place i, problem⟩) := by
  have htokens : onePerSpace.tokens = commented.tokens := by decide
  obtain ⟨s, hs, hst, hplaces, -⟩ := layout_does_not_matter.1 commented
  exact ⟨by decide, by decide, ⟨s, hs, hst.trans htokens.symm, hplaces.trans (by decide)⟩,
    layout_does_not_matter.2 onePerSpace commented htokens⟩

end Layout

end SignAnalysis
