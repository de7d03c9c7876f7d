/-
What decides a reading.

The functions of the parser take tokens from the front of a stream, look at the one that
comes next, and never further.  So a reading is decided by these tokens: another stream
that begins with them is read in the same way, or not at all, however much fuel there is.

* `Reading.Reader` — functions such as those of the parser, and the few ways to put them
  together;
* `Reader.Settles` — a success is decided by the tokens that were taken and the next one;
* `Reader.Locates` — a failure is reported at the first token that is not taken, behind
  tokens with a given property, and is decided by these tokens, apart from stated
  exceptions.
-/
import SignAnalysis.Proofs.ParserCompleteness

namespace SignAnalysis

namespace TokenStream

variable {s s' m r r' : TokenStream} {ts us : List Token}

/-- Two streams that begin alike, up to the next token, have the same first token. -/
theorem Leaves.next?_eq (h : s.Leaves ts r) (h' : s'.Leaves ts r') (hr : r'.next? = r.next?) :
    s'.next? = s.next? := by
  cases h with
  | nil =>
    cases h'
    exact hr
  | cons ht h => rw [ht, (leaves_cons.mp h').1]

theorem Leaves.length_eq (h : s.Leaves ts r) :
    s.lexemes.length = ts.length + r.lexemes.length := by
  have htokens := congrArg List.length h.tokens_eq
  simpa [tokens] using htokens

theorem length_rest {t : Token} (h : s.next? = some t) :
    s.lexemes.length = s.rest.lexemes.length + 1 := by
  have hlength := (Leaves.cons h .nil).length_eq
  rwa [List.length_singleton, Nat.add_comm] at hlength

theorem expect_eq_error {t : Token} (h : s.next? ≠ some t) :
    s.expect t = .error (s.unexpected (.token t)) := by
  simp [expect, eat?, h]

theorem Leaves.unique (h : s.Leaves ts r) (h' : s.Leaves us r) : ts = us :=
  List.append_cancel_right (h.tokens_eq.symm.trans h'.tokens_eq)

end TokenStream

namespace Reading

open TokenStream

/-- A function of the parser: it has some fuel, takes tokens from the front of a stream, and
returns what it has read with the rest. -/
abbrev Reader (α : Type) := Nat → TokenStream → Except SyntaxError (α × TokenStream)

namespace Reader

variable {α β : Type}

/-- Takes nothing. -/
def ret (a : α) : Reader α := fun _ s => .ok (a, s)

def fail (x : Expectation) : Reader α := fun _ s => .error (s.unexpected x)

/-- Spends a unit of fuel. -/
def later (x : Expectation) (f : Reader α) : Reader α
  | 0, s => .error (s.unexpected x)
  | n + 1, s => f n s

/-- Goes by the next token, if there is one. -/
def peek (f : Option Token → Reader α) : Reader α := fun n s => f s.next? n s

/-- Passes over the next token. -/
def skip (f : Reader α) : Reader α := fun n s => f n s.rest

/-- Passes over the next token, which has to be `t`. -/
def expect (t : Token) (f : Reader α) : Reader α := fun n s => s.expect t >>= f n

def bind (f : Reader α) (g : α → Reader β) : Reader β := fun n s => f n s >>= fun p => g p.1 n p.2

/-- Reads further operands of a chain behind `a`.  A token `t` with `join? t = some c` carries
the chain on, and `c` puts together what is in front of it and the operand behind it. -/
def chain (x : Expectation) (join? : Token → Option (α → α → α)) (item : Reader α) (a : α) :
    Reader α
  | 0, s => .error (s.unexpected x)
  | n + 1, s =>
    match s.next?.bind join? with
    | none => .ok (a, s)
    | some c => item n s.rest >>= fun p => chain x join? item (c a p.1) n p.2

theorem chain_eq (x : Expectation) (join? : Token → Option (α → α → α)) (item : Reader α) (a : α) :
    chain x join? item a = later x (peek fun t? =>
      match t?.bind join? with
      | none => ret a
      | some c => skip (bind item fun b => chain x join? item (c a b))) := by
  funext n s
  cases n with
  | zero => rfl
  | succ n =>
    rw [chain, later, peek]
    cases s.next?.bind join? <;> rfl

/-! ### Decided readings -/

/-- With any fuel, what begins with `ts` and has `t?` next is read by `f` as `a`, up to there,
or not at all. -/
def ReadsOnly (f : Reader α) (ts : List Token) (t? : Option Token) (a : α) : Prop :=
  ∀ ⦃n : Nat⦄ ⦃s r : TokenStream⦄ ⦃p : α × TokenStream⦄,
    s.Leaves ts r → r.next? = t? → f n s = .ok p → p = (a, r)

/-- With any fuel, what begins with `ts` and has `t?` next is not read by `f`. -/
def Refuses (f : Reader α) (ts : List Token) (t? : Option Token) : Prop :=
  ∀ ⦃n : Nat⦄ ⦃s r : TokenStream⦄ ⦃p : α × TokenStream⦄,
    s.Leaves ts r → r.next? = t? → f n s ≠ .ok p

/-- If `f` reads the stream, the tokens it takes and the next one decide what is read. -/
def Settles (f : Reader α) (n : Nat) (s : TokenStream) : Prop :=
  ∀ ⦃a : α⦄ ⦃m : TokenStream⦄, f n s = .ok (a, m) → ∃ ts, s.Leaves ts m ∧ f.ReadsOnly ts m.next? a

/-- If `f` does not read the stream, it reports the token behind some tokens with the property
`P`; these tokens and the reported one decide that nothing is read, unless they are an
exception of the kind `X`. -/
def Locates (f : Reader α) (n : Nat) (s : TokenStream) (P : List Token → Prop)
    (X : List Token → Option Token → Prop) : Prop :=
  ∀ ⦃e : SyntaxError⦄, f n s = .error e → ∃ ts r x, s.Leaves ts r ∧ e = r.unexpected x ∧ P ts ∧
    (f.Refuses ts r.next? ∨ X ts r.next?)

/-- There are no exceptions. -/
def Never (_ : List Token) (_ : Option Token) : Prop := False

variable {f : Reader α} {g : α → Reader β} {n : Nat} {s m : TokenStream} {t : Token}
  {t? : Option Token} {ts us : List Token} {a : α} {b : β} {x : Expectation}

theorem ReadsOnly.bind (hf : f.ReadsOnly ts m.next? a) (hm : m.Leaves us s)
    (hg : (g a).ReadsOnly us s.next? b) : (f.bind g).ReadsOnly (ts ++ us) s.next? b := by
  intro n s' r p hs' hr h
  obtain ⟨m', hm', hr'⟩ := leaves_append.mp hs'
  obtain ⟨q, hq, h⟩ := bind_eq_ok h
  obtain rfl := hf hm' (hm.next?_eq hr' hr) hq
  exact hg hr' hr h

theorem Refuses.bind_left (hf : f.Refuses ts t?) (g : α → Reader β) :
    (f.bind g).Refuses ts t? := by
  intro n s r p hs hr h
  obtain ⟨q, hq, -⟩ := bind_eq_ok h
  exact hf hs hr hq

theorem Refuses.bind_right (hf : f.ReadsOnly ts m.next? a) (hm : m.Leaves us s)
    (hg : (g a).Refuses us s.next?) : (f.bind g).Refuses (ts ++ us) s.next? := by
  intro n s' r p hs' hr h
  obtain ⟨m', hm', hr'⟩ := leaves_append.mp hs'
  obtain ⟨q, hq, h⟩ := bind_eq_ok h
  obtain rfl := hf hm' (hm.next?_eq hr' hr) hq
  exact hg hr' hr h

/-! ### Rules for successes -/

namespace Settles

theorem ret (a : α) (n : Nat) (s : TokenStream) : (Reader.ret a).Settles n s := by
  rintro _ _ ⟨⟩
  refine ⟨[], .nil, ?_⟩
  rintro n s' r p ⟨⟩ - ⟨⟩
  rfl

theorem fail (x : Expectation) (n : Nat) (s : TokenStream) :
    (Reader.fail x : Reader α).Settles n s := nofun

theorem later (h : f.Settles n s) : (f.later x).Settles (n + 1) s := by
  intro a m hok
  obtain ⟨ts, hts, hread⟩ := h hok
  refine ⟨ts, hts, ?_⟩
  rintro (_ | n) s' r p hs' hr h
  · cases h
  · exact hread hs' hr h

theorem peek {f : Option Token → Reader α} (h : ∀ t?, s.next? = t? → (f t?).Settles n s) :
    (Reader.peek f).Settles n s := by
  intro a m hok
  obtain ⟨ts, hts, hread⟩ := h _ rfl hok
  refine ⟨ts, hts, ?_⟩
  intro n s' r p hs' hr h
  rw [Reader.peek, hts.next?_eq hs' hr] at h
  exact hread hs' hr h

theorem skip (ht : s.next? = some t) (h : f.Settles n s.rest) : f.skip.Settles n s := by
  intro a m hok
  obtain ⟨ts, hts, hread⟩ := h hok
  refine ⟨t :: ts, .cons ht hts, ?_⟩
  intro n s' r p hs' hr h
  exact hread (leaves_cons.mp hs').2 hr h

theorem expect (h : f.Settles n s.rest) : (f.expect t).Settles n s := by
  intro a m hok
  obtain ⟨m', hm', hok⟩ := bind_eq_ok hok
  obtain ⟨ht, rfl⟩ := leaves_singleton.mp (expect_eq_ok_iff.mp hm')
  obtain ⟨ts, hts, hread⟩ := h hok
  refine ⟨t :: ts, .cons ht hts, ?_⟩
  intro n s' r p hs' hr h
  obtain ⟨m, hm, h⟩ := bind_eq_ok h
  obtain ⟨-, rfl⟩ := leaves_singleton.mp (expect_eq_ok_iff.mp hm)
  exact hread (leaves_cons.mp hs').2 hr h

theorem bind (hf : f.Settles n s) (hg : ∀ a m, (g a).Settles n m) :
    (f.bind g).Settles n s := by
  intro b r hok
  obtain ⟨⟨a, m⟩, hm, hok⟩ := bind_eq_ok hok
  obtain ⟨ts, hts, hread⟩ := hf hm
  obtain ⟨us, hus, hread'⟩ := hg a m hok
  exact ⟨ts ++ us, hts.append hus, hread.bind hus hread'⟩

theorem chain {join? : Token → Option (α → α → α)}
    (hitem : ∀ k < n, ∀ s, f.Settles k s) (a : α) (s : TokenStream) :
    (Reader.chain x join? f a).Settles n s := by
  induction n generalizing a s with
  | zero => exact nofun
  | succ n ih =>
    rw [chain_eq]
    refine later (peek fun t? ht => ?_)
    cases t? with
    | none => exact ret a n s
    | some t =>
      dsimp only [Option.bind_some]
      cases join? t with
      | none => exact ret a n s
      | some c =>
        refine skip ht (bind (hitem n (Nat.lt_succ_self n) _) fun b m => ?_)
        exact ih (fun k hk => hitem k (Nat.lt_succ_of_lt hk)) (c a b) m

end Settles

/-! ### Rules for failures -/

namespace Locates

variable {P P' : List Token → Prop} {X X' : List Token → Option Token → Prop}

theorem imp (h : f.Locates n s P X) (hP : ∀ ts, P ts → P' ts)
    (hX : ∀ ts t?, X ts t? → X' ts t?) : f.Locates n s P' X' := by
  intro e herror
  obtain ⟨ts, r, x, hts, he, hts', hdecided⟩ := h herror
  exact ⟨ts, r, x, hts, he, hP ts hts', hdecided.imp_right (hX ts _)⟩

theorem mono (h : f.Locates n s P X) (hP : ∀ {ts}, P ts → P' ts) : f.Locates n s P' X :=
  h.imp (fun _ => hP) fun _ _ => id

theorem of_never (h : f.Locates n s P Never) : f.Locates n s P X :=
  h.imp (fun _ => id) fun _ _ => False.elim

theorem exists_refuses {e : SyntaxError} (h : f.Locates n s P Never) (herror : f n s = .error e) :
    ∃ ts r x, s.Leaves ts r ∧ e = r.unexpected x ∧ P ts ∧ f.Refuses ts r.next? := by
  obtain ⟨ts, r, x, hts, he, hP, hdecided⟩ := h herror
  exact ⟨ts, r, x, hts, he, hP, hdecided.resolve_right id⟩

theorem ret (a : α) : (Reader.ret a).Locates n s P X := nofun

theorem fail (hP : P []) : (Reader.fail x : Reader α).Locates n s P X := by
  rintro e ⟨⟩
  exact ⟨[], s, x, .nil, rfl, hP, .inl nofun⟩

theorem later (h : f.Locates n s P X) : (f.later x).Locates (n + 1) s P X := by
  intro e herror
  obtain ⟨ts, r, y, hts, he, hP, hdecided⟩ := h herror
  refine ⟨ts, r, y, hts, he, hP, hdecided.imp_left ?_⟩
  rintro hrefuses (_ | n) s' r' p hs' hr h
  · cases h
  · exact hrefuses hs' hr h

theorem peek {f : Option Token → Reader α} (h : ∀ t?, s.next? = t? → (f t?).Locates n s P X) :
    (Reader.peek f).Locates n s P X := by
  intro e herror
  obtain ⟨ts, r, y, hts, he, hP, hdecided⟩ := h _ rfl herror
  refine ⟨ts, r, y, hts, he, hP, hdecided.imp_left ?_⟩
  intro hrefuses n s' r' p hs' hr h
  rw [Reader.peek, hts.next?_eq hs' hr] at h
  exact hrefuses hs' hr h

theorem skip (ht : s.next? = some t)
    (h : f.Locates n s.rest (fun ts => P (t :: ts)) fun ts => X (t :: ts)) :
    f.skip.Locates n s P X := by
  intro e herror
  obtain ⟨ts, r, y, hts, he, hP, hdecided⟩ := h herror
  refine ⟨t :: ts, r, y, .cons ht hts, he, hP, hdecided.imp_left ?_⟩
  intro hrefuses n s' r' p hs' hr h
  exact hrefuses (leaves_cons.mp hs').2 hr h

theorem expect (hP : P []) (h : s.next? = some t →
      f.Locates n s.rest (fun ts => P (t :: ts)) fun ts => X (t :: ts)) :
    (f.expect t).Locates n s P X := by
  intro e herror
  by_cases ht : s.next? = some t
  · have hrest : s.expect t = .ok s.rest := expect_eq_ok_iff.mpr (.cons ht .nil)
    rw [Reader.expect, hrest, ok_bind] at herror
    obtain ⟨ts, r, y, hts, he, hP', hdecided⟩ := h ht herror
    refine ⟨t :: ts, r, y, .cons ht hts, he, hP', hdecided.imp_left ?_⟩
    intro hrefuses n s' r' p hs' hr h
    obtain ⟨m, hm, h⟩ := bind_eq_ok h
    obtain ⟨-, rfl⟩ := leaves_singleton.mp (expect_eq_ok_iff.mp hm)
    exact hrefuses (leaves_cons.mp hs').2 hr h
  · rw [Reader.expect, expect_eq_error ht] at herror
    cases herror
    refine ⟨[], s, .token t, .nil, rfl, hP, .inl ?_⟩
    rintro n s' r' p ⟨⟩ hr h
    obtain ⟨m, hm, -⟩ := bind_eq_ok h
    exact ht (hr.symm.trans (leaves_singleton.mp (expect_eq_ok_iff.mp hm)).1)

/-- Behind what was read by `f`, with the property `Q`, the rest fails as `g` does. -/
theorem bind {Q : α → List Token → Prop} (hsettles : f.Settles n s)
    (hsound : ∀ {a m}, f n s = .ok (a, m) → ∃ ts, s.Leaves ts m ∧ Q a ts)
    (hf : f.Locates n s P X)
    (hg : ∀ {a m ts}, s.Leaves ts m → Q a ts →
      (g a).Locates n m (fun us => P (ts ++ us)) fun us => X (ts ++ us)) :
    (f.bind g).Locates n s P X := by
  intro e herror
  rcases bind_eq_error herror with herror | ⟨⟨a, m⟩, hok, herror⟩
  · obtain ⟨ts, r, y, hts, he, hP, hdecided⟩ := hf herror
    exact ⟨ts, r, y, hts, he, hP, hdecided.imp_left (·.bind_left g)⟩
  · obtain ⟨ts, hts, hread⟩ := hsettles hok
    obtain ⟨ts', hts', hQ⟩ := hsound hok
    obtain rfl := hts.unique hts'
    obtain ⟨us, r, y, hus, he, hP, hdecided⟩ := hg hts hQ herror
    refine ⟨ts ++ us, r, y, hts.append hus, he, hP, hdecided.imp_left ?_⟩
    exact Refuses.bind_right hread hus

/-- Further operands of a chain.  What is in front of an operand has the property `R`, an operand
has the property `Q`, and what is read of one that fails has the property `B`. -/
theorem chain {join? : Token → Option (α → α → α)} {R Q : α → List Token → Prop}
    {B : List Token → Prop} {Y : List Token → Option Token → Prop} {d : Nat} (hd : d ≤ 8)
    (hsettles : ∀ k < n, ∀ s, f.Settles k s)
    (hsound : ∀ {k s a m}, f k s = .ok (a, m) → ∃ ts, s.Leaves ts m ∧ Q a ts)
    (hitem : ∀ k < n, ∀ s, 8 * s.lexemes.length + d ≤ k → f.Locates k s B Y)
    (hR : ∀ {a b t c ts us}, R a ts → join? t = some c → Q b us → R (c a b) (ts ++ t :: us))
    (hB : ∀ {a t c ts us}, R a ts → join? t = some c → B us → P (ts ++ t :: us))
    (hY : ∀ {t c us t?} (ts : List Token), join? t = some c → Y us t? → X (ts ++ t :: us) t?)
    (ha : R a ts) (hfuel : 8 * s.lexemes.length < n) :
    (Reader.chain x join? f a).Locates n s (fun us => P (ts ++ us)) fun us => X (ts ++ us) := by
  induction n generalizing a ts s with
  | zero => exact absurd hfuel (Nat.not_lt_zero _)
  | succ n ih =>
    rw [chain_eq]
    refine later (peek fun t? ht => ?_)
    cases t? with
    | none => exact ret a
    | some t =>
      dsimp only [Option.bind_some]
      cases hjoin : join? t with
      | none => exact ret a
      | some c =>
        have hlength := length_rest ht
        have hlt := Nat.lt_succ_self n
        refine skip ht (bind (hsettles n hlt _) hsound
          ((hitem n hlt _ (by omega)).imp (fun us => hB ha hjoin) fun us t? => hY ts hjoin) ?_)
        intro b m us hus hb
        have hrest := ih (fun k hk => hsettles k (Nat.lt_succ_of_lt hk))
          (fun k hk => hitem k (Nat.lt_succ_of_lt hk)) (hR ha hjoin hb)
          (s := m) (by have := hus.length_eq; omega)
        simpa only [List.append_assoc, List.cons_append] using hrest

/-- The operands of a chain, from the first one on. -/
theorem operands {join? : Token → Option (α → α → α)} (R : α → List Token → Prop)
    {Q : α → List Token → Prop} {B : List Token → Prop} {Y : List Token → Option Token → Prop}
    {d : Nat} (hd : d ≤ 8) (hsettles : ∀ k s, f.Settles k s)
    (hsound : ∀ {k s a m}, f k s = .ok (a, m) → ∃ ts, s.Leaves ts m ∧ Q a ts)
    (hitem : ∀ k ≤ n, ∀ s, 8 * s.lexemes.length + d ≤ k → f.Locates k s B Y)
    (hQ : ∀ {a ts}, Q a ts → R a ts) (hP : ∀ {ts}, B ts → P ts)
    (hX : ∀ {ts t?}, Y ts t? → X ts t?)
    (hR : ∀ {a b t c ts us}, R a ts → join? t = some c → Q b us → R (c a b) (ts ++ t :: us))
    (hB : ∀ {a t c ts us}, R a ts → join? t = some c → B us → P (ts ++ t :: us))
    (hY : ∀ {t c us t?} (ts : List Token), join? t = some c → Y us t? → X (ts ++ t :: us) t?)
    (hfuel : 8 * s.lexemes.length + d ≤ n) (hpos : 0 < d) :
    ((f.bind (Reader.chain x join? f)).later x).Locates (n + 1) s P X := by
  refine later (bind (hsettles n s) hsound ((hitem n n.le_refl s hfuel).imp (fun _ => hP)
    fun _ _ => hX) ?_)
  intro a m ts hts ha
  have hlength := hts.length_eq
  exact chain (R := R) hd (fun k _ => hsettles k) hsound (fun k hk => hitem k (Nat.le_of_lt hk))
    hR hB hY (hQ ha) (by omega)

end Locates

end Reader

end Reading

end SignAnalysis
