/-
Stores: what is known of each variable.

A store is a table from variables to signs, kept in ascending order of the
names, so that two stores with the same entries are equal and a listing needs
no sorting.  The view of a store is `Store.get?`:

* `Store.get?_insert` — setting a variable changes that variable alone;
* `Store.get?_declare` — declaring a variable keeps a sign that is there;
* `Store.get?_join` — joining two stores joins the signs of the variables that
  both know;
* `Store.ext_get?` — a store is determined by its view.

Names are compared by code points.
-/
import SignAnalysis.Marker.Sign

namespace SignAnalysis

/-- The name of a variable. -/
abbrev Var := String

namespace Store

/-- Sets `x` in a list of entries in ascending order. -/
def insertEntry (x : Var) (m : Sign) : List (Var × Sign) → List (Var × Sign)
  | [] => [(x, m)]
  | (y, n) :: rest =>
    if x < y then (x, m) :: (y, n) :: rest
    else if x = y then (x, m) :: rest
    else (y, n) :: insertEntry x m rest

/-- The entries are in strictly ascending order of their names. -/
abbrev Ascending (entries : List (Var × Sign)) : Prop :=
  entries.Pairwise fun a b => a.1 < b.1

theorem mem_insertEntry {x : Var} {m : Sign} {a : Var × Sign} {l : List (Var × Sign)}
    (h : a ∈ insertEntry x m l) : a = (x, m) ∨ a ∈ l := by
  induction l with
  | nil => simpa [insertEntry] using h
  | cons b rest ih =>
    unfold insertEntry at h
    split at h
    · simpa using h
    · split at h
      · rcases List.mem_cons.mp h with h | h
        · exact .inl h
        · exact .inr (List.mem_cons_of_mem _ h)
      · rcases List.mem_cons.mp h with h | h
        · exact .inr (h ▸ List.mem_cons_self ..)
        · exact (ih h).imp_right (List.mem_cons_of_mem _)

theorem ascending_insertEntry (x : Var) (m : Sign) {l : List (Var × Sign)}
    (h : Ascending l) : Ascending (insertEntry x m l) := by
  induction l with
  | nil => simp [insertEntry, Ascending]
  | cons b rest ih =>
    obtain ⟨hb, hrest⟩ := List.pairwise_cons.mp h
    unfold insertEntry
    split
    · rename_i hlt
      refine List.pairwise_cons.mpr ⟨fun a ha => ?_, h⟩
      rcases List.mem_cons.mp ha with rfl | ha
      · exact hlt
      · exact String.lt_trans hlt (hb a ha)
    · rename_i hnlt
      split
      · rename_i heq
        exact List.pairwise_cons.mpr ⟨fun a ha => heq ▸ hb a ha, hrest⟩
      · rename_i hne
        refine List.pairwise_cons.mpr ⟨fun a ha => ?_, ih hrest⟩
        rcases mem_insertEntry ha with rfl | ha
        · have := Std.lt_trichotomy x b.1
          grind
        · exact hb a ha

end Store

/-- A table from variables to signs, in ascending order of the names. -/
structure Store where
  entries : List (Var × Sign)
  ascending : Store.Ascending entries
deriving DecidableEq

namespace Store

/-- The store that knows no variable. -/
def empty : Store := ⟨[], .nil⟩

instance : Inhabited Store := ⟨empty⟩

/-- The sign of a variable, if the store knows it. -/
def get? (s : Store) (x : Var) : Option Sign := s.entries.lookup x

/-- The sign of a variable; one that the store does not know is uninitialised. -/
def get (s : Store) (x : Var) : Sign := (s.get? x).getD .uninitialized

/-- The variables that the store knows. -/
def names (s : Store) : List Var := s.entries.map (·.1)

/-- Sets the sign of a variable. -/
def insert (s : Store) (x : Var) (m : Sign) : Store :=
  ⟨insertEntry x m s.entries, ascending_insertEntry x m s.ascending⟩

/-- Makes a variable known, as uninitialised, unless it is known already. -/
def declare (s : Store) (x : Var) : Store :=
  if (s.get? x).isSome then s else s.insert x .uninitialized

/-- Joins a sign onto what is known of a variable. -/
def joinAt (s : Store) (x : Var) (m : Sign) : Store :=
  s.insert x (((s.get? x).map (Marker.join · m)).getD m)

/-- Joins all entries of another store. -/
def join (s t : Store) : Store :=
  t.entries.foldl (fun s e => s.joinAt e.1 e.2) s

/-- The entries as listings write them, between braces. -/
def text (s : Store) : String :=
  "\x7b" ++ ", ".intercalate (s.entries.map fun e => e.1 ++ "=" ++ e.2.text) ++ "\x7d"

/-! ### The view -/

theorem lookup_cons (x : Var) (a : Var × Sign) (l : List (Var × Sign)) :
    (a :: l).lookup x = if x = a.1 then some a.2 else l.lookup x := by
  obtain ⟨y, m⟩ := a
  by_cases h : x = y
  · simp [h]
  · simp [List.lookup_cons, beq_eq_false_iff_ne.mpr h, h]

theorem lookup_insertEntry (x y : Var) (m : Sign) (l : List (Var × Sign)) :
    (insertEntry x m l).lookup y = if y = x then some m else l.lookup y := by
  induction l with
  | nil => simp [insertEntry, lookup_cons]
  | cons b rest ih =>
    unfold insertEntry
    split
    · simp [lookup_cons]
    · split
      · rename_i heq
        subst heq
        by_cases h : y = b.1 <;> simp [lookup_cons, h]
      · rename_i hne
        by_cases hb : y = b.1
        · subst hb
          simp [lookup_cons, Ne.symm hne]
        · simp [lookup_cons, hb, ih]

@[simp] theorem get?_empty (x : Var) : empty.get? x = none := rfl

theorem get?_insert (s : Store) (x y : Var) (m : Sign) :
    (s.insert x m).get? y = if y = x then some m else s.get? y :=
  lookup_insertEntry x y m s.entries

theorem get?_declare (s : Store) (x y : Var) :
    (s.declare x).get? y =
      if y = x then some ((s.get? x).getD .uninitialized) else s.get? y := by
  unfold declare
  split
  · rename_i h
    split
    · rename_i hy
      obtain ⟨m, hm⟩ := Option.isSome_iff_exists.mp h
      simp [hy, hm]
    · rfl
  · rename_i h
    have hn : s.get? x = none := by simpa using h
    rw [get?_insert, hn]
    rfl

theorem get?_joinAt (s : Store) (x y : Var) (m : Sign) :
    (s.joinAt x m).get? y =
      (s.get? y).merge Marker.join (if y = x then some m else none) := by
  unfold joinAt
  rw [get?_insert]
  by_cases h : y = x
  · subst h
    cases s.get? y <;> simp
  · simp [h]

theorem get_insert (s : Store) (x y : Var) (m : Sign) :
    (s.insert x m).get y = if y = x then m else s.get y := by
  unfold get
  rw [get?_insert]
  split <;> rfl

/-- Declaring a variable changes the sign of none. -/
@[simp] theorem get_declare (s : Store) (x y : Var) : (s.declare x).get y = s.get y := by
  unfold get
  rw [get?_declare]
  split
  · rename_i h
    rw [h]
    rfl
  · rfl

theorem lookup_eq_none_of_lt {x : Var} {l : List (Var × Sign)} (h : ∀ a ∈ l, x < a.1) :
    l.lookup x = none := by
  induction l with
  | nil => rfl
  | cons a l ih =>
    have hne : x ≠ a.1 := fun heq =>
      String.lt_irrefl a.1 (heq ▸ h a (List.mem_cons_self ..))
    rw [lookup_cons, if_neg hne, ih fun b hb => h b (List.mem_cons_of_mem _ hb)]

theorem get?_foldl_joinAt {l : List (Var × Sign)} (hl : Ascending l) (s : Store) (x : Var) :
    (l.foldl (fun s e => s.joinAt e.1 e.2) s).get? x =
      (s.get? x).merge Marker.join (l.lookup x) := by
  induction l generalizing s with
  | nil => simp
  | cons a l ih =>
    obtain ⟨ha, hl⟩ := List.pairwise_cons.mp hl
    rw [List.foldl_cons, ih hl, get?_joinAt, lookup_cons]
    by_cases hx : x = a.1
    · rw [if_pos hx, if_pos hx, lookup_eq_none_of_lt fun b hb => hx ▸ ha b hb]
      simp
    · rw [if_neg hx, if_neg hx]
      simp

theorem get?_join (s t : Store) (x : Var) :
    (s.join t).get? x = (s.get? x).merge Marker.join (t.get? x) :=
  get?_foldl_joinAt t.ascending s x

theorem eq_of_lookup_eq {l k : List (Var × Sign)} (hl : Ascending l) (hk : Ascending k)
    (h : ∀ x, l.lookup x = k.lookup x) : l = k := by
  induction l generalizing k with
  | nil =>
    cases k with
    | nil => rfl
    | cons b k => simpa [lookup_cons] using h b.1
  | cons a l ih =>
    cases k with
    | nil => simpa [lookup_cons] using h a.1
    | cons b k =>
      obtain ⟨ha, hl⟩ := List.pairwise_cons.mp hl
      obtain ⟨hb, hk⟩ := List.pairwise_cons.mp hk
      -- a name below all of a table is not in it, so the first names agree
      have below {c d : Var × Sign} {k : List (Var × Sign)} (hd : ∀ e ∈ k, d.1 < e.1)
          (hcd : c.1 < d.1) : (d :: k).lookup c.1 = none :=
        lookup_eq_none_of_lt fun e he => by
          rcases List.mem_cons.mp he with rfl | he
          · exact hcd
          · exact String.lt_trans hcd (hd e he)
      have hname : a.1 = b.1 := by
        rcases Std.lt_trichotomy a.1 b.1 with hlt | heq | hlt
        · simpa [lookup_cons, below hb hlt] using h a.1
        · exact heq
        · simpa [lookup_cons, below ha hlt] using (h b.1).symm
      have hsign : a.2 = b.2 := by
        simpa [lookup_cons, hname] using h a.1
      have htail : l = k := by
        refine ih hl hk fun x => ?_
        by_cases hx : x = a.1
        · subst hx
          rw [lookup_eq_none_of_lt ha, lookup_eq_none_of_lt fun e he => hname ▸ hb e he]
        · simpa [lookup_cons, hx, hname ▸ hx] using h x
      rw [htail, Prod.ext hname hsign]

/-- A store is determined by what it says of each variable. -/
theorem ext_get? {s t : Store} (h : ∀ x, s.get? x = t.get? x) : s = t := by
  obtain ⟨l, hl⟩ := s
  obtain ⟨k, hk⟩ := t
  have heq : l = k := eq_of_lookup_eq hl hk h
  subst heq
  rfl

end Store

end SignAnalysis
