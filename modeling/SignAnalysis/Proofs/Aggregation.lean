/-
Findings as joins over a set.

Findings are folded from a list of configurations, but what they say can be told of the
set of these configurations alone: which variables are known at a point, and of which
markers each value there is the least upper bound.

* `Store.Joins` — a store says of its variables what some stores say together;
* `Findings.Describes` — the findings say of every point what the configurations of a
  set say together;
* `Findings.Describes.unique` — a set has one description;
* `Findings.ofConfigurations_exact` — the findings of a list are the description of the
  set of its members, whatever their order and number.
-/
import SignAnalysis.Findings
import SignAnalysis.Proofs.Lattice

namespace SignAnalysis

/-! ### What a configuration is about to do -/

theorem Instruction.isStore_iff {i : Instruction} :
    i.isStore = true ↔ ∃ p x, i = .basic p (.store x) := by
  unfold isStore
  split
  · simp
  · rename_i hne
    simpa using hne

theorem Instruction.isBranch_iff {i : Instruction} :
    i.isBranch = true ↔ ∃ p yes no, i = .branch p yes no := by
  unfold isBranch
  split
  · simp
  · rename_i hne
    simpa using hne

namespace Configuration

/-- The configuration is about to store `m` at the point `p`. -/
def Stores (c : Configuration) (p : Nat) (m : Sign) : Prop :=
  ∃ x rest st, c.code = .basic p (.store x) :: rest ∧ c.stack = .int m :: st

/-- The configuration is about to test the guard `g` at the point `p`. -/
def Tests (c : Configuration) (p : Nat) (g : Truth) : Prop :=
  ∃ yes no rest st, c.code = .branch p yes no :: rest ∧ c.stack = .bool g :: st

theorem stores_iff {c : Configuration} {p : Nat} {m : Sign} (last : Nat) :
    c.Stores p m ↔ c.pointOr last = p ∧ c.storing? = some m := by
  constructor
  · rintro ⟨x, rest, st, hcode, hstack⟩
    simp [pointOr, point?, storing?, head?, hcode, hstack, Instruction.point, Instruction.isStore]
  · rintro ⟨hp, hm⟩
    unfold storing? at hm
    split at hm
    · rename_i i n st hi hstack
      split at hm
      · rename_i hstore
        obtain ⟨q, x, rfl⟩ := Instruction.isStore_iff.mp hstore
        obtain ⟨rest, hcode⟩ := List.head?_eq_some_iff.mp hi
        cases hm
        rw [pointOr, point?, hi] at hp
        exact ⟨x, rest, st, hp ▸ hcode, hstack⟩
      · cases hm
    · cases hm

theorem tests_iff {c : Configuration} {p : Nat} {g : Truth} (last : Nat) :
    c.Tests p g ↔ c.pointOr last = p ∧ c.testing? = some g := by
  constructor
  · rintro ⟨yes, no, rest, st, hcode, hstack⟩
    simp [pointOr, point?, testing?, head?, hcode, hstack, Instruction.point, Instruction.isBranch]
  · rintro ⟨hp, hg⟩
    unfold testing? at hg
    split at hg
    · rename_i i n st hi hstack
      split at hg
      · rename_i hbranch
        obtain ⟨q, yes, no, rfl⟩ := Instruction.isBranch_iff.mp hbranch
        obtain ⟨rest, hcode⟩ := List.head?_eq_some_iff.mp hi
        cases hg
        rw [pointOr, point?, hi] at hp
        exact ⟨yes, no, rest, st, hp ▸ hcode, hstack⟩
      · cases hg
    · cases hg

end Configuration

/-! ### Stores -/

namespace Store

/-- The signs that some stores have for a variable. -/
def signs (S : Set Store) (x : Var) : Set Sign := {m | ∃ σ ∈ S, σ.get? x = some m}

/-- The store knows the variables that the stores of `K` know, and of each it says what the
stores of `S` say together. -/
structure Joins (K S : Set Store) (σ : Store) : Prop where
  known_iff : ∀ x, (σ.get? x).isSome = true ↔ ∃ τ ∈ K, (τ.get? x).isSome = true
  sign : ∀ x m, σ.get? x = some m → Marker.Joins (signs S x) m

/-- The entry of a table for a variable whose signs are joined: there is none if there are
no signs. -/
inductive JoinsTo (S : Set Sign) : Option Sign → Prop
  | none (hempty : S = ∅) : JoinsTo S none
  | some {m : Sign} (hne : S.Nonempty) (hlub : IsLUB S m) : JoinsTo S (some m)

theorem signs_nonempty_iff {S : Set Store} {x : Var} :
    (signs S x).Nonempty ↔ ∃ σ ∈ S, (σ.get? x).isSome = true := by
  constructor
  · rintro ⟨m, σ, hσ, hm⟩
    exact ⟨σ, hσ, hm ▸ rfl⟩
  · rintro ⟨σ, hσ, hx⟩
    obtain ⟨m, hm⟩ := Option.isSome_iff_exists.mp hx
    exact ⟨m, σ, hσ, hm⟩

theorem mem_names {σ : Store} {x : Var} : x ∈ σ.names ↔ (σ.get? x).isSome = true := by
  rw [names, get?, List.mem_map]
  induction σ.entries with
  | nil => simp
  | cons a l ih =>
    rw [lookup_cons]
    by_cases hx : x = a.1
    · simp [hx]
    · simp [hx, Ne.symm hx]

theorem get?_of_mem {σ : Store} {e : Var × Sign} (he : e ∈ σ.entries) :
    σ.get? e.1 = some e.2 := by
  obtain ⟨l, hl⟩ := σ
  show l.lookup e.1 = some e.2
  induction l with
  | nil => cases he
  | cons a l ih =>
    obtain ⟨ha, hl⟩ := List.pairwise_cons.mp hl
    rw [lookup_cons]
    rcases List.mem_cons.mp he with rfl | he
    · exact if_pos rfl
    · have hne : e.1 ≠ a.1 := fun heq => String.lt_irrefl a.1 (heq ▸ ha e he)
      rw [if_neg hne, ih hl he]

theorem get?_foldl_declare (names : List Var) (σ : Store) (x : Var) :
    (names.foldl declare σ).get? x =
      if x ∈ names then some ((σ.get? x).getD .uninitialized) else σ.get? x := by
  induction names generalizing σ with
  | nil => rfl
  | cons y names ih =>
    rw [List.foldl_cons, ih, get?_declare]
    by_cases hy : x = y
    · subst hy
      simp
    · simp [hy]

theorem Joins.unique {K S : Set Store} {σ τ : Store} (hσ : Joins K S σ)
    (hτ : Joins K S τ) : σ = τ := by
  refine ext_get? ?_
  intro x
  have hknown : (σ.get? x).isSome = true ↔ (τ.get? x).isSome = true :=
    (hσ.known_iff x).trans (hτ.known_iff x).symm
  cases hm : σ.get? x with
  | none =>
    cases hn : τ.get? x with
    | none => rfl
    | some n => simp [hm, hn] at hknown
  | some m =>
    cases hn : τ.get? x with
    | none => simp [hm, hn] at hknown
    | some n => rw [(hσ.sign x m hm).unique (hτ.sign x n hn)]

theorem joinsTo_self (o : Option Sign) : JoinsTo {m | o = some m} o := by
  cases o with
  | none => exact .none (by simp)
  | some m =>
    have hset : {n | some m = some n} = {m} := by
      ext n
      simp [eq_comm]
    rw [hset]
    exact .some (Set.singleton_nonempty m) isLUB_singleton

theorem JoinsTo.merge {S T : Set Sign} {o u : Option Sign} (ho : JoinsTo S o) (hu : JoinsTo T u) :
    JoinsTo (S ∪ T) (o.merge Marker.join u) := by
  cases ho with
  | none hS =>
    rw [hS, Set.empty_union, Option.merge_none_left]
    exact hu
  | some hS hm =>
    cases hu with
    | none hT =>
      rw [hT, Set.union_empty, Option.merge_none_right]
      exact .some hS hm
    | some hT hn => exact .some hS.inl (hm.union hn)

end Store

/-! ### Findings -/

namespace Findings

/-- The stores of the configurations of a set that count for a point. -/
def storesAt (last : Nat) (S : Set Configuration) (p : Nat) : Set Store :=
  {σ | ∃ c ∈ S, c.pointOr last = p ∧ c.store = σ}

/-- The stores of the configurations of a set that count for any point at all. -/
def storesWithin (last : Nat) (S : Set Configuration) : Set Store :=
  {σ | ∃ c ∈ S, c.pointOr last ≤ last ∧ c.store = σ}

/-- The findings say of every point what the configurations of a set say together.  Each
counts for the point of its head, or for the last one if nothing remains, and those that
count for a point above the last one are left out.  The variables known at the last point
are known everywhere. -/
structure Describes (last : Nat) (S : Set Configuration) (f : Findings) : Prop where
  lastPoint : f.lastPoint = last
  length_points : f.points.length = last + 1
  store : ∀ p σ, f.store? p = some σ →
    σ.Joins (storesAt last S p ∪ storesAt last S last) (storesAt last S p)
  programVariables : f.programVariables.Joins (storesWithin last S) (storesWithin last S)
  rightHandSide : ∀ p,
    Summary.JoinsTo {m | p ≤ last ∧ ∃ c ∈ S, c.Stores p m} (f.rightHandSide? p)
  guard : ∀ p, Summary.JoinsTo {g | p ≤ last ∧ ∃ c ∈ S, c.Tests p g} (f.guard? p)
  normal : f.normal = true ↔ ∃ c ∈ S, c.code = [] ∧ c.exceptional = false
  exceptional : f.exceptional = true ↔ ∃ c ∈ S, c.code = [] ∧ c.exceptional = true

/-- There are tables for the points up to the last one. -/
theorem Describes.exists_store_iff {last : Nat} {S : Set Configuration} {f : Findings}
    (hf : Describes last S f) {p : Nat} : (∃ σ, f.store? p = some σ) ↔ p ≤ last := by
  rw [← Option.isSome_iff_exists, store?, Option.isSome_map, Option.isSome_iff_ne_none, ne_eq,
    List.getElem?_eq_none_iff, hf.length_points, Nat.not_le, Nat.lt_succ_iff]

theorem Describes.unique {last : Nat} {S : Set Configuration} {f g : Findings}
    (hf : Describes last S f) (hg : Describes last S g) : f = g := by
  have hpoints : f.points = g.points := by
    refine List.ext_getElem? ?_
    intro p
    have hrhs : f.rightHandSide? p = g.rightHandSide? p :=
      (hf.rightHandSide p).unique (hg.rightHandSide p)
    have hguard : f.guard? p = g.guard? p := (hf.guard p).unique (hg.guard p)
    by_cases hp : p < last + 1
    · obtain ⟨a, ha⟩ : ∃ a, f.points[p]? = some a :=
        ⟨_, List.getElem?_eq_getElem (hf.length_points ▸ hp)⟩
      obtain ⟨b, hb⟩ : ∃ b, g.points[p]? = some b :=
        ⟨_, List.getElem?_eq_getElem (hg.length_points ▸ hp)⟩
      have hstore : a.store = b.store :=
        (hf.store p a.store (by rw [store?, ha]; rfl)).unique
          (hg.store p b.store (by rw [store?, hb]; rfl))
      rw [rightHandSide?, rightHandSide?, ha, hb] at hrhs
      rw [guard?, guard?, ha, hb] at hguard
      rw [ha, hb]
      obtain ⟨σ, r, t⟩ := a
      obtain ⟨τ, r', t'⟩ := b
      cases hstore
      cases hrhs
      cases hguard
      rfl
    · rw [List.getElem?_eq_none (by rw [hf.length_points]; omega),
        List.getElem?_eq_none (by rw [hg.length_points]; omega)]
  have hlast : f.lastPoint = g.lastPoint := hf.lastPoint.trans hg.lastPoint.symm
  have hvariables : f.programVariables = g.programVariables :=
    hf.programVariables.unique hg.programVariables
  have hnormal : f.normal = g.normal := Bool.eq_iff_iff.mpr (hf.normal.trans hg.normal.symm)
  have hexceptional : f.exceptional = g.exceptional :=
    Bool.eq_iff_iff.mpr (hf.exceptional.trans hg.exceptional.symm)
  obtain ⟨l, ps, v, n, e⟩ := f
  cases hpoints
  cases hlast
  cases hvariables
  cases hnormal
  cases hexceptional
  rfl

/-! ### Findings of a list -/

/-- What a fold of joins says of a variable, from what the store said before. -/
theorem joinsTo_foldl_join (cs : List Configuration) {x : Var} {S : Set Sign} {σ : Store}
    (h : Store.JoinsTo S (σ.get? x)) :
    Store.JoinsTo (S ∪ Store.signs {τ | ∃ c ∈ cs, c.store = τ} x)
      ((cs.foldl (fun s c => s.join c.store) σ).get? x) := by
  induction cs generalizing S σ with
  | nil => simpa [Store.signs] using h
  | cons c cs ih =>
    have hset : S ∪ Store.signs {τ | ∃ d ∈ c :: cs, d.store = τ} x =
        S ∪ {m | c.store.get? x = some m} ∪ Store.signs {τ | ∃ d ∈ cs, d.store = τ} x := by
      ext m
      simp [Store.signs, or_assoc]
    rw [hset, List.foldl_cons]
    refine ih ?_
    rw [Store.get?_join]
    exact h.merge (Store.joinsTo_self _)

/-- The join of the stores of some configurations says what they say together. -/
theorem joins_joinStores (cs : List Configuration) :
    (joinStores cs).Joins {τ | ∃ c ∈ cs, c.store = τ} {τ | ∃ c ∈ cs, c.store = τ} := by
  have hjoins (x : Var) :
      Store.JoinsTo (Store.signs {τ | ∃ c ∈ cs, c.store = τ} x) ((joinStores cs).get? x) := by
    have hfold := joinsTo_foldl_join cs (x := x) (S := ∅) (σ := .empty) (.none rfl)
    rwa [Set.empty_union] at hfold
  constructor
  · intro x
    rw [← Store.signs_nonempty_iff]
    have hx := hjoins x
    generalize (joinStores cs).get? x = o at hx ⊢
    cases hx with
    | none hempty => simp [hempty]
    | some hne _ => exact iff_of_true rfl hne
  · intro x m hm
    have hx := hjoins x
    rw [hm] at hx
    cases hx with
    | some hne hlub => exact Marker.joins_of_isLUB hne hlub

section

variable {last p : Nat} (hp : p ≤ last) (cs : List Configuration)
include hp

theorem points_ofConfigurations :
    (ofConfigurations last cs).points[p]? = some (atPoint last cs p) := by
  rw [ofConfigurations, List.getElem?_map, List.getElem?_range (Nat.lt_succ_of_le hp)]
  rfl

theorem store?_ofConfigurations :
    (ofConfigurations last cs).store? p = some (atPoint last cs p).store := by
  rw [store?, points_ofConfigurations hp]
  rfl

theorem rightHandSide?_ofConfigurations :
    (ofConfigurations last cs).rightHandSide? p = (atPoint last cs p).rightHandSide := by
  rw [rightHandSide?, points_ofConfigurations hp]
  rfl

theorem guard?_ofConfigurations :
    (ofConfigurations last cs).guard? p = (atPoint last cs p).guard := by
  rw [guard?, points_ofConfigurations hp]
  rfl

end

theorem points_of_lt {last p : Nat} {cs : List Configuration} (hp : last < p) :
    (ofConfigurations last cs).points[p]? = none := by
  rw [ofConfigurations, List.getElem?_eq_none_iff, List.length_map, List.length_range]
  exact hp

variable (last : Nat) (cs : List Configuration)

theorem joins_countingFor (p : Nat) :
    (joinStores (countingFor last p cs)).Joins (storesAt last {c | c ∈ cs} p)
      (storesAt last {c | c ∈ cs} p) := by
  have hset : {τ | ∃ c ∈ countingFor last p cs, c.store = τ} = storesAt last {c | c ∈ cs} p := by
    ext τ
    simp [countingFor, storesAt, and_assoc]
  rw [← hset]
  exact joins_joinStores _

theorem joins_atPoint {p : Nat} (hp : p ≤ last) :
    (atPoint last cs p).store.Joins
      (storesAt last {c | c ∈ cs} p ∪ storesAt last {c | c ∈ cs} last)
      (storesAt last {c | c ∈ cs} p) := by
  have hhere := joins_countingFor last cs p
  have hfinal := joins_countingFor last cs last
  rw [atPoint]
  split_ifs with hlt
  · -- a variable that only configurations at the last point know is declared
    generalize joinStores (countingFor last p cs) = σ at hhere
    generalize joinStores (countingFor last last cs) = τ at hfinal
    constructor
    · intro x
      have hor : (∃ υ ∈ storesAt last {c | c ∈ cs} p ∪ storesAt last {c | c ∈ cs} last,
          (υ.get? x).isSome = true) ↔ (σ.get? x).isSome = true ∨ x ∈ τ.names := by
        rw [Store.mem_names, hhere.known_iff, hfinal.known_iff]
        simp only [Set.mem_union, or_and_right, exists_or]
      rw [hor, Store.get?_foldl_declare]
      split_ifs with hx
      · exact iff_of_true rfl (.inr hx)
      · exact (or_iff_left hx).symm
    · intro x m hm
      rw [Store.get?_foldl_declare] at hm
      split_ifs at hm with hx
      · cases hσ : σ.get? x with
        | some n =>
          rw [hσ] at hm
          cases hm
          exact hhere.sign x _ hσ
        | none =>
          rw [hσ] at hm
          cases hm
          have hempty : Store.signs (storesAt last {c | c ∈ cs} p) x = ∅ := by
            rw [← Set.not_nonempty_iff_eq_empty, Store.signs_nonempty_iff, ← hhere.known_iff, hσ]
            exact Bool.false_ne_true
          rw [hempty]
          exact Marker.joins_empty
      · exact hhere.sign x m hm
  · obtain rfl : p = last := by omega
    rw [Set.union_self]
    exact hhere

/-- The summary at a point is made of what the configurations that count for it are about
to do. -/
theorem joinsTo_counting {α : Type} [DecidableEq α] [Marker α] [Marker.Distinct α] {p : Nat}
    {g : Configuration → Option α} {P : Configuration → α → Prop}
    (hP : ∀ c m, P c m ↔ c.pointOr last = p ∧ g c = some m) :
    Summary.JoinsTo {m | ∃ c ∈ cs, P c m}
      (Summary.ofMarkers? ((countingFor last p cs).filterMap g)) := by
  have hset : {m | ∃ c ∈ cs, P c m} = {m | m ∈ (countingFor last p cs).filterMap g} := by
    ext m
    simp [countingFor, hP, and_assoc]
  rw [hset]
  exact Summary.joinsTo_ofMarkers? _

/-- Above the last point there is no summary. -/
theorem joinsTo_none {α : Type} [DecidableEq α] [Marker α] [Marker.Distinct α] {p : Nat}
    (hp : last < p) (P : α → Prop) : Summary.JoinsTo {m | p ≤ last ∧ P m} none where
  isSome_iff := by
    refine iff_of_false Bool.false_ne_true ?_
    rintro ⟨m, hle, -⟩
    omega
  joins s hs := by cases hs

theorem describes_ofConfigurations : Describes last {c | c ∈ cs} (ofConfigurations last cs) where
  lastPoint := rfl
  length_points := by
    rw [ofConfigurations, List.length_map, List.length_range]
  store p σ hσ := by
    by_cases hp : p ≤ last
    · rw [store?_ofConfigurations hp] at hσ
      cases hσ
      exact joins_atPoint last cs hp
    · rw [store?, points_of_lt (Nat.lt_of_not_le hp)] at hσ
      cases hσ
  programVariables := by
    have hjoins := joins_joinStores (cs.filter fun c => c.pointOr last ≤ last)
    simp only [List.mem_filter, decide_eq_true_eq, and_assoc] at hjoins
    exact hjoins
  rightHandSide p := by
    by_cases hp : p ≤ last
    · rw [rightHandSide?_ofConfigurations hp]
      simp only [hp, true_and, Set.mem_ofPred_eq]
      exact joinsTo_counting last cs fun c m => Configuration.stores_iff last
    · rw [rightHandSide?, points_of_lt (Nat.lt_of_not_le hp)]
      exact joinsTo_none last (Nat.lt_of_not_le hp) _
  guard p := by
    by_cases hp : p ≤ last
    · rw [guard?_ofConfigurations hp]
      simp only [hp, true_and, Set.mem_ofPred_eq]
      exact joinsTo_counting last cs fun c g => Configuration.tests_iff last
    · rw [guard?, points_of_lt (Nat.lt_of_not_le hp)]
      exact joinsTo_none last (Nat.lt_of_not_le hp) _
  normal := by
    simp [ofConfigurations, Configuration.isTerminal]
  exceptional := by
    simp [ofConfigurations, Configuration.isTerminal]

/-- The findings of a list of configurations are the one description of the set of its
members, and so do not depend on their order and number. -/
theorem ofConfigurations_exact :
    Describes last {c | c ∈ cs} (ofConfigurations last cs) ∧
      (∀ f, Describes last {c | c ∈ cs} f → f = ofConfigurations last cs) ∧
      ∀ ds, (∀ c, c ∈ ds ↔ c ∈ cs) → ofConfigurations last ds = ofConfigurations last cs := by
  refine ⟨describes_ofConfigurations last cs, ?_, ?_⟩
  · intro f hf
    exact hf.unique (describes_ofConfigurations last cs)
  · intro ds hmem
    have hset : {c | c ∈ ds} = {c | c ∈ cs} := Set.ext hmem
    have hds := describes_ofConfigurations last ds
    rw [hset] at hds
    exact hds.unique (describes_ofConfigurations last cs)

/-- A division by zero is about to be stored at the point 1. -/
def storingError : Configuration where
  store := Store.empty.insert "x" .error
  stack := [.int .error]
  code := [.basic 1 (.store "x")]
  exceptional := false
  tryDepth := 0
  exceptionDepth := 0

/-- The same assignment with a value. -/
def storingPositive : Configuration :=
  { storingError with store := Store.empty.insert "y" .negative, stack := [.int .positive] }

/-- The end of a run that knows a variable of its own. -/
def ended : Configuration :=
  { storingError with store := Store.empty.insert "z" .zero, stack := [], code := [] }

theorem exact_at_repeatedDivision :
    (∀ c, c ∈ [ended, storingError, storingPositive, storingError] ↔
      c ∈ [storingError, storingPositive, ended]) ∧
    ofConfigurations 2 [ended, storingError, storingPositive, storingError] =
      ofConfigurations 2 [storingError, storingPositive, ended] ∧
    (ofConfigurations 2 [storingError, storingPositive, ended]).rightHandSide? 1 =
      some ⟨.positive, true⟩ ∧
    ((ofConfigurations 2 [storingError, storingPositive, ended]).store? 1).map (·.entries) =
      some [("x", .error), ("y", .negative), ("z", .uninitialized)] := by
  have hmem : ∀ c, c ∈ [ended, storingError, storingPositive, storingError] ↔
      c ∈ [storingError, storingPositive, ended] := by
    intro c
    simp only [List.mem_cons, List.not_mem_nil, or_false]
    tauto
  refine ⟨hmem, (ofConfigurations_exact 2 _).2.2 _ hmem, ?_, ?_⟩
  · decide
  · decide +kernel

end Findings

end SignAnalysis
