/-
What findings say of the configurations that were met.

The findings of a complete search describe the configurations that can be reached, and
nothing that a join takes in is lost again:

* `Code.Yields.describes` — the findings of a complete search describe what can be
  reached;
* `Findings.Includes` — the findings take a configuration into account;
* `Code.Yields.includes` — the findings of a complete search take every reachable
  configuration into account.
-/
import SignAnalysis.Proofs.Aggregation
import SignAnalysis.Proofs.Covering
import SignAnalysis.Proofs.LastPoint

namespace SignAnalysis

/-! ### Complete searches -/

/-- A complete search of the code, without a limit, has these findings. -/
def Code.Yields (code : Code) (f : Findings) : Prop := ∃ fuel, code.analyse fuel none = some (.ok f)

theorem Code.yields_of_run_eq {code : Code} {fuel : Nat} {t : Search}
    (h : (Search.start code none).run fuel = (t, .finished)) : code.Yields t.findings :=
  ⟨fuel, by rw [Code.analyse, h]⟩

theorem Code.yields_of_run {code : Code} {fuel : Nat}
    (h : ((Search.start code none).run fuel).2 = .finished) :
    code.Yields ((Search.start code none).run fuel).1.findings :=
  yields_of_run_eq (by rw [← h])

/-- A complete search ends after some advances and has met what can be reached. -/
theorem Code.Yields.exists_after {code : Code} {f : Findings} (h : code.Yields f) :
    ∃ n, f = ((Search.start code none).after n).findings ∧
      ∀ c, c ∈ ((Search.start code none).after n).visited ↔
        (Configuration.initial code).Reachable c := by
  obtain ⟨fuel, h⟩ := h
  rw [Code.analyse] at h
  split at h
  · rename_i s hrun
    cases h
    have hvisited := Search.mem_visited_iff_of_run hrun
    obtain ⟨n, rfl, -, -⟩ := Search.exists_after_of_run_finished hrun
    exact ⟨n, rfl, hvisited⟩
  · cases h
  · cases h

/-- No configuration that was met counts for a point above the last one. -/
theorem Search.Capped.pointOr_le {s : Search} (h : s.Capped) (hlast : s.highest < s.lastPoint)
    {c : Configuration} (hc : c ∈ s.visited) : c.pointOr s.lastPoint ≤ s.lastPoint := by
  rw [Configuration.pointOr]
  -- with nothing left to execute, a configuration counts for the last point
  cases hp : c.point? with
  | none => exact Nat.le_refl _
  | some p => exact Nat.le_of_lt (Nat.lt_of_le_of_lt (h c hc p hp) hlast)

namespace Code.Yields

variable {code : Code} {f : Findings} (h : code.Yields f)
include h

/-- The findings of a complete search describe what can be reached. -/
theorem describes :
    f.Describes f.lastPoint {c | (Configuration.initial code).Reachable c} := by
  obtain ⟨n, rfl, hvisited⟩ := h.exists_after
  have hset : {c | c ∈ ((Search.start code none).after n).visited.toList} =
      {c | (Configuration.initial code).Reachable c} := Set.ext hvisited
  rw [← hset]
  exact Findings.describes_ofConfigurations _ _

/-- No configuration counts for a point above the last one, if the code has an end. -/
theorem pointOr_le (hend : code.HasEnd) {c : Configuration}
    (hc : (Configuration.initial code).Reachable c) : c.pointOr f.lastPoint ≤ f.lastPoint := by
  obtain ⟨n, rfl, hvisited⟩ := h.exists_after
  exact (Search.capped_after code none n).pointOr_le
    (Search.highest_lt_lastPoint_after none n hend) ((hvisited c).mpr hc)

/-- What the configurations that can be reached do at a point, they do within the last one. -/
theorem setOf_reachable_eq (hend : code.HasEnd) {α : Type} {P : Configuration → α → Prop}
    {p : Nat} (hP : ∀ c m, P c m → c.pointOr f.lastPoint = p) :
    {m | ∃ c, (Configuration.initial code).Reachable c ∧ P c m} =
      {m | p ≤ f.lastPoint ∧ ∃ c ∈ {c | (Configuration.initial code).Reachable c}, P c m} := by
  ext m
  refine ⟨?_, And.right⟩
  rintro ⟨c, hc, hm⟩
  exact ⟨hP c m hm ▸ h.pointOr_le hend hc, c, hc, hm⟩

/-- What is stored at a point, in terms of the configurations that can be reached. -/
theorem joinsTo_rightHandSide (hend : code.HasEnd) (p : Nat) :
    Summary.JoinsTo {m | ∃ c, (Configuration.initial code).Reachable c ∧ c.Stores p m}
      (f.rightHandSide? p) := by
  rw [h.setOf_reachable_eq hend fun c m hm => ((Configuration.stores_iff _).mp hm).1]
  exact h.describes.rightHandSide p

/-- What is tested at a point, in terms of the configurations that can be reached. -/
theorem joinsTo_guard (hend : code.HasEnd) (p : Nat) :
    Summary.JoinsTo {g | ∃ c, (Configuration.initial code).Reachable c ∧ c.Tests p g}
      (f.guard? p) := by
  rw [h.setOf_reachable_eq hend fun c g hg => ((Configuration.tests_iff _).mp hg).1]
  exact h.describes.guard p

/-- The variables of a program are those of all the configurations that can be reached. -/
theorem joins_programVariables (hend : code.HasEnd) :
    f.programVariables.Joins
      {σ | ∃ c, (Configuration.initial code).Reachable c ∧ c.store = σ}
      {σ | ∃ c, (Configuration.initial code).Reachable c ∧ c.store = σ} := by
  have hset : {σ | ∃ c, (Configuration.initial code).Reachable c ∧ c.store = σ} =
      Findings.storesWithin f.lastPoint {c | (Configuration.initial code).Reachable c} := by
    ext σ
    constructor
    · rintro ⟨c, hc, hσ⟩
      exact ⟨c, hc, h.pointOr_le hend hc, hσ⟩
    · rintro ⟨c, hc, -, hσ⟩
      exact ⟨c, hc, hσ⟩
  rw [hset]
  exact h.describes.programVariables

/-- The program may end without an exception exactly if a configuration with nothing left to
execute can be reached in which none is pending. -/
theorem normal_iff : f.normal = true ↔ ∃ c, (Configuration.initial code).Reachable c ∧
    c.isTerminal = true ∧ c.exceptional = false := by
  simp only [Configuration.isTerminal, List.isEmpty_iff]
  exact h.describes.normal

/-- The program may end with an exception exactly if a configuration with nothing left to
execute can be reached in which one is pending. -/
theorem exceptional_iff : f.exceptional = true ↔ ∃ c, (Configuration.initial code).Reachable c ∧
    c.isTerminal = true ∧ c.exceptional = true := by
  simp only [Configuration.isTerminal, List.isEmpty_iff]
  exact h.describes.exceptional

end Code.Yields

/-! ### What findings take into account -/

/-- The store says of `y` that it may be the integer `n`. -/
def Store.Claims (σ : Store) (y : Var) (n : Int) : Prop := ∃ m, σ.get? y = some m ∧ m.Covers n

theorem Store.claims_iff {σ : Store} {y : Var} {n : Int} : σ.Claims y n ↔ (σ.get y).Covers n := by
  unfold Claims get
  cases σ.get? y with
  | none => exact ⟨fun ⟨m, hm, _⟩ => (Option.some_ne_none m hm.symm).elim, False.elim⟩
  | some m =>
    constructor
    · rintro ⟨m', hm, hcov⟩
      cases hm
      exact hcov
    · exact fun hcov => ⟨m, rfl, hcov⟩

theorem Sign.Covers.mono {a b : Sign} {n : Int} (h : a.Covers n) (hab : a ≤ b) : b.Covers n := by
  have hjoin : Marker.join a b = b := sup_eq_right.mpr hab
  exact hjoin ▸ covers_join_left h b

theorem Truth.Covers.mono {a b : Truth} {v : Bool} (h : a.Covers v) (hab : a ≤ b) : b.Covers v := by
  have hjoin : Marker.join a b = b := sup_eq_right.mpr hab
  exact hjoin ▸ covers_join_left h b

/-- The findings take a configuration into account: the point it counts for covers its
store and what it is about to store or to test, and the ways to end cover its end. -/
structure Findings.Includes (f : Findings) (c : Configuration) : Prop where
  store : ∃ σ, f.store? (c.pointOr f.lastPoint) = some σ ∧
    ∀ y n, c.store.Claims y n → σ.Claims y n
  storing : ∀ m, c.storing? = some m →
    ∃ s, f.rightHandSide? (c.pointOr f.lastPoint) = some s ∧
      (m = .error → s.raises = true) ∧ ∀ n, m.Covers n → s.value.Covers n
  testing : ∀ g, c.testing? = some g →
    ∃ s, f.guard? (c.pointOr f.lastPoint) = some s ∧
      (g = .error → s.raises = true) ∧ ∀ b, g.Covers b → s.value.Covers b
  normal : c.isTerminal = true → c.exceptional = false → f.normal = true
  exceptional : c.isTerminal = true → c.exceptional = true → f.exceptional = true

/-- The findings of a complete search take every reachable configuration into account, if the
code has an end. -/
theorem Code.Yields.includes {code : Code} {f : Findings} (h : code.Yields f)
    (hend : code.HasEnd) {c : Configuration} (hc : (Configuration.initial code).Reachable c) :
    f.Includes c := by
  have hdescribes := h.describes
  have hle := h.pointOr_le hend hc
  constructor
  · obtain ⟨σ, hσ⟩ := hdescribes.exists_store_iff.mpr hle
    have hjoins := hdescribes.store _ σ hσ
    have hmem : c.store ∈ Findings.storesAt f.lastPoint
        {c | (Configuration.initial code).Reachable c} (c.pointOr f.lastPoint) :=
      ⟨c, hc, rfl, rfl⟩
    refine ⟨σ, hσ, ?_⟩
    rintro y n ⟨m, hm, hcov⟩
    have hknown : (σ.get? y).isSome = true :=
      (hjoins.known_iff y).mpr ⟨c.store, .inl hmem, hm ▸ rfl⟩
    obtain ⟨m', hm'⟩ := Option.isSome_iff_exists.mp hknown
    exact ⟨m', hm', hcov.mono ((hjoins.sign y m' hm').le ⟨c.store, hmem, hm⟩)⟩
  · intro m hm
    have hstores := (Configuration.stores_iff f.lastPoint).mpr ⟨rfl, hm⟩
    obtain ⟨s, hs, hraises, hvalue⟩ :=
      (h.joinsTo_rightHandSide hend _).exists_of_mem ⟨c, hc, hstores⟩
    refine ⟨s, hs, hraises, ?_⟩
    intro n hcov
    refine hcov.mono (hvalue ?_)
    rintro rfl
    exact hcov
  · intro g hg
    have htests := (Configuration.tests_iff f.lastPoint).mpr ⟨rfl, hg⟩
    obtain ⟨s, hs, hraises, hvalue⟩ := (h.joinsTo_guard hend _).exists_of_mem ⟨c, hc, htests⟩
    refine ⟨s, hs, hraises, ?_⟩
    intro v hcov
    refine hcov.mono (hvalue ?_)
    rintro rfl
    exact hcov
  · intro hterm hx
    exact h.normal_iff.mpr ⟨c, hc, hterm, hx⟩
  · intro hterm hx
    exact h.exceptional_iff.mpr ⟨c, hc, hterm, hx⟩

end SignAnalysis
