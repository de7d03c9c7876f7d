/-
The limit of a search.

A search with a limit counts the configurations it has met after every advance.  Each
advance takes another configuration from those met, so there are no more advances than
the limit allows configurations, however many can be reached:

* `Search.Undisturbed.lt_of_frontier` — before an advance, fewer have been made than the
  limit allows;
* `Configuration.length_step_le` — a step has at most two successors, so an advance goes
  past the limit by no more than that;
* `Search.run_unlimited` — a run that comes to its end is the run without a limit;
* `Search.limit_exact` — hence the limit stops exactly the searches that can meet more
  configurations.
-/
import Mathlib.Data.Set.Card
import SignAnalysis.Findings
import SignAnalysis.Proofs.Progress

namespace SignAnalysis

/-! ### The number of successors -/

theorem Sign.length_arith_le (op : ArithOp) (a b : Sign) : (arith op a b).length ≤ 2 := by
  cases op with
  | add | sub | mul =>
    simp only [arith, strict]
    split
    · exact Nat.le_succ 1
    · exact Nat.le_succ 1
  | div =>
    simp only [arith, strict]
    split
    · exact Nat.le_succ 1
    · -- only a divisor that may be anything leaves both a value and an error
      cases Marker.asOperand b <;> simp [quotients]

namespace Configuration

theorem length_enterArms_le (c : Configuration) (g : Truth) (yes no : Code) :
    (c.enterArms g yes no).length ≤ 2 := by
  unfold enterArms
  cases g <;> simp [Truth.mayHold, Truth.mayFail]

theorem length_perform_le {c : Configuration} {i : Instruction} {op : Operation}
    {ds : List Configuration} (h : c.perform i op = .ok ds) : ds.length ≤ 2 := by
  obtain ⟨d, rfl⟩ | ⟨d, op, a, b, rfl⟩ := perform_eq_ok h
  · exact Nat.le_succ 1
  · rw [fork, List.length_map, List.length_map]
    exact Sign.length_arith_le op a b

/-- A step has at most two successors. -/
theorem length_step_le {c : Configuration} {ds : List Configuration} (h : c.step = .ok ds) :
    ds.length ≤ 2 := by
  obtain ⟨σ, st, code, x, t, e⟩ := c
  cases code with
  | nil => cases h
  | cons i rest =>
    cases i with
    | basic p op => exact length_perform_le h
    | branch p a b =>
      obtain ⟨⟨g, c₁⟩, -, h⟩ := bind_eq_ok h
      cases h
      exact length_enterArms_le c₁ g a b
    | loop p a b =>
      cases h
      exact Nat.le_succ 1
    | attempt p a b =>
      cases h
      exact Nat.le_succ 1
    | dispatch p a =>
      obtain ⟨-, rfl⟩ := execute_dispatch_eq_ok h
      exact Nat.le_succ 1

end Configuration

namespace Search

/-! ### What an advance adds -/

theorem size_visited_meet_le (s : Search) (c : Configuration) :
    (s.meet c).visited.size ≤ s.visited.size + 1 := by
  by_cases hc : c ∈ s.visited
  · rw [meet_of_mem hc]
    exact Nat.le_succ _
  · rw [meet_of_not_mem hc]
    exact Nat.le_of_eq (ConfigurationSet.size_insert hc)

theorem size_visited_foldl_meet_le (cs : List Configuration) (s : Search) :
    (cs.foldl meet s).visited.size ≤ s.visited.size + cs.length := by
  induction cs generalizing s with
  | nil => exact Nat.le_refl _
  | cons c cs ih =>
    have hrest := ih (s.meet c)
    have hmeet := s.size_visited_meet_le c
    rw [List.foldl_cons, List.length_cons]
    omega

/-- An advance meets at most two configurations that are new. -/
theorem size_visited_advance_le (s : Search) : s.advance.1.visited.size ≤ s.visited.size + 2 := by
  cases hf : s.frontier with
  | nil =>
    rw [advance_of_nil hf]
    exact Nat.le_add_right _ 2
  | cons c rest =>
    cases hstep : c.step with
    | error f =>
      rw [advance_of_error hf hstep]
      exact Nat.le_add_right _ 2
    | ok cs =>
      have hle := size_visited_foldl_meet_le cs { s with frontier := rest, steps := s.steps + 1 }
      have htwo := Configuration.length_step_le hstep
      rw [advance_of_ok hf hstep]
      show (cs.foldl meet _).visited.size ≤ s.visited.size + 2
      have hsame : ({ s with frontier := rest, steps := s.steps + 1 } : Search).visited.size =
          s.visited.size := rfl
      omega

@[simp] theorem steps_foldl_meet (cs : List Configuration) (s : Search) :
    (cs.foldl meet s).steps = s.steps := by
  induction cs generalizing s with
  | nil => rfl
  | cons c cs ih => rw [List.foldl_cons, ih, steps_meet]

theorem steps_advance_le (s : Search) : s.advance.1.steps ≤ s.steps + 1 := by
  cases hf : s.frontier with
  | nil =>
    rw [advance_of_nil hf]
    exact Nat.le_succ _
  | cons c rest =>
    cases hstep : c.step with
    | error f =>
      rw [advance_of_error hf hstep]
      exact Nat.le_succ _
    | ok cs =>
      rw [advance_of_ok hf hstep]
      exact Nat.le_of_eq (steps_foldl_meet cs _)

theorem steps_after_le (s : Search) (k : Nat) : (s.after k).steps ≤ s.steps + k := by
  induction k with
  | zero => exact Nat.le_refl _
  | succ k ih => exact Nat.le_trans (steps_advance_le _) (Nat.succ_le_succ ih)

@[simp] theorem limit_after (s : Search) (k : Nat) : (s.after k).limit = s.limit := by
  induction k with
  | zero => rfl
  | succ k ih => rw [after, limit_advance, ih]

/-- An advance without a fault is stopped if it goes past the limit. -/
theorem advance_snd_of_ok {s : Search} {n : Nat} (hlimit : s.limit = some n) {c : Configuration}
    {rest cs : List Configuration} (hf : s.frontier = c :: rest) (hstep : c.step = .ok cs) :
    s.advance.2 = if n < s.advance.1.visited.size then some (.limit n) else none := by
  have hover : s.advance.2 = s.advance.1.overLimit? := by rw [advance_of_ok hf hstep]
  rw [hover, overLimit?, limit_advance, hlimit]

/-- What an advance that meets no obstacle leaves is within the limit. -/
theorem size_visited_le_of_advance {s : Search} {n : Nat} (hlimit : s.limit = some n)
    (hf : s.frontier ≠ []) (h : s.advance.2 = none) : s.advance.1.visited.size ≤ n := by
  obtain ⟨c, rest, hcons⟩ := List.exists_cons_of_ne_nil hf
  cases hstep : c.step with
  | error f =>
    rw [advance_of_error hcons hstep] at h
    cases h
  | ok cs =>
    rw [advance_snd_of_ok hlimit hcons hstep] at h
    split at h
    · cases h
    · omega

/-- An advance that meets an obstacle has gone past the limit, or met a fault. -/
theorem advance_eq_some {s : Search} {n : Nat} (hlimit : s.limit = some n) {o : Obstacle}
    (h : s.advance.2 = some o) :
    (∃ c rest f, s.frontier = c :: rest ∧ c.step = .error f) ∨
      (o = .limit n ∧ n < s.advance.1.visited.size ∧ ∀ f, s.advance.2 ≠ some (.fault f)) := by
  cases hf : s.frontier with
  | nil =>
    rw [advance_of_nil hf] at h
    cases h
  | cons c rest =>
    cases hstep : c.step with
    | error f => exact .inl ⟨c, rest, f, rfl, hstep⟩
    | ok cs =>
      rw [advance_snd_of_ok hlimit hf hstep] at h ⊢
      split at h
      · rename_i hlt
        cases h
        rw [if_pos hlt]
        exact .inr ⟨rfl, hlt, fun f hfault => Obstacle.noConfusion (Option.some.inj hfault)⟩
      · cases h

/-! ### Runs with a limit -/

section

variable {code : Code} {n k : Nat}

theorem length_expansions {s : Search} (h : s.Undisturbed k) : (s.expansions k).length = k := by
  induction k with
  | zero => rfl
  | succ k ih =>
    obtain ⟨c, rest, hf⟩ := List.exists_cons_of_ne_nil (h k (Nat.lt_succ_self k)).1
    have hk := ih fun i hi => h i (Nat.lt_succ_of_lt hi)
    rw [expansions_succ, hf, List.length_append, hk]
    rfl

/-- As long as no obstacle is met, the search is within its limit; the first configuration is
met whatever the limit is. -/
theorem Undisturbed.size_visited_le (h : (start code (some n)).Undisturbed k) :
    ((start code (some n)).after k).visited.size ≤ max n 1 := by
  cases k with
  | zero => exact Nat.le_max_right n 1
  | succ k =>
    obtain ⟨hf, hadv⟩ := h k (Nat.lt_succ_self k)
    have hlimit : ((start code (some n)).after k).limit = some n := limit_after _ k
    exact Nat.le_trans (size_visited_le_of_advance hlimit hf hadv) (Nat.le_max_left n 1)

/-- While something is left in the frontier, fewer advances have been made than the limit
allows: each of them took another configuration that was met. -/
theorem Undisturbed.lt_of_frontier (h : (start code (some n)).Undisturbed k)
    (hf : ((start code (some n)).after k).frontier ≠ []) : k < max n 1 := by
  obtain ⟨hwork, -⟩ := worklist_after h.faultFree
  have hcount := hwork.size_visited
  have hsteps := hwork.steps
  rw [length_expansions h] at hsteps
  have hpos := List.length_pos_of_ne_nil hf
  have hsize := h.size_visited_le
  omega

/-- A run with a limit makes as many advances as the limit allows at the most. -/
theorem run_limit_ne_unfinished {fuel : Nat} (hfuel : max n 1 ≤ fuel) :
    ((start code (some n)).run fuel).2 ≠ .unfinished := by
  obtain ⟨k, -, hquiet, ⟨-, h⟩ | ⟨-, -, o, -, h⟩ | ⟨hne, rfl, -⟩⟩ :=
    run_cases (start code (some n)) fuel
  · rw [h]
    exact Outcome.noConfusion
  · rw [h]
    exact Outcome.noConfusion
  · have := hquiet.lt_of_frontier hne
    omega

/-- At every moment of a run with a limit, few configurations have been expanded and few
have been met. -/
theorem run_limit_bounds (code : Code) (n fuel : Nat) :
    ((start code (some n)).run fuel).1.steps ≤ max n 1 ∧
      ((start code (some n)).run fuel).1.visited.size ≤ max n 1 + 2 := by
  obtain ⟨k, -, hquiet, hcases⟩ := run_cases (start code (some n)) fuel
  have hsteps := steps_after_le (start code (some n)) k
  have hzero : (start code (some n)).steps = 0 := rfl
  have hsize := hquiet.size_visited_le
  -- whether or not the run goes on, the undisturbed advances are within the limit
  have hk : k ≤ max n 1 := by
    cases k with
    | zero => exact Nat.zero_le _
    | succ k =>
      have hprev : (start code (some n)).Undisturbed k := fun i hi =>
        hquiet i (Nat.lt_succ_of_lt hi)
      exact hprev.lt_of_frontier (hquiet k (Nat.lt_succ_self k)).1
  have hhere : ((start code (some n)).after k).steps ≤ max n 1 ∧
      ((start code (some n)).after k).visited.size ≤ max n 1 + 2 :=
    ⟨by omega, by omega⟩
  rcases hcases with ⟨-, h⟩ | ⟨hne, -, o, -, h⟩ | ⟨-, -, h⟩
  · exact h ▸ hhere
  · have hlt := hquiet.lt_of_frontier hne
    have hnext := steps_advance_le ((start code (some n)).after k)
    have hadd := size_visited_advance_le ((start code (some n)).after k)
    rw [h]
    exact ⟨Nat.le_trans hnext (by omega), Nat.le_trans hadd (by omega)⟩
  · exact h ▸ hhere

end

/-! ### Runs without a limit -/

/-- The search without its limit. -/
def unlimited (s : Search) : Search := { s with limit := none }

theorem unlimited_meet (s : Search) (c : Configuration) :
    s.unlimited.meet c = (s.meet c).unlimited := by
  by_cases hc : c ∈ s.visited
  · have hc' : c ∈ s.unlimited.visited := hc
    rw [meet_of_mem hc, meet_of_mem hc']
    rfl
  · have hc' : c ∉ s.unlimited.visited := hc
    rw [meet_of_not_mem hc, meet_of_not_mem hc']
    rfl

theorem unlimited_foldl_meet (cs : List Configuration) (s : Search) :
    cs.foldl meet s.unlimited = (cs.foldl meet s).unlimited := by
  induction cs generalizing s with
  | nil => rfl
  | cons c cs ih => rw [List.foldl_cons, unlimited_meet, ih, List.foldl_cons]

/-- Without its limit, a search goes on in the same way where it met no obstacle. -/
theorem advance_unlimited {s : Search} (h : s.advance.2 = none) :
    s.unlimited.advance = (s.advance.1.unlimited, none) := by
  cases hf : s.frontier with
  | nil => rw [advance_of_nil hf, advance_of_nil (s := s.unlimited) hf]
  | cons c rest =>
    cases hstep : c.step with
    | error f =>
      rw [advance_of_error hf hstep] at h
      cases h
    | ok cs =>
      have hmeet :=
        unlimited_foldl_meet cs { s with frontier := rest, steps := s.steps + 1 }
      rw [advance_of_ok hf hstep, advance_of_ok (s := s.unlimited) hf hstep]
      exact Prod.ext hmeet (congrArg overLimit? hmeet)

/-- A run that comes to its end is, but for the limit, the run without one. -/
theorem run_unlimited {s t : Search} {fuel : Nat} (h : s.run fuel = (t, .finished)) :
    s.unlimited.run fuel = (t.unlimited, .finished) := by
  induction fuel generalizing s with
  | zero =>
    by_cases hf : s.frontier = []
    · rw [run_of_frontier_eq_nil hf] at h
      cases h
      exact run_of_frontier_eq_nil (s := t.unlimited) hf 0
    · rw [run_zero hf] at h
      cases h
  | succ fuel ih =>
    by_cases hf : s.frontier = []
    · rw [run_of_frontier_eq_nil hf] at h
      cases h
      exact run_of_frontier_eq_nil (s := t.unlimited) hf _
    · cases hadv : s.advance.2 with
      | some o =>
        rw [run_succ_of_some hf hadv] at h
        cases h
      | none =>
        rw [run_succ_of_none hf hadv] at h
        have hnext := advance_unlimited hadv
        have hnone : s.unlimited.advance.2 = none := by rw [hnext]
        rw [run_succ_of_none (s := s.unlimited) hf hnone, hnext]
        exact ih h

end Search

/-! ### The threshold -/

/-- As many configurations are in a set as its size says. -/
theorem ConfigurationSet.encard_eq_size (s : ConfigurationSet) :
    {c | c ∈ s}.encard = (s.size : ℕ∞) := by
  have hset : {c | c ∈ s} = (s.toList.toFinset : Set Configuration) := by
    ext c
    rw [List.coe_toFinset]
    exact Iff.rfl
  rw [hset, Set.encard_coe_eq_coe_finsetCard, List.toFinset_card_of_nodup s.nodup_toList,
    length_toList]

/-- No configuration of the code that has something left to execute meets a fault. -/
def Code.NeverFails (code : Code) : Prop :=
  ∀ c, (Configuration.initial code).Reachable c → c.isTerminal = false → ∀ f, c.step ≠ .error f

/-- Code that has been searched to the end never fails. -/
theorem Code.neverFails_of_run {code : Code} {limit : Option Nat} {fuel : Nat} {t : Search}
    (h : (Search.start code limit).run fuel = (t, .finished)) : code.NeverFails := by
  intro c hc hterm f hfault
  obtain ⟨n, rfl, hquiet, hf⟩ := Search.exists_after_of_run_finished h
  obtain ⟨hwork, hclosed⟩ := Search.worklist_after hquiet.faultFree
  have hmem := (Search.mem_visited_iff_of_frontier_eq_nil hwork hclosed hf).mpr hc
  -- with nothing in the frontier, the configuration has been expanded
  have hexpanded := hwork.complete c hmem hterm
  rw [hf, List.append_nil] at hexpanded
  obtain ⟨ds, hstep, -⟩ := hclosed c hexpanded
  rw [hfault] at hstep
  cases hstep

namespace Search

variable {code : Code} {n fuel : Nat}

/-- A run with a limit through code that never fails comes to its end within the limit, or
goes past the limit with what it has met. -/
theorem run_limit_cases (hcode : code ≠ []) (hsafe : code.NeverFails) (hfuel : max n 1 ≤ fuel) :
    (∃ t, (start code (some n)).run fuel = (t, .finished) ∧ t.visited.size ≤ n ∧
      ∀ c, c ∈ t.visited ↔ (Configuration.initial code).Reachable c) ∨
    (∃ t, (start code (some n)).run fuel = (t, .stopped (.limit n)) ∧ n < t.visited.size ∧
      ∀ c ∈ t.visited, (Configuration.initial code).Reachable c) := by
  obtain ⟨k, -, hquiet, ⟨hf, hrun⟩ | ⟨hne, -, o, hadv, hrun⟩ | ⟨hne, rfl, -⟩⟩ :=
    run_cases (start code (some n)) fuel
  · refine .inl ⟨_, hrun, ?_, ?_⟩
    · cases k with
      | zero =>
        -- there is something to execute, so that at least one advance is made
        obtain ⟨i, rest, rfl⟩ := List.exists_cons_of_ne_nil hcode
        cases hf
      | succ k =>
        obtain ⟨hfk, hadv⟩ := hquiet k (Nat.lt_succ_self k)
        exact size_visited_le_of_advance (limit_after _ k) hfk hadv
    · obtain ⟨hwork, hclosed⟩ := worklist_after hquiet.faultFree
      exact fun c => mem_visited_iff_of_frontier_eq_nil hwork hclosed hf
  · obtain ⟨hwork, hclosed⟩ := worklist_after hquiet.faultFree
    rcases advance_eq_some (limit_after _ k) hadv with
      ⟨c, rest, f, hcons, hstep⟩ | ⟨rfl, hlt, hfree⟩
    · -- the next configuration of the frontier can be reached, and so does not fail
      have hmem : c ∈ (start code (some n)).expansions k ++
          ((start code (some n)).after k).frontier := by
        rw [hcons]
        exact List.mem_append_right _ (List.mem_cons_self ..)
      have hreach := hwork.reachable c (hwork.visited c hmem)
      exact absurd hstep (hsafe c hreach (hwork.pending c hmem) f)
    · exact .inr ⟨_, hrun, hlt, (hwork.advance hclosed hfree).1.reachable⟩
  · have := hquiet.lt_of_frontier hne
    omega

/-- **The limit is exact.**  With a limit of `n` every search ends, after at most `max n 1`
advances, and never holds more than two configurations above that.  In code that never
fails and has something to execute, the limit stops the search exactly if more than `n`
configurations can be reached; otherwise the search meets the same configurations, and has
the same findings, as without a limit. -/
theorem limit_exact (code : Code) (n : Nat) :
    (∃ t o, o ≠ .unfinished ∧ ∀ fuel, max n 1 ≤ fuel →
      (start code (some n)).run fuel = (t, o)) ∧
    (∀ fuel, ((start code (some n)).run fuel).1.steps ≤ max n 1 ∧
      ((start code (some n)).run fuel).1.visited.size ≤ max n 1 + 2) ∧
    (code ≠ [] → code.NeverFails → ∀ fuel, max n 1 ≤ fuel →
      (((start code (some n)).run fuel).2 = .stopped (.limit n) ↔
        n < {c | (Configuration.initial code).Reachable c}.encard) ∧
      ({c | (Configuration.initial code).Reachable c}.encard ≤ n →
        ∃ t u, (start code (some n)).run fuel = (t, .finished) ∧
          (start code none).run fuel = (u, .finished) ∧
          t.visited = u.visited ∧ t.findings = u.findings)) := by
  refine ⟨?_, run_limit_bounds code n, ?_⟩
  · have hends : ((start code (some n)).run (max n 1)).2 ≠ .unfinished :=
      run_limit_ne_unfinished (Nat.le_refl _)
    exact ⟨_, _, hends, fun fuel hfuel => run_eq_of_le hends hfuel⟩
  · intro hcode hsafe fuel hfuel
    rcases run_limit_cases hcode hsafe hfuel with ⟨t, hrun, hsize, hmem⟩ | ⟨t, hrun, hsize, hmem⟩
    · have hcard : {c | (Configuration.initial code).Reachable c}.encard = t.visited.size := by
        rw [← ConfigurationSet.encard_eq_size]
        congr 1
        ext c
        exact (hmem c).symm
      have hle : (t.visited.size : ℕ∞) ≤ n := Nat.cast_le.mpr hsize
      rw [hrun, hcard]
      refine ⟨⟨Outcome.noConfusion, fun hlt => absurd hle (not_le_of_gt hlt)⟩, fun _ => ?_⟩
      exact ⟨t, t.unlimited, rfl, run_unlimited hrun, rfl, rfl⟩
    · have hlt : (n : ℕ∞) < {c | (Configuration.initial code).Reachable c}.encard := by
        calc (n : ℕ∞) < t.visited.size := Nat.cast_lt.mpr hsize
          _ = {c | c ∈ t.visited}.encard := (ConfigurationSet.encard_eq_size _).symm
          _ ≤ _ := Set.encard_le_encard hmem
      rw [hrun]
      exact ⟨⟨fun _ => hlt, fun _ => rfl⟩, fun hle => absurd hlt (not_lt_of_ge hle)⟩

/-- Seven configurations of a division can be reached: a limit of 3 is exceeded by two in
one advance, a limit of 6 stops the search, and one of 7 does not. -/
theorem limit_at_unknownDivision :
    ((start unknownDivision (some 3)).run 3).1.visited.size = 5 ∧
      unknownDivision.NeverFails ∧
      {c | (Configuration.initial unknownDivision).Reachable c}.encard = 7 ∧
      ((start unknownDivision (some 6)).run 6).2 = .stopped (.limit 6) ∧
      ∃ t u, (start unknownDivision (some 7)).run 7 = (t, .finished) ∧
        (start unknownDivision none).run 7 = (u, .finished) ∧
        t.visited = u.visited ∧ t.findings = u.findings := by
  have hfinished : ((start unknownDivision (some 7)).run 7).2 = .finished := by decide +kernel
  have hstopped : ((start unknownDivision (some 6)).run 6).2 = .stopped (.limit 6) := by
    decide +kernel
  have hsafe : unknownDivision.NeverFails := Code.neverFails_of_run (Prod.ext rfl hfinished)
  have hsix := ((limit_exact unknownDivision 6).2.2 (List.cons_ne_nil _ _) hsafe 6
    (Nat.le_refl _)).1.mp hstopped
  obtain ⟨hiff, hsame⟩ := (limit_exact unknownDivision 7).2.2 (List.cons_ne_nil _ _) hsafe 7
    (Nat.le_refl _)
  have hseven : {c | (Configuration.initial unknownDivision).Reachable c}.encard ≤ 7 := by
    refine not_lt.mp fun hlt => ?_
    have hlimit := hiff.mpr hlt
    rw [hfinished] at hlimit
    cases hlimit
  have hcard : {c | (Configuration.initial unknownDivision).Reachable c}.encard = 7 :=
    le_antisymm hseven (Order.add_one_le_of_lt hsix)
  exact ⟨by decide +kernel, hsafe, hcard, hstopped, hsame hseven⟩

end Search

end SignAnalysis
