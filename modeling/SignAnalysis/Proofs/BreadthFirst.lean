/-
The search is breadth first.

The distance of a configuration is the number of steps of a shortest run to it, and a search takes
configurations from its frontier in the order of their distances:

* `Configuration.distance` — the distance, infinite for what cannot be reached;
* `Search.Layered` — expanded configurations and frontier are in order, and the frontier
  spans two distances that follow each other;
* `Layered.expanded_of_lt` — then nothing closer than the frontier is left to be met or expanded;
* `Layered.advance` — hence what is new behind an advance is one step farther than the configuration
  that was expanded, which keeps the order.
-/
import Mathlib.Data.ENat.Lattice
import Mathlib.Data.List.Pairwise
import SignAnalysis.Proofs.Exploration

namespace SignAnalysis

/-! ### Distance -/

namespace Configuration

variable {c d e : Configuration} {n : ℕ}

/-- The number of steps of a shortest run from `c` to `d`, and `⊤` if there is no run. -/
noncomputable def distance (c d : Configuration) : ℕ∞ :=
  ⨅ n : { n : ℕ // ReachesIn n c d }, (n.1 : ℕ∞)

theorem distance_le (h : ReachesIn n c d) : distance c d ≤ n :=
  iInf_le (fun n : { n : ℕ // ReachesIn n c d } => (n.1 : ℕ∞)) ⟨n, h⟩

/-- A run that is as short as the distance says. -/
theorem exists_reachesIn_of_distance (h : c.Reachable d) :
    ∃ n, ReachesIn n c d ∧ distance c d = n := by
  obtain ⟨m, hm⟩ := reachable_iff_reachesIn.mp h
  have : Nonempty { n : ℕ // ReachesIn n c d } := ⟨⟨m, hm⟩⟩
  obtain ⟨⟨n, hn⟩, heq⟩ :=
    ENat.exists_eq_iInf fun n : { n : ℕ // ReachesIn n c d } => (n.1 : ℕ∞)
  exact ⟨n, hn, heq.symm⟩

theorem distance_ne_top_iff : distance c d ≠ ⊤ ↔ c.Reachable d := by
  constructor
  · intro h
    by_contra hr
    have : IsEmpty { n : ℕ // ReachesIn n c d } :=
      ⟨fun n => hr (reachable_iff_reachesIn.mpr ⟨n.1, n.2⟩)⟩
    exact h (iInf_of_empty _)
  · intro h
    obtain ⟨n, -, hn⟩ := exists_reachesIn_of_distance h
    rw [hn]
    exact ENat.natCast_ne_top n

theorem reachesIn_of_distance_eq (h : distance c d = n) : ReachesIn n c d := by
  have hr : c.Reachable d := distance_ne_top_iff.mp (h ▸ ENat.natCast_ne_top n)
  obtain ⟨m, hm, hdist⟩ := exists_reachesIn_of_distance hr
  obtain rfl : m = n := Nat.cast_injective (hdist.symm.trans h)
  exact hm

/-- A step leads at most one farther. -/
theorem Move.distance_le (h : Move d e) (c : Configuration) :
    distance c e ≤ distance c d + 1 := by
  by_cases hr : c.Reachable d
  · obtain ⟨n, hn, hdist⟩ := exists_reachesIn_of_distance hr
    rw [hdist]
    exact Configuration.distance_le (reachesIn_add.mpr ⟨d, hn, reachesIn_one.mpr h⟩)
  · rw [not_not.mp fun htop => hr (distance_ne_top_iff.mp htop), top_add]
    exact le_top

/-- The last step of a shortest run comes from one step closer. -/
theorem exists_closer (h : distance c e = (n + 1 : ℕ)) : ∃ d, Move d e ∧ distance c d = n := by
  obtain ⟨d, hd, hm⟩ := reachesIn_add.mp (reachesIn_of_distance_eq h)
  have hmove : Move d e := reachesIn_one.mp hm
  refine ⟨d, hmove, le_antisymm (distance_le hd) ?_⟩
  have hle := hmove.distance_le c
  rw [h, Nat.cast_add, Nat.cast_one] at hle
  exact (ENat.add_le_add_iff_right ENat.one_ne_top).mp hle

end Configuration

/-! ### The order of a search -/

namespace Search

variable {start c d : Configuration} {expanded rest : List Configuration} {s : Search}

/-- What has been expanded and what is in the frontier is in the order of the distances, and
the distances in the frontier are within one of each other. -/
structure Layered (start : Configuration) (expanded : List Configuration) (s : Search) : Prop where
  sorted : (expanded ++ s.frontier).Pairwise fun c d => start.distance c ≤ start.distance d
  span : ∀ c ∈ s.frontier, ∀ d ∈ s.frontier, start.distance d ≤ start.distance c + 1

theorem Layered.head_le (h : Layered start expanded s) (hf : s.frontier = c :: rest)
    (hd : d ∈ s.frontier) : start.distance c ≤ start.distance d := by
  have hsorted := (List.pairwise_append.mp h.sorted).2.1
  rw [hf] at hsorted hd
  rcases List.mem_cons.mp hd with rfl | hd
  · exact le_rfl
  · exact List.rel_of_pairwise_cons hsorted hd

/-- What is met when everything closer has been expanded. -/
theorem Closed.mem_visited_of_distance {n : ℕ} (hclosed : Closed expanded s)
    (hstart : start ∈ s.visited)
    (hcloser : ∀ e, start.distance e < n → e.isTerminal = false → e ∈ expanded)
    (hd : start.distance d = n) : d ∈ s.visited := by
  cases n with
  | zero =>
    obtain rfl : start = d := Configuration.reachesIn_of_distance_eq hd
    exact hstart
  | succ n =>
    obtain ⟨e, hmove, he⟩ := Configuration.exists_closer hd
    have hlt : start.distance e < (n + 1 : ℕ) := by
      rw [he]
      exact Nat.cast_lt.mpr (Nat.lt_succ_self n)
    have hterm : e.isTerminal = false := by cases hmove <;> rfl
    obtain ⟨ds, hstep, hmet⟩ := hclosed e (hcloser e hlt hterm)
    obtain ⟨ds', hstep', hmem⟩ := hmove.steps
    cases hstep.symm.trans hstep'
    exact hmet d hmem

/-- Whatever is closer than the next configuration of the frontier has been met and, if it has
something left to execute, expanded. -/
theorem Layered.expanded_of_lt (h : Layered start expanded s) (hwork : Worklist start expanded s)
    (hclosed : Closed expanded s) (hf : s.frontier = c :: rest)
    (hd : start.distance d < start.distance c) :
    d ∈ s.visited ∧ (d.isTerminal = false → d ∈ expanded) := by
  obtain ⟨n, hn⟩ := ENat.ne_top_iff_exists.mp (ne_top_of_lt hd)
  -- by induction on the distance: what is closer than `d` has been expanded, so `d` has been met
  induction n using Nat.strong_induction_on generalizing d with
  | _ n ih =>
    have hcloser : ∀ e, start.distance e < n → e.isTerminal = false → e ∈ expanded := by
      intro e he
      obtain ⟨m, hm⟩ := ENat.ne_top_iff_exists.mp (ne_top_of_lt he)
      have hmn : m < n := Nat.cast_lt.mp (hm.trans_lt he)
      exact (ih m hmn (he.trans (hn.trans_lt hd)) hm).2
    have hvisited := hclosed.mem_visited_of_distance hwork.start_mem hcloser hn.symm
    refine ⟨hvisited, fun hterm => ?_⟩
    -- in the frontier it would stand before `c`
    rcases List.mem_append.mp (hwork.complete d hvisited hterm) with hexpanded | hfrontier
    · exact hexpanded
    · exact absurd (h.head_le hf hfrontier) (not_le_of_gt hd)

/-- What has not been met is farther than the next configuration of the frontier. -/
theorem Layered.lt_of_not_mem (h : Layered start expanded s) (hwork : Worklist start expanded s)
    (hclosed : Closed expanded s) (hf : s.frontier = c :: rest) (hd : d ∉ s.visited) :
    start.distance c < start.distance d := by
  by_contra hle
  rcases lt_or_eq_of_le (not_lt.mp hle) with hlt | heq
  · exact hd (h.expanded_of_lt hwork hclosed hf hlt).1
  · have hc : start.Reachable c :=
      hwork.reachable c (hwork.visited c (by rw [hf]; simp))
    obtain ⟨n, -, hn⟩ := Configuration.exists_reachesIn_of_distance hc
    refine hd (hclosed.mem_visited_of_distance hwork.start_mem ?_ (heq.trans hn))
    intro e he
    exact (h.expanded_of_lt hwork hclosed hf (hn ▸ he)).2

theorem mem_frontier_meet {e : Configuration} (h : e ∈ (s.meet d).frontier) :
    e ∈ s.frontier ∨ e = d ∧ d ∉ s.visited := by
  by_cases hd : d ∈ s.visited
  · rw [meet_of_mem hd] at h
    exact .inl h
  · rw [meet_of_not_mem hd] at h
    exact (List.mem_append.mp h).imp_right fun h => ⟨(mem_pending.mp h).1, hd⟩

/-- The order of a search while the successors of `c` are met: what was expanded is no farther than
`c`, the frontier at most one step farther, and all that is no farther than `c` has been met. -/
structure Filling (start c : Configuration) (expanded : List Configuration) (s : Search) :
    Prop where
  sorted : (expanded ++ s.frontier).Pairwise fun c d => start.distance c ≤ start.distance d
  behind : ∀ d ∈ expanded, start.distance d ≤ start.distance c
  ahead : ∀ d ∈ s.frontier,
    start.distance c ≤ start.distance d ∧ start.distance d ≤ start.distance c + 1
  unmet : ∀ d, d ∉ s.visited → start.distance c < start.distance d

theorem Filling.meet (h : Filling start c expanded s) (hmove : Configuration.Move c d) :
    Filling start c expanded (s.meet d) where
  sorted := by
    by_cases hd : d ∈ s.visited
    · rw [meet_of_mem hd]
      exact h.sorted
    · -- a new configuration is exactly one step farther than `c`, so it may stand last
      have hfar : start.distance c + 1 ≤ start.distance d := Order.add_one_le_of_lt (h.unmet d hd)
      rw [meet_of_not_mem hd, ← List.append_assoc]
      refine List.pairwise_append.mpr ⟨h.sorted, ?_, ?_⟩
      · cases hterm : d.isTerminal <;> simp [Search.pending, hterm]
      · intro e he d' hd'
        rw [(mem_pending.mp hd').1]
        rcases List.mem_append.mp he with he | he
        · exact (h.behind e he).trans (h.unmet d hd).le
        · exact (h.ahead e he).2.trans hfar
  behind := h.behind
  ahead := by
    intro e he
    rcases mem_frontier_meet he with he | ⟨rfl, hd⟩
    · exact h.ahead e he
    · exact ⟨(h.unmet e hd).le, hmove.distance_le start⟩
  unmet := by
    intro e he
    exact h.unmet e fun hmem => he (mem_visited_meet.mpr (.inr hmem))

theorem Filling.layered (h : Filling start c expanded s) : Layered start expanded s where
  sorted := h.sorted
  span := by
    intro d hd e he
    calc start.distance e ≤ start.distance c + 1 := (h.ahead e he).2
      _ ≤ start.distance d + 1 := by gcongr; exact (h.ahead d hd).1

/-- The next configuration of the frontier is taken, and its successors are still to be met. -/
theorem Layered.pop (h : Layered start expanded s) (hwork : Worklist start expanded s)
    (hclosed : Closed expanded s) (hf : s.frontier = c :: rest) (k : Nat) :
    Filling start c (expanded ++ [c]) { s with frontier := rest, steps := k } where
  sorted := by
    have hsorted := h.sorted
    rw [hf] at hsorted
    simpa using hsorted
  behind := by
    have hsorted := h.sorted
    rw [hf, List.pairwise_append] at hsorted
    intro d hd
    rcases List.mem_append.mp hd with hd | hd
    · exact hsorted.2.2 d hd c (List.mem_cons_self ..)
    · rw [List.mem_singleton.mp hd]
  ahead := by
    intro d hd
    have hmem : d ∈ s.frontier := hf ▸ List.mem_cons_of_mem c hd
    exact ⟨h.head_le hf hmem, h.span c (hf ▸ List.mem_cons_self ..) d hmem⟩
  unmet := fun d hd => h.lt_of_not_mem hwork hclosed hf hd

/-- An advance without a fault keeps the order. -/
theorem Layered.advance (h : Layered start expanded s) (hwork : Worklist start expanded s)
    (hclosed : Closed expanded s) (hfault : ∀ f, s.advance.2 ≠ some (.fault f)) :
    Layered start (expanded ++ s.frontier.head?.toList) s.advance.1 := by
  cases hf : s.frontier with
  | nil =>
    rw [advance_of_nil hf]
    simpa using h
  | cons c rest =>
    cases hstep : c.step with
    | error f =>
      rw [advance_of_error hf hstep] at hfault
      exact absurd rfl (hfault f)
    | ok cs =>
      rw [advance_of_ok hf hstep]
      refine Filling.layered (c := c) ?_
      refine List.foldlRecOn cs Search.meet (h.pop hwork hclosed hf _) ?_
      intro t ht d hd
      exact ht.meet (Configuration.Steps.move ⟨cs, hstep, hd⟩)

theorem layered_start (code : Code) (limit : Option Nat) :
    Layered (.initial code) [] (Search.start code limit) := by
  -- the frontier has at most one element
  have hfrontier : ∀ c ∈ (Search.start code limit).frontier, c = .initial code :=
    fun c hc => (mem_pending.mp hc).1
  constructor
  · show (Search.pending [.initial code]).Pairwise _
    cases hterm : (Configuration.initial code).isTerminal <;> simp [Search.pending, hterm]
  · intro c hc d hd
    rw [hfrontier c hc, hfrontier d hd]
    exact le_self_add

theorem layered_after {code : Code} {limit : Option Nat} {n : Nat}
    (h : (Search.start code limit).FaultFree n) :
    Layered (.initial code) ((Search.start code limit).expansions n)
      ((Search.start code limit).after n) := by
  induction n with
  | zero => exact layered_start code limit
  | succ n ih =>
    have hfree := h.mono (Nat.le_succ n)
    obtain ⟨hwork, hclosed⟩ := worklist_after hfree
    rw [expansions_succ]
    exact (ih hfree).advance hwork hclosed (h n (Nat.lt_succ_self n))

/-- How a search goes by distance from `start`, after it has expanded the configurations
`expanded` in this order. -/
structure BreadthFirst (start : Configuration) (expanded : List Configuration) (s : Search) :
    Prop where
  /-- What has been met has a distance. -/
  finite : ∀ c ∈ s.visited, start.distance c ≠ ⊤
  /-- Along the frontier distances do not go down. -/
  frontier_sorted : s.frontier.Pairwise fun c d => start.distance c ≤ start.distance d
  /-- In the frontier they are within one of each other. -/
  frontier_span : ∀ c ∈ s.frontier, ∀ d ∈ s.frontier, start.distance d ≤ start.distance c + 1
  /-- What is closer than the next configuration of the frontier has been met, and expanded. -/
  closer : ∀ c ∈ s.frontier.head?, ∀ d, start.distance d < start.distance c →
    d ∈ s.visited ∧ (d.isTerminal = false → d ∈ expanded)
  /-- Configurations were expanded in the order of their distances. -/
  expanded_sorted : expanded.Pairwise fun c d => start.distance c ≤ start.distance d

/-- **The search is breadth first**, after any number of advances without a fault and whatever
the limit. -/
theorem breadth_first {code : Code} {limit : Option Nat} {n : Nat}
    (h : (Search.start code limit).FaultFree n) :
    BreadthFirst (.initial code) ((Search.start code limit).expansions n)
      ((Search.start code limit).after n) := by
  obtain ⟨hwork, hclosed⟩ := worklist_after h
  have hlayered := layered_after h
  obtain ⟨hexpanded, hfrontier, -⟩ := List.pairwise_append.mp hlayered.sorted
  refine ⟨?_, hfrontier, hlayered.span, ?_, hexpanded⟩
  · intro c hc
    exact Configuration.distance_ne_top_iff.mpr (hwork.reachable c hc)
  · intro c hc d hd
    obtain ⟨rest, hf⟩ := List.head?_eq_some_iff.mp hc
    exact hlayered.expanded_of_lt hwork hclosed hf hd

/-- `if y <= y then skip else x := 1; skip`, for a `y` of which nothing is known -/
def unevenArms : Code :=
  [.basic 1 (.fetch "y"), .basic 1 (.fetch "y"), .basic 1 (.compare .le),
    .branch 1 [.basic 2 .noop] [.basic 3 (.push 1), .basic 3 (.store "x")], .basic 4 .noop]

/-- Past its limit, the search has one arm to enter and has left the other one behind. -/
theorem breadth_first_at_unevenArms :
    (Search.start unevenArms (some 3)).FaultFree 5 ∧
      ((Search.start unevenArms (some 3)).after 4).advance.2 = some (.limit 3) ∧
      ((Search.start unevenArms (some 3)).after 5).frontier.map (·.point?) = [some 3, some 4] ∧
      BreadthFirst (.initial unevenArms) ((Search.start unevenArms (some 3)).expansions 5)
        ((Search.start unevenArms (some 3)).after 5) := by
  have hobstacles : ∀ i < 5, ((Search.start unevenArms (some 3)).after i).advance.2 ∈
      [none, some (.limit 3)] := by
    decide +kernel
  have hfree : (Search.start unevenArms (some 3)).FaultFree 5 := by
    intro i hi f hfault
    have hmem := hobstacles i hi
    rw [hfault] at hmem
    simp at hmem
  exact ⟨hfree, by decide +kernel, by decide +kernel, breadth_first hfree⟩

end Search

end SignAnalysis
