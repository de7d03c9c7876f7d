/-
What a search has done after any number of advances.

A search is followed through all its advances, those after its limit included,
as long as none meets a fault.  `Search.expansions` lists the configurations whose
successors it has looked at, and two invariants carry everything:

* `Worklist` — the expanded configurations and the frontier are, without
  repetition, the configurations met that have something left to execute;
* `Closed` — the successors of the expanded configurations have been met.

Hence the counts of a search agree (`Worklist.size_visited`), and a search whose
frontier is empty has met exactly what can be reached
(`mem_visited_iff_of_frontier_eq_nil`).  A run of the search is a number of
undisturbed advances, and then its end, an obstacle or the end of its fuel
(`run_cases`).  What does not depend on the expanded configurations is followed through
faults as well (`after_invariant`).
-/
import SignAnalysis.Search
import SignAnalysis.Proofs.Runs

namespace SignAnalysis

namespace Search

/-- The search after some advances. -/
def after (s : Search) : Nat → Search
  | 0 => s
  | n + 1 => (s.after n).advance.1

/-- None of the first `n` advances meets a fault. -/
def FaultFree (s : Search) (n : Nat) : Prop :=
  ∀ i < n, ∀ f, (s.after i).advance.2 ≠ some (.fault f)

/-- The configurations that the first `n` advances take from the frontier, in order. -/
def expansions (s : Search) (n : Nat) : List Configuration :=
  (List.range n).filterMap fun i => (s.after i).frontier.head?

theorem FaultFree.mono {s : Search} {m n : Nat} (h : s.FaultFree n) (hmn : m ≤ n) :
    s.FaultFree m :=
  fun i hi => h i (Nat.lt_of_lt_of_le hi hmn)

theorem after_succ_eq (s : Search) (n : Nat) : s.after (n + 1) = s.advance.1.after n := by
  induction n with
  | zero => rfl
  | succ n ih => rw [after, ih, after]

theorem expansions_succ (s : Search) (n : Nat) :
    s.expansions (n + 1) = s.expansions n ++ (s.after n).frontier.head?.toList := by
  rw [expansions, List.range_succ, List.filterMap_append]
  cases h : (s.after n).frontier.head? <;> simp [expansions, h]

/-! ### Meeting one configuration -/

theorem meet_of_mem {s : Search} {c : Configuration} (hc : c ∈ s.visited) :
    s.meet c = { s with highest := max s.highest (c.point?.getD 0) } :=
  if_pos hc

theorem meet_of_not_mem {s : Search} {c : Configuration} (hc : c ∉ s.visited) :
    s.meet c =
      { s with
        highest := max s.highest (c.point?.getD 0)
        frontier := s.frontier ++ pending [c]
        visited := s.visited.insert c } :=
  if_neg hc

theorem mem_visited_meet {s : Search} {c d : Configuration} :
    d ∈ (s.meet c).visited ↔ d = c ∨ d ∈ s.visited := by
  by_cases hc : c ∈ s.visited
  · rw [meet_of_mem hc]
    exact ⟨.inr, fun h => h.elim (fun h => h ▸ hc) id⟩
  · rw [meet_of_not_mem hc]
    exact ConfigurationSet.mem_insert

@[simp] theorem steps_meet (s : Search) (c : Configuration) : (s.meet c).steps = s.steps := by
  by_cases hc : c ∈ s.visited
  · rw [meet_of_mem hc]
  · rw [meet_of_not_mem hc]

@[simp] theorem limit_meet (s : Search) (c : Configuration) : (s.meet c).limit = s.limit := by
  by_cases hc : c ∈ s.visited
  · rw [meet_of_mem hc]
  · rw [meet_of_not_mem hc]

theorem highest_meet (s : Search) (c : Configuration) :
    (s.meet c).highest = max s.highest (c.point?.getD 0) := by
  by_cases hc : c ∈ s.visited
  · rw [meet_of_mem hc]
  · rw [meet_of_not_mem hc]

theorem mem_pending {c d : Configuration} : d ∈ pending [c] ↔ d = c ∧ c.isTerminal = false := by
  cases h : c.isTerminal <;> simp [pending, h]

theorem nodup_pending (c : Configuration) : (pending [c]).Nodup := by
  cases h : c.isTerminal <;> simp [pending, h]

/-- What is left of the search when everything in `cs` has been met. -/
theorem mem_visited_foldl_meet {cs : List Configuration} {s : Search} {d : Configuration} :
    d ∈ (cs.foldl meet s).visited ↔ d ∈ cs ∨ d ∈ s.visited := by
  induction cs generalizing s with
  | nil => simp
  | cons c cs ih =>
    rw [List.foldl_cons, ih, mem_visited_meet, List.mem_cons]
    grind

@[simp] theorem limit_foldl_meet (cs : List Configuration) (s : Search) :
    (cs.foldl meet s).limit = s.limit := by
  induction cs generalizing s with
  | nil => rfl
  | cons c cs ih => rw [List.foldl_cons, ih, limit_meet]

/-! ### The worklist -/

/-- The configurations met are reachable from `start`, and those with something left
to execute are the expanded ones and, apart from these, the frontier. -/
structure Worklist (start : Configuration) (expanded : List Configuration) (s : Search) : Prop where
  start_mem : start ∈ s.visited
  reachable : ∀ c ∈ s.visited, start.Reachable c
  visited : ∀ c ∈ expanded ++ s.frontier, c ∈ s.visited
  pending : ∀ c ∈ expanded ++ s.frontier, c.isTerminal = false
  nodup : (expanded ++ s.frontier).Nodup
  complete : ∀ c ∈ s.visited, c.isTerminal = false → c ∈ expanded ++ s.frontier
  steps : s.steps = expanded.length

/-- The successors of the expanded configurations have been met. -/
def Closed (expanded : List Configuration) (s : Search) : Prop :=
  ∀ c ∈ expanded, ∃ ds, c.step = .ok ds ∧ ∀ d ∈ ds, d ∈ s.visited

variable {start : Configuration} {expanded : List Configuration} {s : Search}

theorem Worklist.meet (h : Worklist start expanded s) {c : Configuration}
    (hc : start.Reachable c) : Worklist start expanded (s.meet c) := by
  by_cases hmem : c ∈ s.visited
  · rw [meet_of_mem hmem]
    exact ⟨h.start_mem, h.reachable, h.visited, h.pending, h.nodup, h.complete, h.steps⟩
  · rw [meet_of_not_mem hmem]
    -- the new configuration stands nowhere in the worklist, as that has been met
    have hnew : c ∉ expanded ++ s.frontier := fun hin => hmem (h.visited c hin)
    constructor
    · exact ConfigurationSet.mem_insert.mpr (.inr h.start_mem)
    · intro d hd
      rcases ConfigurationSet.mem_insert.mp hd with rfl | hd
      · exact hc
      · exact h.reachable d hd
    · intro d hd
      rw [← List.append_assoc, List.mem_append, mem_pending] at hd
      rcases hd with hd | ⟨rfl, -⟩
      · exact ConfigurationSet.mem_insert.mpr (.inr (h.visited d hd))
      · exact ConfigurationSet.mem_insert.mpr (.inl rfl)
    · intro d hd
      rw [← List.append_assoc, List.mem_append, mem_pending] at hd
      rcases hd with hd | ⟨rfl, hterm⟩
      · exact h.pending d hd
      · exact hterm
    · rw [← List.append_assoc, List.nodup_append]
      refine ⟨h.nodup, nodup_pending c, ?_⟩
      intro d hd d' hd' heq
      rw [mem_pending] at hd'
      exact hnew (hd'.1 ▸ heq ▸ hd)
    · intro d hd hterm
      rw [← List.append_assoc, List.mem_append, mem_pending]
      rcases ConfigurationSet.mem_insert.mp hd with rfl | hd
      · exact .inr ⟨rfl, hterm⟩
      · exact .inl (h.complete d hd hterm)
    · exact h.steps

theorem Worklist.foldl_meet {cs : List Configuration} (h : Worklist start expanded s)
    (hcs : ∀ c ∈ cs, start.Reachable c) : Worklist start expanded (cs.foldl Search.meet s) := by
  induction cs generalizing s with
  | nil => exact h
  | cons c cs ih =>
    have hmeet := h.meet (hcs c (List.mem_cons_self ..))
    exact ih hmeet fun d hd => hcs d (List.mem_cons_of_mem _ hd)

/-- The next configuration of the frontier counts as expanded. -/
theorem Worklist.pop {c : Configuration} {rest : List Configuration}
    (h : Worklist start expanded s) (hf : s.frontier = c :: rest) :
    Worklist start (expanded ++ [c]) { s with frontier := rest, steps := s.steps + 1 } := by
  have hlist : expanded ++ [c] ++ rest = expanded ++ s.frontier := by rw [hf]; simp
  constructor
  · exact h.start_mem
  · exact h.reachable
  · exact fun d hd => h.visited d (hlist ▸ hd)
  · exact fun d hd => h.pending d (hlist ▸ hd)
  · exact hlist ▸ h.nodup
  · exact fun d hd hterm => hlist ▸ h.complete d hd hterm
  · rw [List.length_append, ← h.steps]
    rfl

/-! ### Advances -/

theorem advance_of_nil (hf : s.frontier = []) : s.advance = (s, none) := by
  rw [advance, hf]

theorem advance_of_ok {c : Configuration} {rest cs : List Configuration}
    (hf : s.frontier = c :: rest) (hstep : c.step = .ok cs) :
    s.advance =
      (let t := cs.foldl Search.meet { s with frontier := rest, steps := s.steps + 1 }
       (t, t.overLimit?)) := by
  rw [advance, hf]
  simp only [hstep]

theorem advance_of_error {c : Configuration} {rest : List Configuration} {f : Fault}
    (hf : s.frontier = c :: rest) (hstep : c.step = .error f) :
    s.advance = ({ s with frontier := rest }, some (.fault f)) := by
  rw [advance, hf]
  simp only [hstep]

/-- What holds of a search holds after all its advances, with faults and past the limit, if it
is kept where a configuration leaves the frontier and where a successor of such a one is met. -/
theorem after_invariant {P : Search → Prop} {Q : Configuration → Prop}
    (hfrontier : ∀ {t}, P t → ∀ c ∈ t.frontier, Q c)
    (hpop : ∀ {t : Search} {c rest k}, P t → t.frontier = c :: rest →
      P { t with frontier := rest, steps := k })
    (hmeet : ∀ {t c d}, P t → Q c → Configuration.Move c d → P (t.meet d)) (h : P s) (n : Nat) :
    P (s.after n) := by
  induction n with
  | zero => exact h
  | succ n ih =>
    show P (s.after n).advance.1
    cases hf : (s.after n).frontier with
    | nil =>
      rw [advance_of_nil hf]
      exact ih
    | cons c rest =>
      cases hstep : c.step with
      | error f =>
        rw [advance_of_error hf hstep]
        exact hpop ih hf
      | ok cs =>
        rw [advance_of_ok hf hstep]
        have hc : Q c := hfrontier ih c (hf ▸ List.mem_cons_self ..)
        refine List.foldlRecOn cs Search.meet (hpop ih hf) ?_
        intro t ht d hd
        exact hmeet ht hc (Configuration.Steps.move ⟨cs, hstep, hd⟩)

/-- An advance without a fault expands the next configuration of the frontier. -/
theorem Worklist.advance (h : Worklist start expanded s) (hclosed : Closed expanded s)
    (hfault : ∀ f, s.advance.2 ≠ some (.fault f)) :
    Worklist start (expanded ++ s.frontier.head?.toList) s.advance.1 ∧
      Closed (expanded ++ s.frontier.head?.toList) s.advance.1 := by
  cases hf : s.frontier with
  | nil =>
    rw [advance_of_nil hf]
    simpa using ⟨h, hclosed⟩
  | cons c rest =>
    cases hstep : c.step with
    | error f =>
      rw [advance_of_error hf hstep] at hfault
      exact absurd rfl (hfault f)
    | ok cs =>
      rw [advance_of_ok hf hstep]
      have hmem : c ∈ expanded ++ s.frontier := by rw [hf]; simp
      have hcs : ∀ d ∈ cs, start.Reachable d := by
        intro d hd
        exact .tail (h.reachable c (h.visited c hmem)) ⟨cs, hstep, hd⟩
      refine ⟨(h.pop hf).foldl_meet hcs, ?_⟩
      intro d hd
      rcases List.mem_append.mp hd with hd | hd
      · obtain ⟨ds, hds, hmet⟩ := hclosed d hd
        exact ⟨ds, hds, fun e he => mem_visited_foldl_meet.mpr (.inr (hmet e he))⟩
      · cases List.mem_singleton.mp hd
        exact ⟨cs, hstep, fun e he => mem_visited_foldl_meet.mpr (.inl he)⟩

theorem worklist_start (code : Code) (limit : Option Nat) :
    Worklist (.initial code) [] (Search.start code limit) := by
  have hvisited : ∀ c, c ∈ (Search.start code limit).visited ↔ c = .initial code := fun c => by
    rw [Search.start, ConfigurationSet.mem_insert]
    exact or_iff_left List.not_mem_nil
  have hfrontier : ∀ c, c ∈ (Search.start code limit).frontier ↔
      c = .initial code ∧ (Configuration.initial code).isTerminal = false := fun c => mem_pending
  constructor
  · exact (hvisited _).mpr rfl
  · intro c hc
    cases (hvisited c).mp hc
    exact .refl
  · intro c hc
    exact (hvisited c).mpr ((hfrontier c).mp hc).1
  · intro c hc
    obtain ⟨rfl, hterm⟩ := (hfrontier c).mp hc
    exact hterm
  · exact nodup_pending _
  · intro c hc hterm
    cases (hvisited c).mp hc
    exact (hfrontier _).mpr ⟨rfl, hterm⟩
  · rfl

/-- Both invariants hold as long as no advance meets a fault. -/
theorem worklist_after {code : Code} {limit : Option Nat} {n : Nat}
    (h : (Search.start code limit).FaultFree n) :
    Worklist (.initial code) ((Search.start code limit).expansions n)
        ((Search.start code limit).after n) ∧
      Closed ((Search.start code limit).expansions n) ((Search.start code limit).after n) := by
  induction n with
  | zero => exact ⟨worklist_start code limit, fun c hc => absurd hc List.not_mem_nil⟩
  | succ n ih =>
    obtain ⟨hwork, hclosed⟩ := ih (h.mono (Nat.le_succ n))
    rw [expansions_succ]
    exact hwork.advance hclosed (h n (Nat.lt_succ_self n))

/-! ### Counts -/

/-- The worklist lists what has something left to execute. -/
theorem Worklist.perm (h : Worklist start expanded s) :
    (Search.pending s.visited.toList).Perm (expanded ++ s.frontier) := by
  refine (List.perm_ext_iff_of_nodup (s.visited.nodup_toList.filter _) h.nodup).mpr ?_
  intro c
  rw [List.mem_filter, Bool.not_eq_true']
  constructor
  · rintro ⟨hc, hterm⟩
    exact h.complete c hc hterm
  · intro hc
    exact ⟨h.visited c hc, h.pending c hc⟩

theorem Worklist.length_pending (h : Worklist start expanded s) :
    (Search.pending s.visited.toList).length = s.steps + s.frontier.length := by
  rw [h.perm.length_eq, List.length_append, h.steps]

/-- Every configuration met is expanded, in the frontier or terminal. -/
theorem Worklist.size_visited (h : Worklist start expanded s) :
    s.steps + s.frontier.length + (s.visited.toList.filter (·.isTerminal)).length =
      s.visited.size := by
  have hsplit := (List.filter_append_perm (·.isTerminal) s.visited.toList).length_eq
  rw [List.length_append, ConfigurationSet.length_toList] at hsplit
  have hpending := h.length_pending
  rw [Search.pending] at hpending
  omega

/-- A search whose frontier is empty has met exactly what can be reached. -/
theorem mem_visited_iff_of_frontier_eq_nil (h : Worklist start expanded s)
    (hclosed : Closed expanded s) (hf : s.frontier = []) {c : Configuration} :
    c ∈ s.visited ↔ start.Reachable c := by
  constructor
  · exact h.reachable c
  · intro hc
    induction hc with
    | refl => exact h.start_mem
    | @tail d e _ hs ih =>
      obtain ⟨ds, hstep, he⟩ := hs
      have hterm : d.isTerminal = false := by
        -- a terminal configuration does not step
        cases hcode : d.code with
        | nil =>
          rw [Configuration.step, hcode] at hstep
          cases hstep
        | cons i rest => rw [Configuration.isTerminal, hcode, List.isEmpty_cons]
      -- with nothing in the frontier, all that can step has been expanded
      have hd := h.complete d ih hterm
      rw [hf, List.append_nil] at hd
      obtain ⟨ds', hstep', hmet⟩ := hclosed d hd
      cases hstep.symm.trans hstep'
      exact hmet e he

/-! ### Runs of the search -/

/-- The first `k` advances each take a configuration from the frontier, and meet no
obstacle. -/
def Undisturbed (s : Search) (k : Nat) : Prop :=
  ∀ i < k, (s.after i).frontier ≠ [] ∧ (s.after i).advance.2 = none

theorem Undisturbed.zero (s : Search) : s.Undisturbed 0 :=
  fun i hi => absurd hi (Nat.not_lt_zero i)

theorem Undisturbed.cons {s : Search} {k : Nat} (hf : s.frontier ≠ [])
    (hadv : s.advance.2 = none) (h : s.advance.1.Undisturbed k) : s.Undisturbed (k + 1) := by
  intro i hi
  cases i with
  | zero => exact ⟨hf, hadv⟩
  | succ i =>
    rw [after_succ_eq]
    exact h i (Nat.lt_of_succ_lt_succ hi)

theorem Undisturbed.faultFree {s : Search} {k : Nat} (h : s.Undisturbed k) : s.FaultFree k := by
  intro i hi f hfault
  rw [(h i hi).2] at hfault
  cases hfault

theorem run_of_frontier_eq_nil {s : Search} (hf : s.frontier = []) (fuel : Nat) :
    s.run fuel = (s, .finished) := by
  rw [run.eq_def, hf]
  rfl

theorem run_zero {s : Search} (hf : s.frontier ≠ []) : s.run 0 = (s, .unfinished) := by
  rw [run.eq_def, if_neg]
  rwa [List.isEmpty_iff]

theorem run_succ_of_none {s : Search} (hf : s.frontier ≠ []) (h : s.advance.2 = none)
    (fuel : Nat) : s.run (fuel + 1) = s.advance.1.run fuel := by
  have hadv : s.advance = (s.advance.1, none) := Prod.ext rfl h
  rw [run, if_neg (by rwa [List.isEmpty_iff]), hadv]

theorem run_succ_of_some {s : Search} (hf : s.frontier ≠ []) {o : Obstacle}
    (h : s.advance.2 = some o) (fuel : Nat) :
    s.run (fuel + 1) = (s.advance.1, .stopped o) := by
  have hadv : s.advance = (s.advance.1, some o) := Prod.ext rfl h
  rw [run, if_neg (by rwa [List.isEmpty_iff]), hadv]

/-- A run makes some advances undisturbed.  Then the frontier is empty, or the next advance
meets an obstacle, or there is no fuel for it. -/
theorem run_cases (s : Search) (fuel : Nat) :
    ∃ k ≤ fuel, s.Undisturbed k ∧
      (((s.after k).frontier = [] ∧ s.run fuel = (s.after k, .finished)) ∨
        ((s.after k).frontier ≠ [] ∧ k < fuel ∧ ∃ o, (s.after k).advance.2 = some o ∧
          s.run fuel = (s.after (k + 1), .stopped o)) ∨
        ((s.after k).frontier ≠ [] ∧ k = fuel ∧ s.run fuel = (s.after k, .unfinished))) := by
  induction fuel generalizing s with
  | zero =>
    refine ⟨0, Nat.le_refl 0, .zero s, ?_⟩
    by_cases hf : s.frontier = []
    · exact .inl ⟨hf, run_of_frontier_eq_nil hf 0⟩
    · exact .inr (.inr ⟨hf, rfl, run_zero hf⟩)
  | succ fuel ih =>
    by_cases hf : s.frontier = []
    · exact ⟨0, Nat.zero_le _, .zero s, .inl ⟨hf, run_of_frontier_eq_nil hf _⟩⟩
    · cases hadv : s.advance.2 with
      | some o =>
        exact ⟨0, Nat.zero_le _, .zero s,
          .inr (.inl ⟨hf, Nat.succ_pos fuel, o, hadv, run_succ_of_some hf hadv fuel⟩)⟩
      | none =>
        -- the run goes on from its first advance, which counts as one more
        obtain ⟨k, hk, hquiet, hcases⟩ := ih s.advance.1
        refine ⟨k + 1, Nat.succ_le_succ hk, hquiet.cons hf hadv, ?_⟩
        rw [run_succ_of_none hf hadv, after_succ_eq, after_succ_eq]
        rcases hcases with h | ⟨hne, hlt, h⟩ | ⟨hne, rfl, h⟩
        · exact .inl h
        · exact .inr (.inl ⟨hne, Nat.succ_lt_succ hlt, h⟩)
        · exact .inr (.inr ⟨hne, rfl, h⟩)

/-- More fuel makes no difference to a run that has ended. -/
theorem run_eq_of_le {s : Search} {m n : Nat} (h : (s.run m).2 ≠ .unfinished) (hmn : m ≤ n) :
    s.run n = s.run m := by
  induction m generalizing s n with
  | zero =>
    by_cases hf : s.frontier = []
    · rw [run_of_frontier_eq_nil hf, run_of_frontier_eq_nil hf]
    · rw [run_zero hf] at h
      exact absurd rfl h
  | succ m ih =>
    obtain ⟨n, rfl⟩ : ∃ j, n = j + 1 := ⟨n - 1, by omega⟩
    by_cases hf : s.frontier = []
    · rw [run_of_frontier_eq_nil hf, run_of_frontier_eq_nil hf]
    · cases hadv : s.advance.2 with
      | some o => rw [run_succ_of_some hf hadv, run_succ_of_some hf hadv]
      | none =>
        rw [run_succ_of_none hf hadv] at h ⊢
        rw [run_succ_of_none hf hadv]
        exact ih h (Nat.le_of_succ_le_succ hmn)

/-- A run makes its advances one by one, and stops where the frontier is empty. -/
theorem run_of_undisturbed {s : Search} {k fuel : Nat} (h : s.Undisturbed k)
    (hf : (s.after k).frontier = []) (hfuel : k ≤ fuel) :
    s.run fuel = (s.after k, .finished) := by
  induction k generalizing s fuel with
  | zero => exact run_of_frontier_eq_nil hf fuel
  | succ k ih =>
    obtain ⟨fuel, rfl⟩ : ∃ j, fuel = j + 1 := ⟨fuel - 1, by omega⟩
    obtain ⟨hne, hadv⟩ : s.frontier ≠ [] ∧ s.advance.2 = none := h 0 (Nat.succ_pos k)
    rw [after_succ_eq] at hf ⊢
    rw [run_succ_of_none hne hadv]
    refine ih ?_ hf (Nat.le_of_succ_le_succ hfuel)
    intro i hi
    rw [← after_succ_eq]
    exact h (i + 1) (Nat.succ_lt_succ hi)

/-- A run that ends has made some advances undisturbed and has emptied the frontier. -/
theorem exists_after_of_run_finished {fuel : Nat} {s t : Search}
    (h : s.run fuel = (t, .finished)) :
    ∃ n, t = s.after n ∧ s.Undisturbed n ∧ t.frontier = [] := by
  obtain ⟨n, -, hquiet, ⟨hf, hrun⟩ | ⟨-, -, o, -, hrun⟩ | ⟨-, -, hrun⟩⟩ := run_cases s fuel
  · cases hrun.symm.trans h
    exact ⟨n, rfl, hquiet, hf⟩
  · cases hrun.symm.trans h
  · cases hrun.symm.trans h

/-- A run that ends has met what can be reached. -/
theorem mem_visited_iff_of_run {code : Code} {limit : Option Nat} {fuel : Nat} {t : Search}
    (h : (Search.start code limit).run fuel = (t, .finished)) (c : Configuration) :
    c ∈ t.visited ↔ (Configuration.initial code).Reachable c := by
  obtain ⟨n, rfl, hquiet, hf⟩ := exists_after_of_run_finished h
  obtain ⟨hwork, hclosed⟩ := worklist_after hquiet.faultFree
  exact mem_visited_iff_of_frontier_eq_nil hwork hclosed hf

/-- An advance without a limit meets no obstacle if every configuration can step. -/
theorem Worklist.advance_snd (h : Worklist start expanded s) (hlimit : s.limit = none)
    (hok : ∀ c, start.Reachable c → c.isTerminal = false → ∃ ds, c.step = .ok ds) :
    s.advance.2 = none := by
  cases hf : s.frontier with
  | nil => rw [advance_of_nil hf]
  | cons c rest =>
    have hmem : c ∈ expanded ++ s.frontier := by rw [hf]; simp
    obtain ⟨cs, hstep⟩ := hok c (h.reachable c (h.visited c hmem)) (h.pending c hmem)
    rw [advance_of_ok hf hstep]
    simp only [overLimit?, limit_foldl_meet, hlimit]

@[simp] theorem limit_advance (s : Search) : s.advance.1.limit = s.limit := by
  cases hf : s.frontier with
  | nil => rw [advance_of_nil hf]
  | cons c rest =>
    cases hstep : c.step with
    | error f => rw [advance_of_error hf hstep]
    | ok cs => rw [advance_of_ok hf hstep, limit_foldl_meet]

/-- A run without a limit comes to its end if every configuration can step and no
more than `bound` of them can be reached. -/
theorem exists_run_finished {bound fuel : Nat} (h : Worklist start expanded s)
    (hclosed : Closed expanded s) (hlimit : s.limit = none)
    (hok : ∀ c, start.Reachable c → c.isTerminal = false → ∃ ds, c.step = .ok ds)
    (hbound : ∀ l : List Configuration, l.Nodup → (∀ c ∈ l, start.Reachable c) → l.length ≤ bound)
    (hfuel : bound ≤ fuel + expanded.length) :
    ∃ t, s.run fuel = (t, .finished) := by
  induction fuel generalizing s expanded with
  | zero =>
    -- everything has been expanded, so that the frontier has room for nothing
    have hlength : (expanded ++ s.frontier).length ≤ bound :=
      hbound _ h.nodup fun c hc => h.reachable c (h.visited c hc)
    have hf : s.frontier = [] := by
      rw [List.length_append] at hlength
      exact List.eq_nil_of_length_eq_zero (by omega)
    exact ⟨s, run_of_frontier_eq_nil hf 0⟩
  | succ fuel ih =>
    cases hf : s.frontier with
    | nil => exact ⟨s, run_of_frontier_eq_nil hf _⟩
    | cons c rest =>
      have hadv := h.advance_snd hlimit hok
      have hfault : ∀ f, s.advance.2 ≠ some (.fault f) := fun f => by
        rw [hadv]
        exact (Option.some_ne_none _).symm
      obtain ⟨hwork, hclosed'⟩ := h.advance hclosed hfault
      have hlength : bound ≤ fuel + (expanded ++ s.frontier.head?.toList).length := by
        rw [hf, List.length_append]
        show bound ≤ fuel + (expanded.length + 1)
        omega
      obtain ⟨t, ht⟩ := ih hwork hclosed' (by rw [limit_advance, hlimit]) hlength
      have hne : s.frontier ≠ [] := hf ▸ List.cons_ne_nil c rest
      exact ⟨t, (run_succ_of_none hne hadv fuel).trans ht⟩

/-- What a search has done after its advances: `expanded` lists, in order and with
repetitions if there were any, the configurations that they took from the frontier. -/
structure Exact (start : Configuration) (expanded : List Configuration) (s : Search) : Prop where
  reachable : ∀ c ∈ s.visited, start.Reachable c
  frontier_nodup : s.frontier.Nodup
  frontier_pending : ∀ c ∈ s.frontier, c ∈ s.visited ∧ c.isTerminal = false
  expanded_once : ∀ c ∈ s.visited, c.isTerminal = false →
    (c ∈ s.frontier ∧ expanded.count c = 0) ∨
      (c ∉ s.frontier ∧ expanded.count c = 1 ∧ ∃ ds, c.step = .ok ds ∧ ∀ d ∈ ds, d ∈ s.visited)
  count : s.steps + s.frontier.length + (s.visited.toList.filter (·.isTerminal)).length =
    s.visited.size

theorem Worklist.exact (h : Worklist start expanded s) (hclosed : Closed expanded s) :
    Exact start expanded s := by
  -- no configuration is both expanded and in the frontier, or twice in either
  obtain ⟨hexpanded, hfrontier, hdisjoint⟩ := List.nodup_append.mp h.nodup
  refine ⟨h.reachable, hfrontier, ?_, ?_, h.size_visited⟩
  · intro c hc
    have hmem : c ∈ expanded ++ s.frontier := List.mem_append_right _ hc
    exact ⟨h.visited c hmem, h.pending c hmem⟩
  · intro c hc hterm
    rcases List.mem_append.mp (h.complete c hc hterm) with hex | hfr
    · refine .inr ⟨fun hfr => hdisjoint c hex c hfr rfl, ?_, hclosed c hex⟩
      rw [hexpanded.count, if_pos hex]
    · have hnot : c ∉ expanded := fun hex => hdisjoint c hex c hfr rfl
      exact .inl ⟨hfr, List.count_eq_zero_of_not_mem hnot⟩

/-- **The search is exact.**  After any number of advances without a fault, and
whatever the limit, the search has met reachable configurations only, has expanded
each of them at most once, and knows which ones it still has to expand.  A run that
comes to its end has met exactly the reachable configurations, and its steps are
those that have something left to execute. -/
theorem exact_after_advances (code : Code) (limit : Option Nat) :
    (∀ n, (Search.start code limit).FaultFree n →
      Exact (.initial code) ((Search.start code limit).expansions n)
        ((Search.start code limit).after n)) ∧
    (∀ fuel t, (Search.start code limit).run fuel = (t, .finished) →
      (∀ c, c ∈ t.visited ↔ (Configuration.initial code).Reachable c) ∧
        t.steps = (t.visited.toList.filter (!·.isTerminal)).length) := by
  constructor
  · intro n hn
    obtain ⟨hwork, hclosed⟩ := worklist_after hn
    exact hwork.exact hclosed
  · intro fuel t ht
    obtain ⟨n, rfl, hquiet, hf⟩ := exists_after_of_run_finished ht
    obtain ⟨hwork, hclosed⟩ := worklist_after hquiet.faultFree
    refine ⟨fun c => mem_visited_iff_of_frontier_eq_nil hwork hclosed hf, ?_⟩
    have hpending := hwork.length_pending
    rw [hf, List.length_nil, Nat.add_zero] at hpending
    exact hpending.symm

/-- `x := y / y`, for a `y` of which nothing is known -/
def unknownDivision : Code :=
  [.basic 1 (.fetch "y"), .basic 1 (.fetch "y"), .basic 1 (.arith .div), .basic 1 (.store "x")]

/-- The search stays exact when it goes on past its limit. -/
theorem exact_past_limit :
    ((Search.start unknownDivision (some 2)).after 1).advance.2 = some (.limit 2) ∧
      (Search.start unknownDivision (some 2)).FaultFree 3 ∧
      Exact (.initial unknownDivision) ((Search.start unknownDivision (some 2)).expansions 3)
        ((Search.start unknownDivision (some 2)).after 3) := by
  have hobstacles : ∀ i < 3, ((Search.start unknownDivision (some 2)).after i).advance.2 ∈
      [none, some (.limit 2)] := by
    decide +kernel
  have hfree : (Search.start unknownDivision (some 2)).FaultFree 3 := by
    intro i hi f hfault
    have hmem := hobstacles i hi
    rw [hfault] at hmem
    simp at hmem
  exact ⟨by decide +kernel, hfree, (exact_after_advances unknownDivision (some 2)).1 3 hfree⟩

end Search

end SignAnalysis
