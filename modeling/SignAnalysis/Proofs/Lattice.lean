/-
The order of markers.

Markers are ordered by how much they cover: `error` lies below `uninitialized`, that
below the markers of the sort's own, and these below `any`.  The join of markers is the
least upper bound in this order, which makes every sort of markers a semilattice:

* `Marker.le_join_left`, `Marker.join_le` — the join is above both and below all else
  that is;
* `Marker.Joins` — what a set of markers says together, in terms of the order alone;
* `Summary.joinsTo_ofMarkers?` — a summary says this of the values it is made of, and
  raises exactly if an error is among them.
-/
import Mathlib.Order.Bounds.Basic
import SignAnalysis.Marker.Sign
import SignAnalysis.Marker.Summary

namespace SignAnalysis

namespace Marker

/-- The three markers that all sorts share are different ones. -/
class Distinct (α : Type) [Marker α] : Prop where
  uninitialized_ne_error : (uninitialized : α) ≠ error
  any_ne_error : (any : α) ≠ error
  any_ne_uninitialized : (any : α) ≠ uninitialized

instance : Distinct Sign := ⟨by decide, by decide, by decide⟩

instance : Distinct Truth := ⟨by decide, by decide, by decide⟩

variable {α : Type} [DecidableEq α] [Marker α]

/-- The height of a marker in the order. -/
def height (a : α) : Nat :=
  if a = error then 0 else if a = uninitialized then 1 else if a = any then 3 else 2

theorem height_pos {a : α} (ha : a ≠ error) : 0 < height a := by
  rw [height, if_neg ha]
  split_ifs <;> omega

theorem two_le_height {a : α} (ha : a ≠ error) (hu : a ≠ uninitialized) : 2 ≤ height a := by
  rw [height, if_neg ha, if_neg hu]
  split_ifs <;> omega

theorem eq_any_of_height {a : α} (h : 2 < height a) : a = any := by
  unfold height at h
  split_ifs at h with _ _ hany
  · omega
  · omega
  · exact hany
  · omega

/-- A marker is below those that are higher. -/
instance (priority := low) : PartialOrder α where
  le a b := a = b ∨ height a < height b
  le_refl a := .inl rfl
  le_trans a b c hab hbc := by
    rcases hab with rfl | hab
    · exact hbc
    · rcases hbc with rfl | hbc
      · exact .inr hab
      · exact .inr (Nat.lt_trans hab hbc)
  le_antisymm a b hab hba := by
    rcases hab with rfl | hab
    · rfl
    · rcases hba with rfl | hba
      · rfl
      · omega

instance (a b : α) : Decidable (a ≤ b) := inferInstanceAs (Decidable (_ ∨ _))

theorem error_le (a : α) : error ≤ a := by
  by_cases ha : a = error
  · exact .inl ha.symm
  · right
    rw [height, if_pos rfl]
    exact height_pos ha

theorem join_le {a b c : α} (ha : a ≤ c) (hb : b ≤ c) : join a b ≤ c := by
  unfold join
  split_ifs with hea heb hua hub hab
  · exact hb
  · exact ha
  · exact hb
  · exact ha
  · exact ha
  · -- two different markers that are neither `error` nor `uninitialized`: only `any` is above both
    have ha2 := two_le_height hea hua
    have hb2 := two_le_height heb hub
    refine .inl (Eq.symm (eq_any_of_height ?_))
    rcases ha with rfl | ha
    · rcases hb with rfl | hb
      · exact absurd rfl hab
      · omega
    · omega

variable [Distinct α]

theorem uninitialized_le {a : α} (ha : a ≠ error) : uninitialized ≤ a := by
  by_cases hu : a = uninitialized
  · exact .inl hu.symm
  · right
    have hheight : height (uninitialized : α) = 1 := by
      rw [height, if_neg Distinct.uninitialized_ne_error, if_pos rfl]
    rw [hheight]
    exact two_le_height ha hu

theorem le_any (a : α) : a ≤ any := by
  by_cases ha : a = any
  · exact .inl ha
  · right
    have hheight : height (any : α) = 3 := by
      rw [height, if_neg Distinct.any_ne_error, if_neg Distinct.any_ne_uninitialized, if_pos rfl]
    have hlow : ¬ 2 < height a := fun h => ha (eq_any_of_height h)
    omega

theorem le_join_left (a b : α) : a ≤ join a b := by
  unfold join
  split_ifs with ha hb hua hub hab
  · exact ha ▸ error_le b
  · exact le_refl a
  · exact hua ▸ uninitialized_le hb
  · exact le_refl a
  · exact le_refl a
  · exact le_any a

theorem le_join_right (a b : α) : b ≤ join a b := by
  rw [join_comm]
  exact le_join_left b a

instance (priority := low) : SemilatticeSup α where
  sup := join
  le_sup_left := le_join_left
  le_sup_right := le_join_right
  sup_le _ _ _ := join_le

/-! ### What several markers say together -/

/-- `m` is what the markers of a set say together: their least upper bound, and
`uninitialized` if there are none. -/
structure Joins (S : Set α) (m : α) : Prop where
  isLUB : S.Nonempty → IsLUB S m
  eq_uninitialized : S = ∅ → m = uninitialized

variable {S : Set α} {m n : α}

theorem joins_empty : Joins (∅ : Set α) uninitialized where
  isLUB h := absurd h Set.not_nonempty_empty
  eq_uninitialized _ := rfl

theorem joins_of_isLUB (hS : S.Nonempty) (h : IsLUB S m) : Joins S m where
  isLUB _ := h
  eq_uninitialized hempty := absurd hempty hS.ne_empty

theorem Joins.unique (hm : Joins S m) (hn : Joins S n) : m = n := by
  rcases S.eq_empty_or_nonempty with hS | hS
  · exact (hm.eq_uninitialized hS).trans (hn.eq_uninitialized hS).symm
  · exact (hm.isLUB hS).unique (hn.isLUB hS)

theorem Joins.le (h : Joins S m) (hn : n ∈ S) : n ≤ m := (h.isLUB ⟨n, hn⟩).1 hn

/-- Markers of which none is an error do not say together that there is one. -/
theorem Joins.ne_error (h : Joins S m) (hS : error ∉ S) : m ≠ error := by
  rcases S.eq_empty_or_nonempty with hempty | ⟨a, ha⟩
  · rw [h.eq_uninitialized hempty]
    exact Distinct.uninitialized_ne_error
  · rintro rfl
    have haerror : a = error := le_antisymm (h.le ha) (error_le a)
    exact hS (haerror ▸ ha)

/-- What some markers say together is below another one exactly if they all are. -/
theorem Joins.le_iff (h : Joins S m) (hn : n ≠ error) : m ≤ n ↔ ∀ a ∈ S, a ≤ n := by
  rcases S.eq_empty_or_nonempty with hempty | hne
  · rw [h.eq_uninitialized hempty, hempty]
    exact iff_of_true (uninitialized_le hn) fun a ha => absurd ha (Set.notMem_empty a)
  · exact isLUB_le_iff (h.isLUB hne)

/-- More markers say together what is above, if none of them is an error. -/
theorem Joins.mono {T : Set α} (hm : Joins S m) (hn : Joins T n) (hST : S ⊆ T)
    (hT : error ∉ T) : m ≤ n :=
  (hm.le_iff (hn.ne_error hT)).mpr fun _ ha => hn.le (hST ha)

/-- Markers without an error say together that no value was given exactly if each says so. -/
theorem Joins.eq_uninitialized_iff (h : Joins S m) (hS : error ∉ S) :
    m = uninitialized ↔ ∀ a ∈ S, a = uninitialized := by
  have hlow : ∀ a : α, a ≠ error → (a = uninitialized ↔ a ≤ uninitialized) := fun a ha =>
    ⟨le_of_eq, fun hle => le_antisymm hle (uninitialized_le ha)⟩
  rw [hlow m (h.ne_error hS), h.le_iff Distinct.uninitialized_ne_error]
  exact forall₂_congr fun a ha => (hlow a fun haerror => hS (haerror ▸ ha)).symm

/-- One more marker is joined to what the others say together.  Without an error among them,
it is the same whether there were any others. -/
theorem Joins.insert (h : Joins S m) (hS : error ∉ S) (hn : n ≠ error) :
    Joins (insert n S) (join m n) := by
  refine joins_of_isLUB (Set.insert_nonempty n S) ?_
  rcases S.eq_empty_or_nonempty with rfl | hne
  · have hjoin : join m n = n := by
      rw [h.eq_uninitialized rfl]
      exact sup_eq_right.mpr (uninitialized_le hn)
    rw [hjoin, insert_empty_eq]
    exact isLUB_singleton
  · rw [join_comm]
    exact (h.isLUB hne).insert n

end Marker

/-! ### Summaries -/

namespace Summary

variable {α : Type} [DecidableEq α] [Marker α] [Marker.Distinct α]

/-- A summary says what the evaluations of a set say together: whether one raises, and the
join of the values of the others. -/
structure Joins (S : Set α) (s : Summary α) : Prop where
  raises_iff : s.raises = true ↔ Marker.error ∈ S
  value : Marker.Joins {m ∈ S | m ≠ Marker.error} s.value

variable {S : Set α} {s t : Summary α}

theorem Joins.unique (hs : Joins S s) (ht : Joins S t) : s = t := by
  obtain ⟨v, r⟩ := s
  obtain ⟨w, q⟩ := t
  have hvalue : v = w := hs.value.unique ht.value
  have hraises : r = q := Bool.eq_iff_iff.mpr (hs.raises_iff.trans ht.raises_iff.symm)
  rw [hvalue, hraises]

theorem joins_empty : Joins (∅ : Set α) empty where
  raises_iff := iff_of_false Bool.false_ne_true (Set.notMem_empty _)
  value := by
    rw [Set.sep_empty]
    exact Marker.joins_empty

/-- A step of the fold: the summary takes in one more evaluation. -/
theorem Joins.insert (h : Joins S s) (m : α) : Joins (Insert.insert m S) (s.insert m) := by
  have hfree : Marker.error ∉ {a ∈ S | a ≠ Marker.error} := fun hmem => hmem.2 rfl
  by_cases hm : m = Marker.error
  · -- an error brings no value
    subst hm
    have hvalue : {a ∈ Insert.insert Marker.error S | a ≠ Marker.error} =
        {a ∈ S | a ≠ Marker.error} := by
      ext a
      simp +contextual
    rw [Summary.insert, ofMarker, if_pos rfl, join]
    constructor
    · simp
    · rw [hvalue]
      have hjoin : Marker.join s.value Marker.uninitialized = s.value :=
        sup_eq_left.mpr (Marker.uninitialized_le (h.value.ne_error hfree))
      exact hjoin.symm ▸ h.value
  · have hvalue : {a ∈ Insert.insert m S | a ≠ Marker.error} =
        Insert.insert m {a ∈ S | a ≠ Marker.error} := by
      ext a
      simp only [Set.mem_insert_iff, Set.mem_ofPred_eq, or_and_right]
      exact or_congr_left ⟨And.left, fun ham => ⟨ham, ham ▸ hm⟩⟩
    rw [Summary.insert, ofMarker, if_neg hm, join]
    constructor
    · rw [Bool.or_false, h.raises_iff, Set.mem_insert_iff]
      exact (or_iff_right (Ne.symm hm)).symm
    · rw [hvalue]
      exact h.value.insert hfree hm

theorem Joins.foldl (h : Joins S s) (ms : List α) :
    Joins (S ∪ {m | m ∈ ms}) (ms.foldl Summary.insert s) := by
  induction ms generalizing S s with
  | nil => simpa using h
  | cons m ms ih =>
    have hset : S ∪ {a | a ∈ m :: ms} = Insert.insert m S ∪ {a | a ∈ ms} := by
      ext a
      simp only [Set.mem_union, Set.mem_ofPred_eq, List.mem_cons, Set.mem_insert_iff]
      tauto
    rw [hset, List.foldl_cons]
    exact ih (h.insert m)

/-- There is a summary exactly if there were evaluations, and it is what they say together. -/
structure JoinsTo (S : Set α) (o : Option (Summary α)) : Prop where
  isSome_iff : o.isSome = true ↔ S.Nonempty
  joins : ∀ s, o = some s → Joins S s

theorem JoinsTo.unique {o u : Option (Summary α)} (ho : JoinsTo S o) (hu : JoinsTo S u) :
    o = u := by
  have hsome : o.isSome = true ↔ u.isSome = true := ho.isSome_iff.trans hu.isSome_iff.symm
  cases o with
  | none =>
    cases u with
    | none => rfl
    | some t => simp at hsome
  | some s =>
    cases u with
    | none => simp at hsome
    | some t => rw [(ho.joins s rfl).unique (hu.joins t rfl)]

/-- A summary covers every evaluation that it is made of. -/
theorem JoinsTo.exists_of_mem {o : Option (Summary α)} (ho : JoinsTo S o) {m : α} (hm : m ∈ S) :
    ∃ s, o = some s ∧ (m = Marker.error → s.raises = true) ∧
      (m ≠ Marker.error → m ≤ s.value) := by
  obtain ⟨s, hs⟩ := Option.isSome_iff_exists.mp (ho.isSome_iff.mpr ⟨m, hm⟩)
  have hjoins := ho.joins s hs
  refine ⟨s, hs, ?_, ?_⟩
  · rintro rfl
    exact hjoins.raises_iff.mpr hm
  · intro hvalue
    exact hjoins.value.le ⟨hm, hvalue⟩

theorem joinsTo_ofMarkers? (ms : List α) : JoinsTo {m | m ∈ ms} (ofMarkers? ms) := by
  rw [ofMarkers?]
  split_ifs with hempty
  · rw [List.isEmpty_iff.mp hempty]
    exact ⟨by simp, fun s hs => by cases hs⟩
  · rw [List.isEmpty_iff] at hempty
    refine ⟨iff_of_true rfl (List.exists_mem_of_ne_nil ms hempty), ?_⟩
    rintro s ⟨⟩
    have hfold := joins_empty.foldl ms
    rwa [Set.empty_union] at hfold

end Summary

end SignAnalysis
