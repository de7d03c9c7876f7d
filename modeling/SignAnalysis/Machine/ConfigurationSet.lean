/-
Finite sets of configurations.

A search asks for every configuration it meets whether it has met it before,
and configurations of one program have much in common.  A set therefore keeps
with each configuration its fingerprint, a number that can be compared at once;
only configurations with the same fingerprint are compared in full.

The view of a set is `ConfigurationSet.toList`, which has no duplicates:

* `ConfigurationSet.mem_insert` — inserting adds one configuration;
* `ConfigurationSet.size_insert` — and makes the set larger if it is new.
-/
import SignAnalysis.Machine.Configuration

namespace SignAnalysis

/-- A number for an operand, different for different ones. -/
def Operand.digit : Operand → Nat
  | int a => 2 * a.ctorIdx
  | bool b => 2 * b.ctorIdx + 1

/-- A number that equal configurations share, and in which most others differ. -/
def Configuration.fingerprint (c : Configuration) : Nat :=
  let signs := c.store.entries.map fun e => e.2.ctorIdx
  let rest := [c.code.length, c.point?.getD 0, c.tryDepth, c.exceptionDepth, c.exceptional.toNat]
  (signs ++ c.stack.map Operand.digit ++ rest).foldl (fun h d => (h * 31 + d) % 1000003) 0

/-- A finite set of configurations. -/
structure ConfigurationSet where
  /-- The configurations with their fingerprints, the last one inserted first. -/
  entries : List (Nat × Configuration)
  tagged : ∀ e ∈ entries, e.1 = e.2.fingerprint
  nodup : (entries.map (·.2)).Nodup
deriving DecidableEq

namespace ConfigurationSet

def empty : ConfigurationSet := ⟨[], by simp, by simp⟩

/-- The members, the last one inserted first. -/
def toList (s : ConfigurationSet) : List Configuration := s.entries.map (·.2)

instance : Membership Configuration ConfigurationSet := ⟨fun s c => c ∈ s.toList⟩

theorem mem_toList {s : ConfigurationSet} {c : Configuration} : c ∈ s.toList ↔ c ∈ s := .rfl

theorem nodup_toList (s : ConfigurationSet) : s.toList.Nodup := s.nodup

def size (s : ConfigurationSet) : Nat := s.entries.length

@[simp] theorem length_toList (s : ConfigurationSet) : s.toList.length = s.size := by
  simp [toList, size]

def contains (s : ConfigurationSet) (c : Configuration) : Bool :=
  let f := c.fingerprint
  s.entries.any fun e => e.1 == f && e.2 == c

theorem contains_iff {s : ConfigurationSet} {c : Configuration} : s.contains c = true ↔ c ∈ s := by
  simp only [contains, List.any_eq_true, Bool.and_eq_true, beq_iff_eq, ← mem_toList, toList,
    List.mem_map]
  constructor
  · rintro ⟨e, he, -, hc⟩
    exact ⟨e, he, hc⟩
  · rintro ⟨e, he, hc⟩
    exact ⟨e, he, hc ▸ s.tagged e he, hc⟩

instance (s : ConfigurationSet) (c : Configuration) : Decidable (c ∈ s) :=
  decidable_of_iff _ contains_iff

/-- Adds a configuration, unless it is there already. -/
def insert (s : ConfigurationSet) (c : Configuration) : ConfigurationSet :=
  if h : c ∈ s then s
  else
    { entries := (c.fingerprint, c) :: s.entries
      tagged := by simpa using fun f d hd => s.tagged (f, d) hd
      nodup := by simpa using ⟨by simpa [← mem_toList, toList] using h, s.nodup⟩ }

theorem insert_of_mem {s : ConfigurationSet} {c : Configuration} (h : c ∈ s) : s.insert c = s := by
  simp [insert, h]

theorem toList_insert_of_not_mem {s : ConfigurationSet} {c : Configuration} (h : c ∉ s) :
    (s.insert c).toList = c :: s.toList := by
  simp [insert, h, toList]

theorem mem_insert {s : ConfigurationSet} {c d : Configuration} :
    d ∈ s.insert c ↔ d = c ∨ d ∈ s := by
  by_cases h : c ∈ s
  · rw [insert_of_mem h]
    exact ⟨.inr, fun hd => hd.elim (· ▸ h) id⟩
  · rw [← mem_toList, toList_insert_of_not_mem h, List.mem_cons, mem_toList]

theorem size_insert {s : ConfigurationSet} {c : Configuration} (h : c ∉ s) :
    (s.insert c).size = s.size + 1 := by
  rw [← length_toList, toList_insert_of_not_mem h, List.length_cons, length_toList]

end ConfigurationSet

end SignAnalysis
