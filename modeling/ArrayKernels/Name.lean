/-! Names, ordered sets of names and the supply of fresh names.
A set of names keeps the order in which its members were first added, so that
every analysis lists its answer in a fixed order. -/
namespace ArrayKernels

/-- A variable: a readable base and the tag that tells it from its namesakes. -/
structure Name where
  base : String
  tag : Nat
deriving DecidableEq

def Name.text (v : Name) : String := v.base ++ "_" ++ toString v.tag

/-- A set of names in the order of first insertion. -/
structure NameSet where
  toList : List Name
  nodup : toList.Nodup

namespace NameSet

instance : Membership Name NameSet := ⟨fun s v => v ∈ s.toList⟩
instance (v : Name) (s : NameSet) : Decidable (v ∈ s) := inferInstanceAs (Decidable (v ∈ s.toList))
instance : EmptyCollection NameSet := ⟨⟨[], .nil⟩⟩

theorem mem_toList {v : Name} {s : NameSet} : v ∈ s.toList ↔ v ∈ s := Iff.rfl

@[simp] theorem not_mem_empty (v : Name) : ¬ v ∈ (∅ : NameSet) := List.not_mem_nil

/-- A name that is present keeps its place; a new one goes last. -/
def insert (s : NameSet) (v : Name) : NameSet :=
  if h : v ∈ s.toList then s
  else ⟨s.toList ++ [v], by
    refine List.nodup_append.mpr ⟨s.nodup, by simp, ?_⟩
    intro a ha b hb
    rw [List.mem_singleton] at hb
    subst hb
    exact fun e => h (e ▸ ha)⟩

@[simp] theorem mem_insert {s : NameSet} {v w : Name} : w ∈ s.insert v ↔ w ∈ s ∨ w = v := by
  unfold insert
  split
  · constructor
    · exact Or.inl
    · rintro (h | rfl)
      · exact h
      · assumption
  · simp [← mem_toList]

def insertAll (s : NameSet) (vs : List Name) : NameSet := vs.foldl insert s

@[simp] theorem mem_insertAll {vs : List Name} {s : NameSet} {w : Name} :
    w ∈ s.insertAll vs ↔ w ∈ s ∨ w ∈ vs := by
  induction vs generalizing s with
  | nil => simp [insertAll]
  | cons v vs ih =>
    have step : s.insertAll (v :: vs) = (s.insert v).insertAll vs := rfl
    rw [step, ih, mem_insert, List.mem_cons, or_assoc]

def ofList (vs : List Name) : NameSet := insertAll ∅ vs

@[simp] theorem mem_ofList {vs : List Name} {w : Name} : w ∈ ofList vs ↔ w ∈ vs := by
  simp [ofList]

/-- The members of the first set, then the new members of the second. -/
instance : Union NameSet := ⟨fun s t => s.insertAll t.toList⟩

@[simp] theorem mem_union {s t : NameSet} {w : Name} : w ∈ s ∪ t ↔ w ∈ s ∨ w ∈ t :=
  mem_insertAll

instance : Singleton Name NameSet := ⟨fun v => ⟨[v], by simp⟩⟩

@[simp] theorem mem_singleton {v w : Name} : w ∈ ({v} : NameSet) ↔ w = v := List.mem_singleton

/-- Removal keeps the order of the names that stay. -/
def without (s : NameSet) (vs : List Name) : NameSet :=
  ⟨s.toList.filter (fun v => v ∉ vs), s.nodup.filter _⟩

@[simp] theorem mem_without {s : NameSet} {vs : List Name} {w : Name} :
    w ∈ s.without vs ↔ w ∈ s ∧ w ∉ vs := by
  simp [← mem_toList, without]

/-- The names of `s` that satisfy `p`. -/
def filter (s : NameSet) (p : Name → Bool) : NameSet := ⟨s.toList.filter p, s.nodup.filter _⟩

@[simp] theorem mem_filter {s : NameSet} {p : Name → Bool} {w : Name} :
    w ∈ s.filter p ↔ w ∈ s ∧ p w = true := by
  simp [← mem_toList, filter]

/-- The union of the sets of the elements of a list, from left to right. -/
def gather {α : Type} (f : α → NameSet) (xs : List α) : NameSet :=
  xs.foldl (fun s x => s ∪ f x) ∅

theorem mem_foldl_union {α : Type} {f : α → NameSet} {xs : List α} {s : NameSet} {w : Name} :
    w ∈ xs.foldl (fun s x => s ∪ f x) s ↔ w ∈ s ∨ ∃ x ∈ xs, w ∈ f x := by
  induction xs generalizing s with
  | nil => simp
  | cons x xs ih => simp [ih, or_assoc]

@[simp] theorem mem_gather {α : Type} {f : α → NameSet} {xs : List α} {w : Name} :
    w ∈ gather f xs ↔ ∃ x ∈ xs, w ∈ f x := by
  simp [gather, mem_foldl_union]

def isEmpty (s : NameSet) : Bool := s.toList.isEmpty

end NameSet

/-- Hands out tags in increasing order. -/
structure NameSupply where
  next : Nat
deriving DecidableEq

/-- A name with the given base and a tag that was not handed out before. -/
def NameSupply.fresh (s : NameSupply) (base : String) : Name × NameSupply :=
  (⟨base, s.next⟩, ⟨s.next + 1⟩)

end ArrayKernels
