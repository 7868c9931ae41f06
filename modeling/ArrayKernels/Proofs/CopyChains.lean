import ArrayKernels.Proofs.Resolving

/-! Chains of copies. A name that is bound to a variable is replaced by it, and the variable in turn by what it is bound to. Where some
rank of the names falls along the copies of a table, this comes to an end, and the number of steps that is granted for it is enough. -/
namespace ArrayKernels.SymbolTable

variable {t t' t'' : SymbolTable} {v w u : Name}

/-! Following copies with no bound on their number -/

/-- Following copies from the first name ends at the second. -/
inductive Followed (t : SymbolTable) : Name → Name → Prop where
  | stop {v : Name} (last : t.copyOf v = none) : Followed t v v
  | step {v w u : Name} (copied : t.copyOf v = some w) (rest : Followed t w u) : Followed t v u

/-- Resolving the first operand ends with the second. -/
inductive Resolved (t : SymbolTable) : Operand → Operand → Prop where
  | const (c : Scalar) : Resolved t (.const c) (.const c)
  | constant {v : Name} {c : Scalar} (defined : t.defn v = some (.operand (.const c))) : Resolved t (.var v) (.const c)
  | copy {v w : Name} {x : Operand} (copied : t.copyOf v = some w) (rest : Resolved t (.var w) x) : Resolved t (.var v) x
  | other {v : Name} (last : ∀ x, t.defn v ≠ some (.operand x)) : Resolved t (.var v) (.var v)

/-- Every chain of copies ends, where the bounded search for its end finds it. -/
structure CopiesEnd (t : SymbolTable) : Prop where
  names : ∀ v, t.Followed v (t.resolve v)
  operands : ∀ x, t.Resolved x (t.resolveOperand x)

/-! Scopes with more names -/

/-- The second table has more entries, without definitions. -/
def Opens (t t' : SymbolTable) : Prop := ∃ new : List (Name × Entry), (∀ b ∈ new, b.2.defn = none) ∧ t' = t.extend new

namespace Opens

theorem refl (t : SymbolTable) : t.Opens t := ⟨[], fun _ mem => absurd mem List.not_mem_nil, rfl⟩

theorem extend (h : t.Opens t') {new : List (Name × Entry)} (plain : ∀ b ∈ new, b.2.defn = none) : t.Opens (t'.extend new) := by
  obtain ⟨old, plain', rfl⟩ := h
  refine ⟨old ++ new, fun b mem => (List.mem_append.mp mem).elim (plain' b) (plain b), ?_⟩
  simp only [SymbolTable.extend, List.reverse_append, List.append_assoc]

theorem trans (h : t.Opens t') (h' : t'.Opens t'') : t.Opens t'' := by
  obtain ⟨new, plain, rfl⟩ := h'
  exact h.extend plain

theorem bindParams (h : t.Opens t') (params : List Binder) : t.Opens (t'.bindParams params) := by
  refine h.extend fun b mem => ?_
  obtain ⟨p, _, rfl⟩ := List.mem_map.mp mem
  rfl

theorem bindIndex (h : t.Opens t') (v : Name) (bound : Operand) : t.Opens (t'.bindIndex v bound) := by
  refine h.extend fun b mem => ?_
  obtain rfl := List.mem_singleton.mp mem
  rfl

theorem defn (h : t.Opens t') {e : Exp} (defined : t'.defn v = some e) : t.defn v = some e := by
  obtain ⟨new, plain, rfl⟩ := h
  exact defn_extend_plain plain defined

end Opens

/-- Copies end in the table and in every table that opens from it. -/
def EndsCopies (t : SymbolTable) : Prop := ∀ t', t.Opens t' → t'.CopiesEnd

/-! Chains along which a rank falls -/

theorem copyOf_eq_some : t.copyOf v = some w ↔ t.defn v = some (.operand (.var w)) := by
  unfold copyOf
  split
  · rename_i defined
    simp [defined]
  · rename_i other
    simp only [reduceCtorEq, false_iff]
    exact fun defined => other w defined

/-- The rank is smaller at the end of each copy. -/
def Falls (rank : Name → Nat) (t : SymbolTable) : Prop := ∀ v w, t.copyOf v = some w → rank w < rank v

section
variable {rank : Name → Nat}

/-- How many entries are there at most as high as the name. -/
def entriesBelow (rank : Name → Nat) (t : SymbolTable) (v : Name) : Nat := t.entries.countP fun b => rank b.1 ≤ rank v

theorem Falls.entriesBelow_lt (falls : t.Falls rank) (copied : t.copyOf v = some w) : t.entriesBelow rank w < t.entriesBelow rank v := by
  have lower := falls v w copied
  obtain ⟨e, found, _⟩ := Option.bind_eq_some_iff.mp (copyOf_eq_some.mp copied)
  obtain ⟨before, after, split, _⟩ := List.lookup_eq_some_iff.mp found
  have others (es : List (Name × Entry)) : es.countP (fun b => rank b.1 ≤ rank w) ≤ es.countP fun b => rank b.1 ≤ rank v := by
    refine List.countP_mono_left fun b _ => ?_
    simp only [decide_eq_true_eq]
    omega
  have first := others before
  have last := others after
  have own : ¬rank v ≤ rank w := by omega
  simp only [entriesBelow, split, List.countP_append, List.countP_cons, own, decide_false, Nat.le_refl, decide_true, if_true]
  simp only [Bool.false_eq_true, if_false]
  omega

theorem Falls.followed (falls : t.Falls rank) {n : Nat} (enough : t.entriesBelow rank v ≤ n) : t.Followed v (t.follow n v) := by
  induction n generalizing v with
  | zero =>
    refine .stop (Option.eq_none_iff_forall_ne_some.mpr fun w copied => ?_)
    have fewer := falls.entriesBelow_lt copied
    omega
  | succ n ih =>
    rw [follow]
    split
    · rename_i w copied
      have fewer := falls.entriesBelow_lt copied
      exact .step copied (ih (by omega))
    · exact .stop ‹_›

theorem Followed.last (h : t.Followed v u) : t.copyOf u = none := by
  induction h with
  | stop last => exact last
  | step _ _ ih => exact ih

theorem Followed.resolved (h : t.Followed v u) {x : Operand} (ends : t.Resolved (.var u) x) : t.Resolved (.var v) x := by
  induction h with
  | stop _ => exact ends
  | step copied _ ih => exact .copy copied (ih ends)

theorem Falls.copiesEnd (falls : t.Falls rank) : t.CopiesEnd := by
  have followed (v : Name) : t.Followed v (t.resolve v) := falls.followed List.countP_le_length
  refine ⟨followed, fun x => ?_⟩
  cases x with
  | const c => exact .const c
  | var v =>
    have last := (followed v).last
    rw [resolveOperand]
    split
    · rename_i c defined
      exact (followed v).resolved (.constant defined)
    · rename_i other
      refine (followed v).resolved (.other fun x defined => ?_)
      cases x with
      | const c => exact other c defined
      | var w =>
        rw [copyOf_eq_some.mpr defined] at last
        cases last

theorem Falls.opens (falls : t.Falls rank) (h : t.Opens t') : t'.Falls rank :=
  fun v w copied => falls v w (copyOf_eq_some.mpr (h.defn (copyOf_eq_some.mp copied)))

theorem Falls.endsCopies (falls : t.Falls rank) : t.EndsCopies := fun _ h => (falls.opens h).copiesEnd

/-- A chain never climbs. -/
theorem Falls.follow_le (falls : t.Falls rank) (n : Nat) (v : Name) : rank (t.follow n v) ≤ rank v := by
  induction n generalizing v with
  | zero => exact Nat.le_refl _
  | succ n ih =>
    rw [follow]
    split
    · rename_i w copied
      exact Nat.le_of_lt (Nat.lt_of_le_of_lt (ih w) (falls v w copied))
    · exact Nat.le_refl _

end

end ArrayKernels.SymbolTable
