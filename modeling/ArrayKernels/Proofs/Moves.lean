import ArrayKernels.Proofs.Scoping

/-! Code that moves. Statements leave a piece of code and the rest stays; both are in scope, and binders stay
distinct. Binders are accounted for by counting: a name is bound as often as before, or it was drawn from
the supply. -/
namespace ArrayKernels

/-- How often a name may have been drawn while the supply went from one number to another. -/
def drawn (n n' : Nat) (v : Name) : Nat := if n ≤ v.tag ∧ v.tag < n' then 1 else 0

theorem drawn_self (n : Nat) (v : Name) : drawn n n v = 0 := by
  rw [drawn, if_neg (by omega)]

theorem drawn_add {n m k : Nat} (first : n ≤ m) (second : m ≤ k) (v : Name) : drawn n m v + drawn m k v = drawn n k v := by
  unfold drawn
  split <;> split <;> split <;> omega

/-- The name that is drawn first. -/
theorem drawn_succ (base : String) (n : Nat) (v : Name) : [(⟨base, n⟩ : Name)].count v ≤ drawn n (n + 1) v := by
  rw [List.count_singleton]
  unfold drawn
  split
  · rename_i same
    obtain rfl := beq_iff_eq.mp same
    exact Nat.le_of_eq (if_pos ⟨Nat.le_refl n, Nat.lt_succ_self n⟩).symm
  · omega

/-- Binders fit into a scope: they are distinct and new, and all names are below `next`. -/
structure Fits (S : Scope) (next : Nat) (bound : List Name) : Prop where
  scope : ∀ v, S v → v.tag < next
  apart : ∀ v ∈ bound, ¬S v
  distinct : bound.Nodup
  below : ∀ v ∈ bound, v.tag < next

namespace Fits

variable {S : Scope} {n n' : Nat} {bound bound' names : List Name}

/-- Binders of which each is an old one or was drawn. -/
theorem renew (h : Fits S n bound) (grows : n ≤ n') (counts : ∀ v, bound'.count v ≤ bound.count v + drawn n n' v) :
    Fits S n' bound' := by
  have origin (v : Name) (mem : v ∈ bound') : v ∈ bound ∨ n ≤ v.tag ∧ v.tag < n' := by
    have once := counts v
    have here := List.count_pos_iff.mpr mem
    unfold drawn at once
    split at once
    · exact .inr ‹_›
    · exact .inl (List.count_pos_iff.mp (by omega))
  constructor
  · exact fun v mem => Nat.lt_of_lt_of_le (h.scope v mem) grows
  · intro v mem visible
    rcases origin v mem with old | new
    · exact h.apart v old visible
    · exact absurd (h.scope v visible) (by omega)
  · refine List.nodup_iff_count.mpr fun v => Nat.le_trans (counts v) ?_
    have once := List.nodup_iff_count.mp h.distinct v
    unfold drawn
    split
    · rename_i new
      have absent : bound.count v = 0 := List.count_eq_zero.mpr fun mem => absurd (h.below v mem) (by omega)
      omega
    · omega
  · intro v mem
    rcases origin v mem with old | new
    · exact Nat.lt_of_lt_of_le (h.below v old) grows
    · exact new.2

theorem part (h : Fits S n bound) (counts : ∀ v, bound'.count v ≤ bound.count v) : Fits S n bound' :=
  h.renew (Nat.le_refl n) fun v => by
    rw [drawn_self]
    exact counts v

theorem later (h : Fits S n bound) (grows : n ≤ n') : Fits S n' bound := h.renew grows fun _ => Nat.le_add_right _ _

theorem left (h : Fits S n (bound ++ bound')) : Fits S n bound :=
  h.part fun v => by
    rw [List.count_append]
    omega

theorem right (h : Fits S n (bound ++ bound')) : Fits S n bound' :=
  h.part fun v => by
    rw [List.count_append]
    omega

/-- The binders behind some of the names. -/
theorem enter (h : Fits S n (names ++ bound)) : Fits (S.bind names) n bound := by
  obtain ⟨_, distinct, apart⟩ := List.nodup_append.mp h.distinct
  constructor
  · exact fun v mem => mem.elim (h.scope v) fun own => h.below v (List.mem_append_left _ own)
  · exact fun v mem visible => visible.elim (h.apart v (List.mem_append_right _ mem)) fun own => apart v own v mem rfl
  · exact distinct
  · exact fun v mem => h.below v (List.mem_append_right _ mem)

end Fits

/-- Statements have left a piece of code that bound the names `bound`; the rest binds `bound'` and is in scope behind
them. All binders are old ones or were drawn. -/
structure Moves (S : Scope) (n n' : Nat) (bound : List Name) (hoisted : List Stm) (bound' : List Name) (rest : Scope → Prop) :
    Prop where
  grows : n ≤ n'
  counts : ∀ v, (boundInStms hoisted).count v + bound'.count v ≤ bound.count v + drawn n n' v
  before : StmsScoped S ∅ hoisted
  after : ∀ T : Scope, (∀ v, S.bind (stmNames hoisted) v → T v) → rest T

namespace Moves

variable {S : Scope} {n m n' : Nat} {bound bound' bound₁ bound₂ bound₁' bound₂' names : List Name}
  {hoisted hoisted₁ hoisted₂ : List Stm} {rest rest' rest₁ rest₂ : Scope → Prop}

/-- Code is changed in its place. -/
theorem inPlace (grows : n ≤ n') (counts : ∀ v, bound'.count v ≤ bound.count v + drawn n n' v)
    (stays : ∀ T : Scope, (∀ v, S v → T v) → rest T) : Moves S n n' bound [] bound' rest where
  grows := grows
  counts v := by
    rw [boundInStms, List.count_nil, Nat.zero_add]
    exact counts v
  before := InScope.empty
  after T more := stays T fun v mem => more v (.inl mem)

/-- Nothing leaves. -/
theorem stay (bound : List Name) (stays : ∀ T : Scope, (∀ v, S v → T v) → rest T) : Moves S n n bound [] bound rest :=
  inPlace (Nat.le_refl n) (fun _ => Nat.le_add_right _ _) stays

theorem imp (h : Moves S n n' bound hoisted bound' rest) (more : ∀ T : Scope, (∀ v, S v → T v) → rest T → rest' T) :
    Moves S n n' bound hoisted bound' rest' :=
  { h with after := fun T part => more T (fun v mem => part v (.inl mem)) (h.after T part) }

/-- Where nothing has left, the rest is in scope in the same place. -/
theorem here (h : Moves S n n' bound [] bound' rest) : rest S :=
  h.after S fun _ mem => mem.resolve_right List.not_mem_nil

/-- Code behind what has left other code. -/
theorem next (h : Moves S n m bound₁ hoisted₁ bound₁' rest₁)
    (h' : Moves (S.bind (stmNames hoisted₁)) m n' bound₂ hoisted₂ bound₂' rest₂) :
    Moves S n n' (bound₁ ++ bound₂) (hoisted₁ ++ hoisted₂) (bound₁' ++ bound₂') fun T => rest₁ T ∧ rest₂ T where
  grows := Nat.le_trans h.grows h'.grows
  counts v := by
    have first := h.counts v
    have second := h'.counts v
    have both := drawn_add h.grows h'.grows v
    simp only [boundInStms_append, List.count_append]
    omega
  before := stmsScoped_append.mpr ⟨h.before, h'.before⟩
  after T part := by
    rw [stmNames_append, Scope.bind_append] at part
    exact ⟨h.after T fun v mem => part v (.inl mem), h'.after T part⟩

theorem widen (h : Moves S n n' bound hoisted bound' rest) (names : List Name) :
    Moves (S.bind names) n n' bound hoisted bound' rest :=
  { h with
    before := h.before.mono fun _ => .inl
    after := fun T part => h.after T fun v mem => part v (mem.imp_left .inl) }

theorem append (h : Moves S n m bound₁ hoisted₁ bound₁' rest₁) (h' : Moves S m n' bound₂ hoisted₂ bound₂' rest₂) :
    Moves S n n' (bound₁ ++ bound₂) (hoisted₁ ++ hoisted₂) (bound₁' ++ bound₂') fun T => rest₁ T ∧ rest₂ T :=
  h.next (h'.widen _)

/-- Binders that stay. -/
theorem under (names : List Name) (h : Moves S n n' bound hoisted bound' rest) :
    Moves S n n' (names ++ bound) hoisted (names ++ bound') rest :=
  { h with
    counts := fun v => by
      have counts := h.counts v
      simp only [List.count_append]
      omega }

theorem of_le (h : Moves S n n' bound hoisted bound' rest) (fewer : ∀ v, bound.count v ≤ bound₁.count v) :
    Moves S n n' bound₁ hoisted bound' rest :=
  { h with counts := fun v => Nat.le_trans (h.counts v) (Nat.add_le_add_right (fewer v) _) }

/-- What has left the code, and the rest, fit into the scope. -/
theorem fits (h : Moves S n n' bound hoisted bound' rest) (old : Fits S n bound) : Fits S n' (boundInStms hoisted ++ bound') :=
  old.renew h.grows fun v => by
    rw [List.count_append]
    exact h.counts v

/-- Code behind some names: what has left it does not mention them. -/
theorem leave (h : Moves (S.bind names) n n' bound hoisted bound' rest) (old : Fits S n (names ++ bound))
    (silent : ∀ stm ∈ hoisted, ∀ v ∈ names, v ∉ stm.free) :
    Moves S n n' bound hoisted bound' fun T => rest (T.bind names) where
  grows := h.grows
  counts := h.counts
  before := by
    refine StmsScoped.narrow hoisted (fun v mem mentioned => ?_) h.before
    rcases mem with visible | own
    · exact visible
    · exfalso
      rcases mentioned with free | binds
      · obtain impossible | ⟨stm, among, free⟩ := exists_of_freeBefore free
        · exact NameSet.not_mem_empty v impossible
        · exact silent stm among v own free
      · exact (h.fits old.enter).apart v (List.mem_append_left _ binds) (.inr own)
  after T part := by
    refine h.after _ fun v mem => ?_
    rcases mem with (visible | own) | named
    · exact .inl (part v (.inl visible))
    · exact .inr own
    · exact .inl (part v (.inr named))

end Moves

end ArrayKernels
