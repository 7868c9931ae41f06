import ArrayKernels.Proofs.Scoping
import ArrayKernels.Simplify.Copies

/-! Resolving copies stays in scope: if the definitions of a table mention names of a scope only, what is
resolved through the table is in scope too. -/
namespace ArrayKernels.SymbolTable

/-- The definitions of the table that have no bodies are made of names in scope. -/
def Within (S : Scope) (t : SymbolTable) : Prop :=
  ∀ v e, t.defn v = some e → e.isNested = false → S v ∧ InScope S e.free

variable {S T : Scope} {t : SymbolTable}

theorem within_empty : empty.Within S := fun _ _ defined => nomatch defined

theorem Within.mono (h : t.Within S) (more : ∀ v, S v → T v) : t.Within T := by
  intro v e defined leaf
  obtain ⟨here, free⟩ := h v e defined leaf
  exact ⟨more v here, free.mono more⟩

/-! Extending a table -/

theorem defn_extend {new : List (Name × Entry)} {v : Name} {e : Exp} (h : (t.extend new).defn v = some e) :
    (∃ b ∈ new, b.1 = v ∧ b.2.defn = some e) ∨ v ∉ new.map Prod.fst ∧ t.defn v = some e := by
  rw [defn, lookup, extend, List.lookup_append] at h
  cases found : new.reverse.lookup v with
  | some b =>
    rw [found, Option.some_or, Option.bind_some] at h
    obtain ⟨before, after, split, _⟩ := List.lookup_eq_some_iff.mp found
    refine .inl ⟨(v, b), List.mem_reverse.mp ?_, rfl, h⟩
    rw [split]
    exact List.mem_append_right _ List.mem_cons_self
  | none =>
    rw [found, Option.none_or] at h
    refine .inr ⟨fun mem => ?_, h⟩
    obtain ⟨b, inside, same⟩ := List.mem_map.mp mem
    have other := List.lookup_eq_none_iff.mp found b (List.mem_reverse.mpr inside)
    simp [same] at other

/-- Entries without definitions, as they are made for parameters, take definitions away at most. -/
theorem defn_extend_plain {new : List (Name × Entry)} (plain : ∀ b ∈ new, b.2.defn = none) {v : Name} {e : Exp}
    (h : (t.extend new).defn v = some e) : t.defn v = some e := by
  obtain ⟨b, mem, _, defined⟩ | ⟨_, defined⟩ := defn_extend h
  · rw [plain b mem] at defined
    cases defined
  · exact defined

theorem Within.extend (h : t.Within S) {new : List (Name × Entry)} (plain : ∀ b ∈ new, b.2.defn = none) :
    (t.extend new).Within S := fun v e defined => h v e (defn_extend_plain plain defined)

theorem Within.bindParams (h : t.Within S) (params : List Binder) : (t.bindParams params).Within S := by
  refine h.extend fun b mem => ?_
  obtain ⟨p, _, rfl⟩ := List.mem_map.mp mem
  rfl

theorem Within.bindIndex (h : t.Within S) (v : Name) (bound : Operand) : (t.bindIndex v bound).Within S := by
  refine h.extend fun b mem => ?_
  obtain rfl := List.mem_singleton.mp mem
  rfl

/-- A statement defines the name that it binds alone. -/
theorem defn_bindStm {stm : Stm} {v : Name} {e : Exp} (h : (t.bindStm stm).defn v = some e) :
    (∃ b, stm.pat = ⟨[], [b]⟩ ∧ b.name = v) ∧ stm.exp = e ∨ v ∉ stm.pat.names ∧ t.defn v = some e := by
  obtain ⟨b, mem, rfl, defined⟩ | ⟨other, defined⟩ := defn_extend h
  · obtain ⟨binder, inside, rfl⟩ := List.mem_map.mp mem
    simp only [stmEntry] at defined
    split at defined
    · rename_i sole
      cases defined
      obtain ⟨b, single⟩ := Pattern.eq_of_soleName sole
      rw [single] at inside
      obtain rfl := List.mem_singleton.mp inside
      exact .inl ⟨⟨binder, single, rfl⟩, rfl⟩
    · cases defined
  · refine .inr ⟨fun mem => other ?_, defined⟩
    rw [List.map_map]
    exact mem

theorem Within.bindStm (h : t.Within S) {stm : Stm} (within : stm.exp.Scoped S) : (t.bindStm stm).Within (S.bind stm.pat.names) := by
  intro v e defined leaf
  obtain ⟨⟨b, single, rfl⟩, rfl⟩ | ⟨_, old⟩ := defn_bindStm defined
  · constructor
    · rw [single]
      exact .inr List.mem_cons_self
    · exact ((Exp.scoped_iff_of_leaf leaf).mp within).mono fun _ => .inl
  · exact (h.mono fun _ => .inl) v e old leaf

/-! Resolving -/

theorem Within.follow (h : t.Within S) (n : Nat) {v : Name} (mem : S v) : S (t.follow n v) := by
  induction n generalizing v with
  | zero => exact mem
  | succ n ih =>
    rw [SymbolTable.follow]
    split
    · rename_i w copied
      rw [copyOf] at copied
      split at copied
      · rename_i defined
        cases copied
        exact ih ((h v _ defined rfl).2 _ (NameSet.mem_singleton.mpr rfl))
      · cases copied
    · exact mem

section
variable (h : t.Within S)
include h

theorem Within.name {v : Name} (mem : S v) : S (t.resolve v) := h.follow _ mem

theorem Within.operand {x : Operand} (inside : InScope S x.free) : InScope S (t.resolveOperand x).free := by
  cases x with
  | const c => exact inside
  | var v =>
    rw [resolveOperand]
    split
    · exact InScope.empty
    · exact InScope.singleton_iff.mpr (h.name (InScope.singleton_iff.mp inside))

theorem Within.operands {xs : List Operand} (inside : InScope S (freeOperands xs)) : InScope S (freeOperands (t.resolveOperands xs)) := by
  rw [freeOperands, InScope.gather_iff] at inside ⊢
  intro x mem
  obtain ⟨y, among, rfl⟩ := List.mem_map.mp mem
  exact h.operand (inside y among)

theorem Within.names {vs : List Name} (inside : InScope S (freeNames vs)) : InScope S (freeNames (t.resolveAll vs)) := by
  intro v mem
  obtain ⟨w, among, rfl⟩ := List.mem_map.mp (NameSet.mem_ofList.mp mem)
  exact h.name (inside w (NameSet.mem_ofList.mpr among))

theorem Within.certs {vs : List Name} (inside : InScope S (freeNames vs)) : InScope S (freeNames (t.resolveCerts vs)) :=
  (h.names inside).part fun _ mem => NameSet.mem_ofList.mp mem

theorem Within.pairs {xs : List (Operand × Name)} (inside : InScope S (NameSet.gather (fun x => x.1.free ∪ {x.2}) xs)) :
    InScope S (NameSet.gather (fun x => x.1.free ∪ {x.2}) (xs.map fun x => (t.resolveOperand x.1, t.resolve x.2))) := by
  rw [InScope.gather_iff] at inside ⊢
  intro x mem
  obtain ⟨y, among, rfl⟩ := List.mem_map.mp mem
  have both := inside y among
  simp only [InScope.union_iff, InScope.singleton_iff] at both ⊢
  exact ⟨h.operand both.1, h.name both.2⟩

theorem Within.type {ty : Ty} (inside : InScope S ty.free) : InScope S (t.resolveTy ty).free := by
  cases ty with
  | scalar e => exact inside
  | array e shape unique => exact h.operands inside
  | mem size space => exact h.operand inside

theorem Within.types {tys : List Ty} (inside : InScope S (freeTypes tys)) : InScope S (freeTypes (tys.map t.resolveTy)) := by
  rw [freeTypes, InScope.gather_iff] at inside ⊢
  intro ty mem
  obtain ⟨old, among, rfl⟩ := List.mem_map.mp mem
  exact h.type (inside old among)

theorem Within.binder {b : Binder} (inside : InScope S b.free) : InScope S (t.resolveBinder b).free := by
  rw [Binder.free, InScope.union_iff] at inside ⊢
  exact ⟨h.type inside.1, inside.2⟩

theorem Within.size {s : LaunchSize} (inside : InScope S s.free) : InScope S (t.resolveSize s).free := h.operands inside

end

theorem names_map_resolveBinder (bs : List Binder) : (bs.map t.resolveBinder).map Binder.name = bs.map Binder.name := by
  rw [List.map_map]
  rfl

theorem names_resolvePattern (pat : Pattern) : (t.resolvePattern pat).names = pat.names := by
  simp only [Pattern.names, Pattern.binders, resolvePattern, List.map_append, names_map_resolveBinder]

theorem Within.binders (h : t.Within S) {bs : List Binder} (inside : BindersScoped S bs) :
    BindersScoped S (bs.map t.resolveBinder) := by
  induction bs generalizing S with
  | nil => trivial
  | cons b bs ih => exact ⟨h.binder inside.1, ih (h.mono fun _ => .inl) inside.2⟩

theorem Within.pattern (h : t.Within S) {pat : Pattern} (inside : pat.Scoped S) : (t.resolvePattern pat).Scoped S := by
  refine ⟨h.binders inside.1, fun b mem => ?_⟩
  obtain ⟨old, among, rfl⟩ := List.mem_map.mp mem
  rw [resolvePattern, names_map_resolveBinder]
  exact (h.mono fun _ => .inl).binder (inside.2 old among)

end ArrayKernels.SymbolTable
