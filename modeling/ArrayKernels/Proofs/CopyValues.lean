import ArrayKernels.Proofs.CopyChains
import ArrayKernels.Proofs.Run

/-! Copies have the values of their originals. Parameters, indices and statements bring names into scope, and into the environment
with them. Where each declares new names, and statements mention earlier names only, a name that the table records as a copy has the
value of what it copies, whatever is declared later. Copies lead back in the order of the declarations, so that following them ends,
and it ends at a name that is no copy and has the value of the first one. -/
namespace ArrayKernels

/-! Scopes and their environments -/

/-- What brings names into scope, with the values of names that are not computed. -/
inductive Declaration where
  | params (args : List (Binder × Value))
  | index (v : Name) (bound : Operand) (value : Value)
  | binding (stm : Stm)

namespace Declaration

def names : Declaration → List Name
  | params args => args.map fun a => a.1.name
  | index v _ _ => [v]
  | binding stm => stm.pat.names

/-- The names that a computed value depends on. -/
def mentions : Declaration → NameSet
  | binding stm => stm.exp.free
  | _ => ∅

/-- The table with the names of the declaration. -/
def enter (t : SymbolTable) : Declaration → SymbolTable
  | params args => t.bindParams (args.map Prod.fst)
  | index v bound _ => t.bindIndex v bound
  | binding stm => t.bindStm stm

/-- The environment with the values of the declaration. -/
def run (env : Env) : Declaration → Eval Env
  | params args => .ok (env.bindAll (args.map fun a => (a.1.name, a.2)))
  | index v _ value => .ok (env.bind v value)
  | binding stm => evalStms env [stm]

end Declaration

/-- After the known names, every declaration has new names and mentions those before it only. -/
def DeclaredInOrder : List Name → List Declaration → Prop
  | _, [] => True
  | known, d :: ds => (∀ v ∈ d.names, v ∉ known) ∧ (∀ v ∈ d.mentions, v ∈ known) ∧ DeclaredInOrder (known ++ d.names) ds

def DeclaredInOrder.decide : (known : List Name) → (ds : List Declaration) → Decidable (DeclaredInOrder known ds)
  | _, [] => inferInstanceAs (Decidable True)
  | known, d :: ds =>
    have := decide (known ++ d.names) ds
    inferInstanceAs (Decidable ((∀ v ∈ d.names, v ∉ known) ∧ (∀ v ∈ d.mentions.toList, v ∈ known) ∧ DeclaredInOrder (known ++ d.names) ds))

instance (known : List Name) (ds : List Declaration) : Decidable (DeclaredInOrder known ds) := DeclaredInOrder.decide known ds

/-! Declarations one by one -/

section
variable {known : List Name} {t : SymbolTable} {env next : Env} {d : Declaration} {v : Name} {x : Operand}

theorem evalStms_one {stm : Stm} (h : evalStms env [stm] = .ok next) :
    ∃ values, stm.exp.eval env = .ok values ∧ env.bindValues stm.pat values = .ok next := by
  obtain ⟨pat, certs, exp⟩ := stm
  obtain ⟨values, value, h⟩ := bind_eq_ok.mp h
  obtain ⟨bound, binds, h⟩ := bind_eq_ok.mp h
  cases h
  exact ⟨values, value, binds⟩

theorem Declaration.run_frame (h : d.run env = .ok next) (other : v ∉ d.names) : next.get? v = env.get? v := by
  cases d with
  | params args =>
    cases h
    refine Env.get?_bindAll_of_not_mem env fun mem => other ?_
    rw [List.map_map] at mem
    exact mem
  | index w bound value =>
    cases h
    rw [Env.get?_bind, if_neg fun same => other (List.mem_singleton.mpr same)]
  | binding stm =>
    obtain ⟨values, -, binds⟩ := evalStms_one h
    exact Env.bindValues_frame binds other

/-- Among the known names, the name comes after those of the operand and has its value. -/
structure IsCopy (known : List Name) (env : Env) (v : Name) (x : Operand) : Prop where
  declared : v ∈ known
  earlier : ∀ w ∈ x.free, known.idxOf w < known.idxOf v
  value : env.lookup v = env.operand x

theorem IsCopy.mem_of_free (h : IsCopy known env v x) {w : Name} (mem : w ∈ x.free) : w ∈ known :=
  List.idxOf_lt_length_iff.mp (Nat.lt_trans (h.earlier w mem) (List.idxOf_lt_length_of_mem h.declared))

/-- A copy remains one while other names are declared. -/
theorem IsCopy.append (h : IsCopy known env v x) (same : ∀ w ∈ known, next.get? w = env.get? w) (more : List Name) :
    IsCopy (known ++ more) next v x where
  declared := List.mem_append_left more h.declared
  earlier w mem := by
    rw [List.idxOf_append_of_mem (h.mem_of_free mem), List.idxOf_append_of_mem h.declared]
    exact h.earlier w mem
  value := by
    rw [Env.lookup_congr (same v h.declared), h.value]
    exact (Env.operand_congr fun w mem => same w (h.mem_of_free mem)).symm

/-- All names that the table records as copies are copies. -/
def SymbolTable.RecordsCopies (t : SymbolTable) (known : List Name) (env : Env) : Prop :=
  ∀ v x, t.defn v = some (.operand x) → IsCopy known env v x

/-- A statement that binds the value of an operand to one name makes a copy. -/
theorem isCopy_of_binding {b : Binder} {certs : List Name} (fresh : b.name ∉ known) (earlier : ∀ w ∈ x.free, w ∈ known)
    (ran : (Declaration.binding ⟨⟨[], [b]⟩, certs, .operand x⟩).run env = .ok next) : IsCopy (known ++ [b.name]) next b.name x := by
  obtain ⟨values, value, binds⟩ := evalStms_one ran
  obtain ⟨y, read, one⟩ := bind_eq_ok.mp value
  cases one
  cases binds
  refine ⟨List.mem_append_right known (List.mem_singleton.mpr rfl), fun w mem => ?_, ?_⟩
  · rw [List.idxOf_append_of_mem (earlier w mem), List.idxOf_append_of_notMem fresh]
    exact Nat.lt_of_lt_of_le (List.idxOf_lt_length_of_mem (earlier w mem)) (Nat.le_add_right _ _)
  · have same : (env.bind b.name y).operand x = env.operand x := by
      refine Env.operand_congr fun w mem => ?_
      rw [Env.get?_bind, if_neg]
      rintro rfl
      exact fresh (earlier _ mem)
    exact (Env.lookup_eq_ok.mpr (Env.get?_bind_self env b.name y)).trans (same.trans read).symm

/-- One declaration keeps the records right. -/
theorem SymbolTable.RecordsCopies.enter (h : t.RecordsCopies known env) (fresh : ∀ v ∈ d.names, v ∉ known)
    (earlier : ∀ v ∈ d.mentions, v ∈ known) (ran : d.run env = .ok next) : (d.enter t).RecordsCopies (known ++ d.names) next := by
  have same (w : Name) (mem : w ∈ known) : next.get? w = env.get? w :=
    Declaration.run_frame ran fun declared => fresh w declared mem
  intro v x defined
  -- Only a statement with one name can have recorded a new copy.
  cases d with
  | params args => exact (h v x ((Opens.refl t).bindParams _ |>.defn defined)).append same _
  | index w bound value => exact (h v x ((Opens.refl t).bindIndex w bound |>.defn defined)).append same _
  | binding stm =>
    obtain ⟨⟨b, sole, rfl⟩, copied⟩ | ⟨-, old⟩ := defn_bindStm defined
    · obtain ⟨pat, certs, exp⟩ := stm
      cases sole
      cases copied
      exact isCopy_of_binding (fresh b.name (List.mem_singleton.mpr rfl)) earlier ran
    · exact (h v x old).append same _

theorem SymbolTable.RecordsCopies.enterAll {ds : List Declaration} (h : t.RecordsCopies known env) (ordered : DeclaredInOrder known ds)
    (ran : ds.foldlM Declaration.run env = .ok next) :
    (ds.foldl Declaration.enter t).RecordsCopies (known ++ ds.flatMap Declaration.names) next := by
  induction ds generalizing known t env with
  | nil =>
    cases ran
    rwa [List.flatMap_nil, List.append_nil]
  | cons d ds ih =>
    obtain ⟨fresh, earlier, rest⟩ := ordered
    rw [List.foldlM_cons] at ran
    obtain ⟨middle, first, ran⟩ := bind_eq_ok.mp ran
    rw [List.flatMap_cons, ← List.append_assoc]
    exact ih (h.enter fresh earlier first) rest ran

end

/-! Following copies -/

namespace SymbolTable

variable {t : SymbolTable} {known : List Name} {env : Env} {v u : Name} {x y : Operand}

theorem RecordsCopies.falls (h : t.RecordsCopies known env) : t.Falls known.idxOf :=
  fun v w copied => (h v (.var w) (copyOf_eq_some.mp copied)).earlier w (NameSet.mem_singleton.mpr rfl)

theorem RecordsCopies.lookup (h : t.RecordsCopies known env) (followed : t.Followed v u) : env.lookup u = env.lookup v := by
  induction followed with
  | stop _ => rfl
  | step copied _ ih => exact ih.trans (h _ _ (copyOf_eq_some.mp copied)).value.symm

theorem RecordsCopies.operand (h : t.RecordsCopies known env) (resolved : t.Resolved x y) : env.operand y = env.operand x := by
  induction resolved with
  | const c => rfl
  | constant defined => exact (h _ _ defined).value.symm
  | copy copied _ ih => exact ih.trans (h _ _ (copyOf_eq_some.mp copied)).value.symm
  | other _ => rfl

theorem Resolved.last (resolved : t.Resolved x (.var u)) : t.defn u ≠ some (.operand y) := by
  generalize same : Operand.var u = z at resolved
  induction resolved with
  | const c => cases same
  | constant _ => cases same
  | copy _ _ ih => exact ih same
  | other last =>
    cases same
    exact last y

theorem resolve_of_last (last : t.copyOf v = none) : t.resolve v = v := by
  rw [resolve]
  cases t.entries.length with
  | zero => rfl
  | succ n => rw [follow, last]

theorem resolveOperand_of_last (last : ∀ y, t.defn v ≠ some (.operand y)) : t.resolveOperand (.var v) = .var v := by
  have ends : t.copyOf v = none := Option.eq_none_iff_forall_ne_some.mpr fun w copied => last (.var w) (copyOf_eq_some.mp copied)
  rw [resolveOperand, resolve_of_last ends]
  split
  · rename_i c defined
    exact absurd defined (last (.const c))
  · rfl

end SymbolTable

/-- Copy propagation keeps values and leaves nothing to propagate. In the scope of declarations in order, an operand and what it is
resolved to have the same value, as have a name and what it is resolved to. A resolved name is not recorded as a copy of another name,
a resolved operand is no name with the value of an operand at all, and neither changes when it is resolved again. -/
theorem resolving_keeps_values {ds : List Declaration} {env : Env} (ordered : DeclaredInOrder [] ds)
    (ran : ds.foldlM Declaration.run Env.empty = .ok env) :
    let t := ds.foldl Declaration.enter SymbolTable.empty
    (∀ x : Operand, env.operand (t.resolveOperand x) = env.operand x ∧
      (∀ v, t.resolveOperand x = .var v → ∀ y, t.defn v ≠ some (.operand y)) ∧
      t.resolveOperand (t.resolveOperand x) = t.resolveOperand x) ∧
    ∀ v : Name, env.lookup (t.resolve v) = env.lookup v ∧
      (∀ w, t.defn (t.resolve v) ≠ some (.operand (.var w))) ∧
      t.resolve (t.resolve v) = t.resolve v := by
  intro t
  have start : SymbolTable.empty.RecordsCopies [] Env.empty := fun v x defined => by cases defined
  have records := start.enterAll ordered ran
  obtain ⟨names, operands⟩ := records.falls.copiesEnd
  constructor
  · intro x
    have last (v : Name) (same : t.resolveOperand x = .var v) (y : Operand) : t.defn v ≠ some (.operand y) :=
      SymbolTable.Resolved.last (same ▸ operands x)
    refine ⟨records.operand (operands x), last, ?_⟩
    cases same : t.resolveOperand x with
    | const c => rfl
    | var v => exact SymbolTable.resolveOperand_of_last (last v same)
  · intro v
    have last := (names v).last
    refine ⟨records.lookup (names v), fun w defined => ?_, SymbolTable.resolve_of_last last⟩
    cases last.symm.trans (SymbolTable.copyOf_eq_some.mpr defined)

/-- Chains of copies of a parameter and of a constant. The block of `c` gets no value, and no definition is recorded for `c` itself,
nor for the two results of the branch. -/
def sampleScope : List Declaration :=
  let x : Name := ⟨"x", 0⟩
  let up : Name := ⟨"up", 1⟩
  let i : Name := ⟨"i", 2⟩
  let y : Name := ⟨"y", 3⟩
  let z : Name := ⟨"z", 4⟩
  let five : Name := ⟨"five", 5⟩
  let also : Name := ⟨"also", 6⟩
  let c : Name := ⟨"c", 8⟩
  let a : Name := ⟨"a", 9⟩
  let b : Name := ⟨"b", 10⟩
  let word : Ty := .scalar .i64
  [.params [(⟨x, word, none⟩, .word 3), (⟨up, .scalar .bool, none⟩, .scalar (.bool true))], .index i (.var x) (.word 1),
    .binding (.ofWord y (.operand (.var x))), .binding (.ofWord z (.operand (.var y))),
    .binding (.ofWord five (.operand (.word 5))), .binding (.ofWord also (.operand (.var five))),
    .binding ⟨⟨[⟨⟨"block", 7⟩, .mem (.word 8) .default, none⟩], [⟨c, word, none⟩]⟩, [], .operand (.var z)⟩,
    .binding ⟨⟨[], [⟨a, word, none⟩, ⟨b, word, none⟩]⟩, [],
      .branch (.var up) ⟨[], [.var c, .var i]⟩ ⟨[], [.var also, .var i]⟩ [word, word]⟩,
    .binding (.ofWord ⟨"d", 11⟩ (.operand (.var a)))]

theorem sampleScope_resolves : DeclaredInOrder [] sampleScope ∧ ∃ env, sampleScope.foldlM Declaration.run Env.empty = .ok env ∧
    env.operand (.var ⟨"x", 0⟩) = env.operand (.var ⟨"z", 4⟩) ∧ env.operand (.word 5) = env.operand (.var ⟨"also", 6⟩) ∧
    env.lookup ⟨"five", 5⟩ = env.lookup ⟨"also", 6⟩ ∧ env.operand (.var ⟨"a", 9⟩) = env.operand (.var ⟨"d", 11⟩) := by
  have ordered : DeclaredInOrder [] sampleScope := by decide +kernel
  have runs : (sampleScope.foldlM Declaration.run Env.empty).toOption.any (fun _ => true) = true := by decide +kernel
  obtain ⟨env, ran, -⟩ := exists_of_any runs
  obtain ⟨operands, names⟩ := resolving_keeps_values ordered ran
  exact ⟨ordered, env, ran, (operands (.var ⟨"z", 4⟩)).1, (operands (.var ⟨"also", 6⟩)).1, (names ⟨"also", 6⟩).1,
    (operands (.var ⟨"d", 11⟩)).1⟩

end ArrayKernels
