import ArrayKernels.Proofs.Monotone
import ArrayKernels.Proofs.Resolving

/-! What a symbol table says about a store. A definition in the table holds: its statement has been run,
and running it again would change nothing. Names that are resolved through such definitions are known
at least as well. -/
namespace ArrayKernels

/-- The same is known in both cells. -/
def Cell.Same (c d : Cell) : Prop := c.Below d ∧ d.Below c

namespace Cell.Same

theorem refl (c : Cell) : c.Same c := ⟨.refl c, .refl c⟩

theorem trans {c d e : Cell} (h : c.Same d) (h' : d.Same e) : c.Same e := ⟨h.1.trans h'.1, h'.2.trans h.2⟩

theorem of_eq {c d : Cell} (h : c = d) : c.Same d := h ▸ refl c

end Cell.Same

theorem Mode.settle_names {how : Leniency} {σ : Store} {pat pat' : Pattern} (names : pat.SameNames pat') (e : Exp)
    (r : Eval (List Value)) : (Mode.lenient how).settle σ pat e r = (Mode.lenient how).settle σ pat' e r := by
  have hollow : σ.hollow pat e = σ.hollow pat' e := by
    have sole : pat.soleName.isSome = pat'.soleName.isSome :=
      Bool.eq_iff_iff.mpr ⟨names.soleName, Pattern.SameNames.soleName ⟨names.all.symm, names.values.symm⟩⟩
    rw [Store.hollow.eq_def, Store.hollow.eq_def, sole]
  rw [Mode.settle, Mode.settle, hollow, names.all]
  simp only [names.bindValues_eq]

variable {how : Leniency} {σ σ' : Store}

section
variable {v : Name} {ty : Ty} {e : Exp}

theorem Stm.single_of_ok {y : Value} (value : e.run (.lenient how) σ = .ok [y]) :
    ∃ τ, (Stm.single v ty e).run (.lenient how) σ = .ok τ ∧ τ.cell v = ⟨some y, σ.fullProduct e, none⟩ := by
  have bound : ((e.run (.lenient how) σ) >>= fun values => (σ.env.hide [v]).bindValues (.single v ty) values) =
      .ok ((σ.env.hide [v]).bind v y) := by
    rw [value]
    rfl
  have mem : v ∈ (Pattern.single v ty).names := List.mem_cons_self
  refine ⟨_, Mode.settle_of_ok bound, (Mode.cell_settle mem _ _).trans ?_⟩
  rw [Env.get?_bind, if_pos rfl]
  rfl

theorem Stm.single_of_error {err : EvalError} (value : e.run (.lenient how) σ = .error err)
    (movable : (how.lax || e.isSpeculable) = true) :
    ∃ τ, (Stm.single v ty e).run (.lenient how) σ = .ok τ ∧ τ.cell v = ⟨none, none, some (σ.hollow (.single v ty) e)⟩ := by
  have failed : ((e.run (.lenient how) σ) >>= fun values => (σ.env.hide [v]).bindValues (.single v ty) values) =
      .error err := by
    rw [value]
    rfl
  have mem : v ∈ (Pattern.single v ty).names := List.mem_cons_self
  exact ⟨_, (Mode.settle_of_error failed).trans (if_pos movable), Mode.cell_fail mem _⟩

end

/-- The statement has been run: running it again changes nothing about its names. -/
def Stm.Holds (how : Leniency) (σ : Store) (stm : Stm) : Prop :=
  ∃ τ, stm.run (.lenient how) σ = .ok τ ∧ ∀ v ∈ stm.pat.names, (τ.cell v).Same (σ.cell v)

namespace Stm.Holds

theorem frame {stm : Stm} (h : stm.Holds how σ) (distinct : stm.exp.bound.Nodup)
    (reads : ∀ v ∈ stm.exp.reads, (σ.cell v).Same (σ'.cell v)) (names : ∀ v ∈ stm.pat.names, (σ.cell v).Same (σ'.cell v)) :
    stm.Holds how σ' := by
  obtain ⟨τ, ran, same⟩ := h
  obtain ⟨τ', ran', more⟩ := Stm.run_mono distinct (fun v mem => (reads v mem).1) ran
  obtain ⟨_, again, less⟩ := Stm.run_mono distinct (fun v mem => (reads v mem).2) ran'
  cases ran.symm.trans again
  exact ⟨τ', ran', fun v mem => Cell.Same.trans ⟨less v mem, more v mem⟩ ((same v mem).trans (names v mem))⟩

/-- A statement that does not read its own names holds after it was run. -/
theorem of_run {stm : Stm} {τ : Store} (ran : stm.run (.lenient how) σ = .ok τ) (distinct : stm.exp.bound.Nodup)
    (apart : ∀ v ∈ stm.exp.reads, v ∉ stm.pat.names) : stm.Holds how τ := by
  have reads (v : Name) (mem : v ∈ stm.exp.reads) : (τ.cell v).Same (σ.cell v) := .of_eq (Stm.run_frame ran (apart v mem))
  obtain ⟨τ', again, more⟩ := Stm.run_mono distinct (fun v mem => (reads v mem).2) ran
  obtain ⟨_, back, less⟩ := Stm.run_mono distinct (fun v mem => (reads v mem).1) again
  cases ran.symm.trans back
  exact ⟨τ', again, fun v mem => ⟨less v mem, more v mem⟩⟩

theorem rename {stm stm' : Stm} (h : stm.Holds how σ) (names : stm.pat.SameNames stm'.pat) (exp : stm.exp = stm'.exp) :
    stm'.Holds how σ := by
  obtain ⟨τ, ran, same⟩ := h
  rw [Stm.run, Mode.settle_names names, exp] at ran
  exact ⟨τ, ran, names.all ▸ same⟩

end Stm.Holds

namespace SymbolTable

/-- The definitions of the table that have no bodies hold. -/
def Known (how : Leniency) (σ : Store) (t : SymbolTable) : Prop :=
  ∀ v e, t.defn v = some e → e.isNested = false → (Stm.single v (.scalar .bool) e).Holds how σ

variable {S : Scope} {t : SymbolTable}

theorem Known.frame (h : t.Known how σ) (within : t.Within S) (same : ∀ v, S v → (σ.cell v).Same (σ'.cell v)) :
    t.Known how σ' := by
  intro v e defined leaf
  have nothing : e.bound = [] := by cases e <;> first | rfl | exact nomatch leaf
  obtain ⟨here, free⟩ := within v e defined leaf
  refine (h v e defined leaf).frame (nothing ▸ List.nodup_nil) (fun w mem => same w (free w ?_)) fun w mem => ?_
  · rwa [← Exp.reads_leaf leaf]
  · rw [List.mem_singleton.mp mem]
    exact same v here

theorem Known.extend (h : t.Known how σ) {new : List (Name × Entry)} (plain : ∀ b ∈ new, b.2.defn = none) :
    (t.extend new).Known how σ := fun v e defined => h v e (defn_extend_plain plain defined)

theorem Known.bindStm (h : t.Known how σ) {stm : Stm} (holds : stm.Holds how σ) : (t.bindStm stm).Known how σ := by
  intro v e defined leaf
  obtain ⟨⟨b, single, rfl⟩, exp⟩ | ⟨_, old⟩ := defn_bindStm defined
  · refine holds.rename ?_ exp
    rw [single]
    exact ⟨rfl, rfl⟩
  · exact h v e old leaf

/-- A name that is bound to an operand is known no better than the operand. -/
theorem Known.operand_below (h : t.Known how σ) {v : Name} {x : Operand} (defined : t.defn v = some (.operand x)) :
    (σ.cell v).Below (σ.operandCell x) := by
  obtain ⟨τ, ran, same⟩ := h v _ defined rfl
  refine (same v List.mem_cons_self).2.trans ?_
  have value : (Exp.operand x).run (.lenient how) σ = σ.env.operand x >>= fun y => .ok [y] := rfl
  cases read : σ.env.operand x with
  | ok y =>
    rw [read, ok_bind] at value
    obtain ⟨_, again, cell⟩ := Stm.single_of_ok value
    cases again.symm.trans ran
    rw [cell]
    have there := Store.operand_eq_ok.mp read
    generalize σ.operandCell x = c at there
    obtain ⟨value, exact', failed⟩ := c
    cases there
    exact .value y (.inl rfl)
  | error err =>
    rw [read, error_bind] at value
    obtain ⟨_, again, cell⟩ := Stm.single_of_error value (Bool.or_true how.lax)
    cases again.symm.trans ran
    rw [cell]
    exact .failed

/-- What resolving a table does to an operand. -/
inductive Resolves (t : SymbolTable) : Operand → Operand → Prop where
  | operand (x : Operand) : t.Resolves x (t.resolveOperand x)
  | name (v : Name) : t.Resolves (.var v) (.var (t.resolve v))

theorem Known.follow_below (h : t.Known how σ) (n : Nat) (v : Name) : (σ.cell v).Below (σ.cell (t.follow n v)) := by
  induction n generalizing v with
  | zero => exact .refl _
  | succ n ih =>
    rw [follow]
    split
    · rename_i w copied
      refine Cell.Below.trans ?_ (ih w)
      rw [copyOf] at copied
      split at copied
      · cases copied
        exact h.operand_below ‹_›
      · cases copied
    · exact .refl _

theorem Known.below (h : t.Known how σ) {x x' : Operand} (resolved : t.Resolves x x') : σ.Below σ x x' := by
  cases resolved with
  | name v => exact h.follow_below _ v
  | operand x =>
    cases x with
    | const c => exact .refl _
    | var v =>
      have first : (σ.cell v).Below (σ.cell (t.resolve v)) := h.follow_below _ v
      rw [resolveOperand]
      split
      · exact first.trans (h.operand_below ‹_›)
      · exact first

end SymbolTable

end ArrayKernels
