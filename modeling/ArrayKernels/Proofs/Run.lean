import ArrayKernels.Proofs.Reads
import ArrayKernels.Proofs.Readings

/-! Two ways to run a program. The strict way is the evaluator. The lenient way passes over statements
that fail and marks their names, so that it does not matter where a statement stands that some runs
do not need. It also computes with the full product of two 32-bit words, gives arrays without
elements one element type, and stops where the code is not as the rules expect it to be. -/
namespace ArrayKernels

/-- A lenient run that is `lax` passes over every statement that fails, not only over those that may be moved. One that is
not `typed` gives all arrays one element type. -/
structure Leniency where
  lax : Bool
  typed : Bool
deriving DecidableEq

inductive Mode where
  | strict
  | lenient (how : Leniency)
deriving DecidableEq

/-- What a lenient run knows about a name apart from its value: the full product behind a 32-bit word,
and whether its statement was passed over. A failed name is hollow if it stands for no copies. -/
structure Notes where
  exact : Name → Option Int64
  failed : Name → Option Bool

structure Store where
  env : Env
  notes : Notes

/-- All that a store has on one name. -/
structure Cell where
  value : Option Value
  exact : Option Int64
  failed : Option Bool

def Store.cell (σ : Store) (v : Name) : Cell := ⟨σ.env.get? v, σ.notes.exact v, σ.notes.failed v⟩

def Cell.read (v : Name) (c : Cell) : Eval Value :=
  match c.value with
  | some x => .ok x
  | none => .error (.unbound v)

theorem Store.lookup_eq (σ : Store) (v : Name) : σ.env.lookup v = (σ.cell v).read v := rfl

/-- The environment without some names. -/
def Env.hide (env : Env) (vs : List Name) : Env := ⟨env.bindings.filter fun b => b.1 ∉ vs⟩

namespace Notes

def none : Notes := ⟨fun _ => .none, fun _ => .none⟩

def clear (n : Notes) (vs : List Name) : Notes :=
  ⟨fun v => if v ∈ vs then .none else n.exact v, fun v => if v ∈ vs then .none else n.failed v⟩

/-- Marks the names of a statement that was passed over. -/
def fail (n : Notes) (vs : List Name) (hollow : Bool) : Notes :=
  ⟨fun v => if v ∈ vs then .none else n.exact v, fun v => if v ∈ vs then some hollow else n.failed v⟩

/-- Remembers a full product for the names of a statement. -/
def settle (n : Notes) (vs : List Name) (product : Option Int64) : Notes :=
  ⟨fun v => if v ∈ vs then product else n.exact v, fun v => if v ∈ vs then .none else n.failed v⟩

end Notes

namespace Store

/-- The store of a body that is entered with the names `vs` bound. -/
def inside (σ : Store) (vs : List Name) (env : Env) : Store := ⟨env, σ.notes.clear vs⟩

/-- The full product of two 32-bit words. -/
def fullProduct (σ : Store) : Exp → Option Int64
  | .binary .mul x y =>
    match σ.env.scalar x, σ.env.scalar y with
    | .ok (.i32 a), .ok (.i32 b) => some (a.toInt64 * b.toInt64)
    | _, _ => none
  | _ => none

def exactOf (σ : Store) : Operand → Option Int64
  | .const _ => none
  | .var v => σ.notes.exact v

/-- Whether a statement makes no copies of a value. -/
def hollow (σ : Store) (pat : Pattern) : Exp → Bool
  | .replicate shape _ =>
    match σ.env.sizes shape with
    | .ok outer => pat.soleName.isSome && volume outer == 0
    | .error _ => false
  | _ => false

/-- The store in which a kernel is launched: nothing is known of the kernel's own names. -/
def launch (σ : Store) (own : List Name) : Store := ⟨σ.env.hide own, σ.notes.clear own⟩

/-- None of the names was passed over. -/
def allKnown (σ : Store) (vs : NameSet) : Bool :=
  vs.toList.all fun v => (σ.env.get? v).isSome || (σ.notes.failed v).isNone

end Store

/-- Arrays without elements have one element type, and so have all arrays if types do not count. -/
def Value.settled (typed : Bool) : Value → Value
  | .array a => if typed && !a.data.isEmpty then .array a else .array { a with elem := .bool }
  | x => x

/-- An array has a dimension and as many elements as its shape says. -/
def Value.isSturdy : Value → Bool
  | .array a => a.data.size == volume a.shape && a.shape != []
  | _ => true

def Value.isVoid : Value → Bool
  | .array a => a.data.isEmpty
  | _ => false

/-- The value has elements of the type, as far as types count. -/
def Value.hasElem (typed : Bool) (x : Value) (ty : Ty) : Bool := !typed || x.isVoid || x.elem == ty.elem

/-- The results of one thread have the element types that the kernel declares. -/
def MapKernel.declares (typed : Bool) (k : MapKernel) (values : List Value) : Bool :=
  (values.zip k.returns).all fun vr => vr.1.isSturdy && vr.1.hasElem typed vr.2.1

namespace Lenient

/-- Words of both widths are multiplied, and a full product is added to a word. -/
def binary (op : BinOp) (a b : Scalar) (product : Option Int64) : Eval Scalar :=
  match op.apply a b, op, a, b, product with
  | .ok c, _, _, _, _ => .ok c
  | .error _, .mul, .i32 x, .i64 y, _ => .ok (.i64 (x.toInt64 * y))
  | .error _, .mul, .i64 x, .i32 y, _ => .ok (.i64 (x * y.toInt64))
  | .error _, .add, .i64 x, .i32 _, some y => .ok (.i64 (x + y))
  | .error e, _, _, _, _ => .error (.scalar e)

/-- A reshape of a hollow name. -/
def fill (σ : Store) (shape : List Operand) (array : Name) : Eval (List Value) := do
  let new ← σ.env.sizes shape
  if volume new = 0 ∧ new ≠ [] then .ok [.array ⟨.bool, new, #[]⟩] else .error (.unbound array)

/-- An iota starts from a word, and no irregular array is copied. -/
def leaf (typed : Bool) (σ : Store) : Exp → Eval (List Value)
  | .binary op x y => do
    let a ← σ.env.scalar x
    let b ← σ.env.scalar y
    .ok [.scalar (← binary op a b (σ.exactOf y))]
  | .iota count start stride => do
    let n ← σ.env.size count
    match ← σ.env.scalar start with
    | .i64 first => .ok [.words (iotaValues n first (← σ.env.word stride))]
    | _ => .error (.notInteger start)
  | .replicate shape value => do
    let outer ← σ.env.sizes shape
    let x ← σ.env.operand value
    if x.isSturdy then .ok [.array (← ArrayValue.replicate outer x)] else .error .storage
  | .reshape shape array =>
    if σ.env.get? array |>.isNone then
      if σ.notes.failed array = some true then fill σ shape array else .error (.unbound array)
    else do .ok ((← (Exp.reshape shape array).eval σ.env).map (Value.settled typed))
  | e => e.eval σ.env

end Lenient

namespace Mode

def leaf : Mode → Store → Exp → Eval (List Value)
  | strict, σ, e => e.eval σ.env
  | lenient how, σ, e => Lenient.leaf how.typed σ e

/-- Binds the names of a statement to the values of its expression. -/
def settle : Mode → Store → Pattern → Exp → Eval (List Value) → Eval Store
  | strict, σ, pat, _, values => do .ok ⟨← σ.env.bindValues pat (← values), σ.notes.clear pat.names⟩
  | lenient how, σ, pat, e, values =>
    match (do (σ.env.hide pat.names).bindValues pat (← values)) with
    | .ok env => .ok ⟨env, σ.notes.settle pat.names (σ.fullProduct e)⟩
    | .error err =>
      if how.lax || e.isSpeculable then .ok ⟨σ.env.hide pat.names, σ.notes.fail pat.names (σ.hollow pat e)⟩
      else .error err

def map : Mode → Store → MapKernel → (Env → Eval (List Value)) → Eval (List Value)
  | strict, σ, k, run => k.run run σ.env
  | lenient how, σ, k, run =>
    if k.space = [] then .error (.spaceMismatch [])
    else do
      let values ← k.run
        (fun e => do
          let values ← run e
          if k.declares how.typed values then .ok values else .error .storage)
        σ.env
      .ok (values.map (Value.settled how.typed))

def chunked : Mode → Store → ChunkedKernel → (List Value → Eval (List Value)) → Eval (List Value)
  | strict, σ, k, op => k.run op σ.env
  | lenient _, σ, k, op =>
    let τ := σ.launch (k.op.params.map Binder.name)
    if τ.allKnown (NameSet.gather Ty.rowReads k.op.ret) then k.run op τ.env else .error .storage

/-- The store in which a group kernel is launched. -/
def group : Mode → Store → GroupKernel → Eval Store
  | strict, σ, k => .ok ⟨σ.env, σ.notes.clear k.ownNames⟩
  | lenient _, σ, k =>
    if σ.allKnown (NameSet.gather Ty.rowReads k.returns) then
      .ok (σ.launch k.ownNames)
    else .error .storage

end Mode

mutual

def Exp.run (m : Mode) (σ : Store) : Exp → Eval (List Value)
  | .branch cond onTrue onFalse _ => do
    match ← σ.env.scalar cond with
    | .bool true => onTrue.run m σ
    | .bool false => onFalse.run m σ
    | c => .error (.notBoolean c)
  | .loop context values index bound body => do
    let merge := context ++ values
    let init ← merge.mapM fun m => σ.env.operand m.2
    let n ← σ.env.word bound
    iterate (loopStep (merge.map (·.1.name)) index
      (fun e => body.run m (σ.inside (merge.map (·.1.name) ++ [index]) e)) σ.env) n.toInt.toNat 0 init
  | .launch kernel => kernel.run m σ
  | e => m.leaf σ e

def runStms (m : Mode) (σ : Store) : List Stm → Eval Store
  | [] => .ok σ
  | ⟨pat, _, exp⟩ :: stms => do runStms m (← m.settle σ pat exp (exp.run m σ)) stms

def Body.run (m : Mode) (σ : Store) : Body → Eval (List Value)
  | ⟨stms, result⟩ => do
    let σ ← runStms m σ stms
    result.mapM σ.env.operand

def Lambda.run (m : Mode) (σ : Store) : Lambda → List Value → Eval (List Value)
  | ⟨params, body, _⟩, args => do body.run m (σ.inside (params.map Binder.name) (← σ.env.bindParams params args))

def Kernel.run (m : Mode) (σ : Store) : Kernel → Eval (List Value)
  | .map k@⟨_, _, _, _, _, _, body⟩ => m.map σ k (fun e => body.run m (σ.inside k.threadNames e))
  | .scan k@⟨_, _, _, _, fold, _, _⟩ => k.run (fun args => fold.run m σ args) σ.env
  | .chunked k@⟨_, _, _, _, op, _⟩ => m.chunked σ k (fun args => op.run m σ args)
  | .scatter k@⟨_, _, op, _, _⟩ => k.run (fun args => op.run m σ args) σ.env
  | .group k@⟨_, _, _, _, ⟨stms, _⟩⟩ => do
    let σ ← m.group σ k
    k.run (fun groupSize threads => runGroupStms m σ.notes groupSize stms threads) σ.env
  | .numGroups => .error (.outsideKernel Kernel.numGroups.label)
  | .groupSize => .error (.outsideKernel Kernel.groupSize.label)

def runGroupStms (m : Mode) (notes : Notes) (groupSize : Nat) : List GroupStm → List Env → Eval (List Env)
  | [], threads => .ok threads
  | .split size chunks division width perThread arrays :: stms, threads => do
    let next ← threads.zipIdx.mapM fun et =>
      GroupKernel.split size chunks division width perThread arrays threads.length et.1 et.2
    runGroupStms m notes groupSize stms next
  | .thread pat only body :: stms, threads => do
    let next ← threads.zipIdx.mapM fun et =>
      GroupKernel.runThread pat only (fun e => body.run m ⟨e, notes⟩) groupSize et.1 et.2
    runGroupStms m notes groupSize stms next
  | .reduce pat width op inputs :: stms, threads => do
    let next ← GroupKernel.reduce pat width inputs (fun e args => op.run m ⟨e, notes⟩ args) groupSize threads
    runGroupStms m notes groupSize stms next

end

theorem Env.get?_hide (env : Env) (vs : List Name) (v : Name) :
    (env.hide vs).get? v = if v ∈ vs then none else env.get? v := by
  obtain ⟨bindings⟩ := env
  rw [hide, get?, get?]
  induction bindings with
  | nil => simp
  | cons b bindings ih =>
    obtain ⟨w, x⟩ := b
    by_cases same : v = w
    · subst same
      by_cases hidden : v ∈ vs
      · rw [List.filter_cons_of_neg (by simpa using hidden), ih]
        simp [hidden]
      · rw [List.filter_cons_of_pos (by simpa using hidden)]
        simp [hidden]
    · have other : (v == w) = false := beq_eq_false_iff_ne.mpr same
      rw [List.filter_cons]
      split
      · rw [List.lookup_cons, List.lookup_cons, other, ih]
      · rw [List.lookup_cons, other, ih]

namespace Store

/-- Entering a body leaves alone what is known about the names that are not bound there. -/
theorem cell_inside {σ : Store} {vs : List Name} {env : Env} {v : Name} (other : v ∉ vs)
    (kept : env.get? v = σ.env.get? v) : (σ.inside vs env).cell v = σ.cell v := by
  simp [cell, inside, Notes.clear, other, kept]

theorem cell_inside_of_mem {σ : Store} {vs : List Name} {env : Env} {v : Name} (mem : v ∈ vs) :
    (σ.inside vs env).cell v = ⟨env.get? v, none, none⟩ := by
  simp [cell, inside, Notes.clear, mem]

theorem cell_launch {σ : Store} {own : List Name} {v : Name} (mem : v ∈ own) : (σ.launch own).cell v = ⟨none, none, none⟩ := by
  simp [cell, launch, Notes.clear, Env.get?_hide, mem]

theorem cell_launch_of_not_mem {σ : Store} {own : List Name} {v : Name} (other : v ∉ own) : (σ.launch own).cell v = σ.cell v := by
  simp [cell, launch, Notes.clear, Env.get?_hide, other]

end Store

theorem Env.bindValues_frame {env next : Env} {pat : Pattern} {values : List Value} {v : Name}
    (h : env.bindValues pat values = .ok next) (other : v ∉ pat.names) : next.get? v = env.get? v := by
  have outside (names : List Name) (vs : List Value) (part : ∀ w ∈ names, w ∈ pat.names) :
      (env.bindAll (names.zip vs)).get? v = env.get? v := by
    refine get?_bindAll_of_not_mem env fun mem => other (part v ?_)
    obtain ⟨b, inside, rfl⟩ := List.mem_map.mp mem
    exact (List.of_mem_zip inside).1
  rw [bindValues] at h
  split at h
  · cases h
    exact outside pat.names values fun _ => id
  · split at h
    · cases h
      refine outside pat.valueNames values fun w mem => ?_
      rw [Pattern.names, Pattern.binders, List.map_append]
      exact List.mem_append_right _ mem
    · cases h

/-- A statement leaves alone what is known about the names that it does not bind. -/
theorem Mode.settle_frame {m : Mode} {σ τ : Store} {pat : Pattern} {e : Exp} {r : Eval (List Value)} {v : Name}
    (h : m.settle σ pat e r = .ok τ) (other : v ∉ pat.names) : τ.cell v = σ.cell v := by
  cases m with
  | strict =>
    obtain ⟨values, _, h⟩ := bind_eq_ok.mp h
    obtain ⟨env, bound, made⟩ := bind_eq_ok.mp h
    cases made
    simp [Store.cell, Notes.clear, other, Env.bindValues_frame bound other]
  | lenient how =>
    rw [settle] at h
    split at h
    · rename_i env bound
      cases h
      obtain ⟨values, _, bound⟩ := bind_eq_ok.mp bound
      simp [Store.cell, Notes.settle, other, Env.bindValues_frame bound other, Env.get?_hide]
    · split at h
      · cases h
        simp [Store.cell, Notes.fail, other, Env.get?_hide]
      · cases h

/-! The strict way is the evaluator -/

mutual

theorem Exp.run_strict (σ : Store) : ∀ e : Exp, e.run .strict σ = e.eval σ.env
  | .operand _ | .binary .. | .compare .. | .index .. | .update .. | .iota .. | .replicate .. | .reshape ..
  | .rearrange .. | .copy _ | .alloc .. => rfl
  | .branch cond onTrue onFalse _ => by
    rewrite [Exp.run, Exp.eval, onTrue.run_strict, onFalse.run_strict]
    rfl
  | .loop context values index bound body => by
    rw [Exp.run, Exp.eval]
    simp only [body.run_strict]
    rfl
  | .launch kernel => kernel.run_strict σ

theorem runStms_strict (σ : Store) : ∀ stms : List Stm,
    Except.map Store.env (runStms .strict σ stms) = evalStms σ.env stms
  | [] => rfl
  | ⟨pat, _, exp⟩ :: stms => by
    rw [runStms, evalStms, exp.run_strict, Mode.settle]
    cases exp.eval σ.env with
    | error e => rfl
    | ok values =>
      simp only [ok_bind]
      cases σ.env.bindValues pat values with
      | error e => rfl
      | ok env => exact runStms_strict ⟨env, σ.notes.clear pat.names⟩ stms

theorem Body.run_strict (σ : Store) : ∀ body : Body, body.run .strict σ = body.eval σ.env
  | ⟨stms, result⟩ => by
    rw [Body.run, Body.eval, ← runStms_strict σ stms]
    cases runStms .strict σ stms with
    | error e => rfl
    | ok τ => rfl

theorem Lambda.run_strict (σ : Store) : ∀ (op : Lambda) (args : List Value), op.run .strict σ args = op.eval σ.env args
  | ⟨params, body, _⟩, args => by
    rw [Lambda.run, Lambda.eval]
    simp only [body.run_strict]
    rfl

theorem Kernel.run_strict (σ : Store) : ∀ k : Kernel, k.run .strict σ = k.eval σ.env
  | .map ⟨_, _, _, _, _, _, body⟩ => by
    rw [Kernel.run, Kernel.eval]
    simp only [body.run_strict]
    rfl
  | .scan ⟨_, _, _, _, fold, _, _⟩ => by
    rw [Kernel.run, Kernel.eval]
    simp only [fold.run_strict]
  | .chunked ⟨_, _, _, _, op, _⟩ => by
    rw [Kernel.run, Kernel.eval]
    simp only [op.run_strict]
    rfl
  | .scatter ⟨_, _, op, _, _⟩ => by
    rw [Kernel.run, Kernel.eval]
    simp only [op.run_strict]
  | .group ⟨_, _, _, _, ⟨stms, _⟩⟩ => by
    rw [Kernel.run, Kernel.eval, Mode.group, ok_bind]
    simp only [runGroupStms_strict _ _ stms]
  | .numGroups => rfl
  | .groupSize => rfl

theorem runGroupStms_strict (notes : Notes) (groupSize : Nat) : ∀ (stms : List GroupStm) (threads : List Env),
    runGroupStms .strict notes groupSize stms threads = evalGroupStms groupSize stms threads
  | [], threads => rfl
  | .split _ _ _ _ _ _ :: stms, threads => by
    rw [runGroupStms, evalGroupStms]
    simp only [runGroupStms_strict notes groupSize stms]
  | .thread _ _ body :: stms, threads => by
    rw [runGroupStms, evalGroupStms]
    simp only [body.run_strict, runGroupStms_strict notes groupSize stms]
  | .reduce _ _ op _ :: stms, threads => by
    rw [runGroupStms, evalGroupStms]
    simp only [op.run_strict, runGroupStms_strict notes groupSize stms]

end

theorem Mode.evalStms_of_settle {σ τ : Store} {pat : Pattern} {e : Exp} (certs : List Name)
    (h : Mode.strict.settle σ pat e (e.run .strict σ) = .ok τ) : evalStms σ.env [⟨pat, certs, e⟩] = .ok τ.env := by
  rw [← runStms_strict σ [⟨pat, certs, e⟩], runStms, h]
  rfl

theorem Exp.run_leaf {e : Exp} (h : e.isNested = false) (m : Mode) (σ : Store) : e.run m σ = m.leaf σ e := by
  cases e <;> first | rfl | exact nomatch h

theorem Exp.reads_leaf {e : Exp} (h : e.isNested = false) : e.reads = e.free := by
  cases e <;> first | rfl | exact nomatch h

theorem Mode.group_frame {m : Mode} {σ τ : Store} {k : GroupKernel} {v : Name} (h : m.group σ k = .ok τ)
    (other : v ∉ k.ownNames) : τ.cell v = σ.cell v := by
  cases m with
  | strict =>
    cases h
    simp [Store.cell, Notes.clear, other]
  | lenient how =>
    rw [group] at h
    split at h
    · cases h
      simp [Store.cell, Store.launch, Notes.clear, other, Env.get?_hide]
    · cases h

theorem Mode.group_notes {m : Mode} {σ τ : Store} {k : GroupKernel} (h : m.group σ k = .ok τ) :
    τ.notes = σ.notes.clear k.ownNames := by
  cases m with
  | strict =>
    cases h
    rfl
  | lenient how =>
    rw [group] at h
    split at h
    · cases h
      rfl
    · cases h

end ArrayKernels
