import ArrayKernels.Proofs.Leaves
import ArrayKernels.Proofs.SimplifiedValues

/-! Arrays stay regular. Every array that an evaluation makes has as many elements as its shape says, if those that it is given
have; and so has every array that is bound in an environment that arises on the way. -/
namespace ArrayKernels

/-! What the values of an evaluation are like -/

/-- The value, if there is one, is as stated. -/
def Gives {α : Type} (m : Eval α) (Q : α → Prop) : Prop := ∀ r, m = .ok r → Q r

namespace Gives

variable {α β σ : Type} {m : Eval α} {f : α → Eval β} {Q Q' : α → Prop} {R : β → Prop}

theorem ok {r : α} (h : Q r) : Gives (.ok r) Q := by
  intro r' made
  cases made
  exact h

theorem error (e : EvalError) : Gives (.error e) Q := by
  intro r made
  cases made

theorem imp (h : Gives m Q) (more : ∀ r, Q r → Q' r) : Gives m Q' := fun r made => more r (h r made)

theorem any : Gives m fun _ => True := fun _ _ => trivial

theorem bind (first : Gives m Q) (second : ∀ r, Q r → Gives (f r) R) : Gives (m >>= f) R := by
  intro s made
  obtain ⟨r, here, there⟩ := bind_eq_ok.mp made
  exact second r (first r here) s there

theorem ite {c : Prop} [Decidable c] {m m' : Eval α} (yes : c → Gives m Q) (no : ¬ c → Gives m' Q) : Gives (if c then m else m') Q := by
  split
  · exact yes ‹_›
  · exact no ‹_›

theorem mapM {xs : List α} (each : ∀ x ∈ xs, Gives (f x) R) : Gives (xs.mapM f) fun ys => ∀ y ∈ ys, R y := by
  intro ys made y mem
  obtain ⟨x, among, here⟩ := exists_of_mem_right (mapM_eq_ok.mp made) mem
  exact each x among y here

theorem foldlM {g : σ → α → Eval σ} {S : σ → Prop} {xs : List α} {s : σ} (start : S s)
    (each : ∀ s x, x ∈ xs → S s → Gives (g s x) S) : Gives (xs.foldlM g s) S := by
  induction xs generalizing s with
  | nil => exact .ok start
  | cons x xs ih =>
    rw [List.foldlM_cons]
    refine (each s x List.mem_cons_self start).bind fun next holds => ih holds fun s y mem => each s y (List.mem_cons_of_mem _ mem)

theorem iterate {step : Nat → σ → Eval σ} {S : σ → Prop} {n i : Nat} {s : σ} (start : S s)
    (each : ∀ i s, S s → Gives (step i s) S) : Gives (iterate step n i s) S := by
  induction n generalizing i s with
  | zero => exact .ok start
  | succ n ih => exact (each i s start).bind fun next holds => ih holds

theorem collect {f : Nat → Eval α} {n : Nat} (each : ∀ t, Gives (f t) Q) : Gives (collect f n) fun ys => ∀ y ∈ ys, Q y := by
  rw [collect_eq_mapM]
  exact mapM fun t _ => each t

theorem scanFrom {step : Nat → σ → Eval σ} {S : σ → Prop} {n i : Nat} {s : σ} (start : S s)
    (each : ∀ i s, S s → Gives (step i s) S) : Gives (scanFrom step n i s) fun states => ∀ s ∈ states, S s := by
  have states : Gives (ArrayKernels.iterate (fun i (p : σ × List σ) => do let next ← step i p.1; .ok (next, next :: p.2)) n i (s, []))
      fun p => S p.1 ∧ ∀ s ∈ p.2, S s := by
    refine iterate ⟨start, fun _ mem => absurd mem List.not_mem_nil⟩ fun i p holds => ?_
    exact (each i p.1 holds.1).bind fun next here => .ok ⟨here, List.forall_mem_cons.mpr ⟨here, holds.2⟩⟩
  exact states.bind fun p holds => .ok fun s mem => holds.2 s (List.mem_reverse.mp mem)

end Gives

/-- A comparison of an evaluation with itself. -/
theorem Follows.gives {α : Type} {rel : α → α → Prop} {m : Eval α} (h : Follows False rel m m) : Gives m fun r => rel r r := by
  intro r made
  obtain ⟨r', made', related⟩ := h.forth r made
  cases made.symm.trans made'
  exact related

/-! Regular values -/

/-- Nothing may differ, and arrays are regular. -/
def Likeness.regularOnly : Likeness := ⟨False, False, False, True, False.elim⟩

abbrev Regulars (xs : List Value) : Prop := ∀ x ∈ xs, x.IsRegular

theorem ArrayValue.Regular.alike {a : ArrayValue} (h : a.Regular) : a.Alike .regularOnly a := ⟨rfl, rfl, .inl rfl, fun _ => h⟩

theorem ArrayValue.Alike.isRegular {a b : ArrayValue} (h : a.Alike .regularOnly b) : a.Regular := h.regular trivial

theorem Value.IsRegular.self {x : Value} (h : x.IsRegular) : x.Alike .regularOnly x := by
  cases x with
  | scalar c => exact .scalar c
  | array a => exact .array (ArrayValue.Regular.alike h)
  | mem n space => exact .mem (.inl rfl)

theorem Value.Alike.isRegular {x y : Value} (h : x.Alike .regularOnly y) : x.IsRegular := by
  cases h with
  | scalar c => trivial
  | array alike => exact alike.isRegular
  | mem alike => trivial

theorem Value.count_isRegular (n : Nat) : (Value.count n).IsRegular := trivial

theorem Regulars.self {xs : List Value} (h : Regulars xs) : ValuesAlike .regularOnly xs xs :=
  List.forall₂_same.mpr fun x mem => (h x mem).self

theorem ValuesAlike.regulars {xs : List Value} (h : ValuesAlike .regularOnly xs xs) : Regulars xs :=
  fun x mem => (List.forall₂_same.mp h x mem).isRegular

theorem Regulars.cons {x : Value} {xs : List Value} (first : x.IsRegular) (rest : Regulars xs) : Regulars (x :: xs) :=
  List.forall_mem_cons.mpr ⟨first, rest⟩

theorem Regulars.append {xs ys : List Value} (h : Regulars xs) (h' : Regulars ys) : Regulars (xs ++ ys) :=
  List.forall_mem_append.mpr ⟨h, h'⟩

theorem Regulars.arrays {as : List ArrayValue} (h : ∀ a ∈ as, a.Regular) : Regulars (as.map .array) := by
  intro x mem
  obtain ⟨a, among, rfl⟩ := List.mem_map.mp mem
  exact h a among

theorem Regulars.column {steps : List (List Value)} (h : ∀ values ∈ steps, Regulars values) (j : Nat) : Regulars (column j steps) := by
  intro x mem
  obtain ⟨values, among, found⟩ := List.mem_filterMap.mp mem
  exact h values among x (List.mem_of_getElem? found)

namespace ArrayValue

variable {a : ArrayValue}

theorem row_regular (h : a.Regular) (i : Nat) : Gives (a.row i) Value.IsRegular :=
  (row_follows h.alike i).gives.imp fun _ alike => alike.isRegular

theorem index_regular (h : a.Regular) (indices : List Int64) : Gives (a.index indices) Value.IsRegular :=
  (index_follows h.alike indices).gives.imp fun _ alike => alike.isRegular

theorem takeRows_regular (h : a.Regular) (numbers : List Nat) : Gives (a.takeRows numbers) Regular :=
  (takeRows_follows h.alike numbers).gives.imp fun _ alike => alike.isRegular

theorem writeRow_regular (h : a.Regular) (i : Int64) {x : Eval Value} (value : Gives x Value.IsRegular) (mismatch : EvalError) :
    Gives (a.writeRow i x mismatch) Regular :=
  (writeRow_follows h.alike i (.refl fun y made => (value y made).self) mismatch).gives.imp fun _ alike => alike.isRegular

theorem ofRows_regular (elem : ScalarType) (rowShape : List Nat) {rows : List Value} (h : Regulars rows) :
    Gives (ofRows elem rowShape rows) Regular :=
  (ofRows_follows h.self (.inl rfl)).gives.imp fun _ alike => alike.isRegular

end ArrayValue

theorem joinChunks_regular (elem : ScalarType) (rowShape : List Nat) (width : Nat) {chunks : List (List Nat × Value)}
    (h : ∀ c ∈ chunks, c.2.IsRegular) : Gives (joinChunks elem rowShape width chunks) Value.IsRegular := by
  have alike : List.Forall₂ (ChunkAlike .regularOnly) chunks chunks := List.forall₂_same.mpr fun c mem => ⟨rfl, (h c mem).self⟩
  exact (joinChunks_follows elem rowShape width alike).gives.imp fun _ alike => alike.isRegular

/-! Regular environments -/

/-- All arrays that are bound, also where a later binding hides them, are regular. -/
def Env.Regular (env : Env) : Prop := ∀ b ∈ env.bindings, b.2.IsRegular

namespace Env.Regular

variable {env : Env}

theorem bind (h : env.Regular) (v : Name) {x : Value} (regular : x.IsRegular) : (env.bind v x).Regular :=
  List.forall_mem_cons.mpr ⟨regular, h⟩

theorem bindAll (h : env.Regular) {bs : List (Name × Value)} (regular : ∀ b ∈ bs, b.2.IsRegular) : (env.bindAll bs).Regular :=
  List.foldlRecOn (motive := Env.Regular) bs _ h fun _ h b mem => h.bind b.1 (regular b mem)

theorem bindZip (h : env.Regular) (names : List Name) {values : List Value} (regular : Regulars values) :
    (env.bindAll (names.zip values)).Regular :=
  h.bindAll fun b mem => regular b.2 (List.of_mem_zip mem).2

theorem bindValues (h : env.Regular) (pat : Pattern) {values : List Value} (regular : Regulars values) :
    Gives (env.bindValues pat values) Env.Regular :=
  .ite (fun _ => .ok (h.bindZip _ regular)) fun _ => .ite (fun _ => .ok (h.bindZip _ regular)) fun _ => .error _

theorem bindParams (h : env.Regular) (params : List Binder) {args : List Value} (regular : Regulars args) :
    Gives (env.bindParams params args) Env.Regular :=
  .ite (fun _ => .ok (h.bindZip _ regular)) fun _ => .error _

theorem lookup (h : env.Regular) (v : Name) : Gives (env.lookup v) Value.IsRegular := by
  intro x found
  have listed : (v, x) ∈ env.bindings := by
    have found : env.bindings.lookup v = some x := lookup_eq_ok.mp found
    obtain ⟨before, after, split, _⟩ := List.lookup_eq_some_iff.mp found
    rw [split]
    exact List.mem_append_right _ List.mem_cons_self
  exact h _ listed

theorem operand (h : env.Regular) (x : Operand) : Gives (env.operand x) Value.IsRegular := by
  cases x with
  | const c => exact .ok trivial
  | var v => exact h.lookup v

theorem operands (h : env.Regular) (xs : List Operand) : Gives (xs.mapM env.operand) Regulars := .mapM fun x _ => h.operand x

theorem array (h : env.Regular) (v : Name) : Gives (env.array v) ArrayValue.Regular := by
  intro a found
  exact h.lookup v (.array a) (lookup_eq_ok.mpr (array_eq_ok.mp found))

end Env.Regular

theorem Env.blank_regular (env : Env) (ty : Ty) : Gives (env.blank ty) Value.IsRegular := by
  cases ty with
  | scalar e => exact .ok trivial
  | array e dims unique => exact Gives.any.bind fun shape _ => .ok Array.size_replicate
  | mem size space => exact Gives.any.bind fun n _ => .ok trivial

theorem Exp.leaf_regular {e : Exp} (leaf : e.isNested = false) {env : Env} (h : env.Regular) : Gives (e.eval env) Regulars := by
  have read (x : Operand) : Follows False (Value.Alike .regularOnly) (env.operand x) (env.operand x) :=
    .refl fun y found => (h.operand x y found).self
  have renamed : Exp.Renamed (fun x x' => Follows False (Value.Alike .regularOnly) (env.operand x) (env.operand x')) e e :=
    .self leaf (fun c => read (.const c)) fun v _ => read (.var v)
  exact renamed.eval_follows.gives.imp fun _ alike => alike.regulars

/-! Kernels -/

section
variable {env : Env}

namespace MapKernel

theorem bindInputs_regular (h : env.Regular) (inputs : List MapInput) : Gives (bindInputs env inputs) Env.Regular := by
  refine .foldlM h fun env i _ h => ?_
  refine (h.array i.array).bind fun a regular => Gives.any.bind fun indices _ => ?_
  exact (a.index_regular regular indices).bind fun x regular => .ok (h.bind i.param.name regular)

/-- The environment of a thread before it has its inputs. -/
def start (k : MapKernel) (dims : List Nat) (env : Env) (t : Nat) : Env :=
  (env.bind k.thread (.count t)).bindAll ((k.space.map Prod.fst).zip ((coordinates t dims).2.map Value.count)).reverse

theorem start_regular (h : env.Regular) (k : MapKernel) (dims : List Nat) (t : Nat) : (k.start dims env t).Regular := by
  refine (h.bind k.thread (Value.count_isRegular t)).bindAll fun b mem => ?_
  obtain ⟨n, _, same⟩ := List.mem_map.mp (List.of_mem_zip (List.mem_reverse.mp mem)).2
  exact same ▸ Value.count_isRegular n

theorem threadEnv_regular (h : env.Regular) (k : MapKernel) (dims : List Nat) (t : Nat) :
    Gives (k.threadEnv dims env t) Env.Regular := bindInputs_regular (start_regular h k dims t) k.inputs

theorem assemble_regular (env : Env) (space : List Nat) (ret : Ty × List Nat) {rows : List Value} (h : Regulars rows) :
    Gives (assemble env space ret rows) Value.IsRegular :=
  (assemble_follows rfl rfl (.refl fun _ _ => rfl) h.self).gives.imp fun _ alike => alike.isRegular

theorem run_regular (h : env.Regular) (k : MapKernel) {run : Env → Eval (List Value)}
    (body : ∀ e, e.Regular → Gives (run e) Regulars) : Gives (k.run run env) Regulars := by
  refine Gives.any.bind fun width _ => Gives.any.bind fun dims _ => ?_
  have thread (t : Nat) : Gives (k.runThread run dims env t) Regulars :=
    (threadEnv_regular h k dims t).bind fun e regular => (body e regular).bind fun values made =>
      .ite (fun _ => .ok made) fun _ => .error _
  refine (Gives.collect thread).bind fun results made => .mapM fun rj _ => ?_
  exact assemble_regular env _ rj.1 (Regulars.column made rj.2)

end MapKernel

namespace ScanKernel

theorem step_regular {fold : List Value → Eval (List Value)} (body : ∀ args, Regulars args → Gives (fold args) Regulars)
    {arrays : List ArrayValue} (given : ∀ a ∈ arrays, a.Regular) (width i : Nat) {accs : List Value} (h : Regulars accs) :
    Gives (step fold arrays width i accs) Regulars := by
  have elems : Gives (arrays.mapM (·.row i)) Regulars := .mapM fun a mem => a.row_regular (given a mem) i
  refine elems.bind fun elems read => (body _ ((Regulars.cons (Value.count_isRegular i) h).append read)).bind fun next made => ?_
  exact .ite (fun _ => .ok made) fun _ => .error _

theorem assemble_regular (h : env.Regular) (neutral : Operand) {rows : List Value} (given : Regulars rows) :
    Gives (assemble env neutral rows) Value.IsRegular :=
  (assemble_follows (.refl fun x found => (h.operand neutral x found).self) given.self).gives.imp fun _ alike => alike.isRegular

theorem run_regular (h : env.Regular) (k : ScanKernel) {fold : List Value → Eval (List Value)}
    (body : ∀ args, Regulars args → Gives (fold args) Regulars) : Gives (k.run fold env) Regulars := by
  refine Gives.any.bind fun width _ => (Gives.mapM fun v _ => h.array v).bind fun arrays given => ?_
  refine (h.operands k.neutral).bind fun start begun => ?_
  refine (Gives.scanFrom begun fun i accs now => step_regular body given start.length i now).bind fun states made => ?_
  exact .mapM fun nj _ => assemble_regular h nj.1 (Regulars.column made nj.2)

end ScanKernel

namespace ChunkedKernel

theorem args_regular {arrays : List ArrayValue} (given : ∀ a ∈ arrays, a.Regular) (numbers : List Nat) (t : Nat) :
    Gives (arrays.mapM (·.takeRows numbers)) fun chunks =>
      Regulars (.count t :: .count numbers.length :: chunks.map .array) := by
  have chunks : Gives (arrays.mapM (·.takeRows numbers)) fun chunks => ∀ c ∈ chunks, ArrayValue.Regular c :=
    .mapM fun a mem => a.takeRows_regular (given a mem) numbers
  exact chunks.imp fun cs cut => .cons (Value.count_isRegular _) (.cons (Value.count_isRegular _) (.arrays cut))

theorem run_regular (h : env.Regular) (k : ChunkedKernel) {op : List Value → Eval (List Value)}
    (body : ∀ args, Regulars args → Gives (op args) Regulars) : Gives (k.run op env) Regulars := by
  refine Gives.any.bind fun width _ => Gives.any.bind fun threads _ => Gives.any.bind fun chunk _ => ?_
  refine (Gives.mapM fun v _ => h.array v).bind fun arrays given => ?_
  have thread (t : Nat) : Gives (thread op arrays (k.division.rows t threads chunk width) t) fun r => Regulars r.2 :=
    (args_regular given _ t).bind fun chunks args => (body _ args).bind fun values made => .ok made
  refine (Gives.collect thread).bind fun results made => .mapM fun tj _ => Gives.any.bind fun elem _ => ?_
  refine joinChunks_regular elem _ width fun c mem => ?_
  obtain ⟨r, among, found⟩ := List.mem_filterMap.mp mem
  obtain ⟨x, there, rfl⟩ := Option.map_eq_some_iff.mp found
  exact made r among x (List.mem_of_getElem? there)

end ChunkedKernel

namespace ScatterKernel

theorem writeDest_regular {results : List Value} (given : Regulars results) (n j : Nat) {dest : ArrayValue} (h : dest.Regular) :
    Gives (writeDest results n j dest) ArrayValue.Regular :=
  (writeDest_follows given.self n j h.alike).gives.imp fun _ alike => alike.isRegular

theorem args_regular {arrays : List ArrayValue} (given : ∀ a ∈ arrays, a.Regular) (i : Nat) :
    Gives (arrays.mapM (·.row i)) fun elems => Regulars (.count i :: elems) := by
  have elems : Gives (arrays.mapM (·.row i)) Regulars := .mapM fun a mem => a.row_regular (given a mem) i
  exact elems.imp fun xs read => .cons (Value.count_isRegular i) read

theorem step_regular {op : List Value → Eval (List Value)} (body : ∀ args, Regulars args → Gives (op args) Regulars)
    {arrays : List ArrayValue} (given : ∀ a ∈ arrays, a.Regular) (i : Nat) {dests : List ArrayValue} (h : ∀ a ∈ dests, a.Regular) :
    Gives (step op arrays i dests) fun dests => ∀ a ∈ dests, a.Regular := by
  refine (args_regular given i).bind fun elems args => (body _ args).bind fun results made => ?_
  refine .ite (fun _ => .mapM fun dj mem => ?_) fun _ => .error _
  exact writeDest_regular made _ dj.2 (h dj.1 (List.fst_mem_of_mem_zipIdx mem))

theorem run_regular (h : env.Regular) (k : ScatterKernel) {op : List Value → Eval (List Value)}
    (body : ∀ args, Regulars args → Gives (op args) Regulars) : Gives (k.run op env) Regulars := by
  refine Gives.any.bind fun width _ => (Gives.mapM fun v _ => h.array v).bind fun arrays given => ?_
  refine (Gives.mapM fun d _ => h.array d.2).bind fun start begun => ?_
  exact (Gives.iterate begun fun i dests now => step_regular body given i now).bind fun dests made => .ok (.arrays made)

end ScatterKernel

namespace GroupKernel

theorem threadEnv_regular (h : env.Regular) (space : ThreadNames) (groupSize t : Nat) : (threadEnv space groupSize env t).Regular := by
  refine h.bindAll fun b mem => ?_
  simp only [List.mem_cons, List.not_mem_nil, or_false] at mem
  rcases mem with rfl | rfl | rfl <;> exact Value.count_isRegular _

theorem split_regular (h : env.Regular) (size : Binder) (chunks : List Binder) (division : Division) (width perThread : Operand)
    (arrays : List Name) (threads t : Nat) : Gives (split size chunks division width perThread arrays threads env t) Env.Regular := by
  refine Gives.any.bind fun width _ => Gives.any.bind fun perThread _ => ?_
  refine Gives.bind (Q := fun parts => ∀ b ∈ parts, Value.IsRegular b.2) (.mapM fun ca _ => ?_) fun parts given => .ok (h.bindAll ?_)
  · exact (h.array ca.2).bind fun a regular => (a.takeRows_regular regular _).bind fun c cut => .ok cut
  · exact List.forall_mem_cons.mpr ⟨Value.count_isRegular _, given⟩

theorem runThread_regular (h : env.Regular) (pat : Pattern) (only : Option Operand) {run : Env → Eval (List Value)}
    (body : ∀ e, e.Regular → Gives (run e) Regulars) (groupSize t : Nat) :
    Gives (runThread pat only run groupSize env t) Env.Regular := by
  rw [runThread_eq]
  refine Gives.any.bind fun chosen _ => Gives.bind (Q := Regulars) ?_ fun values made => h.bindValues pat made
  cases chosen with
  | true => exact body env h
  | false => exact .mapM fun b _ => env.blank_regular b.ty

theorem reduceArgs_regular (h : env.Regular) (inputs : List (Operand × Name)) {accs : List Value} (given : Regulars accs) (lane : Nat) :
    Gives (reduceArgs inputs accs env lane) Regulars := by
  refine (Gives.mapM fun i _ => h.lookup i.2).bind fun values read => .ok ?_
  exact (Regulars.cons (Value.count_isRegular lane) given).append read

section
variable {op : Env → List Value → Eval (List Value)} (body : ∀ e args, e.Regular → Regulars args → Gives (op e args) Regulars)
include body

theorem reduceGroup_regular (width : Operand) (inputs : List (Operand × Name)) {members : List Env} (h : ∀ e ∈ members, e.Regular) :
    Gives (reduceGroup width inputs op members) Regulars := by
  cases members with
  | nil => exact .ok fun _ mem => absurd mem List.not_mem_nil
  | cons first rest =>
    refine Gives.any.bind fun n _ => (Gives.mapM fun i _ => (h first List.mem_cons_self).operand i.1).bind fun start begun => ?_
    refine .foldlM begun fun accs el mem now => ?_
    have regular := h el.1 (List.mem_of_mem_take (List.fst_mem_of_mem_zipIdx mem))
    exact (reduceArgs_regular regular inputs now el.2).bind fun args given => body el.1 args regular given

theorem reduce_regular (pat : Pattern) (width : Operand) (inputs : List (Operand × Name)) (groupSize : Nat) {threads : List Env}
    (h : ∀ e ∈ threads, e.Regular) : Gives (reduce pat width inputs op groupSize threads) fun next => ∀ e ∈ next, e.Regular := by
  have members (ms : List Env) (mem : ms ∈ groups groupSize threads) : ∀ e ∈ ms, e.Regular := fun e among => h e (mem_blocks mem among)
  refine (Gives.mapM fun ms mem => reduceGroup_regular body width inputs (members ms mem)).bind fun reduced made => ?_
  refine Gives.bind (Q := fun bound => ∀ es ∈ bound, ∀ e ∈ es, Env.Regular e) (.mapM fun mr mem => ?_) fun bound given => .ok ?_
  · obtain ⟨left, right⟩ := List.of_mem_zip mem
    exact .mapM fun e among => (members mr.1 left e among).bindValues pat (made mr.2 right)
  · intro e mem
    obtain ⟨es, among, inside⟩ := List.mem_flatten.mp mem
    exact given es among e inside

end

theorem threadChunk_regular (h : env.Regular) (division : Division) (width perThread : Nat) (array : Name) (threads t : Nat) :
    Gives (threadChunk division width perThread array threads env t) fun c => c.2.Regular :=
  (threadChunk_follows (.refl fun a found => (h.array array a found).alike)).gives.imp fun _ alike => alike.2.isRegular

theorem assemble_regular {threads : List Env} (h : ∀ e ∈ threads, e.Regular) (env : Env) (ty : Ty) (result : GroupResult) :
    Gives (assemble env threads ty result) Value.IsRegular := by
  cases result with
  | row value =>
    refine (Gives.mapM fun e mem => (h e mem).operand value).bind fun rows given => Gives.any.bind fun elem _ => ?_
    exact (ArrayValue.ofRows_regular elem _ given).bind fun a regular => .ok regular
  | write index value =>
    refine (env.blank_regular ty).bind fun x regular => ?_
    cases x with
    | array a =>
      refine Gives.bind (.foldlM regular fun out e mem now => ?_) fun out done => .ok done
      exact Gives.any.bind fun i _ => ArrayValue.writeRow_regular now i ((h e mem).operand value) _
    | scalar c => exact .error _
    | mem n space => exact .error _
  | chunks division width perThread array =>
    refine Gives.any.bind fun width _ => Gives.any.bind fun perThread _ => ?_
    refine Gives.bind (Q := fun chunks => ∀ c ∈ chunks, ArrayValue.Regular c.2) (.mapM fun et mem => ?_) fun chunks given => ?_
    · exact threadChunk_regular (h et.1 (List.fst_mem_of_mem_zipIdx mem)) division width perThread array _ et.2
    · refine Gives.any.bind fun elem _ => joinChunks_regular elem _ width fun c mem => ?_
      obtain ⟨d, among, rfl⟩ := List.mem_map.mp mem
      exact given d among

theorem run_regular (h : env.Regular) (k : GroupKernel) {stms : Nat → List Env → Eval (List Env)}
    (body : ∀ groupSize threads, (∀ e ∈ threads, Env.Regular e) → Gives (stms groupSize threads) fun next => ∀ e ∈ next, e.Regular) :
    Gives (k.run stms env) Regulars := by
  refine Gives.any.bind fun threads _ => Gives.any.bind fun groupSize _ => ?_
  refine (body _ _ fun e mem => ?_).bind fun final done => .ite (fun _ => .mapM fun rt _ => ?_) fun _ => .error _
  · obtain ⟨t, _, rfl⟩ := List.mem_map.mp mem
    exact threadEnv_regular h k.space _ t
  · exact assemble_regular done env rt.2 rt.1

end GroupKernel

end

/-! Evaluation -/

theorem loopStep_regular {env : Env} (h : env.Regular) (params : List Name) (index : Name) {run : Env → Eval (List Value)}
    (body : ∀ e, e.Regular → Gives (run e) Regulars) (i : Nat) {values : List Value} (given : Regulars values) :
    Gives (loopStep params index run env i values) Regulars := by
  refine (body _ ((h.bind index (Value.count_isRegular i)).bindZip params given)).bind fun next made => ?_
  exact .ite (fun _ => .ok made) fun _ => .error _

mutual

theorem Exp.eval_regular : ∀ (e : Exp) {env : Env}, env.Regular → Gives (e.eval env) Regulars
  | .operand _, _, h | .binary .., _, h | .compare .., _, h | .index .., _, h | .update .., _, h | .iota .., _, h
  | .replicate .., _, h | .reshape .., _, h | .rearrange .., _, h | .copy _, _, h | .alloc .., _, h => Exp.leaf_regular rfl h
  | .branch cond onTrue onFalse _, env, h => by
    rw [Exp.eval]
    refine Gives.any.bind fun c _ => ?_
    split
    · exact onTrue.eval_regular h
    · exact onFalse.eval_regular h
    · exact .error _
  | .loop context values index bound body, env, h => by
    rw [Exp.eval]
    refine (Gives.mapM fun m _ => h.operand m.2).bind fun init begun => Gives.any.bind fun n _ => ?_
    exact .iterate begun fun i now given => loopStep_regular h _ index (fun e => body.eval_regular) i given
  | .launch k, env, h => by
    rw [Exp.eval]
    exact k.eval_regular h

theorem evalStms_regular : ∀ (stms : List Stm) {env : Env}, env.Regular → Gives (evalStms env stms) Env.Regular
  | [], _, h => .ok h
  | ⟨pat, certs, exp⟩ :: stms, env, h => by
    rw [evalStms]
    exact (exp.eval_regular h).bind fun values made => (h.bindValues pat made).bind fun next regular => evalStms_regular stms regular

theorem Body.eval_regular : ∀ (body : Body) {env : Env}, env.Regular → Gives (body.eval env) Regulars
  | ⟨stms, result⟩, env, h => by
    rw [Body.eval]
    exact (evalStms_regular stms h).bind fun last regular => regular.operands result

theorem Lambda.eval_regular : ∀ (op : Lambda) {env : Env} {args : List Value}, env.Regular → Regulars args →
    Gives (op.eval env args) Regulars
  | ⟨params, body, _⟩, env, args, h, given => by
    rw [Lambda.eval]
    exact (h.bindParams params given).bind fun thread regular => body.eval_regular regular

theorem Kernel.eval_regular : ∀ (k : Kernel) {env : Env}, env.Regular → Gives (k.eval env) Regulars
  | .map ⟨_, _, _, _, _, _, body⟩, _, h => MapKernel.run_regular h _ fun _ => body.eval_regular
  | .scan ⟨_, _, _, _, fold, _, _⟩, _, h => ScanKernel.run_regular h _ fun _ => fold.eval_regular h
  | .chunked ⟨_, _, _, _, op, _⟩, _, h => ChunkedKernel.run_regular h _ fun _ => op.eval_regular h
  | .scatter ⟨_, _, op, _, _⟩, _, h => ScatterKernel.run_regular h _ fun _ => op.eval_regular h
  | .group ⟨_, _, _, _, ⟨stms, _⟩⟩, _, h => GroupKernel.run_regular h _ fun groupSize _ => evalGroupStms_regular stms groupSize
  | .numGroups, _, _ => .error _
  | .groupSize, _, _ => .error _

theorem evalGroupStms_regular : ∀ (stms : List GroupStm) (groupSize : Nat) {threads : List Env}, (∀ e ∈ threads, e.Regular) →
    Gives (evalGroupStms groupSize stms threads) fun next => ∀ e ∈ next, e.Regular
  | [], _, _, h => .ok h
  | .split size chunks division width perThread arrays :: stms, groupSize, threads, h => by
    rw [evalGroupStms]
    refine (Gives.mapM fun et mem => ?_).bind fun next regular => evalGroupStms_regular stms groupSize regular
    exact GroupKernel.split_regular (h et.1 (List.fst_mem_of_mem_zipIdx mem)) size chunks division width perThread arrays _ et.2
  | .thread pat only body :: stms, groupSize, threads, h => by
    rw [evalGroupStms]
    refine (Gives.mapM fun et mem => ?_).bind fun next regular => evalGroupStms_regular stms groupSize regular
    exact GroupKernel.runThread_regular (h et.1 (List.fst_mem_of_mem_zipIdx mem)) pat only (fun e => body.eval_regular) groupSize et.2
  | .reduce pat width op inputs :: stms, groupSize, threads, h => by
    rw [evalGroupStms]
    refine (GroupKernel.reduce_regular (fun e args regular given => op.eval_regular regular given) pat width inputs groupSize h).bind
      fun next regular => evalGroupStms_regular stms groupSize regular

end

/-! Environments that arise in the course of an evaluation -/

/-- In the course of a statement of a group kernel, one of the threads gets the environment `next`. -/
inductive GroupStm.Advances (groupSize : Nat) (threads : List Env) (next : Env) : GroupStm → Prop where
  | split {size : Binder} {chunks : List Binder} {division : Division} {width perThread : Operand} {arrays : List Name} {e : Env} {t : Nat}
      (reached : Reaches (fun et : Env × Nat => GroupKernel.split size chunks division width perThread arrays threads.length et.1 et.2)
        threads.zipIdx (e, t))
      (done : GroupKernel.split size chunks division width perThread arrays threads.length e t = .ok next) :
      Advances groupSize threads next (.split size chunks division width perThread arrays)
  | thread {pat : Pattern} {only : Option Operand} {body : Body} {e : Env} {t : Nat}
      (reached : Reaches (fun et : Env × Nat => GroupKernel.runThread pat only (fun e => body.eval e) groupSize et.1 et.2)
        threads.zipIdx (e, t))
      (done : GroupKernel.runThread pat only (fun e => body.eval e) groupSize e t = .ok next) :
      Advances groupSize threads next (.thread pat only body)
  | reduce {pat : Pattern} {width : Operand} {op : Lambda} {inputs : List (Operand × Name)} {results : List (List Value)}
      {members : List Env} {values : List Value} {e : Env}
      (reduced : (GroupKernel.groups groupSize threads).mapM
        (GroupKernel.reduceGroup width inputs fun e args => op.eval e args) = .ok results)
      (mem : (members, values) ∈ (GroupKernel.groups groupSize threads).zip results) (among : e ∈ members)
      (done : e.bindValues pat values = .ok next) : Advances groupSize threads next (.reduce pat width op inputs)

/-- `Arises env body now`: in the course of the evaluation of `body` in `env`, whether or not it ends well, there is an environment `now`. -/
inductive Arises : Env → Body → Env → Prop where
  /-- Behind some of the statements. -/
  | here {env now : Env} {before after : List Stm} {result : List Operand} (done : evalStms env before = .ok now) :
      Arises env ⟨before ++ after, result⟩ now
  /-- In a body, an operator or a round that is entered. -/
  | inside {env outer thread now : Env} {body inner : Body} {pat : Pattern} {certs : List Name} {exp : Exp}
      (executed : Executes env body outer ⟨pat, certs, exp⟩) (entered : Enters outer exp inner thread)
      (rest : Arises thread inner now) : Arises env body now
  /-- In a thread of a map kernel that has some of its inputs. -/
  | inputs {env outer now : Env} {body : Body} {pat : Pattern} {certs : List Name} {k : MapKernel} {width t : Nat} {dims : List Nat}
      {before after : List MapInput} (executed : Executes env body outer ⟨pat, certs, .launch (.map k)⟩)
      (counted : outer.size k.width = .ok width) (sized : outer.sizes k.extents = .ok dims)
      (reached : Reaches (k.runThread (fun e => k.body.eval e) dims outer) (List.range width) t)
      (split : k.inputs = before ++ after) (done : MapKernel.bindInputs (k.start dims outer t) before = .ok now) : Arises env body now
  /-- In a thread of a group kernel behind some of the statements. -/
  | threads {env outer now : Env} {body : Body} {pat : Pattern} {certs : List Name} {k : GroupKernel} {count groupSize : Nat}
      {before after : List GroupStm} {reached : List Env} (executed : Executes env body outer ⟨pat, certs, .launch (.group k)⟩)
      (counted : outer.size k.size.threads = .ok count) (sized : outer.size k.size.groupSize = .ok groupSize)
      (split : k.body.stms = before ++ after)
      (done : evalGroupStms (max groupSize 1) before
        ((List.range count).map (GroupKernel.threadEnv k.space (max groupSize 1) outer)) = .ok reached)
      (mem : now ∈ reached) : Arises env body now
  /-- In a thread of a group kernel that is through with a statement, while others may not be. -/
  | advances {env outer now : Env} {body : Body} {pat : Pattern} {certs : List Name} {k : GroupKernel} {count groupSize : Nat}
      {before after : List GroupStm} {stm : GroupStm} {reached : List Env}
      (executed : Executes env body outer ⟨pat, certs, .launch (.group k)⟩)
      (counted : outer.size k.size.threads = .ok count) (sized : outer.size k.size.groupSize = .ok groupSize)
      (split : k.body.stms = before ++ stm :: after)
      (done : evalGroupStms (max groupSize 1) before
        ((List.range count).map (GroupKernel.threadEnv k.space (max groupSize 1) outer)) = .ok reached)
      (advances : stm.Advances (max groupSize 1) reached now) : Arises env body now

theorem GroupKernel.threads_regular {env : Env} (h : env.Regular) (space : ThreadNames) (groupSize count : Nat) {stms : List GroupStm}
    {reached : List Env} (done : evalGroupStms groupSize stms ((List.range count).map (threadEnv space groupSize env)) = .ok reached) :
    ∀ e ∈ reached, e.Regular := by
  refine evalGroupStms_regular stms groupSize (fun e mem => ?_) reached done
  obtain ⟨t, _, rfl⟩ := List.mem_map.mp mem
  exact threadEnv_regular h space groupSize t

theorem GroupStm.Advances.regular {groupSize : Nat} {threads : List Env} {next : Env} {stm : GroupStm}
    (h : stm.Advances groupSize threads next) (regular : ∀ e ∈ threads, e.Regular) : next.Regular := by
  cases h with
  | split reached done =>
    exact GroupKernel.split_regular (regular _ (List.fst_mem_of_mem_zipIdx reached.mem)) _ _ _ _ _ _ _ _ next done
  | @thread _ _ body _ _ reached done =>
    exact GroupKernel.runThread_regular (regular _ (List.fst_mem_of_mem_zipIdx reached.mem)) _ _ (fun _ => body.eval_regular) _ _ next done
  | @reduce _ width op inputs results members values e reduced mem among done =>
    have inside : ∀ ms ∈ GroupKernel.groups groupSize threads, ∀ e ∈ ms, e.Regular :=
      fun ms listed e among => regular e (GroupKernel.mem_blocks listed among)
    have made : ∀ values ∈ results, Regulars values := Gives.mapM (fun ms listed =>
      GroupKernel.reduceGroup_regular (fun e args regular given => op.eval_regular regular given) width inputs (inside ms listed)) results reduced
    obtain ⟨left, right⟩ := List.of_mem_zip mem
    exact (inside members left e among).bindValues _ (made values right) next done

/-- What a body inside an expression is entered with. -/
theorem Enters.regular {env thread : Env} {e : Exp} {inner : Body} (entered : Enters env e inner thread) (h : env.Regular) :
    thread.Regular := by
  cases entered with
  | onTrue chosen => exact h
  | onFalse chosen => exact h
  | @round _ _ index _ _ init now _ i started counted below done =>
    have begun : Regulars init := Gives.mapM (fun m _ => h.operand m.2) init started
    have reached : Regulars now :=
      Gives.iterate begun (fun i now given => loopStep_regular h _ index (fun _ => inner.eval_regular) i given) now done
    exact (h.bind index (Value.count_isRegular i)).bindZip _ reached
  | @map k _ fed =>
    obtain ⟨_, dims, t, _, _, _, made⟩ := fed
    exact MapKernel.threadEnv_regular h k dims t thread made
  | @scan k args _ fed bound =>
    obtain ⟨_, arrays, start, i, accs, elems, _, read, begun, _, done, taken, rfl⟩ := fed
    have given : ∀ a ∈ arrays, a.Regular := Gives.mapM (fun v _ => h.array v) arrays read
    have reached : Regulars accs := Gives.iterate (h.operands _ start begun)
      (fun i accs now => ScanKernel.step_regular (fun args => k.fold.eval_regular h) given start.length i now) accs done
    have rows : Regulars elems := Gives.mapM (fun a mem => a.row_regular (given a mem) i) elems taken
    exact h.bindParams _ ((Regulars.cons (Value.count_isRegular i) reached).append rows) thread bound
  | @chunked k args _ fed bound =>
    obtain ⟨_, _, _, arrays, t, chunks, _, _, _, read, _, taken, rfl⟩ := fed
    have given : ∀ a ∈ arrays, a.Regular := Gives.mapM (fun v _ => h.array v) arrays read
    exact h.bindParams _ (ChunkedKernel.args_regular given _ t chunks taken) thread bound
  | @scatter k args _ fed bound =>
    obtain ⟨_, arrays, _, i, _, elems, _, read, _, _, _, taken, rfl⟩ := fed
    have given : ∀ a ∈ arrays, a.Regular := Gives.mapM (fun v _ => h.array v) arrays read
    exact h.bindParams _ (ScatterKernel.args_regular given i elems taken) thread bound
  | @groupThread k _ _ _ _ _ _ _ _ _ counted sized split done fed =>
    obtain ⟨t, reached, _⟩ := fed
    exact GroupKernel.threads_regular h k.space _ _ done thread (List.fst_mem_of_mem_zipIdx reached.mem)
  | @groupReduce k _ _ _ _ _ width op inputs _ lane _ args counted sized split done fed bound =>
    obtain ⟨first, rest, n, start, l, accs, grouped, _, begun, folded, made⟩ := fed
    have threads := GroupKernel.threads_regular h k.space _ _ done
    have members : ∀ e ∈ first :: rest, e.Regular := fun e among => threads e (GroupKernel.mem_blocks grouped.mem among)
    have here : lane.Regular := members lane (List.mem_of_mem_take (List.fst_mem_of_mem_zipIdx folded.mem))
    have reached : Regulars accs := by
      obtain ⟨before, after, cut, folded⟩ := folded
      refine Gives.foldlM (Gives.mapM (fun i _ => (members first List.mem_cons_self).operand i.1) start begun) (fun accs el mem now => ?_)
        accs folded
      have among : el ∈ ((first :: rest).take n).zipIdx := cut ▸ List.mem_append_left _ mem
      have regular := members el.1 (List.mem_of_mem_take (List.fst_mem_of_mem_zipIdx among))
      exact (GroupKernel.reduceArgs_regular regular inputs now el.2).bind fun args given => op.eval_regular regular given
    exact here.bindParams op.params (GroupKernel.reduceArgs_regular here inputs reached l args made) thread bound

theorem Executes.regular {env now : Env} {body : Body} {stm : Stm} (executed : Executes env body now stm) (h : env.Regular) :
    now.Regular := by
  induction executed with
  | here done => exact evalStms_regular _ h _ done
  | inside executed entered rest ih ih' => exact ih' (entered.regular (ih h))

theorem Arises.regular {env now : Env} {body : Body} (arises : Arises env body now) (h : env.Regular) : now.Regular := by
  induction arises with
  | here done => exact evalStms_regular _ h _ done
  | inside executed entered rest ih => exact ih (entered.regular (executed.regular h))
  | inputs executed counted sized reached split done => exact MapKernel.bindInputs_regular (MapKernel.start_regular (executed.regular h) _ _ _) _ _ done
  | threads executed counted sized split done mem => exact GroupKernel.threads_regular (executed.regular h) _ _ _ done _ mem
  | advances executed counted sized split done advances => exact advances.regular (GroupKernel.threads_regular (executed.regular h) _ _ _ done)

/-- The environment `now` arises in a call of the function. -/
def Program.ArisesInCall (p : Program) (name : String) (args : List Value) (now : Env) : Prop :=
  ∃ f, p.funs.find? (·.name == name) = some f ∧ f.params.length = args.length ∧
    Arises (Env.empty.bindAll ((f.params.map Binder.name).zip args)) f.body now

/-- The columns of a table, the first of them replaced by numbers from zero on. -/
def sampleOfColumns : Program :=
  let table : Name := ⟨"table", 0⟩
  let turned : Name := ⟨"turned", 1⟩
  let numbers : Name := ⟨"numbers", 2⟩
  let columns : Name := ⟨"columns", 3⟩
  let whole (shape : List Operand) : Ty := .array .i64 shape false
  ⟨[⟨"main", [⟨table, whole [.word 2, .word 3], none⟩], [whole [.word 3, .word 2]],
    ⟨[.single turned (whole [.word 3, .word 2]) (.rearrange [1, 0] table),
      .single numbers (whole [.word 2]) (.iota (.word 2) (.word 0) (.word 1)),
      .single columns (whole [.word 3, .word 2]) (.update turned [.word 0] (.var numbers))], [.var columns]⟩⟩]⟩

end ArrayKernels
