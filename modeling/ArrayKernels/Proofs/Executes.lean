import ArrayKernels.Proofs.Follows
import ArrayKernels.Eval.Exp

/-! What happens in the course of an evaluation: on which environments and arguments kernels run
their bodies and operators, and which statements are evaluated where. Threads run one after
another, so that a thread is run only if those before it have a value. -/
namespace ArrayKernels

/-- The kernel runs its body in the environment `thread`. -/
def MapKernel.Feeds (k : MapKernel) (run : Env → Eval (List Value)) (env thread : Env) : Prop :=
  ∃ width dims t, env.size k.width = .ok width ∧ env.sizes k.extents = .ok dims ∧
    Reaches (k.runThread run dims env) (List.range width) t ∧ k.threadEnv dims env t = .ok thread

/-- The kernel applies its operator to the arguments. -/
def ScanKernel.Feeds (k : ScanKernel) (fold : List Value → Eval (List Value)) (env : Env) (args : List Value) : Prop :=
  ∃ width arrays start i accs elems, env.size k.width = .ok width ∧ k.arrays.mapM env.array = .ok arrays ∧
    k.neutral.mapM env.operand = .ok start ∧ i < width ∧
    iterate (step fold arrays start.length) i 0 start = .ok accs ∧
    arrays.mapM (·.row i) = .ok elems ∧ args = .count i :: accs ++ elems

def ChunkedKernel.Feeds (k : ChunkedKernel) (op : List Value → Eval (List Value)) (env : Env) (args : List Value) : Prop :=
  ∃ width threads chunk arrays t chunks, env.size k.width = .ok width ∧ env.size k.size.threads = .ok threads ∧
    env.size k.size.chunk = .ok chunk ∧ k.arrays.mapM env.array = .ok arrays ∧
    Reaches (fun t => thread op arrays (k.division.rows t threads chunk width) t) (List.range threads) t ∧
    arrays.mapM (·.takeRows (k.division.rows t threads chunk width)) = .ok chunks ∧
    args = .count t :: .count (k.division.rows t threads chunk width).length :: chunks.map .array

def ScatterKernel.Feeds (k : ScatterKernel) (op : List Value → Eval (List Value)) (env : Env) (args : List Value) : Prop :=
  ∃ width arrays start i dests elems, env.size k.width = .ok width ∧ k.arrays.mapM env.array = .ok arrays ∧
    (k.dests.mapM fun d => env.array d.2) = .ok start ∧ i < width ∧
    iterate (step op arrays) i 0 start = .ok dests ∧
    arrays.mapM (·.row i) = .ok elems ∧ args = .count i :: elems

namespace GroupKernel

/-- Whether a thread statement is run in thread `t`. -/
def active (only : Option Operand) (groupSize : Nat) (env : Env) (t : Nat) : Eval Bool :=
  match only with
  | none => .ok true
  | some lane => do .ok ((← env.size lane) == t % groupSize)

/-- A thread statement runs its body in the environment of one of the threads. -/
def ThreadFeeds (pat : Pattern) (only : Option Operand) (run : Env → Eval (List Value)) (groupSize : Nat)
    (threads : List Env) (thread : Env) : Prop :=
  ∃ t, Reaches (fun et : Env × Nat => runThread pat only run groupSize et.1 et.2) threads.zipIdx (thread, t) ∧
    active only groupSize thread t = .ok true

/-- A reduction applies its operator to the arguments in the environment of one of the threads. -/
def ReduceFeeds (width : Operand) (inputs : List (Operand × Name)) (op : Env → List Value → Eval (List Value))
    (groupSize : Nat) (threads : List Env) (thread : Env) (args : List Value) : Prop :=
  ∃ first rest n start lane accs, Reaches (reduceGroup width inputs op) (groups groupSize threads) (first :: rest) ∧
    first.size width = .ok n ∧ (inputs.mapM fun i => first.operand i.1) = .ok start ∧
    FoldReaches (fun accs (el : Env × Nat) => do op el.1 (← reduceArgs inputs accs el.1 el.2)) start
      ((first :: rest).take n).zipIdx (thread, lane) accs ∧
    reduceArgs inputs accs thread lane = .ok args

end GroupKernel

/-- `Enters env e inner thread`: in the course of the evaluation of `e` in `env`, the body `inner` is
evaluated in `thread`. -/
inductive Enters (env : Env) : Exp → Body → Env → Prop where
  | onTrue {cond : Operand} {onTrue onFalse : Body} {ret : List Ty} (chosen : env.scalar cond = .ok (.bool true)) :
      Enters env (.branch cond onTrue onFalse ret) onTrue env
  | onFalse {cond : Operand} {onTrue onFalse : Body} {ret : List Ty} (chosen : env.scalar cond = .ok (.bool false)) :
      Enters env (.branch cond onTrue onFalse ret) onFalse env
  | round {context values : List (Binder × Operand)} {index : Name} {bound : Operand} {body : Body}
      {init now : List Value} {n : Int64} {i : Nat}
      (started : ((context ++ values).mapM fun m => env.operand m.2) = .ok init) (counted : env.word bound = .ok n)
      (below : i < n.toInt.toNat)
      (done : iterate (loopStep ((context ++ values).map (·.1.name)) index (fun e => body.eval e) env) i 0 init = .ok now) :
      Enters env (.loop context values index bound body) body
        ((env.bind index (.count i)).bindAll (((context ++ values).map (·.1.name)).zip now))
  | map {k : MapKernel} {thread : Env} (fed : k.Feeds (fun e => k.body.eval e) env thread) :
      Enters env (.launch (.map k)) k.body thread
  | scan {k : ScanKernel} {args : List Value} {thread : Env} (fed : k.Feeds (fun args => k.fold.eval env args) env args)
      (bound : env.bindParams k.fold.params args = .ok thread) :
      Enters env (.launch (.scan k)) k.fold.body thread
  | chunked {k : ChunkedKernel} {args : List Value} {thread : Env} (fed : k.Feeds (fun args => k.op.eval env args) env args)
      (bound : env.bindParams k.op.params args = .ok thread) :
      Enters env (.launch (.chunked k)) k.op.body thread
  | scatter {k : ScatterKernel} {args : List Value} {thread : Env} (fed : k.Feeds (fun args => k.op.eval env args) env args)
      (bound : env.bindParams k.op.params args = .ok thread) :
      Enters env (.launch (.scatter k)) k.op.body thread
  | groupThread {k : GroupKernel} {threads groupSize : Nat} {before after : List GroupStm} {pat : Pattern}
      {only : Option Operand} {body : Body} {now : List Env} {thread : Env}
      (counted : env.size k.size.threads = .ok threads) (sized : env.size k.size.groupSize = .ok groupSize)
      (split : k.body.stms = before ++ .thread pat only body :: after)
      (done : evalGroupStms (max groupSize 1) before
        ((List.range threads).map (GroupKernel.threadEnv k.space (max groupSize 1) env)) = .ok now)
      (fed : GroupKernel.ThreadFeeds pat only (fun e => body.eval e) (max groupSize 1) now thread) :
      Enters env (.launch (.group k)) body thread
  | groupReduce {k : GroupKernel} {threads groupSize : Nat} {before after : List GroupStm} {pat : Pattern}
      {width : Operand} {op : Lambda} {inputs : List (Operand × Name)} {now : List Env} {lane thread : Env}
      {args : List Value}
      (counted : env.size k.size.threads = .ok threads) (sized : env.size k.size.groupSize = .ok groupSize)
      (split : k.body.stms = before ++ .reduce pat width op inputs :: after)
      (done : evalGroupStms (max groupSize 1) before
        ((List.range threads).map (GroupKernel.threadEnv k.space (max groupSize 1) env)) = .ok now)
      (fed : GroupKernel.ReduceFeeds width inputs (fun e args => op.eval e args) (max groupSize 1) now lane args)
      (bound : lane.bindParams op.params args = .ok thread) :
      Enters env (.launch (.group k)) op.body thread

/-- `Executes env body now stm`: in the course of the evaluation of `body` in `env`, the statement `stm`
is evaluated in `now`. -/
inductive Executes : Env → Body → Env → Stm → Prop where
  | here {env now : Env} {before after : List Stm} {stm : Stm} {result : List Operand}
      (done : evalStms env before = .ok now) : Executes env ⟨before ++ stm :: after, result⟩ now stm
  | inside {env outer thread now : Env} {body inner : Body} {pat : Pattern} {certs : List Name} {exp : Exp} {stm : Stm}
      (executed : Executes env body outer ⟨pat, certs, exp⟩) (entered : Enters outer exp inner thread)
      (rest : Executes thread inner now stm) : Executes env body now stm

theorem evalStms_sole {env : Env} {b : Binder} {certs : List Name} {e : Exp} {x : Value} {stms : List Stm} (h : e.eval env = .ok [x]) :
    evalStms env (⟨⟨[], [b]⟩, certs, e⟩ :: stms) = evalStms (env.bind b.name x) stms := by
  rw [evalStms, h]
  rfl

theorem evalStms_append (env : Env) (before after : List Stm) :
    evalStms env (before ++ after) = (evalStms env before >>= fun env => evalStms env after) := by
  induction before generalizing env with
  | nil => rfl
  | cons stm before ih =>
    obtain ⟨pat, certs, exp⟩ := stm
    rw [List.cons_append, evalStms, evalStms]
    cases exp.eval env with
    | error e => rfl
    | ok values =>
      rw [ok_bind, ok_bind]
      cases env.bindValues pat values with
      | error e => rfl
      | ok next => exact ih next

theorem Body.eval_append (env : Env) (before after : List Stm) (result : List Operand) :
    (⟨before ++ after, result⟩ : Body).eval env = (evalStms env before >>= fun env => (⟨after, result⟩ : Body).eval env) := by
  simp only [Body.eval, evalStms_append]
  cases evalStms env before with
  | error e => rfl
  | ok next => rfl

/-- What is executed after a first statement is executed in the whole body. -/
theorem Executes.after_first {env next now : Env} {stm first : Stm} {stms : List Stm} {result : List Operand}
    (ran : evalStms env [first] = .ok next) (h : Executes next ⟨stms, result⟩ now stm) :
    Executes env ⟨first :: stms, result⟩ now stm := by
  generalize hb : (⟨stms, result⟩ : Body) = body at h
  induction h with
  | @here env now before after stm result' done =>
    cases hb
    rw [← List.cons_append]
    refine .here ?_
    rw [← List.singleton_append, evalStms_append, ran]
    exact done
  | inside executed entered rest ih _ => exact .inside (ih ran hb) entered rest

/-- Every statement that is evaluated in the course of the evaluation of a body is `fine` where it is. -/
def Throughout (fine : Env → Stm → Prop) (env : Env) (body : Body) : Prop :=
  ∀ now stm, Executes env body now stm → fine now stm

/-- The same for the bodies inside an expression. -/
def ThroughoutExp (fine : Env → Stm → Prop) (env : Env) (e : Exp) : Prop :=
  ∀ inner thread, Enters env e inner thread → Throughout fine thread inner

namespace Throughout

variable {fine : Env → Stm → Prop} {env : Env} {pat : Pattern} {certs : List Name} {exp : Exp} {stms : List Stm}
  {result : List Operand}

theorem first (h : Throughout fine env ⟨⟨pat, certs, exp⟩ :: stms, result⟩) : fine env ⟨pat, certs, exp⟩ :=
  h env _ (@Executes.here env env [] stms _ result rfl)

theorem inside (h : Throughout fine env ⟨⟨pat, certs, exp⟩ :: stms, result⟩) : ThroughoutExp fine env exp :=
  fun _ _ entered now stm executed => h now stm (.inside (@Executes.here env env [] stms _ result rfl) entered executed)

theorem rest {next : Env} (h : Throughout fine env ⟨⟨pat, certs, exp⟩ :: stms, result⟩)
    (ran : evalStms env [⟨pat, certs, exp⟩] = .ok next) : Throughout fine next ⟨stms, result⟩ :=
  fun now stm executed => h now stm (executed.after_first ran)

end Throughout

/-- In a call of the function, every statement that is evaluated is `fine` where it is. -/
def Program.ThroughoutCall (p : Program) (fine : Env → Stm → Prop) (name : String) (args : List Value) : Prop :=
  ∀ f, p.funs.find? (·.name == name) = some f → f.params.length = args.length →
    Throughout fine (Env.empty.bindAll ((f.params.map Binder.name).zip args)) f.body

/-- Every statement inside the statements of a group kernel is `fine` where it is evaluated. -/
def ThroughoutGroup (fine : Env → Stm → Prop) (groupSize : Nat) (stms : List GroupStm) (threads : List Env) : Prop :=
  ∀ before after now, evalGroupStms groupSize before threads = .ok now →
    (∀ pat only body thread, stms = before ++ .thread pat only body :: after →
      GroupKernel.ThreadFeeds pat only (fun e => body.eval e) groupSize now thread → Throughout fine thread body) ∧
    ∀ pat width op inputs lane args thread, stms = before ++ .reduce pat width op inputs :: after →
      GroupKernel.ReduceFeeds width inputs (fun e args => op.eval e args) groupSize now lane args →
      lane.bindParams op.params args = .ok thread → Throughout fine thread op.body

theorem ThroughoutExp.group {fine : Env → Stm → Prop} {env : Env} {k : GroupKernel} {threads groupSize : Nat}
    (h : ThroughoutExp fine env (.launch (.group k))) (counted : env.size k.size.threads = .ok threads)
    (sized : env.size k.size.groupSize = .ok groupSize) :
    ThroughoutGroup fine (max groupSize 1) k.body.stms
      ((List.range threads).map (GroupKernel.threadEnv k.space (max groupSize 1) env)) := by
  intro before after now done
  constructor
  · intro pat only body thread split fed
    exact h _ _ (.groupThread counted sized split done fed)
  · intro pat width op inputs lane args thread split fed bound
    exact h _ _ (.groupReduce counted sized split done fed bound)

theorem evalGroupStms_cons (groupSize : Nat) (stm : GroupStm) (stms : List GroupStm) (threads : List Env) :
    evalGroupStms groupSize (stm :: stms) threads =
      (evalGroupStms groupSize [stm] threads >>= evalGroupStms groupSize stms) := by
  cases stm with
  | split size chunks division width perThread arrays =>
    rw [evalGroupStms, evalGroupStms, bind_assoc]
    rfl
  | thread pat only body =>
    rw [evalGroupStms, evalGroupStms, bind_assoc]
    rfl
  | reduce pat width op inputs =>
    rw [evalGroupStms, evalGroupStms, bind_assoc]
    rfl

theorem ThroughoutGroup.rest {fine : Env → Stm → Prop} {groupSize : Nat} {stm : GroupStm} {stms : List GroupStm}
    {threads next : List Env} (h : ThroughoutGroup fine groupSize (stm :: stms) threads)
    (ran : evalGroupStms groupSize [stm] threads = .ok next) : ThroughoutGroup fine groupSize stms next := by
  intro before after now done
  have whole : evalGroupStms groupSize (stm :: before) threads = .ok now := by
    rw [evalGroupStms_cons, ran]
    exact done
  obtain ⟨ofThread, ofReduce⟩ := h (stm :: before) after now whole
  constructor
  · intro pat only body thread split fed
    exact ofThread pat only body thread (by rw [split, List.cons_append]) fed
  · intro pat width op inputs lane args thread split fed bound
    exact ofReduce pat width op inputs lane args thread (by rw [split, List.cons_append]) fed bound

/-! What holds of all statements in the text of a body holds of those that are evaluated -/

mutual

def Exp.everywhere (p : Stm → Bool) : Exp → Bool
  | .branch _ onTrue onFalse _ => onTrue.everywhere p && onFalse.everywhere p
  | .loop _ _ _ _ body => body.everywhere p
  | .launch kernel => kernel.everywhere p
  | _ => true

def everywhereIn (p : Stm → Bool) : List Stm → Bool
  | [] => true
  | ⟨pat, certs, exp⟩ :: stms => p ⟨pat, certs, exp⟩ && exp.everywhere p && everywhereIn p stms

/-- The test holds of every statement of the body and of the bodies inside. -/
def Body.everywhere (p : Stm → Bool) : Body → Bool
  | ⟨stms, _⟩ => everywhereIn p stms

def Lambda.everywhere (p : Stm → Bool) : Lambda → Bool
  | ⟨_, body, _⟩ => body.everywhere p

def Kernel.everywhere (p : Stm → Bool) : Kernel → Bool
  | .map ⟨_, _, _, _, _, _, body⟩ => body.everywhere p
  | .scan ⟨_, _, _, _, fold, _, _⟩ => fold.everywhere p
  | .chunked ⟨_, _, _, _, op, _⟩ => op.everywhere p
  | .scatter ⟨_, _, op, _, _⟩ => op.everywhere p
  | .group ⟨_, _, _, _, ⟨stms, _⟩⟩ => everywhereInGroup p stms
  | .numGroups => true
  | .groupSize => true

def GroupStm.everywhere (p : Stm → Bool) : GroupStm → Bool
  | .split .. => true
  | .thread _ _ body => body.everywhere p
  | .reduce _ _ op _ => op.everywhere p

def everywhereInGroup (p : Stm → Bool) : List GroupStm → Bool
  | [] => true
  | stm :: stms => stm.everywhere p && everywhereInGroup p stms

end

theorem everywhereIn_append {p : Stm → Bool} {before after : List Stm} :
    everywhereIn p (before ++ after) = (everywhereIn p before && everywhereIn p after) := by
  induction before with
  | nil => rfl
  | cons stm before ih =>
    obtain ⟨pat, certs, exp⟩ := stm
    simp only [List.cons_append, everywhereIn, ih, Bool.and_assoc]

theorem everywhereInGroup_mem {p : Stm → Bool} {stms : List GroupStm} {stm : GroupStm} (h : everywhereInGroup p stms = true)
    (mem : stm ∈ stms) : stm.everywhere p = true := by
  induction stms with
  | nil => cases mem
  | cons first stms ih =>
    rw [everywhereInGroup, Bool.and_eq_true] at h
    obtain rfl | later := List.mem_cons.mp mem
    · exact h.1
    · exact ih h.2 later

theorem Enters.everywhere {p : Stm → Bool} {env thread : Env} {e : Exp} {inner : Body} (h : Enters env e inner thread)
    (all : e.everywhere p = true) : inner.everywhere p = true := by
  cases h with
  | onTrue chosen => exact (Bool.and_eq_true _ _ ▸ all).1
  | onFalse chosen => exact (Bool.and_eq_true _ _ ▸ all).2
  | round started counted below done => exact all
  | @map k =>
    obtain ⟨certs, width, thread, space, inputs, returns, body⟩ := k
    exact all
  | @scan k =>
    obtain ⟨certs, width, size, combine, ⟨params, body, ret⟩, neutral, arrays⟩ := k
    exact all
  | @chunked k =>
    obtain ⟨certs, width, size, division, ⟨params, body, ret⟩, arrays⟩ := k
    exact all
  | @scatter k =>
    obtain ⟨certs, width, ⟨params, body, ret⟩, arrays, dests⟩ := k
    exact all
  | @groupThread k _ _ _ _ _ _ _ _ _ _ _ split =>
    obtain ⟨certs, size, space, returns, stms, result⟩ := k
    exact everywhereInGroup_mem all (split ▸ List.mem_append_right _ List.mem_cons_self)
  | @groupReduce k _ _ _ _ _ _ op _ _ _ _ _ _ _ split =>
    obtain ⟨certs, size, space, returns, stms, result⟩ := k
    obtain ⟨params, body, ret⟩ := op
    have here := everywhereInGroup_mem all (split ▸ List.mem_append_right _ List.mem_cons_self)
    exact here

theorem Executes.everywhere {p : Stm → Bool} {env now : Env} {body : Body} {stm : Stm} (h : Executes env body now stm)
    (all : body.everywhere p = true) : p stm = true ∧ stm.exp.everywhere p = true := by
  induction h with
  | @here env now before after stm result done =>
    obtain ⟨pat, certs, exp⟩ := stm
    rw [Body.everywhere, everywhereIn_append, everywhereIn, Bool.and_eq_true, Bool.and_eq_true, Bool.and_eq_true] at all
    exact all.2.1
  | inside executed entered rest ih ih' => exact ih' (entered.everywhere (ih all).2)

theorem Throughout.of_everywhere {fine : Env → Stm → Prop} {p : Stm → Bool} (sound : ∀ env stm, p stm = true → fine env stm)
    {body : Body} (all : body.everywhere p = true) (env : Env) : Throughout fine env body :=
  fun now stm executed => sound now stm (executed.everywhere all).1

end ArrayKernels
