import ArrayKernels.Pipeline
import ArrayKernels.Proofs.ExpandAgain

/-! When expansion fails. Each of the passes over a program fails for the causes that are found in the part it goes through, and for no
other: for the number of threads of a kernel, for an allocation that may not stay in the code of a thread, and for memory in such code
that cannot be told before it runs. Only code that has a thread is searched, and only the code of the kernel itself. -/
namespace ArrayKernels

/-! Failures of passes -/

/-- Fails just if there is a cause, and then for one of the causes. -/
def FailsFor {ε α : Type} (causes : ε → Prop) : Except ε α → Prop
  | .error e => causes e
  | .ok _ => ∀ e, ¬ causes e

namespace FailsFor

variable {ε σ α β : Type} {causes more : ε → Prop} {m : Except ε α}

theorem cause {e : ε} (h : FailsFor causes m) (failed : m = .error e) : causes e := by
  cases failed
  exact h

theorem fails_iff (h : FailsFor causes m) : (∃ e, m = .error e) ↔ ∃ e, causes e := by
  cases m with
  | error e => exact ⟨fun _ => ⟨e, h⟩, fun _ => ⟨e, rfl⟩⟩
  | ok a =>
    constructor
    · rintro ⟨e, failed⟩
      cases failed
    · rintro ⟨e, cause⟩
      exact absurd cause (h e)

theorem congr (h : FailsFor causes m) (same : ∀ e, causes e ↔ more e) : FailsFor more m := by
  cases m with
  | error e => exact (same e).mp h
  | ok a => exact fun e cause => h e ((same e).mpr cause)

theorem bind {f : α → Except ε β} (first : FailsFor causes m) (second : ∀ a, FailsFor more (f a)) :
    FailsFor (fun e => causes e ∨ more e) (m >>= f) := by
  cases m with
  | error e => exact .inl first
  | ok a =>
    have second := second a
    change FailsFor _ (f a)
    cases ended : f a with
    | error e => exact .inr (second.cause ended)
    | ok b =>
      rw [ended] at second
      exact fun e cause => cause.elim (first e) (second e)

theorem bind_ok {f : α → Except ε β} (h : FailsFor causes m) (ends : ∀ a, ∃ b, f a = .ok b) : FailsFor causes (m >>= f) := by
  have second (a : α) : FailsFor (fun _ => False) (f a) := by
    obtain ⟨b, ended⟩ := ends a
    rw [ended]
    exact fun _ => id
  exact (h.bind second).congr fun e => iff_of_eq (or_false _)

section
variable {x : StateT σ (Except ε) α} {f : α → StateT σ (Except ε) β} {s : σ} (h : FailsFor causes (x s))
include h

theorem pass (rest : ∀ a t, FailsFor more (f a t)) : FailsFor (fun e => causes e ∨ more e) ((x >>= f) s) :=
  h.bind fun p => rest p.1 p.2

theorem pass_ok (ends : ∀ a t, ∃ r, f a t = .ok r) : FailsFor causes ((x >>= f) s) := h.bind_ok fun p => ends p.1 p.2

end

end FailsFor

/-! Patterns in the code of a thread -/

mutual

def Exp.patterns : Exp → List Pattern
  | .branch _ onTrue onFalse _ => onTrue.patterns ++ onFalse.patterns
  | .loop _ _ _ _ body => body.patterns
  | _ => []

def patternsIn : List Stm → List Pattern
  | [] => []
  | ⟨pat, _, exp⟩ :: stms => pat :: exp.patterns ++ patternsIn stms

def Body.patterns : Body → List Pattern
  | ⟨stms, _⟩ => patternsIn stms

end

def GroupStm.patterns : GroupStm → List Pattern
  | .split .. => []
  | .thread pat _ body => pat :: body.patterns
  | .reduce pat _ op _ => pat :: op.body.patterns

mutual

theorem Exp.existentials_eq : ∀ e : Exp, e.existentials = e.patterns.flatMap Pattern.existentials
  | .operand _ | .binary .. | .compare .. | .index .. | .update .. | .iota .. | .replicate .. | .reshape ..
  | .rearrange .. | .copy _ | .alloc .. | .launch _ => rfl
  | .branch _ onTrue onFalse _ => by
    rw [Exp.existentials, Exp.patterns, List.flatMap_append, onTrue.existentials_eq, onFalse.existentials_eq]
  | .loop _ _ _ _ body => body.existentials_eq

theorem existentialsIn_eq : ∀ stms : List Stm, existentialsIn stms = (patternsIn stms).flatMap Pattern.existentials
  | [] => rfl
  | ⟨pat, _, exp⟩ :: stms => by
    rw [existentialsIn, patternsIn, List.flatMap_append, List.flatMap_cons, exp.existentials_eq, existentialsIn_eq stms]

theorem Body.existentials_eq : ∀ body : Body, body.existentials = body.patterns.flatMap Pattern.existentials
  | ⟨stms, _⟩ => existentialsIn_eq stms

end

theorem GroupStm.existentials_eq (stm : GroupStm) : stm.existentials = stm.patterns.flatMap Pattern.existentials := by
  cases stm with
  | split => rfl
  | thread pat only body => rw [existentials, patterns, List.flatMap_cons, body.existentials_eq]
  | reduce pat width op inputs => rw [existentials, patterns, List.flatMap_cons, op.body.existentials_eq]

/-! Code that is refused -/

/-- The code of a thread with the patterns of its statements. -/
structure ThreadUnit where
  code : ThreadCode
  patterns : List Pattern

def MapKernel.threadUnit (k : MapKernel) : ThreadUnit := ⟨k.threadCode, k.body.patterns⟩

def GroupKernel.threadUnit (k : GroupKernel) : ThreadUnit := ⟨k.threadCode, k.body.stms.flatMap GroupStm.patterns⟩

/-- An operator without parameters has no thread. -/
def Lambda.threadUnits (threads : Operand) (op : Lambda) : List ThreadUnit :=
  (op.threadCodes threads).map (⟨·, op.body.patterns⟩)

def Kernel.threadUnits : Kernel → List ThreadUnit
  | .map k => [k.threadUnit]
  | .chunked k => k.op.threadUnits k.size.threads
  | .scan k => k.combine.threadUnits k.size.threads ++ k.fold.threadUnits k.size.threads
  | .group k => [k.threadUnit]
  | _ => []

/-- Why the code of a thread cannot be expanded. -/
inductive ThreadUnit.Refused (options : ExpandOptions) (label : String) (u : ThreadUnit) : ExpandCause → Prop where
  /-- The number of threads is a constant, but no integer. -/
  | threadCount {c : Scalar} (threads : u.code.threads = .const c) (other : c.asWord = none) :
      Refused options label u (.threadCount (.const c))
  /-- Nothing may stay, and the size of a block is bound in the code. -/
  | variantSize {a : AllocSite} {v : Name} (strict : options.strict = true) (site : a ∈ u.code.allocs) (size : a.size = .var v)
      (inside : v ∈ u.code.inside) : Refused options label u (.variantSize label ⟨v, a.block⟩)
  /-- A block is lifted, its size not being bound in the code, and a pattern has memory in its context. -/
  | existential {a : AllocSite} {pat : Pattern} {b : Binder} (site : a ∈ u.code.allocs) (outside : ∀ v ∈ u.code.inside, a.size ≠ .var v)
      (pattern : pat ∈ u.patterns) (context : b ∈ pat.context) (memory : b.ty.isMem = true) : Refused options label u (.existential b.name)

/-- Some code of the kernel is refused. -/
def Kernel.Refused (options : ExpandOptions) (k : Kernel) (cause : ExpandCause) : Prop := ∃ u ∈ k.threadUnits, u.Refused options k.label cause

def RefusedIn (options : ExpandOptions) (ks : List Kernel) (cause : ExpandCause) : Prop := ∃ k ∈ ks, k.Refused options cause

theorem refusedIn_append {options : ExpandOptions} {ks more : List Kernel} {cause : ExpandCause} :
    RefusedIn options (ks ++ more) cause ↔ RefusedIn options ks cause ∨ RefusedIn options more cause := by
  simp only [RefusedIn, List.mem_append, or_and_right, exists_or]

theorem not_refusedIn_nil {options : ExpandOptions} (cause : ExpandCause) : ¬ RefusedIn options [] cause := by
  rintro ⟨k, mem, _⟩
  cases mem

/-! Failures of one kernel -/

section
variable {options : ExpandOptions} {label : String}

theorem threadPlace_failsFor (thread : Name) (threads : Operand) (s : ExpandState) :
    FailsFor (fun cause => ∃ c, threads = .const c ∧ c.asWord = none ∧ cause = .threadCount (.const c))
      ((liftM (threadPlace thread threads) : Expand ThreadPlace) s) := by
  change FailsFor _ ((threadPlace thread threads).map (·, s))
  rw [threadPlace]
  cases threads with
  | var v =>
    rintro cause ⟨c, same, _⟩
    cases same
  | const c =>
    rw [IndexExpr.ofOperand]
    cases word : c.asWord with
    | none => exact ⟨c, rfl, word, rfl⟩
    | some n =>
      rintro cause ⟨d, same, other, _⟩
      cases same
      rw [word] at other
      cases other

theorem reportVariant_failsFor (found : List Diagnostic) (s : ExpandState) :
    FailsFor (fun cause => options.strict = true ∧ ∃ d ∈ found, cause = .variantSize label d) (reportVariant options label found s) := by
  unfold reportVariant
  cases found with
  | nil => simp [FailsFor]
  | cons d found => cases options.strict <;> simp [FailsFor]

theorem mem_variantSites {inside : List Name} {sites : List AllocSite} {d : Diagnostic} :
    d ∈ variantSites inside sites ↔ ∃ a ∈ sites, ∃ v ∈ inside, a.size = .var v ∧ d = ⟨v, a.block⟩ := by
  simp only [variantSites, List.mem_filterMap, Option.map_eq_some_iff, AllocSite.variantSize_eq_some]
  constructor
  · rintro ⟨a, site, v, ⟨inside, size⟩, rfl⟩
    exact ⟨a, site, v, inside, size, rfl⟩
  · rintro ⟨a, site, v, inside, size, rfl⟩
    exact ⟨a, site, v, ⟨inside, size⟩, rfl⟩

theorem AllocSite.isVariant_eq_false {inside : List Name} {a : AllocSite} :
    a.isVariant inside = false ↔ ∀ v ∈ inside, a.size ≠ .var v := by
  simp only [← Bool.not_eq_true, isVariant_iff, not_exists, not_and, ne_eq]

theorem Pattern.mem_existentials {pat : Pattern} {v : Name} :
    v ∈ pat.existentials ↔ ∃ b ∈ pat.context, b.ty.isMem = true ∧ b.name = v := by
  simp only [existentials, List.mem_map, List.mem_filter, and_assoc]

/-- What lifting stops at, in the order in which it is found. Memory that cannot be told is in the way only of code out of which something
is lifted. -/
def LiftCause (options : ExpandOptions) (label : String) (threads : Operand) (inside : List Name) (sites : List AllocSite)
    (existentials : List Name) (cause : ExpandCause) : Prop :=
  (∃ c, threads = .const c ∧ c.asWord = none ∧ cause = .threadCount (.const c)) ∨
    (options.strict = true ∧ ∃ d ∈ variantSites inside sites, cause = .variantSize label d) ∨
    ((∃ a, a ∈ liftedSites inside sites) ∧ ∃ b ∈ existentials, cause = .existential b)

theorem liftSites_failsFor (thread : Name) (threads : Operand) (inside : List Name) (sites : List AllocSite) (existentials : List Name)
    (s : ExpandState) :
    FailsFor (LiftCause options label threads inside sites existentials)
      (liftSites options label thread threads inside sites existentials s) := by
  refine (threadPlace_failsFor thread threads s).pass fun place t => (reportVariant_failsFor _ t).pass fun _ t => ?_
  -- names can always be drawn, so that what is left depends on the lifted blocks alone
  generalize liftedSites inside sites = lifted
  cases lifted with
  | nil =>
    rintro cause ⟨⟨a, mem⟩, _⟩
    cases mem
  | cons a lifted =>
    cases existentials with
    | nil =>
      rintro cause ⟨_, b, mem, _⟩
      cases mem
    | cons b existentials => exact ⟨⟨a, .head _⟩, b, .head _, rfl⟩

theorem ThreadUnit.refused_iff {u : ThreadUnit} {cause : ExpandCause} : u.Refused options label cause ↔
    LiftCause options label u.code.threads u.code.inside u.code.allocs (u.patterns.flatMap Pattern.existentials) cause := by
  constructor
  · rintro (⟨threads, other⟩ | ⟨strict, site, size, inside⟩ | ⟨site, outside, pattern, context, memory⟩)
    · exact .inl ⟨_, threads, other, rfl⟩
    · exact .inr (.inl ⟨strict, _, mem_variantSites.mpr ⟨_, site, _, inside, size, rfl⟩, rfl⟩)
    · refine .inr (.inr ⟨⟨_, mem_liftedSites.mpr ⟨site, AllocSite.isVariant_eq_false.mpr outside⟩⟩, _, List.mem_flatMap.mpr ⟨_, pattern, ?_⟩, rfl⟩)
      exact Pattern.mem_existentials.mpr ⟨_, context, memory, rfl⟩
  · rintro (⟨c, threads, other, rfl⟩ | ⟨strict, d, found, rfl⟩ | ⟨⟨a, lifted⟩, b, found, rfl⟩)
    · exact .threadCount threads other
    · obtain ⟨a, site, v, inside, size, rfl⟩ := mem_variantSites.mp found
      exact .variantSize strict site size inside
    · obtain ⟨site, outside⟩ := mem_liftedSites.mp lifted
      obtain ⟨pat, pattern, found⟩ := List.mem_flatMap.mp found
      obtain ⟨b, context, memory, rfl⟩ := Pattern.mem_existentials.mp found
      exact .existential site (AllocSite.isVariant_eq_false.mp outside) pattern context memory

theorem ThreadUnit.lift_failsFor (options : ExpandOptions) (label : String) (u : ThreadUnit) {sites : List AllocSite}
    {existentials : List Name} (allocs : u.code.allocs = sites) (patterns : existentials = u.patterns.flatMap Pattern.existentials)
    (s : ExpandState) :
    FailsFor (u.Refused options label) (liftSites options label u.code.thread u.code.threads u.code.inside sites existentials s) := by
  rw [← allocs, patterns]
  exact (liftSites_failsFor u.code.thread u.code.threads u.code.inside u.code.allocs _ s).congr fun _ => refused_iff.symm

end

section
variable {options : ExpandOptions}

theorem Lambda.expand_failsFor (op : Lambda) (label : String) (threads : Operand) (s : ExpandState) :
    FailsFor (fun cause => ∃ u ∈ op.threadUnits threads, u.Refused options label cause) (op.expand options label threads s) := by
  obtain ⟨params, body, ret⟩ := op
  cases params with
  | nil =>
    rintro cause ⟨u, mem, _⟩
    cases mem
  | cons thread params =>
    let op : Lambda := ⟨thread :: params, body, ret⟩
    let u : ThreadUnit := ⟨op.threadCode threads thread.name, body.patterns⟩
    have lifts := u.lift_failsFor options label (op.allocs_threadCode threads thread.name) body.existentials_eq s
    refine (lifts.pass_ok fun _ _ => ⟨_, rfl⟩).congr fun cause => ?_
    simp only [threadUnits, threadCodes, List.map_singleton, List.mem_singleton, exists_eq_left]
    rfl

theorem Kernel.expand_failsFor (k : Kernel) (s : ExpandState) : FailsFor (k.Refused options) (k.expand options s) := by
  cases k with
  | map k =>
    have lifts := k.threadUnit.lift_failsFor options (Kernel.map k).label k.allocs_threadCode k.body.existentials_eq s
    refine (lifts.pass_ok fun _ _ => ⟨_, rfl⟩).congr fun cause => ?_
    simp only [Refused, threadUnits, List.mem_singleton, exists_eq_left]
  | group k =>
    have patterns : k.body.stms.flatMap GroupStm.existentials = k.threadUnit.patterns.flatMap Pattern.existentials := by
      rw [GroupKernel.threadUnit, List.flatMap_assoc]
      exact congrArg (List.flatMap · k.body.stms) (funext GroupStm.existentials_eq)
    have lifts := k.threadUnit.lift_failsFor options (Kernel.group k).label k.allocs_threadCode patterns s
    refine (lifts.pass_ok fun _ _ => ⟨_, rfl⟩).congr fun cause => ?_
    simp only [Refused, threadUnits, List.mem_singleton, exists_eq_left]
  | chunked k => exact (k.op.expand_failsFor (Kernel.chunked k).label k.size.threads s).pass_ok fun _ _ => ⟨_, rfl⟩
  | scan k =>
    refine ((k.combine.expand_failsFor (Kernel.scan k).label k.size.threads s).pass fun _ t =>
      (k.fold.expand_failsFor (Kernel.scan k).label k.size.threads t).pass_ok fun _ _ => ⟨_, rfl⟩).congr fun cause => ?_
    simp only [Refused, threadUnits, List.mem_append, or_and_right, exists_or]
  | scatter k | numGroups | groupSize =>
    rintro cause ⟨u, mem, _⟩
    cases mem

/-! Failures of programs -/

mutual

theorem Exp.expandHost_failsFor : ∀ (e : Exp) (s : ExpandState), FailsFor (RefusedIn options e.launches) (e.expandHost options s)
  | .branch cond onTrue onFalse ret, s => by
    rw [Exp.launches_branch]
    refine ((onTrue.expandHost_failsFor s).pass fun _ t => ?_).congr fun _ => refusedIn_append.symm
    exact (onFalse.expandHost_failsFor t).pass_ok fun _ _ => ⟨_, rfl⟩
  | .loop context values index bound body, s => by
    rw [Exp.launches_loop]
    exact (body.expandHost_failsFor s).pass_ok fun _ _ => ⟨_, rfl⟩
  | .launch k, s => by
    refine ((k.expand_failsFor s).pass_ok fun _ _ => ⟨_, rfl⟩).congr fun cause => ?_
    change _ ↔ ∃ k' ∈ [k], k'.Refused options cause
    simp only [List.mem_singleton, exists_eq_left]
  | .operand _, s | .binary .., s | .compare .., s | .index .., s | .update .., s | .iota .., s | .replicate .., s
  | .reshape .., s | .rearrange .., s | .copy _, s | .alloc .., s => by
    rw [Exp.launches_leaf rfl]
    exact not_refusedIn_nil

theorem expandHostStms_failsFor : ∀ (stms : List Stm) (s : ExpandState),
    FailsFor (RefusedIn options (launchesIn stms)) (expandHostStms options stms s)
  | [], s => not_refusedIn_nil
  | ⟨pat, certs, e⟩ :: stms, s => by
    rw [launchesIn_cons]
    refine ((e.expandHost_failsFor s).pass fun _ t => ?_).congr fun _ => refusedIn_append.symm
    exact (expandHostStms_failsFor stms t).pass_ok fun _ _ => ⟨_, rfl⟩

theorem Body.expandHost_failsFor : ∀ (body : Body) (s : ExpandState), FailsFor (RefusedIn options body.launches) (body.expandHost options s)
  | ⟨stms, _⟩, s => (expandHostStms_failsFor stms s).pass_ok fun _ _ => ⟨_, rfl⟩

end

/-- The error is one of the function that it names. -/
theorem expandFuns_failsFor (funs : List FunDecl) (s : ExpandState) :
    FailsFor (fun e => ∃ f ∈ funs, e.function = f.name ∧ RefusedIn options f.body.launches e.cause) (expandFuns options funs s) := by
  induction funs generalizing s with
  | nil =>
    rintro e ⟨f, mem, _⟩
    cases mem
  | cons f funs ih =>
    have here : FailsFor (RefusedIn options f.body.launches) (f.body.expandHost options s) := f.body.expandHost_failsFor s
    rw [expandFuns]
    cases expanded : f.body.expandHost options s with
    | error cause => exact ⟨f, .head _, rfl, here.cause expanded⟩
    | ok r =>
      rw [expanded] at here
      refine ((ih r.2).bind_ok fun _ => ⟨_, rfl⟩).congr fun e => ?_
      constructor
      · rintro ⟨g, mem, refused⟩
        exact ⟨g, .tail f mem, refused⟩
      · rintro ⟨g, mem, named, refused⟩
        rcases List.mem_cons.mp mem with rfl | mem
        · exact absurd refused (here e.cause)
        · exact ⟨g, mem, named, refused⟩

end

theorem Program.expand_failsFor (options : ExpandOptions) (p : Program) (names : NameSupply) :
    FailsFor (fun e => ∃ f ∈ p.funs, e.function = f.name ∧ RefusedIn options f.body.launches e.cause) (p.expand options names) :=
  (expandFuns_failsFor p.funs ⟨names, []⟩).bind_ok fun _ => ⟨_, rfl⟩

theorem Compilation.expand_eq_error {options : ExpandOptions} {c : Compilation} {failure : Failure} :
    c.expand options = .error failure ↔ ∃ e, c.program.expand options c.names = .error e ∧ failure = .expand e := by
  rw [Compilation.expand]
  cases c.program.expand options c.names with
  | ok e => simp
  | error e => simp [eq_comm]

/-- Expansion fails just if a kernel of host code has code that is refused. The failure then is one of expansion, and names a function
with such a kernel and the cause. -/
theorem Compilation.expand_fails_iff (options : ExpandOptions) (c : Compilation) :
    ((∃ failure, c.expand options = .error failure) ↔
      ∃ f ∈ c.program.funs, ∃ k ∈ f.body.launches, ∃ u ∈ k.threadUnits, ∃ cause, u.Refused options k.label cause) ∧
    ∀ failure, c.expand options = .error failure → failure.stage = .expand ∧
      ∃ f ∈ c.program.funs, ∃ k ∈ f.body.launches, ∃ u ∈ k.threadUnits, ∃ cause, u.Refused options k.label cause ∧
        failure.detail = "in function " ++ f.name ++ ": " ++ cause.text := by
  have fails := c.program.expand_failsFor options c.names
  constructor
  · constructor
    · rintro ⟨failure, failed⟩
      obtain ⟨e, stopped, _⟩ := expand_eq_error.mp failed
      obtain ⟨f, mem, _, k, launched, u, unit, refused⟩ := fails.cause stopped
      exact ⟨f, mem, k, launched, u, unit, e.cause, refused⟩
    · rintro ⟨f, mem, k, launched, u, unit, cause, refused⟩
      obtain ⟨e, failed⟩ := fails.fails_iff.mpr ⟨⟨f.name, cause⟩, f, mem, rfl, k, launched, u, unit, refused⟩
      exact ⟨.expand e, expand_eq_error.mpr ⟨e, failed, rfl⟩⟩
  · intro failure failed
    obtain ⟨e, stopped, rfl⟩ := expand_eq_error.mp failed
    obtain ⟨f, mem, named, k, launched, u, unit, refused⟩ := fails.cause stopped
    refine ⟨rfl, f, mem, k, launched, u, unit, e.cause, refused, ?_⟩
    rw [← named]
    rfl

/-- A loop of host code that launches threads with a block of their own. A branch in each thread decides what block it gives. -/
def choosesBlock : Program :=
  let word (n : Int64) : Operand := .const (.i64 n)
  let block : Name := ⟨"block", 5⟩
  let chosen : Binder := ⟨⟨"chosen", 6⟩, .mem (word 16) .default, none⟩
  let x : Binder := ⟨⟨"x", 7⟩, .scalar .i64, none⟩
  let side (n : Int64) : Body := ⟨[], [.var block, word n]⟩
  let body : Body :=
    ⟨[⟨.single block (.mem (word 16) .default), [], .alloc (word 16) .default⟩,
      ⟨⟨[chosen], [x]⟩, [], .branch (.const (.bool true)) (side 1) (side 2) [.mem (word 16) .default, .scalar .i64]⟩], [.var x.name]⟩
  let kernel : MapKernel := ⟨[], word 2, ⟨"t", 3⟩, [(⟨"i", 4⟩, word 2)], [], [(.scalar .i64, [0])], body⟩
  let pair : Ty := .array .i64 [word 2] false
  let ys : Name := ⟨"ys", 2⟩
  let loop : Exp := .loop [] [(⟨⟨"acc", 0⟩, .scalar .i64, none⟩, word 0)] ⟨"n", 1⟩ (word 3)
    ⟨[⟨.single ys pair, [], .launch (.map kernel)⟩], [word 0]⟩
  ⟨[⟨"main", [], [.scalar .i64], ⟨[⟨.single ⟨"r", 8⟩ (.scalar .i64), [], loop⟩], [.var ⟨"r", 8⟩]⟩⟩]⟩

theorem choosesBlock_expand_fails : ∃ failure, (Compilation.mk choosesBlock ⟨9⟩).expand {} = .error failure ∧ failure.stage = .expand ∧
    ∃ cause, failure.detail = "in function main: " ++ ExpandCause.text cause := by
  obtain ⟨fails, names⟩ := Compilation.expand_fails_iff {} ⟨choosesBlock, ⟨9⟩⟩
  obtain ⟨failure, failed⟩ := fails.mpr ⟨_, .head _, _, .head _, _, .head _, _,
    .existential (.head _) (fun v _ => Operand.noConfusion) (.tail _ (.head _)) (.head _) rfl⟩
  obtain ⟨stage, f, mem, _, _, _, _, cause, _, detail⟩ := names failure failed
  obtain rfl := List.mem_singleton.mp mem
  exact ⟨failure, failed, stage, cause, detail⟩

/-- A scan that joins results by an operator without parameters. The operator computes the size of a block. -/
def measuresThreadless : ScanKernel :=
  let size : Name := ⟨"size", 6⟩
  { threadlessScan with combine := ⟨[],
    ⟨[.ofWord size (.binary .add (.const (.i64 8)) (.const (.i64 8))),
      ⟨.single ⟨"block", 5⟩ (.mem (.var size) .default), [], .alloc (.var size) .default⟩], [.const (.i64 0)]⟩, [.scalar .i64]⟩ }

/-- Nothing may stay in kernels, and a block whose size is bound in an operator stays there. -/
theorem measuresThreadless_expands :
    let pair : Ty := .array .i64 [.const (.i64 2)] false
    let ys : Name := ⟨"ys", 4⟩
    let p : Program := ⟨[⟨"main", [⟨⟨"xs", 0⟩, pair, none⟩], [pair],
      ⟨[⟨.single ys pair, [], .launch (.scan measuresThreadless)⟩], [.var ys]⟩⟩]⟩
    (∃ e, (Compilation.mk p ⟨7⟩).expand ⟨true⟩ = .ok e) ∧
      ∃ a ∈ measuresThreadless.combine.body.allocSites, ∃ v ∈ measuresThreadless.combine.body.bound, a.size = .var v :=
  ⟨⟨_, rfl⟩, _, .head _, _, .head _, rfl⟩

end ArrayKernels
