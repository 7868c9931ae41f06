import ArrayKernels.Proofs.ExpandScoping

/-! Expansion seen from the code of one thread.

The code of a thread is what a kernel runs once for each thread: the body of a map kernel with its
inputs, the operator of a chunked kernel, each of the two operators of a scan, and all statements of a
group kernel. What it binds and launches is listed in program order, through branches and loops; a
kernel launched in it is one entry of the list. Expansion leaves out of the list the blocks it lifts,
rebases each binder that stays, and does nothing else. -/
namespace ArrayKernels

/-- What the code of a thread binds or launches at one place. -/
inductive CodeSite where
  /-- A parameter, or an element of a pattern. -/
  | binder (b : Binder)
  /-- The block of a statement that allocates it and binds nothing else. -/
  | block (a : AllocSite)
  | launch (k : Kernel)

namespace CodeSite

def alloc? : CodeSite → Option AllocSite
  | block a => some a
  | _ => none

def launch? : CodeSite → Option Kernel
  | launch k => some k
  | _ => none

/-- The binder changes, and a launched kernel stays. -/
def map (f : Binder → Binder) : CodeSite → CodeSite
  | binder b => binder (f b)
  | block a => block { a with block := f a.block }
  | launch k => launch k

/-- Only blocks whose size is not bound inside are lifted. -/
def stays (inside : List Name) : CodeSite → Bool
  | block a => a.isVariant inside
  | _ => true

end CodeSite

def binderSites (bs : List Binder) : List CodeSite := bs.map .binder

/-- What a statement with the given pattern and expression binds itself. -/
def boundSites (pat : Pattern) (e : Exp) : List CodeSite :=
  match allocSite pat e with
  | some a => [.block a]
  | none => binderSites pat.binders

mutual

def Exp.sites : Exp → List CodeSite
  | .branch _ onTrue onFalse _ => onTrue.sites ++ onFalse.sites
  | .loop context values _ _ body => binderSites ((context ++ values).map Prod.fst) ++ body.sites
  | .launch k => [.launch k]
  | _ => []

def sitesIn : List Stm → List CodeSite
  | [] => []
  | ⟨pat, _, exp⟩ :: stms => boundSites pat exp ++ exp.sites ++ sitesIn stms

def Body.sites : Body → List CodeSite
  | ⟨stms, _⟩ => sitesIn stms

end

def GroupStm.sites : GroupStm → List CodeSite
  | .split size chunks _ _ _ _ => binderSites (size :: chunks)
  | .thread pat _ body => binderSites pat.binders ++ body.sites
  | .reduce pat _ op _ => binderSites (pat.binders ++ op.params) ++ op.body.sites

/-- The code that each of a number of threads runs. `inside` are the names that it binds, and `thread`
is the one that stands for the thread. -/
structure ThreadCode where
  thread : Name
  threads : Operand
  inside : List Name
  sites : List CodeSite

def MapKernel.threadCode (k : MapKernel) : ThreadCode :=
  ⟨k.thread, k.width, k.body.bound ++ k.threadNames, binderSites (k.inputs.map MapInput.param) ++ k.body.sites⟩

def GroupKernel.threadCode (k : GroupKernel) : ThreadCode :=
  ⟨k.space.thread, k.size.threads, k.body.bound ++ k.space.names, k.body.stms.flatMap GroupStm.sites⟩

def Lambda.threadCode (threads : Operand) (thread : Name) (op : Lambda) : ThreadCode :=
  ⟨thread, threads, op.innerNames, binderSites op.params ++ op.body.sites⟩

/-- The first parameter of an operator is the thread. An operator without parameters has none. -/
def Lambda.threadCodes (threads : Operand) (op : Lambda) : List ThreadCode :=
  match op.params with
  | [] => []
  | thread :: _ => [op.threadCode threads thread.name]

def Kernel.threadCodes : Kernel → List ThreadCode
  | .map k => [k.threadCode]
  | .chunked k => k.op.threadCodes k.size.threads
  | .scan k => k.combine.threadCodes k.size.threads ++ k.fold.threadCodes k.size.threads
  | .group k => [k.threadCode]
  | _ => []

namespace ThreadCode

def allocs (c : ThreadCode) : List AllocSite := c.sites.filterMap CodeSite.alloc?

/-- The allocations that leave the code. -/
def lifted (c : ThreadCode) : List AllocSite := liftedSites c.inside c.allocs

/-- The allocations that stay in it. -/
def diagnostics (c : ThreadCode) : List Diagnostic := variantSites c.inside c.allocs

def blocks (c : ThreadCode) : List Name := c.lifted.map AllocSite.name

/-- The place of a thread that runs the code, if the number of threads is an integer. -/
def place? (c : ThreadCode) : Option ThreadPlace := (IndexExpr.ofOperand c.threads).map (⟨.var c.thread, ·⟩)

/-- An array in a lifted block is rebased; other placements stay. -/
def rebased (c : ThreadCode) (place : ThreadPlace) (b : Binder) : Binder :=
  { b with place := b.place.map fun p => if p.block ∈ c.blocks then ⟨p.block, place.rebase p.index⟩ else p }

/-- The lifted allocations, with the number of threads that each is to have room for. -/
def spreads (c : ThreadCode) : List (Operand × AllocSite) := c.lifted.map (c.threads, ·)

/-- What expansion makes of the code of a thread. -/
structure Expanded (c c' : ThreadCode) (place : ThreadPlace) : Prop where
  thread : c'.thread = c.thread
  threads : c'.threads = c.threads
  inside : ∀ v, c'.inside.count v + c.blocks.count v = c.inside.count v
  sites : c'.sites = (c.sites.filter (CodeSite.stays c.inside)).map (CodeSite.map (c.rebased place))

/-- The code without its lifted blocks, and with its arrays rebased for the thread. -/
def ExpandsTo (c c' : ThreadCode) : Prop := ∃ place, c.place? = some place ∧ c.Expanded c' place

end ThreadCode

/-! The list of what the code binds, and the passes over it -/

section
variable {inside : List Name}

theorem filterMap_alloc_binders (bs : List Binder) : (binderSites bs).filterMap CodeSite.alloc? = [] := by
  rw [binderSites, List.filterMap_map]
  exact List.filterMap_eq_nil_iff.mpr fun _ _ => rfl

theorem filterMap_alloc_boundSites (pat : Pattern) (e : Exp) :
    (boundSites pat e).filterMap CodeSite.alloc? = (allocSite pat e).toList := by
  unfold boundSites
  cases allocSite pat e with
  | some a => rfl
  | none => exact filterMap_alloc_binders pat.binders

mutual

theorem Exp.filterMap_alloc_sites : ∀ e : Exp, e.sites.filterMap CodeSite.alloc? = e.allocSites
  | .operand _ | .binary .. | .compare .. | .index .. | .update .. | .iota .. | .replicate .. | .reshape ..
  | .rearrange .. | .copy _ | .alloc .. | .launch _ => rfl
  | .branch _ onTrue onFalse _ => by
    rw [Exp.sites, List.filterMap_append, onTrue.filterMap_alloc_sites, onFalse.filterMap_alloc_sites]
    rfl
  | .loop context values _ _ body => by
    rw [Exp.sites, List.filterMap_append, filterMap_alloc_binders, body.filterMap_alloc_sites]
    rfl

theorem filterMap_alloc_sitesIn : ∀ stms : List Stm, (sitesIn stms).filterMap CodeSite.alloc? = allocSitesIn stms
  | [] => rfl
  | ⟨pat, _, exp⟩ :: stms => by
    rw [sitesIn, allocSitesIn, List.filterMap_append, List.filterMap_append, filterMap_alloc_boundSites,
      exp.filterMap_alloc_sites, filterMap_alloc_sitesIn stms]

theorem Body.filterMap_alloc_sites : ∀ body : Body, body.sites.filterMap CodeSite.alloc? = body.allocSites
  | ⟨stms, _⟩ => filterMap_alloc_sitesIn stms

end

theorem GroupStm.filterMap_alloc_sites (stm : GroupStm) : stm.sites.filterMap CodeSite.alloc? = stm.allocSites := by
  cases stm with
  | split size chunks => exact filterMap_alloc_binders (size :: chunks)
  | thread pat only body =>
    rw [sites, List.filterMap_append, filterMap_alloc_binders, body.filterMap_alloc_sites]
    rfl
  | reduce pat width op inputs =>
    rw [sites, List.filterMap_append, filterMap_alloc_binders, op.body.filterMap_alloc_sites]
    rfl

theorem filter_stays_binders (bs : List Binder) : (binderSites bs).filter (CodeSite.stays inside) = binderSites bs := by
  refine List.filter_eq_self.mpr fun site mem => ?_
  obtain ⟨b, _, rfl⟩ := List.mem_map.mp mem
  rfl

/-- An expression that holds code is no allocation, before or after. -/
theorem allocSite_withoutLifted (pat : Pattern) (e : Exp) : allocSite pat (e.withoutLifted inside) = allocSite pat e := by
  obtain ⟨context, values⟩ := pat
  match context, values with
  | [], [b] => cases e <;> rfl
  | [], [] | [], _ :: _ :: _ | _ :: _, _ => cases e <;> rfl

mutual

theorem Exp.sites_withoutLifted : ∀ e : Exp, (e.withoutLifted inside).sites = e.sites.filter (CodeSite.stays inside)
  | .operand _ | .binary .. | .compare .. | .index .. | .update .. | .iota .. | .replicate .. | .reshape ..
  | .rearrange .. | .copy _ | .alloc .. | .launch _ => rfl
  | .branch _ onTrue onFalse _ => by
    rw [Exp.withoutLifted, Exp.sites, Exp.sites, List.filter_append, onTrue.sites_withoutLifted, onFalse.sites_withoutLifted]
  | .loop context values _ _ body => by
    rw [Exp.withoutLifted, Exp.sites, Exp.sites, List.filter_append, filter_stays_binders, body.sites_withoutLifted]

theorem sitesIn_withoutLifted : ∀ stms : List Stm,
    sitesIn (stmsWithoutLifted inside stms) = (sitesIn stms).filter (CodeSite.stays inside)
  | [] => rfl
  | ⟨pat, certs, exp⟩ :: stms => by
    have rest := sitesIn_withoutLifted stms
    rw [stmsWithoutLifted, sitesIn, List.filter_append, List.filter_append]
    split
    · rename_i a site
      have here : boundSites pat exp = [.block a] := by rw [boundSites, site]
      obtain ⟨rfl, rfl⟩ := allocSite_eq_some.mp site
      split
      · rename_i variant
        have kept : [CodeSite.block a].filter (CodeSite.stays inside) = [.block a] := List.filter_cons_of_pos variant
        rw [sitesIn, here, rest, kept]
        rfl
      · rename_i invariant
        have gone : [CodeSite.block a].filter (CodeSite.stays inside) = [] := List.filter_cons_of_neg invariant
        rw [rest, here, gone]
        rfl
    · rename_i none
      have here : boundSites pat exp = binderSites pat.binders := by rw [boundSites, none]
      have same : boundSites pat (exp.withoutLifted inside) = binderSites pat.binders := by
        rw [boundSites, allocSite_withoutLifted, none]
      rw [sitesIn, same, here, filter_stays_binders, exp.sites_withoutLifted, rest]

theorem Body.sites_withoutLifted : ∀ body : Body, (body.withoutLifted inside).sites = body.sites.filter (CodeSite.stays inside)
  | ⟨stms, _⟩ => sitesIn_withoutLifted stms

end

theorem binderSites_map (f : Binder → Binder) (bs : List Binder) : binderSites (bs.map f) = (binderSites bs).map (CodeSite.map f) := by
  rw [binderSites, binderSites, List.map_map, List.map_map]
  rfl

section
variable {l : Lift}

theorem Pattern.binders_rebased (pat : Pattern) : (pat.rebased l).binders = pat.binders.map (Binder.rebased l) :=
  List.map_append.symm

theorem allocSite_rebased (pat : Pattern) (e : Exp) :
    allocSite (pat.rebased l) (e.rebased l) = (allocSite pat e).map fun a => { a with block := a.block.rebased l } := by
  obtain ⟨context, values⟩ := pat
  match context, values with
  | [], [b] => cases e <;> rfl
  | [], [] | [], _ :: _ :: _ | _ :: _, _ => cases e <;> rfl

theorem boundSites_rebased (pat : Pattern) (e : Exp) :
    boundSites (pat.rebased l) (e.rebased l) = (boundSites pat e).map (CodeSite.map (Binder.rebased l)) := by
  unfold boundSites
  rw [allocSite_rebased]
  cases allocSite pat e with
  | some a => rfl
  | none => exact pat.binders_rebased ▸ binderSites_map _ _

mutual

theorem Exp.sites_rebased : ∀ e : Exp, (e.rebased l).sites = e.sites.map (CodeSite.map (Binder.rebased l))
  | .operand _ | .binary .. | .compare .. | .index .. | .update .. | .iota .. | .replicate .. | .reshape ..
  | .rearrange .. | .copy _ | .alloc .. | .launch _ => rfl
  | .branch _ onTrue onFalse _ => by
    rw [Exp.rebased, Exp.sites, Exp.sites, List.map_append, onTrue.sites_rebased, onFalse.sites_rebased]
  | .loop context values _ _ body => by
    have merged : ((context.map fun m => (m.1.rebased l, m.2)) ++ values.map fun m => (m.1.rebased l, m.2)).map Prod.fst =
        ((context ++ values).map Prod.fst).map (Binder.rebased l) := by
      rw [← List.map_append, List.map_map, List.map_map]
      rfl
    rw [Exp.rebased, Exp.sites, merged, binderSites_map, body.sites_rebased, ← List.map_append]
    rfl

theorem sitesIn_rebased : ∀ stms : List Stm, sitesIn (stmsRebased l stms) = (sitesIn stms).map (CodeSite.map (Binder.rebased l))
  | [] => rfl
  | ⟨pat, certs, exp⟩ :: stms => by
    rw [stmsRebased, sitesIn, sitesIn, List.map_append, List.map_append, boundSites_rebased, exp.sites_rebased,
      sitesIn_rebased stms]

theorem Body.sites_rebased : ∀ body : Body, (body.rebased l).sites = body.sites.map (CodeSite.map (Binder.rebased l))
  | ⟨stms, _⟩ => sitesIn_rebased stms

end

end

section
variable {lift : Option Lift}

theorem CodeSite.map_lifted_none (sites : List CodeSite) : sites.map (CodeSite.map (Binder.lifted none)) = sites := by
  refine (List.map_congr_left fun site _ => ?_).trans (List.map_id sites)
  cases site <;> rfl

theorem Pattern.binders_lifted (pat : Pattern) : (pat.lifted lift).binders = pat.binders.map (Binder.lifted lift) :=
  List.map_append.symm

theorem Body.sites_lifted (body : Body) :
    (body.lifted inside lift).sites = (body.sites.filter (CodeSite.stays inside)).map (CodeSite.map (Binder.lifted lift)) := by
  cases lift with
  | none => rw [Body.lifted, body.sites_withoutLifted, CodeSite.map_lifted_none]
  | some l =>
    rw [Body.lifted, Body.sites_rebased, body.sites_withoutLifted]
    rfl

theorem GroupStm.sites_lifted (stm : GroupStm) :
    (stm.lifted inside lift).sites = (stm.sites.filter (CodeSite.stays inside)).map (CodeSite.map (Binder.lifted lift)) := by
  cases stm with
  | split size chunks division width perThread arrays =>
    rw [lifted_split, sites, sites, filter_stays_binders, ← binderSites_map]
    rfl
  | thread pat only body =>
    rw [lifted_thread, sites, sites, List.filter_append, List.map_append, filter_stays_binders, ← binderSites_map,
      pat.binders_lifted, body.sites_lifted]
  | reduce pat width op inputs =>
    rw [lifted_reduce, sites, sites, List.filter_append, List.map_append, filter_stays_binders, ← binderSites_map,
      pat.binders_lifted, op.body.sites_lifted, ← List.map_append]

end

end

/-! The code of one kernel -/

/-- The statements that allocate a block once for a number of threads. -/
def AllocSite.spread (a : AllocSite) (threads : Operand) (total : Name) : List Stm :=
  [.ofWord total (.binary .mul threads a.size),
    ⟨⟨[], [{ a.block with ty := .mem (.var total) a.space }]⟩, [], .alloc (.var total) a.space⟩]

def spreadStms (totals : List Name) (lifted : List (Operand × AllocSite)) : List Stm :=
  (List.zipWith (fun total p => p.2.spread p.1 total) totals lifted).flatten

/-- One total has been drawn for each lifted allocation, in order. -/
structure Drawn (lifted : List (Operand × AllocSite)) (totals : List Name) (first next : Nat) : Prop where
  length : totals.length = lifted.length
  tags : totals.map Name.tag = List.range' first totals.length
  next : next = first + totals.length

theorem Drawn.append {lifted more : List (Operand × AllocSite)} {totals others : List Name} {first next last : Nat}
    (h : Drawn lifted totals first next) (h' : Drawn more others next last) : Drawn (lifted ++ more) (totals ++ others) first last := by
  refine ⟨?_, ?_, ?_⟩
  · rw [List.length_append, List.length_append, h.length, h'.length]
  · rw [List.map_append, h.tags, h'.tags, h.next, List.length_append, List.range'_append_1]
  · rw [h'.next, h.next, List.length_append, Nat.add_assoc]

theorem spreadStms_append {lifted more : List (Operand × AllocSite)} {totals : List Name} (others : List Name)
    (length : totals.length = lifted.length) :
    spreadStms (totals ++ others) (lifted ++ more) = spreadStms totals lifted ++ spreadStms others more := by
  rw [spreadStms, List.zipWith_append length, List.flatten_append]
  rfl

theorem liftedStms_drawn (threads : Operand) (sites : List AllocSite) (names : NameSupply) :
    ∃ totals, (liftedStms threads sites names).1 = spreadStms totals (sites.map (threads, ·)) ∧
      Drawn (sites.map (threads, ·)) totals names.next (liftedStms threads sites names).2.next := by
  induction sites generalizing names with
  | nil => exact ⟨[], rfl, rfl, rfl, rfl⟩
  | cons a sites ih =>
    obtain ⟨totals, same, drawn⟩ := ih ⟨names.next + 1⟩
    let total : Name := ⟨a.block.name.base ++ "_total", names.next⟩
    have one : Drawn [(threads, a)] [total] names.next (names.next + 1) := ⟨rfl, rfl, rfl⟩
    refine ⟨total :: totals, ?_, one.append drawn⟩
    rw [liftedStms]
    exact congrArg (a.spread threads total ++ ·) same

/-- Expansion of codes one after another: each is expanded, what stays in them is reported, and the
statements in front allocate what is lifted out of them. -/
structure CodesExpand (options : ExpandOptions) (codes codes' : List ThreadCode) (totals : List Name) (stms : List Stm)
    (s t : ExpandState) : Prop where
  each : List.Forall₂ ThreadCode.ExpandsTo codes codes'
  lenient : options.strict = true → codes.flatMap ThreadCode.diagnostics = []
  reported : t.diagnostics = s.diagnostics ++ codes.flatMap ThreadCode.diagnostics
  front : stms = spreadStms totals (codes.flatMap ThreadCode.spreads)
  drawn : Drawn (codes.flatMap ThreadCode.spreads) totals s.names.next t.names.next

section
variable {options : ExpandOptions} {s r t : ExpandState} {stms more : List Stm}

theorem CodesExpand.nil (s : ExpandState) : CodesExpand options [] [] [] [] s s :=
  ⟨.nil, fun _ => rfl, (List.append_nil _).symm, rfl, rfl, rfl, rfl⟩

theorem CodesExpand.append {codes codes' others others' : List ThreadCode} {totals totals' : List Name}
    (h : CodesExpand options codes codes' totals stms s r) (h' : CodesExpand options others others' totals' more r t) :
    CodesExpand options (codes ++ others) (codes' ++ others') (totals ++ totals') (stms ++ more) s t := by
  refine ⟨List.rel_append h.each h'.each, fun strict => ?_, ?_, ?_, ?_⟩
  · rw [List.flatMap_append, h.lenient strict, h'.lenient strict]
    rfl
  · rw [h'.reported, h.reported, List.flatMap_append, List.append_assoc]
  · rw [h.front, h'.front, List.flatMap_append, spreadStms_append _ h.drawn.length]
  · rw [List.flatMap_append]
    exact h.drawn.append h'.drawn

theorem ThreadCode.place_eq_some {c : ThreadCode} {place : ThreadPlace} :
    c.place? = some place ↔ threadPlace c.thread c.threads = .ok place := by
  unfold place? threadPlace
  cases IndexExpr.ofOperand c.threads <;> simp

/-- Without lifted blocks nothing moves. -/
theorem ThreadCode.rebased_eq_lifted (c : ThreadCode) (place : ThreadPlace) (b : Binder) :
    c.rebased place b = b.lifted (Lift.of? place c.lifted) := by
  obtain ⟨name, ty, placement⟩ := b
  unfold ThreadCode.rebased ThreadCode.blocks
  cases c.lifted with
  | nil => cases placement <;> rfl
  | cons a lifted => rfl

theorem liftSites_expand {label : String} {c c' : ThreadCode} {existentials : List Name} {lift : Option Lift}
    (made : liftSites options label c.thread c.threads c.inside c.allocs existentials s = .ok ((stms, lift), t))
    (thread : c'.thread = c.thread) (threads : c'.threads = c.threads)
    (inside : ∀ v, c'.inside.count v + c.blocks.count v = c.inside.count v)
    (sites : c'.sites = (c.sites.filter (CodeSite.stays c.inside)).map (CodeSite.map (Binder.lifted lift))) :
    ∃ totals, CodesExpand options [c] [c'] totals stms s t := by
  obtain ⟨place, located, lenient, _, same, rfl⟩ := liftSites_eq_ok_iff.mp made
  obtain ⟨rfl, rfl⟩ := Prod.mk.inj same
  obtain ⟨totals, same, drawn⟩ := liftedStms_drawn c.threads c.lifted s.names
  have moved : Binder.lifted (Lift.of? place c.lifted) = c.rebased place := funext fun b => (c.rebased_eq_lifted place b).symm
  refine ⟨totals, .cons ⟨place, ThreadCode.place_eq_some.mpr located, thread, threads, inside, ?_⟩ .nil, ?_, ?_, ?_, ?_⟩
  · rw [← moved]
    exact sites
  · rw [List.flatMap_singleton]
    exact lenient
  · rw [List.flatMap_singleton]
    rfl
  · rw [List.flatMap_singleton]
    exact same
  · rw [List.flatMap_singleton]
    exact drawn

theorem filterMap_alloc_code (bs : List Binder) (body : Body) :
    (binderSites bs ++ body.sites).filterMap CodeSite.alloc? = body.allocSites := by
  rw [List.filterMap_append, filterMap_alloc_binders, body.filterMap_alloc_sites]
  rfl

theorem MapKernel.allocs_threadCode (k : MapKernel) : k.threadCode.allocs = k.body.allocSites := filterMap_alloc_code _ _

theorem Lambda.allocs_threadCode (op : Lambda) (threads : Operand) (thread : Name) :
    (op.threadCode threads thread).allocs = op.body.allocSites := filterMap_alloc_code _ _

theorem GroupKernel.allocs_threadCode (k : GroupKernel) : k.threadCode.allocs = k.body.stms.flatMap GroupStm.allocSites := by
  rw [ThreadCode.allocs, threadCode, List.filterMap_flatMap]
  exact congrArg (List.flatMap · k.body.stms) (funext GroupStm.filterMap_alloc_sites)

theorem sites_code_lifted (inside : List Name) (lift : Option Lift) (bs : List Binder) (body : Body) :
    binderSites (bs.map (Binder.lifted lift)) ++ (body.lifted inside lift).sites =
      ((binderSites bs ++ body.sites).filter (CodeSite.stays inside)).map (CodeSite.map (Binder.lifted lift)) := by
  rw [List.filter_append, List.map_append, filter_stays_binders, ← binderSites_map, body.sites_lifted]

theorem MapKernel.expand_codes {k : MapKernel} {k' : Kernel} (made : (Kernel.map k).expand options s = .ok ((stms, k'), t)) :
    ∃ totals, CodesExpand options (Kernel.map k).threadCodes k'.threadCodes totals stms s t := by
  obtain ⟨⟨drawn, lift⟩, r, lifts, made⟩ := Pass.bind_eq_ok.mp made
  obtain ⟨same, rfl⟩ := Pass.pure_eq_ok.mp made
  cases same
  rw [← k.allocs_threadCode] at lifts
  have params : (k.inputs.map fun i => { i with param := i.param.lifted lift }).map MapInput.param =
      (k.inputs.map MapInput.param).map (Binder.lifted lift) := by
    rw [List.map_map, List.map_map]
    rfl
  refine liftSites_expand lifts rfl rfl (fun v => ?_) ?_
  · have divided := k.body.count_lifted k.threadCode.inside lift v
    rw [← k.allocs_threadCode] at divided
    have names : MapKernel.threadNames { k with
        body := k.body.lifted k.threadCode.inside lift
        inputs := k.inputs.map fun i => { i with param := i.param.lifted lift } } = k.threadNames := by
      rw [threadNames_eq, threadNames_eq, List.map_map]
      exact congrArg (k.placeNames ++ List.map · k.inputs) (funext fun i => i.param.name_lifted lift)
    rw [threadCode, ThreadCode.blocks, ThreadCode.lifted, List.count_append]
    refine (congrArg (_ + List.count v · + _) names).trans ?_
    rw [threadCode, List.count_append, ← divided]
    exact Nat.add_right_comm _ _ _
  · rw [threadCode, params]
    exact sites_code_lifted _ _ _ _

theorem GroupKernel.expand_codes {k : GroupKernel} {k' : Kernel} (made : (Kernel.group k).expand options s = .ok ((stms, k'), t)) :
    ∃ totals, CodesExpand options (Kernel.group k).threadCodes k'.threadCodes totals stms s t := by
  obtain ⟨⟨drawn, lift⟩, r, lifts, made⟩ := Pass.bind_eq_ok.mp made
  obtain ⟨same, rfl⟩ := Pass.pure_eq_ok.mp made
  cases same
  rw [← k.allocs_threadCode] at lifts
  refine liftSites_expand lifts rfl rfl (fun v => ?_) ?_
  · have divided := count_boundInGroupStms_lifted (k.body.bound ++ k.space.names) lift k.body.stms v
    rw [← k.allocs_threadCode, ← GroupBody.bound_eq] at divided
    simp only [threadCode, ThreadCode.blocks, ThreadCode.lifted, GroupBody.bound_eq, List.count_append] at divided ⊢
    omega
  · rw [threadCode, threadCode, List.filter_flatMap, List.map_flatMap, List.flatMap_map]
    exact congrArg (List.flatMap · k.body.stms) (funext fun stm => stm.sites_lifted)

theorem Lambda.expand_codes {label : String} {threads : Operand} {op op' : Lambda}
    (made : op.expand options label threads s = .ok ((stms, op'), t)) :
    ∃ totals, CodesExpand options (op.threadCodes threads) (op'.threadCodes threads) totals stms s t := by
  obtain ⟨params, body, ret⟩ := op
  cases params with
  | nil =>
    obtain ⟨same, rfl⟩ := Pass.pure_eq_ok.mp made
    cases same
    exact ⟨[], .nil s⟩
  | cons thread params =>
    obtain ⟨⟨drawn, lift⟩, r, lifts, made⟩ := Pass.bind_eq_ok.mp made
    obtain ⟨same, rfl⟩ := Pass.pure_eq_ok.mp made
    cases same
    let op : Lambda := ⟨thread :: params, body, ret⟩
    rw [← op.allocs_threadCode threads thread.name] at lifts
    refine liftSites_expand (c := op.threadCode threads thread.name) lifts (thread.name_lifted lift) rfl (fun v => ?_)
      (sites_code_lifted _ _ _ _)
    have divided := body.count_lifted op.innerNames lift v
    rw [← op.allocs_threadCode threads thread.name] at divided
    simp only [op, threadCode, innerNames, ThreadCode.blocks, ThreadCode.lifted, names_lifted, List.count_append] at divided ⊢
    omega

theorem Kernel.expand_codes {k k' : Kernel} (made : k.expand options s = .ok ((stms, k'), t)) :
    ∃ totals, CodesExpand options k.threadCodes k'.threadCodes totals stms s t := by
  cases k with
  | map k => exact MapKernel.expand_codes made
  | group k => exact GroupKernel.expand_codes made
  | chunked k =>
    obtain ⟨⟨drawn, op⟩, r, madeOp, made⟩ := Pass.bind_eq_ok.mp made
    obtain ⟨same, rfl⟩ := Pass.pure_eq_ok.mp made
    cases same
    exact Lambda.expand_codes madeOp
  | scan k =>
    obtain ⟨⟨first, combine⟩, r, madeCombine, made⟩ := Pass.bind_eq_ok.mp made
    obtain ⟨⟨second, fold⟩, r', madeFold, made⟩ := Pass.bind_eq_ok.mp made
    obtain ⟨same, rfl⟩ := Pass.pure_eq_ok.mp made
    cases same
    obtain ⟨totals, expanded⟩ := Lambda.expand_codes madeCombine
    obtain ⟨others, expanded'⟩ := Lambda.expand_codes madeFold
    exact ⟨totals ++ others, expanded.append expanded'⟩
  | scatter k | numGroups | groupSize =>
    obtain ⟨same, rfl⟩ := Pass.pure_eq_ok.mp made
    cases same
    exact ⟨[], .nil s⟩

end

end ArrayKernels
