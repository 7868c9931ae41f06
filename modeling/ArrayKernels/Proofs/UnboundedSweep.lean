import ArrayKernels.Proofs.SweepCalls

/-! Sweeps without bounds. A sweep is granted a number of replacements for each queue, a depth, and a length of the chains of copies.
None of them is noticed: the queue, to which every replacement returns, is worked off, at every level of nesting, and each chain of
copies is followed to its end in every scope. All the replacements are paid for by ports of kernels. -/
namespace ArrayKernels

namespace Simplifier

variable (s : Simplifier)

/-- The work on a queue with no bound on the replacements. Copies end in all the scopes on the way. -/
inductive Drains (inner : BodySimplifier) (blocker : Blocker) : List Stm → Level → Progress → Level → Progress → Prop where
  | done {level p} (copies : level.scope.EndsCopies) : Drains inner blocker [] level p level p
  | replaced {stm queue level p new between last q} (copies : level.scope.EndsCopies)
    (fired : s.fireDown level.scope stm p = .ok (some new, between)) (rest : Drains inner blocker (new ++ queue) level between last q) :
    Drains inner blocker (stm :: queue) level p last q
  | settled {stm queue level p between hoisted st after last q}
    (copies : ∀ placed, placed <+: hoisted ++ [st] → (placed.foldl (fun level st => level.add blocker st) level).scope.EndsCopies)
    (passed : s.fireDown level.scope stm p = .ok (none, between))
    (swept : s.stm inner level.scope stm between = .ok ((hoisted, st), after))
    (rest : Drains inner blocker queue ((hoisted ++ [st]).foldl (fun level st => level.add blocker st) level) after last q) :
    Drains inner blocker (stm :: queue) level p last q

/-- A sweep with no bound on the replacements or the depth. The answers for nested bodies are those of such sweeps. -/
inductive Sweeps : SymbolTable → Blocker → Body → Progress → List Stm × Body → Progress → Prop where
  | mk {scope blocker body p level between usage stms q} {inner : BodySimplifier}
    (nested : ∀ {scope blocker body p r q}, inner scope blocker body p = .ok (r, q) → Sweeps scope blocker body p r q)
    (drained : s.Drains inner blocker body.stms (.start scope body) p level between)
    (up : s.sweepUp level.scope (level.scope.resolveOperands body.result) level.kept between = .ok ((usage, stms), q))
    (copies : (scope.bindStms stms).EndsCopies) :
    Sweeps scope blocker body p (level.hoisted, ⟨stms, level.scope.resolveOperands body.result⟩) q

end Simplifier

section
variable {rank : Name → Nat} {lo hi : Nat}

theorem InOrder.le {stms : List Stm} (h : InOrder rank lo hi stms) : lo ≤ hi := by
  induction stms generalizing lo with
  | nil =>
    cases h
    exact Nat.le_refl _
  | cons stm stms ih =>
    cases h with
    | cons le _ _ _ rest => exact Nat.le_trans le (ih rest)

theorem SymbolTable.Descends.bindStms {t : SymbolTable} (h : t.Descends rank lo) {stms : List Stm}
    (descends : ∀ stm ∈ stms, stm.Descends rank lo) : (t.bindStms stms).Descends rank lo := by
  induction stms generalizing t with
  | nil => exact h
  | cons stm stms ih =>
    obtain ⟨first, others⟩ := List.forall_mem_cons.mp descends
    exact ih (h.bindStm first) others

/-- The scope keeps to the order below `lo`, and the statements below `hi`. -/
structure Level.Descends (rank : Name → Nat) (lo hi : Nat) (level : Level) : Prop where
  scope : level.scope.Descends rank lo
  kept : ∀ stm ∈ level.kept, stm.Descends rank hi
  hoisted : ∀ stm ∈ level.hoisted, stm.Descends rank hi

namespace Level.Descends

variable {level : Level} {blocker : Blocker}

theorem mono (h : level.Descends rank lo hi) {lo' : Nat} (le : lo ≤ lo') : level.Descends rank lo' hi := ⟨h.scope.mono le, h.kept, h.hoisted⟩

theorem add (h : level.Descends rank lo hi) (le : lo ≤ hi) {stm : Stm} (descends : stm.Descends rank lo) :
    (level.add blocker stm).Descends rank lo hi := by
  have more {stms : List Stm} (all : ∀ stm ∈ stms, stm.Descends rank hi) : ∀ st ∈ stms ++ [stm], st.Descends rank hi :=
    List.forall_mem_append.mpr ⟨all, List.forall_mem_singleton.mpr (descends.mono le)⟩
  unfold Level.add
  dsimp only
  split
  · exact ⟨h.scope.bindStm descends, more h.kept, h.hoisted⟩
  · exact ⟨h.scope.bindStm descends, h.kept, more h.hoisted⟩

theorem addAll (h : level.Descends rank lo hi) (le : lo ≤ hi) {stms : List Stm} (descends : ∀ stm ∈ stms, stm.Descends rank lo) :
    (stms.foldl (fun level st => level.add blocker st) level).Descends rank lo hi := by
  induction stms generalizing level with
  | nil => exact h
  | cons stm stms ih =>
    obtain ⟨first, others⟩ := List.forall_mem_cons.mp descends
    exact ih (h.add le first) others

end Level.Descends

end

section
variable {rank : Name → Nat} {hi : Nat} {s : Simplifier} {scope : SymbolTable} {result : List Operand} {usage : Usage} {p q : Progress}

theorem Simplifier.fireUp_descends (standard : s.rules = .standard) {stm : Stm} {fired : Option (List Stm)}
    (ran : s.fireUp scope usage stm p = .ok (fired, q)) : q.fired = p.fired ∧ ∀ new ∈ fired, ∀ st ∈ new, st.Descends rank hi := by
  unfold fireUp at ran
  rw [standard] at ran
  split at ran
  · rename_i new names found
    cases ran
    obtain ⟨rule, mem, applied⟩ := List.exists_of_findSome?_eq_some found
    obtain rfl := List.mem_singleton.mp mem
    obtain ⟨k, _, _, _, _, ⟨rfl, _⟩ | rfl⟩ := dropDeadOutputs_eq_some applied
    · exact ⟨rfl, fun _ same st mem => by cases same; cases mem⟩
    · refine ⟨rfl, fun _ same st mem => ?_⟩
      cases same
      obtain rfl := List.mem_singleton.mp mem
      exact fun _ _ => trivial
  · cases ran
    exact ⟨rfl, fun _ none => by cases none⟩

theorem Simplifier.sweepUp_descends (standard : s.rules = .standard) {stms rest : List Stm} (descends : ∀ stm ∈ stms, stm.Descends rank hi)
    (ran : s.sweepUp scope result stms p = .ok ((usage, rest), q)) : q.fired = p.fired ∧ ∀ stm ∈ rest, stm.Descends rank hi := by
  induction stms generalizing usage rest q with
  | nil =>
    cases ran
    exact ⟨rfl, fun _ mem => absurd mem List.not_mem_nil⟩
  | cons stm stms ih =>
    obtain ⟨first, others⟩ := List.forall_mem_cons.mp descends
    obtain ⟨⟨used, behind⟩, between, swept, ran⟩ := Pass.bind_eq_ok.mp ran
    obtain ⟨same, all⟩ := ih others swept
    dsimp only at ran
    split at ran
    · obtain ⟨fired, after, tried, ran⟩ := Pass.bind_eq_ok.mp ran
      obtain ⟨same', new⟩ : _ ∧ ∀ new ∈ fired, ∀ st ∈ new, Stm.Descends rank hi st := fireUp_descends standard tried
      cases fired with
      | some stms =>
        cases ran
        exact ⟨same'.trans same, List.forall_mem_append.mpr ⟨new _ rfl, all⟩⟩
      | none =>
        cases ran
        exact ⟨same'.trans same, List.forall_mem_cons.mpr ⟨first, all⟩⟩
    · cases ran
      exact ⟨same, all⟩

end

/-! Bodies in order -/

/-- The body is no deeper than `d`, and it keeps to the order of the names up to `hi` in the scope. -/
def Orderly (rank : Name → Nat) (d : Nat) (scope : SymbolTable) (hi : Nat) (body : Body) : Prop :=
  body.depth ≤ d ∧ ∃ lo, scope.Descends rank lo ∧ InOrder rank lo hi body.stms

/-- The outcomes for bodies in order are those of sweeps without bounds, paid for by ports. -/
def BodySimplifier.Sweeping (s : Simplifier) (rank : Name → Nat) (d : Nat) (inner : BodySimplifier) : Prop :=
  ∀ {scope blocker body hi p r q}, Orderly rank d scope hi body → inner scope blocker body p = .ok (r, q) →
    s.Sweeps scope blocker body p r q ∧ q.fired ≤ p.fired + body.ports ∧ Hoists (Stm.Descends rank hi) r

open Classical in
/-- Answers for bodies in order only. Elsewhere it fails, and so promises nothing. -/
noncomputable def BodySimplifier.restrict (inner : BodySimplifier) (rank : Name → Nat) (d : Nat) : BodySimplifier :=
  fun scope blocker body => if ∃ hi, Orderly rank d scope hi body then inner scope blocker body else throw .leftReduction

section
variable {s : Simplifier} {rank : Name → Nat} {d lo mid hi : Nat} {inner : BodySimplifier} {scope : SymbolTable} {blocker : Blocker}

theorem BodySimplifier.Sweeping.serves (h : inner.Sweeping s rank d) (down : scope.Descends rank lo) {body : Body}
    (encased : Encased rank lo mid body) (shallow : body.depth ≤ d) :
    Serves inner (inner.restrict rank d) (Stm.Descends rank mid) scope body := by
  intro scope' opens blocker p r q ran
  cases encased with
  | @mk _ first last _ _ low inside high =>
    have orderly : Orderly rank d scope' last body := ⟨shallow, first, (down.opens opens).mono low, inside⟩
    obtain ⟨_, cost, hoists⟩ := h orderly ran
    refine ⟨?_, cost, fun stm mem => (hoists stm mem).mono high⟩
    rw [restrict, if_pos ⟨last, orderly⟩]
    exact ran

theorem BodySimplifier.Sweeping.nested (h : inner.Sweeping s rank d) {body : Body} {p q : Progress} {r : List Stm × Body}
    (ran : inner.restrict rank d scope blocker body p = .ok (r, q)) : s.Sweeps scope blocker body p r q := by
  unfold restrict at ran
  split at ran
  · rename_i orderly
    obtain ⟨hi, orderly⟩ := orderly
    exact (h orderly ran).1
  · cases ran

theorem Simplifier.fireDown_eq_some {stm : Stm} {p q : Progress} {new : List Stm} (fired : s.fireDown scope stm p = .ok (some new, q)) :
    ∃ names, s.rules.replaceDown scope stm p.names = some (new, names) ∧ q.fired = p.fired + 1 := by
  unfold fireDown at fired
  split at fired
  · rename_i names found
    cases fired
    exact ⟨names, found, rfl⟩
  · cases fired

/-- The queue is in order at each step, with what the rules have put on it, and so are the scopes. -/
theorem WorkedThrough.drains (standard : s.rules = .standard) (h : inner.Sweeping s rank d) {queue : List Stm} {level last : Level}
    {p q : Progress} (work : WorkedThrough (fun level stm => s.fireDown level.scope stm) (s.settle inner blocker) queue level p last q)
    (down : level.Descends rank lo hi) (order : InOrder rank lo hi queue) (shallow : ∀ stm ∈ queue, stm.exp.depth ≤ d) :
    s.Drains (inner.restrict rank d) blocker queue level p last q ∧ q.fired ≤ p.fired + portsInStms queue ∧
      last.Descends rank hi hi := by
  induction work generalizing lo with
  | done =>
    cases order
    exact ⟨.done down.scope.falls.endsCopies, Nat.le_add_right _ _, down⟩
  | @replaced stm queue level p new between last q fired _ ih =>
    obtain ⟨first, others⟩ := List.forall_mem_cons.mp shallow
    cases order with
    | cons le _ placed nested rest =>
      -- the replacement stands where the kernel stood, and pays for itself with a port
      obtain ⟨names, found, one⟩ := Simplifier.fireDown_eq_some fired
      rw [standard] at found
      obtain ⟨k, launched, supplants⟩ := RuleSet.standard_supplants down.scope placed found
      rw [launched] at first nested
      obtain ⟨lo', above, order⟩ := supplants.inOrder le nested rest
      obtain ⟨drains, cost, ends⟩ := ih (down.mono above) order (List.forall_mem_append.mpr ⟨supplants.depth_le first, others⟩)
      refine ⟨.replaced down.scope.falls.endsCopies fired drains, ?_, ends⟩
      have fewer := supplants.ports
      rw [portsInStms_append] at cost
      rw [portsInStms_cons, launched, Exp.ports]
      omega
  | @settled stm queue level p between next after last q passed done _ ih =>
    obtain ⟨first, others⟩ := List.forall_mem_cons.mp shallow
    cases order with
    | @cons _ mid _ _ _ le descends _ nested rest =>
      obtain rfl := (Simplifier.fireDown_spends standard).quiet passed
      obtain ⟨⟨hoisted, st⟩, _, swept, placed⟩ := Pass.bind_eq_ok.mp done
      cases placed
      -- the bodies of the statement, and what leaves them, stand before `mid`, and the rest of the queue behind it
      have serves (b : Body) (mem : b ∈ stm.exp.bodies) := h.serves down.scope (nested b mem) (Exp.depth_le_iff.mp first b mem)
      obtain ⟨same, paid, hoists⟩ := Simplifier.stm_tracks serves _ _ _ swept
      have all : ∀ x ∈ hoisted ++ [st], x.Descends rank mid :=
        List.forall_mem_append.mpr ⟨hoists, List.forall_mem_singleton.mpr (Simplifier.stm_descends down.scope.falls descends swept)⟩
      have raised := down.mono le
      obtain ⟨drains, cost, ends⟩ := ih (raised.addAll rest.le all) rest others
      refine ⟨.settled (fun placed part => ?_) passed same drains, ?_, ends⟩
      · exact (raised.addAll rest.le fun x mem => all x (part.subset mem)).scope.falls.endsCopies
      · have inside := stm.exp.portsInBodies_le
        rw [portsInStms_cons]
        omega

theorem sweepBody_sweeping (standard : s.rules = .standard) (h : inner.Sweeping s rank d) : (s.sweepBody inner).Sweeping s rank (d + 1) := by
  intro scope blocker body hi p r q orderly ran
  obtain ⟨shallow, lo, down, order⟩ := orderly
  rw [Body.depth_eq, Nat.add_le_add_iff_right, stmsDepth_le_iff] at shallow
  obtain ⟨level, between, drained, ran⟩ := Pass.bind_eq_ok.mp ran
  obtain ⟨⟨usage, stms⟩, after, up, ran⟩ := Pass.bind_eq_ok.mp ran
  cases ran
  have start : (Level.start scope body).Descends rank lo hi :=
    ⟨down, fun _ mem => absurd mem List.not_mem_nil, fun _ mem => absurd mem List.not_mem_nil⟩
  have work := (Simplifier.fireDown_spends standard).drain_worked (Nat.le_refl _) drained
  obtain ⟨drains, cost, ends⟩ := work.drains standard h start order shallow
  obtain ⟨same, descends⟩ := Simplifier.sweepUp_descends standard ends.kept up
  refine ⟨.mk h.nested drains up ((down.mono order.le).bindStms descends).falls.endsCopies, ?_, ends.hoisted⟩
  rw [same, Body.ports_eq]
  exact cost

theorem bodyTo_sweeping (standard : s.rules = .standard) (d : Nat) : (s.bodyTo d).Sweeping s rank d := by
  induction d with
  | zero =>
    intro scope blocker body hi p r q orderly
    have deep := orderly.1
    rw [Body.depth_eq] at deep
    omega
  | succ d ih => exact sweepBody_sweeping standard ih

end

/-- A sweep always ends. In a function in which no two binders have the same name and which binds names before it mentions them, the
standard rules replace no more statements, at all levels of nesting together, than the function has ports. And in every scope that the
sweep makes, copies are followed to an end. -/
theorem FunDecl.unbounded_sweep_ends (f : FunDecl) (distinct : (f.params.map Binder.name ++ f.body.bound).Nodup)
    (closed : ∀ v ∈ f.body.free, v ∈ f.params.map Binder.name) (keepFailing : Bool) (blocker : Blocker) (p : Progress) :
    ∃ r q, (Simplifier.make .standard keepFailing).Sweeps (SymbolTable.empty.bindParams f.params) blocker f.body p r q ∧
      (Simplifier.make .standard keepFailing).body (SymbolTable.empty.bindParams f.params) blocker f.body p = .ok (r, q) ∧
      q.fired ≤ p.fired + f.body.ports := by
  have standard : (Simplifier.make .standard keepFailing).rules = .standard := rfl
  obtain ⟨r, q, ran⟩ := (Simplifier.bodyTo_reliable (.make .standard keepFailing) f.body.depth).ends
    (SymbolTable.empty.bindParams f.params) blocker f.body p
  have whole : f.params.map Binder.name ++ f.body.bound = f.params.map Binder.name ++ f.body.bound ++ [] := (List.append_nil _).symm
  have order := Body.inOrder distinct whole closed
  have plain {lo : Nat} : (SymbolTable.empty.bindParams f.params).Descends (f.params.map Binder.name ++ f.body.bound).idxOf lo := by
    have none : SymbolTable.empty.Descends (f.params.map Binder.name ++ f.body.bound).idxOf lo := fun v e defined => by cases defined
    exact none.opens ((SymbolTable.Opens.refl _).bindParams _)
  obtain ⟨sweeps, cost, _⟩ := bodyTo_sweeping standard f.body.depth ⟨Nat.le_refl _, _, plain, order⟩ ran
  exact ⟨r, q, sweeps, ran, cost⟩

/-- A loop around a kernel that reads copies of a copy of a copy, and an array that it does not need. -/
def sampleChain : FunDecl :=
  let n : Name := ⟨"n", 0⟩
  let xs : Name := ⟨"xs", 1⟩
  let a : Name := ⟨"a", 2⟩
  let b : Name := ⟨"b", 3⟩
  let copies : Name := ⟨"copies", 4⟩
  let ys : Name := ⟨"ys", 5⟩
  let acc : Name := ⟨"acc", 6⟩
  let zs : Name := ⟨"zs", 8⟩
  let i : Name := ⟨"i", 10⟩
  let x : Name := ⟨"x", 11⟩
  let z : Name := ⟨"z", 13⟩
  let word : Ty := .scalar .i64
  let row : Ty := .array .i64 [.var n] false
  let kernel : MapKernel :=
    ⟨[], .var n, ⟨"t", 9⟩, [(i, .var n)], [⟨⟨x, word, none⟩, copies, [.var i]⟩, ⟨⟨⟨"y", 12⟩, word, none⟩, acc, [.var i]⟩], [(word, [0])],
      ⟨[.ofWord z (.binary .add (.var x) (.var i))], [.var z]⟩⟩
  let loop : Exp := .loop [] [(⟨acc, row, none⟩, .var xs)] ⟨"k", 7⟩ (.var b) ⟨[.single zs row (.launch (.map kernel))], [.var zs]⟩
  ⟨"main", [⟨n, word, none⟩, ⟨xs, row, none⟩], [row],
    ⟨[.ofWord a (.operand (.var n)), .ofWord b (.operand (.var a)), .single copies row (.replicate [.var b] (.var b)), .single ys row loop],
      [.var ys]⟩⟩

/-- The kernel in the loop loses both of its inputs, and keeps its output. -/
theorem sampleChain_sweep_ends : (sampleChain.params.map Binder.name ++ sampleChain.body.bound).Nodup ∧
    (∀ v ∈ sampleChain.body.free, v ∈ sampleChain.params.map Binder.name) ∧ sampleChain.body.ports = 3 ∧
    ∃ r q, (Simplifier.make .standard true).Sweeps (SymbolTable.empty.bindParams sampleChain.params) .always sampleChain.body ⟨⟨14⟩, 0⟩ r q ∧
      (Simplifier.make .standard true).body (SymbolTable.empty.bindParams sampleChain.params) .always sampleChain.body ⟨⟨14⟩, 0⟩ =
        .ok (r, q) ∧ q.fired = 2 := by
  have distinct : (sampleChain.params.map Binder.name ++ sampleChain.body.bound).Nodup := by decide +kernel
  have closed : ∀ v ∈ sampleChain.body.free, v ∈ sampleChain.params.map Binder.name := by decide +kernel
  obtain ⟨r, q, sweeps, ran, _⟩ := sampleChain.unbounded_sweep_ends distinct closed true .always ⟨⟨14⟩, 0⟩
  have twice : ((Simplifier.make .standard true).body (SymbolTable.empty.bindParams sampleChain.params) .always sampleChain.body
      ⟨⟨14⟩, 0⟩).toOption.any (fun out => out.2.fired = 2) = true := by decide +kernel
  obtain ⟨out, same, count⟩ := exists_of_any twice
  cases ran.symm.trans same
  exact ⟨distinct, closed, by decide +kernel, r, q, sweeps, ran, of_decide_eq_true count⟩

end ArrayKernels
