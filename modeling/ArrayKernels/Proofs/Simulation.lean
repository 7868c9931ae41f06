import ArrayKernels.Proofs.GroupFollows
import ArrayKernels.Proofs.Leaves
import ArrayKernels.Proofs.Run

/-! Comparing two runs of one piece of program from two stores. What the stores have on a name is
compared cell by cell; a simulation says how cells are related, and what has to be shown of single
statements and of the kernels on which the two ways to run differ. The rest is the same for all
simulations: the names that are read are related, so the outcomes are. -/
namespace ArrayKernels

/-- The environments of two bodies that are entered with the names `vs` bound to values that are alike. -/
structure Entered (l : Likeness) (vs : List Name) (env env' inner inner' : Env) : Prop where
  given : ∀ v ∈ vs, ∃ x y, inner.get? v = some x ∧ inner'.get? v = some y ∧ x.Alike l y
  kept : ∀ v, v ∉ vs → inner.get? v = env.get? v ∧ inner'.get? v = env'.get? v

namespace Entered

variable {l : Likeness} {env env' inner inner' : Env} {vs : List Name}

theorem refl (env env' : Env) : Entered l [] env env' env env' :=
  ⟨fun _ h => absurd h List.not_mem_nil, fun _ _ => ⟨rfl, rfl⟩⟩

theorem bind (h : Entered l vs env env' inner inner') (v : Name) {x y : Value} (alike : x.Alike l y) :
    Entered l (vs ++ [v]) env env' (inner.bind v x) (inner'.bind v y) := by
  constructor
  · intro w mem
    rw [Env.get?_bind, Env.get?_bind]
    by_cases same : w = v
    · exact ⟨x, y, if_pos same, if_pos same, alike⟩
    · rw [if_neg same, if_neg same]
      exact h.given w ((List.mem_append.mp mem).resolve_right fun last => same (List.mem_singleton.mp last))
  · intro w other
    rw [List.mem_append, List.mem_singleton, not_or] at other
    rw [Env.get?_bind, Env.get?_bind, if_neg other.2, if_neg other.2]
    exact h.kept w other.1

theorem bindAll (h : Entered l vs env env' inner inner') {bs bs' : List (Name × Value)}
    (alike : List.Forall₂ (fun b b' => b.1 = b'.1 ∧ b.2.Alike l b'.2) bs bs') :
    Entered l (vs ++ bs.map Prod.fst) env env' (inner.bindAll bs) (inner'.bindAll bs') := by
  induction alike generalizing vs inner inner' with
  | nil =>
    rw [List.map_nil, List.append_nil]
    exact h
  | @cons b b' bs bs' head _ ih =>
    have next := ih (h.bind b.1 head.2)
    rw [List.append_assoc, List.singleton_append] at next
    rw [List.map_cons, Env.bindAll, List.foldl_cons, Env.bindAll, List.foldl_cons, ← head.1]
    exact next

/-- Only which names are bound matters. -/
theorem congr {ws : List Name} (h : Entered l vs env env' inner inner') (same : ∀ v, v ∈ ws ↔ v ∈ vs) :
    Entered l ws env env' inner inner' :=
  ⟨fun v mem => h.given v ((same v).mp mem), fun v other => h.kept v fun mem => other ((same v).mpr mem)⟩

end Entered

/-- Names with lists of values that are alike. -/
theorem zip_alike {l : Likeness} (names : List Name) {xs ys : List Value} (h : ValuesAlike l xs ys) :
    List.Forall₂ (fun b b' => b.1 = b'.1 ∧ b.2.Alike l b'.2) (names.zip xs) (names.zip ys) :=
  GroupKernel.forall₂_zip (List.forall₂_same.mpr fun _ _ => rfl) h

theorem map_fst_zip_eq {names : List Name} {xs : List Value} (h : names.length = xs.length) :
    (names.zip xs).map Prod.fst = names := List.map_fst_zip (Nat.le_of_eq h)

theorem loop_follows {both : Prop} {l : Likeness} {env env' : Env} {names : List Name} {index : Name}
    {run run' : Env → Eval (List Value)} {init init' : List Value} {n : Nat} (alike : ValuesAlike l init init')
    (complete : init.length = names.length)
    (body : ∀ i now now', i < n → iterate (loopStep names index run env) i 0 init = .ok now →
      iterate (loopStep names index run' env') i 0 init' = .ok now' →
      Entered l (names ++ [index]) env env' ((env.bind index (.count i)).bindAll (names.zip now))
        ((env'.bind index (.count i)).bindAll (names.zip now')) →
      Follows both (ValuesAlike l) (run ((env.bind index (.count i)).bindAll (names.zip now)))
        (run' ((env'.bind index (.count i)).bindAll (names.zip now')))) :
    Follows both (ValuesAlike l) (iterate (loopStep names index run env) n 0 init)
      (iterate (loopStep names index run' env') n 0 init') := by
  let inv (i : Nat) (now now' : List Value) : Prop := (ValuesAlike l now now' ∧ now.length = names.length) ∧
    iterate (loopStep names index run env) i 0 init = .ok now ∧
    iterate (loopStep names index run' env') i 0 init' = .ok now'
  have steps (i : Nat) (now now' : List Value) (_ : 0 ≤ i) (below : i < 0 + n) (h : inv i now now') :
      Follows both (inv (i + 1)) (loopStep names index run env i now) (loopStep names index run' env' i now') := by
    obtain ⟨⟨related, full⟩, done, done'⟩ := h
    have entered : Entered l (names ++ [index]) env env' ((env.bind index (.count i)).bindAll (names.zip now))
        ((env'.bind index (.count i)).bindAll (names.zip now')) := by
      refine (((Entered.refl env env').bind index (count_alike i)).bindAll (zip_alike names related)).congr fun v => ?_
      rw [map_fst_zip_eq full.symm]
      simp [or_comm]
    refine Follows.imp (?_ : Follows both (fun next next' => ValuesAlike l next next' ∧ next.length = names.length) _ _)
      fun next next' stepped stepped' related => ⟨related, ?_, ?_⟩
    · refine (body i now now' (by omega) done done' entered).bind fun next next' _ _ alike => ?_
      rw [alike.length_eq]
      exact .ite (fun full => .ok ⟨alike, alike.length_eq.trans full⟩) fun _ => .error _ _
    · exact iterate_succ_last done (by rwa [Nat.zero_add])
    · exact iterate_succ_last done' (by rwa [Nat.zero_add])
  exact (@Follows.iterate _ _ both _ _ inv n 0 init init' ⟨⟨alike, complete⟩, rfl, rfl⟩ steps).imp fun _ _ _ _ h => h.1.1

theorem bindParams_follows {both : Prop} {l : Likeness} {env env' : Env} {params : List Binder} {args args' : List Value}
    (alike : ValuesAlike l args args') :
    Follows both (Entered l (params.map Binder.name) env env') (env.bindParams params args) (env'.bindParams params args') := by
  rw [Env.bindParams, Env.bindParams, alike.length_eq]
  refine .ite (fun full => .ok ?_) fun _ => .error _ _
  have entered := (Entered.refl env env').bindAll (zip_alike (params.map Binder.name) alike)
  rwa [List.nil_append, map_fst_zip_eq (by rw [List.length_map, full, alike.length_eq])] at entered

/-- Each name of a pattern is bound to values that are alike, or left alone. -/
theorem bindValues_follows {both : Prop} {l : Likeness} {env env' : Env} {pat : Pattern} {values values' : List Value}
    (alike : ValuesAlike l values values') :
    Follows both (fun e e' => ∀ v ∈ pat.names, (∃ x y, e.get? v = some x ∧ e'.get? v = some y ∧ x.Alike l y) ∨
      e.get? v = env.get? v ∧ e'.get? v = env'.get? v) (env.bindValues pat values) (env'.bindValues pat values') := by
  have bound (names : List Name) (v : Name) :
      (∃ x y, (env.bindAll (names.zip values)).get? v = some x ∧ (env'.bindAll (names.zip values')).get? v = some y ∧
        x.Alike l y) ∨ (env.bindAll (names.zip values)).get? v = env.get? v ∧
        (env'.bindAll (names.zip values')).get? v = env'.get? v := by
    have entered := (Entered.refl env env').bindAll (zip_alike names alike)
    by_cases mem : v ∈ [] ++ (names.zip values).map Prod.fst
    · exact .inl (entered.given v mem)
    · exact .inr (entered.kept v mem)
  rw [Env.bindValues, Env.bindValues, alike.length_eq]
  refine .ite (fun _ => .ok fun v _ => bound pat.names v) fun _ => ?_
  exact .ite (fun _ => .ok fun v _ => bound pat.valueNames v) fun _ => .error _ _

theorem length_coordinates (t : Nat) (dims : List Nat) : (coordinates t dims).2.length = dims.length := by
  induction dims with
  | nil => rfl
  | cons d dims ih => rw [coordinates, List.length_cons, List.length_cons, ih]

namespace MapKernel

theorem bindInputs_follows {both : Prop} {l : Likeness} {env env' e e' : Env} {names : List Name} {inputs : List MapInput}
    (reads : ∀ v ∈ NameSet.gather MapInput.reads inputs, v ∉ names →
      Follows both (Value.Alike l) (env.lookup v) (env'.lookup v))
    (entered : Entered l names env env' e e') :
    Follows both (Entered l (names ++ inputs.map fun i => i.param.name) env env') (bindInputs e inputs)
      (bindInputs e' inputs) := by
  induction inputs generalizing e e' names with
  | nil =>
    rw [List.map_nil, List.append_nil]
    exact .ok entered
  | cons i inputs ih =>
    have look (v : Name) (mem : v ∈ i.reads) : Follows both (Value.Alike l) (e.lookup v) (e'.lookup v) := by
      by_cases bound : v ∈ names
      · obtain ⟨x, y, left, right, alike⟩ := entered.given v bound
        rw [Env.lookup_eq_ok.mpr left, Env.lookup_eq_ok.mpr right]
        exact .ok alike
      · obtain ⟨left, right⟩ := entered.kept v bound
        rw [Env.lookup_congr left, Env.lookup_congr right]
        exact reads v (NameSet.mem_gather.mpr ⟨i, List.mem_cons_self, mem⟩) bound
    have operands : Env.OperandsFollow both l e e' i.indices i.indices := by
      refine List.forall₂_same.mpr fun x mem => ?_
      cases x with
      | const c => exact .ok (.scalar c)
      | var v =>
        refine look v (NameSet.mem_union.mpr (.inr (NameSet.mem_gather.mpr ⟨_, mem, ?_⟩)))
        exact NameSet.mem_singleton.mpr rfl
    rw [bindInputs, bindInputs, List.foldlM_cons, List.foldlM_cons]
    refine Follows.bind (?_ : Follows both (Entered l (names ++ [i.param.name]) env env') _ _) fun e e' _ _ entered => ?_
    · refine (Env.array_follows (look i.array (by simp [MapInput.reads]))).bind fun a b _ _ alike => ?_
      refine (Env.words_follow operands).bind fun is _ _ _ same => ?_
      subst same
      exact (ArrayValue.index_follows alike is).bind fun x y _ _ alike => .ok (entered.bind _ alike)
    · have rest := ih (fun v mem other => reads v ?_ fun bound => other (List.mem_append_left _ bound)) entered
      · rwa [List.append_assoc, List.singleton_append] at rest
      · obtain ⟨j, later, mem⟩ := NameSet.mem_gather.mp mem
        exact NameSet.mem_gather.mpr ⟨j, List.mem_cons_of_mem _ later, mem⟩

theorem threadEnv_follows {both : Prop} {l : Likeness} {k : MapKernel} {env env' : Env} {dims : List Nat}
    (reads : ∀ v ∈ NameSet.gather MapInput.reads k.inputs, v ∉ k.placeNames →
      Follows both (Value.Alike l) (env.lookup v) (env'.lookup v))
    (measured : env.sizes k.extents = .ok dims) (t : Nat) :
    Follows both (Entered l k.threadNames env env') (k.threadEnv dims env t) (k.threadEnv dims env' t) := by
  have full : (k.space.map Prod.fst).length = ((coordinates t dims).2.map Value.count).length := by
    rw [List.length_map, List.length_map, length_coordinates, ← (mapM_eq_ok.mp measured).length_eq, extents, List.length_map]
  have placed : Entered l k.placeNames env env'
      ((env.bind k.thread (.count t)).bindAll ((k.space.map Prod.fst).zip ((coordinates t dims).2.map Value.count)).reverse)
      ((env'.bind k.thread (.count t)).bindAll ((k.space.map Prod.fst).zip ((coordinates t dims).2.map Value.count)).reverse) := by
    refine (((Entered.refl env env').bind k.thread (count_alike t)).bindAll (List.forall₂_same.mpr fun b mem => ?_)).congr
      fun v => ?_
    · obtain ⟨n, _, same⟩ := List.mem_map.mp (List.of_mem_zip (List.mem_reverse.mp mem)).2
      exact ⟨rfl, same ▸ count_alike n⟩
    · rw [List.map_reverse, map_fst_zip_eq full, placeNames]
      simp
  exact bindInputs_follows reads placed

end MapKernel

/-- How the cells of two stores are related, and what has to be shown of the statements and kernels on
which the two ways to run differ. `clean` is asked of names before they are bound. What is known to
be `fine` of the statements of a strict run may be used. -/
structure Simulation (both : Prop) (l : Likeness) (m m' : Mode) where
  rel : Cell → Cell → Prop
  clean : Cell → Cell → Prop
  fine : Env → Stm → Prop
  fine' : Env → Stm → Prop
  look : ∀ {c c' : Cell}, rel c c' → ∀ v, Follows both (Value.Alike l) (c.read v) (c'.read v)
  given : ∀ {x y : Value}, x.Alike l y → rel ⟨some x, none, none⟩ ⟨some y, none, none⟩

namespace Simulation

variable {both : Prop} {l : Likeness} {m m' : Mode}

section
variable (sim : Simulation both l m m') (σ σ' : Store)

def Agree (vs : NameSet) : Prop := ∀ v ∈ vs, sim.rel (σ.cell v) (σ'.cell v)

def Clean (vs : List Name) : Prop := ∀ v ∈ vs, sim.clean (σ.cell v) (σ'.cell v)

/-- The statement is fine in the run that is strict. -/
def Fine (stm : Stm) : Prop := (m = .strict → sim.fine σ.env stm) ∧ (m' = .strict → sim.fine' σ'.env stm)

def Safe (body : Body) : Prop :=
  (m = .strict → Throughout sim.fine σ.env body) ∧ (m' = .strict → Throughout sim.fine' σ'.env body)

def SafeExp (e : Exp) : Prop :=
  (m = .strict → ThroughoutExp sim.fine σ.env e) ∧ (m' = .strict → ThroughoutExp sim.fine' σ'.env e)

/-- Afterwards the names of the statement are related. -/
def Binds (pat : Pattern) (τ τ' : Store) : Prop := ∀ v ∈ pat.names, sim.rel (τ.cell v) (τ'.cell v)

end

/-- What a simulation shows of single statements and kernels. -/
structure Lawful (sim : Simulation both l m m') : Prop where
  leaf : ∀ {σ σ' : Store} {pat : Pattern} {certs : List Name} {e : Exp}, e.isNested = false →
    sim.Fine σ σ' ⟨pat, certs, e⟩ → sim.Clean σ σ' pat.names → sim.Agree σ σ' e.free →
    Follows both (sim.Binds pat) (m.settle σ pat e (m.leaf σ e)) (m'.settle σ' pat e (m'.leaf σ' e))
  nested : ∀ {σ σ' : Store} {pat : Pattern} {certs : List Name} {e : Exp}, e.isNested = true →
    sim.Fine σ σ' ⟨pat, certs, e⟩ → sim.Clean σ σ' pat.names →
    Follows both (ValuesAlike l) (e.run m σ) (e.run m' σ') →
    Follows both (sim.Binds pat) (m.settle σ pat e (e.run m σ)) (m'.settle σ' pat e (e.run m' σ'))
  map : ∀ {σ σ' : Store} {pat : Pattern} {certs : List Name} {k : MapKernel} {run run' : Env → Eval (List Value)},
    sim.Fine σ σ' ⟨pat, certs, .launch (.map k)⟩ → sim.Agree σ σ' (Kernel.map k).reads →
    (m = .strict → run = fun e => k.body.eval e) →
    (∀ e e', (m = .strict → k.Feeds run σ.env e) → (m' = .strict → k.Feeds run' σ'.env e') →
      Entered l k.threadNames σ.env σ'.env e e' → Follows both (ValuesAlike l) (run e) (run' e')) →
    Follows both (ValuesAlike l) (m.map σ k run) (m'.map σ' k run')
  chunked : ∀ {σ σ' : Store} {k : ChunkedKernel} {op op' : List Value → Eval (List Value)},
    sim.Clean σ σ' (k.op.params.map Binder.name) → sim.Agree σ σ' (Kernel.chunked k).reads →
    (∀ args args', (m = .strict → k.Feeds op σ.env args) → (m' = .strict → k.Feeds op' σ'.env args') →
      ValuesAlike l args args' → Follows both (ValuesAlike l) (op args) (op' args')) →
    Follows both (ValuesAlike l) (m.chunked σ k op) (m'.chunked σ' k op')
  group : ∀ {σ σ' : Store} {k : GroupKernel}, sim.Clean σ σ' k.ownNames → sim.Agree σ σ' (Kernel.group k).reads →
    Follows both (fun τ τ' => (∀ v ∈ k.ownNames, sim.rel (τ.cell v) (τ'.cell v)) ∧
      ∀ ty ∈ k.returns, τ.env.rowShape ty = τ'.env.rowShape ty) (m.group σ k) (m'.group σ' k)

variable {sim : Simulation both l m m'} {σ σ' : Store}

theorem Agree.mono {vs ws : NameSet} (h : sim.Agree σ σ' vs) (part : ∀ v ∈ ws, v ∈ vs) : sim.Agree σ σ' ws :=
  fun v mem => h v (part v mem)

theorem Agree.lookup {vs : NameSet} (h : sim.Agree σ σ' vs) {v : Name} (mem : v ∈ vs) :
    Follows both (Value.Alike l) (σ.env.lookup v) (σ'.env.lookup v) := by
  rw [σ.lookup_eq, σ'.lookup_eq]
  exact sim.look (h v mem) v

theorem Agree.operand {vs : NameSet} (h : sim.Agree σ σ' vs) {x : Operand} (part : ∀ v ∈ x.free, v ∈ vs) :
    Follows both (Value.Alike l) (σ.env.operand x) (σ'.env.operand x) := by
  cases x with
  | const c => exact .ok (.scalar c)
  | var v => exact h.lookup (part v (NameSet.mem_singleton.mpr rfl))

theorem Agree.operands {vs : NameSet} (h : sim.Agree σ σ' vs) {xs : List Operand} (part : ∀ v ∈ freeOperands xs, v ∈ vs) :
    Env.OperandsFollow both l σ.env σ'.env xs xs :=
  List.forall₂_same.mpr fun x mem => h.operand fun v free => part v (NameSet.mem_gather.mpr ⟨x, mem, free⟩)

theorem Agree.lookups {vs : NameSet} (h : sim.Agree σ σ' vs) {ws : List Name} (part : ∀ v ∈ freeNames ws, v ∈ vs) :
    List.Forall₂ (fun v v' => Follows both (Value.Alike l) (σ.env.lookup v) (σ'.env.lookup v')) ws ws :=
  List.forall₂_same.mpr fun v mem => h.lookup (part v (NameSet.mem_ofList.mpr mem))

/-- An expression without bodies, with its operands as the two runs read them. -/
theorem Agree.renamed {e : Exp} (leaf : e.isNested = false) (h : sim.Agree σ σ' e.free) :
    e.Renamed (fun x x' => Follows both (Value.Alike l) (σ.env.operand x) (σ'.env.operand x')) e :=
  .self leaf (fun c => .ok (.scalar c)) fun _ free => h.lookup free

theorem Agree.type {vs : NameSet} (h : sim.Agree σ σ' vs) {ty : Ty} (part : ∀ v ∈ ty.free, v ∈ vs) :
    Env.TypeFollows both l σ.env σ'.env ty ty := by
  cases ty with
  | scalar e => exact .scalar e
  | array e shape unique => exact .array e (h.operands part)
  | mem size space => exact .mem space (h.operand part)

/-- The threads of a map kernel in two runs. -/
theorem Agree.map_run {k : MapKernel}
    {run run' : Env → Eval (List Value)} (agree : sim.Agree σ σ' (Kernel.map k).reads)
    (body : ∀ e e', k.Feeds run σ.env e → k.Feeds run' σ'.env e' → Entered l k.threadNames σ.env σ'.env e e' →
      Follows both (ValuesAlike l) (run e) (run' e')) :
    Follows both (ValuesAlike l) (k.run run σ.env) (k.run run' σ'.env) := by
  obtain ⟨certs, width, thread, space, inputs, returns, inner⟩ := k
  refine MapKernel.run_follows (Env.size_follows (agree.operand fun v mem => by simp [Kernel.reads, mem]))
    (Env.sizes_follow (agree.operands fun v mem => ?_)) (fun dims t measured => ?_) body
    (List.forall₂_same.mpr fun r mem => ⟨rfl, rfl, Env.sizes_follow (agree.operands fun v free => ?_)⟩)
  · simp only [Kernel.reads, NameSet.mem_union]
    exact .inl (.inl (.inl (.inr mem)))
  · refine MapKernel.threadEnv_follows (fun v mem other => agree.lookup ?_) measured t
    simp only [Kernel.reads, NameSet.mem_union, NameSet.mem_without]
    exact .inl (.inl (.inr ⟨mem, other⟩))
  · simp only [Kernel.reads, NameSet.mem_union]
    exact .inr (NameSet.mem_gather.mpr ⟨r, mem, free⟩)

/-- The chunks of a chunked kernel in two runs. -/
theorem Agree.chunked_run {k : ChunkedKernel} {op op' : List Value → Eval (List Value)}
    (agree : sim.Agree σ σ' (k.width.free ∪ k.size.threads.free ∪ k.size.chunk.free ∪ freeNames k.arrays))
    (rows : ∀ ty ∈ k.op.ret, σ.env.rowShape ty = σ'.env.rowShape ty)
    (body : ∀ args args', k.Feeds op σ.env args → k.Feeds op' σ'.env args' → ValuesAlike l args args' →
      Follows both (ValuesAlike l) (op args) (op' args')) :
    Follows both (ValuesAlike l) (k.run op σ.env) (k.run op' σ'.env) := by
  refine ChunkedKernel.run_follows (Env.size_follows (agree.operand fun v mem => by simp [mem]))
    (Env.size_follows (agree.operand fun v mem => by simp [mem])) (Env.size_follows (agree.operand fun v mem => by simp [mem])) rfl
    (Env.arrays_follow (agree.lookups fun v mem => by simp [mem])) body (List.forall₂_same.mpr fun ty mem => ⟨rfl, rows ty mem⟩)

/-- The names that are read inside a body are related when it is entered. -/
theorem Agree.enter {vs : List Name} {reads : NameSet} {e e' : Env} (entered : Entered l vs σ.env σ'.env e e')
    (h : sim.Agree σ σ' (reads.without vs)) : sim.Agree (σ.inside vs e) (σ'.inside vs e') reads := by
  intro v mem
  by_cases bound : v ∈ vs
  · obtain ⟨x, y, left, right, alike⟩ := entered.given v bound
    rw [Store.cell_inside_of_mem bound, Store.cell_inside_of_mem bound, left, right]
    exact sim.given alike
  · obtain ⟨left, right⟩ := entered.kept v bound
    rw [Store.cell_inside bound left, Store.cell_inside bound right]
    exact h v (NameSet.mem_without.mpr ⟨mem, bound⟩)

theorem Clean.enter {vs ws : List Name} {e e' : Env} (entered : Entered l vs σ.env σ'.env e e')
    (h : sim.Clean σ σ' ws) (apart : ∀ v ∈ ws, v ∉ vs) : sim.Clean (σ.inside vs e) (σ'.inside vs e') ws := by
  intro v mem
  obtain ⟨left, right⟩ := entered.kept v (apart v mem)
  rw [Store.cell_inside (apart v mem) left, Store.cell_inside (apart v mem) right]
  exact h v mem

/-- The environments of one thread in two runs of a group kernel: the names `vs` that are read and the
kernel's `own` names are related, and the names `inner` are still to be bound. -/
structure ThreadAgrees (sim : Simulation both l m m') (notes notes' : Notes) (vs : NameSet) (own inner : List Name)
    (e e' : Env) : Prop where
  agree : ∀ v, v ∈ vs ∨ v ∈ own → sim.rel (Store.cell ⟨e, notes⟩ v) (Store.cell ⟨e', notes'⟩ v)
  clean : sim.Clean ⟨e, notes⟩ ⟨e', notes'⟩ inner

namespace ThreadAgrees

variable {notes notes' : Notes} {vs : NameSet} {own inner : List Name} {e e' : Env}

theorem reads (h : sim.ThreadAgrees (notes.clear own) (notes'.clear own) vs own inner e e') {ws : NameSet}
    (part : ∀ v ∈ ws, v ∈ vs ∨ v ∈ own) : sim.Agree ⟨e, notes.clear own⟩ ⟨e', notes'.clear own⟩ ws :=
  fun v mem => h.agree v (part v mem)

theorem bindAll (h : sim.ThreadAgrees (notes.clear own) (notes'.clear own) vs own inner e e')
    (apart : ∀ v ∈ inner, v ∉ own) {bs bs' : List (Name × Value)} (part : ∀ v ∈ bs.map Prod.fst, v ∈ own)
    (alike : List.Forall₂ (fun b b' => b.1 = b'.1 ∧ b.2.Alike l b'.2) bs bs') :
    sim.ThreadAgrees (notes.clear own) (notes'.clear own) vs own inner (e.bindAll bs) (e'.bindAll bs') := by
  have entered := (Entered.refl e e').bindAll alike
  rw [List.nil_append] at entered
  constructor
  · intro v known
    by_cases bound : v ∈ bs.map Prod.fst
    · obtain ⟨x, y, left, right, alike⟩ := entered.given v bound
      simp only [Store.cell, left, right, Notes.clear, if_pos (part v bound)]
      exact sim.given alike
    · obtain ⟨left, right⟩ := entered.kept v bound
      have now := h.agree v known
      simp only [Store.cell, left, right] at now ⊢
      exact now
  · intro v mem
    obtain ⟨left, right⟩ := entered.kept v fun bound => apart v mem (part v bound)
    have now := h.clean v mem
    simp only [Store.cell, left, right] at now ⊢
    exact now

theorem bindValues (h : sim.ThreadAgrees (notes.clear own) (notes'.clear own) vs own inner e e')
    (apart : ∀ v ∈ inner, v ∉ own) {pat : Pattern} (part : ∀ v ∈ pat.names, v ∈ own) {values values' : List Value}
    (alike : ValuesAlike l values values') :
    Follows both (sim.ThreadAgrees (notes.clear own) (notes'.clear own) vs own inner) (e.bindValues pat values)
      (e'.bindValues pat values') := by
  rw [Env.bindValues, Env.bindValues, alike.length_eq]
  have zipped (names : List Name) (some : ∀ v ∈ names, v ∈ pat.names) : ∀ v ∈ (names.zip values).map Prod.fst, v ∈ own := by
    intro v mem
    obtain ⟨b, inside, rfl⟩ := List.mem_map.mp mem
    exact part b.1 (some b.1 (List.of_mem_zip inside).1)
  refine .ite (fun _ => .ok (h.bindAll apart (zipped _ fun _ => id) (zip_alike _ alike))) fun _ => ?_
  refine .ite (fun _ => .ok (h.bindAll apart (zipped _ fun v mem => ?_) (zip_alike _ alike))) fun _ => .error _ _
  rw [Pattern.names, Pattern.binders, List.map_append]
  exact List.mem_append_right _ mem

end ThreadAgrees

theorem result_follows {T : Env → Env → Prop} {vs : NameSet} {r : GroupResult} (launch : sim.Agree σ σ' vs)
    (threads : ∀ e e', T e e' → ∃ n n', sim.Agree ⟨e, n⟩ ⟨e', n'⟩ vs) (part : ∀ v ∈ r.free, v ∈ vs) :
    GroupKernel.ResultFollows both l T σ.env σ'.env r r := by
  have operand {x : Operand} (free : ∀ v ∈ x.free, v ∈ vs) (e e' : Env) (h : T e e') :
      Follows both (Value.Alike l) (e.operand x) (e'.operand x) := by
    obtain ⟨n, n', agree⟩ := threads e e' h
    exact agree.operand free
  cases r with
  | row value => exact .row (operand part)
  | write index value =>
    refine .write (fun e e' h => Env.word_follows (operand (fun v mem => part v ?_) e e' h))
      (operand fun v mem => part v ?_)
    · simp [GroupResult.free, mem]
    · simp [GroupResult.free, mem]
  | chunks division width perThread array =>
    refine .chunks division (Env.size_follows (launch.operand fun v mem => part v ?_))
      (Env.size_follows (launch.operand fun v mem => part v ?_)) fun e e' h => ?_
    · simp [GroupResult.free, mem]
    · simp [GroupResult.free, mem]
    · obtain ⟨n, n', agree⟩ := threads e e' h
      exact Env.array_follows (agree.lookup (part array (by simp [GroupResult.free])))

/-- Group kernels follow each other if their statements do. -/
theorem group_follows (laws : sim.Lawful) {k : GroupKernel} (nodup : (Kernel.group k).bound.Nodup)
    (agree : sim.Agree σ σ' (Kernel.group k).reads) (clean : sim.Clean σ σ' (Kernel.group k).bound)
    (safe : sim.SafeExp σ σ' (.launch (.group k)))
    (statements : ∀ (vs : NameSet) (groupSize : Nat) (threads threads' : List Env),
      (∀ v ∈ readsInGroup k.body.stms, v ∈ vs ∨ v ∈ k.ownNames) →
      (m = .strict → ThroughoutGroup sim.fine groupSize k.body.stms threads) →
      (m' = .strict → ThroughoutGroup sim.fine' groupSize k.body.stms threads') →
      List.Forall₂ (sim.ThreadAgrees (σ.notes.clear k.ownNames) (σ'.notes.clear k.ownNames) vs k.ownNames
        (k.body.stms.flatMap GroupStm.innerBound)) threads threads' →
      Follows both (List.Forall₂ (sim.ThreadAgrees (σ.notes.clear k.ownNames) (σ'.notes.clear k.ownNames) vs k.ownNames
        (k.body.stms.flatMap GroupStm.innerBound)))
        (runGroupStms m (σ.notes.clear k.ownNames) groupSize k.body.stms threads)
        (runGroupStms m' (σ'.notes.clear k.ownNames) groupSize k.body.stms threads')) :
    Follows both (ValuesAlike l) (m.group σ k >>= fun τ => k.run (runGroupStms m τ.notes · k.body.stms ·) τ.env)
      (m'.group σ' k >>= fun τ => k.run (runGroupStms m' τ.notes · k.body.stms ·) τ.env) := by
  have apart (v : Name) (mem : v ∈ k.body.stms.flatMap GroupStm.innerBound) : v ∉ k.ownNames :=
    GroupKernel.not_mem_ownNames nodup mem
  refine (laws.group (fun v own => clean v (GroupKernel.mem_bound_of_ownNames own)) agree).bind
    fun τ τ' entered entered' related => ?_
  obtain ⟨env, notes⟩ := τ
  obtain ⟨env', notes'⟩ := τ'
  obtain rfl : notes = σ.notes.clear k.ownNames := Mode.group_notes entered
  obtain rfl : notes' = σ'.notes.clear k.ownNames := Mode.group_notes entered'
  obtain ⟨own, shapes⟩ := related
  -- everything that is read at the launch or in a thread is a name that the kernel reads or one of its own
  let vs : NameSet := (Kernel.group k).reads ∪ readsInGroup k.body.stms ∪ NameSet.gather GroupResult.free k.body.result
  have known (v : Name) (mem : v ∈ vs ∨ v ∈ k.ownNames) :
      sim.rel (Store.cell ⟨env, σ.notes.clear k.ownNames⟩ v) (Store.cell ⟨env', σ'.notes.clear k.ownNames⟩ v) := by
    by_cases mine : v ∈ k.ownNames
    · exact own v mine
    · rw [Mode.group_frame entered mine, Mode.group_frame entered' mine]
      exact agree v (k.mem_reads (mem.resolve_right mine) mine)
  have launch : sim.Agree ⟨env, σ.notes.clear k.ownNames⟩ ⟨env', σ'.notes.clear k.ownNames⟩ vs := fun v mem => known v (.inl mem)
  have atLaunch (v : Name) (mem : v ∈ k.size.threads.free ∨ v ∈ k.size.groupSize.free ∨ v ∈ freeTypes k.returns) : v ∈ vs :=
    NameSet.mem_union.mpr (.inl (NameSet.mem_union.mpr (.inl (k.mem_reads_of_launch mem))))
  refine (Env.size_follows (launch.operand fun v mem => atLaunch v (.inl mem))).bind fun n _ counted counted' same => ?_
  subst same
  refine (Env.size_follows (launch.operand fun v mem => atLaunch v (.inr (.inl mem)))).bind fun g _ sized sized' same => ?_
  subst same
  have start : List.Forall₂ (sim.ThreadAgrees (σ.notes.clear k.ownNames) (σ'.notes.clear k.ownNames) vs k.ownNames
      (k.body.stms.flatMap GroupStm.innerBound))
      ((List.range n).map (GroupKernel.threadEnv k.space (max g 1) env))
      ((List.range n).map (GroupKernel.threadEnv k.space (max g 1) env')) := by
    refine List.forall₂_map_left_iff.mpr (List.forall₂_map_right_iff.mpr (List.forall₂_same.mpr fun t _ => ?_))
    have before : sim.ThreadAgrees (σ.notes.clear k.ownNames) (σ'.notes.clear k.ownNames) vs k.ownNames
        (k.body.stms.flatMap GroupStm.innerBound) env env' := by
      refine ⟨known, fun v mem => ?_⟩
      rw [Mode.group_frame entered (apart v mem), Mode.group_frame entered' (apart v mem)]
      exact clean v (GroupKernel.mem_bound_of_innerBound mem)
    refine before.bindAll apart (fun v mem => List.mem_append_left _ mem) ?_
    exact .cons ⟨rfl, count_alike _⟩ (.cons ⟨rfl, count_alike _⟩ (.cons ⟨rfl, count_alike _⟩ .nil))
  refine (statements vs (max g 1) _ _ (fun v mem => .inl ?_) (fun hm => ?_) (fun hm => ?_) start).bind
    fun final final' _ _ related => ?_
  · simp [vs, mem]
  · subst hm
    cases entered
    exact (safe.1 rfl).group counted sized
  · subst hm
    cases entered'
    exact (safe.2 rfl).group counted' sized'
  · refine GroupKernel.results_follow related (List.forall₂_same.mpr fun ty mem => ?_) (List.forall₂_same.mpr fun r mem => ?_)
    · exact ⟨rfl, shapes ty mem, Env.blank_follows (launch.type fun v free =>
        atLaunch v (.inr (.inr (NameSet.mem_gather.mpr ⟨ty, mem, free⟩))))⟩
    · exact result_follows launch (fun e e' h => ⟨_, _, h.reads fun v mem => .inl mem⟩)
        fun v free => NameSet.mem_union.mpr (.inr (NameSet.mem_gather.mpr ⟨r, mem, free⟩))

mutual

theorem exp_follows (laws : sim.Lawful) : ∀ (e : Exp) {σ σ' : Store} {pat : Pattern} {certs : List Name},
    e.isNested = true → e.bound.Nodup → sim.Agree σ σ' e.reads → sim.Clean σ σ' e.bound →
    sim.Fine σ σ' ⟨pat, certs, e⟩ → sim.SafeExp σ σ' e → Follows both (ValuesAlike l) (e.run m σ) (e.run m' σ')
  | .operand _, _, _, _, _, nested, _, _, _, _, _ | .binary .., _, _, _, _, nested, _, _, _, _, _
  | .compare .., _, _, _, _, nested, _, _, _, _, _ | .index .., _, _, _, _, nested, _, _, _, _, _
  | .update .., _, _, _, _, nested, _, _, _, _, _ | .iota .., _, _, _, _, nested, _, _, _, _, _
  | .replicate .., _, _, _, _, nested, _, _, _, _, _ | .reshape .., _, _, _, _, nested, _, _, _, _, _
  | .rearrange .., _, _, _, _, nested, _, _, _, _, _ | .copy _, _, _, _, _, nested, _, _, _, _, _
  | .alloc .., _, _, _, _, nested, _, _, _, _, _ => nomatch nested
  | .branch cond onTrue onFalse _, σ, σ', _, _, _, nodup, agree, clean, _, safe => by
    rw [Exp.bound, List.nodup_append] at nodup
    rw [Exp.run, Exp.run]
    have condition : Follows both (Value.Alike l) (σ.env.operand cond) (σ'.env.operand cond) :=
      agree.operand fun v mem => by simp [Exp.reads, mem]
    refine (Env.scalar_follows condition).bind fun c _ chosen chosen' same => ?_
    subst same
    match c with
    | .bool true =>
      refine body_follows laws onTrue nodup.1 (agree.mono fun v mem => by simp [Exp.reads, mem])
        (fun v mem => clean v (List.mem_append_left _ mem)) ⟨fun hm => ?_, fun hm => ?_⟩
      · exact safe.1 hm _ _ (.onTrue chosen)
      · exact safe.2 hm _ _ (.onTrue chosen')
    | .bool false =>
      refine body_follows laws onFalse nodup.2.1 (agree.mono fun v mem => by simp [Exp.reads, mem])
        (fun v mem => clean v (List.mem_append_right _ mem)) ⟨fun hm => ?_, fun hm => ?_⟩
      · exact safe.1 hm _ _ (.onFalse chosen)
      · exact safe.2 hm _ _ (.onFalse chosen')
    | .i32 _ | .i64 _ | .f32 _ | .f64 _ => exact .error _ _
  | .loop context values index bound body, σ, σ', _, _, _, nodup, agree, clean, _, safe => by
    rw [Exp.bound, List.nodup_append] at nodup
    rw [Exp.run, Exp.run]
    refine Follows.bind (?_ : Follows both (ValuesAlike l) _ _) fun init init' started started' alike => ?_
    · refine .mapM (List.forall₂_same.mpr fun p mem => agree.operand fun v free => ?_)
      simp only [Exp.reads, NameSet.mem_union]
      exact .inl (.inr (NameSet.mem_gather.mpr ⟨p.2, List.mem_map_of_mem mem, free⟩))
    refine (Env.word_follows (agree.operand fun v mem => by simp [Exp.reads, mem])).bind
      fun n _ counted counted' same => ?_
    subst same
    have complete : init.length = ((context ++ values).map (·.1.name)).length := by
      rw [List.length_map]
      exact (mapM_eq_ok.mp started).length_eq.symm
    refine loop_follows alike complete fun i now now' below done done' entered => ?_
    refine body_follows laws body nodup.2.1 (Agree.enter entered (agree.mono fun v mem => ?_)) (Clean.enter entered ?_ ?_)
      ⟨fun hm => ?_, fun hm => ?_⟩
    · simp only [Exp.reads, NameSet.mem_union]
      exact .inl (.inl mem)
    · exact fun v mem => clean v (List.mem_append_right _ mem)
    · exact fun v mem param => nodup.2.2 v param v mem rfl
    · subst hm
      simp only [Body.run_strict] at done
      exact safe.1 rfl _ _ (.round started counted below done)
    · subst hm
      simp only [Body.run_strict] at done'
      exact safe.2 rfl _ _ (.round started' counted' below done')
  | .launch kernel, σ, σ', _, _, _, nodup, agree, clean, fine, safe =>
    kernel_follows laws kernel nodup agree clean fine safe

theorem stms_follow (laws : sim.Lawful) : ∀ (stms : List Stm) {σ σ' : Store} {result : List Operand},
    (boundInStms stms).Nodup → sim.Agree σ σ' (readsBefore (freeOperands result) stms) →
    sim.Clean σ σ' (boundInStms stms) → sim.Safe σ σ' ⟨stms, result⟩ →
    Follows both (fun τ τ' => sim.Agree τ τ' (freeOperands result)) (runStms m σ stms) (runStms m' σ' stms)
  | [], σ, σ', result, _, agree, _, _ => .ok agree
  | ⟨pat, certs, e⟩ :: stms, σ, σ', result, nodup, agree, clean, safe => by
    rw [boundInStms, List.append_assoc, List.nodup_append] at nodup
    obtain ⟨_, nodup, apart⟩ := nodup
    rw [List.nodup_append] at nodup
    have fine : sim.Fine σ σ' ⟨pat, certs, e⟩ := ⟨fun hm => (safe.1 hm).first, fun hm => (safe.2 hm).first⟩
    have cleanPat : sim.Clean σ σ' pat.names := fun v mem => clean v (by simp [boundInStms, mem])
    have agreeExp : sim.Agree σ σ' e.reads := agree.mono fun v mem => by simp [readsBefore, mem]
    have first : Follows both (sim.Binds pat) (m.settle σ pat e (e.run m σ)) (m'.settle σ' pat e (e.run m' σ')) := by
      cases nested : e.isNested with
      | true =>
        refine laws.nested nested fine cleanPat ?_
        exact exp_follows laws e nested nodup.1 agreeExp (fun v mem => clean v (by simp [boundInStms, mem])) fine
          ⟨fun hm => (safe.1 hm).inside, fun hm => (safe.2 hm).inside⟩
      | false =>
        rw [e.run_leaf nested, e.run_leaf nested]
        exact laws.leaf nested fine cleanPat (e.reads_leaf nested ▸ agreeExp)
    rw [runStms, runStms]
    refine first.bind fun τ τ' ran ran' binds => stms_follow laws stms nodup.2.1 (fun v mem => ?_) (fun v mem => ?_)
      ⟨fun hm => ?_, fun hm => ?_⟩
    · by_cases bound : v ∈ pat.names
      · exact binds v bound
      · rw [Mode.settle_frame ran bound, Mode.settle_frame ran' bound]
        exact agree v (by simp [readsBefore, mem, bound])
    · have other : v ∉ pat.names := fun bound => apart v bound v (List.mem_append_right _ mem) rfl
      rw [Mode.settle_frame ran other, Mode.settle_frame ran' other]
      exact clean v (by simp [boundInStms, mem])
    · subst hm
      exact (safe.1 rfl).rest (Mode.evalStms_of_settle certs ran)
    · subst hm
      exact (safe.2 rfl).rest (Mode.evalStms_of_settle certs ran')

theorem body_follows (laws : sim.Lawful) : ∀ (body : Body) {σ σ' : Store}, body.bound.Nodup → sim.Agree σ σ' body.reads →
    sim.Clean σ σ' body.bound → sim.Safe σ σ' body → Follows both (ValuesAlike l) (body.run m σ) (body.run m' σ')
  | ⟨stms, result⟩, σ, σ', nodup, agree, clean, safe => by
    rw [Body.run, Body.run]
    refine (stms_follow laws stms nodup agree clean safe).bind fun τ τ' _ _ agree => ?_
    exact Env.operands_follow (agree.operands fun v mem => mem)

theorem lambda_follows (laws : sim.Lawful) : ∀ (op : Lambda) {σ σ' : Store} {args args' : List Value}, op.bound.Nodup →
    sim.Agree σ σ' op.reads → sim.Clean σ σ' op.bound → ValuesAlike l args args' →
    (m = .strict → ∀ thread, σ.env.bindParams op.params args = .ok thread → Throughout sim.fine thread op.body) →
    (m' = .strict → ∀ thread, σ'.env.bindParams op.params args' = .ok thread → Throughout sim.fine' thread op.body) →
    Follows both (ValuesAlike l) (op.run m σ args) (op.run m' σ' args')
  | ⟨params, body, _⟩, σ, σ', args, args', nodup, agree, clean, alike, left, right => by
    rw [Lambda.bound, List.nodup_append] at nodup
    rw [Lambda.run, Lambda.run]
    refine (bindParams_follows alike).bind fun e e' bound bound' entered => ?_
    refine body_follows laws body nodup.2.1 (agree.enter entered) (Clean.enter entered ?_ ?_)
      ⟨fun hm => left hm e bound, fun hm => right hm e' bound'⟩
    · exact fun v mem => clean v (List.mem_append_right _ mem)
    · exact fun v mem param => nodup.2.2 v param v mem rfl

theorem kernel_follows (laws : sim.Lawful) : ∀ (k : Kernel) {σ σ' : Store} {pat : Pattern} {certs : List Name},
    k.bound.Nodup → sim.Agree σ σ' k.reads → sim.Clean σ σ' k.bound → sim.Fine σ σ' ⟨pat, certs, .launch k⟩ →
    sim.SafeExp σ σ' (.launch k) → Follows both (ValuesAlike l) (k.run m σ) (k.run m' σ')
  | .map k@⟨_, _, _, _, _, _, body⟩, σ, σ', _, _, nodup, agree, clean, fine, safe => by
    rw [Kernel.bound, List.nodup_append] at nodup
    rw [Kernel.run, Kernel.run]
    refine laws.map fine agree (fun hm => ?_) fun e e' fed fed' entered => ?_
    · subst hm
      simp only [Body.run_strict]
      rfl
    refine body_follows laws body nodup.2.1 (Agree.enter entered (agree.mono fun v mem => ?_)) (Clean.enter entered ?_ ?_)
      ⟨fun hm => ?_, fun hm => ?_⟩
    · simp only [Kernel.reads, NameSet.mem_union]
      exact .inl (.inr mem)
    · exact fun v mem => clean v (List.mem_append_right _ mem)
    · exact fun v mem param => nodup.2.2 v param v mem rfl
    · subst hm
      have ran := fed rfl
      simp only [Body.run_strict] at ran
      exact safe.1 rfl _ _ (.map ran)
    · subst hm
      have ran := fed' rfl
      simp only [Body.run_strict] at ran
      exact safe.2 rfl _ _ (.map ran)
  | .scan k@⟨_, _, _, _, fold, _, _⟩, σ, σ', _, _, nodup, agree, clean, _, safe => by
    rw [Kernel.bound, List.nodup_append] at nodup
    rw [Kernel.run, Kernel.run]
    refine ScanKernel.run_follows (Env.size_follows (agree.operand fun v mem => by simp [Kernel.reads, mem]))
      (Env.arrays_follow (agree.lookups fun v mem => by simp [Kernel.reads, mem]))
      (agree.operands fun v mem => by simp [Kernel.reads, mem]) fun args args' fed fed' alike => ?_
    refine lambda_follows laws fold nodup.2.1 (agree.mono fun v mem => by simp [Kernel.reads, mem])
      (fun v mem => clean v (List.mem_append_right _ mem)) alike (fun hm thread bound => ?_) fun hm thread bound => ?_
    · subst hm
      simp only [Lambda.run_strict] at fed
      exact safe.1 rfl _ _ (.scan fed bound)
    · subst hm
      simp only [Lambda.run_strict] at fed'
      exact safe.2 rfl _ _ (.scan fed' bound)
  | .chunked k@⟨_, _, _, _, op, _⟩, σ, σ', _, _, nodup, agree, clean, _, safe => by
    rw [Kernel.run, Kernel.run]
    have params : sim.Clean σ σ' (op.params.map Binder.name) := fun v mem => clean v (op.mem_bound_of_params mem)
    refine laws.chunked params agree fun args args' fed fed' alike => ?_
    refine lambda_follows laws op nodup (agree.mono fun v mem => by simp [Kernel.reads, mem]) clean alike
      (fun hm thread bound => ?_) fun hm thread bound => ?_
    · subst hm
      have ran := fed rfl
      simp only [Lambda.run_strict] at ran
      exact safe.1 rfl _ _ (.chunked ran bound)
    · subst hm
      have ran := fed' rfl
      simp only [Lambda.run_strict] at ran
      exact safe.2 rfl _ _ (.chunked ran bound)
  | .scatter k@⟨_, _, op, _, dests⟩, σ, σ', _, _, nodup, agree, clean, _, safe => by
    rw [Kernel.run, Kernel.run]
    refine ScatterKernel.run_follows (Env.size_follows (agree.operand fun v mem => by simp [Kernel.reads, mem]))
      (Env.arrays_follow (agree.lookups fun v mem => by simp [Kernel.reads, mem])) ?_ fun args args' fed fed' alike => ?_
    · refine .mapM (List.forall₂_same.mpr fun d mem => Env.array_follows (agree.lookup ?_))
      simp only [Kernel.reads, NameSet.mem_union]
      exact .inl (.inr (NameSet.mem_ofList.mpr (List.mem_map_of_mem mem)))
    refine lambda_follows laws op nodup (agree.mono fun v mem => by simp [Kernel.reads, mem]) clean alike
      (fun hm thread bound => ?_) fun hm thread bound => ?_
    · subst hm
      simp only [Lambda.run_strict] at fed
      exact safe.1 rfl _ _ (.scatter fed bound)
    · subst hm
      simp only [Lambda.run_strict] at fed'
      exact safe.2 rfl _ _ (.scatter fed' bound)
  | .group ⟨_, _, _, _, ⟨stms, _⟩⟩, σ, σ', _, _, nodup, agree, clean, _, safe => by
    refine group_follows laws nodup agree clean safe fun vs groupSize threads threads' reads left right related => ?_
    refine groupStms_follow laws stms ?_ (fun v mem => GroupKernel.not_mem_ownNames nodup mem) reads
      (fun v mem => List.mem_append_right _ mem) (fun v mem => mem) left right related
    rw [Kernel.bound, List.nodup_append] at nodup
    exact nodup.2.1
  | .numGroups, _, _, _, _, _, _, _, _, _ => .error _ _
  | .groupSize, _, _, _, _, _, _, _, _, _ => .error _ _

theorem groupStms_follow (laws : sim.Lawful) : ∀ (stms : List GroupStm) {notes notes' : Notes} {vs : NameSet}
    {own inner : List Name} {groupSize : Nat} {threads threads' : List Env},
    (boundInGroupStms stms).Nodup → (∀ v ∈ inner, v ∉ own) → (∀ v ∈ readsInGroup stms, v ∈ vs ∨ v ∈ own) →
    (∀ v ∈ stms.flatMap GroupStm.names, v ∈ own) → (∀ v ∈ stms.flatMap GroupStm.innerBound, v ∈ inner) →
    (m = .strict → ThroughoutGroup sim.fine groupSize stms threads) →
    (m' = .strict → ThroughoutGroup sim.fine' groupSize stms threads') →
    List.Forall₂ (sim.ThreadAgrees (notes.clear own) (notes'.clear own) vs own inner) threads threads' →
    Follows both (List.Forall₂ (sim.ThreadAgrees (notes.clear own) (notes'.clear own) vs own inner))
      (runGroupStms m (notes.clear own) groupSize stms threads) (runGroupStms m' (notes'.clear own) groupSize stms threads')
  | [], _, _, _, _, _, _, _, _, _, _, _, _, _, _, _, related => .ok related
  | .split size chunks division width perThread arrays :: stms, notes, notes', vs, own, inner, groupSize, threads, threads',
      nodup, apart, reads, named, bound, left, right, related => by
    rw [runGroupStms, runGroupStms]
    refine Follows.bind (?_ : Follows both
      (List.Forall₂ (sim.ThreadAgrees (notes.clear own) (notes'.clear own) vs own inner)) _ _) fun next next' ran ran' related => ?_
    · refine .mapM ((forall₂_zipIdx related 0).imp fun et et' h => ?_)
      have agree := h.1.reads fun v mem => reads v (mem_readsInGroup_cons.mpr (.inl mem))
      rw [h.2, related.length_eq]
      refine GroupKernel.split_follows et'.2 (Env.size_follows (agree.operand fun v mem => ?_))
        (Env.size_follows (agree.operand fun v mem => ?_)) rfl rfl (agree.lookups fun v mem => ?_)
        fun bs bs' part alike => h.1.bindAll apart (fun v mem => named v ?_) alike
      · simp [GroupStm.reads, mem]
      · simp [GroupStm.reads, mem]
      · simp [GroupStm.reads, mem]
      · exact List.mem_flatMap.mpr ⟨_, List.mem_cons_self, part v mem⟩
    · refine groupStms_follow laws stms (nodup_of_boundInGroupStms nodup).2 apart
        (fun v mem => reads v (mem_readsInGroup_cons.mpr (.inr mem))) (fun v mem => named v (by simp [mem]))
        (fun v mem => bound v (by simp [mem])) (fun hm => ?_) (fun hm => ?_) related
      · exact (left hm).rest (by rw [evalGroupStms, ran]; rfl)
      · exact (right hm).rest (by rw [evalGroupStms, ran']; rfl)
  | .thread pat only body :: stms, notes, notes', vs, own, inner, groupSize, threads, threads',
      nodup, apart, reads, named, bound, left, right, related => by
    rw [runGroupStms, runGroupStms]
    refine Follows.bind (?_ : Follows both
      (List.Forall₂ (sim.ThreadAgrees (notes.clear own) (notes'.clear own) vs own inner)) _ _) fun next next' ran ran' related => ?_
    · refine GroupKernel.thread_follows related (fun e e' t h => ?_) (fun e e' fed fed' h => ?_) (fun e e' t h _ => ?_)
        fun e e' values values' h alike => h.bindValues apart (fun v mem => named v (by simp [GroupStm.names, mem])) alike
      · have agree := h.reads fun v mem => reads v (mem_readsInGroup_cons.mpr (.inl mem))
        cases only with
        | none => exact .ok rfl
        | some lane =>
          refine GroupKernel.active_follows groupSize t (Env.size_follows (agree.operand fun v mem => ?_))
          simp [GroupStm.reads, freeOperands, mem]
      · have agree := h.reads fun v mem => reads v (mem_readsInGroup_cons.mpr (.inl mem))
        refine body_follows laws body (nodup_of_boundInGroupStms nodup).1
          (agree.mono fun v mem => by simp [GroupStm.reads, mem])
          (fun v mem => h.clean v (bound v (by simp [GroupStm.innerBound, mem]))) ⟨fun hm => ?_, fun hm => ?_⟩
        · subst hm
          simp only [Body.run_strict] at fed
          exact ((left rfl) [] stms threads rfl).1 pat only body e rfl fed
        · subst hm
          simp only [Body.run_strict] at fed'
          exact ((right rfl) [] stms threads' rfl).1 pat only body e' rfl fed'
      · have agree := h.reads fun v mem => reads v (mem_readsInGroup_cons.mpr (.inl mem))
        refine .mapM (List.forall₂_same.mpr fun b mem => Env.blank_follows (agree.type fun v free => ?_))
        simp only [GroupStm.reads, NameSet.mem_union, NameSet.mem_gather]
        exact .inl (.inr ⟨b, mem, free⟩)
    · refine groupStms_follow laws stms (nodup_of_boundInGroupStms nodup).2 apart
        (fun v mem => reads v (mem_readsInGroup_cons.mpr (.inr mem))) (fun v mem => named v (by simp [mem]))
        (fun v mem => bound v (by simp [mem])) (fun hm => ?_) (fun hm => ?_) related
      · subst hm
        simp only [Body.run_strict] at ran
        exact (left rfl).rest (by rw [evalGroupStms, ran]; rfl)
      · subst hm
        simp only [Body.run_strict] at ran'
        exact (right rfl).rest (by rw [evalGroupStms, ran']; rfl)
  | .reduce pat width op inputs :: stms, notes, notes', vs, own, inner, groupSize, threads, threads',
      nodup, apart, reads, named, bound, left, right, related => by
    rw [runGroupStms, runGroupStms]
    refine Follows.bind (?_ : Follows both
      (List.Forall₂ (sim.ThreadAgrees (notes.clear own) (notes'.clear own) vs own inner)) _ _) fun next next' ran ran' related => ?_
    · refine GroupKernel.reduce_follows related (fun e e' h => ?_) (fun e e' h => ?_)
        (fun e e' args args' fed fed' h alike => ?_)
        fun e e' values values' h alike => h.bindValues apart (fun v mem => named v (by simp [GroupStm.names, mem])) alike
      · have agree := h.reads fun v mem => reads v (mem_readsInGroup_cons.mpr (.inl mem))
        exact Env.size_follows (agree.operand fun v mem => by simp [GroupStm.reads, mem])
      · have agree := h.reads fun v mem => reads v (mem_readsInGroup_cons.mpr (.inl mem))
        refine List.forall₂_same.mpr fun i mem => ⟨agree.operand fun v free => ?_, agree.lookup ?_⟩
        · simp only [GroupStm.reads, NameSet.mem_union, NameSet.mem_gather]
          exact .inl (.inr ⟨i, mem, .inl free⟩)
        · simp only [GroupStm.reads, NameSet.mem_union, NameSet.mem_gather]
          exact .inl (.inr ⟨i, mem, .inr (NameSet.mem_singleton.mpr rfl)⟩)
      · have agree := h.reads fun v mem => reads v (mem_readsInGroup_cons.mpr (.inl mem))
        refine lambda_follows laws op (nodup_of_boundInGroupStms nodup).1
          (agree.mono fun v mem => by simp [GroupStm.reads, mem])
          (fun v mem => h.clean v (bound v (by simp [GroupStm.innerBound, mem]))) alike
          (fun hm thread entered => ?_) fun hm thread entered => ?_
        · subst hm
          simp only [Lambda.run_strict] at fed
          exact ((left rfl) [] stms threads rfl).2 pat width op inputs e args thread rfl fed entered
        · subst hm
          simp only [Lambda.run_strict] at fed'
          exact ((right rfl) [] stms threads' rfl).2 pat width op inputs e' args' thread rfl fed' entered
    · refine groupStms_follow laws stms (nodup_of_boundInGroupStms nodup).2 apart
        (fun v mem => reads v (mem_readsInGroup_cons.mpr (.inr mem))) (fun v mem => named v (by simp [mem]))
        (fun v mem => bound v (by simp [mem])) (fun hm => ?_) (fun hm => ?_) related
      · subst hm
        simp only [Lambda.run_strict] at ran
        exact (left rfl).rest (by rw [evalGroupStms, ran]; rfl)
      · subst hm
        simp only [Lambda.run_strict] at ran'
        exact (right rfl).rest (by rw [evalGroupStms, ran']; rfl)

end

end Simulation

end ArrayKernels
