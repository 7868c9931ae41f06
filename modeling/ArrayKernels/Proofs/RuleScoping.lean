import ArrayKernels.Proofs.Moves
import ArrayKernels.Proofs.Resolving
import ArrayKernels.Proofs.RuleCases

/-! The rules keep code in scope. What a rule puts in the place of a statement is in scope there and binds the names of
the statement; its other binders were in the statement, or were drawn. -/
namespace ArrayKernels

variable {S : Scope} {table : SymbolTable} {stm : Stm} {names names' : NameSupply} {new : List Stm} {n n' : Nat}

/-- What the rule gives for a statement in scope takes its place. -/
def TopDownRule.Scoping (rule : TopDownRule) : Prop :=
  ∀ {table stm names new names'} {S : Scope}, rule table stm names = some (new, names') → table.Within S →
    Fits S names.next stm.bound → stm.Scoped S →
    Moves S names.next names'.next stm.bound new [] fun T => ∀ v ∈ stm.pat.names, T v

/-- What the rule gives for a statement in scope takes its place, for what is used. -/
def BottomUpRule.Scoping (rule : BottomUpRule) : Prop :=
  ∀ {table usage stm names new names'} {S : Scope}, rule table usage stm names = some (new, names') →
    Fits S names.next stm.bound → stm.Scoped S →
    Moves S names.next names'.next stm.bound new [] fun T => ∀ v ∈ stm.pat.names, usage.isUsed v = true → T v

/-! Single statements -/

/-- A statement around an expression stands behind what has left the expression. -/
theorem Moves.ofExp (hoisted : List Stm) {bound : List Name} {pat : Pattern} {certs : List Name} {exp : Exp}
    (h : Moves S n n' bound hoisted exp.bound exp.Scoped) (certified : InScope S (freeNames certs)) (typed : pat.Scoped S) :
    Moves S n n' (pat.names ++ bound) (hoisted ++ [⟨pat, certs, exp⟩]) [] fun T => ∀ v ∈ pat.names, T v where
  grows := h.grows
  counts v := by
    have inner := h.counts v
    simp only [boundInStms_append, boundInStms, List.count_append, List.count_nil] at inner ⊢
    omega
  before := by
    refine stmsScoped_append.mpr ⟨h.before, ⟨certified.mono fun _ => .inl, typed.mono fun _ => .inl, h.after _ fun _ mem => mem⟩, ?_⟩
    exact InScope.empty
  after T part v mem := part v (.inr (by simp [stmNames, mem]))

theorem Moves.withKernel {k : Kernel} (within : stm.Scoped S) (h : Moves S n n' stm.exp.bound [] k.bound k.Scoped) :
    Moves S n n' stm.bound [stm.withKernel k] [] fun T => ∀ v ∈ stm.pat.names, T v :=
  Moves.ofExp [] (h : Moves S n n' stm.exp.bound [] (Exp.launch k).bound (Exp.launch k).Scoped) within.1 within.2.1

/-- A new binding of an expression without bodies. -/
theorem Moves.leaf {b : Binder} {certs : List Name} {exp : Exp} (leaf : exp.isNested = false) (certified : InScope S (freeNames certs))
    (typed : InScope S b.free) (computed : InScope S exp.free) :
    Moves S n n [b.name] [⟨⟨[], [b]⟩, certs, exp⟩] [] fun T => T b.name := by
  have inside : exp.Scoped S := (Exp.scoped_iff_of_leaf leaf).mpr computed
  have pattern : (⟨[], [b]⟩ : Pattern).Scoped S := by
    refine ⟨trivial, fun b' mem => ?_⟩
    obtain rfl := List.mem_singleton.mp mem
    exact typed.mono fun _ => .inl
  have moves := Moves.ofExp [] (n := n) (.stay exp.bound fun T more => inside.mono more) certified pattern
  rw [Exp.bound_of_leaf leaf] at moves
  exact moves.imp fun T _ all => all _ List.mem_cons_self

theorem Moves.single {name : Name} {ty : Ty} {certs : List Name} {exp : Exp} (leaf : exp.isNested = false)
    (certified : InScope S (freeNames certs)) (typed : InScope S ty.free) (computed : InScope S exp.free) :
    Moves S n n [name] [⟨.single name ty, certs, exp⟩] [] fun T => T name :=
  Moves.leaf (b := ⟨name, ty, none⟩) leaf certified (InScope.union_iff.mpr ⟨typed, InScope.empty⟩) computed

/-- Some of the binders are drawn. -/
theorem Moves.draw (fresh : List Name) {bound bound' : List Name} {stms : List Stm} {rest : Scope → Prop}
    (h : Moves S n n (fresh ++ bound) stms bound' rest) (grows : n ≤ n') (drew : ∀ v, fresh.count v ≤ drawn n n' v) :
    Moves S n n' bound stms bound' rest := by
  refine { h with grows, counts := fun v => ?_ }
  have counts := h.counts v
  have once := drew v
  rw [drawn_self, List.count_append] at counts
  omega

theorem Moves.drawOne {base : String} {bound bound' : List Name} {stms : List Stm} {rest : Scope → Prop}
    (h : Moves S n n (⟨base, n⟩ :: bound) stms bound' rest) : Moves S n (n + 1) bound stms bound' rest :=
  draw [⟨base, n⟩] h (Nat.le_succ n) (drawn_succ base n)

/-! Inputs of map kernels -/

theorem dropUnusedInputs_scoping : TopDownRule.Scoping dropUnusedInputs := by
  intro table stm names new names' S applied _ fits within
  obtain ⟨k, launched, _, rfl, rfl⟩ := dropUnusedInputs_eq_some applied
  have binders : Fits S names'.next (k.threadNames ++ k.body.bound) := by
    rw [← Kernel.bound_map, ← Exp.bound, ← launched]
    exact fits.right
  obtain ⟨operands, inputs, body⟩ := (Kernel.scoped_map k).mp (launched ▸ within.2.2 : (Exp.launch (.map k)).Scoped S)
  refine Moves.withKernel within ?_
  rw [launched, Exp.bound, Kernel.bound_map, Kernel.bound_map]
  refine .inPlace (Nat.le_refl _) (fun v => ?_) fun T more => Kernel.Scoped.mono more ?_
  · have fewer : ((k.inputs.filter fun i => i.param.name ∈ k.body.free).map fun i => i.param.name).count v ≤
        (k.inputs.map fun i => i.param.name).count v := (List.filter_sublist.map _).count_le v
    simp only [MapKernel.threadNames_eq, MapKernel.placeNames, List.count_append]
    omega
  · refine (Kernel.scoped_map _).mpr ⟨operands, fun i mem => inputs i (List.mem_filter.mp mem).1, ?_⟩
    -- an input that is dropped is not free in the body, and the body does not bind it
    refine Body.Scoped.narrow k.body (fun v mem mentioned => ?_) body
    rcases mem with visible | own
    · exact .inl visible
    · rcases mentioned with free | binds
      · refine .inr ?_
        rw [MapKernel.threadNames_eq, List.mem_append] at own ⊢
        refine own.imp_right fun input => ?_
        obtain ⟨i, among, rfl⟩ := List.mem_map.mp input
        exact List.mem_map_of_mem (List.mem_filter.mpr ⟨among, decide_eq_true free⟩)
      · exact absurd (.inr own) (binders.enter.apart v binds)

/-- The bindings that compute an input are in scope where the input was. -/
theorem inlineInput_moves {consumed : Bool} {input : MapInput} {stms : List Stm}
    (h : inlineInput table consumed input names = some (stms, names')) (known : table.Within S) (inside : InScope S input.free) :
    Moves S names.next names'.next [input.param.name] stms [] fun T => T input.param.name := by
  rw [MapInput.free, InScope.union_iff, InScope.union_iff, Binder.free, InScope.union_iff] at inside
  obtain ⟨⟨array, indices⟩, typed, _⟩ := inside
  obtain ⟨d, e, defined, leaf, leaf', free, rfl, rfl⟩ | ⟨count, start, stride, i, defined, only, rfl, rfl⟩ := inlineInput_eq_some h
  · refine Moves.single leaf' InScope.empty typed fun v mem => ?_
    exact (free v mem).elim ((known _ d defined leaf).2 v) (indices v)
  · obtain ⟨_, operands⟩ := known _ _ defined rfl
    simp only [Exp.free, InScope.union_iff] at operands
    rw [only, freeOperands, InScope.gather_iff] at indices
    have index : InScope S i.free := indices i List.mem_cons_self
    have offset : Moves S names.next (names.next + 1) []
        [.ofWord (names.fresh "iota_offset").1 (.binary .mul i stride)] [] fun T => T (names.fresh "iota_offset").1 :=
      Moves.drawOne (.single rfl InScope.empty InScope.empty (InScope.union_iff.mpr ⟨index, operands.2⟩))
    refine (offset.next (.single rfl InScope.empty (typed.mono fun _ => .inl) ?_)).imp fun T _ both => both.2
    refine InScope.union_iff.mpr ⟨operands.1.2.mono fun _ => .inl, InScope.singleton_iff.mpr (.inr List.mem_cons_self)⟩

theorem inlineEach_moves {consumed : NameSet} {inputs kept : List MapInput} {stms : List Stm}
    (h : inlineEach table consumed inputs names = (stms, kept, names')) (known : table.Within S)
    (inside : ∀ i ∈ inputs, InScope S i.free) :
    Moves S names.next names'.next (inputs.map fun i => i.param.name) stms (kept.map fun i => i.param.name)
      fun T => (∀ i ∈ kept, i ∈ inputs) ∧ ∀ v ∈ inputs.map fun i => i.param.name, T v ∨ v ∈ kept.map fun i => i.param.name := by
  induction inputs generalizing names stms kept with
  | nil =>
    cases h
    exact .stay [] fun _ _ => ⟨fun _ mem => mem, fun _ mem => nomatch mem⟩
  | cons input inputs ih =>
    rw [inlineEach] at h
    have later : ∀ i ∈ inputs, InScope S i.free := fun i mem => inside i (List.mem_cons_of_mem _ mem)
    split at h
    · rename_i now names₁ inlined
      rcases made : inlineEach table consumed inputs names₁ with ⟨more, others, names₂⟩
      rw [made] at h
      cases h
      refine ((inlineInput_moves inlined known (inside input List.mem_cons_self)).append (ih made later)).imp fun T _ both => ?_
      refine ⟨fun i mem => List.mem_cons_of_mem _ (both.2.1 i mem), fun v mem => ?_⟩
      rcases List.mem_cons.mp mem with rfl | mem
      · exact .inl both.1
      · exact both.2.2 v mem
    · rcases made : inlineEach table consumed inputs names with ⟨more, others, names₂⟩
      rw [made] at h
      cases h
      refine ((ih made later).under [input.param.name]).imp fun T _ both => ?_
      constructor
      · intro i mem
        rcases List.mem_cons.mp mem with rfl | mem
        · exact List.mem_cons_self
        · exact List.mem_cons_of_mem _ (both.1 i mem)
      · intro v mem
        rcases List.mem_cons.mp mem with rfl | mem
        · exact .inr List.mem_cons_self
        · exact (both.2 v mem).imp_right (List.mem_cons_of_mem _)

theorem inlineInputs_scoping : TopDownRule.Scoping inlineInputs := by
  intro table stm names new names' S applied known fits within
  obtain ⟨k, stms, kept, launched, made, _, rfl⟩ := inlineInputs_eq_some applied
  obtain ⟨operands, inputs, body⟩ := (Kernel.scoped_map k).mp (launched ▸ within.2.2 : (Exp.launch (.map k)).Scoped S)
  have moves := inlineEach_moves made (known.mono fun _ => .inl) inputs
  obtain ⟨part, covered⟩ := moves.after _ fun _ mem => mem
  refine Moves.withKernel within ?_
  rw [launched, Exp.bound, Kernel.bound_map, Kernel.bound_map, MapKernel.threadNames_eq, MapKernel.threadNames_eq]
  refine .inPlace moves.grows (fun v => ?_) fun T more => Kernel.Scoped.mono more ?_
  · have counts := moves.counts v
    simp only [MapKernel.placeNames, Body.bound_eq, boundInStms_append, List.count_append] at counts ⊢
    omega
  · refine (Kernel.scoped_map _).mpr ⟨operands, fun i mem => inputs i (part i mem), ?_⟩
    rw [Body.scoped_iff] at body ⊢
    -- the body stands behind the bindings of the inputs that are gone
    refine stmsScoped_append.mpr ⟨moves.before.mono fun v mem => ?_, body.mono fun v mem => ?_⟩
    · exact mem.imp_right (List.mem_append_left _)
    · rcases mem with visible | own
      · exact .inl (.inl visible)
      · rcases List.mem_append.mp own with place | input
        · exact .inl (.inr (List.mem_append_left _ place))
        · rcases covered v input with ((visible | place) | named) | stays
          · exact .inl (.inl visible)
          · exact .inl (.inr (List.mem_append_left _ place))
          · exact .inr named
          · exact .inl (.inr (List.mem_append_right _ stays))

/-! Outputs of map kernels -/

theorem pick_sublist {α : Type} (flags : List Bool) (xs : List α) : (pick flags xs).Sublist xs := by
  induction flags generalizing xs with
  | nil => simp [pick]
  | cons flag flags ih =>
    cases xs with
    | nil => simp [pick]
    | cons x xs =>
      have later := ih xs
      cases flag with
      | true => simpa [pick] using later
      | false => simpa [pick] using later.cons x

/-- The elements that are flagged and those that are not. -/
theorem pick_perm {α : Type} {flags : List Bool} {xs : List α} (matched : flags.length = xs.length) :
    (pick flags xs ++ pick (flags.map (!·)) xs).Perm xs := by
  induction flags generalizing xs with
  | nil =>
    obtain rfl := List.eq_nil_of_length_eq_zero matched.symm
    exact .nil
  | cons flag flags ih =>
    cases xs with
    | nil => cases matched
    | cons x xs =>
      have later := ih (Nat.succ.inj matched)
      cases flag with
      | true => simpa [pick] using later.cons x
      | false => simpa [pick] using List.perm_middle.trans (later.cons x)

theorem pick_map {α : Type} (p : α → Bool) (xs : List α) : pick (xs.map p) xs = xs.filter p := by
  induction xs with
  | nil => rfl
  | cons x xs ih =>
    have later : pick (p x :: xs.map p) (x :: xs) = if p x then x :: pick (xs.map p) xs else pick (xs.map p) xs := by
      cases flag : p x <;> simp [pick]
    rw [List.map_cons, later, ih, List.filter_cons]

/-- The kernel statement with some of its outputs. -/
theorem keepOutputs_moves {k : MapKernel} (flags : List Bool) (launched : stm.exp = .launch (.map k))
    (context : stm.pat.context = []) (within : stm.Scoped S) :
    Moves S n n ((pick flags stm.pat.values).map Binder.name ++ stm.exp.bound) [keepOutputs flags stm k] []
      fun T => ∀ v ∈ (pick flags stm.pat.values).map Binder.name, T v := by
  obtain ⟨certified, typed, inside⟩ := within
  rw [launched] at inside
  obtain ⟨operands, inputs, body⟩ := (Kernel.scoped_map k).mp inside
  have pattern : ({ stm.pat with values := pick flags stm.pat.values } : Pattern).Scoped S :=
    ⟨typed.1, fun b mem => typed.2 b ((pick_sublist _ _).subset mem)⟩
  have named : ({ stm.pat with values := pick flags stm.pat.values } : Pattern).names = (pick flags stm.pat.values).map Binder.name := by
    simp only [Pattern.names, Pattern.binders, context, List.nil_append]
  rw [← named]
  refine Moves.ofExp [] ?_ certified pattern
  rw [launched, Exp.bound, Exp.bound, Kernel.bound_map, Kernel.bound_map, Body.bound_eq, Body.bound_eq]
  refine .stay _ fun T more => Kernel.Scoped.mono more ((Kernel.scoped_map _).mpr ⟨?_, inputs, ?_⟩)
  · simp only [InScope.union_iff, freeTypes, InScope.gather_iff] at operands ⊢
    refine ⟨operands.1, fun ty mem => operands.2 ty ?_⟩
    exact ((pick_sublist _ _).map _).subset mem
  · rw [Body.scoped_iff, stmsScoped_iff] at body ⊢
    refine ⟨body.1, body.2.part fun v mem => ?_⟩
    obtain ⟨x, among, free⟩ := NameSet.mem_gather.mp mem
    exact NameSet.mem_gather.mpr ⟨x, (pick_sublist _ _).subset among, free⟩

theorem Ty.inScope_shape {ty : Ty} (inside : InScope S ty.free) : InScope S (freeOperands ty.shape) := by
  cases ty with
  | scalar e => exact InScope.empty
  | array e shape unique => exact inside
  | mem size space => exact InScope.empty

theorem Ty.inScope_addDims {ty : Ty} {outer : List Operand} (dims : InScope S (freeOperands outer)) (inside : InScope S ty.free) :
    InScope S (ty.addDims outer).free := by
  cases ty with
  | scalar e =>
    cases outer with
    | nil => exact InScope.empty
    | cons x xs => exact dims
  | array e shape unique =>
    simp only [Ty.addDims, Ty.free, freeOperands, InScope.gather_iff, List.mem_append] at dims inside ⊢
    exact fun x mem => mem.elim (dims x) (inside x)
  | mem size space => exact inside

theorem Ty.inScope_dims {ty : Ty} {outer : List Operand} (dims : InScope S (freeOperands outer)) (inside : InScope S ty.free) :
    InScope S (freeOperands (outer ++ ty.shape)) := by
  have rows := Ty.inScope_shape inside
  simp only [freeOperands, InScope.gather_iff, List.mem_append] at dims rows ⊢
  exact fun x mem => mem.elim (dims x) (rows x)

/-- The outputs that are built from copies of a value. -/
theorem replicateOutputs_moves {k : MapKernel} {outputs : List (Binder × (Ty × List Nat) × Operand)} {stms : List Stm}
    (h : replicateOutputs stm k outputs names = (stms, names')) (certified : InScope S (freeNames stm.certs))
    (width : InScope S k.width.free) (extents : InScope S (freeOperands k.extents))
    (inside : ∀ o ∈ outputs, InScope S (o.1.free ∪ o.2.1.1.free ∪ o.2.2.free)) :
    Moves S names.next names'.next (outputs.map fun o => o.1.name) stms [] fun T => ∀ v ∈ outputs.map fun o => o.1.name, T v := by
  induction outputs generalizing names stms with
  | nil =>
    cases h
    exact .stay [] fun _ _ _ mem => nomatch mem
  | cons output outputs ih =>
    obtain ⟨b, ⟨ty, perm⟩, value⟩ := output
    rw [replicateOutputs] at h
    dsimp only [NameSupply.fresh] at h
    rcases made : replicateOutputs stm k outputs ⟨names.next + 1⟩ with ⟨more, names₁⟩
    rw [made] at h
    cases h
    have here := inside _ List.mem_cons_self
    simp only [InScope.union_iff] at here
    have one : InScope S (freeOperands [k.width]) := InScope.gather_iff.mpr fun x mem => List.mem_singleton.mp mem ▸ width
    have flat : Moves S names.next (names.next + 1) []
        [⟨.single ⟨b.name.base ++ "_flat", names.next⟩ (ty.addDims [k.width]), stm.certs, .replicate [k.width] value⟩] []
        fun T => T ⟨b.name.base ++ "_flat", names.next⟩ := by
      exact Moves.drawOne (.single rfl certified (Ty.inScope_addDims one here.1.2) (InScope.union_iff.mpr ⟨one, here.2⟩))
    have whole : Moves (S.bind [⟨b.name.base ++ "_flat", names.next⟩]) (names.next + 1) (names.next + 1) [b.name]
        [⟨⟨[], [b]⟩, stm.certs, .reshape (k.extents ++ ty.shape) ⟨b.name.base ++ "_flat", names.next⟩⟩] []
        fun T => T b.name := by
      refine Moves.leaf rfl (certified.mono fun _ => .inl) (here.1.1.mono fun _ => .inl) ?_
      rw [Exp.free, InScope.union_iff, InScope.singleton_iff]
      exact ⟨(Ty.inScope_dims extents here.1.2).mono fun _ => .inl, .inr List.mem_cons_self⟩
    refine ((flat.next whole).append (ih made fun o mem => inside o (List.mem_cons_of_mem _ mem))).imp fun T _ all v mem => ?_
    rcases List.mem_cons.mp mem with rfl | later
    · exact all.1.2
    · exact all.2 v later

/-- What is moved out of a kernel mentions only names from around it. -/
theorem movedOutputs_inScope {k : MapKernel} (launched : stm.exp = .launch (.map k)) (context : stm.pat.context = [])
    (within : stm.Scoped S) : ∀ o ∈ movedOutputs table stm k, InScope S (o.1.free ∪ o.2.1.1.free ∪ o.2.2.free) := by
  obtain ⟨operands, _, body⟩ := (Kernel.scoped_map k).mp (launched ▸ within.2.2 : (Exp.launch (.map k)).Scoped S)
  rw [InScope.union_iff] at operands
  intro o mem
  obtain ⟨value, rest⟩ := List.of_mem_zip mem
  obtain ⟨ret, result⟩ := List.of_mem_zip rest
  have typed := within.2.1.2 o.1 ((pick_sublist _ _).subset value)
  rw [context, List.map_nil, Scope.bind_nil] at typed
  have returned := InScope.gather_iff.mp operands.2 o.2.1.1 (List.mem_map_of_mem ((pick_sublist _ _).subset ret))
  -- a result that no code of the kernel binds comes from outside
  have outside : InScope S o.2.2.free := by
    rw [invariantFlags, pick_map, List.mem_filter] at result
    cases shown : o.2.2 with
    | const c => exact InScope.empty
    | var v =>
      rw [shown] at result
      have visible := (stmsScoped_iff.mp ((Body.scoped_iff _).mp body)).2 v
        (NameSet.mem_gather.mpr ⟨_, result.1, NameSet.mem_singleton.mpr rfl⟩)
      simp only [invariantResult, Bool.and_eq_true, decide_eq_true_eq, List.mem_append, not_or] at result
      refine InScope.singleton_iff.mpr ((visible.resolve_right fun named => result.2.2.1 ?_).resolve_right result.2.2.2)
      rw [Body.bound_eq]
      exact mem_boundInStms_of_stmNames named
  exact InScope.union_iff.mpr ⟨InScope.union_iff.mpr ⟨typed, returned⟩, outside⟩

theorem movedOutputs_fst {k : MapKernel} (flagged : Flagged (invariantFlags table k) stm k) :
    (movedOutputs table stm k).map Prod.fst = pick (invariantFlags table k) stm.pat.values := by
  rw [movedOutputs, List.map_fst_zip]
  rewrite [List.length_zip, length_pick flagged.values, length_pick flagged.returns, length_pick flagged.results, Nat.min_self]
  exact Nat.le_refl _

theorem movedOutputs_names {k : MapKernel} (flagged : Flagged (invariantFlags table k) stm k) :
    ((movedOutputs table stm k).map fun o => o.1.name) = (pick (invariantFlags table k) stm.pat.values).map Binder.name := by
  rw [← movedOutputs_fst flagged, List.map_map]
  rfl

theorem hoistInvariantOutputs_scoping : TopDownRule.Scoping hoistInvariantOutputs := by
  intro table stm names new names' S applied _ fits within
  obtain ⟨k, stms, launched, flagged, _, _, made, shape⟩ := hoistInvariantOutputs_eq_some applied
  obtain ⟨operands, _, _⟩ := (Kernel.scoped_map k).mp (launched ▸ within.2.2 : (Exp.launch (.map k)).Scoped S)
  simp only [InScope.union_iff] at operands
  have moves := replicateOutputs_moves made within.1 operands.1.1.2 operands.1.2 (movedOutputs_inScope launched flagged.context within)
  rw [movedOutputs_names flagged] at moves
  have all := Pattern.names_eq flagged.context
  have divided := (pick_perm flagged.values).map Binder.name
  rw [List.map_append] at divided
  rcases shape with ⟨rfl, every⟩ | rfl
  · have none : pick ((invariantFlags table k).map (!·)) stm.pat.values = [] := by
      refine List.eq_nil_of_length_eq_zero ?_
      rw [length_pick (by rw [List.length_map, flagged.values]), List.count_eq_zero]
      simpa using every
    rw [none, List.map_nil, List.append_nil] at divided
    refine (moves.of_le fun v => ?_).imp fun T _ bound v mem => bound v ?_
    · rw [Stm.bound, List.count_append, all, divided.count_eq]
      omega
    · exact divided.mem_iff.mpr (all ▸ mem)
  · have rest := keepOutputs_moves (n := names'.next) ((invariantFlags table k).map (!·)) launched flagged.context within
    refine ((moves.append rest).of_le fun v => ?_).imp fun T _ bound v mem => ?_
    · have counts := divided.count_eq v
      rw [List.count_append] at counts
      rw [Stm.bound, List.count_append, List.count_append, List.count_append, all]
      omega
    · rw [all] at mem
      rcases List.mem_append.mp (divided.mem_iff.mpr mem) with first | second
      · exact bound.1 v first
      · exact bound.2 v second

theorem dropDeadOutputs_scoping : BottomUpRule.Scoping dropDeadOutputs := by
  intro table usage stm names new names' S applied fits within
  obtain ⟨k, launched, flagged, _, rfl, shape⟩ := dropDeadOutputs_eq_some applied
  have all := Pattern.names_eq flagged.context
  rcases shape with ⟨rfl, dead⟩ | rfl
  · refine .inPlace (Nat.le_refl _) (fun v => ?_) fun T _ v mem used => ?_
    · rw [List.count_nil]
      exact Nat.zero_le _
    · refine absurd ?_ dead
      rw [all] at mem
      obtain ⟨b, among, rfl⟩ := List.mem_map.mp mem
      exact List.mem_map.mpr ⟨b, among, used⟩
  · have rest := keepOutputs_moves (n := names'.next) (usedFlags usage stm) launched flagged.context within
    refine (rest.of_le fun v => ?_).imp fun T _ bound v mem used => bound v ?_
    · have fewer := ((pick_sublist (usedFlags usage stm) stm.pat.values).map Binder.name).count_le v
      rw [Stm.bound, List.count_append, List.count_append, all]
      omega
    · rw [all] at mem
      obtain ⟨b, among, rfl⟩ := List.mem_map.mp mem
      rw [usedFlags, pick_map]
      exact List.mem_map_of_mem (List.mem_filter.mpr ⟨among, used⟩)

/-! Streamed iotas -/

theorem iotaParams_inScope {streams : List (Binder × Name)} {f : Binder × Operand} (known : table.Within S)
    (mem : f ∈ iotaParams table streams) : InScope S f.2.free := by
  obtain ⟨stream, _, chosen⟩ := List.mem_filterMap.mp mem
  obtain ⟨start, counted, rfl⟩ := Option.map_eq_some_iff.mp chosen
  unfold countsFrom at counted
  split at counted
  · rename_i defined
    split at counted
    · cases counted
      have operands := (known _ _ defined rfl).2
      simp only [Exp.free, InScope.union_iff] at operands
      exact operands.1.2
    · cases counted
  · cases counted

/-- The streamed parameters that are computed and those that stay. -/
theorem streams_perm (table : SymbolTable) (streams : List (Binder × Name)) :
    ((iotaParams table streams).map Prod.fst ++ (otherStreams table streams).map Prod.fst).Perm (streams.map Prod.fst) := by
  induction streams with
  | nil => exact .nil
  | cons stream streams ih =>
    cases counted : countsFrom table stream.2 with
    | some start => simpa [iotaParams, otherStreams, counted] using ih.cons stream.1
    | none => simpa [iotaParams, otherStreams, counted] using List.perm_middle.trans (ih.cons stream.1)

/-- An operator some of whose streamed parameters are computed in its body. -/
theorem Lambda.withStreams_moves {op : Lambda} {leading : Nat} {lead : List Binder} {streams kept : List (Binder × Name)}
    {fused : List (Binder × Operand)} {before : List Stm} (within : op.Scoped S leading)
    (given : op.params = lead ++ streams.map Prod.fst) (long : leading ≤ lead.length)
    (divided : (fused.map Prod.fst ++ kept.map Prod.fst).Perm (streams.map Prod.fst))
    (made : Moves (S.bind (lead.map Binder.name)) n n' ((fused.map Prod.fst).map Binder.name) before []
      fun T => ∀ v ∈ (fused.map Prod.fst).map Binder.name, T v) :
    Moves S n n' op.bound [] (op.withStreams lead kept before).bound ((op.withStreams lead kept before).Scoped · leading) := by
  have named := divided.map Binder.name
  rw [List.map_append] at named
  refine .inPlace made.grows (fun v => ?_) fun T more => Lambda.Scoped.mono more ?_
  · have counts := made.counts v
    have total := named.count_eq v
    simp only [Lambda.bound_eq, Lambda.withStreams, given, Body.bound_eq, boundInStms_append, List.map_append, List.count_append,
      List.count_nil] at counts total ⊢
    omega
  · rw [Lambda.scoped_iff] at within ⊢
    obtain ⟨first, others, returned, body⟩ := within
    simp only [Lambda.withStreams, List.take_append_of_le_length long, List.drop_append_of_le_length long, given,
      List.map_append] at first others returned body ⊢
    refine ⟨first, fun b mem => others b ?_, returned, ?_⟩
    · refine (List.mem_append.mp mem).elim (List.mem_append_left _) fun stays => List.mem_append_right _ ?_
      exact divided.subset (List.mem_append_right _ stays)
    · rw [Body.scoped_iff] at body ⊢
      refine stmsScoped_append.mpr ⟨made.before.mono fun v mem => ?_, body.mono fun v mem => ?_⟩
      · exact mem.imp_right (List.mem_append_left _)
      · rcases mem with visible | own
        · exact .inl (.inl visible)
        · rcases List.mem_append.mp own with led | streamed
          · exact .inl (.inr (List.mem_append_left _ led))
          · rcases List.mem_append.mp (named.mem_iff.mpr streamed) with computed | stays
            · rcases made.after _ (fun _ mem => mem) v computed with (visible | led) | bound
              · exact .inl (.inl visible)
              · exact .inl (.inr (List.mem_append_left _ led))
              · exact .inr bound
            · exact .inl (.inr (List.mem_append_right _ stays))

theorem iotaElements_moves {position : Name} {fused : List (Binder × Operand)} (visible : S position)
    (starts : ∀ f ∈ fused, InScope S f.2.free) :
    Moves S n n ((fused.map Prod.fst).map Binder.name) (iotaElements position fused) []
      fun T => ∀ v ∈ (fused.map Prod.fst).map Binder.name, T v := by
  induction fused with
  | nil => exact .stay [] fun _ _ _ mem => nomatch mem
  | cons f fused ih =>
    have element : Moves S n n [f.1.name] [.ofWord f.1.name (.binary .add (.var position) f.2)] [] fun T => T f.1.name := by
      refine .single rfl InScope.empty InScope.empty (InScope.union_iff.mpr ⟨?_, starts f List.mem_cons_self⟩)
      exact InScope.singleton_iff.mpr visible
    refine (element.append (ih fun g mem => starts g (List.mem_cons_of_mem _ mem))).imp fun T _ all v mem => ?_
    rcases List.mem_cons.mp mem with rfl | later
    · exact all.1
    · exact all.2 v later

theorem iotaChunks_moves {thread count : Name} {size : LaunchSize} {division : Division} {fused : List (Binder × Operand)}
    {before : List Stm} (h : iotaChunks thread count size division fused names = (before, names')) (numbered : S thread)
    (counted : S count) (sizes : InScope S size.free) (typed : ∀ f ∈ fused, InScope S f.1.ty.free)
    (starts : ∀ f ∈ fused, InScope S f.2.free) :
    Moves S names.next names'.next ((fused.map Prod.fst).map Binder.name) before []
      fun T => ∀ v ∈ (fused.map Prod.fst).map Binder.name, T v := by
  induction fused generalizing names before with
  | nil =>
    cases h
    exact .stay [] fun _ _ _ mem => nomatch mem
  | cons f fused ih =>
    obtain ⟨param, x⟩ := f
    simp only [List.forall_mem_cons] at typed starts
    rw [LaunchSize.free, freeOperands, InScope.gather_iff] at sizes
    -- the chunk of one iota, from its first element on
    have chunk {T : Scope} (more : ∀ v, S v → T v) {start : Name} (visible : T start) (stride : Operand)
        (strides : InScope S stride.free) :
        Moves T names.next names.next [param.name]
          [.single param.name param.ty (.iota (.var count) (.var start) stride)] [] fun T => T param.name := by
      refine .single rfl InScope.empty (typed.1.mono more) ?_
      simp only [Exp.free, Operand.free, InScope.union_iff, InScope.singleton_iff]
      exact ⟨⟨more _ counted, visible⟩, strides.mono more⟩
    rw [iotaChunks] at h
    dsimp only [NameSupply.fresh] at h
    cases division with
    | strided =>
      rcases made : iotaChunks thread count size .strided fused ⟨names.next + 1⟩ with ⟨more, names₁⟩
      dsimp only at h
      rw [made] at h
      cases h
      have start : Moves S names.next names.next [⟨"iota_start", names.next⟩]
          [.ofWord ⟨"iota_start", names.next⟩ (.binary .add (.var thread) x)] [] fun T => T ⟨"iota_start", names.next⟩ :=
        .single rfl InScope.empty InScope.empty (InScope.union_iff.mpr ⟨InScope.singleton_iff.mpr numbered, starts.1⟩)
      have both := start.next (chunk (fun _ => .inl) (.inr List.mem_cons_self) size.threads
        (sizes size.threads (by simp [LaunchSize.operands])))
      refine (both.drawOne.append (ih made typed.2 starts.2)).imp fun T _ all v mem => ?_
      rcases List.mem_cons.mp mem with rfl | later
      · exact all.1.2
      · exact all.2 v later
    | contiguous =>
      rcases made : iotaChunks thread count size .contiguous fused ⟨names.next + 1 + 1⟩ with ⟨more, names₁⟩
      dsimp only at h
      rw [made] at h
      cases h
      have offset : Moves S names.next names.next [⟨"iota_offset", names.next + 1⟩]
          [.ofWord ⟨"iota_offset", names.next + 1⟩ (.binary .mul (.var thread) size.chunk)] []
          fun T => T ⟨"iota_offset", names.next + 1⟩ := by
        refine .single rfl InScope.empty InScope.empty (InScope.union_iff.mpr ⟨InScope.singleton_iff.mpr numbered, ?_⟩)
        exact sizes size.chunk (by simp [LaunchSize.operands])
      have start : Moves (S.bind [⟨"iota_offset", names.next + 1⟩]) names.next names.next [⟨"iota_start", names.next⟩]
          [.ofWord ⟨"iota_start", names.next⟩ (.binary .add (.var ⟨"iota_offset", names.next + 1⟩) x)] []
          fun T => T ⟨"iota_start", names.next⟩ := by
        refine .single rfl InScope.empty InScope.empty (InScope.union_iff.mpr ⟨?_, starts.1.mono fun _ => .inl⟩)
        exact InScope.singleton_iff.mpr (.inr List.mem_cons_self)
      have all := offset.next (start.next (chunk (fun _ mem => .inl (.inl mem)) (.inr List.mem_cons_self) (.word 1) InScope.empty))
      have drew (v : Name) : ([⟨"iota_offset", names.next + 1⟩] ++ [⟨"iota_start", names.next⟩] : List Name).count v ≤
          drawn names.next (names.next + 1 + 1) v := by
        have first := drawn_succ "iota_start" names.next v
        have second := drawn_succ "iota_offset" (names.next + 1) v
        have both := drawn_add (Nat.le_add_right names.next 1) (Nat.le_add_right (names.next + 1) 1) v
        rw [List.count_append]
        omega
      have both := all.draw ([⟨"iota_offset", names.next + 1⟩] ++ [⟨"iota_start", names.next⟩]) (Nat.le_add_right _ 2) drew
      refine Moves.imp (both.append (ih made typed.2 starts.2)) fun T _ all v mem => ?_
      rcases List.mem_cons.mp mem with rfl | later
      · exact all.1.2.2
      · exact all.2 v later

theorem otherStreams_inScope (table : SymbolTable) (params : List Binder) {arrays : List Name} (inside : InScope S (freeNames arrays)) :
    InScope S (freeNames ((otherStreams table (params.zip arrays)).map Prod.snd)) := by
  intro v mem
  obtain ⟨stream, among, rfl⟩ := List.mem_map.mp (NameSet.mem_ofList.mp mem)
  exact inside _ (NameSet.mem_ofList.mpr (List.of_mem_zip (List.mem_filter.mp among).1).2)

theorem inlineChunkIotas_scoping : TopDownRule.Scoping inlineChunkIotas := by
  intro table stm names new names' S applied known fits within
  obtain ⟨k, thread, count, params, before, launched, given, matched, _, made, rfl⟩ := inlineChunkIotas_eq_some applied
  obtain ⟨operands, op⟩ := (Kernel.scoped_chunked k).mp (launched ▸ within.2.2 : (Exp.launch (.chunked k)).Scoped S)
  have streamed : params = (params.zip k.arrays).map Prod.fst := (List.map_fst_zip (Nat.le_of_eq matched)).symm
  simp only [InScope.union_iff] at operands
  have typed := ((Lambda.scoped_iff _).mp op).2.1
  simp only [given, List.drop_succ_cons, List.drop_zero, List.take_succ_cons, List.take_zero] at typed
  have chunks := iotaChunks_moves (S := S.bind [thread.name, count.name]) made (.inr List.mem_cons_self)
    (.inr (List.mem_cons_of_mem _ List.mem_cons_self)) (operands.1.2.mono fun _ => .inl)
    (fun f mem => by
      have among : f.1 ∈ params := by
        rw [streamed]
        exact (streams_perm table _).subset (List.mem_append_left _ (List.mem_map_of_mem mem))
      exact (InScope.union_iff.mp (typed f.1 among)).1)
    fun f mem => (iotaParams_inScope known mem).mono fun _ => .inl
  have all : k.op.params = [thread, count] ++ (params.zip k.arrays).map Prod.fst := streamed ▸ given
  have moves := Lambda.withStreams_moves op all (Nat.le_refl 2) (streams_perm table _) chunks
  refine Moves.withKernel within ?_
  rw [launched, Exp.bound, Kernel.bound_chunked, Kernel.bound_chunked]
  refine moves.imp fun T more inside => (Kernel.scoped_chunked _).mpr ⟨?_, inside⟩
  simp only [InScope.union_iff]
  have others := otherStreams_inScope table params operands.2
  exact ⟨⟨⟨operands.1.1.1.mono more, operands.1.1.2.mono more⟩, operands.1.2.mono more⟩, others.mono more⟩

theorem inlineScanIotas_scoping : TopDownRule.Scoping inlineScanIotas := by
  intro table stm names new names' S applied known fits within
  obtain ⟨k, index, params, streams, launched, given, matched, rfl, _, rfl, rfl⟩ := inlineScanIotas_eq_some applied
  obtain ⟨operands, combine, fold⟩ := (Kernel.scoped_scan k).mp (launched ▸ within.2.2 : (Exp.launch (.scan k)).Scoped S)
  have streamed : ((params.drop k.neutral.length).zip k.arrays).map Prod.fst = params.drop k.neutral.length := by
    refine List.map_fst_zip ?_
    rw [List.length_drop]
    omega
  have all : k.fold.params = (index :: params.take k.neutral.length) ++
      ((params.drop k.neutral.length).zip k.arrays).map Prod.fst := by
    rw [streamed, List.cons_append, List.take_append_drop, given]
  have elements : Moves (S.bind ((index :: params.take k.neutral.length).map Binder.name)) names'.next names'.next _
      (iotaElements index.name (iotaParams table ((params.drop k.neutral.length).zip k.arrays))) [] _ :=
    iotaElements_moves (.inr List.mem_cons_self) fun f mem => (iotaParams_inScope known mem).mono fun _ => .inl
  have moves := Lambda.withStreams_moves fold all (Nat.le_add_left 1 _) (streams_perm table _) elements
  refine Moves.withKernel within ?_
  rw [launched, Exp.bound, Kernel.bound_scan, Kernel.bound_scan]
  refine (moves.under k.combine.bound).imp fun T more inside => (Kernel.scoped_scan _).mpr ⟨?_, combine.mono more, inside⟩
  simp only [InScope.union_iff] at operands ⊢
  have others := otherStreams_inScope table (params.drop k.neutral.length) operands.2
  exact ⟨⟨⟨⟨operands.1.1.1.1.mono more, operands.1.1.1.2.mono more⟩, operands.1.1.2.mono more⟩, operands.1.2.mono more⟩, others.mono more⟩

theorem inlineScatterIotas_scoping : TopDownRule.Scoping inlineScatterIotas := by
  intro table stm names new names' S applied known fits within
  obtain ⟨k, index, params, launched, given, matched, _, rfl, rfl⟩ := inlineScatterIotas_eq_some applied
  obtain ⟨operands, op⟩ := (Kernel.scoped_scatter k).mp (launched ▸ within.2.2 : (Exp.launch (.scatter k)).Scoped S)
  have all : k.op.params = [index] ++ (params.zip k.arrays).map Prod.fst := by
    rw [List.map_fst_zip (Nat.le_of_eq matched), given]
    rfl
  have elements : Moves (S.bind ([index].map Binder.name)) names'.next names'.next _
      (iotaElements index.name (iotaParams table (params.zip k.arrays))) [] _ :=
    iotaElements_moves (.inr List.mem_cons_self) fun f mem => (iotaParams_inScope known mem).mono fun _ => .inl
  have moves := Lambda.withStreams_moves op all (Nat.le_refl 1) (streams_perm table _) elements
  refine Moves.withKernel within ?_
  rw [launched, Exp.bound, Kernel.bound_scatter, Kernel.bound_scatter]
  refine moves.imp fun T more inside => (Kernel.scoped_scatter _).mpr ⟨?_, inside⟩
  simp only [InScope.union_iff] at operands ⊢
  have others := otherStreams_inScope table params operands.1.2
  exact ⟨⟨⟨operands.1.1.1.mono more, operands.1.1.2.mono more⟩, others.mono more⟩, operands.2.mono more⟩

/-- What the rules give for a statement takes its place. -/
structure RuleSet.Scoping (rules : RuleSet) : Prop where
  down : TopDownRule.Scoping rules.replaceDown
  up : BottomUpRule.Scoping rules.replaceUp

theorem RuleSet.standard_scoping : RuleSet.standard.Scoping := by
  constructor
  · intro table stm names new names' S applied
    obtain ⟨rule, among, applied⟩ := List.exists_of_findSome?_eq_some applied
    simp only [standard, List.mem_cons, List.not_mem_nil, or_false] at among
    rcases among with rfl | rfl | rfl | rfl | rfl | rfl
    · exact dropUnusedInputs_scoping applied
    · exact inlineInputs_scoping applied
    · exact hoistInvariantOutputs_scoping applied
    · exact inlineChunkIotas_scoping applied
    · exact inlineScanIotas_scoping applied
    · exact inlineScatterIotas_scoping applied
  · intro table usage stm names new names' S applied
    obtain ⟨rule, among, applied⟩ := List.exists_of_findSome?_eq_some applied
    obtain rfl := List.mem_singleton.mp among
    exact dropDeadOutputs_scoping applied

end ArrayKernels
