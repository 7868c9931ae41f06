import ArrayKernels.Proofs.Coverage
import ArrayKernels.Proofs.Parts
import ArrayKernels.Proofs.SweepSoundness

/-! The rules on the inputs of map kernels keep values. An input that the body does not mention need not be read, and an input
that is computed at the top of the body has the value that is read from its array, since the definition of the array holds. -/
namespace ArrayKernels

variable {how : Leniency} {S : Scope} {σ τ : Store} {table : SymbolTable} {x : Value}

/-! What definitions say -/

/-- A binding of one name has a value only if its expression has one. -/
theorem Stm.single_value {v : Name} {ty : Ty} {e : Exp} (ran : (Stm.single v ty e).run (.lenient how) σ = .ok τ)
    (value : (τ.cell v).value = some x) : e.run (.lenient how) σ = .ok [x] := by
  have mem : v ∈ (Pattern.single v ty).names := List.mem_cons_self
  change (Mode.lenient how).settle σ (.single v ty) e (e.run (.lenient how) σ) = .ok τ at ran
  cases settled : ((e.run (.lenient how) σ) >>= fun values => (σ.env.hide [v]).bindValues (.single v ty) values) with
  | error err =>
    rw [Mode.settle_of_error settled] at ran
    split at ran
    · cases ran
      rw [Mode.cell_fail mem] at value
      cases value
    · cases ran
  | ok env =>
    rw [Mode.settle_of_ok settled] at ran
    cases ran
    rw [Mode.cell_settle mem] at value
    obtain ⟨vs, ran, bound⟩ := bind_eq_ok.mp settled
    obtain ⟨y, rfl⟩ : ∃ y, vs = [y] := by
      refine List.length_eq_one_iff.mp ?_
      rw [Env.bindValues] at bound
      split at bound
      · rename_i one
        exact one
      · split at bound
        · rename_i one
          exact one
        · cases bound
    cases (Env.bindValues_single rfl bound).symm.trans value
    exact ran

/-- A name with a definition that holds has the value of the definition. -/
theorem SymbolTable.Known.value {v : Name} {d : Exp} (known : table.Known how σ) (defined : table.defn v = some d)
    (leaf : d.isNested = false) (there : σ.env.get? v = some x) : Lenient.leaf how.typed σ d = .ok [x] := by
  obtain ⟨τ, ran, same⟩ := known v d defined leaf
  have value : (τ.cell v).value = some x := (same v List.mem_cons_self).2.value_eq there
  have result := Stm.single_value ran value
  rwa [Exp.run_leaf leaf] at result

/-! The values of inputs -/

/-- What is read for an input. -/
def MapInput.value (env : Env) (i : MapInput) : Eval Value := do (← env.array i.array).index (← i.indices.mapM env.word)

theorem MapInput.value_congr {env env' : Env} {i : MapInput} (same : ∀ v ∈ i.reads, env.get? v = env'.get? v) :
    i.value env = i.value env' := by
  have agree : env.Agree (· ∈ i.reads) env' := same
  rw [value, value, agree.array (NameSet.mem_union.mpr (.inl (NameSet.mem_singleton.mpr rfl))),
    agree.words fun v mem => NameSet.mem_union.mpr (.inr mem)]

theorem MapInput.value_agree {env env' : Env} {i : MapInput} (agree : env.Agree S env') (inside : InScope S i.free) :
    i.value env = i.value env' :=
  value_congr fun v mem => agree v (inside v (NameSet.mem_union.mpr (.inl mem)))

namespace MapKernel

variable {inputs kept : List MapInput} {env next : Env} {n : Nat}

theorem bindInputs_cons (env : Env) (i : MapInput) (inputs : List MapInput) :
    bindInputs env (i :: inputs) = i.value env >>= fun x => bindInputs (env.bind i.param.name x) inputs := by
  simp only [bindInputs, MapInput.value, List.foldlM_cons, bind_assoc, ok_bind]

/-- The parameters are distinct, and no input is read through the parameter of another. -/
structure Separate (inputs : List MapInput) : Prop where
  distinct : (inputs.map fun i => i.param.name).Nodup
  apart : ∀ i ∈ inputs, ∀ j ∈ inputs, j.param.name ∈ i.reads → j.param.name = i.param.name

namespace Separate

theorem of_fits (fits : Fits S n (inputs.map fun i => i.param.name)) (inside : ∀ i ∈ inputs, InScope S i.free) : Separate inputs where
  distinct := fits.distinct
  apart i among _ other read :=
    absurd (inside i among _ (NameSet.mem_union.mpr (.inl read))) (fits.apart _ (List.mem_map_of_mem other))

theorem sublist (separate : Separate inputs) (fewer : kept.Sublist inputs) : Separate kept where
  distinct := separate.distinct.sublist (fewer.map _)
  apart i among j other := separate.apart i (fewer.subset among) j (fewer.subset other)

/-- The other inputs are read as before once the first one is bound. -/
theorem value_bind {i j : MapInput} (separate : Separate (i :: inputs)) (mem : j ∈ inputs) (x : Value) :
    j.value (env.bind i.param.name x) = j.value env := by
  apply MapInput.value_congr
  intro v read
  rw [Env.get?_bind, if_neg]
  rintro rfl
  have same := separate.apart j (List.mem_cons_of_mem _ mem) i List.mem_cons_self read
  exact (List.nodup_cons.mp separate.distinct).1 (List.mem_map.mpr ⟨j, mem, same.symm⟩)

end Separate

/-- Every input has its value if none refers to another. -/
theorem bindInputs_values (separate : Separate inputs) (h : bindInputs env inputs = .ok next) :
    ∀ i ∈ inputs, ∃ x, i.value env = .ok x ∧ next.get? i.param.name = some x := by
  induction inputs generalizing env with
  | nil => exact fun _ mem => absurd mem List.not_mem_nil
  | cons i inputs ih =>
    rw [bindInputs_cons] at h
    obtain ⟨x, read, h⟩ := bind_eq_ok.mp h
    rw [List.forall_mem_cons]
    refine ⟨⟨x, read, ?_⟩, fun j mem => ?_⟩
    · rw [bindInputs_frame h (List.nodup_cons.mp separate.distinct).1, Env.get?_bind, if_pos rfl]
    · obtain ⟨y, found, there⟩ := ih (separate.sublist (List.sublist_cons_self i inputs)) h j mem
      exact ⟨y, (separate.value_bind mem x).symm.trans found, there⟩

theorem bindInputs_of_values (separate : Separate inputs) (values : ∀ i ∈ inputs, ∃ x, i.value env = .ok x) :
    ∃ next, bindInputs env inputs = .ok next := by
  induction inputs generalizing env with
  | nil => exact ⟨env, rfl⟩
  | cons i inputs ih =>
    obtain ⟨x, read⟩ := values i List.mem_cons_self
    rw [bindInputs_cons, read, ok_bind]
    refine ih (separate.sublist (List.sublist_cons_self i inputs)) fun j mem => ?_
    rw [separate.value_bind mem x]
    exact values j (List.mem_cons_of_mem _ mem)

end MapKernel

theorem Store.SameBut.agree {names : List Name} (same : σ.SameBut names τ) (apart : ∀ v ∈ names, ¬S v) : σ.env.Agree S τ.env := by
  intro v visible
  have cells := same v fun own => apart v own visible
  exact (congrArg Cell.value cells).symm

/-! Parts of arrays with definitions -/

section
variable {env : Env} {a : ArrayValue} {indices : List Operand} {is : List Int64}

/-- A part of a part of an array. -/
theorem Exp.eval_part_of_index {outer : Name} {js : List Operand} (defined : (Exp.index outer js).eval env = .ok [.array a])
    (words : indices.mapM env.word = .ok is) (part : a.index is = .ok x) : (Exp.index outer (js ++ indices)).eval env = .ok [x] := by
  obtain ⟨b, whole, defined⟩ := bind_eq_ok.mp defined
  obtain ⟨ks, outerWords, defined⟩ := bind_eq_ok.mp defined
  obtain ⟨_, inner, same⟩ := bind_eq_ok.mp defined
  cases same
  have appended : (js ++ indices).mapM env.word = .ok (ks ++ is) :=
    mapM_eq_ok.mpr (List.rel_append (mapM_eq_ok.mp outerWords) (mapM_eq_ok.mp words))
  rw [Exp.eval, whole, ok_bind, appended, ok_bind, ArrayValue.index_index inner part]
  rfl

theorem Exp.eval_part_of_name {v : Name} (defined : (Exp.operand (.var v)).eval env = .ok [.array a])
    (words : indices.mapM env.word = .ok is) (part : a.index is = .ok x) : (Exp.index v indices).eval env = .ok [x] := by
  obtain ⟨_, looked, same⟩ := bind_eq_ok.mp defined
  cases same
  have whole : env.array v = .ok a := Env.array_eq_ok.mpr (Env.lookup_eq_ok.mp looked)
  rw [Exp.eval, whole, ok_bind, words, ok_bind, part]
  rfl

/-- A part of copies is the copied value, or is made of fewer copies. -/
theorem Exp.eval_part_of_copies {shape : List Operand} {value : Operand}
    (defined : (Exp.replicate shape value).eval env = .ok [.array a]) (sturdy : ∀ z, env.operand value = .ok z → z.isSturdy = true)
    (words : indices.mapM env.word = .ok is) (part : a.index is = .ok x) :
    (indices.length = shape.length → (Exp.operand value).eval env = .ok [x]) ∧
      (indices.length < shape.length → (Exp.replicate (shape.drop indices.length) value).eval env = .ok [x]) := by
  obtain ⟨outer, sizes, defined⟩ := bind_eq_ok.mp defined
  obtain ⟨z, copied, defined⟩ := bind_eq_ok.mp defined
  obtain ⟨_, made, same⟩ := bind_eq_ok.mp defined
  cases same
  have length : shape.length = outer.length := (mapM_eq_ok.mp sizes).length_eq
  have number : indices.length = is.length := (mapM_eq_ok.mp words).length_eq
  have parts := ArrayValue.index_replicate (sturdy z copied) made part
  constructor
  · intro full
    obtain ⟨_, rfl⟩ | ⟨short, _⟩ := parts (by omega)
    · rw [Exp.eval, copied]
      rfl
    · omega
  · intro short
    obtain ⟨full, _⟩ | ⟨_, b, again, rfl⟩ := parts (by omega)
    · omega
    · have rest : env.sizes (shape.drop indices.length) = .ok (outer.drop is.length) := by
        rw [number]
        exact mapM_eq_ok.mpr (List.forall₂_drop _ (mapM_eq_ok.mp sizes))
      rw [Exp.eval, rest, ok_bind, copied, ok_bind, again]
      rfl

theorem word_of_words {y : Operand} (words : [y].mapM env.word = .ok is) : ∃ w, env.word y = .ok w ∧ is = [w] := by
  obtain ⟨w, _, word, none, rfl⟩ := List.forall₂_cons_left_iff.mp (mapM_eq_ok.mp words)
  cases List.forall₂_nil_left_iff.mp none
  exact ⟨w, word, rfl⟩

theorem iotaValues_index {n : Nat} {first step w : Int64} (made : .words (iotaValues n first step) = Value.array a)
    (part : a.index [w] = .ok x) : x = .word (first + w * step) := by
  rw [Value.words_eq] at made
  cases made
  obtain ⟨positive, y, found, rfl⟩ := wordArray.eq_of_index part
  rw [iotaValues_getElem? found, Int64.toNat_toInt, Int64.ofNat_toNatClampNeg _ (Int64.not_lt.mp positive)]

end

/-! Elements of iotas -/

/-- The cell stands for the number, if need be through the full product behind its word. -/
def Cell.Amounts (c : Cell) (n : Int64) : Prop :=
  c.value = some (.word n) ∨ ∃ m, c.value = some (.scalar (.i32 m)) ∧ c.exact = some n

section
variable {v : Name} {i stride : Operand} {a b : Int64}

/-- The product of two words of any width. -/
theorem Stm.product_runs (left : σ.env.word i = .ok a) (right : σ.env.word stride = .ok b) :
    ∃ τ, (Stm.ofWord v (.binary .mul i stride)).run (.lenient how) σ = .ok τ ∧ (τ.cell v).Amounts (a * b) := by
  obtain ⟨c, readLeft, wordLeft⟩ := Env.word_eq_ok.mp left
  obtain ⟨d, readRight, wordRight⟩ := Env.word_eq_ok.mp right
  have value (y : Scalar) (made : Lenient.binary .mul c d (σ.exactOf stride) = .ok y) :
      (Exp.binary .mul i stride).run (.lenient how) σ = .ok [.scalar y] := by
    change Lenient.leaf how.typed σ (.binary .mul i stride) = _
    rw [Lenient.leaf, readLeft, ok_bind, readRight, ok_bind, made]
    rfl
  have wide (made : Lenient.binary .mul c d (σ.exactOf stride) = .ok (.i64 (a * b))) :
      ∃ τ, (Stm.ofWord v (.binary .mul i stride)).run (.lenient how) σ = .ok τ ∧ (τ.cell v).Amounts (a * b) := by
    obtain ⟨τ, ran, cell⟩ := Stm.single_of_ok (value _ made)
    refine ⟨τ, ran, .inl ?_⟩
    rw [cell]
    rfl
  cases c with
  | i64 m =>
    cases wordLeft
    cases d with
    | i64 n =>
      cases wordRight
      exact wide rfl
    | i32 n =>
      cases wordRight
      exact wide rfl
    | bool _ | f32 _ | f64 _ => cases wordRight
  | i32 m =>
    cases wordLeft
    cases d with
    | i64 n =>
      cases wordRight
      exact wide rfl
    | i32 n =>
      -- the word of the product is cut off, and the full product is noted
      cases wordRight
      obtain ⟨τ, ran, cell⟩ := Stm.single_of_ok (value (.i32 (m.toInt64 * n.toInt64).toInt32) rfl)
      refine ⟨τ, ran, .inr ⟨(m.toInt64 * n.toInt64).toInt32, ?_, ?_⟩⟩
      · rw [cell]
      · rw [cell, Store.fullProduct, readLeft, readRight]
    | bool _ | f32 _ | f64 _ => cases wordRight
  | bool _ | f32 _ | f64 _ => cases wordLeft

theorem Lenient.leaf_add {start : Operand} (first : σ.env.scalar start = .ok (.i64 a)) (amounts : (σ.cell v).Amounts b) (typed : Bool) :
    Lenient.leaf typed σ (.binary .add start (.var v)) = .ok [.word (a + b)] := by
  have read (y : Scalar) (there : (σ.cell v).value = some (.scalar y)) : σ.env.scalar (.var v) = .ok y := by
    rw [Env.scalar, Env.operand, Env.lookup_eq_ok.mpr there]
    rfl
  rw [Lenient.leaf, first, ok_bind]
  rcases amounts with whole | ⟨m, part, full⟩
  · rw [read _ whole]
    rfl
  · have full : σ.notes.exact v = some b := full
    rw [read _ part, ok_bind, Store.exactOf, full]
    rfl

end

theorem Lenient.leaf_iota_eq_ok {typed : Bool} {count start stride : Operand} {y : Value}
    (h : Lenient.leaf typed σ (.iota count start stride) = .ok [y]) :
    ∃ n first step, σ.env.size count = .ok n ∧ σ.env.scalar start = .ok (.i64 first) ∧ σ.env.word stride = .ok step ∧
      y = .words (iotaValues n first step) := by
  obtain ⟨n, sized, h⟩ := bind_eq_ok.mp h
  obtain ⟨c, begins, h⟩ := bind_eq_ok.mp h
  cases c with
  | i64 first =>
    obtain ⟨step, steps, made⟩ := bind_eq_ok.mp h
    cases made
    exact ⟨n, first, step, sized, begins, steps, rfl⟩
  | bool _ | i32 _ | f32 _ | f64 _ => cases h

/-- Only sturdy values are copied. -/
theorem Lenient.leaf_replicate_eq_ok {typed : Bool} {shape : List Operand} {value : Operand} {y : Value}
    (h : Lenient.leaf typed σ (.replicate shape value) = .ok [y]) : ∃ z, σ.env.operand value = .ok z ∧ z.isSturdy = true := by
  obtain ⟨outer, _, h⟩ := bind_eq_ok.mp h
  obtain ⟨z, copied, h⟩ := bind_eq_ok.mp h
  split at h
  · exact ⟨z, copied, ‹_›⟩
  · cases h

theorem Lenient.leaf_replicate {value : Operand} {z : Value} (copied : σ.env.operand value = .ok z) (sturdy : z.isSturdy = true)
    (typed : Bool) (shape : List Operand) :
    Lenient.leaf typed σ (.replicate shape value) = (Exp.replicate shape value).eval σ.env := by
  rw [Lenient.leaf, Exp.eval]
  simp only [copied, ok_bind, sturdy, if_true]

/-! Computing inputs -/

section
variable {names names' : NameSupply} {input : MapInput} {stms : List Stm} {n : Nat}

theorem Stm.runs_alone {v : Name} {ty : Ty} {e : Exp} (leaf : e.isNested = false) (value : Lenient.leaf how.typed σ e = .ok [x]) :
    ∃ τ, runStms (.lenient how) σ [.single v ty e] = .ok τ ∧ (τ.cell v).value = some x := by
  obtain ⟨τ, ran, cell⟩ := Stm.single_of_ok ((Exp.run_leaf leaf _ _).trans value)
  refine ⟨τ, ?_, by rw [cell]⟩
  rw [runStms_cons, ran]
  rfl

/-- The bindings that compute an input give it the value that is read from the array. -/
theorem inlineInput_runs {consumed : Bool} (h : inlineInput table consumed input names = some (stms, names')) (within : table.Within S)
    (fits : Fits S names.next [input.param.name]) (known : table.Known how σ) (read : input.value σ.env = .ok x) :
    ∃ τ, runStms (.lenient how) σ stms = .ok τ ∧ (τ.cell input.param.name).value = some x := by
  obtain ⟨a, array, read⟩ := bind_eq_ok.mp read
  obtain ⟨is, indices, read⟩ := bind_eq_ok.mp read
  have there := Env.array_eq_ok.mp array
  unfold inlineInput at h
  dsimp only at h
  split at h
  · rename_i outer js defined
    split at h
    · cases h
    cases h
    exact Stm.runs_alone rfl (Exp.eval_part_of_index (known.value defined rfl there) indices read)
  · rename_i copied defined
    split at h
    · cases h
    cases h
    exact Stm.runs_alone rfl (Exp.eval_part_of_name (known.value defined rfl there) indices read)
  · rename_i count start stride defined
    split at h
    · rename_i i only
      cases h
      obtain ⟨m, first, step, _, begins, steps, made⟩ := Lenient.leaf_iota_eq_ok (known.value defined rfl there)
      rw [only] at indices
      obtain ⟨w, word, rfl⟩ := word_of_words indices
      obtain rfl := iotaValues_index made.symm read
      obtain ⟨υ, scaled, amounts⟩ := @Stm.product_runs how σ (names.fresh "iota_offset").1 _ _ _ _ word steps
      have agree : σ.env.Agree S υ.env := by
        apply (Stm.run_sameBut scaled).agree
        intro v own visible
        cases List.mem_singleton.mp own
        exact Nat.lt_irrefl _ (fits.scope _ visible)
      obtain ⟨_, operands⟩ := within _ _ defined rfl
      simp only [Exp.free, InScope.union_iff] at operands
      rw [agree.scalar operands.1.2] at begins
      obtain ⟨τ, ran, value⟩ := @Stm.runs_alone how υ _ input.param.name input.param.ty _ rfl (Lenient.leaf_add begins amounts how.typed)
      refine ⟨τ, ?_, value⟩
      rw [runStms_cons, scaled]
      exact ran
    · cases h
  · rename_i shape value defined
    have whole := known.value defined rfl there
    obtain ⟨y, copied, sturdy⟩ := Lenient.leaf_replicate_eq_ok whole
    rw [Lenient.leaf_replicate copied sturdy] at whole
    have parts := Exp.eval_part_of_copies whole (fun z again => by cases copied.symm.trans again; exact sturdy) indices read
    split at h
    · rename_i full
      split at h
      · cases h
      cases h
      exact Stm.runs_alone rfl (parts.1 full)
    · split at h
      · rename_i short
        cases h
        exact Stm.runs_alone rfl ((Lenient.leaf_replicate copied sturdy _ _).trans (parts.2 short))
      · cases h
  · cases h

/-- Each input is kept, or its value is computed. -/
theorem inlineEach_runs {consumed : NameSet} {inputs kept : List MapInput} (h : inlineEach table consumed inputs names = (stms, kept, names'))
    (within : table.Within S) (fits : Fits S names.next (inputs.map fun i => i.param.name)) (inside : ∀ i ∈ inputs, InScope S i.free)
    (known : table.Known how σ) (read : ∀ i ∈ inputs, ∃ y, i.value σ.env = .ok y) :
    ∃ τ, runStms (.lenient how) σ stms = .ok τ ∧
      ∀ i ∈ inputs, i ∈ kept ∨ ∃ y, i.value σ.env = .ok y ∧ (τ.cell i.param.name).value = some y := by
  induction inputs generalizing names stms kept σ with
  | nil =>
    cases h
    exact ⟨σ, rfl, fun _ mem => absurd mem List.not_mem_nil⟩
  | cons input inputs ih =>
    rw [inlineEach] at h
    have fits : Fits S names.next ([input.param.name] ++ inputs.map fun i => i.param.name) := fits
    obtain ⟨here, later⟩ := List.forall_mem_cons.mp inside
    obtain ⟨⟨y, first⟩, others⟩ := List.forall_mem_cons.mp read
    split at h
    · rename_i now names₁ inlined
      rcases made : inlineEach table consumed inputs names₁ with ⟨more, left, names₂⟩
      rw [made] at h
      cases h
      obtain ⟨υ, ran, value⟩ := inlineInput_runs inlined within fits.left known first
      have moves := inlineInput_moves inlined within here
      have placed := (moves.under (inputs.map fun i => i.param.name)).fits (fits.part fun v => by simp only [List.count_append]; omega)
      rw [List.append_nil] at placed
      have apart (v : Name) (own : v ∈ stmNames now) : ¬S v := placed.left.apart v (mem_boundInStms_of_stmNames own)
      have agree := (runStms_sameBut ran).agree apart
      have still : table.Known how υ := by
        apply known.frame within
        intro v visible
        exact .of_eq (runStms_sameBut ran v fun own => apart v own visible).symm
      have same (i : MapInput) (mem : i ∈ inputs) : i.value σ.env = i.value υ.env := MapInput.value_agree agree (later i mem)
      obtain ⟨τ, rest, values⟩ := ih made placed.right later still fun i mem => same i mem ▸ others i mem
      refine ⟨τ, ?_, List.forall_mem_cons.mpr ⟨.inr ⟨y, first, ?_⟩, fun i mem => ?_⟩⟩
      · rw [runStms_append, ran]
        exact rest
      · have others := ((inlineEach_moves made within later).under [input.param.name]).fits (fits.later moves.grows)
        rw [runStms_sameBut rest _ fun own => ?_]
        · exact value
        · exact (List.nodup_append.mp others.distinct).2.2 _ (mem_boundInStms_of_stmNames own) _ List.mem_cons_self rfl
      · rw [same i mem]
        exact values i mem
    · rcases made : inlineEach table consumed inputs names with ⟨more, left, names₂⟩
      rw [made] at h
      cases h
      obtain ⟨τ, ran, values⟩ := ih made fits.right later known others
      refine ⟨τ, ran, List.forall_mem_cons.mpr ⟨.inl List.mem_cons_self, fun i mem => ?_⟩⟩
      exact (values i mem).imp_left (List.mem_cons_of_mem _)

end

/-! Map kernels with fewer inputs -/

/-- A kernel takes the place of one whose values it has. -/
theorem Replaces.withKernel {stm : Stm} {k k' : Kernel} (launched : stm.exp = .launch k)
    (runs : ∀ vs, k.run (.lenient how) σ = .ok vs → k'.run (.lenient how) σ = .ok vs) :
    Replaces how σ stm [stm.withKernel k'] fun _ => True := by
  intro τ ran
  rw [Stm.run, launched] at ran
  obtain ⟨τ', settled, below⟩ := @Mode.settle_nested how σ (.launch k) (.launch k') rfl _ _ (.refl stm.pat) _ _ runs _ ran
  refine ⟨τ', ?_, fun v own _ => below v own⟩
  rw [runStms_cons, Stm.run, Stm.withKernel]
  exact bind_eq_ok.mpr ⟨τ', settled, rfl⟩

theorem Cell.Below.of_value {c : Cell} {f : Option Bool} (there : c.value = some x) : Cell.Below ⟨some x, none, f⟩ c := by
  obtain ⟨value, exact', failed⟩ := c
  cases there
  exact .value x (.inl rfl)

theorem Body.eta (body : Body) : ⟨body.stms, body.result⟩ = body := by
  cases body
  rfl

section
variable {n n' : Nat} {k : MapKernel} {kept : List MapInput} {prelude : List Stm} {vs : List Value}

theorem MapKernel.runs_of_threads {body : Body}
    (threads : ∀ place e, (∀ v, v ∉ k.placeNames → place.get? v = σ.env.get? v) → bindInputs place k.inputs = .ok e →
      ∃ e', bindInputs place kept = .ok e' ∧ ∀ vs, k.body.run (.lenient how) (σ.inside k.threadNames e) = .ok vs →
        body.run (.lenient how) (σ.inside (k.placeNames ++ kept.map fun i => i.param.name) e') = .ok vs)
    (runs : (Kernel.map k).run (.lenient how) σ = .ok vs) :
    (Kernel.map { k with inputs := kept, body := body }).run (.lenient how) σ = .ok vs := by
  rw [Kernel.run_map] at runs ⊢
  refine Follows.keeps ?_ runs
  apply Mode.map_follows (T := fun e e' => ∀ vs, k.body.run (.lenient how) (σ.inside k.threadNames e) = .ok vs →
    body.run (.lenient how) (σ.inside (k.placeNames ++ kept.map fun i => i.param.name) e') = .ok vs)
  · exact id
  · exact .refl fun _ _ => rfl
  · exact .refl fun _ _ => rfl
  · intro dims t _
    exact ⟨fun e made => threads _ e (fun v other => place_frame dims σ.env t other) made, False.elim⟩
  · intro e e' keeps
    exact ⟨fun vs ran => ⟨vs, keeps vs ran, ValuesAlike.rfl_exact vs⟩, False.elim⟩
  · exact List.forall₂_same.mpr fun r _ => ⟨rfl, rfl, .refl fun _ _ => rfl⟩

/-- A kernel in which some inputs are computed at the top of the body, as far as the body reads them. -/
theorem MapKernel.runs_of_computed (fits : Fits S n (k.threadNames ++ k.body.bound)) (inside : (Kernel.map k).Scoped S)
    (placed : Fits (S.bind k.placeNames) n' (boundInStms prelude ++ kept.map fun i => i.param.name)) (part : ∀ i ∈ kept, i ∈ k.inputs)
    (computes : ∀ ρ, σ.SameBut (k.placeNames ++ kept.map fun i => i.param.name) ρ → (∀ i ∈ k.inputs, ∃ y, i.value ρ.env = .ok y) →
      ∃ τ, runStms (.lenient how) ρ prelude = .ok τ ∧ ∀ i ∈ k.inputs, i.param.name ∈ k.body.reads →
        i ∈ kept ∨ ∃ y, i.value ρ.env = .ok y ∧ (τ.cell i.param.name).value = some y)
    (runs : (Kernel.map k).run (.lenient how) σ = .ok vs) :
    (Kernel.map { k with inputs := kept, body := ⟨prelude ++ k.body.stms, k.body.result⟩ }).run (.lenient how) σ = .ok vs := by
  obtain ⟨_, scopes, body⟩ := (Kernel.scoped_map k).mp inside
  rw [threadNames_eq] at fits
  have entered := fits.left.enter
  refine runs_of_threads (fun place e framed made => ?_) runs
  have values := bindInputs_values (.of_fits entered scopes) made
  have separate : Separate kept := .of_fits placed.right fun i mem => scopes i (part i mem)
  obtain ⟨e', made'⟩ := bindInputs_of_values separate fun i mem => (values i (part i mem)).imp fun _ => And.left
  have values' := bindInputs_values separate made'
  have outside (v : Name) (visible : S.bind k.placeNames v) : v ∉ kept.map fun i => i.param.name :=
    fun own => placed.right.apart v own visible
  have agree : e'.Agree (S.bind k.placeNames) place := fun v visible => bindInputs_frame made' (outside v visible)
  have same : σ.SameBut (k.placeNames ++ kept.map fun i => i.param.name)
      (σ.inside (k.placeNames ++ kept.map fun i => i.param.name) e') := by
    apply Store.sameBut_inside
    intro v other
    rw [List.mem_append, not_or] at other
    rw [bindInputs_frame made' other.2, framed v other.1]
  obtain ⟨τ, ran, computed⟩ := computes _ same fun i mem => by
    obtain ⟨y, read, _⟩ := values i mem
    exact ⟨y, (MapInput.value_agree agree (scopes i mem)).trans read⟩
  refine ⟨e', made', fun vs runs => ?_⟩
  rw [Body.run_append, ran, ok_bind, Body.eta]
  refine Body.run_mono fits.right.distinct (fun v mem => ?_) runs
  have frame (v : Name) (visible : S.bind k.placeNames v) :
      τ.cell v = (σ.inside (k.placeNames ++ kept.map fun i => i.param.name) e').cell v := by
    apply runStms_sameBut ran
    intro own
    exact placed.left.apart v (mem_boundInStms_of_stmNames own) visible
  rcases Body.Scoped.reads _ body v mem with visible | own
  · -- a name from outside
    have notPlace : v ∉ k.placeNames := fun own => fits.left.left.apart v own visible
    have notInput : v ∉ k.inputs.map fun i => i.param.name := fun own => fits.left.right.apart v own visible
    rw [frame v (.inl visible), same v, Store.cell_inside]
    · exact .refl _
    · rw [threadNames_eq, List.mem_append, not_or]
      exact ⟨notPlace, notInput⟩
    · rw [bindInputs_frame made notInput, framed v notPlace]
    · rw [List.mem_append, not_or]
      exact ⟨notPlace, outside v (.inl visible)⟩
  rcases List.mem_append.mp (threadNames_eq k ▸ own) with place | input
  · rw [frame v (.inr place), Store.cell_inside_of_mem own, Store.cell_inside_of_mem (List.mem_append_left _ place),
      agree v (.inr place), bindInputs_frame made fun input => entered.apart v input (.inr place)]
    exact .refl _
  · obtain ⟨i, among, rfl⟩ := List.mem_map.mp input
    obtain ⟨y, read, there⟩ := values i among
    rw [Store.cell_inside_of_mem own, there]
    apply Cell.Below.of_value
    rcases computed i among mem with stays | ⟨z, again, value⟩
    · obtain ⟨z, again, there'⟩ := values' i stays
      cases read.symm.trans again
      have kept' := List.mem_map_of_mem (f := fun i : MapInput => i.param.name) stays
      rw [runStms_sameBut ran, Store.cell_inside_of_mem (List.mem_append_right _ kept'), there']
      intro bound
      exact (List.nodup_append.mp placed.distinct).2.2 _ (mem_boundInStms_of_stmNames bound) _ kept' rfl
    · rw [show i.value (σ.inside _ e').env = i.value place from MapInput.value_agree agree (scopes i among)] at again
      cases read.symm.trans again
      exact value

end

/-! The rules -/

/-- The binders and the parts of a kernel statement. -/
theorem Stm.Scoped.launched {stm : Stm} {k : MapKernel} {n : Nat} (inside : stm.Scoped S) (launched : stm.exp = .launch (.map k))
    (fits : Fits S n stm.bound) : (Kernel.map k).Scoped S ∧ Fits S n (k.threadNames ++ k.body.bound) := by
  constructor
  · exact (launched ▸ inside.2.2 : (Exp.launch (.map k)).Scoped S)
  · rw [← Kernel.bound_map, ← Exp.bound, ← launched]
    exact fits.right

/-- An input that the body does not mention need not be read. -/
theorem dropUnusedInputs_sound : TopDownRule.Sound how dropUnusedInputs := by
  intro table stm names new names' S applied _ fits inside σ _
  obtain ⟨k, launched, _, rfl, rfl⟩ := dropUnusedInputs_eq_some applied
  obtain ⟨inside, fits⟩ := inside.launched launched fits
  apply Replaces.withKernel launched
  intro vs runs
  have entered := (MapKernel.threadNames_eq k ▸ fits.left).enter
  have fewer : ((k.inputs.filter fun i => i.param.name ∈ k.body.free).map fun i => i.param.name).Sublist
      (k.inputs.map fun i => i.param.name) := List.filter_sublist.map _
  have mentioned (i : MapInput) (among : i ∈ k.inputs) (read : i.param.name ∈ k.body.reads) : i.param.name ∈ k.body.free := by
    refine (k.body.free_of_reads read).resolve_right fun bound => ?_
    apply (List.nodup_append.mp fits.distinct).2.2 _ _ _ bound rfl
    rw [MapKernel.threadNames_eq]
    exact List.mem_append_right _ (List.mem_map_of_mem among)
  have kept := @MapKernel.runs_of_computed how S σ _ names'.next k (k.inputs.filter fun i => i.param.name ∈ k.body.free) [] vs
    fits inside (entered.part fun v => fewer.count_le v) (fun i mem => (List.mem_filter.mp mem).1)
    (fun ρ _ _ => ⟨ρ, rfl, fun i among read => .inl (List.mem_filter.mpr ⟨among, decide_eq_true (mentioned i among read)⟩)⟩) runs
  rwa [List.nil_append, Body.eta] at kept

/-- An input that is computed at the top of the body has its value. -/
theorem inlineInputs_sound : TopDownRule.Sound how inlineInputs := by
  intro table stm names new names' S applied within fits inside σ known
  obtain ⟨k, prelude, kept, launched, made, _, rfl⟩ := inlineInputs_eq_some applied
  obtain ⟨inside, fits⟩ := inside.launched launched fits
  apply Replaces.withKernel launched
  intro vs runs
  have scopes := ((Kernel.scoped_map k).mp inside).2.1
  have own : Fits S names.next (k.placeNames ++ k.inputs.map fun i => i.param.name) := MapKernel.threadNames_eq k ▸ fits.left
  have within' : table.Within (S.bind k.placeNames) := within.mono fun _ => .inl
  have moves := inlineEach_moves made within' scopes
  have placed := moves.fits own.enter
  obtain ⟨part, _⟩ := moves.after _ fun _ mem => mem
  refine MapKernel.runs_of_computed fits inside placed part (fun ρ same read => ?_) runs
  have there : table.Known how ρ := by
    apply known.frame within
    intro v visible
    refine .of_eq (same v fun mine => ?_).symm
    rcases List.mem_append.mp mine with place | input
    · exact own.left.apart v place visible
    · exact placed.right.apart v input (.inl visible)
  obtain ⟨τ, ran, values⟩ := inlineEach_runs made within' own.enter scopes there read
  exact ⟨τ, ran, fun i among _ => values i among⟩

end ArrayKernels
