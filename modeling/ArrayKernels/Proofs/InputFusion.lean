import ArrayKernels.Proofs.UnusedInputs
import Mathlib.Data.List.Nodup

/-! Inputs of map kernels that are computed at the top of the body. The definition of an array says what each of its parts is: a
part of an indexed array is a part of the array around it, an element of an iota is a sum, and a part of copies is the copied value
or fewer copies. Every thread then finds the inputs of the kernel with the values that it would have read. -/
namespace ArrayKernels

variable {env place : Env} {table : SymbolTable} {x : Value}

/-! What definitions say -/

/-- The operand is a word of 64 bits, if it is a number at all. -/
def Env.Wide (env : Env) (y : Operand) : Prop := ∀ c, env.scalar y = .ok c → c.type = .i64

namespace Env.Wide

variable {y : Operand}

theorem scalar {n : Int64} (wide : env.Wide y) (h : env.word y = .ok n) : env.scalar y = .ok (.i64 n) := by
  obtain ⟨c, read, word⟩ := word_eq_ok.mp h
  have type := wide c read
  cases c with
  | i64 m =>
    cases word
    exact read
  | bool _ | i32 _ | f32 _ | f64 _ => cases type

theorem congr (wide : place.Wide y) (same : ∀ v ∈ y.free, env.get? v = place.get? v) : env.Wide y := by
  intro c read
  have agree : env.Agree (· ∈ y.free) place := same
  exact wide c (agree.scalar (fun _ mem => mem) ▸ read)

end Env.Wide

theorem Exp.eval_congr_of_leaf {d : Exp} (leaf : d.isNested = false) (same : ∀ v ∈ d.free, env.get? v = place.get? v) :
    d.eval env = d.eval place :=
  Exp.eval_agree (S := (· ∈ d.free)) d ⟨fun _ mem => mem, Exp.bound_of_leaf leaf ▸ fun _ mem => absurd mem List.not_mem_nil⟩ same

/-- Recorded definitions have the values of the names they define, and mention none of the names. -/
structure SymbolTable.Models (table : SymbolTable) (env : Env) (own : List Name) : Prop where
  value : ∀ v d, table.defn v = some d → ∃ x, d.eval env = .ok [x] ∧ env.get? v = some x
  apart : ∀ v d, table.defn v = some d → ∀ w ∈ d.free, w ∉ own

namespace SymbolTable

/-- The name occurs in the input or in the definition of its array. -/
def Needs (table : SymbolTable) (i : MapInput) (v : Name) : Prop :=
  v ∈ i.reads ∨ ∃ d, table.defn i.array = some d ∧ v ∈ d.free

/-- The definition of the array of an input holds, and its parts can be computed. -/
structure Explains (table : SymbolTable) (env : Env) (i : MapInput) : Prop where
  value : ∀ d a, table.defn i.array = some d → d.isNested = false → env.array i.array = .ok a → d.eval env = .ok [.array a]
  indices : ∀ y ∈ i.indices, env.Wide y
  iota : ∀ count start stride, table.defn i.array = some (.iota count start stride) → env.Wide start ∧ env.Wide stride
  copied : ∀ shape y z, table.defn i.array = some (.replicate shape y) → env.operand y = .ok z → z.isSturdy = true

theorem Explains.congr {i : MapInput} (explains : table.Explains place i) (same : ∀ v, table.Needs i v → env.get? v = place.get? v) :
    table.Explains env i := by
  have reads : env.Agree (· ∈ i.reads) place := fun v mem => same v (.inl mem)
  have frees {d : Exp} (defined : table.defn i.array = some d) : env.Agree (· ∈ d.free) place :=
    fun v mem => same v (.inr ⟨d, defined, mem⟩)
  constructor
  · intro d a defined leaf array
    rw [reads.array (by simp [MapInput.reads])] at array
    rw [← explains.value d a defined leaf array]
    exact Exp.eval_congr_of_leaf leaf (frees defined)
  · intro y among
    apply (explains.indices y among).congr
    intro v mem
    exact same v (.inl (NameSet.mem_union.mpr (.inr (NameSet.mem_gather.mpr ⟨y, among, mem⟩))))
  · intro count start stride defined
    obtain ⟨first, step⟩ := explains.iota count start stride defined
    constructor
    · exact first.congr fun v mem => frees defined v (by simp [Exp.free, mem])
    · exact step.congr fun v mem => frees defined v (by simp [Exp.free, mem])
  · intro shape y z defined read
    apply explains.copied shape y z defined
    rwa [← (frees defined).operand fun v mem => by simp [Exp.free, mem]]

end SymbolTable

/-! One input -/

theorem evalStms_single {v : Name} {ty : Ty} {e : Exp} {stms : List Stm} (h : e.eval env = .ok [x]) :
    evalStms env (.single v ty e :: stms) = evalStms (env.bind v x) stms := evalStms_sole h

/-- An element of an iota, by way of a name for its distance from the first one. -/
theorem evalStms_iota {a : ArrayValue} {count start stride i : Operand} {offset : Name} {w : Int64} (v : Name) (ty : Ty)
    (defined : (Exp.iota count start stride).eval env = .ok [.array a]) (word : env.word i = .ok w) (part : a.index [w] = .ok x)
    (wide : env.Wide i ∧ env.Wide start ∧ env.Wide stride) (fresh : offset ∉ start.free) :
    ∃ d, evalStms env [.ofWord offset (.binary .mul i stride), .single v ty (.binary .add start (.var offset))] =
      .ok ((env.bind offset d).bind v x) := by
  obtain ⟨n, _, defined⟩ := bind_eq_ok.mp defined
  obtain ⟨first, begins, defined⟩ := bind_eq_ok.mp defined
  obtain ⟨step, steps, same⟩ := bind_eq_ok.mp defined
  obtain ⟨made, -⟩ := List.cons.inj (Except.ok.inj same)
  obtain rfl := iotaValues_index made part
  have product : (Exp.binary .mul i stride).eval env = .ok [.word (w * step)] := by
    rw [Exp.eval, wide.1.scalar word, ok_bind, wide.2.2.scalar steps]
    rfl
  have agree : (env.bind offset (.word (w * step))).Agree (· ∈ start.free) env := by
    intro u mem
    rw [Env.get?_bind, if_neg]
    rintro rfl
    exact fresh mem
  have distance : (env.bind offset (.word (w * step))).scalar (.var offset) = .ok (.i64 (w * step)) := by
    rw [Env.scalar, Env.operand, Env.lookup_eq_ok.mpr (by rw [Env.get?_bind, if_pos rfl])]
    rfl
  have sum : (Exp.binary .add start (.var offset)).eval (env.bind offset (.word (w * step))) = .ok [.word (first + w * step)] := by
    rw [Exp.eval, agree.scalar fun _ mem => mem, wide.2.1.scalar begins, ok_bind, distance]
    rfl
  refine ⟨.word (w * step), ?_⟩
  rw [Stm.ofWord, evalStms_single product, evalStms_single sum]
  rfl

section
variable {names names' : NameSupply} {input : MapInput} {stms : List Stm}

/-- The bindings that compute an input give it the value that is read from the array, and change no name in use. -/
theorem inlineInput_evaluates {consumed : Bool} (h : inlineInput table consumed input names = some (stms, names'))
    (explains : table.Explains env input) (below : ∀ v, table.Needs input v → v.tag < names.next) (read : input.value env = .ok x) :
    ∃ next, evalStms env stms = .ok next ∧ next.get? input.param.name = some x ∧
      ∀ v, v ≠ input.param.name → v.tag < names.next → next.get? v = env.get? v := by
  obtain ⟨a, array, read⟩ := bind_eq_ok.mp read
  obtain ⟨is, indices, read⟩ := bind_eq_ok.mp read
  have alone {e : Exp} (value : e.eval env = .ok [x]) :
      ∃ next, evalStms env [.single input.param.name input.param.ty e] = .ok next ∧ next.get? input.param.name = some x ∧
        ∀ v, v ≠ input.param.name → v.tag < names.next → next.get? v = env.get? v := by
    refine ⟨env.bind input.param.name x, evalStms_single value, ?_, ?_⟩
    · simp [Env.get?_bind]
    · intro v other _
      simp [Env.get?_bind, other]
  unfold inlineInput at h
  dsimp only at h
  split at h
  · rename_i outer js defined
    split at h <;> cases h
    exact alone (Exp.eval_part_of_index (explains.value _ a defined rfl array) indices read)
  · rename_i v defined
    split at h <;> cases h
    exact alone (Exp.eval_part_of_name (explains.value _ a defined rfl array) indices read)
  · rename_i count start stride defined
    split at h
    · rename_i i only
      cases h
      rw [only] at indices
      obtain ⟨w, word, rfl⟩ := word_of_words indices
      have fresh : (names.fresh "iota_offset").1 ∉ start.free := by
        intro mem
        have need : table.Needs input (names.fresh "iota_offset").1 := .inr ⟨_, defined, by simp [Exp.free, mem]⟩
        exact Nat.lt_irrefl names.next (below _ need)
      obtain ⟨d, ran⟩ := evalStms_iota input.param.name input.param.ty (explains.value _ a defined rfl array) word read
        ⟨explains.indices i (by rw [only]; exact List.mem_cons_self), explains.iota _ _ _ defined⟩ fresh
      refine ⟨_, ran, ?_, ?_⟩
      · simp [Env.get?_bind]
      · intro v other old
        rw [Env.get?_bind, if_neg other, Env.get?_bind, if_neg]
        rintro rfl
        exact Nat.lt_irrefl _ old
    · cases h
  · rename_i shape value defined
    have parts := Exp.eval_part_of_copies (explains.value _ a defined rfl array) (fun z => explains.copied _ _ z defined) indices read
    split at h
    · rename_i full
      split at h <;> cases h
      exact alone (parts.1 full)
    · split at h
      · rename_i short
        cases h
        exact alone (parts.2 short)
      · cases h
  · cases h

theorem inlineInput_grows {consumed : Bool} (h : inlineInput table consumed input names = some (stms, names')) :
    names.next ≤ names'.next := by
  obtain ⟨_, _, _, _, _, _, _, rfl⟩ | ⟨_, _, _, _, _, _, _, rfl⟩ := inlineInput_eq_some h
  · exact Nat.le_refl _
  · exact Nat.le_succ _

end

/-! All inputs -/

/-- All inputs can be computed from what is known at a place of the space, and none is read through another. -/
structure SymbolTable.Serves (table : SymbolTable) (place : Env) (n : Nat) (inputs : List MapInput) : Prop where
  distinct : (inputs.map fun i => i.param.name).Nodup
  explains : ∀ i ∈ inputs, table.Explains place i
  values : ∀ i ∈ inputs, ∃ x, i.value place = .ok x
  bound : ∀ i ∈ inputs, i.param.name.tag < n
  needs : ∀ i ∈ inputs, ∀ v, table.Needs i v → v.tag < n
  apart : ∀ i ∈ inputs, ∀ j ∈ inputs, table.Needs i j.param.name → j.param.name = i.param.name

section
variable {inputs kept : List MapInput} {names names' : NameSupply} {stms : List Stm} {consumed : NameSet}

namespace SymbolTable.Serves

variable {n n' : Nat} {i j : MapInput}

theorem tail (serves : table.Serves place n (i :: inputs)) (le : n ≤ n') : table.Serves place n' inputs where
  distinct := (List.nodup_cons.mp serves.distinct).2
  explains j mem := serves.explains j (List.mem_cons_of_mem _ mem)
  values j mem := serves.values j (List.mem_cons_of_mem _ mem)
  bound j mem := Nat.lt_of_lt_of_le (serves.bound j (List.mem_cons_of_mem _ mem)) le
  needs j mem v need := Nat.lt_of_lt_of_le (serves.needs j (List.mem_cons_of_mem _ mem) v need) le
  apart j mem j' mem' := serves.apart j (List.mem_cons_of_mem _ mem) j' (List.mem_cons_of_mem _ mem')

theorem eq_of_name (serves : table.Serves place n inputs) (first : i ∈ inputs) (second : j ∈ inputs)
    (same : i.param.name = j.param.name) : i = j :=
  List.inj_on_of_nodup_map serves.distinct first second same

end SymbolTable.Serves

theorem inlineEach_sublist (made : inlineEach table consumed inputs names = (stms, kept, names')) : kept.Sublist inputs := by
  induction inputs generalizing names stms kept names' with
  | nil =>
    cases made
    exact .slnil
  | cons input inputs ih =>
    rw [inlineEach] at made
    split at made
    · cases made
      exact (ih rfl).cons _
    · cases made
      exact (ih rfl).cons_cons _

/-- Each input is kept, or has its value once the bindings are evaluated; other names in use do not change. -/
theorem inlineEach_evaluates (made : inlineEach table consumed inputs names = (stms, kept, names'))
    (serves : table.Serves place names.next inputs)
    (agree : ∀ i ∈ inputs, i ∉ kept → ∀ v, table.Needs i v → env.get? v = place.get? v) :
    ∃ next, evalStms env stms = .ok next ∧
      (∀ i ∈ inputs, i ∈ kept ∨ ∃ x, i.value place = .ok x ∧ next.get? i.param.name = some x) ∧
      ∀ v, v.tag < names.next → (∀ i ∈ inputs, v = i.param.name → i ∈ kept) → next.get? v = env.get? v := by
  induction inputs generalizing env names stms kept names' with
  | nil =>
    cases made
    exact ⟨env, rfl, fun _ mem => absurd mem List.not_mem_nil, fun _ _ _ => rfl⟩
  | cons input inputs ih =>
    have other (i : MapInput) (mem : i ∈ inputs) : i.param.name ≠ input.param.name := by
      intro same
      exact (List.nodup_cons.mp serves.distinct).1 (List.mem_map.mpr ⟨i, mem, same⟩)
    have left (i : MapInput) (mem : i ∈ inputs) : i ≠ input := fun same => other i mem (same ▸ rfl)
    rw [inlineEach] at made
    split at made
    · rename_i now names₁ inlined
      rcases later : inlineEach table consumed inputs names₁ with ⟨more, kept', names₂⟩
      rw [later] at made
      cases made
      have absent : input ∉ kept := fun mem => left input ((inlineEach_sublist later).subset mem) rfl
      have here := agree input List.mem_cons_self absent
      obtain ⟨x, read⟩ := serves.values input List.mem_cons_self
      have grows := inlineInput_grows inlined
      have again : input.value env = .ok x := by
        rw [← read]
        exact MapInput.value_congr fun v mem => here v (.inl mem)
      obtain ⟨mid, ran, value, frame⟩ := inlineInput_evaluates inlined ((serves.explains input List.mem_cons_self).congr here)
        (serves.needs input List.mem_cons_self) again
      -- the others are not read through this one
      obtain ⟨next, rest, values, frames⟩ := @ih mid _ _ _ _ later (serves.tail grows) fun i mem gone v need => by
        rw [frame v ?_ (serves.needs i (List.mem_cons_of_mem _ mem) v need)]
        · exact agree i (List.mem_cons_of_mem _ mem) gone v need
        · rintro rfl
          exact other i mem (serves.apart i (List.mem_cons_of_mem _ mem) input List.mem_cons_self need).symm
      refine ⟨next, ?_, List.forall_mem_cons.mpr ⟨.inr ⟨x, read, ?_⟩, values⟩, fun v old spared => ?_⟩
      · rw [evalStms_append, ran]
        exact rest
      · have old := Nat.lt_of_lt_of_le (serves.bound input List.mem_cons_self) grows
        rw [frames _ old fun i mem same => absurd same.symm (other i mem), value]
      · rw [frames v (Nat.lt_of_lt_of_le old grows) fun i mem => spared i (List.mem_cons_of_mem _ mem), frame v ?_ old]
        exact fun same => absent (spared input List.mem_cons_self same)
    · rcases later : inlineEach table consumed inputs names with ⟨more, kept', names₂⟩
      rw [later] at made
      cases made
      have kept_of (i : MapInput) (mem : i ∈ inputs) (stays : i ∈ input :: kept') : i ∈ kept' :=
        (List.mem_cons.mp stays).resolve_left (left i mem)
      obtain ⟨next, ran, values, frames⟩ := @ih env _ _ _ _ later (serves.tail (Nat.le_refl _)) fun i mem gone =>
        agree i (List.mem_cons_of_mem _ mem) fun stays => gone (kept_of i mem stays)
      refine ⟨next, ran, List.forall_mem_cons.mpr ⟨.inl List.mem_cons_self, fun i mem => ?_⟩, fun v old spared => ?_⟩
      · exact (values i mem).imp_left (List.mem_cons_of_mem _)
      · exact frames v old fun i mem same => kept_of i mem (spared i (List.mem_cons_of_mem _ mem) same)

end

/-! Kernels -/

section
variable {k : MapKernel} {names names' : NameSupply} {vs : List Value}

namespace MapKernel

/-- A name that the body mentions or an input is read through is free in the kernel, unless a thread binds it. -/
theorem mem_free_or_bound {v : Name} (mem : v ∈ k.body.free ∨ ∃ i ∈ k.inputs, v ∈ i.reads) :
    v ∈ (Kernel.map k).free ∨ v ∈ (Kernel.map k).bound := by
  obtain ⟨certs, width, thread, space, inputs, returns, body⟩ := k
  by_cases own : v ∈ thread :: space.map Prod.fst ++ inputs.map fun i => i.param.name
  · exact .inr (List.mem_append_left _ own)
  · left
    simp only [Kernel.free, NameSet.mem_union, NameSet.mem_without]
    refine .inr ⟨.inl (mem.imp_right ?_), own⟩
    rintro ⟨i, among, read⟩
    exact NameSet.mem_gather.mpr ⟨i, among, NameSet.mem_union.mpr (.inl read)⟩

/-- Every thread finds its inputs with the values that it would have read. -/
theorem eval_fused {kept : List MapInput} {prelude : List Stm} {consumed : NameSet}
    (made : inlineEach table consumed k.inputs names = (prelude, kept, names')) (separate : Separate k.inputs)
    (serves : ∀ place, k.Place env place → (∀ i ∈ k.inputs, ∃ x, i.value place = .ok x) → table.Serves place names.next k.inputs)
    (below : ∀ v, v ∈ k.body.free ∨ v ∈ k.body.bound → v.tag < names.next) (evaluates : (Kernel.map k).eval env = .ok vs) :
    (Kernel.map { k with inputs := kept, body := ⟨prelude ++ k.body.stms, k.body.result⟩ }).eval env = .ok vs := by
  refine eval_of_threads (fun place e here bound => ?_) evaluates
  have fewer := inlineEach_sublist made
  have values := bindInputs_values separate bound
  have serves := serves place here fun i mem => (values i mem).imp fun _ => And.left
  obtain ⟨e', bound'⟩ := bindInputs_of_values (separate.sublist fewer) fun i mem => serves.values i (fewer.subset mem)
  have values' := bindInputs_values (separate.sublist fewer) bound'
  obtain ⟨next, ran, computed, frame⟩ := @inlineEach_evaluates e' place _ _ _ _ _ _ _ made serves fun i mem gone v need => by
    apply bindInputs_frame bound'
    intro own
    obtain ⟨j, stays, rfl⟩ := List.mem_map.mp own
    have same := serves.apart i mem j (fewer.subset stays) need
    exact gone (serves.eq_of_name (fewer.subset stays) mem same ▸ stays)
  refine ⟨e', bound', fun vs ran' => ?_⟩
  rw [Body.eval, evalStms_append, ran, ok_bind]
  change (⟨k.body.stms, k.body.result⟩ : Body).eval next = _
  rw [Body.eta, ← ran']
  apply Body.eval_agree k.body (S := fun v => v ∈ k.body.free ∨ v ∈ k.body.bound) ⟨fun _ => .inl, fun _ => .inr⟩
  intro v mem
  by_cases own : v ∈ k.inputs.map fun i => i.param.name
  · obtain ⟨i, among, rfl⟩ := List.mem_map.mp own
    obtain ⟨x, read, there⟩ := values i among
    rw [there]
    rcases computed i among with stays | ⟨y, again, value⟩
    · obtain ⟨y, again, there'⟩ := values' i stays
      cases read.symm.trans again
      rw [frame _ (below _ mem) fun j mem' same => serves.eq_of_name among mem' same ▸ stays, there']
    · cases read.symm.trans again
      exact value
  · rw [frame v (below v mem) fun i mem' same => absurd (List.mem_map.mpr ⟨i, mem', same.symm⟩) own, bindInputs_frame bound own]
    exact bindInputs_frame bound' fun own' => own ((fewer.map _).subset own')

namespace Place

variable (here : k.Place env place)
include here

theorem wide {y : Operand} (h : env.Wide y ∨ ∃ v ∈ k.placeNames, y = .var v) : place.Wide y := by
  have counted (v : Name) (own : v ∈ k.placeNames) : place.Wide (.var v) := by
    intro c read
    obtain ⟨n, there⟩ := here.count v own
    rw [Env.scalar, Env.operand, Env.lookup_eq_ok.mpr there] at read
    cases read
    rfl
  rcases h with wide | ⟨v, own, rfl⟩
  · cases y with
    | const c => exact wide
    | var v =>
      by_cases own : v ∈ k.placeNames
      · exact counted v own
      · apply wide.congr
        intro w mem
        cases NameSet.mem_singleton.mp mem
        exact here.frame v own
  · exact counted v own

/-- What definitions say outside of a kernel holds in its threads. -/
theorem explains {i : MapInput} (models : table.Models env (Kernel.map k).bound)
    (indices : ∀ y ∈ i.indices, env.Wide y ∨ ∃ v ∈ k.placeNames, y = .var v)
    (iotas : ∀ v count start stride, table.defn v = some (.iota count start stride) → env.Wide start ∧ env.Wide stride)
    (arrays : ∀ v x, env.get? v = some x → x.isSturdy = true) : table.Explains place i := by
  have outside {v : Name} {d : Exp} (defined : table.defn v = some d) : place.Agree (· ∈ d.free) env := by
    intro w mem
    refine here.frame w fun own => models.apart v d defined w mem ?_
    rw [Kernel.bound_map, threadNames_eq]
    exact List.mem_append_left _ (List.mem_append_left _ own)
  constructor
  · intro d a defined leaf array
    obtain ⟨x, value, there⟩ := models.value _ d defined
    have array := Env.array_eq_ok.mp array
    rw [here.frame] at array
    · cases there.symm.trans array
      rw [← value]
      exact Exp.eval_congr_of_leaf leaf (outside defined)
    · -- the names of a place are those of numbers
      intro own
      obtain ⟨n, count⟩ := here.count _ own
      cases count.symm.trans array
  · exact fun y among => here.wide (indices y among)
  · intro count start stride defined
    obtain ⟨first, step⟩ := iotas _ count start stride defined
    constructor
    · exact first.congr fun v mem => outside defined v (by simp [Exp.free, mem])
    · exact step.congr fun v mem => outside defined v (by simp [Exp.free, mem])
  · intro shape y z defined read
    cases y with
    | const c =>
      cases read
      rfl
    | var v =>
      have there := Env.lookup_eq_ok.mp read
      rw [outside defined v (by simp [Exp.free, Operand.free])] at there
      exact arrays v z there

end Place

end MapKernel

end

/-- Equal steps and equal rows. -/
def sampleDefinitions : SymbolTable :=
  .bindStms .empty [.single ⟨"steps", 1⟩ (.array .i64 [.word 2] false) (.iota (.word 2) (.word 10) (.word 3)),
    .single ⟨"rows", 2⟩ (.array .i64 [.word 2, .word 2] false) (.replicate [.word 2, .word 2] (.word 7))]

theorem sampleDefinitions_defn {v : Name} {d : Exp} (defined : sampleDefinitions.defn v = some d) :
    v = ⟨"steps", 1⟩ ∧ d = .iota (.word 2) (.word 10) (.word 3) ∨
      v = ⟨"rows", 2⟩ ∧ d = .replicate [.word 2, .word 2] (.word 7) := by
  obtain ⟨⟨b, only, rfl⟩, rfl⟩ | ⟨_, defined⟩ := SymbolTable.defn_bindStm defined
  · cases only
    exact .inr ⟨rfl, rfl⟩
  obtain ⟨⟨b, only, rfl⟩, rfl⟩ | ⟨_, defined⟩ := SymbolTable.defn_bindStm defined
  · cases only
    exact .inl ⟨rfl, rfl⟩
  · cases defined

/-- Each thread reads a step, a row and an element of `xs`. -/
def sampleReader : MapKernel :=
  let word : Ty := .scalar .i64
  let row : Ty := .array .i64 [.word 2] false
  let i : Name := ⟨"i", 4⟩
  ⟨[], .word 2, ⟨"t", 3⟩, [(i, .word 2)],
    [⟨⟨⟨"a", 5⟩, word, none⟩, ⟨"steps", 1⟩, [.var i]⟩, ⟨⟨⟨"b", 6⟩, row, none⟩, ⟨"rows", 2⟩, [.var i]⟩,
      ⟨⟨⟨"c", 7⟩, word, none⟩, ⟨"xs", 0⟩, [.var i]⟩],
    [(word, [0]), (row, [0, 1]), (word, [0])], ⟨[], [.var ⟨"a", 5⟩, .var ⟨"b", 6⟩, .var ⟨"c", 7⟩]⟩⟩

def sampleReaderStm : Stm :=
  let row : Ty := .array .i64 [.word 2] false
  ⟨⟨[], [⟨⟨"us", 8⟩, row, none⟩, ⟨⟨"vs", 9⟩, .array .i64 [.word 2, .word 2] false, none⟩, ⟨⟨"ws", 10⟩, row, none⟩]⟩, [],
    .launch (.map sampleReader)⟩

def sampleValues : Env :=
  ((Env.empty.bind ⟨"xs", 0⟩ (.words [5, 6])).bind ⟨"steps", 1⟩ (.words [10, 13])).bind ⟨"rows", 2⟩
    (.array ⟨.i64, [2, 2], #[.i64 7, .i64 7, .i64 7, .i64 7]⟩)

end ArrayKernels
