import ArrayKernels.Rule.RuleSet

/-! Rules on the inputs of map kernels. -/
namespace ArrayKernels

/-- Drops the inputs that the body does not mention. -/
def dropUnusedInputs : TopDownRule := fun _ stm names =>
  match stm.exp with
  | .launch (.map k) =>
    let kept := k.inputs.filter fun i => i.param.name ∈ k.body.free
    if kept.length = k.inputs.length then none
    else some ([stm.withKernel (.map { k with inputs := kept })], names)
  | _ => none

/-- Whether a replicated value is an array that must not be shared. -/
def sharesConsumed (table : SymbolTable) (consumed : Bool) : Operand → Bool
  | .var v => consumed && ((table.type v).elim false Ty.isArray)
  | .const _ => false

/-- The bindings that compute an input from the definition of its array. A consumed parameter
must not reach an outer array through an index or a copy. -/
def inlineInput (table : SymbolTable) (consumed : Bool) (input : MapInput) (names : NameSupply) :
    Option (List Stm × NameSupply) :=
  let bind (exp : Exp) : Stm := .single input.param.name input.param.ty exp
  match table.defn input.array with
  | some (.index array indices) =>
    if consumed then none else some ([bind (.index array (indices ++ input.indices))], names)
  | some (.operand (.var array)) =>
    if consumed then none else some ([bind (.index array input.indices)], names)
  | some (.iota _ start stride) =>
    match input.indices with
    | [i] =>
      let (offset, names) := names.fresh "iota_offset"
      some ([.ofWord offset (.binary .mul i stride), bind (.binary .add start (.var offset))], names)
    | _ => none
  | some (.replicate shape value) =>
    if input.indices.length = shape.length then
      if sharesConsumed table consumed value then none else some ([bind (.operand value)], names)
    else if input.indices.length < shape.length then
      some ([bind (.replicate (shape.drop input.indices.length) value)], names)
    else none
  | _ => none

/-- The bindings of all inputs that can be computed, the other inputs, and the names left. -/
def inlineEach (table : SymbolTable) (consumed : NameSet) :
    List MapInput → NameSupply → List Stm × List MapInput × NameSupply
  | [], names => ([], [], names)
  | input :: inputs, names =>
    match inlineInput table (input.param.name ∈ consumed) input names with
    | some (stms, names) =>
      let (prelude, kept, names) := inlineEach table consumed inputs names
      (stms ++ prelude, kept, names)
    | none =>
      let (prelude, kept, names) := inlineEach table consumed inputs names
      (prelude, input :: kept, names)

/-- Computes inputs at the top of the body when their arrays are indexed arrays, copies, iotas
or replicated values. -/
def inlineInputs : TopDownRule := fun table stm names =>
  match stm.exp with
  | .launch (.map k) =>
    let (prelude, kept, names) := inlineEach table k.body.consumed k.inputs names
    if prelude.isEmpty then none
    else some ([stm.withKernel
      (.map { k with inputs := kept, body := ⟨prelude ++ k.body.stms, k.body.result⟩ })], names)
  | _ => none

end ArrayKernels
