import ArrayKernels.Proofs.KernelFollows
import ArrayKernels.Proofs.Reads

/-! Expressions without bodies that differ in their operands only. -/
namespace ArrayKernels

/-- The second expression is the first with related operands. A name of an array is an operand here. -/
inductive Exp.Renamed (rel : Operand → Operand → Prop) : Exp → Exp → Prop where
  | operand {x x' : Operand} (h : rel x x') : Renamed rel (.operand x) (.operand x')
  | binary (op : BinOp) {x x' y y' : Operand} (left : rel x x') (right : rel y y') :
      Renamed rel (.binary op x y) (.binary op x' y')
  | compare (op : CmpOp) {x x' y y' : Operand} (left : rel x x') (right : rel y y') :
      Renamed rel (.compare op x y) (.compare op x' y')
  | index {a a' : Name} {is is' : List Operand} (array : rel (.var a) (.var a')) (indices : List.Forall₂ rel is is') :
      Renamed rel (.index a is) (.index a' is')
  | update {a a' : Name} {is is' : List Operand} {x x' : Operand} (array : rel (.var a) (.var a'))
      (indices : List.Forall₂ rel is is') (value : rel x x') : Renamed rel (.update a is x) (.update a' is' x')
  | iota {n n' s s' d d' : Operand} (count : rel n n') (start : rel s s') (stride : rel d d') :
      Renamed rel (.iota n s d) (.iota n' s' d')
  | replicate {dims dims' : List Operand} {x x' : Operand} (shape : List.Forall₂ rel dims dims') (value : rel x x') :
      Renamed rel (.replicate dims x) (.replicate dims' x')
  | reshape {dims dims' : List Operand} {a a' : Name} (shape : List.Forall₂ rel dims dims') (array : rel (.var a) (.var a')) :
      Renamed rel (.reshape dims a) (.reshape dims' a')
  | rearrange (perm : List Nat) {a a' : Name} (array : rel (.var a) (.var a')) :
      Renamed rel (.rearrange perm a) (.rearrange perm a')
  | copy {a a' : Name} (array : rel (.var a) (.var a')) : Renamed rel (.copy a) (.copy a')
  | alloc (space : Space) {n n' : Operand} (size : rel n n') : Renamed rel (.alloc n space) (.alloc n' space)

namespace Exp.Renamed

variable {rel : Operand → Operand → Prop} {e e' : Exp}

theorem self (leaf : e.isNested = false) (const : ∀ c, rel (.const c) (.const c))
    (var : ∀ v ∈ e.free, rel (.var v) (.var v)) : Renamed rel e e := by
  have operand (x : Operand) (part : ∀ v ∈ x.free, v ∈ e.free) : rel x x := by
    cases x with
    | const c => exact const c
    | var v => exact var v (part v (NameSet.mem_singleton.mpr rfl))
  have operands (xs : List Operand) (part : ∀ v ∈ freeOperands xs, v ∈ e.free) : List.Forall₂ rel xs xs :=
    List.forall₂_same.mpr fun x mem => operand x fun v free => part v (NameSet.mem_gather.mpr ⟨x, mem, free⟩)
  cases e with
  | operand x => exact .operand (operand x fun v mem => mem)
  | binary op x y => exact .binary op (operand x fun v mem => by simp [free, mem]) (operand y fun v mem => by simp [free, mem])
  | compare op x y => exact .compare op (operand x fun v mem => by simp [free, mem]) (operand y fun v mem => by simp [free, mem])
  | index a is => exact .index (var a (by simp [free])) (operands is fun v mem => by simp [free, mem])
  | update a is x =>
    exact .update (var a (by simp [free])) (operands is fun v mem => by simp [free, mem]) (operand x fun v mem => by simp [free, mem])
  | iota n s d =>
    exact .iota (operand n fun v mem => by simp [free, mem]) (operand s fun v mem => by simp [free, mem])
      (operand d fun v mem => by simp [free, mem])
  | replicate dims x => exact .replicate (operands dims fun v mem => by simp [free, mem]) (operand x fun v mem => by simp [free, mem])
  | reshape dims a => exact .reshape (operands dims fun v mem => by simp [free, mem]) (var a (by simp [free]))
  | rearrange perm a => exact .rearrange perm (var a (by simp [free]))
  | copy a => exact .copy (var a (by simp [free]))
  | alloc n space => exact .alloc space (operand n fun v mem => mem)
  | branch => exact nomatch leaf
  | loop => exact nomatch leaf
  | launch => exact nomatch leaf

theorem imp {rel' : Operand → Operand → Prop} (more : ∀ x x', rel x x' → rel' x x') (h : Renamed rel e e') :
    Renamed rel' e e' := by
  cases h with
  | operand h => exact .operand (more _ _ h)
  | binary op left right => exact .binary op (more _ _ left) (more _ _ right)
  | compare op left right => exact .compare op (more _ _ left) (more _ _ right)
  | index array indices => exact .index (more _ _ array) (indices.imp more)
  | update array indices value => exact .update (more _ _ array) (indices.imp more) (more _ _ value)
  | iota count start stride => exact .iota (more _ _ count) (more _ _ start) (more _ _ stride)
  | replicate shape value => exact .replicate (shape.imp more) (more _ _ value)
  | reshape shape array => exact .reshape (shape.imp more) (more _ _ array)
  | rearrange perm array => exact .rearrange perm (more _ _ array)
  | copy array => exact .copy (more _ _ array)
  | alloc space size => exact .alloc space (more _ _ size)

theorem isNested_eq (h : Renamed rel e e') : e.isNested = false ∧ e'.isNested = false := by
  cases h <;> exact ⟨rfl, rfl⟩

variable {both : Prop} {l : Likeness} {env env' : Env}

/-- Operands whose values are alike give values that are alike. -/
theorem eval_follows (h : Renamed (fun x x' => Follows both (Value.Alike l) (env.operand x) (env'.operand x')) e e') :
    Follows both (ValuesAlike l) (e.eval env) (e'.eval env') := by
  have one {x y : Value} (alike : x.Alike l y) : ValuesAlike l [x] [y] := .cons alike .nil
  cases h with
  | operand h => exact h.bind fun x y _ _ alike => .ok (one alike)
  | binary op left right =>
    refine (Env.scalar_follows left).bind fun a _ _ _ same => ?_
    subst same
    refine (Env.scalar_follows right).bind fun b _ _ _ same => ?_
    subst same
    exact Follows.bind (.refl fun _ _ => rfl) fun c _ _ _ same => .ok (one (same ▸ .scalar c))
  | compare op left right =>
    refine (Env.scalar_follows left).bind fun a _ _ _ same => ?_
    subst same
    refine (Env.scalar_follows right).bind fun b _ _ _ same => ?_
    subst same
    exact Follows.bind (.refl fun _ _ => rfl) fun c _ _ _ same => .ok (one (same ▸ .scalar _))
  | index array indices =>
    refine (Env.array_follows array).bind fun a b _ _ alike => ?_
    refine (Env.words_follow indices).bind fun is _ _ _ same => ?_
    subst same
    exact (ArrayValue.index_follows alike is).bind fun x y _ _ alike => .ok (one alike)
  | update array indices value =>
    refine (Env.array_follows array).bind fun a b _ _ alike => ?_
    refine (Env.words_follow indices).bind fun is _ _ _ same => ?_
    subst same
    exact (updateAt_follows alike _ _ is value).bind fun a b _ _ alike => .ok (one (.array alike))
  | iota count start stride =>
    refine (Env.size_follows count).bind fun n _ _ _ same => ?_
    subst same
    refine (Env.word_follows start).bind fun first _ _ _ same => ?_
    subst same
    refine (Env.word_follows stride).bind fun step _ _ _ same => ?_
    subst same
    exact .ok (one (words_alike _))
  | replicate shape value =>
    refine (Env.sizes_follow shape).bind fun outer _ _ _ same => ?_
    subst same
    refine value.bind fun x y _ _ alike => ?_
    exact (ArrayValue.replicate_follows alike outer).bind fun a b _ _ alike => .ok (one (.array alike))
  | reshape shape array =>
    refine (Env.array_follows array).bind fun a b _ _ alike => ?_
    refine (Env.sizes_follow shape).bind fun new _ _ _ same => ?_
    subst same
    have reshaped := ArrayValue.reshape_alike alike new
    revert reshaped
    generalize a.reshape new = c
    generalize b.reshape new = d
    intro reshaped
    cases reshaped with
    | none => exact .error _ _
    | some alike => exact .ok (one (.array alike))
  | rearrange perm array =>
    refine (Env.array_follows array).bind fun a b _ _ alike => ?_
    exact (ArrayValue.rearrange_follows alike perm).bind fun a b _ _ alike => .ok (one (.array alike))
  | copy array => exact array.bind fun x y _ _ alike => .ok (one alike)
  | alloc space size =>
    refine (Env.word_follows size).bind fun n _ _ _ same => ?_
    exact .ok (one (.mem (.inl same)))

end Exp.Renamed

end ArrayKernels
