import ArrayKernels.Proofs.Alike

/-! Comparing what is read from two environments. Everything that the evaluator reads goes through
`Env.lookup`, so that all comparisons start from those of names and operands. -/
namespace ArrayKernels

variable {l : Likeness} {both : Prop} {env env' : Env}

namespace Env

theorem get?_bind (env : Env) (v w : Name) (x : Value) :
    (env.bind v x).get? w = if w = v then some x else env.get? w := by
  rw [get?, bind, List.lookup_cons, get?]
  by_cases h : w = v
  · rw [if_pos h, beq_iff_eq.mpr h]
  · rw [if_neg h, beq_eq_false_iff_ne.mpr h]

theorem get?_bind_self (env : Env) (v : Name) (x : Value) : (env.bind v x).get? v = some x := by
  rw [get?_bind, if_pos rfl]

theorem bindAll_cons (env : Env) (v : Name) (x : Value) (bs : List (Name × Value)) :
    env.bindAll ((v, x) :: bs) = (env.bind v x).bindAll bs := rfl

/-- A name that is not among the new bindings keeps its value. -/
theorem get?_bindAll_of_not_mem {bs : List (Name × Value)} {v : Name} (env : Env) (h : v ∉ bs.map Prod.fst) :
    (env.bindAll bs).get? v = env.get? v := by
  induction bs generalizing env with
  | nil => rfl
  | cons b bs ih =>
    rw [List.map_cons, List.mem_cons, not_or] at h
    rw [bindAll_cons, ih _ h.2, get?_bind, if_neg h.1]

/-- The value of a name that is bound depends on the new bindings alone. -/
theorem get?_bindAll_of_mem {bs : List (Name × Value)} {v : Name} (env env' : Env) (h : v ∈ bs.map Prod.fst) :
    (env.bindAll bs).get? v = (env'.bindAll bs).get? v := by
  induction bs generalizing env env' with
  | nil => cases h
  | cons b bs ih =>
    rw [bindAll_cons, bindAll_cons]
    by_cases later : v ∈ bs.map Prod.fst
    · exact ih _ _ later
    · have here : v = b.1 := (List.mem_cons.mp h).resolve_right later
      rw [get?_bindAll_of_not_mem _ later, get?_bindAll_of_not_mem _ later, get?_bind, get?_bind, if_pos here, if_pos here]

theorem lookup_eq_ok {v : Name} {x : Value} : env.lookup v = .ok x ↔ env.get? v = some x := by
  rw [lookup]
  cases env.get? v <;> simp

theorem array_eq_ok {v : Name} {a : ArrayValue} : env.array v = .ok a ↔ env.get? v = some (.array a) := by
  rw [array, bind_eq_ok]
  simp only [lookup_eq_ok]
  constructor
  · rintro ⟨y, there, h⟩
    cases y with
    | array b =>
      cases h
      exact there
    | scalar c => cases h
    | mem n space => cases h
  · intro there
    exact ⟨.array a, there, rfl⟩

theorem word_eq_ok {y : Operand} {n : Int64} : env.word y = .ok n ↔ ∃ c, env.scalar y = .ok c ∧ c.asWord = some n := by
  rw [word, bind_eq_ok]
  refine exists_congr fun c => and_congr_right fun _ => ?_
  cases c.asWord with
  | none => simp
  | some m => simp

theorem lookup_congr {v : Name} (h : env.get? v = env'.get? v) : env.lookup v = env'.lookup v := by
  rw [lookup, lookup, h]

theorem operand_congr {x : Operand} (same : ∀ v ∈ x.free, env.get? v = env'.get? v) : env.operand x = env'.operand x := by
  cases x with
  | const c => rfl
  | var v => exact lookup_congr (same v (NameSet.mem_singleton.mpr rfl))

section
variable {x x' : Operand} {v v' : Name}

theorem scalar_follows (h : Follows both (Value.Alike l) (env.operand x) (env'.operand x')) :
    Follows both Eq (env.scalar x) (env'.scalar x') := by
  rw [scalar, scalar]
  refine h.bind fun a b _ _ alike => ?_
  cases alike with
  | scalar c => exact .ok rfl
  | array alike => exact .error _ _
  | mem alike => exact .error _ _

theorem word_follows (h : Follows both (Value.Alike l) (env.operand x) (env'.operand x')) :
    Follows both Eq (env.word x) (env'.word x') := by
  rw [word, word]
  refine (scalar_follows h).bind fun c d _ _ same => ?_
  subst same
  cases c.asWord with
  | none => exact .error _ _
  | some n => exact .ok rfl

theorem size_follows (h : Follows both (Value.Alike l) (env.operand x) (env'.operand x')) :
    Follows both Eq (env.size x) (env'.size x') := by
  rw [size, size]
  refine (word_follows h).bind fun n m _ _ same => ?_
  subst same
  exact .ite (fun _ => .error _ _) fun _ => .ok rfl

theorem array_follows (h : Follows both (Value.Alike l) (env.lookup v) (env'.lookup v')) :
    Follows both (ArrayValue.Alike l) (env.array v) (env'.array v') := by
  rw [array, array]
  refine h.bind fun a b _ _ alike => ?_
  cases alike with
  | scalar c => exact .error _ _
  | array alike => exact .ok alike
  | mem alike => exact .error _ _

end

/-- Operands with values that are alike. -/
def OperandsFollow (both : Prop) (l : Likeness) (env env' : Env) : List Operand → List Operand → Prop :=
  List.Forall₂ fun x x' => Follows both (Value.Alike l) (env.operand x) (env'.operand x')

theorem words_follow {xs xs' : List Operand} (h : OperandsFollow both l env env' xs xs') :
    Follows both Eq (xs.mapM env.word) (xs'.mapM env'.word) :=
  (Follows.mapM (h.imp fun _ _ => word_follows)).imp fun _ _ _ _ same => List.forall₂_eq_eq_eq ▸ same

theorem sizes_follow {xs xs' : List Operand} (h : OperandsFollow both l env env' xs xs') :
    Follows both Eq (env.sizes xs) (env'.sizes xs') :=
  (Follows.mapM (h.imp fun _ _ => size_follows)).imp fun _ _ _ _ same => List.forall₂_eq_eq_eq ▸ same

theorem operands_follow {xs xs' : List Operand} (h : OperandsFollow both l env env' xs xs') :
    Follows both (List.Forall₂ (Value.Alike l)) (xs.mapM env.operand) (xs'.mapM env'.operand) :=
  Follows.mapM h

theorem arrays_follow {vs vs' : List Name}
    (h : List.Forall₂ (fun v v' => Follows both (Value.Alike l) (env.lookup v) (env'.lookup v')) vs vs') :
    Follows both (List.Forall₂ (ArrayValue.Alike l)) (vs.mapM env.array) (vs'.mapM env'.array) :=
  Follows.mapM (h.imp fun _ _ => array_follows)

/-- Types of one kind whose sizes have the same values. -/
inductive TypeFollows (both : Prop) (l : Likeness) (env env' : Env) : Ty → Ty → Prop where
  | scalar (e : ScalarType) : TypeFollows both l env env' (.scalar e) (.scalar e)
  | array (e : ScalarType) {shape shape' : List Operand} {unique unique' : Bool}
      (sizes : OperandsFollow both l env env' shape shape') :
      TypeFollows both l env env' (.array e shape unique) (.array e shape' unique')
  | mem (space : Space) {size size' : Operand}
      (follows : Follows both (Value.Alike l) (env.operand size) (env'.operand size')) :
      TypeFollows both l env env' (.mem size space) (.mem size' space)

theorem TypeFollows.elem_eq {ty ty' : Ty} (h : TypeFollows both l env env' ty ty') : ty.elem = ty'.elem := by
  cases h <;> rfl

theorem TypeFollows.shape {ty ty' : Ty} (h : TypeFollows both l env env' ty ty') :
    OperandsFollow both l env env' ty.shape ty'.shape := by
  cases h with
  | scalar e => exact .nil
  | array e sizes => exact sizes
  | mem space follows => exact .nil

theorem blank_follows {ty ty' : Ty} (h : TypeFollows both l env env' ty ty') :
    Follows both (Value.Alike l) (env.blank ty) (env'.blank ty') := by
  cases h with
  | scalar e => exact .ok (.scalar _)
  | array e sizes =>
    refine (sizes_follow sizes).bind fun s s' _ _ same => ?_
    subst same
    exact .ok (.array ⟨rfl, rfl, .inl rfl, fun _ => Array.size_replicate⟩)
  | mem space follows =>
    refine (word_follows follows).bind fun n m _ _ same => ?_
    exact .ok (.mem (.inl same))

end Env

end ArrayKernels
