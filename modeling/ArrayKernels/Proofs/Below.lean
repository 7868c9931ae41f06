import ArrayKernels.Proofs.Leaves
import ArrayKernels.Proofs.Run

/-! What lenient runs know about names. A statement whose operands are known at least as well has the same
values, and leaves its names known at least as well. -/
namespace ArrayKernels

/-- What the first cell knows about a name, the second knows too. Nothing is known about a name that
failed, except that a hollow one stands for an array without elements. -/
inductive Cell.Below : Cell → Cell → Prop where
  | value (x : Value) {e e' : Option Int64} {f f' : Option Bool} (exact : e = none ∨ e' = e) :
      Cell.Below ⟨some x, e, f⟩ ⟨some x, e', f'⟩
  | failed {e : Option Int64} {c : Cell} : Cell.Below ⟨none, e, some false⟩ c
  | hollow {e e' : Option Int64} : Cell.Below ⟨none, e, some true⟩ ⟨none, e', some true⟩
  | filled {e e' : Option Int64} {f' : Option Bool} {a : ArrayValue} (empty : a.data = #[]) :
      Cell.Below ⟨none, e, some true⟩ ⟨some (.array a), e', f'⟩
  | absent {e e' : Option Int64} : Cell.Below ⟨none, e, none⟩ ⟨none, e', none⟩

/-- The name has a value, or none was looked for. -/
def Cell.known (c : Cell) : Bool := c.value.isSome || c.failed.isNone

namespace Cell.Below

theorem refl (c : Cell) : c.Below c := by
  obtain ⟨_ | x, e, _ | _ | _⟩ := c
  · exact .absent
  · exact .failed
  · exact .hollow
  · exact .value x (.inr rfl)
  · exact .value x (.inr rfl)
  · exact .value x (.inr rfl)

theorem trans {c d e : Cell} (h : c.Below d) (h' : d.Below e) : c.Below e := by
  cases h with
  | value x first =>
    cases h' with
    | value _ second =>
      refine .value x (first.elim .inl fun same => ?_)
      subst same
      exact second
  | failed => exact .failed
  | hollow =>
    cases h' with
    | hollow => exact .hollow
    | filled empty => exact .filled empty
  | filled empty =>
    cases h' with
    | value _ _ => exact .filled empty
  | absent =>
    cases h' with
    | absent => exact .absent

theorem value_eq {c c' : Cell} (h : c.Below c') {x : Value} (there : c.value = some x) : c'.value = some x := by
  cases h with
  | value y _ => exact there
  | failed => cases there
  | hollow => cases there
  | filled _ => cases there
  | absent => cases there

theorem of_hollow {c c' : Cell} (h : c.Below c') (none : c.value = none) (hollow : c.failed = some true) :
    c'.value = .none ∧ c'.failed = some true ∨ ∃ a, c'.value = some (.array a) ∧ a.data = #[] := by
  cases h with
  | value _ _ => cases none
  | failed => cases hollow
  | hollow => exact .inl ⟨rfl, rfl⟩
  | filled empty => exact .inr ⟨_, rfl, empty⟩
  | absent => cases hollow

theorem known {c c' : Cell} (h : c.Below c') (known : c.known = true) : c'.known = true ∧ c.value = c'.value := by
  cases h with
  | value x _ => exact ⟨rfl, rfl⟩
  | failed => cases known
  | hollow => cases known
  | filled _ => cases known
  | absent => exact ⟨rfl, rfl⟩

theorem read_follows {c c' : Cell} (h : c.Below c') (v v' : Name) :
    Follows False (Value.Alike .exact) (c.read v) (c'.read v') := by
  cases h with
  | value x _ => exact .ok (.rfl_exact x)
  | failed => exact .of_error _ _
  | hollow => exact .of_error _ _
  | filled _ => exact .of_error _ _
  | absent => exact .of_error _ _

end Cell.Below

/-- What a store has on an operand. -/
def Store.operandCell (σ : Store) : Operand → Cell
  | .const c => ⟨some (.scalar c), none, none⟩
  | .var v => σ.cell v

/-- The second store knows of the second operand what the first knows of the first. -/
def Store.Below (σ σ' : Store) (x x' : Operand) : Prop := (σ.operandCell x).Below (σ'.operandCell x')

namespace Store

variable {σ σ' : Store}

theorem Below.operand {x x' : Operand} (h : σ.Below σ' x x') :
    Follows False (Value.Alike .exact) (σ.env.operand x) (σ'.env.operand x') := by
  have read (τ : Store) (y : Operand) : ∃ v, τ.env.operand y = (τ.operandCell y).read v := by
    cases y with
    | const c => exact ⟨⟨"", 0⟩, rfl⟩
    | var v => exact ⟨v, rfl⟩
  obtain ⟨v, left⟩ := read σ x
  obtain ⟨v', right⟩ := read σ' x'
  rw [left, right]
  exact Cell.Below.read_follows h v v'

theorem Below.operands {xs xs' : List Operand} (h : List.Forall₂ (σ.Below σ') xs xs') :
    Env.OperandsFollow False .exact σ.env σ'.env xs xs' := h.imp fun _ _ => Below.operand

theorem operand_eq_ok {x : Operand} {y : Value} : σ.env.operand x = .ok y ↔ (σ.operandCell x).value = some y := by
  cases x with
  | const c => simp [Env.operand, operandCell]
  | var v => exact Env.lookup_eq_ok

theorem exactOf_eq (x : Operand) : σ.exactOf x = (σ.operandCell x).exact := by
  cases x <;> rfl

theorem allKnown_iff {vs : NameSet} : σ.allKnown vs = true ↔ ∀ v ∈ vs, (σ.cell v).known = true := by
  rw [allKnown, List.all_eq_true]
  rfl

theorem allKnown_launch {own : List Name} {vs : NameSet} (all : σ.allKnown vs = true) : (σ.launch own).allKnown vs = true := by
  rw [allKnown_iff] at all ⊢
  intro v mem
  by_cases mine : v ∈ own
  · rw [cell_launch mine]
    rfl
  · rw [cell_launch_of_not_mem mine]
    exact all v mem

end Store

theorem Env.bindValues_single {env next : Env} {pat : Pattern} {v : Name} {x : Value} (one : pat.names = [v])
    (h : env.bindValues pat [x] = .ok next) : next.get? v = some x := by
  have length : pat.binders.length = 1 := by
    rw [← List.length_map Binder.name]
    exact congrArg List.length one
  rw [bindValues, if_pos (by rw [length]; rfl), one] at h
  cases h
  exact (get?_bind _ _ _ _).trans (if_pos rfl)

/-- Two patterns bind the same names. -/
structure Pattern.SameNames (pat pat' : Pattern) : Prop where
  all : pat.names = pat'.names
  values : pat.valueNames = pat'.valueNames

namespace Pattern.SameNames

theorem refl (pat : Pattern) : pat.SameNames pat := ⟨rfl, rfl⟩

theorem bindValues_eq {pat pat' : Pattern} (h : pat.SameNames pat') (env : Env) (values : List Value) :
    env.bindValues pat values = env.bindValues pat' values := by
  have length (p : Pattern) : p.binders.length = p.names.length ∧ p.values.length = p.valueNames.length :=
    ⟨(List.length_map _).symm, (List.length_map _).symm⟩
  rw [Env.bindValues, Env.bindValues, (length pat).1, (length pat).2, (length pat').1, (length pat').2, h.all, h.values]

theorem soleName {pat pat' : Pattern} (h : pat.SameNames pat') (sole : pat.soleName.isSome = true) :
    pat'.soleName.isSome = true := by
  obtain ⟨b, rfl⟩ := Pattern.eq_of_soleName sole
  obtain ⟨context, values⟩ := pat'
  have one : values.length = 1 := by
    rw [← List.length_map Binder.name]
    exact (congrArg List.length h.values).symm
  have all : (context ++ values).length = 1 := by
    rw [← List.length_map Binder.name]
    exact (congrArg List.length h.all).symm
  obtain ⟨b', rfl⟩ := List.length_eq_one_iff.mp one
  rw [List.length_append, one] at all
  obtain rfl := List.eq_nil_of_length_eq_zero (Nat.succ.inj all)
  rfl

end Pattern.SameNames

namespace Mode

variable {how : Leniency} {σ σ' : Store} {pat pat' : Pattern} {e e' : Exp} {r r' : Eval (List Value)}

/-- Binding the same values to the same names. -/
theorem bindValues_hidden {env next : Env} {values : List Value} (env' : Env) (names : pat.SameNames pat')
    (h : (env.hide pat.names).bindValues pat values = .ok next) :
    ∃ next', (env'.hide pat'.names).bindValues pat' values = .ok next' ∧ ∀ v ∈ pat.names, next.get? v = next'.get? v := by
  rw [names.bindValues_eq, ← names.all] at *
  have bound (vs : List Name) (v : Name) (mem : v ∈ pat.names) :
      ((env.hide pat.names).bindAll (vs.zip values)).get? v = ((env'.hide pat.names).bindAll (vs.zip values)).get? v := by
    by_cases given : v ∈ (vs.zip values).map Prod.fst
    · exact Env.get?_bindAll_of_mem _ _ given
    · rw [Env.get?_bindAll_of_not_mem _ given, Env.get?_bindAll_of_not_mem _ given, Env.get?_hide, Env.get?_hide,
        if_pos mem, if_pos mem]
  rw [Env.bindValues] at h
  split at h
  · rename_i full
    cases h
    exact ⟨_, if_pos full, bound _⟩
  · rename_i part
    split at h
    · rename_i full
      cases h
      exact ⟨_, (if_neg part).trans (if_pos full), bound _⟩
    · cases h

theorem settle_of_ok {env : Env} (h : (r >>= fun values => (σ.env.hide pat.names).bindValues pat values) = .ok env) :
    (lenient how).settle σ pat e r = .ok ⟨env, σ.notes.settle pat.names (σ.fullProduct e)⟩ := by
  unfold settle
  dsimp only
  rw [h]

theorem settle_of_error {err : EvalError}
    (h : (r >>= fun values => (σ.env.hide pat.names).bindValues pat values) = .error err) :
    (lenient how).settle σ pat e r =
      if how.lax || e.isSpeculable then .ok ⟨σ.env.hide pat.names, σ.notes.fail pat.names (σ.hollow pat e)⟩ else .error err := by
  unfold settle
  dsimp only
  rw [h]

theorem cell_settle {v : Name} (mem : v ∈ pat.names) (env : Env) (product : Option Int64) :
    Store.cell ⟨env, σ.notes.settle pat.names product⟩ v = ⟨env.get? v, product, none⟩ := by
  simp [Store.cell, Notes.settle, mem]

theorem cell_fail {v : Name} (mem : v ∈ pat.names) (hollow : Bool) :
    Store.cell ⟨σ.env.hide pat.names, σ.notes.fail pat.names hollow⟩ v = ⟨none, none, some hollow⟩ := by
  simp [Store.cell, Notes.fail, mem, Env.get?_hide]

theorem names_of_hollow (h : σ.hollow pat e = true) : ∃ v, pat.names = [v] := by
  have sole : pat.soleName.isSome = true := by
    unfold Store.hollow at h
    split at h
    · split at h
      · exact (Bool.and_eq_true_iff.mp h).1
      · cases h
    · cases h
  obtain ⟨b, rfl⟩ := Pattern.eq_of_soleName sole
  exact ⟨b.name, rfl⟩

/-- An expression that knows more binds names of which more is known. -/
theorem settle_below (names : pat.SameNames pat') (movable : e.isSpeculable = true → e'.isSpeculable = true)
    (values : Follows False Eq r r')
    (product : ∀ vs, r = .ok vs → σ.fullProduct e = none ∨ σ'.fullProduct e' = σ.fullProduct e)
    (hollow : σ.hollow pat e = true → σ'.hollow pat' e' = true ∧ ∀ vs, r' = .ok vs → ∃ a, vs = [.array a] ∧ a.data = #[]) :
    Follows False (fun τ τ' => ∀ v ∈ pat.names, (τ.cell v).Below (τ'.cell v))
      ((lenient how).settle σ pat e r) ((lenient how).settle σ' pat' e' r') := by
  cases ran : (r >>= fun values => (σ.env.hide pat.names).bindValues pat values) with
  | ok env =>
    obtain ⟨vs, value, bound⟩ := bind_eq_ok.mp ran
    obtain ⟨_, value', rfl⟩ := values.forth vs value
    obtain ⟨env', bound', same⟩ := bindValues_hidden σ'.env names bound
    rw [settle_of_ok ran, settle_of_ok (bind_eq_ok.mpr ⟨vs, value', bound'⟩)]
    refine .ok fun v mem => ?_
    rw [cell_settle mem, cell_settle (names.all ▸ mem), same v mem]
    cases env'.get? v with
    | none => exact .absent
    | some x => exact .value x (product vs value)
  | error err =>
    rw [settle_of_error ran]
    by_cases skipped : (how.lax || e.isSpeculable) = true
    · have skipped' : (how.lax || e'.isSpeculable) = true := by
        rw [Bool.or_eq_true] at skipped ⊢
        exact skipped.imp_right movable
      rw [if_pos skipped]
      cases ran' : (r' >>= fun values => (σ'.env.hide pat'.names).bindValues pat' values) with
      | ok env' =>
        rw [settle_of_ok ran']
        refine .ok fun v mem => ?_
        rw [cell_fail mem, cell_settle (names.all ▸ mem)]
        cases empty : σ.hollow pat e with
        | false => exact .failed
        | true =>
          obtain ⟨vs, value, bound⟩ := bind_eq_ok.mp ran'
          obtain ⟨a, rfl, none⟩ := (hollow empty).2 vs value
          obtain ⟨w, one⟩ := names_of_hollow empty
          obtain rfl : v = w := List.mem_singleton.mp (one ▸ mem)
          rw [Env.bindValues_single (names.all ▸ one) bound]
          exact .filled none
      | error err' =>
        rw [settle_of_error ran', if_pos skipped']
        refine .ok fun v mem => ?_
        rw [cell_fail mem, cell_fail (names.all ▸ mem)]
        cases empty : σ.hollow pat e with
        | false => exact .failed
        | true =>
          rw [(hollow empty).1]
          exact .hollow
    · rw [if_neg skipped]
      exact .of_error _ _

end Mode

theorem ValuesAlike.eq_of_exact {xs ys : List Value} (h : ValuesAlike .exact xs ys) : xs = ys := by
  induction h with
  | nil => rfl
  | cons head _ ih => rw [head.eq, ih]

theorem Lenient.binary_mono {op : BinOp} {a b c : Scalar} {product product' : Option Int64}
    (more : product = none ∨ product' = product) (h : Lenient.binary op a b product = .ok c) :
    Lenient.binary op a b product' = .ok c := by
  obtain rfl | rfl := more
  · unfold Lenient.binary at h ⊢
    split at h <;> simp_all
  · exact h

theorem Store.Below.exact {σ σ' : Store} {x x' : Operand} (h : σ.Below σ' x x') {b : Scalar} (there : σ.env.scalar x = .ok b) :
    σ.exactOf x = none ∨ σ'.exactOf x' = σ.exactOf x := by
  rw [Store.exactOf_eq, Store.exactOf_eq]
  obtain ⟨y, read, _⟩ := bind_eq_ok.mp there
  have there := Store.operand_eq_ok.mp read
  unfold Store.Below at h
  generalize σ.operandCell x = c at h there
  generalize σ'.operandCell x' = c' at h
  cases h with
  | value _ more => exact more
  | failed => cases there
  | hollow => cases there
  | filled _ => cases there
  | absent => cases there

theorem ArrayValue.replicate_empty {outer : List Nat} {x : Value} {a : ArrayValue} (none : volume outer = 0)
    (h : ArrayValue.replicate outer x = .ok a) : a.data = #[] := by
  cases x with
  | scalar c =>
    cases h
    rw [none]
    rfl
  | array b =>
    cases h
    exact Array.eq_empty_of_size_eq_zero (by rw [ArrayValue.size_copies, none, Nat.zero_mul])
  | mem n space => cases h

theorem Lenient.leaf_reshape (typed : Bool) (σ : Store) (shape : List Operand) (array : Name) :
    Lenient.leaf typed σ (.reshape shape array) =
      if (σ.env.get? array).isNone then
        if σ.notes.failed array = some true then Lenient.fill σ shape array else .error (.unbound array)
      else (do .ok ((← (Exp.reshape shape array).eval σ.env).map (Value.settled typed))) := rfl

/-- An array without elements gives what a hollow name gives. -/
theorem Lenient.reshape_empty {typed : Bool} {σ : Store} {shape : List Operand} {array : Name} {a : ArrayValue} {new : List Nat}
    (there : σ.env.get? array = some (.array a)) (empty : a.data = #[]) (sized : σ.env.sizes shape = .ok new)
    (fits : volume new = 0 ∧ new ≠ []) :
    Lenient.leaf typed σ (.reshape shape array) = .ok [.array ⟨.bool, new, #[]⟩] := by
  have read : σ.env.array array = .ok a := by
    rw [Env.array, Env.lookup_eq_ok.mpr there]
    rfl
  have reshaped : a.reshape new = some { a with shape := new } := by
    rw [ArrayValue.reshape, empty]
    exact if_pos fits
  have value : (Exp.reshape shape array).eval σ.env = .ok [.array { a with shape := new }] := by
    rw [Exp.eval, read, ok_bind, sized, ok_bind, reshaped]
  rw [Lenient.leaf_reshape, there, value]
  simp [ok_bind, Value.settled, empty]

namespace Exp.Renamed

variable {typed : Bool} {σ σ' : Store} {e e' : Exp}

theorem reshape_follows {shape shape' : List Operand} {a a' : Name} (sizes : List.Forall₂ (σ.Below σ') shape shape')
    (array : σ.Below σ' (.var a) (.var a')) :
    Follows False Eq (Lenient.leaf typed σ (.reshape shape a)) (Lenient.leaf typed σ' (.reshape shape' a')) := by
  cases there : σ.env.get? a with
  | some x =>
    have there' : σ'.env.get? a' = some x := Cell.Below.value_eq array there
    rw [Lenient.leaf_reshape, Lenient.leaf_reshape, there, there']
    refine Follows.bind (?_ : Follows False Eq _ _) fun vs _ _ _ same => .ok (by rw [same])
    exact ((Exp.Renamed.reshape sizes array).imp fun _ _ => Store.Below.operand).eval_follows.imp
      fun _ _ _ _ => ValuesAlike.eq_of_exact
  | none =>
    rw [Lenient.leaf_reshape, there]
    by_cases hollow : σ.notes.failed a = some true
    · rw [if_pos hollow]
      refine ⟨fun vs filled => ?_, False.elim⟩
      obtain ⟨new, sized, filled⟩ := bind_eq_ok.mp filled
      obtain ⟨_, sized', rfl⟩ := (Env.sizes_follow (Store.Below.operands sizes)).forth new sized
      split at filled
      · rename_i fits
        cases filled
        obtain ⟨none', hollow'⟩ | ⟨arr, there', empty⟩ := Cell.Below.of_hollow array there hollow
        · have none' : σ'.env.get? a' = none := none'
          have hollow' : σ'.notes.failed a' = some true := hollow'
          refine ⟨_, ?_, rfl⟩
          rw [Lenient.leaf_reshape, none', hollow', Lenient.fill, sized', ok_bind, if_pos fits]
          rfl
        · exact ⟨_, Lenient.reshape_empty there' empty sized' fits, rfl⟩
      · cases filled
    · rw [if_neg hollow]
      exact .of_error _ _

theorem leaf_follows (h : e.Renamed (σ.Below σ') e') : Follows False Eq (Lenient.leaf typed σ e) (Lenient.leaf typed σ' e') := by
  have strict (h : e.Renamed (σ.Below σ') e') : Follows False Eq (e.eval σ.env) (e'.eval σ'.env) :=
    (h.imp fun _ _ => Store.Below.operand).eval_follows.imp fun _ _ _ _ => ValuesAlike.eq_of_exact
  cases h with
  | operand x => exact strict (.operand x)
  | compare op left right => exact strict (.compare op left right)
  | index array indices => exact strict (.index array indices)
  | update array indices value => exact strict (.update array indices value)
  | rearrange perm array => exact strict (.rearrange perm array)
  | copy array => exact strict (.copy array)
  | alloc space size => exact strict (.alloc space size)
  | binary op left right =>
    refine (Env.scalar_follows left.operand).bind fun a _ _ _ same => ?_
    subst same
    refine (Env.scalar_follows right.operand).bind fun b _ read _ same => ?_
    subst same
    refine Follows.bind (?_ : Follows False Eq _ _) fun c _ _ _ same => .ok (by rw [same])
    exact ⟨fun c value => ⟨c, Lenient.binary_mono (right.exact read) value, rfl⟩, False.elim⟩
  | iota count start stride =>
    refine (Env.size_follows count.operand).bind fun n _ _ _ same => ?_
    subst same
    refine (Env.scalar_follows start.operand).bind fun first _ _ _ same => ?_
    subst same
    cases first with
    | i64 first =>
      refine (Env.word_follows stride.operand).bind fun step _ _ _ same => ?_
      exact .ok (by rw [same])
    | bool _ => exact .of_error _ _
    | i32 _ => exact .of_error _ _
    | f32 _ => exact .of_error _ _
    | f64 _ => exact .of_error _ _
  | replicate shape value =>
    refine (Env.sizes_follow (Store.Below.operands shape)).bind fun outer _ _ _ same => ?_
    subst same
    refine value.operand.bind fun x y _ _ alike => ?_
    obtain rfl := alike.eq
    exact .refl fun _ _ => rfl
  | reshape shape array => exact reshape_follows shape array

theorem isSpeculable_eq (h : e.Renamed (σ.Below σ') e') : e.isSpeculable = e'.isSpeculable := by
  cases h <;> rfl

theorem fullProduct_eq (h : e.Renamed (σ.Below σ') e') {vs : List Value} (ran : Lenient.leaf typed σ e = .ok vs) :
    σ'.fullProduct e' = σ.fullProduct e := by
  cases h with
  | binary op left right =>
    obtain ⟨a, first, rest⟩ := bind_eq_ok.mp ran
    obtain ⟨b, second, _⟩ := bind_eq_ok.mp rest
    obtain ⟨_, first', rfl⟩ := (Env.scalar_follows left.operand).forth a first
    obtain ⟨_, second', rfl⟩ := (Env.scalar_follows right.operand).forth b second
    cases op with
    | mul => rw [Store.fullProduct, Store.fullProduct, first, second, first', second']
    | _ => rfl
  | _ => rfl

theorem hollow_of_hollow (h : e.Renamed (σ.Below σ') e') {pat pat' : Pattern} (names : pat.SameNames pat')
    (hollow : σ.hollow pat e = true) :
    σ'.hollow pat' e' = true ∧ ∀ vs, Lenient.leaf typed σ' e' = .ok vs → ∃ a, vs = [.array a] ∧ a.data = #[] := by
  cases h with
  | replicate shape value =>
    rw [Store.hollow] at hollow ⊢
    split at hollow
    · rename_i outer sized
      obtain ⟨_, sized', rfl⟩ := (Env.sizes_follow (Store.Below.operands shape)).forth outer sized
      rw [Bool.and_eq_true, beq_iff_eq] at hollow
      constructor
      · simp [sized', names.soleName hollow.1, hollow.2]
      · intro vs ran
        obtain ⟨_, again, ran⟩ := bind_eq_ok.mp ran
        cases sized'.symm.trans again
        obtain ⟨x, _, ran⟩ := bind_eq_ok.mp ran
        split at ran
        · obtain ⟨a, copied, made⟩ := bind_eq_ok.mp ran
          cases made
          exact ⟨a, rfl, ArrayValue.replicate_empty hollow.2 copied⟩
        · cases ran
    · cases hollow
  | _ => cases hollow

/-- A statement without bodies, with operands of which more is known. -/
theorem settle_below (h : e.Renamed (σ.Below σ') e') {pat pat' : Pattern} (names : pat.SameNames pat') {how : Leniency} :
    Follows False (fun τ τ' => ∀ v ∈ pat.names, (τ.cell v).Below (τ'.cell v))
      ((Mode.lenient how).settle σ pat e (Lenient.leaf typed σ e))
      ((Mode.lenient how).settle σ' pat' e' (Lenient.leaf typed σ' e')) :=
  Mode.settle_below names (fun movable => h.isSpeculable_eq ▸ movable) h.leaf_follows
    (fun _ ran => .inr (h.fullProduct_eq ran)) (h.hollow_of_hollow names)

end Exp.Renamed

/-- The sizes of rows are read alike where none of their names was passed over. -/
theorem Store.rowShape_eq {σ σ' : Store} {ty ty' : Ty}
    (h : List.Forall₂ (fun x x' => σ.Below σ' x x' ∧ (σ.operandCell x).known = true) ty.row.shape ty'.row.shape) :
    σ.env.rowShape ty = σ'.env.rowShape ty' := by
  have sizes : Env.OperandsFollow True .exact σ.env σ'.env ty.row.shape ty'.row.shape := by
    refine h.imp fun x x' ⟨below, known⟩ => ⟨fun y read => ?_, fun _ y read => ?_⟩
    · refine ⟨y, ?_, .rfl_exact y⟩
      rw [Store.operand_eq_ok, ← (Cell.Below.known below known).2]
      exact Store.operand_eq_ok.mp read
    · refine ⟨y, ?_, .rfl_exact y⟩
      rw [Store.operand_eq_ok, (Cell.Below.known below known).2]
      exact Store.operand_eq_ok.mp read
  rw [Env.rowShape, Env.rowShape, (Env.sizes_follow sizes).toOption_eq]

namespace Mode

variable {σ σ' : Store}

/-- A condition that the second run meets if the first does. -/
theorem check_follows {α β : Type} {rel : α → β → Prop} {c c' : Bool} {x : Eval α} {y : Eval β} {err err' : EvalError}
    (more : c = true → c' = true) (h : c = true → Follows False rel x y) :
    Follows False rel (if c then x else .error err) (if c' then y else .error err') := by
  cases c with
  | false => exact .of_error _ _
  | true =>
    rw [more rfl]
    exact h rfl

theorem map_follows {how : Leniency} {k k' : MapKernel} {run run' : Env → Eval (List Value)} {T : Env → Env → Prop}
    (space : k.space ≠ [] → k'.space ≠ []) (width : Follows False Eq (σ.env.size k.width) (σ'.env.size k'.width))
    (extents : Follows False Eq (σ.env.sizes k.extents) (σ'.env.sizes k'.extents))
    (threads : ∀ dims t, σ.env.sizes k.extents = .ok dims →
      Follows False T (k.threadEnv dims σ.env t) (k'.threadEnv dims σ'.env t))
    (body : ∀ e e', T e e' → Follows False (ValuesAlike .exact) (run e) (run' e'))
    (returns : List.Forall₂ (fun r r' => r.1.elem = r'.1.elem ∧ r.2 = r'.2 ∧
      Follows False Eq (σ.env.sizes r.1.shape) (σ'.env.sizes r'.1.shape)) k.returns k'.returns) :
    Follows False (ValuesAlike .exact) ((lenient how).map σ k run) ((lenient how).map σ' k' run') := by
  have declares (values : List Value) : k.declares how.typed values = k'.declares how.typed values := by
    rw [MapKernel.declares, MapKernel.declares]
    generalize k.returns = rs at returns
    generalize k'.returns = rs' at returns
    induction returns generalizing values with
    | nil => simp
    | cons head _ ih =>
      cases values with
      | nil => rfl
      | cons x values => rw [List.zip_cons_cons, List.zip_cons_cons, List.all_cons, List.all_cons, ih, Value.hasElem, Value.hasElem, head.1]
  by_cases empty : k.space = []
  · rw [map, if_pos empty]
    exact .of_error _ _
  rw [map, map, if_neg empty, if_neg (space empty)]
  refine Follows.bind (?_ : Follows False (ValuesAlike .exact) _ _) fun vs vs' _ _ alike => ?_
  · refine MapKernel.run_follows width extents threads (fun e e' _ _ related => ?_) returns
    refine (body e e' related).bind fun values values' _ _ alike => ?_
    obtain rfl := alike.eq_of_exact
    rw [declares]
    exact check_follows id fun _ => .ok alike
  · obtain rfl := alike.eq_of_exact
    exact .ok (List.forall₂_same.mpr fun x _ => .rfl_exact x)

end Mode

end ArrayKernels
