import ArrayKernels.Proofs.Completion
import ArrayKernels.Proofs.Congruence
import ArrayKernels.Proofs.Monotone

/-! What lenient runs have to do with the evaluator. Code that is as the rules expect it has in a lenient run the values that the
evaluator gives it, up to the element types that a lenient run does not keep. The other way round the evaluator has the values of a
lenient run if no statement fails that a lenient run may pass over. -/
namespace ArrayKernels

/-- Element types of arrays without elements may differ, and those of all arrays if types do not count. -/
def Leniency.likeness (how : Leniency) : Likeness := ⟨False, how.typed = false, True, True, fun _ => trivial⟩

/-- An array has a dimension. -/
def Value.HasRank : Value → Prop
  | .array a => a.shape ≠ []
  | _ => True

/-- The kernel has a space, and its threads return no array without dimensions and, as far as types count, the element types that are
declared. -/
def MapKernel.Conforms (typed : Bool) (env : Env) (k : MapKernel) : Prop :=
  k.space ≠ [] ∧ ∀ thread values, k.Feeds (fun e => k.body.eval e) env thread → k.body.eval thread = .ok values →
    ∀ vr ∈ values.zip k.returns, vr.1.HasRank ∧ vr.1.hasElem typed vr.2.1 = true

/-- The statement is as the rules expect it: an iota starts from a 64-bit word, and no array without dimensions is copied. -/
def Stm.Conforms (typed : Bool) (env : Env) (stm : Stm) : Prop :=
  match stm.exp with
  | .iota _ start _ => ∀ c, env.scalar start = .ok c → c.type = .i64
  | .replicate _ value => ∀ x, env.operand value = .ok x → x.HasRank
  | .launch (.map k) => k.Conforms typed env
  | _ => True

section
variable {how : Leniency} {x y : Value}

theorem Value.Alike.isSturdy (h : x.Alike how.likeness y) (ranked : x.HasRank) : y.isSturdy = true := by
  cases h with
  | scalar c => rfl
  | mem alike => rfl
  | array alike =>
    rename_i a b
    have regular : a.data.size = volume a.shape := alike.regular trivial
    have ranked : a.shape ≠ [] := ranked
    rw [Value.isSturdy, ← alike.data, ← alike.shape, regular]
    simpa using ranked

theorem Value.Alike.hasElem {ty : Ty} (h : x.Alike how.likeness y) (typed : x.hasElem how.typed ty = true) :
    y.hasElem how.typed ty = true := by
  cases h with
  | scalar c => exact typed
  | mem alike => exact typed
  | array alike =>
    rename_i a b
    obtain same | untyped | ⟨_, empty⟩ := alike.elem
    · rw [Value.hasElem, Value.isVoid, Value.elem] at typed ⊢
      rwa [← alike.data, ← same]
    · rw [Value.hasElem, show how.typed = false from untyped]
      rfl
    · rw [Value.hasElem, Value.isVoid, ← alike.data, empty]
      simp

/-- A lenient run changes nothing about an array but an element type that may differ. -/
theorem Value.settled_array (how : Leniency) (a : ArrayValue) :
    ∃ elem, (Value.array a).settled how.typed = .array { a with elem } ∧ (elem = a.elem ∨ how.likeness.Overlooks a.data) := by
  rw [Value.settled]
  split
  · exact ⟨a.elem, rfl, .inl rfl⟩
  · rename_i overlooked
    rw [Bool.and_eq_true, not_and_or, Bool.not_eq_true, Bool.not_eq_true, Bool.not_eq_false', Array.isEmpty_iff] at overlooked
    exact ⟨.bool, rfl, .inr (overlooked.imp_right fun empty => ⟨trivial, empty⟩)⟩

theorem Value.Alike.settled_right (h : x.Alike how.likeness y) : x.Alike how.likeness (y.settled how.typed) := by
  cases h with
  | scalar c => exact .scalar c
  | mem alike => exact .mem alike
  | @array a b alike =>
    obtain ⟨elem, settled, same⟩ := Value.settled_array how b
    rw [settled]
    refine .array ⟨alike.shape, alike.data, ?_, alike.regular⟩
    rcases same with rfl | overlooked
    · exact alike.elem
    · exact .inr (alike.data ▸ overlooked)

theorem Value.Alike.settled_left (h : x.Alike how.likeness y) : (x.settled how.typed).Alike how.likeness y := by
  cases h with
  | scalar c => exact .scalar c
  | mem alike => exact .mem alike
  | @array a b alike =>
    obtain ⟨elem, settled, same⟩ := Value.settled_array how a
    rw [settled]
    refine .array ⟨alike.shape, alike.data, ?_, alike.regular⟩
    rcases same with rfl | overlooked
    · exact alike.elem
    · exact .inr overlooked

/-- Where types count, alike values differ at most in the element types of arrays without elements. -/
theorem Value.Alike.settled_eq (h : x.Alike how.likeness y) (typed : how.typed = true) : x.settled true = y.settled true := by
  cases h with
  | scalar c => rfl
  | mem alike => rw [alike.resolve_right id]
  | @array a b alike =>
    obtain ⟨elem, shape, data⟩ := a
    obtain ⟨elem', shape', data'⟩ := b
    obtain ⟨rfl, rfl, same, _⟩ := alike
    obtain rfl | untyped | ⟨_, rfl⟩ := same
    · rfl
    · cases typed.symm.trans untyped
    · rfl

theorem Value.settled_of_not_void (full : x.isVoid = false) : x.settled true = x := by
  cases x with
  | scalar c => rfl
  | mem n space => rfl
  | array a =>
    have full : a.data.isEmpty = false := full
    rw [settled, full]
    rfl

theorem Value.isVoid_settled (typed : Bool) (x : Value) : (x.settled typed).isVoid = x.isVoid := by
  cases x with
  | scalar c => rfl
  | mem n space => rfl
  | array a =>
    rw [settled]
    split <;> rfl

end

/-! From the evaluator to lenient runs -/

/-- Names have values that are alike, or none; nothing was passed over. -/
def relaxing (how : Leniency) : Simulation False how.likeness .strict (.lenient how) where
  rel c c' := (∃ x y, c.value = some x ∧ c'.value = some y ∧ x.Alike how.likeness y) ∨ c.value = none ∧ c'.value = none ∧ c'.failed = none
  clean c _ := c.value = none
  fine := Stm.Conforms how.typed
  fine' _ _ := True
  look := by
    rintro c c' (⟨x, y, left, right, alike⟩ | ⟨left, _, _⟩) v
    · rw [Cell.read, Cell.read, left, right]
      exact .ok alike
    · rw [Cell.read, left]
      exact .of_error _ _
  given alike := .inl ⟨_, _, rfl, rfl, alike⟩

namespace relaxing

variable {how : Leniency} {σ σ' : Store}

theorem settle_follows {pat : Pattern} {e : Exp} {r r' : Eval (List Value)} (clean : (relaxing how).Clean σ σ' pat.names)
    (values : Follows False (ValuesAlike how.likeness) r r') :
    Follows False ((relaxing how).Binds pat) (Mode.strict.settle σ pat e r) ((Mode.lenient how).settle σ' pat e r') := by
  refine ⟨fun τ ran => ?_, False.elim⟩
  obtain ⟨vs, value, ran⟩ := bind_eq_ok.mp ran
  obtain ⟨env, bound, made⟩ := bind_eq_ok.mp ran
  cases made
  obtain ⟨vs', value', alike⟩ := values.forth vs value
  obtain ⟨env', bound', given⟩ := (@bindValues_follows False _ σ.env (σ'.env.hide pat.names) pat _ _ alike).forth env bound
  refine ⟨_, Mode.settle_of_ok (bind_eq_ok.mpr ⟨vs', value', bound'⟩), fun v mem => ?_⟩
  rw [Mode.cell_settle mem]
  obtain ⟨x, y, left, right, alike⟩ | ⟨left, right⟩ := given v mem
  · exact .inl ⟨x, y, left, right, alike⟩
  · refine .inr ⟨left.trans (clean v mem), right.trans ?_, rfl⟩
    rw [Env.get?_hide, if_pos mem]

theorem binary_of_ok {op : BinOp} {a b c : Scalar} (h : liftScalar (op.apply a b) = .ok c) (product : Option Int64) :
    Lenient.binary op a b product = .ok c := by
  cases applied : op.apply a b with
  | error e =>
    rw [applied] at h
    cases h
  | ok d =>
    rw [applied] at h
    cases h
    simp only [Lenient.binary, applied]

/-- An expression without bodies. -/
theorem leaf_follows {pat : Pattern} {certs : List Name} {e : Exp} (leaf : e.isNested = false)
    (fine : Stm.Conforms how.typed σ.env ⟨pat, certs, e⟩) (agree : (relaxing how).Agree σ σ' e.free) :
    Follows False (ValuesAlike how.likeness) (e.eval σ.env) (Lenient.leaf how.typed σ' e) := by
  have one {x y : Value} (alike : x.Alike how.likeness y) : ValuesAlike how.likeness [x] [y] := .cons alike .nil
  have renamed := agree.renamed leaf
  have plain := renamed.eval_follows
  cases renamed with
  | operand _ => exact plain
  | compare _ _ _ => exact plain
  | index _ _ => exact plain
  | update _ _ _ => exact plain
  | rearrange _ _ => exact plain
  | copy _ => exact plain
  | alloc _ _ => exact plain
  | binary op left right =>
    refine (Env.scalar_follows left).bind fun a _ _ _ same => ?_
    subst same
    refine (Env.scalar_follows right).bind fun b _ _ _ same => ?_
    subst same
    refine Follows.bind (?_ : Follows False Eq _ _) fun c _ _ _ same => .ok (one (same ▸ .scalar c))
    exact ⟨fun c applied => ⟨c, binary_of_ok applied _, rfl⟩, False.elim⟩
  | iota count start stride =>
    refine (Env.size_follows count).bind fun n _ _ _ same => ?_
    subst same
    refine Follows.bind (?_ : Follows False (fun w c => c = .i64 w) _ _) fun w c _ _ same => ?_
    · refine ⟨fun w word => ?_, False.elim⟩
      obtain ⟨c, read, word⟩ := Env.word_eq_ok.mp word
      obtain ⟨_, read', rfl⟩ := (Env.scalar_follows start).forth c read
      have wide : c.type = .i64 := fine c read
      cases c with
      | i64 m =>
        cases word
        exact ⟨_, read', rfl⟩
      | bool _ | i32 _ | f32 _ | f64 _ => cases wide
    · subst same
      refine (Env.word_follows stride).bind fun step _ _ _ same => ?_
      subst same
      exact .ok (one (words_alike _))
  | replicate shape value =>
    refine (Env.sizes_follow shape).bind fun outer _ _ _ same => ?_
    subst same
    refine value.bind fun x y read _ alike => ?_
    rw [if_pos (alike.isSturdy (fine x read))]
    exact (ArrayValue.replicate_follows alike outer).bind fun a b _ _ alike => .ok (one (.array alike))
  | @reshape dims _ array _ shape there =>
    rw [Lenient.leaf_reshape]
    cases found : σ'.env.get? array with
    | some x =>
      refine plain.map_right fun vs vs' alike => ?_
      exact List.forall₂_map_right_iff.mpr (alike.imp fun _ _ => Value.Alike.settled_right)
    | none =>
      -- the evaluator does not find the array either
      refine ⟨fun vs ran => ?_, False.elim⟩
      obtain ⟨a, read, _⟩ := bind_eq_ok.mp ran
      obtain ⟨b, read', _⟩ := (Env.array_follows there).forth a read
      rw [Env.array_eq_ok.mp read'] at found
      cases found

theorem declares {k : MapKernel} {values values' : List Value} (alike : ValuesAlike how.likeness values values')
    (conform : ∀ vr ∈ values.zip k.returns, vr.1.HasRank ∧ vr.1.hasElem how.typed vr.2.1 = true) : k.declares how.typed values' = true := by
  rw [MapKernel.declares, List.all_eq_true]
  intro vr mem
  obtain ⟨i, below, rfl⟩ := List.mem_iff_getElem.mp mem
  rw [List.length_zip] at below
  rw [List.getElem_zip]
  have short : i < values.length := by
    rw [alike.length_eq]
    omega
  obtain ⟨ranked, typed⟩ := conform (values.get ⟨i, short⟩, k.returns.get ⟨i, by omega⟩) (by
    rw [List.mem_iff_getElem]
    exact ⟨i, by rw [List.length_zip]; omega, List.getElem_zip⟩)
  have same := alike.get short (by omega)
  exact Bool.and_eq_true_iff.mpr ⟨same.isSturdy ranked, same.hasElem typed⟩

theorem map_follows {k : MapKernel} {run' : Env → Eval (List Value)} (fine : k.Conforms how.typed σ.env) (agree : (relaxing how).Agree σ σ' (Kernel.map k).reads)
    (body : ∀ e e', k.Feeds (fun e => k.body.eval e) σ.env e → Entered how.likeness k.threadNames σ.env σ'.env e e' →
      Follows False (ValuesAlike how.likeness) (k.body.eval e) (run' e')) :
    Follows False (ValuesAlike how.likeness) (k.run (fun e => k.body.eval e) σ.env) ((Mode.lenient how).map σ' k run') := by
  obtain ⟨spaced, conform⟩ := fine
  rw [Mode.map, if_neg spaced]
  refine Follows.map_right (?_ : Follows False (ValuesAlike how.likeness) _ _) fun vs vs' alike =>
    List.forall₂_map_right_iff.mpr (alike.imp fun _ _ => Value.Alike.settled_right)
  refine agree.map_run fun e e' fed _ entered => ⟨fun values ran => ?_, False.elim⟩
  obtain ⟨values', ran', alike⟩ := (body e e' fed entered).forth values ran
  refine ⟨values', ?_, alike⟩
  rw [ran', ok_bind, if_pos (declares alike (conform e values fed ran))]

theorem known {c c' : Cell} (h : (relaxing how).rel c c') : c'.known = true := by
  rcases h with ⟨_, y, _, right, _⟩ | ⟨_, right, passed⟩
  · rw [Cell.known, right]
    rfl
  · rw [Cell.known, right, passed]
    rfl

theorem rowShape_eq {ty : Ty} (agree : (relaxing how).Agree σ σ' ty.rowReads) : σ.env.rowShape ty = σ'.env.rowShape ty := by
  refine @congruence.rowShape_eq how.likeness σ σ' _ (fun v mem => ?_) ty fun v mem => mem
  obtain ⟨x, y, left, right, alike⟩ | ⟨left, right, _⟩ := agree v mem
  · show Option.Rel _ _ _
    rw [left, right]
    exact .some alike
  · show Option.Rel _ _ _
    rw [left, right]
    exact .none

theorem launch {vs : NameSet} {own : List Name} (agree : (relaxing how).Agree σ σ' (vs.without own)) (clean : (relaxing how).Clean σ σ' own) :
    (relaxing how).Agree σ (σ'.launch own) vs := by
  intro v mem
  by_cases mine : v ∈ own
  · rw [Store.cell_launch mine]
    exact .inr ⟨clean v mine, rfl, rfl⟩
  · rw [Store.cell_launch_of_not_mem mine]
    exact agree v (NameSet.mem_without.mpr ⟨mem, mine⟩)

theorem lawful : (relaxing how).Lawful where
  leaf leaf fine clean agree := settle_follows clean (leaf_follows leaf (fine.1 rfl) agree)
  nested _ _ clean values := settle_follows clean values
  map := by
    intro σ σ' pat certs k run run' fine agree same body
    rw [same rfl]
    refine map_follows (fine.1 rfl) agree fun e e' fed entered => ?_
    have step := body e e' (fun _ => by rwa [same rfl]) (absurd · Mode.lenient_ne_strict) entered
    rwa [same rfl] at step
  chunked := by
    intro σ σ' k op op' clean agree body
    have rows : (relaxing how).Agree σ (σ'.launch (k.op.params.map Binder.name)) (NameSet.gather Ty.rowReads k.op.ret) :=
      launch (agree.mono fun v mem => k.mem_reads_of_rows mem) clean
    have agree : (relaxing how).Agree σ (σ'.launch (k.op.params.map Binder.name)) (Kernel.chunked k).reads :=
      launch (agree.mono fun v mem => (NameSet.mem_without.mp mem).1) clean
    rw [Mode.chunked, Mode.chunked, if_pos (Store.allKnown_iff.mpr fun v mem => known (rows v mem))]
    refine (agree.mono fun v mem => k.mem_reads_of_launch mem).chunked_run (fun ty mem => ?_)
      fun args args' fed _ alike => body args args' (fun _ => fed) (absurd · Mode.lenient_ne_strict) alike
    exact rowShape_eq (rows.mono fun v free => NameSet.mem_gather.mpr ⟨ty, mem, free⟩)
  group := by
    intro σ σ' k clean agree
    have rows : (relaxing how).Agree σ σ' (NameSet.gather Ty.rowReads k.returns) := agree.mono fun v mem => k.mem_reads_of_rows mem
    rw [Mode.group, Mode.group, if_pos (Store.allKnown_iff.mpr fun v mem => known (rows v mem))]
    have launched := launch (rows.mono fun v mem => (NameSet.mem_without.mp mem).1) clean
    refine .ok ⟨fun v own => ?_, fun ty mem => ?_⟩
    · rw [Store.cell_launch own]
      exact .inr ⟨clean v own, rfl, rfl⟩
    · exact rowShape_eq (σ := ⟨σ.env, σ.notes⟩) (launched.mono fun v free => NameSet.mem_gather.mpr ⟨ty, mem, free⟩)

end relaxing

/-! From lenient runs to the evaluator -/

/-- The evaluator has a value that is alike, and any value for a name that was passed over. A hollow name stands for no elements. -/
inductive Cell.Meets (l : Likeness) (c c' : Cell) : Prop where
  | value {x y : Value} (left : c.value = some x) (right : c'.value = some y) (alike : x.Alike l y)
  | absent (left : c.value = none) (never : c.failed = none) (right : c'.value = none)
  | failed {hollow : Bool} (left : c.value = none) (passed : c.failed = some hollow)
      (filled : hollow = true → ∃ a, c'.value = some (.array a) ∧ a.data = #[])

/-- What a hollow name stands for. -/
theorem Cell.Meets.filled {l : Likeness} {c c' : Cell} (h : c.Meets l c') (none : c.value = none) (hollow : c.failed = some true) :
    ∃ a, c'.value = some (.array a) ∧ a.data = #[] := by
  cases h with
  | value left _ _ =>
    rw [none] at left
    cases left
  | absent _ never _ =>
    rw [hollow] at never
    cases never
  | failed _ passed filled =>
    rw [hollow] at passed
    cases passed
    exact filled rfl

/-- The evaluator gets past the statements that a lenient run may pass over. -/
def tightening (how : Leniency) : Simulation False how.likeness (.lenient how) .strict where
  rel := Cell.Meets how.likeness
  clean _ c' := c'.value = none
  fine _ _ := True
  fine' env stm := (how.lax || stm.exp.isSpeculable) = true → stm.Succeeds env
  look := by
    rintro c c' (⟨left, right, alike⟩ | ⟨left, _, _⟩ | ⟨left, _, _⟩) v
    · rw [Cell.read, Cell.read, left, right]
      exact .ok alike
    · rw [Cell.read, left]
      exact .of_error _ _
    · rw [Cell.read, left]
      exact .of_error _ _
  given alike := .value rfl rfl alike

namespace tightening

variable {how : Leniency} {σ σ' : Store} {pat : Pattern} {certs : List Name} {e : Exp}

theorem settle_follows {r : Eval (List Value)} (clean : (tightening how).Clean σ σ' pat.names)
    (succeeds : (how.lax || e.isSpeculable) = true → Stm.Succeeds σ'.env ⟨pat, certs, e⟩)
    (values : Follows False (ValuesAlike how.likeness) r (e.eval σ'.env))
    (hollow : σ.hollow pat e = true → ∀ vs, e.eval σ'.env = .ok vs → ∃ a, vs = [.array a] ∧ a.data = #[]) :
    Follows False ((tightening how).Binds pat) ((Mode.lenient how).settle σ pat e r) (Mode.strict.settle σ' pat e (e.eval σ'.env)) := by
  cases ran : (r >>= fun values => (σ.env.hide pat.names).bindValues pat values) with
  | ok env =>
    rw [Mode.settle_of_ok ran]
    obtain ⟨vs, value, bound⟩ := bind_eq_ok.mp ran
    obtain ⟨vs', value', alike⟩ := values.forth vs value
    obtain ⟨env', bound', given⟩ := (@bindValues_follows False _ (σ.env.hide pat.names) σ'.env pat _ _ alike).forth env bound
    rw [Mode.settle, value', ok_bind, bound', ok_bind]
    refine .ok fun v mem => ?_
    rw [Mode.cell_settle mem]
    obtain ⟨x, y, left, right, alike⟩ | ⟨left, right⟩ := given v mem
    · exact .value left right alike
    · refine .absent (left.trans ?_) rfl (right.trans (clean v mem))
      rw [Env.get?_hide, if_pos mem]
  | error err =>
    rw [Mode.settle_of_error ran]
    by_cases skipped : (how.lax || e.isSpeculable) = true
    · obtain ⟨vs, env, value, bound⟩ := (succeeds skipped).values
      rw [if_pos skipped, Mode.settle, value, ok_bind, bound, ok_bind]
      refine .ok fun v mem => ?_
      rw [Mode.cell_fail mem]
      refine .failed rfl rfl fun empty => ?_
      obtain ⟨a, rfl, none⟩ := hollow empty vs value
      obtain ⟨w, one⟩ := Mode.names_of_hollow empty
      obtain rfl : v = w := List.mem_singleton.mp (one ▸ mem)
      exact ⟨a, Env.bindValues_single one bound, none⟩
    · rw [if_neg skipped]
      exact .of_error _ _

theorem hollow_empty (agree : (tightening how).Agree σ σ' e.free) (hollow : σ.hollow pat e = true) (vs : List Value)
    (value : e.eval σ'.env = .ok vs) : ∃ a, vs = [.array a] ∧ a.data = #[] := by
  unfold Store.hollow at hollow
  split at hollow
  · rename_i shape x
    split at hollow
    · rename_i outer sized
      have empty : volume outer = 0 := by simpa using (Bool.and_eq_true_iff.mp hollow).2
      have sizes := Env.sizes_follow (agree.operands fun v mem => NameSet.mem_union.mpr (.inl mem))
      obtain ⟨_, sized', rfl⟩ := sizes.forth outer sized
      rw [Exp.eval, sized', ok_bind] at value
      obtain ⟨y, _, value⟩ := bind_eq_ok.mp value
      obtain ⟨a, made, value⟩ := bind_eq_ok.mp value
      cases value
      exact ⟨a, rfl, ArrayValue.replicate_empty empty made⟩
    · cases hollow
  · cases hollow

/-- Words of two widths are only multiplied or added where the evaluator does not get past the statement. -/
theorem binary_follows {op : BinOp} {a b : Scalar} {product : Option Int64}
    (succeeds : op ≠ .div → op ≠ .mod → ∃ c, liftScalar (op.apply a b) = .ok c) :
    Follows False Eq (Lenient.binary op a b product) (liftScalar (op.apply a b)) := by
  cases applied : op.apply a b with
  | ok c =>
    simp only [Lenient.binary, applied]
    exact .ok rfl
  | error err =>
    rw [applied] at succeeds
    by_cases div : op = .div
    · subst div
      simp only [Lenient.binary, applied]
      exact .of_error _ _
    by_cases mod : op = .mod
    · subst mod
      simp only [Lenient.binary, applied]
      exact .of_error _ _
    obtain ⟨c, no⟩ := succeeds div mod
    cases no

theorem leaf_follows (leaf : e.isNested = false) (agree : (tightening how).Agree σ σ' e.free)
    (succeeds : (how.lax || e.isSpeculable) = true → Stm.Succeeds σ'.env ⟨pat, certs, e⟩) :
    Follows False (ValuesAlike how.likeness) (Lenient.leaf how.typed σ e) (e.eval σ'.env) := by
  have one {x y : Value} (alike : x.Alike how.likeness y) : ValuesAlike how.likeness [x] [y] := .cons alike .nil
  have renamed := agree.renamed leaf
  have plain := renamed.eval_follows
  cases renamed with
  | operand _ => exact plain
  | compare _ _ _ => exact plain
  | index _ _ => exact plain
  | update _ _ _ => exact plain
  | rearrange _ _ => exact plain
  | copy _ => exact plain
  | alloc _ _ => exact plain
  | binary op left right =>
    refine (Env.scalar_follows left).bind fun a _ _ read same => ?_
    subst same
    refine (Env.scalar_follows right).bind fun b _ _ read' same => ?_
    subst same
    refine Follows.bind (binary_follows fun div mod => ?_) fun c _ _ _ same => .ok (one (same ▸ .scalar c))
    obtain ⟨vs, _, value, _⟩ := (succeeds (Bool.or_eq_true_iff.mpr (.inr (Bool.and_eq_true_iff.mpr ⟨bne_iff_ne.mpr div, bne_iff_ne.mpr mod⟩)))).values
    dsimp only at value
    rw [Exp.eval, read, ok_bind, read', ok_bind] at value
    obtain ⟨c, applied, _⟩ := bind_eq_ok.mp value
    exact ⟨c, applied⟩
  | iota count start stride =>
    refine (Env.size_follows count).bind fun n _ _ _ same => ?_
    subst same
    refine ⟨fun vs ran => ?_, False.elim⟩
    obtain ⟨c, begins, ran⟩ := bind_eq_ok.mp ran
    cases c with
    | i64 first =>
      obtain ⟨step, steps, made⟩ := bind_eq_ok.mp ran
      cases made
      obtain ⟨_, begins', rfl⟩ := (Env.scalar_follows start).forth _ begins
      obtain ⟨_, steps', rfl⟩ := (Env.word_follows stride).forth step steps
      refine ⟨_, ?_, one (words_alike _)⟩
      rw [Env.word_eq_ok.mpr ⟨_, begins', rfl⟩, ok_bind, steps', ok_bind]
    | bool _ | i32 _ | f32 _ | f64 _ => cases ran
  | replicate shape value =>
    refine (Env.sizes_follow shape).bind fun outer _ _ _ same => ?_
    subst same
    refine value.bind fun x y _ _ alike => ?_
    split
    · exact (ArrayValue.replicate_follows alike outer).bind fun a b _ _ alike => .ok (one (.array alike))
    · exact .of_error _ _
  | @reshape dims _ array _ shape there =>
    rw [Lenient.leaf_reshape]
    cases found : σ.env.get? array with
    | some x =>
      refine plain.map_left fun vs vs' alike => ?_
      exact List.forall₂_map_left_iff.mpr (alike.imp fun _ _ => Value.Alike.settled_left)
    | none =>
      -- a hollow name, which has no elements in the evaluator either
      by_cases hollow : σ.notes.failed array = some true
      · obtain ⟨a, there', empty⟩ := (agree array (by simp [Exp.free])).filled found hollow
        refine ⟨fun vs filled => ?_, False.elim⟩
        rw [Option.isNone_none, if_pos rfl, if_pos hollow] at filled
        obtain ⟨new, sized, filled⟩ := bind_eq_ok.mp filled
        obtain ⟨_, sized', rfl⟩ := (Env.sizes_follow shape).forth new sized
        split at filled
        · rename_i fits
          cases filled
          have reshaped : a.reshape new = some { a with shape := new } := by
            rw [ArrayValue.reshape, empty]
            exact if_pos fits
          refine ⟨[.array { a with shape := new }], ?_, one (.array ⟨rfl, empty.symm, .inr (.inr ⟨trivial, rfl⟩), fun _ => fits.1.symm⟩)⟩
          rw [Exp.eval, Env.array_eq_ok.mpr there', ok_bind, sized', ok_bind, reshaped]
        · cases filled
      · exact (if_neg hollow).symm ▸ .of_error _ _

theorem map_follows {k : MapKernel} {run run' : Env → Eval (List Value)} (agree : (tightening how).Agree σ σ' (Kernel.map k).reads)
    (body : ∀ e e', k.Feeds run' σ'.env e' → Entered how.likeness k.threadNames σ.env σ'.env e e' →
      Follows False (ValuesAlike how.likeness) (run e) (run' e')) :
    Follows False (ValuesAlike how.likeness) ((Mode.lenient how).map σ k run) (k.run run' σ'.env) := by
  rw [Mode.map]
  split
  · exact .of_error _ _
  refine Follows.map_left (?_ : Follows False (ValuesAlike how.likeness) _ _) fun vs vs' alike =>
    List.forall₂_map_left_iff.mpr (alike.imp fun _ _ => Value.Alike.settled_left)
  refine agree.map_run fun e e' _ fed' entered => ⟨fun values ran => ?_, False.elim⟩
  obtain ⟨values, ran, checked⟩ := bind_eq_ok.mp ran
  split at checked
  · cases checked
    exact (body e e' fed' entered).forth values ran
  · cases checked

theorem rowShape_eq {ty : Ty} (agree : (tightening how).Agree σ σ' ty.rowReads) (known : σ.allKnown ty.rowReads = true) :
    σ.env.rowShape ty = σ'.env.rowShape ty := by
  refine @congruence.rowShape_eq how.likeness σ σ' _ (fun v mem => ?_) ty fun v mem => mem
  have known := Store.allKnown_iff.mp known v mem
  show Option.Rel _ _ _
  cases agree v mem with
  | value left right alike =>
    rw [left, right]
    exact .some alike
  | absent left _ right =>
    rw [left, right]
    exact .none
  | failed left passed _ =>
    rw [Cell.known, left, passed] at known
    cases known

theorem launch {vs : NameSet} {own : List Name} (agree : (tightening how).Agree σ σ' (vs.without own)) (clean : (tightening how).Clean σ σ' own) :
    (tightening how).Agree (σ.launch own) σ' vs := by
  intro v mem
  by_cases mine : v ∈ own
  · rw [Store.cell_launch mine]
    exact .absent rfl rfl (clean v mine)
  · rw [Store.cell_launch_of_not_mem mine]
    exact agree v (NameSet.mem_without.mpr ⟨mem, mine⟩)

theorem lawful : (tightening how).Lawful where
  leaf leaf fine clean agree := settle_follows clean (fine.2 rfl) (leaf_follows leaf agree (fine.2 rfl)) (hollow_empty agree)
  nested := by
    intro σ σ' pat certs e nested fine clean values
    rw [Exp.run_strict] at values ⊢
    refine settle_follows clean (fine.2 rfl) values fun hollow => ?_
    cases e <;> first | cases hollow | cases nested
  map := by
    intro σ σ' pat certs k run run' fine agree _ body
    refine map_follows agree fun e e' fed' entered => ?_
    exact body e e' (absurd · Mode.lenient_ne_strict) (fun _ => fed') entered
  chunked := by
    intro σ σ' k op op' clean agree body
    have rows : (tightening how).Agree (σ.launch (k.op.params.map Binder.name)) σ' (NameSet.gather Ty.rowReads k.op.ret) :=
      launch (agree.mono fun v mem => k.mem_reads_of_rows mem) clean
    have agree : (tightening how).Agree (σ.launch (k.op.params.map Binder.name)) σ' (Kernel.chunked k).reads :=
      launch (agree.mono fun v mem => (NameSet.mem_without.mp mem).1) clean
    rw [Mode.chunked, Mode.chunked]
    split
    · rename_i known
      refine (agree.mono fun v mem => k.mem_reads_of_launch mem).chunked_run (fun ty mem => ?_)
        fun args args' _ fed' alike => body args args' (absurd · Mode.lenient_ne_strict) (fun _ => fed') alike
      have part (v : Name) (free : v ∈ ty.rowReads) : v ∈ NameSet.gather Ty.rowReads k.op.ret := NameSet.mem_gather.mpr ⟨ty, mem, free⟩
      exact rowShape_eq (rows.mono part) (Store.allKnown_iff.mpr fun v free => Store.allKnown_iff.mp known v (part v free))
    · exact .of_error _ _
  group := by
    intro σ σ' k clean agree
    have rows : (tightening how).Agree σ σ' (NameSet.gather Ty.rowReads k.returns) := agree.mono fun v mem => k.mem_reads_of_rows mem
    rw [Mode.group, Mode.group]
    split
    · rename_i known
      have launched := launch (rows.mono fun v mem => (NameSet.mem_without.mp mem).1) clean
      refine .ok ⟨fun v own => ?_, fun ty mem => ?_⟩
      · rw [Store.cell_launch own]
        exact .absent rfl rfl (clean v own)
      · have part (v : Name) (free : v ∈ ty.rowReads) : v ∈ NameSet.gather Ty.rowReads k.returns := NameSet.mem_gather.mpr ⟨ty, mem, free⟩
        refine @rowShape_eq how _ ⟨σ'.env, σ'.notes⟩ ty (launched.mono part) (Store.allKnown_iff.mpr fun v free => ?_)
        exact Store.allKnown_iff.mp (Store.allKnown_launch known) v (part v free)
    · exact .of_error _ _

end tightening

end ArrayKernels
