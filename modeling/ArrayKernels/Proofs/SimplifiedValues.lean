import ArrayKernels.Proofs.LenientRuns
import ArrayKernels.Proofs.StreamSoundness
import ArrayKernels.Proofs.WellScoped

/-! Simplification keeps the values of calls, up to element types of arrays without elements, and introduces no failure but that of
an expression that counts as one that may be computed early. -/
namespace ArrayKernels

/-! What sweeps do to lenient runs -/

/-- What a function becomes has its name, its parameters and its values in lenient runs. -/
structure FunDecl.Keeps (how : Leniency) (f f' : FunDecl) : Prop where
  name : f'.name = f.name
  params : f'.params = f.params
  run : ∀ {σ vs}, f.body.run (.lenient how) σ = .ok vs → f'.body.run (.lenient how) σ = .ok vs

namespace FunDecl.Keeps

variable {how : Leniency} {f g h : FunDecl}

theorem refl (f : FunDecl) : f.Keeps how f := ⟨rfl, rfl, id⟩

theorem trans (first : f.Keeps how g) (second : g.Keeps how h) : f.Keeps how h :=
  ⟨second.name.trans first.name, second.params.trans first.params, fun ran => second.run (first.run ran)⟩

end FunDecl.Keeps

section
variable {how : Leniency} {s : Simplifier} {f f' : FunDecl} {p q : Progress} (scoping : s.rules.Scoping) (rules : s.rules.Sound how)
  (guards : s.parallel.Guards how)

theorem SymbolTable.known_empty {σ : Store} : SymbolTable.empty.Known how σ := by
  intro v e defined
  cases defined

include scoping rules guards

theorem FunDecl.sweep_keeps (closed : f.WellScoped p.names.next) (swept : f.sweep s p = .ok (f', q)) : f.Keeps how f' := by
  obtain ⟨⟨hoisted, body⟩, between, ran, swept⟩ := Pass.bind_eq_ok.mp swept
  dsimp only at swept
  split at swept
  · rename_i none
    obtain ⟨rfl, rfl⟩ := Pass.pure_eq_ok.mp swept
    obtain rfl := List.isEmpty_iff.mp none
    have known : (SymbolTable.empty.bindParams f.params).Within (Scope.none.bind (f.params.map Binder.name)) :=
      SymbolTable.within_empty.bindParams _
    refine ⟨rfl, rfl, fun runs => ?_⟩
    exact (Simplifier.bodyTo_sound scoping rules guards f.body.depth).run ran known closed.fits.enter closed.body
      (SymbolTable.known_empty.bindParams _) (fun _ mem => absurd mem List.not_mem_nil) runs
  · cases swept

theorem FunDecl.simplify_keeps {n : Nat} (closed : f.WellScoped p.names.next) (simplified : f.simplify s n p = .ok (f', q)) :
    f.Keeps how f' := by
  induction n generalizing f p with
  | zero =>
    obtain ⟨rfl, rfl⟩ := Pass.pure_eq_ok.mp simplified
    exact .refl f
  | succ n ih =>
    obtain ⟨next, between, swept, simplified⟩ := Pass.bind_eq_ok.mp simplified
    have first := sweep_keeps scoping rules guards closed swept
    split at simplified
    · obtain ⟨rfl, rfl⟩ := Pass.pure_eq_ok.mp simplified
      exact first
    · exact first.trans (ih (sweep_wellScoped scoping closed swept).2 simplified)

theorem simplifyAll_keeps {n : Nat} {funs funs' : List FunDecl} (closed : ∀ f ∈ funs, f.WellScoped p.names.next)
    (simplified : funs.mapM (FunDecl.simplify s n) p = .ok (funs', q)) : List.Forall₂ (FunDecl.Keeps how) funs funs' := by
  induction funs generalizing p funs' with
  | nil =>
    obtain ⟨rfl, rfl⟩ := Pass.pure_eq_ok.mp simplified
    exact .nil
  | cons f funs ih =>
    rw [List.mapM_cons] at simplified
    obtain ⟨f', between, first, simplified⟩ := Pass.bind_eq_ok.mp simplified
    obtain ⟨rest, last, others, simplified⟩ := Pass.bind_eq_ok.mp simplified
    obtain ⟨rfl, rfl⟩ := Pass.pure_eq_ok.mp simplified
    have here := closed f List.mem_cons_self
    refine .cons (FunDecl.simplify_keeps scoping rules guards here first) (ih (fun g mem => ?_) others)
    exact (closed g (List.mem_cons_of_mem _ mem)).later (FunDecl.simplify_wellScoped scoping here first).1

end

/-- The functions of a simplified program stay well-scoped and keep their lenient values. -/
theorem Program.simplify_keeps {how : Leniency} {options : SimplifyOptions} {names names' : NameSupply} {p p' : Program}
    (careful : how.lax = true ∨ options.keepFailing = true) (closed : p.WellScoped names.next)
    (simplified : p.simplify options names = .ok (p', names')) :
    List.Forall₂ (FunDecl.Keeps how) p.funs p'.funs ∧ p'.WellScoped names'.next := by
  rw [simplify] at simplified
  cases ran : p.simplifyWith .standard options ⟨names, 0⟩ with
  | error e =>
    rw [ran] at simplified
    cases simplified
  | ok done =>
    obtain ⟨simplest, last⟩ := done
    rw [ran] at simplified
    cases simplified
    obtain ⟨funs, between, all, ran⟩ := Pass.bind_eq_ok.mp ran
    obtain ⟨same, rfl⟩ := Pass.pure_eq_ok.mp ran
    cases same
    have guards := Simplifier.make_guards .standard careful
    exact ⟨@simplifyAll_keeps how _ ⟨names, 0⟩ _ RuleSet.standard_scoping RuleSet.standard_sound guards _ _ _ closed all,
      (simplifyAll_wellScoped (p := ⟨names, 0⟩) RuleSet.standard_scoping closed all).2⟩

/-! Single bodies -/

/-- An array has as many elements as its shape says. -/
def Value.IsRegular : Value → Prop
  | .array a => a.Regular
  | _ => True

theorem Value.IsRegular.alike {how : Leniency} {x : Value} (h : x.IsRegular) : x.Alike how.likeness x := by
  cases x with
  | scalar c => exact .scalar c
  | array a => exact .array ⟨rfl, rfl, .inl rfl, fun _ => h⟩
  | mem n space => exact .mem (.inl rfl)

section
variable {how : Leniency} {body : Body} {env : Env} {vs : List Value} (distinct : body.bound.Nodup)
  (unbound : ∀ v ∈ body.bound, env.get? v = none) (regular : ∀ v x, env.get? v = some x → x.IsRegular)
include distinct unbound regular

/-- Code that is as the rules expect it has its values in lenient runs. -/
theorem Body.run_of_eval (conforms : Throughout (Stm.Conforms how.typed) env body) (ran : body.eval env = .ok vs) :
    ∃ us, body.run (.lenient how) ⟨env, .none⟩ = .ok us ∧ ValuesAlike how.likeness vs us := by
  have agree : (relaxing how).Agree ⟨env, .none⟩ ⟨env, .none⟩ body.reads := by
    intro v _
    cases there : env.get? v with
    | none => exact .inr ⟨there, there, rfl⟩
    | some x => exact .inl ⟨x, x, there, there, (regular v x there).alike⟩
  have safe : (relaxing how).Safe ⟨env, .none⟩ ⟨env, .none⟩ body := ⟨fun _ => conforms, (absurd · Mode.lenient_ne_strict)⟩
  refine (Simulation.body_follows relaxing.lawful body distinct agree unbound safe).forth vs ?_
  rw [Body.run_strict]
  exact ran

/-- Code has the values of lenient runs if it gets past the statements that these may pass over. -/
theorem Body.eval_of_run (succeeds : Throughout (fun now stm => (how.lax || stm.exp.isSpeculable) = true → stm.Succeeds now) env body)
    (ran : body.run (.lenient how) ⟨env, .none⟩ = .ok vs) : ∃ ws, body.eval env = .ok ws ∧ ValuesAlike how.likeness vs ws := by
  have agree : (tightening how).Agree ⟨env, .none⟩ ⟨env, .none⟩ body.reads := by
    intro v _
    cases there : env.get? v with
    | none => exact .absent there rfl there
    | some x => exact .value there there (regular v x there).alike
  have safe : (tightening how).Safe ⟨env, .none⟩ ⟨env, .none⟩ body := ⟨(absurd · Mode.lenient_ne_strict), fun _ => succeeds⟩
  have follows := Simulation.body_follows tightening.lawful body distinct agree unbound safe
  rw [Body.run_strict] at follows
  exact follows.forth vs ran

end

/-! Calls -/

theorem Program.call_eq_ok {p : Program} {name : String} {args vs : List Value} :
    p.call name args = .ok vs ↔ ∃ f, p.funs.find? (·.name == name) = some f ∧ f.params.length = args.length ∧
      f.body.eval (Env.empty.bindAll ((f.params.map Binder.name).zip args)) = .ok vs := by
  rw [call]
  constructor
  · intro ran
    split at ran
    · cases ran
    · rename_i f found
      split at ran
      · rename_i full
        exact ⟨f, found, full, ran⟩
      · cases ran
  · rintro ⟨f, found, full, ran⟩
    rw [found]
    exact (if_pos full).trans ran

theorem Env.get?_bindAll_cases {env : Env} {bs : List (Name × Value)} {v : Name} {x : Value} (there : (env.bindAll bs).get? v = some x) :
    env.get? v = some x ∨ (v, x) ∈ bs := by
  induction bs generalizing env with
  | nil => exact .inl there
  | cons b bs ih =>
    rcases ih there with earlier | later
    · rw [get?_bind] at earlier
      split at earlier
      · rename_i same
        cases earlier
        exact .inr (same ▸ List.mem_cons_self)
      · exact .inl earlier
    · exact .inr (List.mem_cons_of_mem _ later)

section
variable {f : FunDecl} {n : Nat} {args : List Value}

theorem FunDecl.WellScoped.unbound (h : f.WellScoped n) (args : List Value) :
    ∀ v ∈ f.body.bound, (Env.empty.bindAll ((f.params.map Binder.name).zip args)).get? v = none := by
  intro v bound
  refine Env.get?_bindAll_of_not_mem _ fun mem => ?_
  obtain ⟨b, among, rfl⟩ := List.mem_map.mp mem
  exact (List.nodup_append.mp h.distinct).2.2 _ (List.of_mem_zip among).1 _ bound rfl

theorem regular_params (params : List Name) (regular : ∀ x ∈ args, x.IsRegular) :
    ∀ v x, (Env.empty.bindAll (params.zip args)).get? v = some x → x.IsRegular := by
  intro v x there
  rcases Env.get?_bindAll_cases there with none | given
  · cases none
  · exact regular x (List.of_mem_zip given).2

end

section
variable {how : Leniency} {options : SimplifyOptions} {names names' : NameSupply} {p p' : Program} {name : String} {args vs ws : List Value}

/-- A call in a lenient run of the simplified program. -/
theorem Program.simplify_run (careful : how.lax = true ∨ options.keepFailing = true) (closed : p.WellScoped names.next)
    (regular : ∀ x ∈ args, x.IsRegular) (conforms : p.ThroughoutCall (Stm.Conforms how.typed) name args)
    (simplified : p.simplify options names = .ok (p', names')) (ran : p.call name args = .ok vs) :
    ∃ f us, p'.funs.find? (·.name == name) = some f ∧ f.params.length = args.length ∧ f.WellScoped names'.next ∧
      f.body.run (.lenient how) ⟨Env.empty.bindAll ((f.params.map Binder.name).zip args), .none⟩ = .ok us ∧
      ValuesAlike how.likeness vs us := by
  obtain ⟨f, found, full, ran⟩ := call_eq_ok.mp ran
  obtain ⟨kept, closed'⟩ := simplify_keeps careful closed simplified
  have related := find?_related (p := (·.name == name)) (q := (·.name == name)) kept fun f f' keeps => by rw [keeps.name]
  rw [found] at related
  obtain ⟨f', found', keeps⟩ : ∃ f', p'.funs.find? (·.name == name) = some f' ∧ f.Keeps how f' := by
    generalize p'.funs.find? (·.name == name) = result at related
    cases related with
    | some keeps => exact ⟨_, rfl, keeps⟩
  have here := closed f (List.mem_of_find?_eq_some found)
  obtain ⟨us, runs, alike⟩ := Body.run_of_eval (List.nodup_append.mp here.distinct).2.1 (here.unbound args) (regular_params _ regular)
    (conforms f found full) ran
  refine ⟨f', us, found', keeps.params ▸ full, closed' f' (List.mem_of_find?_eq_some found'), ?_, alike⟩
  rw [keeps.params]
  exact keeps.run runs

/-- A function that is called evaluates its body to the values of a lenient run, if it gets past what that may pass over. -/
theorem FunDecl.WellScoped.eval_of_run {f : FunDecl} (h : f.WellScoped names.next) (regular : ∀ x ∈ args, x.IsRegular)
    (ran : f.body.run (.lenient how) ⟨Env.empty.bindAll ((f.params.map Binder.name).zip args), .none⟩ = .ok vs)
    (succeeds : Throughout (fun now stm => (how.lax || stm.exp.isSpeculable) = true → stm.Succeeds now)
      (Env.empty.bindAll ((f.params.map Binder.name).zip args)) f.body) :
    ∃ ws, f.body.eval (Env.empty.bindAll ((f.params.map Binder.name).zip args)) = .ok ws ∧ ValuesAlike how.likeness vs ws :=
  Body.eval_of_run (List.nodup_append.mp h.distinct).2.1 (h.unbound args) (regular_params _ regular) succeeds ran

theorem ValuesAlike.trans {us : List Value} (first : ValuesAlike how.likeness us vs) (second : ValuesAlike how.likeness vs ws) :
    ValuesAlike how.likeness us ws := by
  induction first generalizing ws with
  | nil => exact second
  | cons alike _ ih =>
    cases second with
    | cons alike' second => exact .cons (alike.trans alike') (ih second)

theorem ValuesAlike.settled_eq (h : ValuesAlike how.likeness vs ws) (typed : how.typed = true) :
    vs.map (Value.settled true) = ws.map (Value.settled true) := by
  induction h with
  | nil => rfl
  | cons alike _ ih => rw [List.map_cons, List.map_cons, alike.settled_eq typed, ih]

theorem map_settled (full : ∀ x ∈ vs, x.isVoid = false) : vs.map (Value.settled true) = vs := by
  induction vs with
  | nil => rfl
  | cons x vs ih =>
    rw [List.map_cons, Value.settled_of_not_void (full x List.mem_cons_self), ih fun y mem => full y (List.mem_cons_of_mem _ mem)]

/-- Values are the same if they are so up to element types of arrays without elements, and there are no such arrays. -/
theorem eq_of_settled_eq (same : vs.map (Value.settled true) = ws.map (Value.settled true)) (full : ∀ x ∈ vs, x.isVoid = false) :
    vs = ws := by
  have full' : ∀ y ∈ ws, y.isVoid = false := by
    intro y mem
    have among : y.settled true ∈ vs.map (Value.settled true) := same ▸ List.mem_map_of_mem mem
    obtain ⟨x, mem, settled⟩ := List.mem_map.mp among
    rw [← y.isVoid_settled true, ← settled, x.isVoid_settled]
    exact full x mem
  rw [← map_settled full, same, map_settled full']

end

section
variable {options : SimplifyOptions} {names names' : NameSupply} {p p' : Program} {name : String} {args vs ws : List Value}

end

/-- The statement conforms wherever it is evaluated: iotas start from constants, and kernels are idle or return a constant. -/
def Stm.conformsPlainly (stm : Stm) : Bool :=
  match stm.exp with
  | .iota _ (.const (.i64 _)) _ => true
  | .iota .. | .replicate .. => false
  | .launch (.map ⟨_, .const (.i64 0), _, _ :: _, _, _, _⟩) => true
  | .launch (.map ⟨_, _, _, _ :: _, _, [(ty, _)], ⟨[], [.const c]⟩⟩) => c.type == ty.elem
  | .launch (.map _) => false
  | _ => true

theorem Stm.conforms_of_plainly (typed : Bool) (env : Env) (stm : Stm) (h : stm.conformsPlainly = true) : stm.Conforms typed env := by
  unfold conformsPlainly at h
  unfold Stm.Conforms
  split at h
  · rename_i exp
    rw [exp]
    rintro _ ⟨⟩
    rfl
  · cases h
  · cases h
  · rename_i exp
    rw [exp]
    refine ⟨List.cons_ne_nil _ _, fun thread values fed _ => ?_⟩
    obtain ⟨_, _, _, ⟨⟩, _, reached, _⟩ := fed
    cases reached.mem
  · rename_i exp
    rw [exp]
    refine ⟨List.cons_ne_nil _ _, ?_⟩
    rintro thread _ _ ⟨⟩ vr mem
    obtain rfl := List.mem_singleton.mp mem
    refine ⟨trivial, ?_⟩
    rw [Value.hasElem]
    exact Bool.or_eq_true_iff.mpr (.inr h)
  · cases h
  · split <;> first | trivial | simp_all

/-- A row of copies of one operand. -/
def sampleOfCopies (elem : ScalarType) (n : Int64) (copied : Operand) : Program :=
  let row : Ty := .array elem [.word n] false
  let kernel : MapKernel := ⟨[], .word n, ⟨"t", 2⟩, [(⟨"i", 3⟩, .word n)], [], [(.scalar elem, [0])], ⟨[], [copied]⟩⟩
  ⟨[⟨"main", [⟨⟨"x", 0⟩, .scalar elem, none⟩], [row], ⟨[.single ⟨"b", 1⟩ row (.launch (.map kernel))], [.var ⟨"b", 1⟩]⟩⟩]⟩

section
variable {options : SimplifyOptions} {names names' : NameSupply} {p p' : Program} {name : String} {args vs : List Value}

end

/-- The first element of a range, or zero if the range has a negative length. -/
def sampleWithRange : Program :=
  let n : Name := ⟨"n", 0⟩
  let c : Name := ⟨"c", 1⟩
  let r : Name := ⟨"r", 2⟩
  let xs : Name := ⟨"xs", 3⟩
  let y : Name := ⟨"y", 4⟩
  let range : Stm := .single xs (.array .i64 [.var n] false) (.iota (.var n) (.word 0) (.word 1))
  let first : Exp := .branch (.var c) ⟨[], [.word 0]⟩ ⟨[range, .ofWord y (.index xs [.word 0])], [.var y]⟩ [.scalar .i64]
  ⟨[⟨"main", [⟨n, .scalar .i64, none⟩], [.scalar .i64],
    ⟨[.single c (.scalar .bool) (.compare .lt (.var n) (.word 0)), .ofWord r first], [.var r]⟩⟩]⟩

end ArrayKernels
