import ArrayKernels.Proofs.Simulation

/-! The evaluator reads nothing but the names that a piece of program reads: environments in which
these have values that are alike give outcomes that are alike. -/
namespace ArrayKernels

/-- Names have values that are alike in both stores, or in neither. -/
def congruence (l : Likeness) : Simulation True l .strict .strict where
  rel c c' := Option.Rel (Value.Alike l) c.value c'.value
  clean c c' := c.value = none ∧ c'.value = none
  fine _ _ := True
  fine' _ _ := True
  look := by
    intro c c' h v
    obtain ⟨x, _, _⟩ := c
    obtain ⟨y, _, _⟩ := c'
    cases h with
    | none => exact .error _ _
    | some alike => exact .ok alike
  given := .some

namespace congruence

variable {l : Likeness} {σ σ' : Store}

theorem rowShape_eq {vs : NameSet} (agree : (congruence l).Agree σ σ' vs) {ty : Ty} (part : ∀ v ∈ ty.rowReads, v ∈ vs) :
    σ.env.rowShape ty = σ'.env.rowShape ty := by
  rw [Env.rowShape, Env.rowShape, (Env.sizes_follow (agree.operands part)).toOption_eq]

theorem get?_eq {vs : NameSet} (agree : (congruence .exact).Agree σ σ' vs) {v : Name} (mem : v ∈ vs) :
    σ.env.get? v = σ'.env.get? v := by
  have related : Option.Rel _ (σ.env.get? v) (σ'.env.get? v) := agree v mem
  revert related
  generalize σ.env.get? v = x
  generalize σ'.env.get? v = y
  intro related
  cases related with
  | none => rfl
  | some alike => rw [alike.eq]

theorem rel_of_clean {c c' : Cell} (h : (congruence l).clean c c') : (congruence l).rel c c' := by
  obtain ⟨left, right⟩ := h
  show Option.Rel _ c.value c'.value
  rw [left, right]
  exact .none

theorem settle_follows {pat : Pattern} {e : Exp} {r r' : Eval (List Value)} (clean : (congruence l).Clean σ σ' pat.names)
    (values : Follows True (ValuesAlike l) r r') :
    Follows True ((congruence l).Binds pat) (Mode.strict.settle σ pat e r) (Mode.strict.settle σ' pat e r') := by
  refine values.bind fun vs vs' _ _ alike => ?_
  refine (bindValues_follows alike).bind fun env env' _ _ bound => .ok fun v mem => ?_
  show Option.Rel _ (env.get? v) (env'.get? v)
  obtain ⟨x, y, left, right, alike⟩ | ⟨left, right⟩ := bound v mem
  · rw [left, right]
    exact .some alike
  · rw [left, right]
    exact rel_of_clean (clean v mem)

theorem lawful : (congruence l).Lawful where
  leaf leaf _ clean agree := settle_follows clean (agree.renamed leaf).eval_follows
  nested _ _ clean values := settle_follows clean values
  map _ agree _ body := agree.map_run fun e e' fed fed' entered => body e e' (fun _ => fed) (fun _ => fed') entered
  chunked := by
    intro σ σ' k op op' clean agree body
    have rows : (congruence l).Agree σ σ' (NameSet.gather Ty.rowReads k.op.ret) := by
      intro v mem
      by_cases param : v ∈ k.op.params.map Binder.name
      · exact rel_of_clean (clean v param)
      · exact agree v (k.mem_reads_of_rows (NameSet.mem_without.mpr ⟨mem, param⟩))
    refine (agree.mono fun v mem => k.mem_reads_of_launch mem).chunked_run (fun ty mem => ?_)
      fun args args' fed fed' alike => body args args' (fun _ => fed) (fun _ => fed') alike
    exact rowShape_eq rows fun v free => NameSet.mem_gather.mpr ⟨ty, mem, free⟩
  group := by
    intro σ σ' k clean agree
    refine .ok ⟨fun v own => rel_of_clean (clean v own), fun ty mem => rowShape_eq (σ := σ) agree fun v free => ?_⟩
    exact k.mem_reads_of_rows (NameSet.mem_gather.mpr ⟨ty, mem, free⟩)

end congruence

end ArrayKernels
