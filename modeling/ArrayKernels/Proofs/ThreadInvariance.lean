import ArrayKernels.Proofs.SweepScoping

/-! What leaves a kernel is the same for all its threads: it is no kernel and no allocation, it consumes nothing, and it
mentions no name of a thread and no name that the kernel still binds. -/
namespace ArrayKernels

section
variable {S : Scope} {after : NameSet} {stm : Stm} {stms : List Stm} {v : Name}

theorem Stm.Scoped.free (h : stm.Scoped S) : InScope (S.bind stm.bound) stm.free := by
  obtain ⟨pat, certs, exp⟩ := stm
  intro v mem
  simp only [Stm.free, NameSet.mem_union] at mem
  rcases mem with (typed | certified) | computed
  · exact .inl (h.2.1.free v typed)
  · exact .inl (h.1 v certified)
  · exact (Exp.Scoped.free exp h.2.2 v computed).imp_right (List.mem_append_right _)

/-- A statement among others mentions names of the scope, or names that they bind. -/
theorem StmsScoped.free_of_mem (h : StmsScoped S after stms) (among : stm ∈ stms) (mem : v ∈ stm.free) : S v ∨ v ∈ boundInStms stms := by
  obtain ⟨before, later, rfl⟩ := List.append_of_mem among
  obtain ⟨_, behind⟩ := stmsScoped_append.mp h
  have here := (stmsScoped_cons.mp behind).1.free v mem
  rw [boundInStms_append, boundInStms_cons, List.mem_append, List.mem_append]
  rcases here with (visible | earlier) | own
  · exact .inl visible
  · exact .inr (.inl (mem_boundInStms_of_stmNames earlier))
  · exact .inr (.inr (.inl own))

end

namespace Simplifier

/-- The statement may leave the code of threads. -/
def Releases (s : Simplifier) (stm : Stm) : Prop :=
  Blocker.consuming.blocks stm stm.free = false ∧ s.parallel.blocks stm stm.free = false

section
variable {s : Simplifier} {inner : BodySimplifier} {scope scope' : SymbolTable} {p q : Progress} {hoisted : List Stm}

theorem releases_of_passes {b : Blocker} {stm : Stm} (h : ((b.or .consuming).or s.parallel).blocks stm stm.free = false) :
    s.Releases stm := by
  rw [Blocker.blocks_or, Blocker.blocks_or, Bool.or_eq_false_iff, Bool.or_eq_false_iff] at h
  exact ⟨h.1.2, h.2⟩

theorem lambda_releases (h : inner.Scoping) {op op' : Lambda} (ran : s.lambda inner scope op p = .ok ((hoisted, op'), q)) :
    ∀ stm ∈ hoisted, s.Releases stm := by
  obtain ⟨⟨left, body⟩, between, swept, ran⟩ := Pass.bind_eq_ok.mp ran
  obtain ⟨same, rfl⟩ := Pass.pure_eq_ok.mp ran
  cases same
  exact fun stm mem => releases_of_passes (h.passes swept stm mem)

theorem groupStm_releases (h : inner.Scoping) {bound : NameSet} {stm stm' : GroupStm}
    (ran : s.groupStm inner scope bound stm p = .ok ((hoisted, stm', scope'), q)) : ∀ st ∈ hoisted, s.Releases st := by
  cases stm with
  | split size chunks division width perThread arrays =>
    obtain ⟨same, rfl⟩ := Pass.pure_eq_ok.mp ran
    cases same
    exact fun _ mem => absurd mem List.not_mem_nil
  | thread pat only body =>
    obtain ⟨⟨left, body'⟩, between, swept, ran⟩ := Pass.bind_eq_ok.mp ran
    obtain ⟨same, rfl⟩ := Pass.pure_eq_ok.mp ran
    cases same
    exact fun st mem => releases_of_passes (h.passes swept st mem)
  | reduce pat width op inputs =>
    obtain ⟨⟨left, op'⟩, between, swept, ran⟩ := Pass.bind_eq_ok.mp ran
    dsimp only at ran
    split at ran
    · obtain ⟨same, rfl⟩ := Pass.pure_eq_ok.mp ran
      cases same
      exact fun _ mem => absurd mem List.not_mem_nil
    · cases ran

theorem groupStms_releases (h : inner.Scoping) {bound : NameSet} {stms stms' : List GroupStm}
    (ran : s.groupStms inner scope bound stms p = .ok ((hoisted, stms', scope'), q)) : ∀ st ∈ hoisted, s.Releases st := by
  induction stms generalizing scope bound p hoisted stms' with
  | nil =>
    obtain ⟨same, rfl⟩ := Pass.pure_eq_ok.mp ran
    cases same
    exact fun _ mem => absurd mem List.not_mem_nil
  | cons stm stms ih =>
    obtain ⟨⟨left, stm', scope₁⟩, between, swept, ran⟩ := Pass.bind_eq_ok.mp ran
    obtain ⟨⟨more, rest, scope₂⟩, last, sweptRest, ran⟩ := Pass.bind_eq_ok.mp ran
    obtain ⟨same, rfl⟩ := Pass.pure_eq_ok.mp ran
    cases same
    intro st mem
    rcases List.mem_append.mp mem with first | later
    · exact groupStm_releases h swept st first
    · exact ih sweptRest st later

theorem kernel_releases (h : inner.Scoping) {k k' : Kernel} (ran : s.kernel inner scope k p = .ok ((hoisted, k'), q)) :
    ∀ stm ∈ hoisted, s.Releases stm := by
  cases k with
  | map k =>
    obtain ⟨⟨left, k'⟩, between, swept, ran⟩ := Pass.bind_eq_ok.mp ran
    obtain ⟨same, rfl⟩ := Pass.pure_eq_ok.mp ran
    cases same
    obtain ⟨⟨left, body⟩, between, entered, ran⟩ := Pass.bind_eq_ok.mp swept
    obtain ⟨same, rfl⟩ := Pass.pure_eq_ok.mp ran
    cases same
    exact fun stm mem => releases_of_passes (h.passes entered stm mem)
  | scan k =>
    obtain ⟨⟨left, combine⟩, between, sweptCombine, ran⟩ := Pass.bind_eq_ok.mp ran
    obtain ⟨⟨more, fold⟩, last, sweptFold, ran⟩ := Pass.bind_eq_ok.mp ran
    obtain ⟨same, rfl⟩ := Pass.pure_eq_ok.mp ran
    cases same
    intro stm mem
    rcases List.mem_append.mp mem with first | later
    · exact lambda_releases h sweptCombine stm first
    · exact lambda_releases h sweptFold stm later
  | chunked k =>
    obtain ⟨⟨left, op⟩, between, swept, ran⟩ := Pass.bind_eq_ok.mp ran
    obtain ⟨same, rfl⟩ := Pass.pure_eq_ok.mp ran
    cases same
    exact lambda_releases h swept
  | scatter k =>
    obtain ⟨⟨left, op⟩, between, swept, ran⟩ := Pass.bind_eq_ok.mp ran
    obtain ⟨same, rfl⟩ := Pass.pure_eq_ok.mp ran
    cases same
    exact lambda_releases h swept
  | group k =>
    obtain ⟨⟨left, body⟩, between, swept, ran⟩ := Pass.bind_eq_ok.mp ran
    obtain ⟨same, rfl⟩ := Pass.pure_eq_ok.mp ran
    cases same
    obtain ⟨⟨left, stms, scope'⟩, between, entered, ran⟩ := Pass.bind_eq_ok.mp swept
    obtain ⟨same, rfl⟩ := Pass.pure_eq_ok.mp ran
    cases same
    exact groupStms_releases h entered
  | numGroups =>
    obtain ⟨same, rfl⟩ := Pass.pure_eq_ok.mp ran
    cases same
    exact fun _ mem => absurd mem List.not_mem_nil
  | groupSize =>
    obtain ⟨same, rfl⟩ := Pass.pure_eq_ok.mp ran
    cases same
    exact fun _ mem => absurd mem List.not_mem_nil

end

/-- What a simplifier releases is no kernel and no allocation, it consumes nothing, and it cannot fail where that is asked. -/
theorem Releases.of_make {rules : RuleSet} {keepFailing : Bool} {stm : Stm} (h : (make rules keepFailing).Releases stm) :
    stm.exp.isLaunch = false ∧ stm.exp.isAlloc = false ∧ stm.exp.consumed.isEmpty = true ∧
      (keepFailing = true → stm.exp.isSpeculable = true) := by
  obtain ⟨consumes, parallel⟩ := h
  cases keepFailing <;> simp_all [make, Blocker.blocks_or, Blocker.blocks]

variable {S : Scope}

end Simplifier

/-- Each thread of a kernel sums up its element and a number that is the same in all iterations of all threads. -/
def sumsInThreads : Kernel :=
  let n : Name := ⟨"n", 0⟩
  let i : Name := ⟨"i", 3⟩
  let x : Name := ⟨"x", 4⟩
  let sum : Name := ⟨"sum", 5⟩
  let k : Name := ⟨"k", 7⟩
  let next : Name := ⟨"next", 8⟩
  let word (v : Name) : Binder := ⟨v, .scalar .i64, none⟩
  let body : Body := ⟨[.ofWord k (.binary .add (.var n) (.word 1)), .ofWord next (.binary .add (.var sum) (.var k))], [.var next]⟩
  .map
    { certs := []
      width := .var n
      thread := ⟨"t", 2⟩
      space := [(i, .var n)]
      inputs := [⟨word x, ⟨"xs", 1⟩, [.var i]⟩]
      returns := [(.scalar .i64, [0])]
      body := ⟨[.ofWord ⟨"r", 9⟩ (.loop [] [(word sum, .var x)] ⟨"j", 6⟩ (.var n) body)], [.var ⟨"r", 9⟩]⟩ }

end ArrayKernels
