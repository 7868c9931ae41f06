import ArrayKernels.Proofs.Coverage
import ArrayKernels.Proofs.GroupSoundness

/-! Groups of threads are apart. A statement of a group kernel gives to a thread what it computes from the environments of the
thread's own group, so that the groups cannot learn anything about each other, however they are cut. -/
namespace ArrayKernels

namespace GroupKernel

/-! Threads and their groups -/

section
variable {α β : Type} {size n g i t : Nat} {xs : List α}

/-- The members of group `g`. -/
def groupOf (size g : Nat) (xs : List α) : List α := (xs.drop (g * size)).take size

theorem getElem?_groupOf (below : i < size) : (groupOf size g xs)[i]? = xs[g * size + i]? := by
  simp only [groupOf, List.getElem?_take, if_pos below, List.getElem?_drop]

theorem getElem?_blocks (below : g < n) : (blocks size n xs)[g]? = some (groupOf size g xs) := by
  induction n generalizing g xs with
  | zero => omega
  | succ n ih =>
    cases g with
    | zero => simp [blocks, groupOf]
    | succ g =>
      have rest : groupOf size g (xs.drop size) = groupOf size (g + 1) xs := by
        simp only [groupOf, List.drop_drop, Nat.add_mul, Nat.one_mul, Nat.add_comm]
      simp only [blocks, List.getElem?_cons_succ]
      rw [ih (by omega), rest]

theorem length_blocks (size n : Nat) (xs : List α) : (blocks size n xs).length = n := by
  induction n generalizing xs with
  | zero => rfl
  | succ n ih => simp [blocks, ih]

theorem length_eq_zero_of_mem_blocks {block : List α} (mem : block ∈ blocks size n ([] : List α)) : block.length = 0 := by
  induction n with
  | zero => exact absurd mem List.not_mem_nil
  | succ n ih =>
    simp only [blocks, List.take_nil, List.drop_nil, List.mem_cons] at mem
    rcases mem with rfl | mem
    · rfl
    · exact ih mem

/-- Lists as long as the blocks are cut at the same places. -/
theorem getElem?_flatten_of_blocks (positive : 0 < size) {parts : List (List β)} {y : β}
    (alike : List.Forall₂ (fun block part => part.length = block.length) (blocks size n xs) parts)
    (there : parts.flatten[t]? = some y) : ∃ part, parts[t / size]? = some part ∧ part[t % size]? = some y := by
  induction n generalizing xs parts t with
  | zero =>
    cases alike
    cases there
  | succ n ih =>
    obtain _ | @⟨_, part, _, parts, first, others⟩ := alike
    rw [List.length_take] at first
    rw [List.flatten_cons] at there
    by_cases here : t < part.length
    · have inside : t < size := by omega
      rw [List.getElem?_append_left here] at there
      rw [Nat.div_eq_of_lt inside, Nat.mod_eq_of_lt inside]
      exact ⟨part, rfl, there⟩
    · rw [List.getElem?_append_right (by omega)] at there
      obtain ⟨found, among, at'⟩ := ih others there
      by_cases full : part.length = size
      · -- the first block is a whole one
        have later : t - part.length + size = t := by omega
        refine ⟨found, ?_, ?_⟩
        · rw [← later, Nat.add_div_right _ positive]
          exact among
        · rw [← later, Nat.add_mod_right]
          exact at'
      · -- it is the last with members, so that there is no such thread
        have none : xs.drop size = [] := List.drop_eq_nil_of_le (by omega)
        rw [none] at others
        obtain ⟨block, mem, same⟩ := exists_of_mem_right others (List.mem_of_getElem? among)
        obtain ⟨below, _⟩ := List.getElem?_eq_some_iff.mp at'
        have empty := length_eq_zero_of_mem_blocks mem
        omega

end

/-! What a thread is given -/

section
variable {threads next : List Env} {groupSize t : Nat} {e : Env}

/-- A thread is given the reduction of its own group. -/
theorem exists_of_reduce (positive : 0 < groupSize) {pat : Pattern} {width : Operand} {inputs : List (Operand × Name)}
    {op : Env → List Value → Eval (List Value)} (ran : reduce pat width inputs op groupSize threads = .ok next) :
    next.length = threads.length ∧ ∀ t e, next[t]? = some e → ∃ e₀ values, threads[t]? = some e₀ ∧
      reduceGroup width inputs op (groupOf groupSize (t / groupSize) threads) = .ok values ∧ e₀.bindValues pat values = .ok e := by
  obtain ⟨reduced, computed, ran⟩ := bind_eq_ok.mp ran
  obtain ⟨bound, given, made⟩ := bind_eq_ok.mp ran
  cases made
  have outcomes := mapM_eq_ok.mp computed
  have each := mapM_eq_ok.mp given
  have members : ((groups groupSize threads).zip reduced).map Prod.fst = groups groupSize threads :=
    List.map_fst_zip (Nat.le_of_eq outcomes.length_eq)
  have paired : List.Forall₂ (List.Forall₂ fun _ _ : Env => True) (groups groupSize threads) bound := by
    rw [← members, List.forall₂_map_left_iff]
    exact each.imp fun mr part bind => (mapM_eq_ok.mp bind).imp fun _ _ _ => trivial
  constructor
  · have lengths := (List.rel_flatten paired).length_eq
    rw [flatten_groups positive] at lengths
    exact lengths.symm
  · intro t e there
    obtain ⟨part, among, here⟩ := getElem?_flatten_of_blocks positive (paired.imp fun _ _ same => same.length_eq.symm) there
    obtain ⟨below, rfl⟩ := List.getElem?_eq_some_iff.mp among
    obtain ⟨inside, rfl⟩ := List.getElem?_eq_some_iff.mp here
    have below₀ : t / groupSize < (groups groupSize threads).length := paired.length_eq ▸ below
    have below₁ : t / groupSize < reduced.length := outcomes.length_eq ▸ below₀
    have found : (groups groupSize threads)[t / groupSize] = groupOf groupSize (t / groupSize) threads := by
      refine Option.some.inj ((List.getElem?_eq_getElem below₀).symm.trans (getElem?_blocks ?_))
      rwa [groups, length_blocks] at below₀
    have reduces := outcomes.get below₀ below₁
    have binds := each.get (by rw [each.length_eq]; exact below) below
    simp only [List.get_eq_getElem, List.getElem_zip, found] at reduces binds
    have lanes := mapM_eq_ok.mp binds
    have own := lanes.get (by rw [lanes.length_eq]; exact inside) inside
    refine ⟨_, reduced[t / groupSize], ?_, reduces, own⟩
    rw [List.get_eq_getElem, ← List.getElem?_eq_getElem, getElem?_groupOf (Nat.mod_lt t positive), Nat.div_add_mod']

/-! Two runs -/

/-- The threads of group `g` are in environments that give every name the same value, or none. -/
def SameInGroup (groupSize g : Nat) (threads threads' : List Env) : Prop :=
  ∀ t e e', t / groupSize = g → threads[t]? = some e → threads'[t]? = some e' → ∀ v, e.get? v = e'.get? v

variable {threads' next' : List Env} {g : Nat}

/-- The names that an environment can have: all. -/
theorem encloses_all (free : NameSet) (bound : List Name) : Encloses (fun _ => True) free bound :=
  ⟨fun _ _ => trivial, fun _ _ => trivial⟩

theorem SameInGroup.members (h : SameInGroup groupSize g threads threads') (count : threads.length = threads'.length)
    (positive : 0 < groupSize) :
    List.Forall₂ (Env.Agree fun _ => True) (groupOf groupSize g threads) (groupOf groupSize g threads') := by
  refine List.forall₂_iff_get.mpr ⟨by simp only [groupOf, List.length_take, List.length_drop, count], fun i below below' => ?_⟩
  have inside : i < groupSize := Nat.lt_of_lt_of_le below (List.length_take_le _ _)
  have own : (g * groupSize + i) / groupSize = g := by
    rw [Nat.mul_comm, Nat.mul_add_div positive, Nat.div_eq_of_lt inside, Nat.add_zero]
  have there : threads[g * groupSize + i]? = some (groupOf groupSize g threads)[i] := by
    rw [← getElem?_groupOf inside, List.getElem?_eq_getElem below]
  have there' : threads'[g * groupSize + i]? = some (groupOf groupSize g threads')[i] := by
    rw [← getElem?_groupOf inside, List.getElem?_eq_getElem below']
  exact fun v _ => h _ _ _ own there there' v

theorem SameInGroup.numbered {f f' : Env × Nat → Eval Env} (h : SameInGroup groupSize g threads threads')
    (each : ∀ t e e', t / groupSize = g → Env.Agree (fun _ => True) e e' →
      SameOutcome (Env.Agree fun _ => True) (f (e, t)) (f' (e', t)))
    (ran : threads.zipIdx.mapM f = .ok next) (ran' : threads'.zipIdx.mapM f' = .ok next') : SameInGroup groupSize g next next' := by
  intro t y y' own there there'
  obtain ⟨e, before, gives⟩ := (mapM_zipIdx ran).2 t y there
  obtain ⟨e', before', gives'⟩ := (mapM_zipIdx ran').2 t y' there'
  have same := each t e e' own fun v _ => h t e e' own before before' v
  rw [gives, gives'] at same
  cases same with
  | ok related => exact fun v => related v trivial

/-- One statement: what a thread sees after it is settled by what its group saw before it. -/
theorem SameInGroup.stm {stm : GroupStm} (positive : 0 < groupSize) (count : threads.length = threads'.length)
    (h : SameInGroup groupSize g threads threads') (ran : evalGroupStms groupSize [stm] threads = .ok next)
    (ran' : evalGroupStms groupSize [stm] threads' = .ok next') :
    (next.length = threads.length ∧ next'.length = threads'.length) ∧ SameInGroup groupSize g next next' := by
  cases stm with
  | split size chunks division width perThread arrays =>
    obtain ⟨_, ran, same⟩ := bind_eq_ok.mp ran
    obtain ⟨_, ran', same'⟩ := bind_eq_ok.mp ran'
    cases same
    cases same'
    refine ⟨⟨(mapM_zipIdx ran).1, (mapM_zipIdx ran').1⟩, h.numbered (fun t e e' _ agree => ?_) ran ran'⟩
    rw [count]
    exact split_agree agree (fun _ _ => trivial) (fun _ _ => trivial) (fun _ _ => trivial) threads'.length t
  | thread pat only body =>
    obtain ⟨_, ran, same⟩ := bind_eq_ok.mp ran
    obtain ⟨_, ran', same'⟩ := bind_eq_ok.mp ran'
    cases same
    cases same'
    refine ⟨⟨(mapM_zipIdx ran).1, (mapM_zipIdx ran').1⟩, h.numbered (fun t e e' _ agree => ?_) ran ran'⟩
    exact runThread_agree agree (fun _ _ _ _ => trivial) (fun _ _ => trivial) (body.eval_agree (encloses_all _ _) agree) groupSize t
  | reduce pat width op inputs =>
    obtain ⟨_, ran, same⟩ := bind_eq_ok.mp ran
    obtain ⟨_, ran', same'⟩ := bind_eq_ok.mp ran'
    cases same
    cases same'
    obtain ⟨kept, each⟩ := exists_of_reduce positive ran
    obtain ⟨kept', each'⟩ := exists_of_reduce positive ran'
    refine ⟨⟨kept, kept'⟩, fun t y y' own there there' => ?_⟩
    obtain ⟨e, values, before, reduced, binds⟩ := each t y there
    obtain ⟨e', values', before', reduced', binds'⟩ := each' t y' there'
    subst own
    have folds : reduceGroup width inputs (fun e args => op.eval e args) (groupOf groupSize (t / groupSize) threads) =
        reduceGroup width inputs (fun e args => op.eval e args) (groupOf groupSize (t / groupSize) threads') :=
      reduceGroup_agree (fun _ _ => trivial) (fun _ _ => ⟨fun _ _ => trivial, trivial⟩)
        (fun e e' agree => op.eval_agree (encloses_all _ _) agree) (h.members count positive)
    rw [folds, reduced'] at reduced
    cases reduced
    have agree : Env.Agree (fun _ => True) e e' := fun v _ => h t e e' rfl before before' v
    have bound := agree.bindValues pat values
    rw [binds, binds'] at bound
    cases bound with
    | ok related => exact fun v => related v trivial

end

/-- Groups do not interfere. Two runs of the same statements, on threads that agree within group `g` and may differ in all others,
leave the threads of that group in agreement. -/
theorem sameInGroup_of_evalGroupStms {groupSize g : Nat} (positive : 1 ≤ groupSize) {stms : List GroupStm}
    {threads threads' final final' : List Env} (count : threads.length = threads'.length)
    (same : SameInGroup groupSize g threads threads') (ran : evalGroupStms groupSize stms threads = .ok final)
    (ran' : evalGroupStms groupSize stms threads' = .ok final') :
    final.length = threads.length ∧ final'.length = threads'.length ∧ SameInGroup groupSize g final final' := by
  induction stms generalizing threads threads' with
  | nil =>
    cases ran
    cases ran'
    exact ⟨rfl, rfl, same⟩
  | cons stm stms ih =>
    rw [evalGroupStms_cons] at ran ran'
    obtain ⟨next, first, ran⟩ := bind_eq_ok.mp ran
    obtain ⟨next', first', ran'⟩ := bind_eq_ok.mp ran'
    obtain ⟨⟨kept, kept'⟩, same⟩ := same.stm positive count first first'
    obtain ⟨last, last', same⟩ := ih (by omega) same ran ran'
    exact ⟨last.trans kept, last'.trans kept', same⟩

end GroupKernel

/-- Each thread has every fifth element of its array. The threads in lane 1 know their first element, and a group adds up what its
threads know. -/
def sampleTeams : List GroupStm :=
  let word (n : Int64) : Operand := .const (.i64 n)
  let many : Name := ⟨"many", 1⟩
  let chunk : Name := ⟨"chunk", 2⟩
  let known : Name := ⟨"known", 3⟩
  let scalar (v : Name) : Binder := ⟨v, .scalar .i64, none⟩
  let add : Lambda := ⟨[scalar ⟨"l", 6⟩, scalar ⟨"acc", 7⟩, scalar ⟨"y", 8⟩],
    ⟨[.ofWord ⟨"next", 9⟩ (.binary .add (.var ⟨"acc", 7⟩) (.var ⟨"y", 8⟩))], [.var ⟨"next", 9⟩]⟩, [.scalar .i64]⟩
  [.split (scalar many) [⟨chunk, .array .i64 [.var many] false, none⟩] .strided (word 5) (word 1) [⟨"xs", 0⟩],
    .thread ⟨[], [scalar known]⟩ (some (word 1)) ⟨[.ofWord ⟨"e", 4⟩ (.index chunk [word 0])], [.var ⟨"e", 4⟩]⟩,
    .reduce ⟨[], [scalar ⟨"sum", 5⟩]⟩ (word 2) add [(.var many, known)]]

/-- Five threads, of which the first two are given their own array. -/
def sampleTeamThreads (first : List Int64) : List Env :=
  [first, first, [1, 2, 3, 4, 5], [1, 2, 3, 4, 5], [6, 7, 8, 9, 10]].map fun xs => ⟨[(⟨"xs", 0⟩, .words xs)]⟩

/-- What the threads know of the sum in their group. -/
def sampleTeamSums (threads : List Env) : List Int64 :=
  threads.filterMap fun e => do (← (← e.get? ⟨"sum", 5⟩).asScalar).asWord

theorem sampleTeamThreads_same (first first' : List Int64) {g : Nat} (other : g ≠ 0) :
    GroupKernel.SameInGroup 2 g (sampleTeamThreads first) (sampleTeamThreads first') := by
  intro t e e' own there there'
  obtain ⟨t, rfl⟩ : ∃ u, t = u + 2 := ⟨t - 2, by omega⟩
  have same : (sampleTeamThreads first)[t + 2]? = (sampleTeamThreads first')[t + 2]? := rfl
  rw [there, there'] at same
  cases same
  exact fun v => rfl

/-- The first group is given other values, and the second and the third group, of one thread, do not see it. -/
theorem sampleTeams_apart : ∃ final final',
    evalGroupStms 2 sampleTeams (sampleTeamThreads [1, 2, 3, 4, 5]) = .ok final ∧
      evalGroupStms 2 sampleTeams (sampleTeamThreads [0, 30, 0, 0, 0]) = .ok final' ∧
      sampleTeamSums final = [3, 3, 5, 5, 1] ∧
      sampleTeamSums final' = [31, 31, 5, 5, 1] ∧
      GroupKernel.SameInGroup 2 1 final final' ∧ GroupKernel.SameInGroup 2 2 final final' := by
  have ran : (evalGroupStms 2 sampleTeams (sampleTeamThreads [1, 2, 3, 4, 5])).toOption.any (fun final => sampleTeamSums final =
      [3, 3, 5, 5, 1]) = true := by decide +kernel
  have ran' : (evalGroupStms 2 sampleTeams (sampleTeamThreads [0, 30, 0, 0, 0])).toOption.any (fun final => sampleTeamSums final =
      [31, 31, 5, 5, 1]) = true := by decide +kernel
  obtain ⟨final, gives, sums⟩ := exists_of_any ran
  obtain ⟨final', gives', sums'⟩ := exists_of_any ran'
  have count : (sampleTeamThreads [1, 2, 3, 4, 5]).length = (sampleTeamThreads [0, 30, 0, 0, 0]).length := rfl
  have apart {g : Nat} (other : g ≠ 0) : GroupKernel.SameInGroup 2 g final final' :=
    (GroupKernel.sameInGroup_of_evalGroupStms (by decide) count (sampleTeamThreads_same _ _ other) gives gives').2.2
  exact ⟨final, final', gives, gives', of_decide_eq_true sums, of_decide_eq_true sums', apart (by decide), apart (by decide)⟩

end ArrayKernels
