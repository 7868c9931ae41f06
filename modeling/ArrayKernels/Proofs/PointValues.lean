import ArrayKernels.Proofs.HoistedOutputs
import ArrayKernels.Proofs.IndexInjective
import ArrayKernels.Proofs.RegularValues
import ArrayKernels.Proofs.RowStacks
import ArrayKernels.Proofs.ThreadRange
import Mathlib.Algebra.Group.Nat.Defs
import Mathlib.Data.List.Nodup

/-! What a map kernel computes at each point of its index space. Threads are numbered in row-major order, so that the coordinates of
a thread are the point whose number it has. The rows of the threads are stacked in this order, seen in the shape of the space, and then
rearranged: each of these steps leads an element to a place that is known, and together they lead it to the place that the order of the
dimensions gives to its point. -/
namespace ArrayKernels

variable {env : Env} {k : MapKernel}

/-! The thread of a point -/

theorem Env.sizes_lt {xs : List Operand} {ns : List Nat} (h : env.sizes xs = .ok ns) : ∀ n ∈ ns, n < 2 ^ 63 := by
  intro n mem
  obtain ⟨x, _, sized⟩ := exists_of_mem_right (mapM_eq_ok.mp h) mem
  obtain ⟨w, _, _, value⟩ := Env.size_eq_ok sized
  have := w.toInt_lt
  omega

/-- Bindings of distinct names have no order. -/
theorem Env.get?_bindAll_reverse (env : Env) {bs : List (Name × Value)} (distinct : (bs.map Prod.fst).Nodup) (v : Name) :
    (env.bindAll bs.reverse).get? v = (env.bindAll bs).get? v := by
  have distinct' : (bs.reverse.map Prod.fst).Nodup := by
    rwa [List.map_reverse, List.nodup_reverse]
  by_cases mem : v ∈ bs.map Prod.fst
  · obtain ⟨⟨w, x⟩, among, rfl⟩ := List.mem_map.mp mem
    rw [get?_bindAll_of_nodup env distinct among, get?_bindAll_of_nodup env distinct' (List.mem_reverse.mpr among)]
  · have mem' : v ∉ bs.reverse.map Prod.fst := by
      rwa [List.map_reverse, List.mem_reverse]
    rw [get?_bindAll_of_not_mem env mem, get?_bindAll_of_not_mem env mem']

namespace MapKernel

/-- The parameters are bound in turn, each of them to what is read for its input. -/
inductive ReadsInputs : Env → List MapInput → Env → Prop where
  | nil {e : Env} : ReadsInputs e [] e
  | cons {e next : Env} {i : MapInput} {inputs : List MapInput} {x : Value} (read : i.value e = .ok x)
      (rest : ReadsInputs (e.bind i.param.name x) inputs next) : ReadsInputs e (i :: inputs) next

theorem bindInputs_reads {e next : Env} {inputs : List MapInput} (h : bindInputs e inputs = .ok next) : ReadsInputs e inputs next := by
  induction inputs generalizing e with
  | nil =>
    cases h
    exact .nil
  | cons i inputs ih =>
    rw [bindInputs_cons] at h
    obtain ⟨x, read, h⟩ := bind_eq_ok.mp h
    exact .cons read (ih h)

/-- The names of the space have the coordinates of the point, and the thread has its number. -/
def pointEnv (k : MapKernel) (dims : List Nat) (env : Env) (q : List Nat) : Env :=
  env.bindAll ((k.thread, .count (position q dims)) :: (k.space.map Prod.fst).zip (q.map Value.count))

/-- The thread with the number of a point starts at the point. -/
theorem threadEnv_at {dims q : List Nat} {e : Env} (distinct : k.threadNames.Nodup) (ranks : dims.length = k.space.length)
    (inside : Inside q dims) (entered : k.threadEnv dims env (position q dims) = .ok e) :
    ∃ e', ReadsInputs (k.pointEnv dims env q) k.inputs e' ∧ e.Agree (fun _ => True) e' := by
  have coords := coordinates_position inside 0
  rw [Nat.zero_mul, Nat.zero_add] at coords
  rw [threadEnv, coords] at entered
  have names : (((k.space.map Prod.fst).zip (q.map Value.count)).map Prod.fst).Nodup := by
    rw [threadNames, List.cons_append, List.nodup_cons, List.nodup_append] at distinct
    rw [List.map_fst_zip (by simp [inside.length_eq, ranks])]
    exact distinct.2.1
  -- coordinates are bound from the last dimension on, which makes no difference for distinct names
  have start : ((env.bind k.thread (.count (position q dims))).bindAll
      ((k.space.map Prod.fst).zip (q.map Value.count)).reverse).Agree (fun _ => True) (k.pointEnv dims env q) :=
    fun v _ => Env.get?_bindAll_reverse _ names v
  have seen : ∀ i ∈ k.inputs, InScope (fun _ => True) i.free := fun i _ v _ => trivial
  have outcome := bindInputs_agree start seen
  rw [entered] at outcome
  obtain ⟨e', made, agree⟩ := outcome.exists_ok
  exact ⟨e', bindInputs_reads made, agree⟩

end MapKernel

/-! The rows of the threads -/

/-- The element of a value at an index: that of an array, or the scalar itself. -/
def Value.HasElement (j : List Nat) (c : Scalar) : Value → Prop
  | .scalar d => j = [] ∧ d = c
  | .array a => a.index (j.map Int64.ofNat) = .ok (.scalar c)
  | .mem _ _ => False

namespace ArrayValue

theorem index_of_inside {a : ArrayValue} {idx : List Nat} {c : Scalar} (inside : Inside idx a.shape) (short : ∀ d ∈ a.shape, d < 2 ^ 63)
    (there : a.data[position idx a.shape]? = some c) : a.index (idx.map Int64.ofNat) = .ok (.scalar c) := by
  obtain ⟨bounded, back⟩ := inBounds_ofNat inside short
  exact index_of_inBounds bounded (by rwa [back])

section
variable {shape : List Nat} {x : Value} {data : Array Scalar}

theorem rowCells_cases (read : rowCells shape x = .ok data) :
    (∃ c, x = .scalar c ∧ shape = [] ∧ data = #[c]) ∨ ∃ a, x = .array a ∧ shape = a.shape ∧ data = a.data := by
  cases x with
  | scalar c =>
    rw [rowCells] at read
    split at read
    · cases read
      exact .inl ⟨c, rfl, ‹_›, rfl⟩
    · cases read
  | array a =>
    rw [rowCells] at read
    split at read
    · cases read
      exact .inr ⟨a, rfl, Eq.symm ‹_›, rfl⟩
    · cases read
  | mem n space => cases read

theorem rowCells_size (read : rowCells shape x = .ok data) (regular : x.IsRegular) : data.size = volume shape := by
  obtain ⟨c, rfl, rfl, rfl⟩ | ⟨a, rfl, rfl, rfl⟩ := rowCells_cases read
  · rfl
  · exact regular

theorem hasElement_of_rowCells (read : rowCells shape x = .ok data) {j : List Nat} {c : Scalar} (inside : Inside j shape)
    (short : ∀ d ∈ shape, d < 2 ^ 63) (there : data[position j shape]? = some c) : x.HasElement j c := by
  obtain ⟨d, rfl, rfl, rfl⟩ | ⟨a, rfl, rfl, rfl⟩ := rowCells_cases read
  · cases inside
    exact ⟨rfl, Option.some.inj there⟩
  · exact index_of_inside inside short there

end

/-- An element of a stack is one of the row of its point. -/
theorem flatten_element {space shape : List Nat} {rows : List Value} {blocks : List (Array Scalar)}
    (read : List.Forall₂ (fun x data => rowCells shape x = .ok data) rows blocks) (regular : Regulars rows)
    (fits : volume (space ++ shape) = blocks.toArray.flatten.size) (short : ∀ d ∈ shape, d < 2 ^ 63)
    {q j : List Nat} (point : Inside q space) (inner : Inside j shape) :
    ∃ x c, rows[position q space]? = some x ∧ x.HasElement j c ∧
      blocks.toArray.flatten[position (q ++ j) (space ++ shape)]? = some c := by
  have sizes : ∀ b ∈ blocks, b.size = volume shape := by
    intro b mem
    obtain ⟨x, among, read⟩ := exists_of_mem_right read mem
    exact rowCells_size read (regular x among)
  -- rows without elements would say nothing of how many there are; but here a row has an element at `j`
  have count : volume space = blocks.length := by
    rw [size_flatten sizes, volume_append] at fits
    exact Nat.eq_of_mul_eq_mul_right (volume_pos_of_inside inner) fits
  have below : position q space < blocks.length := count ▸ position_lt point
  have below' : position q space < rows.length := read.length_eq ▸ below
  have here := read.get below' below
  have within : position j shape < (blocks[position q space]).size := by
    rw [sizes _ (List.getElem_mem below)]
    exact position_lt inner
  refine ⟨rows[position q space], (blocks[position q space])[position j shape], List.getElem?_eq_getElem below',
    hasElement_of_rowCells here inner short (Array.getElem?_eq_getElem within), ?_⟩
  rw [position_append point.length_eq, getElem?_flatten sizes (List.getElem?_eq_getElem below) (position_lt inner)]
  exact Array.getElem?_eq_getElem within

/-! Dimensions in another order -/

/-- The second array has the dimensions of the first in another order. -/
structure Reorders (perm : List Nat) (a b : ArrayValue) : Prop where
  moves : perm.Perm (List.range a.shape.length)
  shape : b.shape = perm.map fun p => a.shape.getD p 0
  element : ∀ idx, Inside idx a.shape → b.data[position (perm.map fun p => idx.getD p 0) b.shape]? = a.data[position idx a.shape]?

section
variable {a b : ArrayValue} {perm : List Nat}

theorem inside_reordered {idx dims : List Nat} (moves : perm.Perm (List.range dims.length)) (inside : Inside idx dims) :
    Inside (perm.map fun p => idx.getD p 0) (perm.map fun p => dims.getD p 0) := by
  rw [Inside, List.forall₂_map_left_iff, List.forall₂_map_right_iff, List.forall₂_same]
  intro p mem
  have below : p < dims.length := List.mem_range.mp (moves.mem_iff.mp mem)
  have below' : p < idx.length := inside.length_eq ▸ below
  have each := inside.get below' below
  simpa [List.getD_eq_getElem?_getD, below, below'] using each

theorem Reorders.self (a : ArrayValue) : Reorders (List.range a.shape.length) a a where
  moves := .rfl
  shape := (map_range_getD a.shape).symm
  element idx inside := by rw [← inside.length_eq, map_range_getD]

theorem reorders_of_rearrange (moved : a.rearrange perm = .ok b) : Reorders perm a b := by
  obtain ⟨moves, shape, _, element⟩ := rearrange_eq_ok moved
  refine ⟨moves, shape, ?_⟩
  intro idx inside
  have there := element (fun p => idx.getD p 0) (shape ▸ inside_reordered moves inside)
  rwa [← inside.length_eq, map_range_getD] at there

theorem Reorders.index {idx : List Nat} {c : Scalar} (h : Reorders perm a b) (inside : Inside idx a.shape) (short : ∀ d ∈ a.shape, d < 2 ^ 63)
    (there : a.data[position idx a.shape]? = some c) :
    b.index ((perm.map fun p => idx.getD p 0).map Int64.ofNat) = .ok (.scalar c) := by
  apply index_of_inside
  · rw [h.shape]
    exact inside_reordered h.moves inside
  · intro d mem
    rw [h.shape] at mem
    obtain ⟨p, among, rfl⟩ := List.mem_map.mp mem
    have below : p < a.shape.length := List.mem_range.mp (h.moves.mem_iff.mp among)
    simpa [List.getD_eq_getElem?_getD, below] using short _ (List.getElem_mem below)
  · rw [h.element idx inside, there]

end

end ArrayValue

/-! Points of outputs -/

namespace MapKernel

theorem assemble_eq_ok {space : List Nat} {ret : Ty × List Nat} {rows : List Value} {x : Value} (h : assemble env space ret rows = .ok x) :
    ∃ shape elem blocks out, env.sizes ret.1.shape = .ok shape ∧
      List.Forall₂ (fun x data => ArrayValue.rowCells shape x = .ok data) rows blocks ∧
      volume (space ++ shape) = blocks.toArray.flatten.size ∧ x = .array out ∧
      (ret.2.Perm (List.range (space ++ shape).length) → ArrayValue.Reorders ret.2 ⟨elem, space ++ shape, blocks.toArray.flatten⟩ out) := by
  obtain ⟨shape, sized, h⟩ := bind_eq_ok.mp h
  obtain ⟨elem, typed, h⟩ := bind_eq_ok.mp h
  obtain ⟨flat, stacked, h⟩ := bind_eq_ok.mp h
  obtain ⟨blocks, read, made⟩ := bind_eq_ok.mp stacked
  cases made
  refine ⟨shape, elem, blocks, ?_⟩
  split at h
  · rename_i fits
    split at h
    · rename_i ordered
      cases h
      refine ⟨_, sized, mapM_eq_ok.mp read, fits, rfl, ?_⟩
      intro moves
      have same : ret.2 = List.range (space ++ shape).length := by
        rw [of_decide_eq_true ordered, moves.length_eq, List.length_range]
      rw [same]
      exact ArrayValue.Reorders.self ⟨elem, space ++ shape, blocks.toArray.flatten⟩
    · obtain ⟨out, moved, made⟩ := bind_eq_ok.mp h
      cases made
      exact ⟨out, sized, mapM_eq_ok.mp read, fits, rfl, fun _ => ArrayValue.reorders_of_rearrange moved⟩
  · cases h

/-- Rows that are long enough all have a value in the column. -/
theorem forall₂_column {n : Nat} {rows : List (List Value)} (full : ∀ row ∈ rows, n < row.length) :
    List.Forall₂ (fun row x => row[n]? = some x) rows (column n rows) := by
  induction rows with
  | nil => exact .nil
  | cons row rows ih =>
    obtain ⟨here, later⟩ := List.forall_mem_cons.mp full
    have there := List.getElem?_eq_getElem here
    simp only [column, List.filterMap_cons, there]
    exact .cons there (ih later)

/-- The body gives the element at an index of one of its results, at a point of the space. -/
def GivesAt (k : MapKernel) (env : Env) (dims : List Nat) (n : Nat) (q j : List Nat) (c : Scalar) : Prop :=
  ∃ thread values v, ReadsInputs (k.pointEnv dims env q) k.inputs thread ∧ k.body.eval thread = .ok values ∧ values[n]? = some v ∧
    v.HasElement j c

namespace Rows

variable {count : Nat} {dims : List Nat} {rows : List (List Value)} (threads : k.Rows env count dims rows)
include threads

theorem ranks : dims.length = k.space.length := by
  rw [← (mapM_eq_ok.mp threads.extents).length_eq, MapKernel.extents, List.length_map]

theorem results_regular (regular : env.Regular) : ∀ row ∈ rows, Regulars row := by
  intro row mem
  obtain ⟨t, _, e, entered, ran, _⟩ := exists_of_mem_right threads.each mem
  exact k.body.eval_regular (threadEnv_regular regular k dims t e entered) row ran

/-- What the thread of a point gives for an output is what the body gives at the point. -/
theorem givesAt (distinct : k.threadNames.Nodup) {n : Nat} {q j : List Nat} {x : Value} {c : Scalar} (below : n < k.returns.length)
    (point : Inside q dims) (there : (column n rows)[position q dims]? = some x) (element : x.HasElement j c) :
    k.GivesAt env dims n q j c := by
  have full : ∀ row ∈ rows, n < row.length := by
    intro row mem
    obtain ⟨_, _, _, full⟩ := threads.row mem
    exact full ▸ below
  have columned := forall₂_column full
  obtain ⟨here, rfl⟩ := List.getElem?_eq_some_iff.mp there
  have here' : position q dims < rows.length := columned.length_eq ▸ here
  have here'' : position q dims < (List.range count).length := by
    rwa [List.length_range, ← threads.length]
  obtain ⟨e, entered, ran, _⟩ := threads.each.get here'' here'
  simp only [List.get_eq_getElem, List.getElem_range] at entered ran
  obtain ⟨e', reads, agree⟩ := threadEnv_at distinct threads.ranks point entered
  rw [Body.eval_agree k.body ⟨fun v _ => trivial, fun v _ => trivial⟩ agree] at ran
  exact ⟨e', _, _, reads, ran, columned.get here' here, element⟩

end Rows

end MapKernel

/-- Ten times each element of a table, and the row of the element, with the dimensions of both turned. -/
def sampleTurned : MapKernel :=
  let i : Name := ⟨"i", 2⟩
  let j : Name := ⟨"j", 3⟩
  let x : Name := ⟨"x", 4⟩
  let row : Name := ⟨"row", 5⟩
  let ten : Name := ⟨"ten", 6⟩
  let three : Ty := .array .i64 [.word 3] false
  ⟨[], .word 6, ⟨"t", 1⟩, [(i, .word 2), (j, .word 3)],
    [⟨⟨x, .scalar .i64, none⟩, ⟨"table", 0⟩, [.var i, .var j]⟩, ⟨⟨row, three, none⟩, ⟨"table", 0⟩, [.var i]⟩],
    [(.scalar .i64, [1, 0]), (three, [2, 0, 1])],
    ⟨[.ofWord ten (.binary .mul (.var x) (.word 10))], [.var ten, .var row]⟩⟩

end ArrayKernels
