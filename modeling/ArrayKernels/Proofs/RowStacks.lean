import ArrayKernels.Proofs.Parts

/-! Stacks of rows. A regular array holds the elements of its rows one after another, so that rows that are stacked can be read back,
and a choice of rows is again an array of these rows. -/
namespace ArrayKernels

/-- What stands in a row of an array with the given element type and row shape: an element if the rows have no dimensions, else a
regular array. -/
def Value.IsRow (elem : ScalarType) (shape : List Nat) : Value → Prop
  | .scalar _ => shape = []
  | .array a => shape ≠ [] ∧ a.elem = elem ∧ a.shape = shape ∧ a.Regular
  | .mem _ _ => False

namespace ArrayValue

/-! Blocks of elements -/

section
variable {blocks : List (Array Scalar)} {block : Array Scalar} {n j r : Nat}

theorem flatten_cons (block : Array Scalar) (blocks : List (Array Scalar)) :
    (block :: blocks).toArray.flatten = block ++ blocks.toArray.flatten := by
  simp

theorem getElem?_flatten (each : ∀ b ∈ blocks, b.size = n) (there : blocks[j]? = some block) (below : r < n) :
    blocks.toArray.flatten[j * n + r]? = block[r]? := by
  induction blocks generalizing j with
  | nil => cases there
  | cons b blocks ih =>
    obtain ⟨first, others⟩ := List.forall_mem_cons.mp each
    rw [flatten_cons]
    cases j with
    | zero =>
      cases there
      rw [Nat.zero_mul, Nat.zero_add, Array.getElem?_append_left (by omega)]
    | succ j =>
      have behind : (j + 1) * n + r = b.size + (j * n + r) := by
        rw [first, Nat.add_mul, Nat.one_mul]
        omega
      rw [behind, Array.getElem?_append_right (Nat.le_add_right ..), Nat.add_sub_cancel_left]
      exact ih others there

theorem cells_flatten {elem : ScalarType} {shape : List Nat} (each : ∀ b ∈ blocks, b.size = n) (there : blocks[j]? = some block) :
    (⟨elem, shape, blocks.toArray.flatten⟩ : ArrayValue).cells (j * n) n = .ok block := by
  have size : block.size = n := each block (List.mem_of_getElem? there)
  have fits : j * n + n ≤ blocks.toArray.flatten.size := by
    obtain ⟨below, _⟩ := List.getElem?_eq_some_iff.mp there
    rw [size_flatten each]
    calc j * n + n
      _ = (j + 1) * n := by rw [Nat.add_mul, Nat.one_mul]
      _ ≤ blocks.length * n := Nat.mul_le_mul_right n below
  rw [cells, if_pos fits]
  congr 1
  apply Array.ext_getElem?
  intro r
  rw [Array.getElem?_extract, Nat.min_eq_left fits, Nat.add_sub_cancel_left]
  split
  · exact getElem?_flatten each there ‹_›
  · rw [Array.getElem?_eq_none (by omega)]

end

/-! Rows of an array -/

section
variable {a b : ArrayValue} {elem : ScalarType} {shape dims : List Nat} {width i : Nat} {x : Value}

theorem exists_of_isRow (h : x.IsRow elem shape) : ∃ data, data.size = volume shape ∧ part elem shape data = .ok x := by
  cases x with
  | scalar c =>
    cases (h : shape = [])
    exact ⟨#[c], rfl, rfl⟩
  | array a =>
    obtain ⟨some, rfl, rfl, regular⟩ := h
    exact ⟨a.data, regular, part_of_ne_nil _ some⟩
  | mem n space => exact h.elim

/-- The elements of a row are those that were stacked. -/
theorem rowCells_eq_ok {data : Array Scalar} (size : data.size = volume shape) (made : part elem shape data = .ok x) :
    rowCells shape x = .ok data := by
  cases shape with
  | nil =>
    have one : data.size = 1 := size
    have first : data[0]? = some data[0] := Array.getElem?_eq_getElem (by omega)
    simp only [part, first, Except.ok.injEq] at made
    cases made
    rw [rowCells, if_pos rfl]
    congr 1
    apply Array.ext
    · simp [one]
    · intro i _ below
      obtain rfl : i = 0 := by omega
      rfl
  | cons d dims =>
    cases made
    exact if_pos rfl

theorem exists_part (elem : ScalarType) {data : Array Scalar} (size : data.size = volume shape) : ∃ x, part elem shape data = .ok x := by
  cases shape with
  | nil =>
    have one : data.size = 1 := size
    have first : data[0]? = some data[0] := Array.getElem?_eq_getElem (by omega)
    simp [part, first]
  | cons d dims => exact ⟨_, rfl⟩

theorem row_eq (outer : a.shape = width :: dims) (i : Nat) :
    a.row i = (a.cells (i * volume dims) (volume dims) >>= part a.elem dims) := by
  rw [row, outer]

/-- Every row of a regular array can be read. -/
theorem cells_of_lt (regular : a.Regular) (outer : a.shape = width :: dims) (below : i < width) :
    ∃ data, a.cells (i * volume dims) (volume dims) = .ok data ∧ data.size = volume dims := by
  have fits : i * volume dims + volume dims ≤ a.data.size := by
    rw [regular, outer, volume]
    calc i * volume dims + volume dims
      _ = (i + 1) * volume dims := by rw [Nat.add_mul, Nat.one_mul]
      _ ≤ width * volume dims := Nat.mul_le_mul_right _ below
  refine ⟨_, if_pos fits, ?_⟩
  rw [Array.size_extract, Nat.min_eq_left fits, Nat.add_sub_cancel_left]

theorem exists_row (regular : a.Regular) (outer : a.shape = width :: dims) (below : i < width) : ∃ x, a.row i = .ok x := by
  obtain ⟨data, cut, size⟩ := cells_of_lt regular outer below
  obtain ⟨x, made⟩ := exists_part a.elem size
  exact ⟨x, by rw [row_eq outer, cut, ok_bind, made]⟩

end

/-! Stacks -/

/-- The array of the given rows. -/
structure Stacks (elem : ScalarType) (dims : List Nat) (rows : List Value) (a : ArrayValue) : Prop where
  elem : a.elem = elem
  shape : a.shape = rows.length :: dims
  regular : a.Regular
  row : ∀ i x, rows[i]? = some x → a.row i = .ok x

section
variable {a : ArrayValue} {elem : ScalarType} {dims : List Nat} {rows : List Value}

/-- Blocks of the size of a row make an array of rows. -/
theorem stacks_flatten {blocks : List (Array Scalar)}
    (each : List.Forall₂ (fun x data => data.size = volume dims ∧ part elem dims data = .ok x) rows blocks) :
    Stacks elem dims rows ⟨elem, rows.length :: dims, blocks.toArray.flatten⟩ := by
  have sizes : ∀ b ∈ blocks, b.size = volume dims := by
    intro b mem
    obtain ⟨x, _, size, _⟩ := exists_of_mem_right each mem
    exact size
  constructor
  · rfl
  · rfl
  · rw [Regular, size_flatten sizes, volume, each.length_eq]
  · intro i x there
    obtain ⟨below, rfl⟩ := List.getElem?_eq_some_iff.mp there
    have below' : i < blocks.length := each.length_eq ▸ below
    obtain ⟨size, made⟩ := each.get below below'
    rw [row_eq rfl, cells_flatten sizes (List.getElem?_eq_getElem below'), ok_bind]
    exact made

theorem exists_forall₂ {α β : Type} {rel : α → β → Prop} {xs : List α} (each : ∀ x ∈ xs, ∃ y, rel x y) :
    ∃ ys, List.Forall₂ rel xs ys := by
  induction xs with
  | nil => exact ⟨[], .nil⟩
  | cons x xs ih =>
    obtain ⟨⟨y, here⟩, others⟩ := List.forall_mem_cons.mp each
    obtain ⟨ys, there⟩ := ih others
    exact ⟨y :: ys, .cons here there⟩

theorem ofRows_stacks (each : ∀ x ∈ rows, x.IsRow elem dims) : ∃ b, ofRows elem dims rows = .ok b ∧ b.Stacks elem dims rows := by
  obtain ⟨blocks, parts⟩ := exists_forall₂ fun x mem => exists_of_isRow (each x mem)
  refine ⟨_, ?_, stacks_flatten parts⟩
  have read : rows.mapM (rowCells dims) = .ok blocks := mapM_eq_ok.mpr (parts.imp fun x data h => rowCells_eq_ok h.1 h.2)
  rw [ofRows, read, ok_bind]

/-- A regular array is the array of its rows. -/
theorem exists_stacks (regular : a.Regular) {width : Nat} (outer : a.shape = width :: dims) :
    ∃ row : Nat → Value, a.Stacks a.elem dims ((List.range width).map row) ∧ ∀ i < width, a.row i = .ok (row i) := by
  have each (i : Nat) : ∃ x, i < width → a.row i = .ok x := by
    by_cases below : i < width
    · obtain ⟨x, here⟩ := exists_row regular outer below
      exact ⟨x, fun _ => here⟩
    · exact ⟨.count 0, fun within => absurd within below⟩
  obtain ⟨row, each⟩ := Classical.skolem.mp each
  refine ⟨row, ⟨rfl, ?_, regular, fun i x there => ?_⟩, each⟩
  · rw [List.length_map, List.length_range, outer]
  · rw [List.getElem?_map] at there
    obtain ⟨j, among, rfl⟩ := Option.map_eq_some_iff.mp there
    obtain ⟨below, rfl⟩ := List.getElem?_eq_some_iff.mp among
    rw [List.length_range] at below
    rw [List.getElem_range]
    exact each i below

/-- A choice of rows. -/
theorem Stacks.takeRows {row : Nat → Value} {width : Nat} (h : a.Stacks elem dims ((List.range width).map row)) {numbers : List Nat}
    (within : ∀ i ∈ numbers, i < width) : ∃ b, a.takeRows numbers = .ok b ∧ b.Stacks elem dims (numbers.map row) := by
  have outer : a.shape = width :: dims := by rw [h.shape, List.length_map, List.length_range]
  have reads (i : Nat) (mem : i ∈ numbers) : ∃ data, a.cells (i * volume dims) (volume dims) = .ok data ∧ data.size = volume dims ∧
      part elem dims data = .ok (row i) := by
    have below := within i mem
    obtain ⟨data, cut, size⟩ := cells_of_lt h.regular outer below
    have read := h.row i (row i) (by rw [List.getElem?_map, List.getElem?_range below, Option.map_some])
    rw [row_eq outer, cut, ok_bind, h.elem] at read
    exact ⟨data, cut, size, read⟩
  obtain ⟨blocks, parts⟩ := exists_forall₂ reads
  have taken : numbers.mapM (fun i => a.cells (i * volume dims) (volume dims)) = .ok blocks :=
    mapM_eq_ok.mpr (parts.imp fun i data h => h.1)
  refine ⟨_, ?_, stacks_flatten (List.forall₂_map_left_iff.mpr (parts.imp fun i data h => h.2))⟩
  rw [ArrayValue.takeRows, outer]
  dsimp only
  rw [taken, ok_bind, h.elem, List.length_map]

theorem Stacks.rows_eq (h : a.Stacks elem dims rows) : a.rows = rows.length := by
  rw [ArrayValue.rows, h.shape, List.headD_cons]

theorem Stacks.read (h : a.Stacks elem dims rows) : (List.range a.rows).mapM a.row = .ok rows := by
  rw [h.rows_eq, mapM_eq_ok, List.forall₂_iff_get]
  refine ⟨List.length_range, fun i _ below => ?_⟩
  simp only [List.get_eq_getElem, List.getElem_range]
  exact h.row i _ (List.getElem?_eq_getElem below)

end

/-- The array with the function applied to each row, of which the results have the given element type and shape. -/
def mapRows (elem : ScalarType) (rowShape : List Nat) (g : Value → Value) (a : ArrayValue) : Eval ArrayValue := do
  let rows ← (List.range a.rows).mapM a.row
  ofRows elem rowShape (rows.map g)

theorem Stacks.mapRows_eq {a : ArrayValue} {elem : ScalarType} {dims : List Nat} {rows : List Value} (h : a.Stacks elem dims rows)
    (elem' : ScalarType) (rowShape : List Nat) (g : Value → Value) : a.mapRows elem' rowShape g = ofRows elem' rowShape (rows.map g) := by
  rw [mapRows, h.read, ok_bind]

end ArrayValue

end ArrayKernels
