import ArrayKernels.Eval.Exp
import ArrayKernels.Proofs.Follows

/-! Values that are alike. What may differ is chosen by the reader of the comparison: the sizes of
memory blocks, and the element types of arrays without elements or of all arrays. The operations on
arrays take values that are alike to values that are alike. -/
namespace ArrayKernels

/-- What may differ between two values, and whether their arrays are known to be regular. The
element types of arrays without elements are only overlooked where arrays are regular, since the
neutral element of a scan gives its type to all the rows of its shape. -/
structure Likeness where
  sizes : Prop
  tags : Prop
  elems : Prop
  regular : Prop
  regular_of_elems : elems → regular

namespace Likeness

/-- Nothing may differ. -/
def exact : Likeness := ⟨False, False, False, False, False.elim⟩

/-- The element type of an array with these elements may differ. -/
def Overlooks (l : Likeness) (data : Array Scalar) : Prop := l.tags ∨ l.elems ∧ data = #[]

theorem Overlooks.keep {l : Likeness} {data data' : Array Scalar} (h : l.Overlooks data) (empty : data = #[] → data' = #[]) :
    l.Overlooks data' := h.imp_right (And.imp_right empty)

end Likeness

variable {l : Likeness} {both : Prop}

structure ArrayValue.Alike (l : Likeness) (a b : ArrayValue) : Prop where
  shape : a.shape = b.shape
  data : a.data = b.data
  elem : a.elem = b.elem ∨ l.Overlooks a.data
  regular : l.regular → a.Regular

inductive Value.Alike (l : Likeness) : Value → Value → Prop where
  | scalar (c : Scalar) : Value.Alike l (.scalar c) (.scalar c)
  | array {a b : ArrayValue} (alike : a.Alike l b) : Value.Alike l (.array a) (.array b)
  | mem {m n : Int64} {space : Space} (alike : m = n ∨ l.sizes) : Value.Alike l (.mem m space) (.mem n space)

theorem Value.Alike.eq {x y : Value} (h : x.Alike .exact y) : x = y := by
  cases h with
  | scalar c => rfl
  | array alike =>
    rename_i a b
    cases a
    cases b
    obtain ⟨rfl, rfl, elem, _⟩ := alike
    obtain rfl | no | ⟨no, _⟩ := elem
    · rfl
    · exact no.elim
    · exact no.elim
  | mem alike => rw [alike.resolve_right id]

theorem Value.Alike.rfl_exact (x : Value) : x.Alike .exact x := by
  cases x with
  | scalar c => exact .scalar c
  | array a => exact .array ⟨rfl, rfl, .inl rfl, False.elim⟩
  | mem n space => exact .mem (.inl rfl)

theorem Value.Alike.trans {x y z : Value} (h : x.Alike l y) (h' : y.Alike l z) : x.Alike l z := by
  cases h with
  | scalar c => exact h'
  | array alike =>
    cases h' with
    | array alike' =>
      refine .array ⟨alike.shape.trans alike'.shape, alike.data.trans alike'.data, ?_, alike.regular⟩
      rcases alike.elem with same | overlooked
      · rw [same, alike.data]
        exact alike'.elem
      · exact .inr overlooked
  | mem alike =>
    cases h' with
    | mem alike' =>
      rcases alike with rfl | any
      · exact .mem alike'
      · exact .mem (.inr any)

theorem Value.Alike.shape_eq {x y : Value} (h : x.Alike l y) : x.shape = y.shape := by
  cases h with
  | scalar c => rfl
  | array alike => exact alike.shape
  | mem alike => rfl

namespace ArrayValue

theorem Alike.rank_eq {a b : ArrayValue} (h : a.Alike l b) : a.rank = b.rank := by
  rw [rank, rank, h.shape]

theorem Alike.rows_eq {a b : ArrayValue} (h : a.Alike l b) : a.rows = b.rows := by
  rw [rows, rows, h.shape]

theorem Alike.cells_eq {a b : ArrayValue} (h : a.Alike l b) (start len : Nat) : a.cells start len = b.cells start len := by
  rw [cells, cells, h.data]

theorem Alike.blockAt_eq {a b : ArrayValue} (h : a.Alike l b) (indices : List Int64) :
    a.blockAt indices = b.blockAt indices := by
  rw [blockAt, blockAt, h.rank_eq, h.shape]

theorem size_of_cells {a : ArrayValue} {start len : Nat} {r : Array Scalar} (h : a.cells start len = .ok r) :
    r.size = len := by
  rw [cells] at h
  split at h
  · cases h
    rw [Array.size_extract]
    omega
  · cases h

theorem cells_of_empty {a : ArrayValue} {start len : Nat} {r : Array Scalar} (h : a.cells start len = .ok r)
    (empty : a.data = #[]) : r = #[] := by
  rw [cells] at h
  split at h
  · cases h
    simp [empty]
  · cases h

theorem part_follows {elem elem' : ScalarType} (shape : List Nat) (data : Array Scalar)
    (same : elem = elem' ∨ l.Overlooks data) (regular : l.regular → data.size = volume shape) :
    Follows both (Value.Alike l) (part elem shape data) (part elem' shape data) := by
  cases shape with
  | nil =>
    cases first : data[0]? with
    | none =>
      simp only [part, first]
      exact .error _ _
    | some c =>
      simp only [part, first]
      exact .ok (.scalar c)
  | cons d dims => exact .ok (.array ⟨rfl, rfl, same, regular⟩)

variable {a b : ArrayValue}

theorem row_follows (h : a.Alike l b) (i : Nat) : Follows both (Value.Alike l) (a.row i) (b.row i) := by
  rw [row, row, h.shape]
  cases b.shape with
  | nil => exact .error _ _
  | cons d dims =>
    dsimp only
    rw [h.cells_eq]
    refine Follows.bind (.refl fun _ _ => rfl) fun data data' cut _ same => ?_
    subst same
    refine part_follows dims data (h.elem.imp_right fun overlooked => ?_) fun _ => size_of_cells cut
    exact overlooked.keep fun empty => cells_of_empty cut (h.data ▸ empty)

theorem index_follows (h : a.Alike l b) (indices : List Int64) :
    Follows both (Value.Alike l) (a.index indices) (b.index indices) := by
  rw [index, index, h.blockAt_eq, h.shape]
  refine Follows.bind (.refl fun _ _ => rfl) fun block block' found _ same => ?_
  subst same
  dsimp only
  rw [h.cells_eq]
  refine Follows.bind (.refl fun _ _ => rfl) fun data data' cut _ same => ?_
  subst same
  refine part_follows _ data (h.elem.imp_right fun overlooked => ?_) fun _ => ?_
  · exact overlooked.keep fun empty => cells_of_empty cut (h.data ▸ empty)
  · rw [size_of_cells cut]
    rw [blockAt] at found
    split at found
    · cases found
    · obtain ⟨n, _, made⟩ := bind_eq_ok.mp found
      cases made
      rfl

theorem volume_append (outer inner : List Nat) : volume (outer ++ inner) = volume outer * volume inner := by
  induction outer with
  | nil => simp [volume]
  | cons d dims ih => rw [List.cons_append, volume, volume, ih, Nat.mul_assoc]

theorem size_flatten {data : List (Array Scalar)} {n : Nat} (each : ∀ c ∈ data, c.size = n) :
    data.toArray.flatten.size = data.length * n := by
  induction data with
  | nil => simp
  | cons c data ih =>
    have rest := ih fun c' mem => each c' (List.mem_cons_of_mem c mem)
    have first := each c List.mem_cons_self
    simp only [Array.size_flatten, List.map_toArray, List.map_cons, List.sum_toArray, List.sum_cons,
      List.length_cons] at rest ⊢
    rw [rest, first, Nat.add_mul, Nat.one_mul, Nat.add_comm]

theorem takeRows_follows (h : a.Alike l b) (numbers : List Nat) :
    Follows both (ArrayValue.Alike l) (a.takeRows numbers) (b.takeRows numbers) := by
  rw [takeRows, takeRows, h.shape]
  cases b.shape with
  | nil => exact .error _ _
  | cons d dims =>
    dsimp only
    simp only [h.cells_eq]
    refine Follows.bind (.refl fun _ _ => rfl) fun data data' cut _ same => ?_
    subst same
    have each := mapM_eq_ok.mp cut
    refine .ok ⟨rfl, rfl, h.elem.imp_right fun overlooked => ?_, fun _ => ?_⟩
    · refine overlooked.keep fun empty => Array.eq_empty_of_size_eq_zero ?_
      rw [size_flatten fun c mem => ?_, Nat.mul_zero]
      obtain ⟨i, _, cut⟩ := exists_of_mem_right each mem
      rw [cells_of_empty cut (h.data ▸ empty)]
      rfl
    · rw [Regular, volume, size_flatten fun c mem => ?_, each.length_eq]
      obtain ⟨i, _, cut⟩ := exists_of_mem_right each mem
      exact size_of_cells cut

theorem reshape_alike (h : a.Alike l b) (shape : List Nat) :
    Option.Rel (ArrayValue.Alike l) (a.reshape shape) (b.reshape shape) := by
  rw [reshape, reshape, h.data]
  split
  · rename_i fits
    exact .some ⟨rfl, rfl, h.data ▸ h.elem, fun _ => fits.1.symm⟩
  · exact .none

theorem rearrange_follows (h : a.Alike l b) (perm : List Nat) :
    Follows both (ArrayValue.Alike l) (a.rearrange perm) (b.rearrange perm) := by
  rw [rearrange, rearrange, h.rank_eq, h.shape, h.data]
  refine .ite (fun _ => ?_) fun _ => .error _ _
  refine Follows.bind (.refl fun _ _ => rfl) fun data data' moved _ same => ?_
  subst same
  rw [collect_eq_mapM] at moved
  have each := mapM_eq_ok.mp moved
  refine .ok ⟨rfl, rfl, h.elem.imp_right fun overlooked => ?_, fun _ => ?_⟩
  · refine overlooked.keep fun empty => ?_
    cases data with
    | nil => rfl
    | cons c data =>
      obtain ⟨t, _, read⟩ := exists_of_mem_right each List.mem_cons_self
      rw [← h.data, empty] at read
      simp at read
  · rw [Regular, List.size_toArray, ← each.length_eq, List.length_range]

theorem copies_empty (n : Nat) : copies n #[] = #[] :=
  Array.eq_empty_of_size_eq_zero (size_copies n #[])

theorem replicate_follows {x y : Value} (h : x.Alike l y) (outer : List Nat) :
    Follows both (ArrayValue.Alike l) (replicate outer x) (replicate outer y) := by
  cases h with
  | scalar c => exact .ok ⟨rfl, rfl, .inl rfl, fun _ => Array.size_replicate⟩
  | mem alike => exact .error _ _
  | array alike =>
    rename_i a b
    refine .ok ⟨by rw [alike.shape], by rw [alike.data], alike.elem.imp_right fun overlooked => ?_, fun regular => ?_⟩
    · exact overlooked.keep fun empty => by rw [empty, copies_empty]
    · rw [Regular, size_copies, volume_append, alike.regular regular]

theorem rowCells_follows {x y : Value} (h : x.Alike l y) (shape : List Nat) :
    Follows both (fun c d => c = d ∧ (l.regular → c.size = volume shape)) (rowCells shape x) (rowCells shape y) := by
  cases h with
  | scalar c => exact .ite (fun flat => .ok ⟨rfl, fun _ => by rw [flat]; rfl⟩) fun _ => .error _ _
  | mem alike => exact .error _ _
  | array alike =>
    rename_i a b
    rw [rowCells, rowCells, alike.shape]
    refine .ite (fun fits => .ok ⟨alike.data, fun regular => ?_⟩) fun _ => .error _ _
    rw [alike.regular regular, alike.shape, fits]

theorem ofRows_follows {elem elem' : ScalarType} {rowShape : List Nat} {rows rows' : List Value}
    (alike : List.Forall₂ (Value.Alike l) rows rows')
    (same : elem = elem' ∨ l.tags ∨ l.elems ∧ volume (rows.length :: rowShape) = 0) :
    Follows both (ArrayValue.Alike l) (ofRows elem rowShape rows) (ofRows elem' rowShape rows') := by
  have cells : Follows both _ _ _ := .mapM (alike.imp fun x y h => rowCells_follows h rowShape)
  refine cells.bind fun data data' made _ related => ?_
  have equal : data = data' := List.forall₂_eq_eq_eq ▸ related.imp fun _ _ h => h.1
  subst equal
  have length : data.length = rows.length := (mapM_eq_ok.mp made).length_eq.symm
  have regular (known : l.regular) : data.toArray.flatten.size = volume (rows.length :: rowShape) := by
    rw [volume, ← length]
    exact size_flatten fun c mem => (exists_of_mem_right related mem).elim fun d h => h.2.1 ▸ h.2.2 known
  refine .ok ⟨by rw [alike.length_eq], rfl, same.imp_right (Or.imp_right ?_), regular⟩
  rintro ⟨overlooked, empty⟩
  refine ⟨overlooked, Array.eq_empty_of_size_eq_zero ?_⟩
  rw [regular (l.regular_of_elems overlooked), empty]

theorem write_follows (h : a.Alike l b) (start : Nat) (new : Array Scalar) :
    Follows both (ArrayValue.Alike l) (a.write start new) (b.write start new) := by
  rw [write, write, h.data]
  refine .ite (fun _ => .ok ⟨h.shape, rfl, h.elem.imp_right fun overlooked => ?_, fun regular => ?_⟩) fun _ => .error _ _
  · refine overlooked.keep fun empty => Array.eq_empty_of_size_eq_zero ?_
    rw [size_overwrite, ← h.data, empty]
    rfl
  · rw [Regular, size_overwrite, ← h.data]
    exact h.regular regular

theorem rowContent_eq {x y : Value} (h : x.Alike l y) (len : Nat) : rowContent len x = rowContent len y := by
  cases h with
  | scalar c => rfl
  | mem alike => rfl
  | array alike => rw [rowContent, rowContent, alike.data]

theorem writeRow_follows (h : a.Alike l b) (i : Int64) {x y : Eval Value}
    (value : Follows both (Value.Alike l) x y) (mismatch : EvalError) :
    Follows both (ArrayValue.Alike l) (a.writeRow i x mismatch) (b.writeRow i y mismatch) := by
  rw [writeRow, writeRow, h.rows_eq, h.blockAt_eq]
  refine .ite (fun _ => .ok h) fun _ => ?_
  refine Follows.bind (.refl fun _ _ => rfl) fun block block' _ _ same => ?_
  subst same
  refine value.bind fun x y _ _ alike => ?_
  rw [rowContent_eq alike]
  cases rowContent block.2 y with
  | none => exact .error _ _
  | some new => exact write_follows h block.1 new

theorem accepts_eq {x y : Value} (h : a.Alike l b) (alike : x.Alike l y) (indices : List Int64) (len : Nat) :
    a.accepts indices len x = b.accepts indices len y := by
  cases alike with
  | scalar c => rw [accepts, accepts, h.rank_eq]
  | mem alike => rfl
  | array alike => rw [accepts, accepts, alike.data, alike.shape, h.shape]

end ArrayValue

theorem updateAt_follows {a b : ArrayValue} (h : a.Alike l b) (v w : Name) (indices : List Int64) {x y : Eval Value}
    (value : Follows both (Value.Alike l) x y) :
    Follows both (ArrayValue.Alike l) (updateAt v a indices x) (updateAt w b indices y) := by
  rw [updateAt, updateAt, h.blockAt_eq]
  refine Follows.bind (.refl fun _ _ => rfl) fun block block' _ _ same => ?_
  subst same
  refine value.bind fun x y _ _ alike => ?_
  rw [ArrayValue.accepts_eq h alike]
  cases b.accepts indices block.2 y with
  | none => exact .error _ _
  | some new => exact ArrayValue.write_follows h block.1 new

theorem words_alike (ns : List Int64) : (Value.words ns).Alike l (Value.words ns) :=
  .array ⟨rfl, rfl, .inl rfl, fun _ => by simp [ArrayValue.Regular, volume]⟩

/-! Chunks -/

/-- Slots that hold rows that are alike. -/
def SlotsAlike (l : Likeness) (slots slots' : Array (Option Value)) : Prop :=
  List.Forall₂ (Option.Rel (Value.Alike l)) slots.toList slots'.toList

theorem SlotsAlike.set {slots slots' : Array (Option Value)} (h : SlotsAlike l slots slots') (i : Nat) {x y : Value}
    (alike : x.Alike l y) : SlotsAlike l (slots.setIfInBounds i (some x)) (slots'.setIfInBounds i (some y)) := by
  rw [SlotsAlike, Array.toList_setIfInBounds, Array.toList_setIfInBounds]
  exact forall₂_set h i (.some alike)

theorem fillSlots_follows {slots slots' : Array (Option Value)} (h : SlotsAlike l slots slots') {a b : ArrayValue}
    (alike : a.Alike l b) (numbers : List Nat) :
    Follows both (SlotsAlike l) (fillSlots slots numbers a) (fillSlots slots' numbers b) := by
  refine .foldlM (List.forall₂_same.mpr fun nj _ slots slots' related => ?_) h
  exact (ArrayValue.row_follows alike nj.2).bind fun x y _ _ row => .ok (related.set nj.1 row)

/-- Chunks with the same row numbers and values that are alike. -/
def ChunkAlike (l : Likeness) (c d : List Nat × Value) : Prop := c.1 = d.1 ∧ c.2.Alike l d.2

theorem addChunk_follows {slots slots' : Array (Option Value)} (h : SlotsAlike l slots slots')
    {c d : List Nat × Value} (alike : ChunkAlike l c d) :
    Follows both (SlotsAlike l) (addChunk slots c) (addChunk slots' d) := by
  obtain ⟨numbers, x⟩ := c
  obtain ⟨numbers', y⟩ := d
  obtain ⟨same, alike⟩ := alike
  cases same
  cases alike with
  | scalar c => exact .error _ _
  | mem alike => exact .error _ _
  | array alike =>
    simp only [addChunk, alike.rows_eq]
    exact .ite (fun _ => fillSlots_follows h alike numbers) fun _ => .error _ _

theorem joinChunks_follows (elem : ScalarType) (rowShape : List Nat) (width : Nat)
    {chunks chunks' : List (List Nat × Value)} (alike : List.Forall₂ (ChunkAlike l) chunks chunks') :
    Follows both (Value.Alike l) (joinChunks elem rowShape width chunks) (joinChunks elem rowShape width chunks') := by
  have slots : SlotsAlike l (Array.replicate width none) (Array.replicate width none) := by
    rw [SlotsAlike, Array.toList_replicate]
    exact List.forall₂_same.mpr fun x mem => (List.eq_of_mem_replicate mem) ▸ .none
  refine (Follows.foldlM (alike.imp fun c d h s s' related => addChunk_follows related h) slots).bind
    fun slots slots' _ _ related => ?_
  refine (Follows.mapM ((forall₂_zipIdx related 0).imp fun si si' h => ?_)).bind fun rows rows' _ _ related =>
    (ArrayValue.ofRows_follows related (.inl rfl)).bind fun a b _ _ alike => .ok (.array alike)
  obtain ⟨slot, i⟩ := si
  obtain ⟨slot', i'⟩ := si'
  obtain ⟨filled, same⟩ := h
  cases same
  cases filled with
  | none => exact .error _ _
  | some row => exact .ok row

end ArrayKernels
