import ArrayKernels.Proofs.IndexMeaning

/-! Index functions are injective. Two indices in bounds are led to two elements of the block unless a slice stands still, and without
slices every element of the block is reached. -/
namespace ArrayKernels

variable {env : Name → Option Int64}

/-- A range of more than one index goes forward or backward. -/
def AxisSlice.Moves (env : Name → Option Int64) : AxisSlice → Prop
  | fix _ => True
  | range _ len stride => ∀ (l : Nat) (t : Int), len.HasValue env l → 1 < l → stride.HasValue env t → t ≠ 0

namespace IndexFn

/-- No slice of the chain stands still. -/
def Moves (env : Name → Option Int64) : IndexFn → Prop
  | rowMajor _ => True
  | permute base _ | reshape base _ => base.Moves env
  | slice base axes => base.Moves env ∧ ∀ a ∈ axes, a.Moves env

def isUnsliced : IndexFn → Bool
  | rowMajor _ => true
  | permute base _ | reshape base _ => base.isUnsliced
  | slice .. => false

end IndexFn

theorem Sliced.inj {axes : List AxisSlice} {idx idx' inner : List Nat} (moves : ∀ a ∈ axes, a.Moves env)
    (h : Sliced env axes idx inner) (h' : Sliced env axes idx' inner) : idx = idx' := by
  induction h generalizing idx' with
  | nil =>
    cases h'
    rfl
  | fix _ _ ih =>
    obtain _ | ⟨_, rest⟩ := h'
    exact ih (fun a mem => moves a (List.mem_cons_of_mem _ mem)) rest
  | @range start len stride s t l i n axes idx inner starts length strides _ below place _ _ ih =>
    cases h' with
    | @range _ _ _ s' t' l' j _ _ idx' _ starts' length' strides' _ below' place' _ rest =>
      cases starts.unique starts'
      cases strides.unique strides'
      cases Int.natCast_inj.mp (length.unique length')
      obtain ⟨here, later⟩ := List.forall_mem_cons.mp moves
      rw [ih later rest]
      have scaled : (i : Int) * t = j * t := by omega
      have same : i = j := by
        by_cases several : 1 < l
        · exact Int.natCast_inj.mp (Int.eq_of_mul_eq_mul_right (here l t length several strides) scaled)
        · omega
      rw [same]

namespace IndexFn

variable {f : IndexFn} {dims base idx idx' : List Nat} {o : Nat}

theorem Leads.inj (moves : f.Moves env) (h : f.Leads env idx o) (h' : f.Leads env idx' o) : idx = idx' := by
  induction h generalizing idx' with
  | rowMajor sizes _ inside =>
    -- both numbers are counted in the one shape that the sizes have
    generalize number : position _ _ = o at h'
    obtain @⟨_, _, _, sizes', _, inside'⟩ := h'
    cases sizes.unique sizes'
    exact position_inj inside inside' number
  | permute order _ ih =>
    obtain _ | @⟨_, _, _, y, _, base'⟩ := h'
    have equal := List.map_inj_left.mp (ih moves base')
    exact List.map_congr_left fun p mem => equal p (order.mem_iff.mp mem)
  | reshape sizes _ inside shape sizes₁ inside₁ number _ ih =>
    cases h' with
    | reshape sizes' _ inside' shape' sizes₂ inside₂ number' base' =>
      cases sizes.unique sizes'
      cases shape.symm.trans shape'
      cases sizes₁.unique sizes₂
      cases ih moves base'
      exact position_inj inside inside' (number.trans number'.symm)
  | slice sliced _ ih =>
    cases h' with
    | slice sliced' base' =>
      cases ih moves.1 base'
      exact sliced.inj moves.2 sliced'

/-- Permutations and reshapes leave no element out. -/
theorem WellFormed.exists_index (h : f.WellFormed env dims) (unsliced : f.isUnsliced = true)
    (bottom : HaveValues env f.bottomShape base) (below : o < volume base) :
    ∃ idx, Inside idx dims ∧ f.Leads env idx o := by
  induction h with
  | rowMajor sizes small =>
    cases sizes.unique bottom
    obtain ⟨idx, inside, rfl⟩ := exists_position_eq below
    exact ⟨idx, inside, .rowMajor sizes small inside⟩
  | @permute f dims perm _ moves ih =>
    obtain ⟨idx, inside, leads⟩ := ih unsliced bottom
    have rank : perm.length = dims.length := by rw [moves.length_eq, List.length_range]
    have whole := map_range_getD idx
    rw [inside.length_eq] at whole
    rw [← whole] at inside leads
    refine ⟨_, inside_permuted moves inside, ?_⟩
    rw [← rank] at moves leads
    exact .permute moves leads
  | @reshape f es dims new base' sizes same ih =>
    obtain ⟨inner, within, leads⟩ := ih unsliced bottom
    obtain ⟨es', shape, sizes'⟩ := base'.shape_eq
    obtain ⟨idx, inside, number⟩ := exists_position_eq (same ▸ position_lt within)
    exact ⟨idx, inside, .reshape sizes (same ▸ base'.small) inside shape sizes' within number leads⟩
  | slice => cases unsliced

end IndexFn

theorem inBounds_ofNat {idx dims : List Nat} (inside : Inside idx dims) (short : ∀ d ∈ dims, d < 2 ^ 63) :
    InBounds (idx.map Int64.ofNat) dims ∧ (idx.map Int64.ofNat).map (fun i => i.toInt.toNat) = idx := by
  induction inside with
  | nil => exact ⟨.nil, rfl⟩
  | @cons i d idx dims below _ ih =>
    obtain ⟨here, later⟩ := List.forall_mem_cons.mp short
    obtain ⟨bounded, back⟩ := ih later
    have value : (Int64.ofNat i).toInt = i := Int64.toInt_ofNat_of_lt (by omega)
    refine ⟨.cons ⟨?_, by simpa [value] using below⟩ bounded, ?_⟩
    · simp [Int64.le_iff_toInt_le, value]
    · rw [List.map_cons, List.map_cons, value, back, Int.toNat_natCast]

/-- A well-formed index function sends different indices of its shape to different elements of the block, and without slices every
element of the block has an index. -/
theorem IndexFn.offset_injective {f : IndexFn} {dims : List Nat} (wellFormed : f.WellFormed env dims) (moves : f.Moves env) :
    ∃ es base, f.shape = some es ∧ HaveValues env es dims ∧ HaveValues env f.bottomShape base ∧
      (∀ is, InBounds is dims → ∃ o < volume base, f.HasOffset env is o) ∧
      (∀ is js, InBounds is dims → InBounds js dims → is ≠ js → f.offset is env ≠ f.offset js env) ∧
      (f.isUnsliced = true → ∀ o < volume base, ∃ is, InBounds is dims ∧ f.HasOffset env is o) := by
  obtain ⟨es, shape, sizes⟩ := wellFormed.shape_eq
  obtain ⟨base, bottom⟩ := wellFormed.bottom
  refine ⟨es, base, shape, sizes, bottom, fun is bounded => ?_, fun is js bounded bounded' different same => ?_, fun unsliced o below => ?_⟩
  · obtain ⟨o, leads, offset⟩ := wellFormed.leads bounded
    exact ⟨o, leads.lt bottom, offset⟩
  · obtain ⟨o, leads, w, at', value⟩ := wellFormed.leads bounded
    obtain ⟨o', leads', w', at'', value'⟩ := wellFormed.leads bounded'
    cases at'.symm.trans (same.trans at'')
    obtain rfl : o = o' := by omega
    obtain ⟨idx, made, _, back⟩ := bounded.exists_inside
    obtain ⟨idx', made', _, back'⟩ := bounded'.exists_inside
    have equal := leads.inj moves leads'
    rw [← back, ← back'] at equal
    exact different (by rw [made, made', equal])
  · obtain ⟨idx, inside, leads⟩ := wellFormed.exists_index unsliced bottom below
    obtain ⟨bounded, back⟩ := inBounds_ofNat inside sizes.lt
    exact ⟨_, bounded, Leads.offset (back.symm ▸ leads) bounded.nonneg⟩

/-- The columns of two rows of three, read as two rows again; of these the rows from the last to the first, and every other column. -/
def sampleView : IndexFn :=
  let rows : IndexExpr := .var ⟨"rows", 0⟩
  .slice (.reshape (.permute (.rowMajor [rows, .const 3]) [1, 0]) [rows, .const 3])
    [.range (.const 1) rows (.const (-1)), .range (.const 0) (.const 2) (.const 2)]

theorem sampleView_offset_injective : sampleView.WellFormed (fun _ => some 2) [2, 2] ∧ sampleView.Moves (fun _ => some 2) ∧
    sampleView.offset [0, 1] (fun _ => some 2) ≠ sampleView.offset [1, 1] (fun _ => some 2) := by
  have sizes : HaveValues (fun _ => some 2) [.var ⟨"rows", 0⟩, .const 3] [2, 3] := .cons ⟨2, rfl, rfl⟩ (.cons ⟨3, rfl, rfl⟩ .nil)
  have wellFormed : sampleView.WellFormed (fun _ => some 2) [2, 2] := by
    refine .slice (.reshape (.permute (.rowMajor sizes (by decide)) (by decide)) sizes rfl) (.cons ?_ (.cons ?_ .nil)) ?_ (by decide)
    · refine @AxisSlice.Fits.range _ _ _ _ 2 _ ⟨2, rfl, rfl⟩ fun i below => ⟨1, -1, ⟨1, rfl, rfl⟩, ⟨-1, rfl, rfl⟩, ?_⟩
      omega
    · refine @AxisSlice.Fits.range _ _ _ _ 2 _ ⟨2, rfl, rfl⟩ fun i below => ⟨0, 2, ⟨0, rfl, rfl⟩, ⟨2, rfl, rfl⟩, ?_⟩
      omega
    · exact .cons ⟨2, rfl, rfl⟩ (.cons ⟨2, rfl, rfl⟩ .nil)
  have moves : sampleView.Moves (fun _ => some 2) := by
    refine ⟨trivial, List.forall_mem_cons.mpr ⟨fun l t _ _ steps => ?_, List.forall_mem_cons.mpr ⟨fun l t _ _ steps => ?_, ?_⟩⟩⟩
    · cases steps.unique ⟨-1, rfl, rfl⟩
      decide
    · cases steps.unique ⟨2, rfl, rfl⟩
      decide
    · exact fun _ mem => absurd mem List.not_mem_nil
  obtain ⟨_, _, _, _, _, _, different, _⟩ := IndexFn.offset_injective wellFormed moves
  refine ⟨wellFormed, moves, different _ _ ?_ ?_ (by decide)⟩
  · exact .cons (by decide) (.cons (by decide) .nil)
  · exact .cons (by decide) (.cons (by decide) .nil)

end ArrayKernels
