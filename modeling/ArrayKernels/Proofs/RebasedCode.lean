import ArrayKernels.Proofs.ExpandedLaunches

/-! The arrays of expanded programs. In the code of a thread all arrays in a lifted block are rebased
to the part of the block that the thread has, and no other placement changes. This ends at the
launches in the code: an array of a kernel that a thread launches keeps its index function, also where
it lies in a block that is shared by now. -/
namespace ArrayKernels

/-- Each code of the kernel binds and launches, in order, what it did before, without the lifted blocks
and with the arrays in these rebased for the thread. -/
def Kernel.Rebased (k k' : Kernel) : Prop := List.Forall₂ ThreadCode.ExpandsTo k.threadCodes k'.threadCodes

theorem Steps.rebased {options : ExpandOptions} {s t : ExpandState} {steps : List LaunchStep} (h : Steps options s steps t) :
    List.Forall₂ Kernel.Rebased (steps.map LaunchStep.kernel) (steps.map LaunchStep.expanded) := by
  induction h with
  | nil s => exact .nil
  | cons here codes _ ih => exact .cons codes.each ih

theorem Program.expand_rebases {options : ExpandOptions} {names : NameSupply} {p : Program} {e : Expansion}
    (expanded : p.expand options names = .ok e) : List.Forall₂ Kernel.Rebased p.launches e.program.launches := by
  obtain ⟨steps, funs, ran⟩ := Program.expand_steps expanded
  obtain ⟨before, after⟩ := funs.launches
  rw [before, after]
  exact ran.rebased

/-- Where the row of a thread lies in a block of two rows. -/
def rowPlacement : Placement :=
  ⟨⟨"block", 4⟩, .slice (.rowMajor [.const 2, .const 2]) [.fix (.var ⟨"j", 8⟩), .full (.const 2)]⟩

/-- Each thread reads its row of a grid. -/
def rowReader : MapKernel :=
  let j : Name := ⟨"j", 8⟩
  let row : Name := ⟨"row", 9⟩
  let x : Name := ⟨"x", 10⟩
  let word (n : Int64) : Operand := .const (.i64 n)
  ⟨[], word 2, ⟨"u", 7⟩, [(j, word 2)], [⟨⟨row, .array .i64 [word 2] false, some rowPlacement⟩, ⟨"grid", 5⟩, [.var j]⟩],
    [(.scalar .i64, [0])], ⟨[⟨.single x (.scalar .i64), [], .index row [word 0]⟩], [.var x]⟩⟩

/-- Each thread fills a grid in a block of its own and launches threads that read its rows. -/
def readsRows : Program :=
  let out : Name := ⟨"out", 1⟩
  let i : Name := ⟨"i", 3⟩
  let block : Name := ⟨"block", 4⟩
  let grid : Name := ⟨"grid", 5⟩
  let ys : Name := ⟨"ys", 6⟩
  let word (n : Int64) : Operand := .const (.i64 n)
  let square : Ty := .array .i64 [word 2, word 2] false
  let body : Body :=
    ⟨[⟨.single block (.mem (word 32) .default), [], .alloc (word 32) .default⟩,
      ⟨⟨[], [⟨grid, square, some ⟨block, .rowMajor [.const 2, .const 2]⟩⟩]⟩, [], .replicate [word 2, word 2] (.var i)⟩,
      ⟨.single ys (.array .i64 [word 2] false), [], .launch (.map rowReader)⟩], [.var ys]⟩
  let kernel : MapKernel := ⟨[], word 2, ⟨"t", 2⟩, [(i, word 2)], [], [(.array .i64 [word 2] false, [0, 1])], body⟩
  ⟨[⟨"main", [], [square], ⟨[⟨.single out square, [], .launch (.map kernel)⟩], [.var out]⟩⟩]⟩

theorem readsRows_expand_rebases :
    ∃ e, readsRows.expand {} ⟨11⟩ = .ok e ∧ List.Forall₂ Kernel.Rebased readsRows.launches e.program.launches := by
  obtain ⟨e, expanded⟩ : ∃ e, readsRows.expand {} ⟨11⟩ = .ok e := ⟨_, rfl⟩
  exact ⟨e, expanded, Program.expand_rebases expanded⟩

/-- The block of the grid is lifted, so that its rows should be rebased; but the kernel that reads them is
launched as before. -/
theorem readsRows_leaves_row : ∃ e c c' place, readsRows.expand {} ⟨11⟩ = .ok e ∧
    readsRows.launches.flatMap Kernel.threadCodes = [c] ∧ e.program.launches.flatMap Kernel.threadCodes = [c'] ∧
    c.place? = some place ∧ rowPlacement.block ∈ c.blocks ∧ place.rebase rowPlacement.index ≠ rowPlacement.index ∧
    .launch (.map rowReader) ∈ c.sites ∧ .launch (.map rowReader) ∈ c'.sites := by
  refine ⟨_, _, _, _, rfl, rfl, rfl, rfl, by decide, by decide, ?_, ?_⟩
  · exact .tail _ (.tail _ (.tail _ (.head _)))
  · exact .tail _ (.tail _ (.head _))

end ArrayKernels
