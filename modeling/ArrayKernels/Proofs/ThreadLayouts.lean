import ArrayKernels.Proofs.IndexMeaning

/-! Arrays of threads in a shared block. The element that a thread has at offset `o` of its own block is at `o * n + t` of the block
that `n` threads share. So the shared block has room for the elements of all threads, and no two threads meet in it. -/
namespace ArrayKernels

/-- An access of one of `n` threads: in the environment of the thread, an index of one of its arrays is in bounds. -/
structure ThreadPlace.Access (p : ThreadPlace) (n : Nat) where
  env : Name → Option Int64
  thread : Nat
  array : IndexFn
  dims : List Nat
  block : List Nat
  index : List Int64
  wellFormed : array.WellFormed env dims
  inBounds : InBounds index dims
  /-- The sizes of the thread's own block. -/
  bottom : HaveValues env array.bottomShape block
  numbered : p.thread.HasValue env thread
  counted : p.threads.HasValue env n
  below : thread < n
  /-- The number of elements of the shared block fits the word. -/
  room : n * volume block < 2 ^ 63

namespace ThreadPlace.Access

variable {p : ThreadPlace} {n : Nat} (a : p.Access n)

/-- The last element of a thread is in the shared block. -/
theorem lt_room {o : Nat} (inside : o < volume a.block) : o * n + a.thread < n * volume a.block := by
  have below := a.below
  calc o * n + a.thread
    _ < (o + 1) * n := by rw [Nat.add_mul]; omega
    _ ≤ volume a.block * n := Nat.mul_le_mul_right n inside
    _ = n * volume a.block := Nat.mul_comm _ _

theorem offsets : ∃ o < volume a.block, a.array.HasOffset a.env a.index o ∧
    (p.rebase a.array).HasOffset a.env a.index (o * n + a.thread) := by
  obtain ⟨o, leads, w, at', value⟩ := a.wellFormed.leads a.inBounds
  have inside := leads.lt a.bottom
  have ranked := leads.ranked
  rw [List.length_map] at ranked
  obtain ⟨t, thread, numbered⟩ := a.numbered
  obtain ⟨m, threads, counted⟩ := a.counted
  have room := a.lt_room inside
  have small := a.room
  have cell : w.toInt * m.toInt + t.toInt = (o * n + a.thread : Nat) := by
    rw [value, counted, numbered, Int.natCast_add, Int.natCast_mul]
  have scaled : 0 ≤ w.toInt * m.toInt := by
    rw [value, counted, ← Int.natCast_mul]
    exact Int.natCast_nonneg _
  refine ⟨o, inside, ⟨w, at', value⟩, _, ThreadPlace.offset_rebase_eq ranked thread threads at' scaled (by omega) (by omega), ?_⟩
  rw [cell]
  exact toInt_ofInt_of_range (by omega) (by omega)

end ThreadPlace.Access

/-- The law of rebasing. The rebased array has the shape of the array, each element of the thread's own block has its place among the
`n * volume block` elements of the shared one, and other threads have other places. -/
theorem ThreadPlace.rebase_law {p : ThreadPlace} {n : Nat} (a : p.Access n) :
    (∃ es, a.array.shape = some es ∧ HaveValues a.env es a.dims) ∧ (p.rebase a.array).shape = a.array.shape ∧
      (∃ o < volume a.block, a.array.HasOffset a.env a.index o ∧
        (p.rebase a.array).HasOffset a.env a.index (o * n + a.thread) ∧ o * n + a.thread < n * volume a.block) ∧
      ∀ (q : ThreadPlace) (b : q.Access n), a.thread ≠ b.thread →
        (p.rebase a.array).offset a.index a.env ≠ (q.rebase b.array).offset b.index b.env := by
  obtain ⟨o, inside, own, shared⟩ := a.offsets
  refine ⟨a.wellFormed.shape_eq, p.shape_rebase a.array, ⟨o, inside, own, shared, a.lt_room inside⟩, fun q b different same => ?_⟩
  obtain ⟨o', _, _, w', at', value'⟩ := b.offsets
  obtain ⟨w, here, value⟩ := shared
  cases here.symm.trans (same.trans at')
  -- the number of the thread is the remainder of its places
  have cells : o * n + a.thread = o' * n + b.thread := by omega
  have remainders := congrArg (· % n) cells
  simp only [Nat.mul_add_mod_self_right, Nat.mod_eq_of_lt a.below, Nat.mod_eq_of_lt b.below] at remainders
  exact different remainders

/-- The columns of two rows of three in one line. -/
def sampleColumns : IndexFn := .reshape (.permute (.rowMajor [.const 2, .const 3]) [1, 0]) [.const 6]

/-- The third element of the line, in thread `t` of four. -/
def sampleAccess (t : Nat) (below : t < 4) : ThreadPlace.Access ⟨.var ⟨"t", 0⟩, .const 4⟩ 4 where
  env _ := some (.ofNat t)
  thread := t
  array := sampleColumns
  dims := [6]
  block := [2, 3]
  index := [2]
  wellFormed := by
    have sizes : HaveValues (fun _ => some (.ofNat t)) [.const 2, .const 3] [2, 3] := .cons ⟨2, rfl, rfl⟩ (.cons ⟨3, rfl, rfl⟩ .nil)
    exact .reshape (.permute (.rowMajor sizes (by decide)) (by decide)) (.cons ⟨6, rfl, rfl⟩ .nil) rfl
  inBounds := .cons (by decide) .nil
  bottom := .cons ⟨2, rfl, rfl⟩ (.cons ⟨3, rfl, rfl⟩ .nil)
  numbered := ⟨.ofNat t, rfl, Int64.toInt_ofNat_of_lt (by omega)⟩
  counted := ⟨4, rfl, rfl⟩
  below := below
  room := by decide

theorem sampleColumns_rebase_law :
    (ThreadPlace.rebase ⟨.var ⟨"t", 0⟩, .const 4⟩ sampleColumns).HasOffset (fun _ => some 3) [2] 7 ∧
      (ThreadPlace.rebase ⟨.var ⟨"t", 0⟩, .const 4⟩ sampleColumns).offset [2] (fun _ => some 3) ≠
        (ThreadPlace.rebase ⟨.var ⟨"t", 0⟩, .const 4⟩ sampleColumns).offset [2] (fun _ => some 1) := by
  obtain ⟨_, _, ⟨o, _, own, shared, _⟩, apart⟩ := ThreadPlace.rebase_law (sampleAccess 3 (by decide))
  have first : sampleColumns.HasOffset (fun _ => some 3) [2] 1 := ⟨1, rfl, rfl⟩
  cases own.unique first
  exact ⟨shared, apart _ (sampleAccess 1 (by decide)) (by decide)⟩

end ArrayKernels
