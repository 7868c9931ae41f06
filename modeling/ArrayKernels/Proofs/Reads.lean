import ArrayKernels.Program.Bound
import ArrayKernels.Program.Free

/-! The names whose values an evaluation reads. They are free names: a type annotation, a memory
placement or a certificate counts as a use of its names, and is mostly not read. -/
namespace ArrayKernels

/-- Expressions with bodies inside. -/
def Exp.isNested : Exp → Bool
  | .branch .. | .loop .. | .launch _ => true
  | _ => false

def MapInput.reads (i : MapInput) : NameSet := {i.array} ∪ freeOperands i.indices

/-- The sizes of the rows of a type. -/
def Ty.rowReads (ty : Ty) : NameSet := freeOperands ty.row.shape

theorem Ty.free_of_rowReads {v : Name} (ty : Ty) (mem : v ∈ ty.rowReads) : v ∈ ty.free := by
  cases ty with
  | scalar e => exact absurd mem (by simp [Ty.rowReads, Ty.row, Ty.dropDims, Ty.shape, freeOperands])
  | mem size space => exact absurd mem (by simp [Ty.rowReads, Ty.row, Ty.dropDims, Ty.shape, freeOperands])
  | array e shape unique =>
    rw [Ty.rowReads, Ty.row, Ty.dropDims] at mem
    split at mem
    · exact absurd mem (by simp [Ty.shape, freeOperands])
    · obtain ⟨x, inside, free⟩ := NameSet.mem_gather.mp mem
      exact NameSet.mem_gather.mpr ⟨x, List.mem_of_mem_drop inside, free⟩

theorem Ty.free_of_shape {v : Name} (ty : Ty) (mem : v ∈ freeOperands ty.shape) : v ∈ ty.free := by
  cases ty with
  | scalar e => simp [Ty.shape, freeOperands] at mem
  | mem size space => simp [Ty.shape, freeOperands] at mem
  | array e shape unique => exact mem

theorem Pattern.eq_of_soleName {pat : Pattern} (sole : pat.soleName.isSome = true) : ∃ b, pat = ⟨[], [b]⟩ := by
  obtain ⟨context, values⟩ := pat
  unfold Pattern.soleName at sole
  split at sole
  · rename_i b none one
    cases none
    cases one
    exact ⟨b, rfl⟩
  · cases sole

/-- The names that number the threads of a map kernel and their points of the space. -/
def MapKernel.placeNames (k : MapKernel) : List Name := k.thread :: k.space.map Prod.fst

/-- The names that the statements of a group kernel and its threads bind, apart from nested bodies. -/
def GroupKernel.ownNames (k : GroupKernel) : List Name := k.space.names ++ k.body.stms.flatMap GroupStm.names

mutual

/-- An expression without bodies reads all names that it mentions. -/
def Exp.reads : Exp → NameSet
  | .branch cond onTrue onFalse _ => cond.free ∪ onTrue.reads ∪ onFalse.reads
  | .loop context values index bound body =>
    body.reads.without ((context ++ values).map (·.1.name) ++ [index])
      ∪ freeOperands ((context ++ values).map Prod.snd) ∪ bound.free
  | .launch kernel => kernel.reads
  | e => e.free

/-- What statements read that are followed by a reading of the names in `after`. -/
def readsBefore (after : NameSet) : List Stm → NameSet
  | [] => after
  | ⟨pat, _, exp⟩ :: stms => (readsBefore after stms).without pat.names ∪ exp.reads

def Body.reads : Body → NameSet
  | ⟨stms, result⟩ => readsBefore (freeOperands result) stms

def Lambda.reads : Lambda → NameSet
  | ⟨params, body, _⟩ => body.reads.without (params.map Binder.name)

/-- Return types are read outside the threads, and so are the widths of group results. The parameters of an operator and the
names of a group kernel have no values there. -/
def Kernel.reads : Kernel → NameSet
  | .map k@⟨_, width, _, space, inputs, returns, body⟩ =>
    width.free ∪ freeOperands (space.map Prod.snd) ∪ (NameSet.gather MapInput.reads inputs).without k.placeNames
      ∪ body.reads.without k.threadNames ∪ NameSet.gather (fun r => freeOperands r.1.shape) returns
  | .scan ⟨_, width, _, _, fold, neutral, arrays⟩ =>
    width.free ∪ freeOperands neutral ∪ freeNames arrays ∪ fold.reads
  | .chunked ⟨_, width, size, _, op, arrays⟩ =>
    width.free ∪ size.threads.free ∪ size.chunk.free ∪ freeNames arrays ∪ op.reads
      ∪ (NameSet.gather Ty.rowReads op.ret).without (op.params.map Binder.name)
  | .scatter ⟨_, width, op, arrays, dests⟩ =>
    width.free ∪ freeNames arrays ∪ freeNames (dests.map Prod.snd) ∪ op.reads
  | .group k@⟨_, size, _, returns, ⟨stms, result⟩⟩ =>
    size.threads.free ∪ size.groupSize.free ∪ freeTypes returns
      ∪ (readsBeforeGroup (NameSet.gather GroupResult.free result) stms).without k.ownNames
  | .numGroups => ∅
  | .groupSize => ∅

def GroupStm.reads : GroupStm → NameSet
  | .split _ _ _ width perThread arrays => width.free ∪ perThread.free ∪ freeNames arrays
  | .thread pat only body =>
    freeOperands only.toList ∪ NameSet.gather (fun b => b.ty.free) pat.values ∪ body.reads
  | .reduce _ width op inputs => width.free ∪ NameSet.gather (fun i => i.1.free ∪ {i.2}) inputs ∪ op.reads

/-- What statements of a group kernel read that are followed by a reading of the names in `after`. -/
def readsBeforeGroup (after : NameSet) : List GroupStm → NameSet
  | [] => after
  | stm :: stms => (readsBeforeGroup after stms).without stm.names ∪ stm.reads

end

def readsInGroup (stms : List GroupStm) : NameSet := NameSet.gather GroupStm.reads stms

theorem mem_readsInGroup_cons {v : Name} {stm : GroupStm} {stms : List GroupStm} :
    v ∈ readsInGroup (stm :: stms) ↔ v ∈ stm.reads ∨ v ∈ readsInGroup stms := by
  simp [readsInGroup]

theorem mem_readsBeforeGroup {v : Name} {after : NameSet} {stms : List GroupStm} (mem : v ∈ readsInGroup stms ∪ after)
    (other : v ∉ stms.flatMap GroupStm.names) : v ∈ readsBeforeGroup after stms := by
  induction stms with
  | nil => simpa [readsInGroup, readsBeforeGroup] using mem
  | cons stm stms ih =>
    rw [List.flatMap_cons, List.mem_append, not_or] at other
    rw [readsBeforeGroup, NameSet.mem_union, NameSet.mem_without]
    by_cases first : v ∈ stm.reads
    · exact .inr first
    · refine .inl ⟨ih ?_ other.2, other.1⟩
      rw [NameSet.mem_union, mem_readsInGroup_cons] at mem
      exact NameSet.mem_union.mpr (mem.imp_left fun read => read.resolve_left first)

theorem boundInStms_append (before after : List Stm) :
    boundInStms (before ++ after) = boundInStms before ++ boundInStms after := by
  induction before with
  | nil => rfl
  | cons stm before ih =>
    obtain ⟨pat, certs, exp⟩ := stm
    simp only [List.cons_append, boundInStms, ih, List.append_assoc]

/-- The names that the body or the operator of a kernel statement binds. -/
def GroupStm.innerBound : GroupStm → List Name
  | .split .. => []
  | .thread _ _ body => body.bound
  | .reduce _ _ op _ => op.bound

theorem GroupStm.bound_eq (stm : GroupStm) : stm.bound = stm.names ++ stm.innerBound := by
  cases stm with
  | split size chunks division width perThread arrays => simp [GroupStm.bound, GroupStm.names, innerBound]
  | thread pat only body => rfl
  | reduce pat width op inputs => rfl

theorem count_boundInGroupStms (stms : List GroupStm) (v : Name) :
    (boundInGroupStms stms).count v =
      (stms.flatMap GroupStm.names).count v + (stms.flatMap GroupStm.innerBound).count v := by
  induction stms with
  | nil => rfl
  | cons stm stms ih =>
    rw [boundInGroupStms, stm.bound_eq, List.flatMap_cons, List.flatMap_cons]
    simp only [List.count_append, ih]
    omega

theorem Lambda.mem_bound_of_params {op : Lambda} {v : Name} (mem : v ∈ op.params.map Binder.name) : v ∈ op.bound := by
  obtain ⟨params, body, ret⟩ := op
  exact List.mem_append_left _ mem

theorem GroupKernel.mem_bound_of_ownNames {k : GroupKernel} {v : Name} (own : v ∈ k.ownNames) : v ∈ (Kernel.group k).bound := by
  obtain ⟨certs, size, space, returns, stms, result⟩ := k
  rw [GroupKernel.ownNames, List.mem_append] at own
  rw [Kernel.bound, List.mem_append]
  refine own.imp_right fun mem => List.count_pos_iff.mp ?_
  rw [GroupBody.bound, count_boundInGroupStms]
  exact Nat.lt_of_lt_of_le (List.count_pos_iff.mpr mem) (Nat.le_add_right _ _)

theorem GroupKernel.mem_bound_of_innerBound {k : GroupKernel} {v : Name}
    (inner : v ∈ k.body.stms.flatMap GroupStm.innerBound) : v ∈ (Kernel.group k).bound := by
  obtain ⟨certs, size, space, returns, stms, result⟩ := k
  rw [Kernel.bound, List.mem_append]
  refine .inr (List.count_pos_iff.mp ?_)
  rw [GroupBody.bound, count_boundInGroupStms]
  exact Nat.lt_of_lt_of_le (List.count_pos_iff.mpr inner) (Nat.le_add_left _ _)

/-- In a group kernel with distinct binders, nested bodies bind none of the kernel's own names. -/
theorem GroupKernel.not_mem_ownNames {k : GroupKernel} (nodup : (Kernel.group k).bound.Nodup) {v : Name}
    (inner : v ∈ k.body.stms.flatMap GroupStm.innerBound) : v ∉ k.ownNames := by
  intro own
  have total : (Kernel.group k).bound.count v =
      k.ownNames.count v + (k.body.stms.flatMap GroupStm.innerBound).count v := by
    obtain ⟨certs, size, space, returns, stms, result⟩ := k
    simp only [Kernel.bound, GroupBody.bound, GroupKernel.ownNames, List.count_append, count_boundInGroupStms]
    omega
  have once := List.nodup_iff_count.mp nodup v
  have first := List.count_pos_iff.mpr own
  have second := List.count_pos_iff.mpr inner
  omega

theorem GroupKernel.mem_reads {k : GroupKernel} {v : Name}
    (mem : v ∈ (Kernel.group k).reads ∪ readsInGroup k.body.stms ∪ NameSet.gather GroupResult.free k.body.result)
    (other : v ∉ k.ownNames) : v ∈ (Kernel.group k).reads := by
  obtain ⟨certs, size, space, returns, stms, result⟩ := k
  rw [NameSet.mem_union, NameSet.mem_union, or_assoc] at mem
  obtain mem | mem := mem
  · exact mem
  · refine NameSet.mem_union.mpr (.inr (NameSet.mem_without.mpr ⟨?_, other⟩))
    exact mem_readsBeforeGroup (NameSet.mem_union.mpr mem) fun own => other (List.mem_append_right _ own)

/-- The sizes of the launch and the return types are read where the kernel is launched. -/
theorem GroupKernel.mem_reads_of_launch {k : GroupKernel} {v : Name}
    (mem : v ∈ k.size.threads.free ∨ v ∈ k.size.groupSize.free ∨ v ∈ freeTypes k.returns) : v ∈ (Kernel.group k).reads := by
  obtain ⟨certs, size, space, returns, stms, result⟩ := k
  simp only [Kernel.reads, NameSet.mem_union]
  rw [← or_assoc] at mem
  exact .inl mem

theorem ChunkedKernel.mem_reads_of_launch {k : ChunkedKernel} {v : Name}
    (mem : v ∈ k.width.free ∪ k.size.threads.free ∪ k.size.chunk.free ∪ freeNames k.arrays) : v ∈ (Kernel.chunked k).reads := by
  obtain ⟨certs, width, size, division, op, arrays⟩ := k
  exact NameSet.mem_union.mpr (.inl (NameSet.mem_union.mpr (.inl mem)))

theorem ChunkedKernel.mem_reads_of_rows {k : ChunkedKernel} {v : Name}
    (mem : v ∈ (NameSet.gather Ty.rowReads k.op.ret).without (k.op.params.map Binder.name)) : v ∈ (Kernel.chunked k).reads := by
  obtain ⟨certs, width, size, division, op, arrays⟩ := k
  exact NameSet.mem_union.mpr (.inr mem)

theorem GroupKernel.mem_reads_of_rows {k : GroupKernel} {v : Name} (mem : v ∈ NameSet.gather Ty.rowReads k.returns) :
    v ∈ (Kernel.group k).reads := by
  obtain ⟨ty, inside, free⟩ := NameSet.mem_gather.mp mem
  exact mem_reads_of_launch (.inr (.inr (NameSet.mem_gather.mpr ⟨ty, inside, ty.free_of_rowReads free⟩)))

theorem nodup_of_boundInGroupStms {stm : GroupStm} {stms : List GroupStm}
    (nodup : (boundInGroupStms (stm :: stms)).Nodup) : stm.innerBound.Nodup ∧ (boundInGroupStms stms).Nodup := by
  rw [boundInGroupStms, stm.bound_eq, List.nodup_append, List.nodup_append] at nodup
  exact ⟨nodup.1.2.1, nodup.2.1⟩

/-! A name that is read is free, unless the code itself binds it -/

theorem mem_free_of_map {certs : List Name} {width : Operand} {thread : Name} {space : List (Name × Operand)}
    {inputs : List MapInput} {returns : List (Ty × List Nat)} {body : Body} {v : Name}
    (code : v ∈ body.reads → v ∈ body.free ∨ v ∈ body.bound)
    (mem : v ∈ (Kernel.map ⟨certs, width, thread, space, inputs, returns, body⟩).reads) :
    v ∈ (Kernel.map ⟨certs, width, thread, space, inputs, returns, body⟩).free ∨
      v ∈ (Kernel.map ⟨certs, width, thread, space, inputs, returns, body⟩).bound := by
  by_cases own : v ∈ thread :: space.map Prod.fst ++ inputs.map fun i => i.param.name
  · exact .inr (List.mem_append_left _ own)
  simp only [Kernel.reads, NameSet.mem_union, NameSet.mem_without, or_assoc] at mem
  rw [Kernel.bound, List.mem_append]
  simp only [Kernel.free, NameSet.mem_union, NameSet.mem_without]
  obtain mem | mem | ⟨mem, _⟩ | ⟨mem, _⟩ | mem := mem
  · exact .inl (.inl (.inl (.inr mem)))
  · exact .inl (.inl (.inr mem))
  · obtain ⟨i, inside, read⟩ := NameSet.mem_gather.mp mem
    refine .inl (.inr ⟨.inl (.inr (NameSet.mem_gather.mpr ⟨i, inside, ?_⟩)), own⟩)
    exact NameSet.mem_union.mpr (.inl read)
  · exact (code mem).elim (fun free => .inl (.inr ⟨.inl (.inl free), own⟩)) fun bound => .inr (.inr bound)
  · obtain ⟨r, inside, read⟩ := NameSet.mem_gather.mp mem
    refine .inl (.inr ⟨.inr (NameSet.mem_gather.mpr ⟨r.1, List.mem_map_of_mem inside, ?_⟩), own⟩)
    cases ty : r.1 with
    | scalar e => simp [ty, Ty.shape, freeOperands] at read
    | mem size space => simp [ty, Ty.shape, freeOperands] at read
    | array e shape unique =>
      rw [ty] at read
      exact read

mutual

theorem Exp.free_of_reads {v : Name} : ∀ e : Exp, v ∈ e.reads → v ∈ e.free ∨ v ∈ e.bound
  | .operand _, mem | .binary .., mem | .compare .., mem | .index .., mem | .update .., mem | .iota .., mem
  | .replicate .., mem | .reshape .., mem | .rearrange .., mem | .copy _, mem | .alloc .., mem => .inl mem
  | .branch cond onTrue onFalse ret, mem => by
    simp only [Exp.reads, NameSet.mem_union] at mem
    simp only [Exp.free, Exp.bound, NameSet.mem_union, List.mem_append]
    obtain (mem | mem) | mem := mem
    · exact .inl (.inl (.inl (.inl mem)))
    · exact (onTrue.free_of_reads mem).imp (fun free => .inl (.inl (.inr free))) .inl
    · exact (onFalse.free_of_reads mem).imp (fun free => .inl (.inr free)) .inr
  | .loop context values index bound body, mem => by
    simp only [Exp.reads, NameSet.mem_union, NameSet.mem_without] at mem
    simp only [Exp.free, Exp.bound, NameSet.mem_union, NameSet.mem_without]
    obtain (⟨mem, other⟩ | mem) | mem := mem
    · exact (body.free_of_reads mem).imp (fun free => .inl (.inl ⟨.inl free, other⟩)) (List.mem_append_right _)
    · exact .inl (.inl (.inr mem))
    · exact .inl (.inr mem)
  | .launch kernel, mem => kernel.free_of_reads mem

theorem freeBefore_of_readsBefore {v : Name} {after after' : NameSet} (more : v ∈ after → v ∈ after') : ∀ stms : List Stm,
    v ∈ readsBefore after stms → v ∈ freeBefore after' stms ∨ v ∈ boundInStms stms
  | [], mem => .inl (more mem)
  | ⟨pat, certs, exp⟩ :: stms, mem => by
    simp only [readsBefore, NameSet.mem_union, NameSet.mem_without] at mem
    simp only [freeBefore, boundInStms, NameSet.mem_union, NameSet.mem_without, List.mem_append, Stm.free]
    obtain ⟨mem, other⟩ | mem := mem
    · exact (freeBefore_of_readsBefore more stms mem).imp (fun free => .inl ⟨free, other⟩) .inr
    · exact (exp.free_of_reads mem).imp (fun free => .inr (.inr free)) fun bound => .inl (.inr bound)

theorem Body.free_of_reads {v : Name} : ∀ body : Body, v ∈ body.reads → v ∈ body.free ∨ v ∈ body.bound
  | ⟨stms, _⟩, mem => freeBefore_of_readsBefore id stms mem

theorem Lambda.free_of_reads {v : Name} : ∀ op : Lambda, v ∈ op.reads → v ∈ op.free ∨ v ∈ op.bound
  | ⟨params, body, ret⟩, mem => by
    simp only [Lambda.reads, NameSet.mem_without] at mem
    simp only [Lambda.free, Lambda.bound, NameSet.mem_union, NameSet.mem_without]
    exact (body.free_of_reads mem.1).imp (fun free => .inl ⟨.inl free, mem.2⟩) (List.mem_append_right _)

theorem Kernel.free_of_reads {v : Name} : ∀ k : Kernel, v ∈ k.reads → v ∈ k.free ∨ v ∈ k.bound
  | .map ⟨_, _, _, _, _, _, body⟩, mem => mem_free_of_map body.free_of_reads mem
  | .scan ⟨_, _, _, _, fold, _, _⟩, mem => by
    simp only [Kernel.reads, NameSet.mem_union] at mem
    simp only [Kernel.free, Kernel.bound, NameSet.mem_union, List.mem_append]
    obtain ((mem | mem) | mem) | mem := mem
    · exact .inl (.inl (.inl (.inl (.inl (.inl (.inr mem))))))
    · exact .inl (.inl (.inr mem))
    · exact .inl (.inr mem)
    · exact (fold.free_of_reads mem).imp (fun free => .inl (.inl (.inr free))) .inr
  | .chunked ⟨_, width, size, _, op, arrays⟩, mem => by
    simp only [Kernel.reads, NameSet.mem_union, NameSet.mem_without] at mem
    simp only [Kernel.free, Kernel.bound, NameSet.mem_union]
    obtain ((((mem | mem) | mem) | mem) | mem) | ⟨mem, param⟩ := mem
    · exact .inl (.inl (.inl (.inl (.inr mem))))
    · exact .inl (.inl (.inl (.inr (NameSet.mem_gather.mpr ⟨size.threads, by simp [LaunchSize.operands], mem⟩))))
    · exact .inl (.inl (.inl (.inr (NameSet.mem_gather.mpr ⟨size.chunk, by simp [LaunchSize.operands], mem⟩))))
    · exact .inl (.inr mem)
    · exact (op.free_of_reads mem).imp_left fun free => .inl (.inr free)
    · obtain ⟨ty, inside, read⟩ := NameSet.mem_gather.mp mem
      obtain ⟨params, body, ret⟩ := op
      simp only [Lambda.free, NameSet.mem_union, NameSet.mem_without]
      refine .inl (.inl (.inr (.inl ⟨.inr (NameSet.mem_gather.mpr ⟨ty, inside, ?_⟩), param⟩)))
      exact ty.free_of_rowReads read
  | .scatter ⟨_, width, op, arrays, dests⟩, mem => by
    simp only [Kernel.reads, NameSet.mem_union] at mem
    simp only [Kernel.free, Kernel.bound, NameSet.mem_union]
    obtain ((mem | mem) | mem) | mem := mem
    · exact .inl (.inl (.inl (.inl (.inr mem))))
    · exact .inl (.inl (.inr mem))
    · obtain ⟨d, inside, same⟩ := List.mem_map.mp (NameSet.mem_ofList.mp mem)
      exact .inl (.inr (NameSet.mem_gather.mpr ⟨d, inside, by simp [same]⟩))
    · exact (op.free_of_reads mem).imp_left fun free => .inl (.inl (.inr free))
  | .group ⟨_, size, space, returns, ⟨stms, result⟩⟩, mem => by
    simp only [Kernel.reads, NameSet.mem_union, NameSet.mem_without] at mem
    simp only [Kernel.free, Kernel.bound, NameSet.mem_union, NameSet.mem_without, List.mem_append]
    obtain ((mem | mem) | mem) | ⟨mem, other⟩ := mem
    · exact .inl (.inl (.inl (.inr (NameSet.mem_gather.mpr ⟨size.threads, by simp [LaunchSize.operands], mem⟩))))
    · exact .inl (.inl (.inl (.inr (NameSet.mem_gather.mpr ⟨size.groupSize, by simp [LaunchSize.operands], mem⟩))))
    · exact .inl (.inl (.inr mem))
    · refine (freeBeforeGroup_of_readsBeforeGroup stms mem).imp (fun free => .inr ⟨free, fun own => other ?_⟩) .inr
      exact List.mem_append_left _ own
  | .numGroups, mem => .inl mem
  | .groupSize, mem => .inl mem

theorem GroupStm.free_of_reads {v : Name} : ∀ stm : GroupStm, v ∈ stm.reads → v ∈ stm.free ∨ v ∈ stm.bound
  | .split size chunks division width perThread arrays, mem => by
    simp only [GroupStm.reads, NameSet.mem_union] at mem
    simp only [GroupStm.free, NameSet.mem_union]
    obtain (mem | mem) | mem := mem
    · exact .inl (.inl (.inl (.inr mem)))
    · exact .inl (.inl (.inr mem))
    · exact .inl (.inr mem)
  | .thread pat only body, mem => by
    simp only [GroupStm.reads, NameSet.mem_union] at mem
    simp only [GroupStm.free, GroupStm.bound, NameSet.mem_union, List.mem_append]
    obtain (mem | mem) | mem := mem
    · exact .inl (.inl (.inr mem))
    · by_cases own : v ∈ pat.names
      · exact .inr (.inl own)
      · obtain ⟨b, inside, free⟩ := NameSet.mem_gather.mp mem
        refine .inl (.inl (.inl (NameSet.mem_without.mpr ⟨NameSet.mem_gather.mpr ⟨b, ?_, ?_⟩, own⟩)))
        · exact List.mem_append_right _ inside
        · exact NameSet.mem_union.mpr (.inl free)
    · exact (body.free_of_reads mem).imp .inr .inr
  | .reduce pat width op inputs, mem => by
    simp only [GroupStm.reads, NameSet.mem_union] at mem
    simp only [GroupStm.free, GroupStm.bound, NameSet.mem_union, List.mem_append]
    obtain (mem | mem) | mem := mem
    · exact .inl (.inl (.inl (.inr mem)))
    · exact .inl (.inr mem)
    · exact (op.free_of_reads mem).imp (fun free => .inl (.inr free)) .inr

theorem freeBeforeGroup_of_readsBeforeGroup {v : Name} {after : NameSet} : ∀ stms : List GroupStm,
    v ∈ readsBeforeGroup after stms → v ∈ freeBeforeGroup after stms ∨ v ∈ boundInGroupStms stms
  | [], mem => .inl mem
  | stm :: stms, mem => by
    simp only [readsBeforeGroup, NameSet.mem_union, NameSet.mem_without] at mem
    simp only [freeBeforeGroup, boundInGroupStms, NameSet.mem_union, NameSet.mem_without, List.mem_append]
    obtain ⟨mem, other⟩ | mem := mem
    · exact (freeBeforeGroup_of_readsBeforeGroup stms mem).imp (fun free => .inl ⟨free, other⟩) .inr
    · exact (stm.free_of_reads mem).imp .inr .inl

end

end ArrayKernels
