import ArrayKernels.Program.Depth
import ArrayKernels.Proofs.Reads

/-! Ports of kernels: the inputs and the outputs of map kernels and the arrays that the other kernels stream, at every depth. A sweep
is paid for with them, since a rule that replaces a statement takes a port away. -/
namespace ArrayKernels

mutual

def Exp.ports : Exp → Nat
  | .branch _ onTrue onFalse _ => onTrue.ports + onFalse.ports
  | .loop _ _ _ _ body => body.ports
  | .launch kernel => kernel.ports
  | _ => 0

def portsInStms : List Stm → Nat
  | [] => 0
  | ⟨_, _, exp⟩ :: stms => exp.ports + portsInStms stms

def Body.ports : Body → Nat
  | ⟨stms, _⟩ => portsInStms stms

def Lambda.ports : Lambda → Nat
  | ⟨_, body, _⟩ => body.ports

def Kernel.ports : Kernel → Nat
  | .map ⟨_, _, _, _, inputs, returns, body⟩ => inputs.length + returns.length + body.ports
  | .scan ⟨_, _, _, combine, fold, _, arrays⟩ => arrays.length + (combine.ports + fold.ports)
  | .chunked ⟨_, _, _, _, op, arrays⟩ => arrays.length + op.ports
  | .scatter ⟨_, _, op, arrays, _⟩ => arrays.length + op.ports
  | .group ⟨_, _, _, _, body⟩ => body.ports
  | .numGroups => 0
  | .groupSize => 0

def portsInGroupStms : List GroupStm → Nat
  | [] => 0
  | .split .. :: stms => portsInGroupStms stms
  | .thread _ _ body :: stms => body.ports + portsInGroupStms stms
  | .reduce _ _ op _ :: stms => op.ports + portsInGroupStms stms

def GroupBody.ports : GroupBody → Nat
  | ⟨stms, _⟩ => portsInGroupStms stms

end

theorem portsInStms_cons (stm : Stm) (stms : List Stm) : portsInStms (stm :: stms) = stm.exp.ports + portsInStms stms := by
  obtain ⟨pat, certs, exp⟩ := stm
  rw [portsInStms]

theorem portsInStms_append (before after : List Stm) : portsInStms (before ++ after) = portsInStms before + portsInStms after := by
  induction before with
  | nil => simp [portsInStms]
  | cons stm before ih => rw [List.cons_append, portsInStms_cons, portsInStms_cons, ih, Nat.add_assoc]

theorem Body.ports_eq (body : Body) : body.ports = portsInStms body.stms := by cases body; rw [Body.ports]

theorem Body.depth_eq (body : Body) : body.depth = stmsDepth body.stms + 1 := by cases body; rw [Body.depth]

/-! The bodies in an expression -/

def GroupStm.bodies : GroupStm → List Body
  | .split .. => []
  | .thread _ _ body => [body]
  | .reduce _ _ op _ => [op.body]

def Kernel.bodies : Kernel → List Body
  | .map k => [k.body]
  | .scan k => [k.combine.body, k.fold.body]
  | .chunked k => [k.op.body]
  | .scatter k => [k.op.body]
  | .group k => k.body.stms.flatMap GroupStm.bodies
  | .numGroups => []
  | .groupSize => []

/-- The bodies that stand in an expression, but not those inside them. -/
def Exp.bodies : Exp → List Body
  | .branch _ onTrue onFalse _ => [onTrue, onFalse]
  | .loop _ _ _ _ body => [body]
  | .launch k => k.bodies
  | _ => []

/-- The ports of the kernel itself. -/
def Kernel.ownPorts : Kernel → Nat
  | .map k => k.inputs.length + k.returns.length
  | .scan k => k.arrays.length
  | .chunked k => k.arrays.length
  | .scatter k => k.arrays.length
  | .group _ => 0
  | .numGroups => 0
  | .groupSize => 0

/-- The ports in a list of bodies. -/
def portsInBodies (bodies : List Body) : Nat := bodies.foldr (fun b n => b.ports + n) 0

theorem portsInBodies_cons (b : Body) (bodies : List Body) : portsInBodies (b :: bodies) = b.ports + portsInBodies bodies := rfl

theorem portsInBodies_append (before after : List Body) : portsInBodies (before ++ after) = portsInBodies before + portsInBodies after := by
  induction before with
  | nil => exact (Nat.zero_add _).symm
  | cons b before ih => rw [List.cons_append, portsInBodies_cons, portsInBodies_cons, ih, Nat.add_assoc]

theorem Lambda.ports_eq (op : Lambda) : op.ports = op.body.ports := by cases op; rw [Lambda.ports]

theorem Lambda.depth_eq (op : Lambda) : op.depth = op.body.depth := by cases op; rw [Lambda.depth]

theorem portsInGroupStms_eq (stms : List GroupStm) : portsInGroupStms stms = portsInBodies (stms.flatMap GroupStm.bodies) := by
  induction stms with
  | nil => rfl
  | cons stm stms ih =>
    rw [List.flatMap_cons, portsInBodies_append, ← ih]
    cases stm with
    | split => simp [portsInGroupStms, GroupStm.bodies, portsInBodies]
    | thread pat only body => rw [portsInGroupStms]; rfl
    | reduce pat width op inputs => rw [portsInGroupStms, Lambda.ports_eq]; rfl

theorem Kernel.ports_eq (k : Kernel) : k.ports = k.ownPorts + portsInBodies k.bodies := by
  cases k with
  | map k => cases k; rw [ports]; rfl
  | scan k => cases k; rw [ports, Lambda.ports_eq, Lambda.ports_eq]; rfl
  | chunked k => cases k; rw [ports, Lambda.ports_eq]; rfl
  | scatter k => cases k; rw [ports, Lambda.ports_eq]; rfl
  | group k =>
    obtain ⟨certs, size, space, returns, stms, result⟩ := k
    rw [ports, GroupBody.ports, portsInGroupStms_eq, ownPorts, bodies, Nat.zero_add]
  | numGroups => rw [ports]; rfl
  | groupSize => rw [ports]; rfl

theorem Exp.portsInBodies_le (e : Exp) : portsInBodies e.bodies ≤ e.ports := by
  cases e with
  | branch => simp only [bodies, portsInBodies_cons, ports]; exact Nat.le_refl _
  | loop => simp only [bodies, portsInBodies_cons, ports]; exact Nat.le_refl _
  | launch k => rw [ports, k.ports_eq]; exact Nat.le_add_left _ _
  | operand | binary | compare | index | update | iota | replicate | reshape | rearrange | copy | alloc => exact Nat.zero_le _

/-! Depth, body by body -/

section
variable {d : Nat}

theorem stmsDepth_le_iff {stms : List Stm} : stmsDepth stms ≤ d ↔ ∀ stm ∈ stms, stm.exp.depth ≤ d := by
  induction stms with
  | nil => simp [stmsDepth]
  | cons stm stms ih =>
    obtain ⟨pat, certs, exp⟩ := stm
    simp [stmsDepth, Nat.max_le, ih]

theorem groupStmsDepth_le_iff {stms : List GroupStm} : groupStmsDepth stms ≤ d ↔ ∀ b ∈ stms.flatMap GroupStm.bodies, b.depth ≤ d := by
  induction stms with
  | nil => simp [groupStmsDepth]
  | cons stm stms ih =>
    rw [List.flatMap_cons, List.forall_mem_append, ← ih]
    cases stm with
    | split => simp [groupStmsDepth, GroupStm.bodies]
    | thread pat only body => simp [groupStmsDepth, GroupStm.bodies, Nat.max_le]
    | reduce pat width op inputs => simp [groupStmsDepth, GroupStm.bodies, Nat.max_le, Lambda.depth_eq]

theorem Kernel.depth_le_iff {k : Kernel} : k.depth ≤ d ↔ ∀ b ∈ k.bodies, b.depth ≤ d := by
  cases k with
  | map k => cases k; simp [depth, bodies]
  | scan k => cases k; simp [depth, bodies, Nat.max_le, Lambda.depth_eq]
  | chunked k => cases k; simp [depth, bodies, Lambda.depth_eq]
  | scatter k => cases k; simp [depth, bodies, Lambda.depth_eq]
  | group k =>
    obtain ⟨certs, size, space, returns, stms, result⟩ := k
    rw [depth, GroupBody.depth, groupStmsDepth_le_iff, bodies]
  | numGroups => simp [depth, bodies]
  | groupSize => simp [depth, bodies]

theorem Exp.depth_le_iff {e : Exp} : e.depth ≤ d ↔ ∀ b ∈ e.bodies, b.depth ≤ d := by
  cases e with
  | branch => simp [depth, bodies, Nat.max_le]
  | loop => simp [depth, bodies]
  | launch k => rw [depth, k.depth_le_iff, bodies]
  | operand | binary | compare | index | update | iota | replicate | reshape | rearrange | copy | alloc => simp [depth, bodies]

end

section
variable {e : Exp} (leaf : e.isNested = false)
include leaf

theorem Exp.bodies_leaf : e.bodies = [] := by
  cases e with
  | branch | loop | launch => cases leaf
  | operand | binary | compare | index | update | iota | replicate | reshape | rearrange | copy | alloc => rfl

theorem Exp.ports_leaf : e.ports = 0 := by
  cases e with
  | branch | loop | launch => cases leaf
  | operand | binary | compare | index | update | iota | replicate | reshape | rearrange | copy | alloc => rfl

end

end ArrayKernels
