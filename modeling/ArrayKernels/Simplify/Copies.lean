import ArrayKernels.Scope.SymbolTable

/-! Copy propagation: a name that is bound to a variable or a constant is replaced by it.
Chains of copies are followed to their end. A table in which every definition mentions older
names only has no longer chain than it has entries. -/
namespace ArrayKernels.SymbolTable

/-- The variable to which a name is bound. -/
def copyOf (t : SymbolTable) (v : Name) : Option Name :=
  match t.defn v with
  | some (.operand (.var w)) => some w
  | _ => none

/-- Follows at most `n` copies. -/
def follow (t : SymbolTable) : Nat → Name → Name
  | 0, v => v
  | n + 1, v =>
    match t.copyOf v with
    | some w => t.follow n w
    | none => v

def resolve (t : SymbolTable) (v : Name) : Name := t.follow t.entries.length v

def resolveOperand (t : SymbolTable) : Operand → Operand
  | .const c => .const c
  | .var v =>
    match t.defn (t.resolve v) with
    | some (.operand (.const c)) => .const c
    | _ => .var (t.resolve v)

def resolveOperands (t : SymbolTable) (xs : List Operand) : List Operand := xs.map t.resolveOperand

def resolveAll (t : SymbolTable) (vs : List Name) : List Name := vs.map t.resolve

/-- Certificates are resolved and listed once each. -/
def resolveCerts (t : SymbolTable) (certs : List Name) : List Name :=
  (NameSet.ofList (t.resolveAll certs)).toList

def resolveTy (t : SymbolTable) : Ty → Ty
  | .scalar e => .scalar e
  | .array e shape unique => .array e (t.resolveOperands shape) unique
  | .mem size space => .mem (t.resolveOperand size) space

/-- Placements stay as they are. -/
def resolveBinder (t : SymbolTable) (b : Binder) : Binder := { b with ty := t.resolveTy b.ty }

def resolvePattern (t : SymbolTable) (p : Pattern) : Pattern :=
  ⟨p.context.map t.resolveBinder, p.values.map t.resolveBinder⟩

def resolveSize (t : SymbolTable) (s : LaunchSize) : LaunchSize := s.map t.resolveOperand

end ArrayKernels.SymbolTable
