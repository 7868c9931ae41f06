import ArrayKernels.Program.Basic

/-! Symbol tables: what is known about the names in scope. A table is a value, so a nested
body is simplified under an extended table without any effect on the outer one. -/
namespace ArrayKernels

/-- The known bounds of a value, or of the elements of an array. -/
structure Range where
  lower : Option Operand
  upper : Option Operand

def Range.unknown : Range := ⟨none, none⟩
def Range.between (lower upper : Operand) : Range := ⟨some lower, some upper⟩
def Range.isUnknown (r : Range) : Bool := r.lower.isNone && r.upper.isNone

/-- What is known about a name: its type, the expression that defines it when it is the only
name of its statement, the names whose storage it may share, and its range. -/
structure Entry where
  ty : Ty
  defn : Option Exp
  aliases : NameSet
  range : Range

def Entry.ofTy (ty : Ty) : Entry := ⟨ty, none, ∅, .unknown⟩

/-- Newest entries first. -/
structure SymbolTable where
  entries : List (Name × Entry)

/-- The array whose storage the value of the expression may share. -/
def Exp.aliasSource : Exp → Option Name
  | .operand x => x.asName
  | .index array _ => some array
  | .reshape _ array => some array
  | .rearrange _ array => some array
  | _ => none

namespace SymbolTable

def empty : SymbolTable := ⟨[]⟩

/-- Adds the entries from left to right; the last entry of a name counts. -/
def extend (t : SymbolTable) (new : List (Name × Entry)) : SymbolTable := ⟨new.reverse ++ t.entries⟩

def lookup (t : SymbolTable) (v : Name) : Option Entry := t.entries.lookup v

def contains (t : SymbolTable) (v : Name) : Bool := (t.lookup v).isSome

/-- The defining expression of a name. -/
def defn (t : SymbolTable) (v : Name) : Option Exp := (t.lookup v).bind Entry.defn

def type (t : SymbolTable) (v : Name) : Option Ty := (t.lookup v).map Entry.ty

def aliases (t : SymbolTable) (v : Name) : NameSet :=
  match t.lookup v with
  | some e => e.aliases
  | none => ∅

def range (t : SymbolTable) (v : Name) : Range :=
  match t.lookup v with
  | some e => e.range
  | none => .unknown

/-- The array and everything that it may share storage with. -/
def aliasesThrough (t : SymbolTable) (array : Name) : NameSet := (t.aliases array).insert array

def bindEntry (t : SymbolTable) (v : Name) (e : Entry) : SymbolTable := t.extend [(v, e)]

def bindName (t : SymbolTable) (v : Name) (ty : Ty) : SymbolTable := t.bindEntry v (.ofTy ty)

def bindParams (t : SymbolTable) (params : List Binder) : SymbolTable :=
  t.extend (params.map fun p => (p.name, .ofTy p.ty))

/-- An index that ranges over the numbers below the bound. -/
def bindIndex (t : SymbolTable) (v : Name) (bound : Operand) : SymbolTable :=
  t.bindEntry v { Entry.ofTy (.scalar .i64) with range := .between (.word 0) bound }

/-- The aliases that the expression gives to an array that it defines. -/
def aliasesOf (t : SymbolTable) (exp : Exp) : NameSet :=
  match exp.aliasSource with
  | some v => t.aliasesThrough v
  | none => ∅

/-- The entry of a binder of a statement. -/
def stmEntry (t : SymbolTable) (stm : Stm) (b : Binder) : Entry :=
  if stm.pat.soleName.isSome then
    { Entry.ofTy b.ty with
      defn := some stm.exp
      aliases := if b.ty.isArray then t.aliasesOf stm.exp else ∅ }
  else .ofTy b.ty

/-- Brings the names of a statement into scope. -/
def bindStm (t : SymbolTable) (stm : Stm) : SymbolTable :=
  t.extend (stm.pat.binders.map fun b => (b.name, t.stmEntry stm b))

def bindStms (t : SymbolTable) (stms : List Stm) : SymbolTable := stms.foldl bindStm t

end SymbolTable

end ArrayKernels
