import ArrayKernels.Rule.RuleSet
import ArrayKernels.Simplify.Level

/-! The state of a simplification and the work on one body: rules from the top down on a queue of
statements, then dead code and rules from the bottom up. -/
namespace ArrayKernels

inductive SimplifyError where
  | leftFunction (name : String)
  | leftReduction

def SimplifyError.text : SimplifyError → String
  | leftFunction name => name ++ ": statements hoisted out of a function body"
  | leftReduction => "statements hoisted out of a group reduction operator"

/-- The name supply, and how often a top-down rule has replaced a statement. -/
structure Progress where
  names : NameSupply
  fired : Nat

abbrev Simplify := StateT Progress (Except SimplifyError)

/-- The rules, and the blocker under which the code of threads is simplified. -/
structure Simplifier where
  rules : RuleSet
  parallel : Blocker

/-- Simplifies a body in a scope; gives the statements that leave it and the rest. -/
abbrev BodySimplifier := SymbolTable → Blocker → Body → Simplify (List Stm × Body)

namespace Simplifier

/-- A simplifier that keeps kernels and allocations in the code of threads and, if asked, everything
that may fail. -/
def make (rules : RuleSet) (keepFailing : Bool) : Simplifier :=
  let parallel := Blocker.kernels.or .allocs
  ⟨rules, if keepFailing then parallel.or .failing else parallel⟩

/-- The replacement of a statement by the first top-down rule that applies. -/
def fireDown (s : Simplifier) (scope : SymbolTable) (stm : Stm) : Simplify (Option (List Stm)) := fun p =>
  match s.rules.replaceDown scope stm p.names with
  | some (stms, names) => .ok (some stms, ⟨names, p.fired + 1⟩)
  | none => .ok (none, p)

def fireUp (s : Simplifier) (scope : SymbolTable) (usage : Usage) (stm : Stm) : Simplify (Option (List Stm)) := fun p =>
  match s.rules.replaceUp scope usage stm p.names with
  | some (stms, names) => .ok (some stms, { p with names })
  | none => .ok (none, p)

/-- Walks backwards from the result; drops statements that bind nothing that is used, and applies
the bottom-up rules to the others. -/
def sweepUp (s : Simplifier) (scope : SymbolTable) (result : List Operand) : List Stm → Simplify (Usage × List Stm)
  | [] => pure (.ofResult result, [])
  | stm :: stms => do
    let (usage, rest) ← s.sweepUp scope result stms
    if stm.pat.names.any usage.isUsed then
      match ← s.fireUp scope usage stm with
      | some new => pure (new.foldr (fun s u => u.before s) usage, new ++ rest)
      | none => pure (usage.before stm, stm :: rest)
    else pure (usage, rest)

end Simplifier

/-- How many replacements a statement allows. Every rule replaces a statement by statements that
together allow fewer: it removes an input, an output, a streamed array or a copy. -/
def Exp.replacements : Exp → Nat
  | .operand _ => 1
  | .launch (.map k) => k.inputs.length + k.returns.length
  | .launch (.scan k) => k.arrays.length
  | .launch (.chunked k) => k.arrays.length
  | .launch (.scatter k) => k.arrays.length
  | _ => 0

def replacementsIn (stms : List Stm) : Nat := stms.foldr (fun s n => s.exp.replacements + n) 0

/-- Works through a queue. A statement that is replaced hands the queue, with the replacement in
front, to `replaced`; any other is settled. -/
def workThrough {σ : Type} (fire : σ → Stm → Simplify (Option (List Stm))) (settle : σ → Stm → Simplify σ)
    (replaced : List Stm → σ → Simplify σ) : List Stm → σ → Simplify σ
  | [], level => pure level
  | stm :: queue, level => do
    match ← fire level stm with
    | some new => replaced (new ++ queue) level
    | none => workThrough fire settle replaced queue (← settle level stm)

/-- Works through a queue with at most `n` replacements. -/
def drain {σ : Type} (fire : σ → Stm → Simplify (Option (List Stm))) (settle : σ → Stm → Simplify σ) :
    Nat → List Stm → σ → Simplify σ
  | 0 => workThrough (fun _ _ => pure none) settle (fun _ level => pure level)
  | n + 1 => workThrough fire settle (drain fire settle n)

end ArrayKernels
