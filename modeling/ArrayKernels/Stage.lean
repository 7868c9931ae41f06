/-! The stages of the library as they appear in reports of a failure. -/
namespace ArrayKernels

inductive Stage where
  | simplify | expand | eval | internal
deriving DecidableEq

/-- The report of a failure with the given detail. -/
def Stage.report (s : Stage) (detail : String) : String :=
  (match s with
    | simplify => "Simplification error: "
    | expand => "Allocation expansion error: "
    | eval => "Evaluation error: "
    | internal => "Internal compiler error: ") ++ detail

end ArrayKernels
