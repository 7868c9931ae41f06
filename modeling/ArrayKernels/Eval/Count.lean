import ArrayKernels.Eval.Error

/-! Counted work. A step sees its number, and the first failure ends the work, so that a large
count costs nothing after a failure. -/
namespace ArrayKernels

/-- Runs `n` steps from number `i` on. -/
def iterate {σ : Type} (step : Nat → σ → Eval σ) : Nat → Nat → σ → Eval σ
  | 0, _, s => .ok s
  | n + 1, i, s => do iterate step n (i + 1) (← step i s)

/-- The results of `f` at the numbers below `n`. -/
def collect {α : Type} (f : Nat → Eval α) (n : Nat) : Eval (List α) := do
  let done ← iterate (fun i done => do .ok ((← f i) :: done)) n 0 []
  .ok done.reverse

/-- The states after each of `n` steps from number `i` on. -/
def scanFrom {σ : Type} (step : Nat → σ → Eval σ) (n i : Nat) (s : σ) : Eval (List σ) := do
  let last ← iterate
    (fun i (p : σ × List σ) => do
      let next ← step i p.1
      .ok (next, next :: p.2))
    n i (s, [])
  .ok last.2.reverse

theorem iterate_cons {α : Type} (f : Nat → Eval α) (n i : Nat) (done : List α) :
    iterate (fun i done => do .ok ((← f i) :: done)) n i done =
      (do let new ← (List.range' i n).mapM f; .ok (new.reverse ++ done)) := by
  induction n generalizing i done with
  | zero => rfl
  | succ n ih =>
    rw [iterate, List.range'_succ, List.mapM_cons]
    cases f i with
    | error e => rfl
    | ok a =>
      have step := ih (i + 1) (a :: done)
      cases h : (List.range' (i + 1) n).mapM f with
      | error e => simpa [h, bind, Except.bind] using step
      | ok new => simpa [h, bind, Except.bind, pure, Except.pure] using step

theorem collect_eq_mapM {α : Type} (f : Nat → Eval α) (n : Nat) : collect f n = (List.range n).mapM f := by
  rw [collect, iterate_cons, List.range_eq_range']
  cases (List.range' 0 n).mapM f with
  | error e => rfl
  | ok new => simp [bind, Except.bind]

end ArrayKernels
