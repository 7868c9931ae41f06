import ArrayKernels.Proofs.IndexMeaning

/-! Folding keeps values. The folding operators compute with constants, by wrapping sums and products and by quotients that need not
exist, and they drop units, zeros and what is multiplied by them. Where the raw expression has a value, all of it goes well: the
folded expression exists, it has that value, and its names are names of the raw one. -/
namespace ArrayKernels

variable {env : Name → Option Int64}

/-! Words -/

namespace Word

theorem range_of_fit {n : Int} {w : Int64} (h : fit n = some w) : (-2 ^ 63 ≤ n ∧ n < 2 ^ 63) ∧ Int64.ofInt n = w := by
  have least : Int64.minValue.toInt = -2 ^ 63 := by decide
  have most : Int64.maxValue.toInt = 2 ^ 63 - 1 := by decide
  rw [fit, least, most] at h
  split at h
  · exact ⟨by omega, Option.some.inj h⟩
  · cases h

theorem quotient_one (a : Int64) : quotient a 1 = some a := by
  have one : (1 : Int64).toInt = 1 := by decide
  rw [quotient, if_neg (by decide), one, Int.ediv_one, fit_of_range a.le_toInt a.toInt_lt, Int64.ofInt_toInt]

theorem remainder_one (a : Int64) : remainder a 1 = some 0 := by
  have one : (1 : Int64).toInt = 1 := by decide
  rw [remainder, quotient_one, Option.map_some, one, Int.emod_one]
  rfl

theorem quotient_zero (a : Int64) : quotient a 0 = none := rfl

theorem remainder_zero (a : Int64) : remainder a 0 = none := rfl

end Word

namespace IndexExpr

variable {x y r raw : IndexExpr} {w : Int64}

/-! One operator -/

theorem eval_plus_of_add (h : (add x y).eval env = some w) : (x.plus y).eval env = some w := by
  obtain ⟨a, left, h⟩ := Option.bind_eq_some_iff.mp h
  obtain ⟨b, right, h⟩ := Option.bind_eq_some_iff.mp h
  obtain ⟨⟨low, high⟩, rfl⟩ := Word.range_of_fit h
  exact eval_plus left right low high

theorem eval_times_of_mul (h : (mul x y).eval env = some w) : (x.times y).eval env = some w := by
  obtain ⟨a, left, h⟩ := Option.bind_eq_some_iff.mp h
  obtain ⟨b, right, h⟩ := Option.bind_eq_some_iff.mp h
  obtain ⟨⟨low, high⟩, rfl⟩ := Word.range_of_fit h
  exact eval_times left right low high

theorem eval_minus_of_sub (h : (sub x y).eval env = some w) : (x.minus y).eval env = some w := by
  obtain ⟨a, left, fits⟩ := Option.bind_eq_some_iff.mp h
  obtain ⟨b, right, fits⟩ := Option.bind_eq_some_iff.mp fits
  obtain ⟨-, same⟩ := Word.range_of_fit fits
  rw [Int64.ofInt_sub, Int64.ofInt_toInt, Int64.ofInt_toInt] at same
  unfold minus
  split
  · cases left
    cases right
    rw [eval, same]
  · split
    · rename_i zero
      subst zero
      cases right
      rw [left, ← same, Int64.sub_zero]
    · exact h

/-- Folding a quotient or a remainder: constants are taken together where the divisor is not zero, and a divisor of one is left out. -/
def foldDivision (raw unit : IndexExpr) (op : Int64 → Int64 → Option Int64) (x y : IndexExpr) : Option IndexExpr :=
  match x, y with
  | const a, const b => if b = 0 then some raw else (op a b).map const
  | _, _ => if y = const 1 then some unit else some raw

theorem quotient_eq (x y : IndexExpr) : x.quotient y = foldDivision (div x y) x Word.quotient x y := rfl

theorem remainder_eq (x y : IndexExpr) : x.remainder y = foldDivision (mod x y) (const 0) Word.remainder x y := rfl

-- A constant result that does not fit the word is no concern: the raw expression would have no value.
theorem eval_foldDivision {unit : IndexExpr} {op : Int64 → Int64 → Option Int64}
    (computes : raw.eval env = do op (← x.eval env) (← y.eval env)) (zero : ∀ a, op a 0 = none)
    (one : ∀ a, x.eval env = some a → unit.eval env = op a 1) (h : raw.eval env = some w) :
    ∃ r, foldDivision raw unit op x y = some r ∧ r.eval env = some w := by
  obtain ⟨a, left, rest⟩ := Option.bind_eq_some_iff.mp (computes.symm.trans h)
  obtain ⟨b, right, divided⟩ := Option.bind_eq_some_iff.mp rest
  unfold foldDivision
  split
  · cases left
    cases right
    have filled : b ≠ 0 := by
      rintro rfl
      cases (zero a).symm.trans divided
    exact ⟨const w, by rw [if_neg filled, divided, Option.map_some], rfl⟩
  · split
    · rename_i same
      subst same
      cases right
      exact ⟨unit, rfl, (one a left).trans divided⟩
    · exact ⟨raw, rfl, h⟩

/-! Names -/

/-- What a folding operator makes of its operands: the raw expression, one of the two, or a constant. -/
inductive Reduct (raw x y : IndexExpr) : IndexExpr → Prop where
  | raw : Reduct raw x y raw
  | left : Reduct raw x y x
  | right : Reduct raw x y y
  | const (n : Int64) : Reduct raw x y (const n)

theorem Reduct.free (h : Reduct raw x y r) (both : raw.free = x.free ∪ y.free) {v : Name} (mem : v ∈ r.free) :
    v ∈ x.free ∨ v ∈ y.free := by
  cases h with
  | raw => exact NameSet.mem_union.mp (both ▸ mem)
  | left => exact .inl mem
  | right => exact .inr mem
  | const n => exact absurd mem (NameSet.not_mem_empty v)

theorem reduct_plus (x y : IndexExpr) : Reduct (add x y) x y (x.plus y) := by
  unfold plus
  split
  · exact .const _
  · split
    · exact .right
    · split
      · exact .left
      · exact .raw

theorem reduct_minus (x y : IndexExpr) : Reduct (sub x y) x y (x.minus y) := by
  unfold minus
  split
  · exact .const _
  · split
    · exact .left
    · exact .raw

theorem reduct_times (x y : IndexExpr) : Reduct (mul x y) x y (x.times y) := by
  unfold times
  split
  · exact .const _
  · split
    · exact .const _
    · split
      · exact .right
      · split
        · exact .left
        · exact .raw

theorem reduct_foldDivision {unit : IndexExpr} {op : Int64 → Int64 → Option Int64} (dropped : Reduct raw x y unit)
    (h : foldDivision raw unit op x y = some r) : Reduct raw x y r := by
  unfold foldDivision at h
  split at h
  · split at h
    · cases h
      exact .raw
    · obtain ⟨q, -, rfl⟩ := Option.map_eq_some_iff.mp h
      exact .const q
  · split at h
    · cases h
      exact dropped
    · cases h
      exact .raw

/-! Whole expressions -/

/-- The expression built anew from its leaves with the folding operators. There is none if a constant quotient on the way does not
fit the word. -/
def folded : IndexExpr → Option IndexExpr
  | const n => some (const n)
  | var v => some (var v)
  | add a b => do some ((← a.folded).plus (← b.folded))
  | sub a b => do some ((← a.folded).minus (← b.folded))
  | mul a b => do some ((← a.folded).times (← b.folded))
  | div a b => do (← a.folded).quotient (← b.folded)
  | mod a b => do (← a.folded).remainder (← b.folded)

/-- The folding operator does no harm in the place of the raw one, which computes with the values of its operands. -/
structure Folds (raw : IndexExpr → IndexExpr → IndexExpr) (fold : IndexExpr → IndexExpr → Option IndexExpr)
    (op : Int64 → Int64 → Option Int64) : Prop where
  eval : ∀ env x y, (raw x y).eval env = do op (← x.eval env) (← y.eval env)
  free : ∀ x y, (raw x y).free = x.free ∪ y.free
  value : ∀ {env x y w}, (raw x y).eval env = some w → ∃ r, fold x y = some r ∧ r.eval env = some w
  reduct : ∀ {x y r}, fold x y = some r → Reduct (raw x y) x y r

theorem folds_plus : Folds add (fun x y => some (x.plus y)) fun a b => Word.fit (a.toInt + b.toInt) where
  eval _ _ _ := rfl
  free _ _ := rfl
  value h := ⟨_, rfl, eval_plus_of_add h⟩
  reduct h := Option.some.inj h ▸ reduct_plus _ _

theorem folds_minus : Folds sub (fun x y => some (x.minus y)) fun a b => Word.fit (a.toInt - b.toInt) where
  eval _ _ _ := rfl
  free _ _ := rfl
  value h := ⟨_, rfl, eval_minus_of_sub h⟩
  reduct h := Option.some.inj h ▸ reduct_minus _ _

theorem folds_times : Folds mul (fun x y => some (x.times y)) fun a b => Word.fit (a.toInt * b.toInt) where
  eval _ _ _ := rfl
  free _ _ := rfl
  value h := ⟨_, rfl, eval_times_of_mul h⟩
  reduct h := Option.some.inj h ▸ reduct_times _ _

theorem folds_quotient : Folds div quotient Word.quotient where
  eval _ _ _ := rfl
  free _ _ := rfl
  value {env x y w} h := by
    rw [quotient_eq]
    exact eval_foldDivision rfl Word.quotient_zero (fun a left => left.trans (Word.quotient_one a).symm) h
  reduct {x y r} h := reduct_foldDivision .left (quotient_eq x y ▸ h)

theorem folds_remainder : Folds mod remainder Word.remainder where
  eval _ _ _ := rfl
  free _ _ := rfl
  value {env x y w} h := by
    rw [remainder_eq]
    exact eval_foldDivision rfl Word.remainder_zero (fun a _ => (Word.remainder_one a).symm) h
  reduct {x y r} h := reduct_foldDivision (.const 0) (remainder_eq x y ▸ h)

/-- If the expression has a value in the environment, its folded form exists, has that value and mentions no other names. -/
def KeptByFolding (env : Name → Option Int64) (e : IndexExpr) : Prop :=
  ∀ w, e.eval env = some w → ∃ r, e.folded = some r ∧ r.eval env = some w ∧ ∀ v ∈ r.free, v ∈ e.free

-- Operands that have a value are all there is to a node: its raw form has the same value over their folded forms.
theorem Folds.kept {raw : IndexExpr → IndexExpr → IndexExpr} {fold : IndexExpr → IndexExpr → Option IndexExpr}
    {op : Int64 → Int64 → Option Int64} (h : Folds raw fold op) (left : x.KeptByFolding env) (right : y.KeptByFolding env)
    (value : (raw x y).eval env = some w) :
    ∃ r, (do fold (← x.folded) (← y.folded)) = some r ∧ r.eval env = some w ∧ ∀ v ∈ r.free, v ∈ (raw x y).free := by
  rw [h.eval] at value
  obtain ⟨a, leftValue, rest⟩ := Option.bind_eq_some_iff.mp value
  obtain ⟨b, rightValue, result⟩ := Option.bind_eq_some_iff.mp rest
  obtain ⟨x', leftFolded, leftValue', leftNames⟩ := left a leftValue
  obtain ⟨y', rightFolded, rightValue', rightNames⟩ := right b rightValue
  have value' : (raw x' y').eval env = some w := by
    rw [h.eval, leftValue', rightValue']
    exact result
  obtain ⟨r, folds, found⟩ := h.value value'
  refine ⟨r, by rw [leftFolded, rightFolded]; exact folds, found, fun v mem => ?_⟩
  rw [h.free, NameSet.mem_union]
  exact ((h.reduct folds).free (h.free x' y') mem).imp (leftNames v) (rightNames v)

theorem keptByFolding (env : Name → Option Int64) (e : IndexExpr) : e.KeptByFolding env := by
  induction e with
  | const n => exact fun w value => ⟨const n, rfl, value, fun _ mem => mem⟩
  | var v => exact fun w value => ⟨var v, rfl, value, fun _ mem => mem⟩
  | add a b left right => exact fun w => folds_plus.kept left right
  | sub a b left right => exact fun w => folds_minus.kept left right
  | mul a b left right => exact fun w => folds_times.kept left right
  | div a b left right => exact fun w => folds_quotient.kept left right
  | mod a b left right => exact fun w => folds_remainder.kept left right

/-! Products -/

/-- Multiplied from left to right, the numbers stay inside the word. -/
def StaysInWord (n : Int) (ns : List Int) : Prop :=
  ∀ k ≤ ns.length, -2 ^ 63 ≤ (ns.take k).foldl (· * ·) n ∧ (ns.take k).foldl (· * ·) n < 2 ^ 63

theorem StaysInWord.head {n m : Int} {ns : List Int} (h : StaysInWord n (m :: ns)) : -2 ^ 63 ≤ n * m ∧ n * m < 2 ^ 63 := by
  simpa using h 1 (by simp)

theorem StaysInWord.tail {n m : Int} {ns : List Int} (h : StaysInWord n (m :: ns)) : StaysInWord (n * m) ns :=
  fun k within => h (k + 1) (Nat.succ_le_succ within)

theorem hasValue_foldl_times {factors : List IndexExpr} {ns : List Int} {n : Int} {acc : IndexExpr}
    (values : List.Forall₂ (HasValue env) factors ns) (start : acc.HasValue env n) (stays : StaysInWord n ns) :
    (factors.foldl times acc).HasValue env (ns.foldl (· * ·) n) := by
  induction values generalizing acc n with
  | nil => exact start
  | cons value _ ih => exact ih (start.times value stays.head.1 stays.head.2) stays.tail

/-- Folding loses no value. An expression that has one keeps it when it is built anew with the folding operators, which all have an
answer then, and a product has the product of its factors as its value if no product on the way leaves the word. -/
theorem folding_keeps_values (env : Name → Option Int64) :
    (∀ (e : IndexExpr) (w : Int64), e.eval env = some w →
      ∃ r, e.folded = some r ∧ r.eval env = some w ∧ ∀ v ∈ r.free, v ∈ e.free) ∧
    ∀ (factors : List IndexExpr) (ns : List Int), List.Forall₂ (HasValue env) factors ns → StaysInWord 1 ns →
      (product factors).HasValue env (ns.foldl (· * ·) 1) :=
  ⟨keptByFolding env, fun _ _ values stays => hasValue_foldl_times values (hasValue_const 1) stays⟩

/-- Sizes with a product at the very end of the word. -/
def sampleSizes : Name → Option Int64
  | ⟨"x", 0⟩ => some 2305843009213693952
  | ⟨"y", 1⟩ => some (-2)
  | _ => none

/-- The sum folds to a constant, and both names are lost on the way. -/
def sampleSum : IndexExpr :=
  add (sub (mul (const 0) (var ⟨"x", 0⟩)) (div (const 7) (const (-2)))) (mod (var ⟨"y", 1⟩) (const 1))

theorem sampleSum_folds :
    (∃ r, sampleSum.folded = some r ∧ r.eval sampleSizes = some 3 ∧ ∀ v ∈ r.free, v ∈ sampleSum.free) ∧
    (product [var ⟨"x", 0⟩, var ⟨"y", 1⟩, const 2]).HasValue sampleSizes (-9223372036854775808) := by
  obtain ⟨sums, products⟩ := folding_keeps_values sampleSizes
  constructor
  · exact sums sampleSum 3 (by decide)
  · refine products _ [2305843009213693952, -2, 2] ?_ (by unfold StaysInWord; decide)
    exact .cons ⟨_, rfl, by decide⟩ (.cons ⟨_, rfl, by decide⟩ (.cons ⟨_, rfl, by decide⟩ .nil))

/-- Without a value there may be no folded form either: this quotient is outside the word. -/
example : (div (const Int64.minValue) (const (-1))).folded = none := by decide

end IndexExpr

end ArrayKernels
