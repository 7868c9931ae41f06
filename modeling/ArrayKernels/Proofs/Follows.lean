import ArrayKernels.Eval.Count
import Mathlib.Data.List.Forall2

/-! Comparing two evaluations. One follows the other if it has a related value whenever the other
has a value; the errors themselves are not compared. The lemmas go through the ways in which the
evaluator puts evaluations together, so that a comparison of two pieces of program is made from
comparisons of their parts. -/
namespace ArrayKernels

variable {α β γ δ : Type} {both : Prop}

theorem ok_bind (a : α) (f : α → Eval β) : ((Except.ok a : Eval α) >>= f) = f a := rfl

theorem error_bind (e : EvalError) (f : α → Eval β) : ((Except.error e : Eval α) >>= f) = .error e := rfl

theorem bind_eq_ok {x : Eval α} {f : α → Eval β} {b : β} :
    (x >>= f) = .ok b ↔ ∃ a, x = .ok a ∧ f a = .ok b := by
  cases x with
  | error e => simp [error_bind]
  | ok a => simp [ok_bind]

/-! Passes over programs carry a state besides their errors -/

theorem Pass.bind_eq_ok {σ ε : Type} {x : StateT σ (Except ε) α} {f : α → StateT σ (Except ε) β} {s t : σ} {b : β} :
    (x >>= f) s = .ok (b, t) ↔ ∃ a r, x s = .ok (a, r) ∧ f a r = .ok (b, t) := by
  show Except.bind (x s) (fun p => f p.1 p.2) = _ ↔ _
  cases x s with
  | error e => simp [Except.bind]
  | ok p =>
    obtain ⟨a, r⟩ := p
    simp [Except.bind]

theorem Pass.pure_eq_ok {σ ε : Type} {a b : α} {s t : σ} :
    (pure a : StateT σ (Except ε) α) s = .ok (b, t) ↔ a = b ∧ s = t := by
  change (Except.ok (a, s) : Except ε (α × σ)) = .ok (b, t) ↔ _
  simp

theorem exists_of_mem_right {rel : α → β → Prop} {xs : List α} {ys : List β} {y : β}
    (h : List.Forall₂ rel xs ys) (mem : y ∈ ys) : ∃ x ∈ xs, rel x y := by
  induction h with
  | nil => cases mem
  | cons head _ ih =>
    obtain rfl | mem := List.mem_cons.mp mem
    · exact ⟨_, List.mem_cons_self, head⟩
    · obtain ⟨x, inside, related⟩ := ih mem
      exact ⟨x, List.mem_cons_of_mem _ inside, related⟩

theorem forall₂_zipIdx {rel : α → β → Prop} {xs : List α} {ys : List β} (h : List.Forall₂ rel xs ys) (n : Nat) :
    List.Forall₂ (fun p q => rel p.1 q.1 ∧ p.2 = q.2) (xs.zipIdx n) (ys.zipIdx n) := by
  induction h generalizing n with
  | nil => exact .nil
  | cons head _ ih => exact .cons ⟨head, rfl⟩ (ih (n + 1))

theorem forall₂_set {rel : α → β → Prop} {xs : List α} {ys : List β} (h : List.Forall₂ rel xs ys) (i : Nat)
    {x : α} {y : β} (new : rel x y) : List.Forall₂ rel (xs.set i x) (ys.set i y) := by
  induction h generalizing i with
  | nil => exact .nil
  | cons head tail ih =>
    cases i with
    | zero => exact .cons new tail
    | succ i => exact .cons head (ih i)

theorem find?_related {rel : α → β → Prop} {xs : List α} {ys : List β} {p : α → Bool} {q : β → Bool}
    (h : List.Forall₂ rel xs ys) (same : ∀ x y, rel x y → p x = q y) : Option.Rel rel (xs.find? p) (ys.find? q) := by
  induction h with
  | nil => exact .none
  | @cons x y xs ys head _ ih =>
    rw [List.find?_cons, List.find?_cons, same x y head]
    cases q y with
    | true => exact .some head
    | false => exact ih

theorem mapM_eq_ok {f : α → Eval β} {xs : List α} {ys : List β} :
    xs.mapM f = .ok ys ↔ List.Forall₂ (fun x y => f x = .ok y) xs ys := by
  induction xs generalizing ys with
  | nil => simp [pure, Except.pure, eq_comm]
  | cons x xs ih =>
    rw [List.mapM_cons, bind_eq_ok]
    constructor
    · rintro ⟨y, head, rest⟩
      obtain ⟨ys', tail, made⟩ := bind_eq_ok.mp rest
      cases made
      exact .cons head (ih.mp tail)
    · rintro (_ | ⟨head, tail⟩)
      exact ⟨_, head, bind_eq_ok.mpr ⟨_, ih.mpr tail, rfl⟩⟩

/-- A result that passes a test. -/
theorem exists_of_any {ε α : Type} {test : α → Bool} {x : Except ε α} (h : x.toOption.any test = true) : ∃ a, x = .ok a ∧ test a = true := by
  cases x with
  | error e => cases h
  | ok a => exact ⟨a, rfl, h⟩

theorem exists_of_mapM {f : α → Eval β} {xs : List α} {ys : List β} (h : xs.mapM f = .ok ys) {x : α} (mem : x ∈ xs) :
    ∃ y, f x = .ok y := by
  have each := mapM_eq_ok.mp h
  obtain ⟨i, below, rfl⟩ := List.mem_iff_getElem.mp mem
  exact ⟨ys.get ⟨i, each.length_eq ▸ below⟩, each.get below _⟩

/-- A traversal that counts. -/
theorem mapM_zipIdx {f : α × Nat → Eval β} {xs : List α} {ys : List β} (h : xs.zipIdx.mapM f = .ok ys) :
    ys.length = xs.length ∧ ∀ j y, ys[j]? = some y → ∃ x, xs[j]? = some x ∧ f (x, j) = .ok y := by
  have each := mapM_eq_ok.mp h
  have count : ys.length = xs.length := by rw [← each.length_eq, List.length_zipIdx]
  refine ⟨count, fun j y there => ?_⟩
  obtain ⟨below, rfl⟩ := List.getElem?_eq_some_iff.mp there
  have below' : j < xs.length := count ▸ below
  have here := each.get (by rwa [List.length_zipIdx]) below
  simp only [List.get_eq_getElem, List.getElem_zipIdx, Nat.zero_add] at here
  exact ⟨xs[j], List.getElem?_eq_getElem below', here⟩

/-- A traversal with `f` comes to `x`: it has values for all that stands before. -/
def Reaches (f : α → Eval β) (xs : List α) (x : α) : Prop :=
  ∃ before after done, xs = before ++ x :: after ∧ before.mapM f = .ok done

/-- A fold with `f` comes to `x` in the state `c`. -/
def FoldReaches (f : γ → α → Eval γ) (start : γ) (xs : List α) (x : α) (c : γ) : Prop :=
  ∃ before after, xs = before ++ x :: after ∧ before.foldlM f start = .ok c

theorem Reaches.mem {f : α → Eval β} {xs : List α} {x : α} (h : Reaches f xs x) : x ∈ xs := by
  obtain ⟨before, after, done, rfl, _⟩ := h
  exact List.mem_append_right before List.mem_cons_self

theorem FoldReaches.mem {f : γ → α → Eval γ} {start c : γ} {xs : List α} {x : α}
    (h : FoldReaches f start xs x c) : x ∈ xs := by
  obtain ⟨before, after, rfl, _⟩ := h
  exact List.mem_append_right before List.mem_cons_self

theorem Reaches.head {f : α → Eval β} (x : α) (xs : List α) : Reaches f (x :: xs) x := ⟨[], xs, [], rfl, rfl⟩

theorem Reaches.tail {f : α → Eval β} {x y : α} {xs : List α} {b : β} (first : f x = .ok b) (h : Reaches f xs y) :
    Reaches f (x :: xs) y := by
  obtain ⟨before, after, done, rfl, ran⟩ := h
  exact ⟨x :: before, after, b :: done, rfl, mapM_eq_ok.mpr (.cons first (mapM_eq_ok.mp ran))⟩

theorem FoldReaches.head {f : γ → α → Eval γ} (start : γ) (x : α) (xs : List α) : FoldReaches f start (x :: xs) x start :=
  ⟨[], xs, rfl, rfl⟩

theorem FoldReaches.tail {f : γ → α → Eval γ} {start next c : γ} {x y : α} {xs : List α} (first : f start x = .ok next)
    (h : FoldReaches f next xs y c) : FoldReaches f start (x :: xs) y c := by
  obtain ⟨before, after, rfl, ran⟩ := h
  exact ⟨x :: before, after, rfl, bind_eq_ok.mpr ⟨next, first, ran⟩⟩

/-- One more step at the end. -/
theorem iterate_succ_last {step : Nat → γ → Eval γ} {n i : Nat} {s t u : γ} (h : iterate step n i s = .ok t)
    (last : step (i + n) t = .ok u) : iterate step (n + 1) i s = .ok u := by
  induction n generalizing i s with
  | zero =>
    cases h
    exact bind_eq_ok.mpr ⟨u, last, rfl⟩
  | succ n ih =>
    obtain ⟨s', first, rest⟩ := bind_eq_ok.mp h
    refine bind_eq_ok.mpr ⟨s', first, ih rest ?_⟩
    rwa [Nat.add_assoc, Nat.add_comm 1 n]

/-- If `x` has a value, `y` has a related one; for `both`, also the other way round. -/
structure Follows (both : Prop) (rel : α → β → Prop) (x : Eval α) (y : Eval β) : Prop where
  forth : ∀ a, x = .ok a → ∃ b, y = .ok b ∧ rel a b
  back : both → ∀ b, y = .ok b → ∃ a, x = .ok a ∧ rel a b

namespace Follows

variable {rel : α → β → Prop} {next : γ → δ → Prop}

theorem ok {a : α} {b : β} (related : rel a b) : Follows both rel (.ok a) (.ok b) where
  forth := by
    intro a' h
    cases h
    exact ⟨b, rfl, related⟩
  back := by
    intro _ b' h
    cases h
    exact ⟨a, rfl, related⟩

theorem error (e e' : EvalError) : Follows both rel (.error e) (.error e') where
  forth := fun _ h => nomatch h
  back := fun _ _ h => nomatch h

/-- Without a way back nothing is asked of an evaluation that fails. -/
theorem of_error (e : EvalError) (y : Eval β) : Follows False rel (.error e) y where
  forth := fun _ h => nomatch h
  back := False.elim

theorem refl {rel : α → α → Prop} {x : Eval α} (related : ∀ a, x = .ok a → rel a a) : Follows both rel x x where
  forth := fun a h => ⟨a, h, related a h⟩
  back := fun _ a h => ⟨a, h, related a h⟩

theorem imp {rel' : α → β → Prop} {x : Eval α} {y : Eval β} (h : Follows both rel x y)
    (weaker : ∀ a b, x = .ok a → y = .ok b → rel a b → rel' a b) : Follows both rel' x y where
  forth := by
    intro a hx
    obtain ⟨b, hy, related⟩ := h.forth a hx
    exact ⟨b, hy, weaker a b hx hy related⟩
  back := by
    intro way b hy
    obtain ⟨a, hx, related⟩ := h.back way b hy
    exact ⟨a, hx, weaker a b hx hy related⟩

theorem bind {x : Eval α} {y : Eval β} {f : α → Eval γ} {g : β → Eval δ} (start : Follows both rel x y)
    (rest : ∀ a b, x = .ok a → y = .ok b → rel a b → Follows both next (f a) (g b)) :
    Follows both next (x >>= f) (y >>= g) where
  forth := by
    intro c h
    obtain ⟨a, hx, hf⟩ := bind_eq_ok.mp h
    obtain ⟨b, hy, related⟩ := start.forth a hx
    obtain ⟨d, hg, related'⟩ := (rest a b hx hy related).forth c hf
    exact ⟨d, bind_eq_ok.mpr ⟨b, hy, hg⟩, related'⟩
  back := by
    intro way d h
    obtain ⟨b, hy, hg⟩ := bind_eq_ok.mp h
    obtain ⟨a, hx, related⟩ := start.back way b hy
    obtain ⟨c, hf, related'⟩ := (rest a b hx hy related).back way d hg
    exact ⟨c, bind_eq_ok.mpr ⟨a, hx, hf⟩, related'⟩

/-- What is made of the values of one side is related to the values of the other. -/
theorem map_left {f : α → γ} {x : Eval α} {y : Eval β} {next : γ → β → Prop} (h : Follows both rel x y)
    (more : ∀ a b, rel a b → next (f a) b) : Follows both next (do .ok (f (← x))) y := by
  have whole : Follows both next (do .ok (f (← x))) (y >>= .ok) := h.bind fun a b _ _ related => .ok (more a b related)
  rwa [show (y >>= .ok) = y from bind_pure y] at whole

theorem map_right {g : β → δ} {x : Eval α} {y : Eval β} {next : α → δ → Prop} (h : Follows both rel x y)
    (more : ∀ a b, rel a b → next a (g b)) : Follows both next x (do .ok (g (← y))) := by
  have whole : Follows both next (x >>= .ok) (do .ok (g (← y))) := h.bind fun a b _ _ related => .ok (more a b related)
  rwa [show (x >>= .ok) = x from bind_pure x] at whole

theorem ite {c : Prop} [Decidable c] {x x' : Eval α} {y y' : Eval β} (yes : c → Follows both rel x y)
    (no : ¬ c → Follows both rel x' y') : Follows both rel (if c then x else x') (if c then y else y') := by
  by_cases h : c
  · rw [if_pos h, if_pos h]
    exact yes h
  · rw [if_neg h, if_neg h]
    exact no h

/-- Two evaluations that follow each other with equal values differ at most in the error. -/
theorem toOption_eq {x y : Eval α} (h : Follows True Eq x y) : x.toOption = y.toOption := by
  cases x with
  | ok a =>
    obtain ⟨b, hy, rfl⟩ := h.forth a rfl
    rw [hy]
  | error e =>
    cases y with
    | error e' => rfl
    | ok b =>
      obtain ⟨a, hx, _⟩ := h.back trivial b rfl
      cases hx

/-- The comparison at an element may use that both traversals come to it. -/
theorem mapM_reached {f : α → Eval γ} {g : β → Eval δ} {xs : List α} {ys : List β}
    (each : List.Forall₂ (fun a b => Reaches f xs a → Reaches g ys b → Follows both next (f a) (g b)) xs ys) :
    Follows both (List.Forall₂ next) (xs.mapM f) (ys.mapM g) := by
  induction xs generalizing ys with
  | nil =>
    cases each
    exact ok .nil
  | cons x xs ih =>
    obtain _ | ⟨head, tail⟩ := each
    rw [List.mapM_cons, List.mapM_cons]
    refine (head (.head _ _) (.head _ _)).bind fun c d hf hg first => ?_
    refine (ih (tail.imp fun a b rest reached reached' => rest (reached.tail hf) (reached'.tail hg))).bind ?_
    exact fun cs ds _ _ others => ok (.cons first others)

theorem mapM {f : α → Eval γ} {g : β → Eval δ} {xs : List α} {ys : List β}
    (each : List.Forall₂ (fun a b => Follows both next (f a) (g b)) xs ys) :
    Follows both (List.Forall₂ next) (xs.mapM f) (ys.mapM g) :=
  mapM_reached (each.imp fun _ _ h _ _ => h)

theorem foldlM_reached {f : γ → α → Eval γ} {g : δ → β → Eval δ} {xs : List α} {ys : List β} {c : γ} {d : δ}
    (each : List.Forall₂ (fun a b => ∀ c' d', FoldReaches f c xs a c' → FoldReaches g d ys b d' → next c' d' →
      Follows both next (f c' a) (g d' b)) xs ys)
    (start : next c d) : Follows both next (xs.foldlM f c) (ys.foldlM g d) := by
  induction xs generalizing ys c d with
  | nil =>
    cases each
    exact ok start
  | cons x xs ih =>
    obtain _ | ⟨head, tail⟩ := each
    rw [List.foldlM_cons, List.foldlM_cons]
    refine (head c d (.head _ _ _) (.head _ _ _) start).bind fun c' d' hf hg related => ih ?_ related
    exact tail.imp fun a b rest c'' d'' reached reached' => rest c'' d'' (reached.tail hf) (reached'.tail hg)

theorem foldlM {f : γ → α → Eval γ} {g : δ → β → Eval δ} {xs : List α} {ys : List β} {c : γ} {d : δ}
    (each : List.Forall₂ (fun a b => ∀ c d, next c d → Follows both next (f c a) (g d b)) xs ys)
    (start : next c d) : Follows both next (xs.foldlM f c) (ys.foldlM g d) :=
  foldlM_reached (each.imp fun _ _ h c d _ _ => h c d) start

/-- The relation may depend on how many steps are done. -/
theorem iterate {step : Nat → γ → Eval γ} {step' : Nat → δ → Eval δ} {inv : Nat → γ → δ → Prop} {n i : Nat}
    {c : γ} {d : δ} (start : inv i c d)
    (each : ∀ j c d, i ≤ j → j < i + n → inv j c d → Follows both (inv (j + 1)) (step j c) (step' j d)) :
    Follows both (inv (i + n)) (ArrayKernels.iterate step n i c) (ArrayKernels.iterate step' n i d) := by
  induction n generalizing i c d with
  | zero => exact ok start
  | succ n ih =>
    rw [ArrayKernels.iterate, ArrayKernels.iterate]
    refine (each i c d (Nat.le_refl i) (by omega) start).bind fun c' d' _ _ related => ?_
    have rest := ih related fun j c d lower upper => each j c d (by omega) (by omega)
    rwa [Nat.add_assoc, Nat.add_comm 1 n] at rest

theorem collect {f : Nat → Eval γ} {g : Nat → Eval δ} {n : Nat}
    (each : ∀ t, Reaches f (List.range n) t → Reaches g (List.range n) t → Follows both next (f t) (g t)) :
    Follows both (List.Forall₂ next) (ArrayKernels.collect f n) (ArrayKernels.collect g n) := by
  rw [collect_eq_mapM, collect_eq_mapM]
  exact mapM_reached (List.forall₂_same.mpr fun t _ => each t)

theorem scanFrom {step : Nat → γ → Eval γ} {step' : Nat → δ → Eval δ} {inv : Nat → γ → δ → Prop} {n i : Nat}
    {c : γ} {d : δ} (start : inv i c d)
    (each : ∀ j c d, i ≤ j → j < i + n → inv j c d → Follows both (inv (j + 1)) (step j c) (step' j d))
    (weaker : ∀ j c d, inv j c d → next c d) :
    Follows both (List.Forall₂ next) (ArrayKernels.scanFrom step n i c) (ArrayKernels.scanFrom step' n i d) := by
  let inv' (j : Nat) (p : γ × List γ) (q : δ × List δ) : Prop := inv j p.1 q.1 ∧ List.Forall₂ next p.2 q.2
  have steps : Follows both (inv' (i + n))
      (ArrayKernels.iterate (fun i (p : γ × List γ) => do let next ← step i p.1; .ok (next, next :: p.2)) n i (c, []))
      (ArrayKernels.iterate (fun i (p : δ × List δ) => do let next ← step' i p.1; .ok (next, next :: p.2)) n i (d, [])) := by
    refine iterate ⟨start, .nil⟩ fun j p q lower upper related => ?_
    exact (each j p.1 q.1 lower upper related.1).bind fun c' d' _ _ after =>
      ok ⟨after, .cons (weaker _ _ _ after) related.2⟩
  exact steps.bind fun p q _ _ related => ok (List.rel_reverse related.2)

end Follows

end ArrayKernels
