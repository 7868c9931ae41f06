import ArrayKernels.Proofs.BindingOrder

/-! The calls that a sweep makes for the bodies in a statement. Each body is given away once, in a scope that opens from that of the
statement, so that whatever does as well on these bodies does as well on the statement. What leaves the bodies leaves the statement,
and the replacements that they take are all that it takes. -/
namespace ArrayKernels

/-- Every outcome of the first step is one of the second. It takes at most `n` replacements and gives what is asked for. -/
def Tracks {α : Type} (n : Nat) (gives : α → Prop) (m m' : Simplify α) : Prop :=
  ∀ p r q, m p = .ok (r, q) → m' p = .ok (r, q) ∧ q.fired ≤ p.fired + n ∧ gives r

namespace Tracks

variable {α β : Type} {m m' : Simplify α} {f f' : α → Simplify β} {n n' : Nat} {gives : α → Prop} {last : β → Prop}

theorem pure {r : α} (given : gives r) : Tracks 0 gives (pure r) (pure r) := by
  intro p r q ran
  obtain ⟨rfl, rfl⟩ := Pass.pure_eq_ok.mp ran
  exact ⟨ran, Nat.le_refl _, given⟩

theorem throw (e : SimplifyError) : Tracks n gives (throw e) (throw e) := by
  intro p r q ran
  cases ran

theorem bind (first : Tracks n gives m m') (second : ∀ {r}, gives r → Tracks n' last (f r) (f' r)) :
    Tracks (n + n') last (m >>= f) (m' >>= f') := by
  intro p r q ran
  obtain ⟨x, between, ran, ran'⟩ := Pass.bind_eq_ok.mp ran
  obtain ⟨same, cost, given⟩ := first _ _ _ ran
  obtain ⟨same', cost', given'⟩ := second given _ _ _ ran'
  exact ⟨Pass.bind_eq_ok.mpr ⟨x, between, same, same'⟩, by omega, given'⟩

end Tracks

/-- What leaves is as asked for. -/
def Hoists {α : Type} (fine : Stm → Prop) (r : List Stm × α) : Prop := ∀ stm ∈ r.1, fine stm

theorem Hoists.append {α β γ : Type} {fine : Stm → Prop} {r : List Stm × α} {r' : List Stm × β} (h : Hoists fine r) (h' : Hoists fine r')
    (x : γ) : Hoists fine (r.1 ++ r'.1, x) := List.forall_mem_append.mpr ⟨h, h'⟩

/-- A step after which the same statements leave. -/
theorem Tracks.wraps {α β : Type} {n : Nat} {fine : Stm → Prop} {m m' : Simplify (List Stm × α)}
    {f : List Stm × α → Simplify (List Stm × β)} (first : Tracks n (Hoists fine) m m') (keeps : ∀ r, ∃ x, f r = Pure.pure (r.1, x)) :
    Tracks n (Hoists fine) (m >>= f) (m' >>= f) := by
  have after {r : List Stm × α} (hoists : Hoists fine r) : Tracks 0 (Hoists fine) (f r) (f r) := by
    obtain ⟨x, same⟩ := keeps r
    rw [same]
    exact .pure hoists
  exact first.bind after

section
variable (inner inner' : BodySimplifier) (fine : Stm → Prop)

/-- In the scopes that open from this one, the second simplifier does on the body what the first does. It replaces no more than the body
has ports, and what leaves the body is as asked for. -/
def Serves (scope : SymbolTable) (body : Body) : Prop :=
  ∀ scope', scope.Opens scope' → ∀ blocker, Tracks body.ports (Hoists fine) (inner scope' blocker body) (inner' scope' blocker body)

end

section
variable {s : Simplifier} {inner inner' : BodySimplifier} {fine : Stm → Prop} {scope scope' : SymbolTable}

theorem Serves.opens {body : Body} (h : Serves inner inner' fine scope body) (more : scope.Opens scope') :
    Serves inner inner' fine scope' body := fun scope' opens => h scope' (more.trans opens)

namespace Simplifier

theorem lambdaWith_tracks {op : Lambda} (h : Serves inner inner' fine scope op.body) (blocker : Blocker) :
    Tracks op.body.ports (Hoists fine) (lambdaWith inner scope blocker op) (lambdaWith inner' scope blocker op) :=
  (h _ ((SymbolTable.Opens.refl scope).bindParams _) _).wraps fun _ => ⟨_, rfl⟩

theorem mapScope_opens (scope : SymbolTable) (k : MapKernel) : scope.Opens (mapScope scope k) := by
  have indexed (space : List (Name × Operand)) {t : SymbolTable} (h : scope.Opens t) :
      scope.Opens (space.foldl (fun t d => t.bindIndex d.1 d.2) t) := by
    induction space generalizing t with
    | nil => exact h
    | cons d space ih => exact ih (h.bindIndex d.1 d.2)
  refine (indexed k.space ((SymbolTable.Opens.refl scope).bindIndex _ _)).extend fun b mem => ?_
  obtain ⟨i, _, rfl⟩ := List.mem_map.mp mem
  rfl

theorem groupScope_opens (scope : SymbolTable) (size : LaunchSize) (space : ThreadNames) : scope.Opens (groupScope scope size space) :=
  (((SymbolTable.Opens.refl scope).bindIndex _ _).bindIndex _ _).bindIndex _ _

theorem sweepMap_tracks {k : MapKernel} (h : Serves inner inner' fine scope k.body) :
    Tracks k.body.ports (Hoists fine) (s.sweepMap inner scope k) (s.sweepMap inner' scope k) :=
  (h _ (mapScope_opens scope _) _).wraps fun _ => ⟨_, rfl⟩

theorem groupStm_tracks {stm : GroupStm} (h : ∀ b ∈ stm.bodies, Serves inner inner' fine scope b) (bound : NameSet) :
    Tracks (portsInBodies stm.bodies) (fun r => Hoists fine r ∧ scope.Opens r.2.2) (s.groupStm inner scope bound stm)
      (s.groupStm inner' scope bound stm) := by
  have none {α : Type} (x : α) : Hoists fine ([], x) := fun _ mem => absurd mem List.not_mem_nil
  cases stm with
  | split => exact .pure ⟨none _, (SymbolTable.Opens.refl scope).extend splitEntries_plain⟩
  | thread pat only body =>
    refine (h body List.mem_cons_self _ (.refl scope) _).bind fun hoists => .pure ⟨hoists, ?_⟩
    exact (SymbolTable.Opens.refl scope).extend threadEntries_plain
  | reduce pat width op inputs =>
    refine (lambdaWith_tracks (h op.body List.mem_cons_self) _).bind fun {r} hoists => ?_
    obtain ⟨hoisted, op'⟩ := r
    dsimp only
    split
    · exact .pure ⟨none _, (SymbolTable.Opens.refl scope).bindParams _⟩
    · exact .throw _

theorem groupStms_tracks {stms : List GroupStm} (h : ∀ b ∈ stms.flatMap GroupStm.bodies, Serves inner inner' fine scope b) (bound : NameSet) :
    Tracks (portsInBodies (stms.flatMap GroupStm.bodies)) (Hoists fine) (s.groupStms inner scope bound stms)
      (s.groupStms inner' scope bound stms) := by
  induction stms generalizing scope bound with
  | nil => exact .pure fun _ mem => absurd mem List.not_mem_nil
  | cons stm stms ih =>
    rw [List.flatMap_cons, List.forall_mem_append] at h
    obtain ⟨first, others⟩ := h
    rw [List.flatMap_cons, portsInBodies_append]
    refine (groupStm_tracks first bound).bind fun given => ?_
    obtain ⟨hoists, opens⟩ := given
    exact (ih (fun b mem => (others b mem).opens opens) _).bind fun more => .pure (hoists.append more _)

theorem kernel_tracks {k : Kernel} (h : ∀ b ∈ k.bodies, Serves inner inner' fine scope b) :
    Tracks (portsInBodies k.bodies) (Hoists fine) (s.kernel inner scope k) (s.kernel inner' scope k) := by
  have lambda {op : Lambda} (h : Serves inner inner' fine scope op.body) :
      Tracks op.body.ports (Hoists fine) (s.lambda inner scope op) (s.lambda inner' scope op) := lambdaWith_tracks h s.parallel
  cases k with
  | map k => exact (sweepMap_tracks (h k.body List.mem_cons_self)).wraps fun _ => ⟨_, rfl⟩
  | scan k =>
    obtain ⟨combine, fold⟩ := List.forall_mem_cons.mp h
    refine (lambda combine).bind fun hoists => ?_
    exact (lambda (fold _ List.mem_cons_self)).bind fun more => .pure (hoists.append more _)
  | chunked k => exact (lambda (h _ List.mem_cons_self)).wraps fun _ => ⟨_, rfl⟩
  | scatter k => exact (lambda (h _ List.mem_cons_self)).wraps fun _ => ⟨_, rfl⟩
  | group k =>
    have inside (b : Body) (mem : b ∈ k.body.stms.flatMap GroupStm.bodies) := (h b mem).opens (groupScope_opens scope (scope.resolveSize k.size) k.space)
    have swept : Tracks _ (Hoists fine) (s.groupBody inner _ k.space.names k.body) (s.groupBody inner' _ k.space.names k.body) :=
      (groupStms_tracks inside _).wraps fun _ => ⟨_, rfl⟩
    exact swept.wraps fun _ => ⟨_, rfl⟩
  | numGroups => exact .pure fun _ mem => absurd mem List.not_mem_nil
  | groupSize => exact .pure fun _ mem => absurd mem List.not_mem_nil

theorem exp_tracks {e : Exp} (h : ∀ b ∈ e.bodies, Serves inner inner' fine scope b) :
    Tracks (portsInBodies e.bodies) (Hoists fine) (s.exp inner scope e) (s.exp inner' scope e) := by
  cases e with
  | branch cond onTrue onFalse ret =>
    obtain ⟨first, second⟩ := List.forall_mem_cons.mp h
    refine (first _ (.refl scope) _).bind fun hoists => ?_
    exact (second onFalse List.mem_cons_self _ (.refl scope) _).bind fun more => .pure (hoists.append more _)
  | loop context values index bound body =>
    exact (h body List.mem_cons_self _ (((SymbolTable.Opens.refl scope).bindParams _).bindIndex _ _) _).wraps fun _ => ⟨_, rfl⟩
  | launch k => exact (kernel_tracks h).wraps fun _ => ⟨_, rfl⟩
  | operand | binary | compare | index | update | iota | replicate | reshape | rearrange | copy | alloc =>
    exact .pure fun _ mem => absurd mem List.not_mem_nil

theorem stm_tracks {st : Stm} (h : ∀ b ∈ st.exp.bodies, Serves inner inner' fine scope b) :
    Tracks (portsInBodies st.exp.bodies) (Hoists fine) (s.stm inner scope st) (s.stm inner' scope st) :=
  (exp_tracks h).wraps fun _ => ⟨_, rfl⟩

end Simplifier

end

/-! What a sweep makes of a copy -/

section
variable {rank : Name → Nat} {s : Simplifier} {inner : BodySimplifier} {scope : SymbolTable} {p q : Progress} {hoisted : List Stm}

theorem SymbolTable.Falls.le_of_resolveOperand (falls : scope.Falls rank) {v w : Name} (resolved : scope.resolveOperand (.var v) = .var w) :
    rank w ≤ rank v := by
  rw [resolveOperand] at resolved
  split at resolved
  · cases resolved
  · obtain rfl := Operand.var.inj resolved
    exact falls.follow_le _ v

theorem Simplifier.exp_descends (falls : scope.Falls rank) {v : Name} {hi : Nat} {e e' : Exp} (h : e.Descends rank v hi)
    (ran : s.exp inner scope e p = .ok ((hoisted, e'), q)) : e'.Descends rank v hi := by
  have resolved {x : Operand} {w : Name} (same : scope.resolveOperand x = .var w) : ∃ u, x = .var u ∧ rank w ≤ rank u := by
    cases x with
    | const => cases same
    | var u => exact ⟨u, rfl, falls.le_of_resolveOperand same⟩
  cases e with
  | operand x =>
    cases ran
    rcases found : scope.resolveOperand x with _ | w
    · trivial
    · obtain ⟨u, rfl, le⟩ := resolved found
      exact Nat.lt_of_le_of_lt le h
  | replicate shape x =>
    cases ran
    rcases found : scope.resolveOperand x with _ | w
    · trivial
    · obtain ⟨u, rfl, le⟩ := resolved found
      exact Nat.lt_of_le_of_lt le h
  | branch =>
    obtain ⟨_, _, _, ran⟩ := Pass.bind_eq_ok.mp ran
    obtain ⟨_, _, _, ran⟩ := Pass.bind_eq_ok.mp ran
    cases ran
    trivial
  | loop =>
    obtain ⟨_, _, _, ran⟩ := Pass.bind_eq_ok.mp ran
    cases ran
    trivial
  | launch =>
    obtain ⟨_, _, _, ran⟩ := Pass.bind_eq_ok.mp ran
    cases ran
    trivial
  | binary | compare | index | update | iota | reshape | rearrange | copy | alloc =>
    cases ran
    trivial

/-- A copy stays a copy of a lower name. -/
theorem Simplifier.stm_descends (falls : scope.Falls rank) {hi : Nat} {st st' : Stm} (h : st.Descends rank hi)
    (ran : s.stm inner scope st p = .ok ((hoisted, st'), q)) : st'.Descends rank hi := by
  obtain ⟨⟨hoisted', e⟩, between, ran, done⟩ := Pass.bind_eq_ok.mp ran
  cases done
  intro b sole
  obtain ⟨⟨context, values⟩, certs, exp⟩ := st
  simp only [SymbolTable.resolvePattern, Pattern.mk.injEq, List.map_eq_nil_iff, List.map_eq_singleton_iff] at sole
  obtain ⟨rfl, c, rfl, rfl⟩ := sole
  exact exp_descends falls (h c rfl) ran

end

end ArrayKernels
