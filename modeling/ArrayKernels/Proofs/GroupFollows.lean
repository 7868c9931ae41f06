import ArrayKernels.Proofs.KernelFollows

/-! Comparing two runs of group kernels. The statements of a group kernel run across all threads, so
that a comparison is made between two lists of environments, thread by thread. -/
namespace ArrayKernels.GroupKernel

variable {l : Likeness} {both : Prop} {env env' : Env} {T T' : Env → Env → Prop} {threads threads' : List Env}

theorem forall₂_zip {α β γ δ : Type} {rel : α → β → Prop} {rel' : γ → δ → Prop} {xs : List α} {ys : List β}
    {zs : List γ} {ws : List δ} (h : List.Forall₂ rel xs ys) (h' : List.Forall₂ rel' zs ws) :
    List.Forall₂ (fun p q => rel p.1 q.1 ∧ rel' p.2 q.2) (xs.zip zs) (ys.zip ws) := by
  induction h generalizing zs ws with
  | nil => exact .nil
  | cons head _ ih =>
    cases h' with
    | nil => exact .nil
    | cons head' tail' => exact .cons ⟨head, head'⟩ (ih tail')

theorem runThread_eq (pat : Pattern) (only : Option Operand) (run : Env → Eval (List Value)) (groupSize : Nat)
    (env : Env) (t : Nat) :
    runThread pat only run groupSize env t = (active only groupSize env t >>= fun chosen =>
      (if chosen then run env else pat.values.mapM fun b => env.blank b.ty) >>= fun values =>
        env.bindValues pat values) := by
  cases only with
  | none => rfl
  | some lane =>
    rw [runThread, active]
    cases env.size lane with
    | error e => rfl
    | ok n =>
      simp only [ok_bind]
      cases n == t % groupSize <;> rfl

theorem active_follows {lane lane' : Operand} (groupSize t : Nat)
    (h : Follows both Eq (env.size lane) (env'.size lane')) :
    Follows both Eq (active (some lane) groupSize env t) (active (some lane') groupSize env' t) :=
  h.bind fun n m _ _ same => .ok (by rw [same])

theorem thread_follows {pat pat' : Pattern} {only only' : Option Operand} {run run' : Env → Eval (List Value)}
    {groupSize : Nat} (related : List.Forall₂ T threads threads')
    (chosen : ∀ e e' t, T e e' → Follows both Eq (active only groupSize e t) (active only' groupSize e' t))
    (body : ∀ e e', ThreadFeeds pat only run groupSize threads e → ThreadFeeds pat' only' run' groupSize threads' e' →
      T e e' → Follows both (ValuesAlike l) (run e) (run' e'))
    (blank : ∀ e e' t, T e e' → active only groupSize e t = .ok false →
      Follows both (ValuesAlike l) (pat.values.mapM fun b => e.blank b.ty) (pat'.values.mapM fun b => e'.blank b.ty))
    (bound : ∀ e e' values values', T e e' → ValuesAlike l values values' →
      Follows both T' (e.bindValues pat values) (e'.bindValues pat' values')) :
    Follows both (List.Forall₂ T')
      (threads.zipIdx.mapM fun et => runThread pat only run groupSize et.1 et.2)
      (threads'.zipIdx.mapM fun et => runThread pat' only' run' groupSize et.1 et.2) := by
  refine .mapM_reached ((forall₂_zipIdx related 0).imp fun et et' h reached reached' => ?_)
  obtain ⟨e, t⟩ := et
  obtain ⟨e', t'⟩ := et'
  obtain ⟨h, same⟩ := h
  cases same
  rw [runThread_eq, runThread_eq]
  refine (chosen e e' t h).bind fun c c' decided decided' same => ?_
  subst same
  refine Follows.bind (?_ : Follows both (ValuesAlike l) _ _) fun values values' _ _ alike => bound e e' _ _ h alike
  cases c with
  | true => exact body e e' ⟨t, reached, decided⟩ ⟨t, reached', decided'⟩ h
  | false => exact blank e e' t h decided

theorem split_follows {size size' : Binder} {chunks chunks' : List Binder} {division : Division}
    {width perThread width' perThread' : Operand} {arrays arrays' : List Name} {n : Nat} {e e' : Env} (t : Nat)
    (sized : Follows both Eq (e.size width) (e'.size width'))
    (cut : Follows both Eq (e.size perThread) (e'.size perThread'))
    (named : size.name = size'.name) (chunksNamed : chunks.map Binder.name = chunks'.map Binder.name)
    (read : List.Forall₂ (fun v v' => Follows both (Value.Alike l) (e.lookup v) (e'.lookup v')) arrays arrays')
    (bound : ∀ bs bs', (∀ v ∈ bs.map Prod.fst, v ∈ size.name :: chunks.map Binder.name) →
      List.Forall₂ (fun b b' => b.1 = b'.1 ∧ b.2.Alike l b'.2) bs bs' → T' (e.bindAll bs) (e'.bindAll bs')) :
    Follows both T' (split size chunks division width perThread arrays n e t)
      (split size' chunks' division width' perThread' arrays' n e' t) := by
  refine sized.bind fun w _ _ _ same => ?_
  subst same
  refine cut.bind fun c _ _ _ same => ?_
  subst same
  have chunksNamed : List.Forall₂ (fun b b' : Binder => b.name = b'.name) chunks chunks' := by
    rw [← List.forall₂_eq_eq_eq] at chunksNamed
    exact List.forall₂_map_right_iff.mp (List.forall₂_map_left_iff.mp chunksNamed)
  refine Follows.bind (?_ : Follows both (List.Forall₂ fun b b' => b.1 = b'.1 ∧ b.2.Alike l b'.2) _ _)
    fun parts parts' cut _ alike => .ok (bound _ _ ?_ (.cons ⟨named, count_alike _⟩ alike))
  · refine .mapM ((forall₂_zip chunksNamed read).imp fun ca ca' h => ?_)
    refine (Env.array_follows h.2).bind fun a b _ _ alike => ?_
    exact (ArrayValue.takeRows_follows alike _).bind fun a b _ _ alike => .ok ⟨h.1, .array alike⟩
  · rw [List.map_cons, List.forall_mem_cons]
    refine ⟨List.mem_cons_self, fun v mem => List.mem_cons_of_mem _ ?_⟩
    obtain ⟨b, part, rfl⟩ := List.mem_map.mp mem
    obtain ⟨ca, pair, made⟩ := exists_of_mem_right (mapM_eq_ok.mp cut) part
    obtain ⟨a, _, made⟩ := bind_eq_ok.mp made
    obtain ⟨rows, _, made⟩ := bind_eq_ok.mp made
    cases made
    exact List.mem_map_of_mem (List.of_mem_zip pair).1

/-! Reductions -/

theorem blocks_related {α β : Type} {rel : α → β → Prop} {xs : List α} {ys : List β} (h : List.Forall₂ rel xs ys)
    (size n : Nat) : List.Forall₂ (List.Forall₂ rel) (blocks size n xs) (blocks size n ys) := by
  induction n generalizing xs ys with
  | zero => exact .nil
  | succ n ih => exact .cons (List.forall₂_take size h) (ih (List.forall₂_drop size h))

theorem groups_related (related : List.Forall₂ T threads threads') (groupSize : Nat) :
    List.Forall₂ (List.Forall₂ T) (groups groupSize threads) (groups groupSize threads') := by
  rw [groups, groups, related.length_eq]
  exact blocks_related related _ _

/-- The operands and names of the inputs of a reduction have values that are alike. -/
def InputsFollow (both : Prop) (l : Likeness) (env env' : Env) : List (Operand × Name) → List (Operand × Name) → Prop :=
  List.Forall₂ fun i i' => Follows both (Value.Alike l) (env.operand i.1) (env'.operand i'.1) ∧
    Follows both (Value.Alike l) (env.lookup i.2) (env'.lookup i'.2)

theorem reduceArgs_follows {inputs inputs' : List (Operand × Name)} {accs accs' : List Value} (lane : Nat)
    (h : InputsFollow both l env env' inputs inputs') (alike : ValuesAlike l accs accs') :
    Follows both (ValuesAlike l) (reduceArgs inputs accs env lane) (reduceArgs inputs' accs' env' lane) := by
  refine (Follows.mapM (h.imp fun _ _ follows => follows.2)).bind fun values values' _ _ read => .ok ?_
  exact List.rel_append (.cons (count_alike lane) alike) read

section
variable {pat pat' : Pattern} {width width' : Operand} {inputs inputs' : List (Operand × Name)}
  {op op' : Env → List Value → Eval (List Value)} {groupSize : Nat}

theorem reduceGroup_follows {members members' : List Env} (related : List.Forall₂ T members members')
    (reached : Reaches (reduceGroup width inputs op) (groups groupSize threads) members)
    (reached' : Reaches (reduceGroup width' inputs' op') (groups groupSize threads') members')
    (sized : ∀ e e', T e e' → Follows both Eq (e.size width) (e'.size width'))
    (read : ∀ e e', T e e' → InputsFollow both l e e' inputs inputs')
    (body : ∀ e e' args args', ReduceFeeds width inputs op groupSize threads e args →
      ReduceFeeds width' inputs' op' groupSize threads' e' args' → T e e' → ValuesAlike l args args' →
      Follows both (ValuesAlike l) (op e args) (op' e' args')) :
    Follows both (ValuesAlike l) (reduceGroup width inputs op members) (reduceGroup width' inputs' op' members') := by
  cases related with
  | nil => exact .ok .nil
  | @cons first first' rest rest' head tail =>
    refine (sized first first' head).bind fun n _ counted counted' same => ?_
    subst same
    refine (Follows.mapM ((read first first' head).imp fun _ _ h => h.1)).bind fun start start' begun begun' started => ?_
    have lanes : List.Forall₂ T ((first :: rest).take n) ((first' :: rest').take n) :=
      List.forall₂_take n (.cons head tail)
    refine .foldlM_reached ((forall₂_zipIdx lanes 0).imp fun el el' h accs accs' come come' alike => ?_) started
    obtain ⟨e, lane⟩ := el
    obtain ⟨e', lane'⟩ := el'
    obtain ⟨h, same⟩ := h
    cases same
    refine (reduceArgs_follows lane (read e e' h) alike).bind fun args args' made made' given => ?_
    exact body e e' args args' ⟨first, rest, n, start, lane, accs, reached, counted, begun, come, made⟩
      ⟨first', rest', n, start', lane, accs', reached', counted', begun', come', made'⟩ h given

theorem reduce_follows (related : List.Forall₂ T threads threads')
    (sized : ∀ e e', T e e' → Follows both Eq (e.size width) (e'.size width'))
    (read : ∀ e e', T e e' → InputsFollow both l e e' inputs inputs')
    (body : ∀ e e' args args', ReduceFeeds width inputs op groupSize threads e args →
      ReduceFeeds width' inputs' op' groupSize threads' e' args' → T e e' → ValuesAlike l args args' →
      Follows both (ValuesAlike l) (op e args) (op' e' args'))
    (bound : ∀ e e' values values', T e e' → ValuesAlike l values values' →
      Follows both T' (e.bindValues pat values) (e'.bindValues pat' values')) :
    Follows both (List.Forall₂ T') (reduce pat width inputs op groupSize threads)
      (reduce pat' width' inputs' op' groupSize threads') := by
  have members := groups_related related groupSize
  refine Follows.bind (?_ : Follows both (List.Forall₂ (ValuesAlike l)) _ _) fun reduced reduced' _ _ alike => ?_
  · exact .mapM_reached (members.imp fun group group' h reached reached' =>
      reduceGroup_follows h reached reached' sized read body)
  · refine Follows.bind (?_ : Follows both (List.Forall₂ (List.Forall₂ T')) _ _) fun next next' _ _ related => ?_
    · exact .mapM ((forall₂_zip members alike).imp fun mr mr' h =>
        .mapM (h.1.imp fun e e' related => bound e e' _ _ related h.2))
    · exact .ok (List.rel_flatten related)

end

/-! Results -/

/-- Results whose operands have values that are alike in related threads. -/
inductive ResultFollows (both : Prop) (l : Likeness) (T : Env → Env → Prop) (env env' : Env) :
    GroupResult → GroupResult → Prop where
  | row {x x' : Operand} (value : ∀ e e', T e e' → Follows both (Value.Alike l) (e.operand x) (e'.operand x')) :
      ResultFollows both l T env env' (.row x) (.row x')
  | write {i i' x x' : Operand} (index : ∀ e e', T e e' → Follows both Eq (e.word i) (e'.word i'))
      (value : ∀ e e', T e e' → Follows both (Value.Alike l) (e.operand x) (e'.operand x')) :
      ResultFollows both l T env env' (.write i x) (.write i' x')
  | chunks (division : Division) {width width' perThread perThread' : Operand} {array array' : Name}
      (sized : Follows both Eq (env.size width) (env'.size width'))
      (cut : Follows both Eq (env.size perThread) (env'.size perThread'))
      (read : ∀ e e', T e e' → Follows both (ArrayValue.Alike l) (e.array array) (e'.array array')) :
      ResultFollows both l T env env' (.chunks division width perThread array) (.chunks division width' perThread' array')

/-- Types of results with the same element type, row shape and blank value. -/
structure ReturnFollows (both : Prop) (l : Likeness) (env env' : Env) (ty ty' : Ty) : Prop where
  elem : ty.elem = ty'.elem
  rowShape : env.rowShape ty = env'.rowShape ty'
  blank : Follows both (Value.Alike l) (env.blank ty) (env'.blank ty')

theorem threadChunk_follows {division : Division} {width perThread n t : Nat} {array array' : Name} {e e' : Env}
    (read : Follows both (ArrayValue.Alike l) (e.array array) (e'.array array')) :
    Follows both (fun c c' => c.1 = c'.1 ∧ c.2.Alike l c'.2) (threadChunk division width perThread array n e t)
      (threadChunk division width perThread array' n e' t) := by
  have whole (a b : ArrayValue) (alike : a.Alike l b) : Follows both (fun c c' => c.1 = c'.1 ∧ c.2.Alike l c'.2)
      (if t = 0 ∧ a.shape = [] then .error .storage else .ok (division.rows t n perThread width, a))
      (if t = 0 ∧ b.shape = [] then .error .storage else .ok (division.rows t n perThread width, b)) := by
    rw [alike.shape]
    exact .ite (fun _ => .error _ _) fun _ => .ok ⟨rfl, alike⟩
  refine read.bind fun a b _ _ alike => ?_
  rw [alike.rows_eq]
  refine .ite (fun _ => ?_) fun _ => whole a b alike
  exact (ArrayValue.takeRows_follows alike _).bind fun a b _ _ => whole a b

theorem assemble_follows {ty ty' : Ty} {r r' : GroupResult} (related : List.Forall₂ T threads threads')
    (h : ResultFollows both l T env env' r r') (ret : ReturnFollows both l env env' ty ty') :
    Follows both (Value.Alike l) (assemble env threads ty r) (assemble env' threads' ty' r') := by
  cases h with
  | row value =>
    refine (Follows.mapM (related.imp value)).bind fun rows rows' _ _ alike => ?_
    have first : rows.head?.map Value.shape = rows'.head?.map Value.shape := by
      cases alike with
      | nil => rfl
      | cons head _ => simp only [List.head?_cons, Option.map_some, head.shape_eq]
    rw [first, ret.rowShape]
    refine (resultElem_follows ret.elem).bind fun e _ _ _ same => ?_
    subst same
    exact (ArrayValue.ofRows_follows alike (.inl rfl)).bind fun a b _ _ alike => .ok (.array alike)
  | write index value =>
    refine ret.blank.bind fun x y _ _ alike => ?_
    cases alike with
    | scalar c => exact .error _ _
    | mem alike => exact .error _ _
    | array alike =>
      refine Follows.bind (?_ : Follows both (ArrayValue.Alike l) _ _) fun a b _ _ alike => .ok (.array alike)
      refine .foldlM (related.imp fun e e' h a b alike => ?_) alike
      refine (index e e' h).bind fun i _ _ _ same => ?_
      subst same
      exact ArrayValue.writeRow_follows alike i (value e e' h) _
  | chunks division sized cut read =>
    refine sized.bind fun w _ _ _ same => ?_
    subst same
    refine cut.bind fun c _ _ _ same => ?_
    subst same
    refine Follows.bind (?_ : Follows both (List.Forall₂ fun c c' => c.1 = c'.1 ∧ c.2.Alike l c'.2) _ _)
      fun chunks chunks' _ _ alike => ?_
    · refine .mapM ((forall₂_zipIdx related 0).imp fun et et' h => ?_)
      rw [h.2, related.length_eq]
      exact threadChunk_follows (read _ _ h.1)
    · have first : (chunks.head?.map fun c => c.2.shape.tail) = chunks'.head?.map fun c => c.2.shape.tail := by
        cases alike with
        | nil => rfl
        | cons head _ => simp only [List.head?_cons, Option.map_some, head.2.shape]
      simp only [first, ret.rowShape]
      refine (resultElem_follows ret.elem).bind fun e _ _ _ same => ?_
      subst same
      refine joinChunks_follows e _ w (List.forall₂_map_left_iff.mpr (List.forall₂_map_right_iff.mpr ?_))
      exact alike.imp fun c c' h => ⟨h.1, .array h.2⟩

theorem results_follow {returns returns' : List Ty} {result result' : List GroupResult}
    (related : List.Forall₂ T threads threads') (types : List.Forall₂ (ReturnFollows both l env env') returns returns')
    (h : List.Forall₂ (ResultFollows both l T env env') result result') :
    Follows both (ValuesAlike l) (results env threads returns result) (results env' threads' returns' result') := by
  rw [results, results, h.length_eq, types.length_eq]
  refine .ite (fun _ => ?_) fun _ => .error _ _
  exact .mapM ((forall₂_zip h types).imp fun rt rt' h => assemble_follows related h.1 h.2)

end ArrayKernels.GroupKernel
