import ArrayKernels.Proofs.SweepScoping
import Mathlib.Data.List.Nodup

/-! Simplification and memory placements. A binder that stays a binder of its kind keeps its placement, at every depth and over any
number of sweeps. A parameter that is given parts of an array may however turn into a statement that computes
them, and that statement has no placement. -/
namespace ArrayKernels

/-- A binder at its place in a program. It is `fed` if it is an input of a map kernel, or a parameter of an operator that
stands for the elements or the chunks of an array. -/
structure Seat where
  binder : Binder
  fed : Bool

/-- The seats of binders of one kind. -/
def seatsOf (fed : Bool) (binders : List Binder) : List Seat := binders.map (⟨·, fed⟩)

mutual

def Exp.seats : Exp → List Seat
  | .branch _ onTrue onFalse _ => onTrue.seats ++ onFalse.seats
  | .loop context values _ _ body => seatsOf false ((context ++ values).map Prod.fst) ++ body.seats
  | .launch kernel => kernel.seats
  | _ => []

def seatsInStms : List Stm → List Seat
  | [] => []
  | ⟨pat, _, exp⟩ :: stms => seatsOf false pat.binders ++ exp.seats ++ seatsInStms stms

def Body.seats : Body → List Seat
  | ⟨stms, _⟩ => seatsInStms stms

/-- The parameters behind the leading ones are fed. -/
def Lambda.seats (leading : Nat) : Lambda → List Seat
  | ⟨params, body, _⟩ => seatsOf false (params.take leading) ++ seatsOf true (params.drop leading) ++ body.seats

def Kernel.seats : Kernel → List Seat
  | .map ⟨_, _, _, _, inputs, _, body⟩ => seatsOf true (inputs.map MapInput.param) ++ body.seats
  | .scan ⟨_, _, _, combine, fold, neutral, _⟩ => combine.seats combine.params.length ++ fold.seats (1 + neutral.length)
  | .chunked ⟨_, _, _, _, op, _⟩ => op.seats 2
  | .scatter ⟨_, _, op, _, _⟩ => op.seats 1
  | .group ⟨_, _, _, _, body⟩ => body.seats
  | .numGroups => []
  | .groupSize => []

def GroupStm.seats : GroupStm → List Seat
  | .split size chunks _ _ _ _ => seatsOf false (size :: chunks)
  | .thread pat _ body => seatsOf false pat.binders ++ body.seats
  | .reduce pat _ op _ => seatsOf false pat.binders ++ op.seats op.params.length

def seatsInGroupStms : List GroupStm → List Seat
  | [] => []
  | stm :: stms => stm.seats ++ seatsInGroupStms stms

def GroupBody.seats : GroupBody → List Seat
  | ⟨stms, _⟩ => seatsInGroupStms stms

end

def Stm.seats (stm : Stm) : List Seat := seatsOf false stm.pat.binders ++ stm.exp.seats

/-- All binders of a function. -/
def FunDecl.seats (f : FunDecl) : List Seat := seatsOf false f.params ++ f.body.seats

theorem seatsInStms_eq (stms : List Stm) : seatsInStms stms = stms.flatMap Stm.seats := by
  induction stms with
  | nil => rw [seatsInStms, List.flatMap_nil]
  | cons stm stms ih =>
    obtain ⟨pat, certs, exp⟩ := stm
    rw [seatsInStms, ih, List.flatMap_cons, Stm.seats]

theorem seatsInGroupStms_eq (stms : List GroupStm) : seatsInGroupStms stms = stms.flatMap GroupStm.seats := by
  induction stms with
  | nil => rw [seatsInGroupStms, List.flatMap_nil]
  | cons stm stms ih => rw [seatsInGroupStms, ih, List.flatMap_cons]

theorem Body.seats_eq (body : Body) : body.seats = seatsInStms body.stms := by
  cases body
  rw [Body.seats]

theorem Lambda.seats_eq (op : Lambda) (leading : Nat) :
    op.seats leading = seatsOf false (op.params.take leading) ++ seatsOf true (op.params.drop leading) ++ op.body.seats := by
  cases op
  rw [Lambda.seats]

namespace Kernel

theorem seats_map (k : MapKernel) : (map k).seats = seatsOf true (k.inputs.map MapInput.param) ++ k.body.seats := by
  cases k; rw [seats]

theorem seats_scan (k : ScanKernel) :
    (scan k).seats = k.combine.seats k.combine.params.length ++ k.fold.seats (1 + k.neutral.length) := by cases k; rw [seats]

theorem seats_chunked (k : ChunkedKernel) : (chunked k).seats = k.op.seats 2 := by cases k; rw [seats]

theorem seats_scatter (k : ScatterKernel) : (scatter k).seats = k.op.seats 1 := by cases k; rw [seats]

theorem seats_group (k : GroupKernel) : (group k).seats = seatsInGroupStms k.body.stms := by
  rcases k with ⟨_, _, _, _, ⟨_, _⟩⟩
  rw [seats, GroupBody.seats]

end Kernel

theorem Exp.seats_of_leaf {e : Exp} (leaf : e.isNested = false) : e.seats = [] := by
  cases e <;> first | rfl | cases leaf

/-! Code all of whose seats have a property -/

/-- Every seat has the property. -/
abbrev Seated (P : Seat → Prop) (seats : List Seat) : Prop := ∀ s ∈ seats, P s

/-- What a sweep may do to a binder: it may give it another type, bind the name of a fed one without a placement, and
bind a drawn name without a placement. -/
structure Steady (next : Nat) (P : Seat → Prop) : Prop where
  retyped : ∀ {b : Binder} {fed : Bool} (ty : Ty), P ⟨b, fed⟩ → P ⟨{ b with ty }, fed⟩
  computed : ∀ {b : Binder} (ty : Ty), P ⟨b, true⟩ → P ⟨⟨b.name, ty, none⟩, false⟩
  drawn : ∀ {v : Name} (ty : Ty), next ≤ v.tag → P ⟨⟨v, ty, none⟩, false⟩

section
variable {next : Nat} {P : Seat → Prop} {table : SymbolTable} {stm : Stm} {stms more new : List Stm} {names names' : NameSupply}

theorem seated_nil : Seated P [] := fun _ mem => absurd mem List.not_mem_nil

theorem seated_append {before after : List Seat} : Seated P (before ++ after) ↔ Seated P before ∧ Seated P after :=
  List.forall_mem_append

theorem seated_seatsOf {fed : Bool} {bs : List Binder} : Seated P (seatsOf fed bs) ↔ ∀ b ∈ bs, P ⟨b, fed⟩ := by
  rw [Seated, seatsOf, List.forall_mem_map]

theorem seated_stms : Seated P (seatsInStms stms) ↔ ∀ stm ∈ stms, Seated P stm.seats := by
  rw [seatsInStms_eq, Seated, List.forall_mem_flatMap]

theorem seated_groupStms {stms : List GroupStm} : Seated P (seatsInGroupStms stms) ↔ ∀ stm ∈ stms, Seated P stm.seats := by
  rw [seatsInGroupStms_eq, Seated, List.forall_mem_flatMap]

theorem seated_stms_cons : Seated P (seatsInStms (stm :: stms)) ↔ Seated P stm.seats ∧ Seated P (seatsInStms stms) := by
  rw [seated_stms, seated_stms, List.forall_mem_cons]

theorem seated_stms_append : Seated P (seatsInStms (stms ++ more)) ↔ Seated P (seatsInStms stms) ∧ Seated P (seatsInStms more) := by
  rw [seated_stms, seated_stms, seated_stms, List.forall_mem_append]

theorem Stm.seated_iff : Seated P stm.seats ↔ (∀ b ∈ stm.pat.binders, P ⟨b, false⟩) ∧ Seated P stm.exp.seats := by
  rw [Stm.seats, seated_append, seated_seatsOf]

theorem Lambda.seated_iff {op : Lambda} {leading : Nat} :
    Seated P (op.seats leading) ↔ (∀ b ∈ op.params.take leading, P ⟨b, false⟩) ∧ (∀ b ∈ op.params.drop leading, P ⟨b, true⟩)
      ∧ Seated P op.body.seats := by
  rw [Lambda.seats_eq, seated_append, seated_append, seated_seatsOf, seated_seatsOf, and_assoc]

/-- A statement that binds one name to an expression without bodies. -/
theorem seated_single {v : Name} {ty : Ty} {e : Exp} (leaf : e.isNested = false) (h : P ⟨⟨v, ty, none⟩, false⟩) :
    Seated P (Stm.single v ty e).seats := by
  refine Stm.seated_iff.mpr ⟨fun b mem => ?_, ?_⟩
  · obtain rfl := List.mem_singleton.mp mem
    exact h
  · change Seated P e.seats
    rw [Exp.seats_of_leaf leaf]
    exact seated_nil

/-! Rules -/

/-- A rule whose replacements have the property. -/
def Preserves (next : Nat) (P : Seat → Prop) (rule : Stm → NameSupply → Option (List Stm × NameSupply)) : Prop :=
  ∀ {stm names new names'}, rule stm names = some (new, names') → next ≤ names.next → Seated P stm.seats →
    Seated P (seatsInStms new) ∧ next ≤ names'.next

theorem Stm.seated_launch {k : Kernel} (launched : stm.exp = .launch k) (h : Seated P stm.seats) : Seated P k.seats := by
  have inside := (Stm.seated_iff.mp h).2
  rw [launched, Exp.seats] at inside
  exact inside

theorem seated_withKernel {k : Kernel} (h : Seated P stm.seats) (inside : Seated P k.seats) :
    Seated P (seatsInStms [stm.withKernel k]) := by
  refine seated_stms_cons.mpr ⟨Stm.seated_iff.mpr ⟨(Stm.seated_iff.mp h).1, ?_⟩, seated_nil⟩
  change Seated P (Exp.launch k).seats
  rw [Exp.seats]
  exact inside

theorem dropUnusedInputs_preserves (table : SymbolTable) : Preserves next P (dropUnusedInputs table) := by
  intro stm names new names' applied below h
  obtain ⟨k, launched, _, rfl, rfl⟩ := dropUnusedInputs_eq_some applied
  have inside := Stm.seated_launch launched h
  rw [Kernel.seats_map, seated_append, seated_seatsOf, List.forall_mem_map] at inside
  refine ⟨seated_withKernel h ?_, below⟩
  rw [Kernel.seats_map, seated_append, seated_seatsOf, List.forall_mem_map]
  exact ⟨fun i mem => inside.1 i (List.mem_of_mem_filter mem), inside.2⟩

theorem inlineInput_seated (steady : Steady next P) {consumed : Bool} {input : MapInput} {stms : List Stm}
    (made : inlineInput table consumed input names = some (stms, names')) (below : next ≤ names.next) (h : P ⟨input.param, true⟩) :
    Seated P (seatsInStms stms) ∧ next ≤ names'.next := by
  have computed := steady.computed input.param.ty h
  obtain ⟨d, e, _, _, leaf, _, rfl, rfl⟩ | ⟨_, _, _, _, _, _, rfl, rfl⟩ := inlineInput_eq_some made
  · exact ⟨seated_stms_cons.mpr ⟨seated_single leaf computed, seated_nil⟩, below⟩
  · have drawn := steady.drawn (v := (names.fresh "iota_offset").1) (.scalar .i64) below
    exact ⟨seated_stms_cons.mpr ⟨seated_single rfl drawn, seated_stms_cons.mpr ⟨seated_single rfl computed, seated_nil⟩⟩,
      Nat.le_succ_of_le below⟩

theorem inlineEach_seated (steady : Steady next P) {consumed : NameSet} {inputs kept : List MapInput}
    (made : inlineEach table consumed inputs names = (stms, kept, names')) (below : next ≤ names.next)
    (h : ∀ i ∈ inputs, P ⟨i.param, true⟩) :
    Seated P (seatsInStms stms) ∧ (∀ i ∈ kept, P ⟨i.param, true⟩) ∧ next ≤ names'.next := by
  induction inputs generalizing names stms kept names' with
  | nil =>
    cases made
    exact ⟨seated_nil, h, below⟩
  | cons input inputs ih =>
    rw [inlineEach] at made
    obtain ⟨first, others⟩ := List.forall_mem_cons.mp h
    split at made
    · rename_i now left inlined
      obtain ⟨here, below⟩ := inlineInput_seated steady inlined below first
      rcases rest : inlineEach table consumed inputs left with ⟨later, fed, final⟩
      rw [rest] at made
      cases made
      obtain ⟨there, fed, below⟩ := ih rest below others
      exact ⟨seated_stms_append.mpr ⟨here, there⟩, fed, below⟩
    · rcases rest : inlineEach table consumed inputs names with ⟨later, fed, final⟩
      rw [rest] at made
      cases made
      obtain ⟨there, fed, below⟩ := ih rest below others
      exact ⟨there, List.forall_mem_cons.mpr ⟨first, fed⟩, below⟩

theorem inlineInputs_preserves (steady : Steady next P) (table : SymbolTable) : Preserves next P (inlineInputs table) := by
  intro stm names new names' applied below h
  obtain ⟨k, prelude, kept, launched, made, _, rfl⟩ := inlineInputs_eq_some applied
  have inside := Stm.seated_launch launched h
  rw [Kernel.seats_map, seated_append, seated_seatsOf, List.forall_mem_map, Body.seats_eq] at inside
  obtain ⟨before, fed, below⟩ := inlineEach_seated steady made below inside.1
  refine ⟨seated_withKernel h ?_, below⟩
  rw [Kernel.seats_map, seated_append, seated_seatsOf, List.forall_mem_map, Body.seats_eq, seated_stms_append]
  exact ⟨fed, before, inside.2⟩

theorem keepOutputs_seated {k : MapKernel} (launched : stm.exp = .launch (.map k)) (h : Seated P stm.seats) (flags : List Bool) :
    Seated P (keepOutputs flags stm k).seats := by
  obtain ⟨named, _⟩ := Stm.seated_iff.mp h
  have inside := Stm.seated_launch launched h
  rw [Kernel.seats_map, Body.seats_eq] at inside
  refine Stm.seated_iff.mpr ⟨fun b mem => named b ?_, ?_⟩
  · rcases List.mem_append.mp mem with context | value
    · exact List.mem_append_left _ context
    · exact List.mem_append_right _ ((pick_sublist _ _).subset value)
  · rw [keepOutputs, Exp.seats, Kernel.seats_map, Body.seats_eq]
    exact inside

theorem replicateOutputs_seated (steady : Steady next P) {k : MapKernel} {outputs : List (Binder × (Ty × List Nat) × Operand)}
    (made : replicateOutputs stm k outputs names = (stms, names')) (below : next ≤ names.next)
    (h : ∀ o ∈ outputs, P ⟨o.1, false⟩) : Seated P (seatsInStms stms) ∧ next ≤ names'.next := by
  induction outputs generalizing names stms names' with
  | nil =>
    cases made
    exact ⟨seated_nil, below⟩
  | cons output outputs ih =>
    obtain ⟨b, ⟨ty, perm⟩, value⟩ := output
    obtain ⟨first, others⟩ := List.forall_mem_cons.mp h
    rcases rest : replicateOutputs stm k outputs (names.fresh (b.name.base ++ "_flat")).2 with ⟨more, final⟩
    simp only [replicateOutputs, rest] at made
    cases made
    obtain ⟨later, further⟩ := ih rest (Nat.le_succ_of_le below) others
    have drawn := steady.drawn (v := (names.fresh (b.name.base ++ "_flat")).1) (ty.addDims [k.width]) below
    refine ⟨seated_stms_cons.mpr ⟨?_, seated_stms_cons.mpr ⟨?_, later⟩⟩, further⟩
    · refine Stm.seated_iff.mpr ⟨fun b mem => ?_, seated_nil⟩
      obtain rfl := List.mem_singleton.mp mem
      exact drawn
    · refine Stm.seated_iff.mpr ⟨fun c mem => ?_, seated_nil⟩
      obtain rfl := List.mem_singleton.mp mem
      exact first

theorem hoistInvariantOutputs_preserves (steady : Steady next P) (table : SymbolTable) :
    Preserves next P (hoistInvariantOutputs table) := by
  intro stm names new names' applied below h
  obtain ⟨k, stms, launched, _, _, _, made, moved⟩ := hoistInvariantOutputs_eq_some applied
  have named := (Stm.seated_iff.mp h).1
  obtain ⟨copies, below⟩ := replicateOutputs_seated steady made below fun o mem =>
    named o.1 (List.mem_append_right _ ((pick_sublist _ _).subset (List.of_mem_zip mem).1))
  refine ⟨?_, below⟩
  obtain ⟨rfl, _⟩ | rfl := moved
  · exact copies
  · exact seated_stms_append.mpr ⟨copies, seated_stms_cons.mpr ⟨keepOutputs_seated launched h _,
      seated_nil⟩⟩

theorem dropDeadOutputs_preserves (table : SymbolTable) (usage : Usage) : Preserves next P (dropDeadOutputs table usage) := by
  intro stm names new names' applied below h
  obtain ⟨k, launched, _, _, rfl, ⟨rfl, _⟩ | rfl⟩ := dropDeadOutputs_eq_some applied
  · exact ⟨seated_nil, below⟩
  · exact ⟨seated_stms_cons.mpr ⟨keepOutputs_seated launched h _, seated_nil⟩, below⟩

theorem exists_of_mem_iotaParams {streams : List (Binder × Name)} {f : Binder × Operand} (mem : f ∈ iotaParams table streams) :
    f.1 ∈ streams.map Prod.fst := by
  obtain ⟨s, among, counted⟩ := List.mem_filterMap.mp mem
  obtain ⟨x, _, rfl⟩ := Option.map_eq_some_iff.mp counted
  exact List.mem_map_of_mem among

theorem iotaElements_seated (steady : Steady next P) (position : Name) {fused : List (Binder × Operand)}
    (h : ∀ f ∈ fused, P ⟨f.1, true⟩) : Seated P (seatsInStms (iotaElements position fused)) := by
  refine seated_stms.mpr fun stm mem => ?_
  obtain ⟨f, among, rfl⟩ := List.mem_map.mp mem
  exact seated_single rfl (steady.computed _ (h f among))

theorem iotaChunks_seated (steady : Steady next P) {thread count : Name} {size : LaunchSize} {division : Division}
    {fused : List (Binder × Operand)} (made : iotaChunks thread count size division fused names = (stms, names'))
    (below : next ≤ names.next) (h : ∀ f ∈ fused, P ⟨f.1, true⟩) : Seated P (seatsInStms stms) ∧ next ≤ names'.next := by
  induction fused generalizing names stms names' with
  | nil =>
    cases made
    exact ⟨seated_nil, below⟩
  | cons f fused ih =>
    obtain ⟨param, x⟩ := f
    obtain ⟨first, others⟩ := List.forall_mem_cons.mp h
    have computed := steady.computed param.ty first
    have start := steady.drawn (v := (names.fresh "iota_start").1) (.scalar .i64) below
    cases division with
    | strided =>
      rcases rest : iotaChunks thread count size .strided fused (names.fresh "iota_start").2 with ⟨more, final⟩
      simp only [iotaChunks, rest] at made
      cases made
      obtain ⟨later, further⟩ := ih rest (Nat.le_succ_of_le below) others
      exact ⟨seated_stms_cons.mpr ⟨seated_single rfl start, seated_stms_cons.mpr ⟨seated_single rfl computed, later⟩⟩, further⟩
    | contiguous =>
      rcases rest : iotaChunks thread count size .contiguous fused ((names.fresh "iota_start").2.fresh "iota_offset").2
        with ⟨more, final⟩
      simp only [iotaChunks, rest] at made
      cases made
      have offset := steady.drawn (v := ((names.fresh "iota_start").2.fresh "iota_offset").1) (.scalar .i64) (Nat.le_succ_of_le below)
      obtain ⟨later, further⟩ := ih rest (Nat.le_succ_of_le (Nat.le_succ_of_le below)) others
      exact ⟨seated_stms_cons.mpr ⟨seated_single rfl offset, seated_stms_cons.mpr ⟨seated_single rfl start,
        seated_stms_cons.mpr ⟨seated_single rfl computed, later⟩⟩⟩, further⟩

/-- Streamed parameters that are dropped or computed. -/
theorem Lambda.withStreams_seated {op : Lambda} {leading : List Binder} {streams : List (Binder × Name)} {before : List Stm}
    (first : ∀ b ∈ leading, P ⟨b, false⟩) (fed : ∀ b ∈ streams.map Prod.fst, P ⟨b, true⟩) (inside : Seated P op.body.seats)
    (made : Seated P (seatsInStms before)) : Seated P ((op.withStreams leading streams before).seats leading.length) := by
  rw [Lambda.seated_iff, withStreams, List.take_left, List.drop_left, Body.seats_eq, seated_stms_append, ← Body.seats_eq]
  exact ⟨first, fed, made, inside⟩

theorem fed_of_zip (table : SymbolTable) {params : List Binder} (h : ∀ b ∈ params, P ⟨b, true⟩) (arrays : List Name) :
    (∀ f ∈ iotaParams table (params.zip arrays), P ⟨f.1, true⟩) ∧
      ∀ b ∈ (otherStreams table (params.zip arrays)).map Prod.fst, P ⟨b, true⟩ := by
  constructor
  · intro f mem
    obtain ⟨s, among, same⟩ := List.mem_map.mp (exists_of_mem_iotaParams mem)
    exact same ▸ h s.1 (List.of_mem_zip among).1
  · intro b mem
    obtain ⟨s, among, rfl⟩ := List.mem_map.mp mem
    exact h s.1 (List.of_mem_zip (List.mem_of_mem_filter among)).1

theorem inlineChunkIotas_preserves (steady : Steady next P) (table : SymbolTable) : Preserves next P (inlineChunkIotas table) := by
  intro stm names new names' applied below h
  obtain ⟨k, thread, count, params, before, launched, given, _, _, made, rfl⟩ := inlineChunkIotas_eq_some applied
  have inside := Stm.seated_launch launched h
  rw [Kernel.seats_chunked, Lambda.seated_iff, given] at inside
  obtain ⟨first, fed, inside⟩ := inside
  obtain ⟨fused, kept⟩ := fed_of_zip table fed k.arrays
  obtain ⟨chunks, below⟩ := iotaChunks_seated steady made below fused
  refine ⟨seated_withKernel h ?_, below⟩
  rw [Kernel.seats_chunked]
  exact Lambda.withStreams_seated first kept inside chunks

theorem inlineScanIotas_preserves (steady : Steady next P) (table : SymbolTable) : Preserves next P (inlineScanIotas table) := by
  intro stm names new names' applied below h
  obtain ⟨k, index, params, streams, launched, given, long, rfl, _, rfl, rfl⟩ := inlineScanIotas_eq_some applied
  have inside := Stm.seated_launch launched h
  rw [Kernel.seats_scan] at inside
  obtain ⟨combine, fold⟩ := seated_append.mp inside
  rw [Lambda.seated_iff, given, Nat.add_comm, List.take_succ_cons, List.drop_succ_cons] at fold
  obtain ⟨first, fed, inside⟩ := fold
  obtain ⟨fused, kept⟩ := fed_of_zip table fed k.arrays
  have leading : 1 + k.neutral.length = (index :: params.take k.neutral.length).length := by
    rw [List.length_cons, List.length_take, Nat.min_eq_left (by omega), Nat.add_comm]
  refine ⟨seated_withKernel h ?_, below⟩
  rw [Kernel.seats_scan, seated_append]
  refine ⟨combine, ?_⟩
  dsimp only
  rw [leading]
  exact Lambda.withStreams_seated first kept inside (iotaElements_seated steady _ fused)

theorem inlineScatterIotas_preserves (steady : Steady next P) (table : SymbolTable) :
    Preserves next P (inlineScatterIotas table) := by
  intro stm names new names' applied below h
  obtain ⟨k, index, params, launched, given, _, _, rfl, rfl⟩ := inlineScatterIotas_eq_some applied
  have inside := Stm.seated_launch launched h
  rw [Kernel.seats_scatter, Lambda.seated_iff, given] at inside
  obtain ⟨first, fed, inside⟩ := inside
  obtain ⟨fused, kept⟩ := fed_of_zip table fed k.arrays
  refine ⟨seated_withKernel h ?_, below⟩
  rw [Kernel.seats_scatter]
  exact Lambda.withStreams_seated first kept inside (iotaElements_seated steady _ fused)

namespace RuleSet

/-- Rules whose replacements have the property. -/
structure Preserving (next : Nat) (P : Seat → Prop) (rules : RuleSet) : Prop where
  down : ∀ table, Preserves next P (rules.replaceDown table)
  up : ∀ table usage, Preserves next P (rules.replaceUp table usage)

theorem standard_preserving (steady : Steady next P) : standard.Preserving next P where
  down table := by
    intro stm names new names' applied
    obtain ⟨rule, mem, applied⟩ := List.exists_of_findSome?_eq_some applied
    simp only [standard, List.mem_cons, List.not_mem_nil, or_false] at mem
    rcases mem with rfl | rfl | rfl | rfl | rfl | rfl
    · exact dropUnusedInputs_preserves table applied
    · exact inlineInputs_preserves steady table applied
    · exact hoistInvariantOutputs_preserves steady table applied
    · exact inlineChunkIotas_preserves steady table applied
    · exact inlineScanIotas_preserves steady table applied
    · exact inlineScatterIotas_preserves steady table applied
  up table usage := by
    intro stm names new names' applied
    obtain ⟨rule, mem, applied⟩ := List.exists_of_findSome?_eq_some applied
    obtain rfl := List.mem_singleton.mp mem
    exact dropDeadOutputs_preserves table usage applied

end RuleSet

end

/-! Sweeps -/

/-- Whatever the step gives, from a supply that is past `next`, is as stated, and the supply is still past `next`. -/
def Yields {α : Type} (next : Nat) (m : Simplify α) (Q : α → Prop) : Prop :=
  ∀ p r q, next ≤ p.names.next → m p = .ok (r, q) → Q r ∧ next ≤ q.names.next

namespace Yields

variable {α β : Type} {next : Nat} {m : Simplify α} {f : α → Simplify β} {Q Q' : α → Prop} {R : β → Prop}

theorem pure {r : α} (h : Q r) : Yields next (pure r) Q := by
  intro p r' q below ran
  obtain ⟨rfl, rfl⟩ := Pass.pure_eq_ok.mp ran
  exact ⟨h, below⟩

theorem bind (first : Yields next m Q) (second : ∀ r, Q r → Yields next (f r) R) : Yields next (m >>= f) R := by
  intro p s q below ran
  obtain ⟨r, between, ran₁, ran₂⟩ := Pass.bind_eq_ok.mp ran
  obtain ⟨here, below⟩ := first _ _ _ below ran₁
  exact second r here _ _ _ below ran₂

theorem mapM {f : α → Simplify β} {rel : α → β → Prop} {xs : List α} (one : ∀ x ∈ xs, Yields next (f x) (rel x)) :
    Yields next (xs.mapM f) (List.Forall₂ rel xs) := by
  induction xs with
  | nil => exact .pure .nil
  | cons x xs ih =>
    obtain ⟨first, others⟩ := List.forall_mem_cons.mp one
    rw [List.mapM_cons]
    exact first.bind fun y here => (ih others).bind fun ys rest => .pure (.cons here rest)

end Yields

/-- What leaves a body and what stays have the property. -/
def BodySimplifier.Preserving (next : Nat) (P : Seat → Prop) (inner : BodySimplifier) : Prop :=
  ∀ scope blocker (body : Body), Seated P body.seats →
    Yields next (inner scope blocker body) fun r => Seated P (seatsInStms r.1) ∧ Seated P r.2.seats

section
variable {next : Nat} {P : Seat → Prop} {s : Simplifier} {inner : BodySimplifier} {scope : SymbolTable}

theorem Steady.resolveBinder (steady : Steady next P) {bs : List Binder} {fed : Bool} (h : ∀ b ∈ bs, P ⟨b, fed⟩) :
    ∀ b ∈ bs.map scope.resolveBinder, P ⟨b, fed⟩ := by
  intro b mem
  obtain ⟨old, among, rfl⟩ := List.mem_map.mp mem
  exact steady.retyped _ (h old among)

theorem Steady.resolvePattern (steady : Steady next P) {pat : Pattern} (h : ∀ b ∈ pat.binders, P ⟨b, false⟩) :
    ∀ b ∈ (scope.resolvePattern pat).binders, P ⟨b, false⟩ := by
  have same : (scope.resolvePattern pat).binders = pat.binders.map scope.resolveBinder := List.map_append.symm
  exact same ▸ steady.resolveBinder h

namespace Simplifier

theorem lambdaWith_yields (steady : Steady next P) (h : inner.Preserving next P) (blocker : Blocker) {op : Lambda} {leading : Nat}
    (given : Seated P (op.seats leading)) :
    Yields next (lambdaWith inner scope blocker op) fun r =>
      Seated P (seatsInStms r.1) ∧ Seated P (r.2.seats leading) ∧ r.2.params.length = op.params.length := by
  obtain ⟨first, fed, inside⟩ := Lambda.seated_iff.mp given
  refine (h _ _ _ inside).bind fun r swept => .pure ⟨swept.1, Lambda.seated_iff.mpr ⟨?_, ?_, swept.2⟩, List.length_map _⟩
  · rw [← List.map_take]
    exact steady.resolveBinder first
  · rw [← List.map_drop]
    exact steady.resolveBinder fed

/-- An operator without fed parameters. -/
theorem lambdaWith_yields_plain (steady : Steady next P) (h : inner.Preserving next P) (blocker : Blocker) {op : Lambda}
    (given : Seated P (op.seats op.params.length)) :
    Yields next (lambdaWith inner scope blocker op) fun r =>
      Seated P (seatsInStms r.1) ∧ Seated P (r.2.seats r.2.params.length) := by
  intro p r q below ran
  obtain ⟨⟨left, swept, same⟩, below⟩ := lambdaWith_yields steady h blocker given _ _ _ below ran
  exact ⟨⟨left, same ▸ swept⟩, below⟩

theorem sweepMap_yields (steady : Steady next P) (h : inner.Preserving next P) {k : MapKernel} (given : Seated P (Kernel.map k).seats) :
    Yields next (s.sweepMap inner scope k) fun r => Seated P (seatsInStms r.1) ∧ Seated P (Kernel.map r.2).seats := by
  rw [Kernel.seats_map, seated_append, seated_seatsOf] at given
  refine (h _ _ _ given.2).bind fun r swept => .pure ⟨swept.1, ?_⟩
  rw [Kernel.seats_map, seated_append, seated_seatsOf]
  refine ⟨?_, swept.2⟩
  have inputs : (k.inputs.map (resolveInput scope)).map MapInput.param = (k.inputs.map MapInput.param).map scope.resolveBinder := by
    rw [List.map_map, List.map_map]
    rfl
  exact inputs ▸ steady.resolveBinder given.1

theorem groupStm_yields (steady : Steady next P) (h : inner.Preserving next P) {bound : NameSet} {stm : GroupStm}
    (given : Seated P stm.seats) :
    Yields next (s.groupStm inner scope bound stm) fun r => Seated P (seatsInStms r.1) ∧ Seated P r.2.1.seats := by
  cases stm with
  | split size chunks division width perThread arrays =>
    rw [GroupStm.seats, seated_seatsOf] at given
    refine .pure ⟨seated_nil, ?_⟩
    rw [GroupStm.seats, seated_seatsOf]
    exact steady.resolveBinder given
  | thread pat only body =>
    rw [GroupStm.seats, seated_append, seated_seatsOf] at given
    refine (h _ _ _ given.2).bind fun r swept => .pure ⟨swept.1, ?_⟩
    rw [GroupStm.seats, seated_append, seated_seatsOf]
    exact ⟨steady.resolvePattern given.1, swept.2⟩
  | reduce pat width op inputs =>
    rw [GroupStm.seats, seated_append, seated_seatsOf] at given
    refine (lambdaWith_yields_plain steady h .always given.2).bind fun r swept => ?_
    obtain ⟨hoisted, op'⟩ := r
    dsimp only
    split
    · refine .pure ⟨seated_nil, ?_⟩
      rw [GroupStm.seats, seated_append, seated_seatsOf]
      exact ⟨steady.resolvePattern given.1, swept.2⟩
    · intro p r q _ ran
      cases ran

theorem groupStms_yields (steady : Steady next P) (h : inner.Preserving next P) {stms : List GroupStm} (scope : SymbolTable)
    (bound : NameSet) (given : Seated P (seatsInGroupStms stms)) :
    Yields next (s.groupStms inner scope bound stms) fun r => Seated P (seatsInStms r.1) ∧ Seated P (seatsInGroupStms r.2.1) := by
  induction stms generalizing scope bound with
  | nil => exact .pure ⟨seated_nil, given⟩
  | cons stm stms ih =>
    rw [seatsInGroupStms, seated_append] at given
    refine (groupStm_yields steady h given.1).bind fun r first => (ih _ _ given.2).bind fun r' rest => .pure ⟨?_, ?_⟩
    · exact seated_stms_append.mpr ⟨first.1, rest.1⟩
    · rw [seatsInGroupStms, seated_append]
      exact ⟨first.2, rest.2⟩

theorem kernel_yields (steady : Steady next P) (h : inner.Preserving next P) {k : Kernel} (given : Seated P k.seats) :
    Yields next (s.kernel inner scope k) fun r => Seated P (seatsInStms r.1) ∧ Seated P r.2.seats := by
  cases k with
  | map k => exact (sweepMap_yields steady h given).bind fun r swept => .pure swept
  | scan k =>
    rw [Kernel.seats_scan, seated_append] at given
    refine (lambdaWith_yields_plain steady h s.parallel given.1).bind fun r combine =>
      (lambdaWith_yields steady h s.parallel given.2).bind fun r' fold => .pure ⟨?_, ?_⟩
    · exact seated_stms_append.mpr ⟨combine.1, fold.1⟩
    · rw [Kernel.seats_scan, seated_append, SymbolTable.resolveOperands, List.length_map]
      exact ⟨combine.2, fold.2.1⟩
  | chunked k =>
    rw [Kernel.seats_chunked] at given
    refine (lambdaWith_yields steady h s.parallel given).bind fun r swept => .pure ⟨swept.1, ?_⟩
    rw [Kernel.seats_chunked]
    exact swept.2.1
  | scatter k =>
    rw [Kernel.seats_scatter] at given
    refine (lambdaWith_yields steady h s.parallel given).bind fun r swept => .pure ⟨swept.1, ?_⟩
    rw [Kernel.seats_scatter]
    exact swept.2.1
  | group k =>
    rw [Kernel.seats_group] at given
    have swept (scope : SymbolTable) : Yields next (s.groupBody inner scope k.space.names k.body) fun r =>
        Seated P (seatsInStms r.1) ∧ Seated P (seatsInGroupStms r.2.stms) := by
      refine (groupStms_yields steady h scope _ given).bind fun r rest => .pure ⟨rest.1, seated_groupStms.mpr fun stm mem => ?_⟩
      exact seated_groupStms.mp rest.2 stm ((liveGroupStms_sublist _ _).subset mem)
    refine (swept _).bind fun r rest => .pure ⟨rest.1, ?_⟩
    rw [Kernel.seats_group]
    exact rest.2
  | numGroups => exact .pure ⟨seated_nil, given⟩
  | groupSize => exact .pure ⟨seated_nil, given⟩

theorem exp_yields (steady : Steady next P) (h : inner.Preserving next P) {e : Exp} (given : Seated P e.seats) :
    Yields next (s.exp inner scope e) fun r => Seated P (seatsInStms r.1) ∧ Seated P r.2.seats := by
  cases e with
  | branch cond onTrue onFalse ret =>
    rw [Exp.seats, seated_append] at given
    refine (h _ _ _ given.1).bind fun r first => (h _ _ _ given.2).bind fun r' second => .pure ⟨?_, ?_⟩
    · exact seated_stms_append.mpr ⟨first.1, second.1⟩
    · rw [Exp.seats, seated_append]
      exact ⟨first.2, second.2⟩
  | loop context values index bound body =>
    rw [Exp.seats, seated_append, seated_seatsOf] at given
    refine (h _ _ _ given.2).bind fun r swept => .pure ⟨swept.1, ?_⟩
    rw [Exp.seats, seated_append, seated_seatsOf]
    refine ⟨?_, swept.2⟩
    have params : (resolveMerge scope context ++ resolveMerge scope values).map Prod.fst =
        ((context ++ values).map Prod.fst).map scope.resolveBinder := by
      rw [resolveMerge, resolveMerge, ← List.map_append, List.map_map, List.map_map]
      rfl
    exact params ▸ steady.resolveBinder given.1
  | launch k =>
    rw [Exp.seats] at given
    refine (kernel_yields steady h given).bind fun r swept => .pure ⟨swept.1, ?_⟩
    rw [Exp.seats]
    exact swept.2
  | operand | binary | compare | index | update | iota | replicate | reshape | rearrange | copy | alloc =>
    exact .pure ⟨seated_nil, given⟩

theorem stm_yields (steady : Steady next P) (h : inner.Preserving next P) {stm : Stm} (given : Seated P stm.seats) :
    Yields next (s.stm inner scope stm) fun r => Seated P (seatsInStms r.1) ∧ Seated P r.2.seats := by
  obtain ⟨named, inside⟩ := Stm.seated_iff.mp given
  refine (exp_yields steady h inside).bind fun r swept => .pure ⟨swept.1, Stm.seated_iff.mpr ⟨?_, swept.2⟩⟩
  exact steady.resolvePattern named

/-- The statements of the level have the property. -/
abbrev LevelSeated (P : Seat → Prop) (level : Level) : Prop :=
  Seated P (seatsInStms level.kept) ∧ Seated P (seatsInStms level.hoisted)

theorem LevelSeated.add {level : Level} {blocker : Blocker} {stm : Stm} (h : LevelSeated P level) (new : Seated P stm.seats) :
    LevelSeated P (level.add blocker stm) := by
  have behind (stms : List Stm) (before : Seated P (seatsInStms stms)) : Seated P (seatsInStms (stms ++ [stm])) :=
    seated_stms_append.mpr ⟨before, seated_stms_cons.mpr ⟨new, seated_nil⟩⟩
  unfold Level.add
  split
  · exact ⟨behind _ h.1, h.2⟩
  · exact ⟨h.1, behind _ h.2⟩

theorem level_seated (steady : Steady next P) (rules : s.rules.Preserving next P) (h : inner.Preserving next P) (blocker : Blocker) :
    Kept (fun queue level p => Seated P (seatsInStms queue) ∧ LevelSeated P level ∧ next ≤ p.names.next)
      (fun level stm => s.fireDown level.scope stm) (s.settle inner blocker) where
  replaced := by
    rintro stm queue level new p q ⟨waiting, done, below⟩ fired
    obtain ⟨first, others⟩ := seated_stms_cons.mp waiting
    unfold fireDown at fired
    split at fired
    · rename_i found
      cases fired
      obtain ⟨new, below⟩ := rules.down level.scope found below first
      exact ⟨seated_stms_append.mpr ⟨new, others⟩, done, below⟩
    · cases fired
  passed := by
    intro stm queue level p q holds fired
    unfold fireDown at fired
    split at fired
    · cases fired
    · cases fired
      exact holds
  settled := by
    rintro stm queue level out p q ⟨waiting, done, below⟩ ran
    obtain ⟨first, others⟩ := seated_stms_cons.mp waiting
    obtain ⟨⟨left, stm'⟩, between, swept, ran⟩ := Pass.bind_eq_ok.mp ran
    obtain ⟨rfl, rfl⟩ := Pass.pure_eq_ok.mp ran
    obtain ⟨⟨risen, here⟩, below⟩ := stm_yields steady h first _ _ _ below swept
    have all : Seated P (seatsInStms (left ++ [stm'])) :=
      seated_stms_append.mpr ⟨risen, seated_stms_cons.mpr ⟨here, seated_nil⟩⟩
    refine ⟨others, ?_, below⟩
    exact List.foldlRecOn (motive := LevelSeated P) _ _ done fun level holds stm mem => holds.add (seated_stms.mp all stm mem)

theorem sweepUp_yields (rules : s.rules.Preserving next P) (scope : SymbolTable) (result : List Operand) {stms : List Stm}
    (given : Seated P (seatsInStms stms)) : Yields next (s.sweepUp scope result stms) fun r => Seated P (seatsInStms r.2) := by
  induction stms with
  | nil => exact .pure given
  | cons stm stms ih =>
    obtain ⟨first, others⟩ := seated_stms_cons.mp given
    refine (ih others).bind fun r rest => ?_
    obtain ⟨usage, live⟩ := r
    have fired : Yields next (s.fireUp scope usage stm) fun r => ∀ new, r = some new → Seated P (seatsInStms new) := by
      intro p r q below ran
      unfold fireUp at ran
      split at ran
      · rename_i found
        cases ran
        obtain ⟨new, below⟩ := rules.up scope usage found below first
        refine ⟨fun _ same => ?_, below⟩
        cases same
        exact new
      · cases ran
        refine ⟨fun _ none => ?_, below⟩
        cases none
    dsimp only
    split
    · refine fired.bind fun r made => ?_
      cases r with
      | some new => exact .pure (seated_stms_append.mpr ⟨made new rfl, rest⟩)
      | none => exact .pure (seated_stms_cons.mpr ⟨first, rest⟩)
    · exact .pure rest

theorem sweepBody_preserving (steady : Steady next P) (rules : s.rules.Preserving next P) (h : inner.Preserving next P) :
    (s.sweepBody inner).Preserving next P := by
  intro scope blocker body given
  rw [Body.seats_eq] at given
  have drained : Yields next (drain (fun level stm => s.fireDown level.scope stm) (s.settle inner blocker)
      (replacementsIn body.stms) body.stms (.start scope body)) (LevelSeated P) := by
    intro p level q below ran
    obtain ⟨_, done, below⟩ := (level_seated steady rules h blocker).drain ⟨given, ⟨seated_nil, seated_nil⟩, below⟩ ran
    exact ⟨done, below⟩
  refine drained.bind fun level done => (sweepUp_yields rules _ _ done.1).bind fun r live => .pure ⟨done.2, ?_⟩
  rw [Body.seats_eq]
  exact live

/-- A sweep to any depth keeps a property of the seats that it may not notice. -/
theorem bodyTo_preserving (steady : Steady next P) (rules : s.rules.Preserving next P) (depth : Nat) :
    (s.bodyTo depth).Preserving next P := by
  induction depth with
  | zero => exact fun _ _ _ given => .pure ⟨seated_nil, given⟩
  | succ depth ih => exact sweepBody_preserving steady rules ih

end Simplifier

theorem FunDecl.sweep_yields (steady : Steady next P) (rules : s.rules.Preserving next P) {f : FunDecl} (given : Seated P f.seats) :
    Yields next (f.sweep s) fun f' => f'.name = f.name ∧ Seated P f'.seats := by
  obtain ⟨params, inside⟩ := seated_append.mp given
  refine (Simplifier.bodyTo_preserving steady rules f.body.depth _ _ _ inside).bind fun r swept => ?_
  obtain ⟨hoisted, body⟩ := r
  dsimp only
  split
  · exact .pure ⟨rfl, seated_append.mpr ⟨params, swept.2⟩⟩
  · intro p r q _ ran
    cases ran

theorem FunDecl.simplify_yields (steady : Steady next P) (rules : s.rules.Preserving next P) (n : Nat) {f : FunDecl}
    (given : Seated P f.seats) : Yields next (f.simplify s n) fun f' => f'.name = f.name ∧ Seated P f'.seats := by
  induction n generalizing f with
  | zero => exact .pure ⟨rfl, given⟩
  | succ n ih =>
    refine (FunDecl.sweep_yields steady rules given).bind fun f' swept => ?_
    split
    · exact .pure swept
    · intro p r q below ran
      obtain ⟨⟨same, seated⟩, below⟩ := ih swept.2 _ _ _ below ran
      exact ⟨⟨same.trans swept.1, seated⟩, below⟩

end

/-! Where the binders of the outcome come from -/

/-- How a binder of the outcome is related to those that were there: it is one of them, but for its type; or a statement binds
it without a placement, and its name was that of a fed binder or has been drawn. -/
inductive Seat.StemsFrom (next : Nat) (before : List Seat) (s : Seat) : Prop
  | kept (old : Seat) (mem : old ∈ before) (name : old.binder.name = s.binder.name) (place : s.binder.place = old.binder.place)
      (fed : s.fed = old.fed)
  | computed (old : Seat) (mem : old ∈ before) (name : old.binder.name = s.binder.name) (fed : old.fed = true)
      (unplaced : s.binder.place = none) (settled : s.fed = false)
  | drawn (new : next ≤ s.binder.name.tag) (unplaced : s.binder.place = none) (settled : s.fed = false)

theorem Seat.stemsFrom_steady (next : Nat) (before : List Seat) : Steady next (Seat.StemsFrom next before) where
  retyped := by
    intro b fed ty h
    cases h with
    | kept old mem name place fed => exact .kept old mem name place fed
    | computed old mem name fed unplaced settled => exact .computed old mem name fed unplaced settled
    | drawn new unplaced settled => exact .drawn new unplaced settled
  computed := by
    intro b ty h
    cases h with
    | kept old mem name place fed => exact .computed old mem name fed.symm rfl rfl
    | computed old mem name fed unplaced settled => cases settled
    | drawn new unplaced settled => cases settled
  drawn ty new := .drawn new rfl rfl

/-! Distinct binders have distinct seats -/

def Seat.name (s : Seat) : Name := s.binder.name

theorem names_seatsOf (fed : Bool) (bs : List Binder) : (seatsOf fed bs).map Seat.name = bs.map Binder.name := by
  rw [seatsOf, List.map_map]
  rfl

mutual

theorem Exp.seats_sublist : ∀ e : Exp, (e.seats.map Seat.name).Sublist e.bound
  | .operand _ | .binary .. | .compare .. | .index .. | .update .. | .iota .. | .replicate .. | .reshape .. | .rearrange ..
  | .copy _ | .alloc .. => .slnil
  | .branch _ onTrue onFalse _ => by
    rw [Exp.seats, Exp.bound, List.map_append]
    exact onTrue.seats_sublist.append onFalse.seats_sublist
  | .loop context values index _ body => by
    rw [Exp.seats, Exp.bound, List.map_append, names_seatsOf, List.map_map]
    exact (List.sublist_append_left _ _).append body.seats_sublist
  | .launch k => by
    rw [Exp.seats, Exp.bound]
    exact k.seats_sublist

theorem seatsInStms_sublist : ∀ stms : List Stm, ((seatsInStms stms).map Seat.name).Sublist (boundInStms stms)
  | [] => .slnil
  | ⟨pat, certs, exp⟩ :: stms => by
    rw [seatsInStms, boundInStms, List.map_append, List.map_append, names_seatsOf]
    exact (exp.seats_sublist.append_left _).append (seatsInStms_sublist stms)

theorem Body.seats_sublist : ∀ body : Body, (body.seats.map Seat.name).Sublist body.bound
  | ⟨stms, _⟩ => seatsInStms_sublist stms

theorem Lambda.seats_sublist : ∀ (op : Lambda) (leading : Nat), ((op.seats leading).map Seat.name).Sublist op.bound
  | ⟨params, body, _⟩, leading => by
    rw [Lambda.seats, Lambda.bound, List.map_append, List.map_append, names_seatsOf, names_seatsOf, ← List.map_append,
      List.take_append_drop]
    exact body.seats_sublist.append_left _

theorem Kernel.seats_sublist : ∀ k : Kernel, (k.seats.map Seat.name).Sublist k.bound
  | .map ⟨_, _, thread, space, inputs, _, body⟩ => by
    rw [Kernel.seats, Kernel.bound, List.map_append, names_seatsOf, List.map_map]
    exact (List.sublist_append_right _ _).append body.seats_sublist
  | .scan ⟨_, _, _, combine, fold, _, _⟩ => by
    rw [Kernel.seats, Kernel.bound, List.map_append]
    exact (combine.seats_sublist _).append (fold.seats_sublist _)
  | .chunked ⟨_, _, _, _, op, _⟩ => op.seats_sublist 2
  | .scatter ⟨_, _, op, _, _⟩ => op.seats_sublist 1
  | .group ⟨_, _, _, _, body⟩ => body.seats_sublist.trans (List.sublist_append_right _ _)
  | .numGroups | .groupSize => .slnil

theorem GroupStm.seats_sublist : ∀ stm : GroupStm, (stm.seats.map Seat.name).Sublist stm.bound
  | .split size chunks _ _ _ _ => by
    rw [GroupStm.seats, GroupStm.bound, names_seatsOf, List.map_cons]
  | .thread pat _ body => by
    rw [GroupStm.seats, GroupStm.bound, List.map_append, names_seatsOf]
    exact body.seats_sublist.append_left _
  | .reduce pat _ op _ => by
    rw [GroupStm.seats, GroupStm.bound, List.map_append, names_seatsOf]
    exact (op.seats_sublist _).append_left _

theorem seatsInGroupStms_sublist : ∀ stms : List GroupStm, ((seatsInGroupStms stms).map Seat.name).Sublist (boundInGroupStms stms)
  | [] => .slnil
  | stm :: stms => by
    rw [seatsInGroupStms, boundInGroupStms, List.map_append]
    exact stm.seats_sublist.append (seatsInGroupStms_sublist stms)

theorem GroupBody.seats_sublist : ∀ body : GroupBody, (body.seats.map Seat.name).Sublist body.bound
  | ⟨stms, _⟩ => seatsInGroupStms_sublist stms

end

theorem FunDecl.seat_unique {f : FunDecl} (distinct : (f.params.map Binder.name ++ f.body.bound).Nodup) {s t : Seat}
    (left : s ∈ f.seats) (right : t ∈ f.seats) (same : s.binder.name = t.binder.name) : s = t := by
  have names : (f.seats.map Seat.name).Sublist (f.params.map Binder.name ++ f.body.bound) := by
    rw [FunDecl.seats, List.map_append, names_seatsOf]
    exact f.body.seats_sublist.append_left _
  exact List.inj_on_of_nodup_map (names.nodup distinct) left right same

theorem Seat.StemsFrom.placement {f : FunDecl} (distinct : (f.params.map Binder.name ++ f.body.bound).Nodup) {next : Nat} {s t : Seat}
    (h : t.StemsFrom next f.seats) (mem : s ∈ f.seats) (same : t.binder.name = s.binder.name) :
    t.binder.place = s.binder.place ∧ t.fed = s.fed ∨
      t.binder.place = none ∧ t.fed = false ∧ (s.fed = true ∨ next ≤ s.binder.name.tag) := by
  cases h with
  | kept old among name place fed =>
    obtain rfl := FunDecl.seat_unique distinct among mem (name.trans same)
    exact .inl ⟨place, fed⟩
  | computed old among name fed unplaced settled =>
    obtain rfl := FunDecl.seat_unique distinct among mem (name.trans same)
    exact .inr ⟨unplaced, settled, .inl fed⟩
  | drawn new unplaced settled => exact .inr ⟨unplaced, settled, .inr (same ▸ new)⟩

/-- A name that a function binds before and after simplification has the same placement, and is bound in the same role. There are
two exceptions, in which a statement binds the name without a placement: the name was that of a fed parameter, whose
value the statement computes, or the supply was not new and has handed out the name once more. -/
theorem Program.simplify_keeps_placements {options : SimplifyOptions} {names names' : NameSupply} {p p' : Program}
    (distinct : ∀ f ∈ p.funs, (f.params.map Binder.name ++ f.body.bound).Nodup)
    (simplified : p.simplify options names = .ok (p', names')) :
    List.Forall₂ (fun f f' => f'.name = f.name ∧ ∀ s ∈ f.seats, ∀ t ∈ f'.seats, t.binder.name = s.binder.name →
      t.binder.place = s.binder.place ∧ t.fed = s.fed ∨
      t.binder.place = none ∧ t.fed = false ∧ (s.fed = true ∨ names.next ≤ s.binder.name.tag)) p.funs p'.funs := by
  have each (f : FunDecl) (_ : f ∈ p.funs) : Yields names.next (f.simplify (.make .standard options.keepFailing) options.passes)
      fun f' => f'.name = f.name ∧ Seated (Seat.StemsFrom names.next f.seats) f'.seats :=
    FunDecl.simplify_yields (Seat.stemsFrom_steady _ _) (RuleSet.standard_preserving (Seat.stemsFrom_steady _ _)) _
      fun s mem => .kept s mem rfl rfl rfl
  rw [simplify] at simplified
  cases ran : p.simplifyWith .standard options ⟨names, 0⟩ with
  | error e =>
    rw [ran] at simplified
    cases simplified
  | ok done =>
    obtain ⟨simplest, last⟩ := done
    rw [ran] at simplified
    cases simplified
    obtain ⟨funs, between, all, ran⟩ := Pass.bind_eq_ok.mp ran
    obtain ⟨same, rfl⟩ := Pass.pure_eq_ok.mp ran
    cases same
    have origins := (Yields.mapM each ⟨names, 0⟩ _ _ (Nat.le_refl _) all).1
    refine List.Forall₂.imp ?_ ((List.forall₂_and_left _ _).mpr ⟨distinct, origins⟩)
    rintro f f' ⟨distinct, name, stems⟩
    exact ⟨name, fun s mem t mem' same => (stems t mem').placement distinct mem same⟩

/-- Takes an element out of each row of a plane of a cube. The rows, which are inputs, are placed in a block. -/
def sampleWithRows : Program :=
  let cube : Name := ⟨"cube", 0⟩
  let store : Name := ⟨"store", 1⟩
  let plane : Name := ⟨"plane", 2⟩
  let zs : Name := ⟨"zs", 3⟩
  let i : Name := ⟨"i", 5⟩
  let row : Name := ⟨"row", 6⟩
  let z : Name := ⟨"z", 7⟩
  let numbers (shape : List Operand) : Ty := .array .i64 shape false
  let placed : Binder := ⟨row, numbers [.word 4], some ⟨store, .rowMajor [.const 4]⟩⟩
  let kernel : MapKernel := ⟨[], .word 3, ⟨"t", 4⟩, [(i, .word 3)], [⟨placed, plane, [.var i]⟩], [(.scalar .i64, [0])],
    ⟨[.ofWord z (.index row [.word 1])], [.var z]⟩⟩
  ⟨[⟨"main", [⟨cube, numbers [.word 2, .word 3, .word 4], none⟩, ⟨store, .mem (.word 96) .default, none⟩], [numbers [.word 3]],
    ⟨[.single plane (numbers [.word 3, .word 4]) (.index cube [.word 0]), .single zs (numbers [.word 3]) (.launch (.map kernel))],
      [.var zs]⟩⟩]⟩

theorem sampleWithRows_simplify_keeps_placements :
    ∃ p' names', sampleWithRows.simplify {} ⟨8⟩ = .ok (p', names') ∧
      List.Forall₂ (fun f f' => f'.name = f.name ∧ ∀ s ∈ f.seats, ∀ t ∈ f'.seats, t.binder.name = s.binder.name →
        t.binder.place = s.binder.place ∧ t.fed = s.fed ∨
        t.binder.place = none ∧ t.fed = false ∧ (s.fed = true ∨ 8 ≤ s.binder.name.tag)) sampleWithRows.funs p'.funs := by
  have ends : (sampleWithRows.simplify {} ⟨8⟩).toOption.any (fun _ => true) = true := by decide +kernel
  obtain ⟨⟨p', names'⟩, simplified, _⟩ := exists_of_any ends
  exact ⟨p', names', simplified, Program.simplify_keeps_placements (by decide) simplified⟩

/-- The rows are parts of the cube instead, and no longer placed in the block. -/
theorem sampleWithRows_simplify_unplaces :
    (∀ f ∈ sampleWithRows.funs, (f.params.map Binder.name ++ f.body.bound).Nodup) ∧
    ∃ p' names', sampleWithRows.simplify {} ⟨8⟩ = .ok (p', names') ∧
      ∃ f ∈ sampleWithRows.funs, ∃ f' ∈ p'.funs, f'.name = f.name ∧
        ∃ s ∈ f.seats, ∃ t ∈ f'.seats, t.binder.name = s.binder.name ∧ t.binder.place ≠ s.binder.place := by
  have lost : (sampleWithRows.simplify {} ⟨8⟩).toOption.any (fun done => done.1.funs.any fun f' => f'.name == "main" &&
      f'.seats.any fun t => t.binder.name == ⟨"row", 6⟩ && t.binder.place == none) = true := by decide +kernel
  obtain ⟨⟨p', names'⟩, simplified, lost⟩ := exists_of_any lost
  simp only [List.any_eq_true, Bool.and_eq_true, beq_iff_eq] at lost
  obtain ⟨f', mem', name, t, among, row, unplaced⟩ := lost
  refine ⟨by decide, p', names', simplified, _, List.mem_singleton_self _, f', mem', name, ?_⟩
  let placed : Binder := ⟨⟨"row", 6⟩, .array .i64 [.word 4] false, some ⟨⟨"store", 1⟩, .rowMajor [.const 4]⟩⟩
  refine ⟨⟨placed, true⟩, ?_, t, among, row, ?_⟩
  · simp [FunDecl.seats, Body.seats, seatsInStms, Exp.seats, Kernel.seats, seatsOf, placed, Stm.single]
  · rw [unplaced]
    rintro ⟨⟩

end ArrayKernels
